/-
  Pointers and array indices in a patch, and how an index token is judged.

  `parsePointerIndex` reads a token once, testing each character and then the number so far, so
  a number that leaves the range of a `size_t` ends the loop before the later characters are
  looked at.  `parsePointerIndexFrom_eq` says what it returns in terms of the digits at the front of
  the token; a token whose fault comes behind too many of them (`LateFault`) is the one kind that it
  misjudges (`classified_of_not_late`, `parsePointerIndex_of_late`).

  The second half is what `findPointer` makes of the verdict: it reports a range only where the
  parser did not find the token malformed, and a malformed token wherever it meets one in an array.
  What a patch makes of it is shown in `IndexErrors`.
-/
import Pjson.Pointer.Find
import Pjson.Patch.Budget

namespace ByteDance

open Decimal Run

/-! ## The code -/

/-- `pointerCodeForPatch`. -/
def pointerCodeForPatch : PointerError.Code → PatchError.Code
  | .InvalidArrayIndex | .AppendTokenNotAllowed => .InvalidArrayIndex
  | .ArrayIndexOutOfRange => .ArrayIndexOutOfRange
  | .MissingTarget | .ExpectedContainer => .TargetMissing
  | .AllocationFailure => .AllocationFailure
  | .InternalError => .InternalError
  | _ => .TargetMissing

/-- `failPatchFromPointer`. -/
def failPatchFromPointer {α : Type} (pointerError : PointerError) : AccountM α :=
  failPatchAtToken (pointerCodeForPatch pointerError.code) pointerError.tokenIndex
    pointerError.token pointerError.message

/-- `decodePatchPointer`. -/
def decodePatchPointer (pointer : Bytes) (bFrom : Bool) : AccountM (List Bytes) := do
  chargePatch .work (← addSize pointer.length 1) "JSON patch work budget exceeded"
  match decodePointer pointer with
  | .ok tokens => pure tokens
  | .error e =>
      failPatchAtToken (if bFrom then .InvalidFrom else .InvalidPath) e.tokenIndex e.token e.message

/-- `resolvePatchTokens`. -/
def resolvePatchTokens (root : Pjson) (tokens : List Bytes) (count : Nat) (pointer : Bytes) :
    AccountM Location := do
  chargePatch .work (← addSize count 1) "JSON patch work budget exceeded"
  match resolvePointerTokens root tokens count pointer with
  | .ok loc => pure loc
  | .error e => failPatchFromPointer e

/-- `patchArrayIndex`: the place in an array, and whether it is the one behind the end. -/
def patchArrayIndex (parent : List Pjson) (token : Bytes) (bAllowAppend : Bool)
    (tokenIndex : Nat) : AccountM (Nat × Bool) :=
  if token = [0x2D] then
    if bAllowAppend then pure (parent.length, true)
    else
      failPatchAtToken .InvalidArrayIndex tokenIndex token
        "the '-' token is valid only for add destinations"
  else
    match parsePointerIndex token with
    | .PointerIndexInvalid =>
        failPatchAtToken .InvalidArrayIndex tokenIndex token "array index is not canonical decimal"
    | .PointerIndexOverflow =>
        failPatchAtToken .ArrayIndexOutOfRange tokenIndex token "array index is out of range"
    | .PointerIndexOk index =>
      if (if bAllowAppend then parent.length < index else parent.length ≤ index) then
        failPatchAtToken .ArrayIndexOutOfRange tokenIndex token "array index is out of range"
      else pure (index, false)

/-! ## What the index parser returns -/

/-- The digits at the front of a token. -/
def leadingDigits (token : Bytes) : Bytes := token.takeWhile fun b => decide (IsDigit b)

theorem leadingDigits_cons {ch : UInt8} (h : IsDigit ch) (token : Bytes) :
    leadingDigits (ch :: token) = ch :: leadingDigits token :=
  List.takeWhile_cons_of_pos (by simpa using h)

theorem leadingDigits_of_not {ch : UInt8} (h : ¬ IsDigit ch) (token : Bytes) :
    leadingDigits (ch :: token) = [] :=
  List.takeWhile_cons_of_neg (by simpa using h)

theorem leadingDigits_eq_self {token : Bytes} (h : AllDigits token) : leadingDigits token = token :=
  List.takeWhile_eq_self_iff.mpr fun d hd => by simpa using h d hd

theorem le_foldl_value (acc : Nat) (ds : Bytes) :
    acc ≤ ds.foldl (fun v d => v * 10 + digitVal d) acc := by
  rw [value_foldl]
  exact le_add_right (Nat.le_mul_of_pos_right _ (by positivity))

/-- The loop overflows on the digits in front, whatever comes behind them. -/
theorem parsePointerIndexFrom_eq {acc : Nat} {token : Bytes} (hacc : acc < 2 ^ 64) :
    parsePointerIndexFrom acc token =
      if 2 ^ 64 ≤ (leadingDigits token).foldl (fun v d => v * 10 + digitVal d) acc then
        .PointerIndexOverflow
      else if AllDigits token then
        .PointerIndexOk (token.foldl (fun v d => v * 10 + digitVal d) acc)
      else .PointerIndexInvalid := by
  induction token generalizing acc with
  | nil =>
    show PointerIndexResult.PointerIndexOk acc = if 2 ^ 64 ≤ acc then _ else _
    rw [if_neg (not_le.mpr hacc), if_pos allDigits_nil]
    rfl
  | cons ch token ih =>
    rw [parsePointerIndexFrom]
    by_cases hdigit : IsDigit ch
    · have hval : digitVal ch < 10 := digitVal_lt hdigit
      rw [if_neg (by rw [isDigit_not_iff]; exact not_not.mpr hdigit), leadingDigits_cons hdigit]
      rw [List.foldl_cons, List.foldl_cons]
      show (if (2 ^ 64 - 1 - digitVal ch) / 10 < acc then _ else
        parsePointerIndexFrom (acc * 10 + digitVal ch) token) = _
      by_cases hover : (2 ^ 64 - 1 - digitVal ch) / 10 < acc
      · have hle := le_foldl_value (acc * 10 + digitVal ch) (leadingDigits token)
        have hstep : 2 ^ 64 ≤ acc * 10 + digitVal ch := by omega
        rw [if_pos hover, if_pos (hstep.trans hle)]
      · rw [if_neg hover, ih (by omega)]
        have hdigits : AllDigits (ch :: token) ↔ AllDigits token := by
          rw [allDigits_cons]
          exact and_iff_right hdigit
        simp only [hdigits]
    · rw [if_pos (isDigit_not_iff.mpr hdigit), leadingDigits_of_not hdigit, List.foldl_nil,
        if_neg (not_le.mpr hacc), if_neg fun h => hdigit (allDigits_cons.mp h).1]

/-- A token with a fault behind more digits than fit into a `size_t`. -/
def LateFault (token : Bytes) : Prop :=
  ¬ AllDigits token ∧ token.head? ≠ some 0x30 ∧ 2 ^ 64 ≤ value (leadingDigits token)

instance (token : Bytes) : Decidable (LateFault token) :=
  inferInstanceAs (Decidable (_ ∧ _ ∧ _))

/-- The verdict a token deserves. -/
inductive Classified (token : Bytes) : PointerIndexResult → Prop
  | index (n : Nat) : token = numeral n → n < 2 ^ 64 → Classified token (.PointerIndexOk n)
  | large (n : Nat) : token = numeral n → 2 ^ 64 ≤ n → Classified token .PointerIndexOverflow
  | malformed : (∀ n, token ≠ numeral n) → Classified token .PointerIndexInvalid

/-- A token is a numeral if it has digits only and no leading zero. -/
theorem exists_numeral_iff {token : Bytes} : (∃ n, token = numeral n) ↔
    token ≠ [] ∧ AllDigits token ∧ ¬ (1 < token.length ∧ token.head? = some 0x30) := by
  simp only [← arrayIndex_eq_some_iff, Rfc6901.arrayIndex]
  split_ifs with h
  · exact iff_of_true ⟨_, rfl⟩ h
  · refine iff_of_false ?_ h
    rintro ⟨n, hn⟩
    cases hn

/-- **The verdict is right** unless there is a fault behind too many digits. -/
theorem classified_of_not_late {token : Bytes} (h : ¬ LateFault token) :
    Classified token (parsePointerIndex token) := by
  have hmalformed : ∀ {t : Bytes}, ¬ (t ≠ [] ∧ AllDigits t ∧
      ¬ (1 < t.length ∧ t.head? = some 0x30)) → ∀ n, t ≠ numeral n :=
    fun hshape n hn => hshape (exists_numeral_iff.mp ⟨n, hn⟩)
  rw [parsePointerIndex]
  by_cases hshape : token = [] ∨ (1 < token.length ∧ token.head? = some 0x30)
  · rw [if_pos hshape]
    refine .malformed (hmalformed ?_)
    rintro ⟨h₁, -, h₂⟩
    exact hshape.elim h₁ h₂
  rw [if_neg hshape, parsePointerIndexFrom_eq (by norm_num)]
  simp only [value_foldl, zero_mul, zero_add]
  rw [not_or] at hshape
  by_cases hdigits : AllDigits token
  · have htoken := (numeral_value hshape.1 hdigits hshape.2).symm
    rw [if_pos hdigits, leadingDigits_eq_self hdigits]
    by_cases hlarge : 2 ^ 64 ≤ value token
    · rw [if_pos hlarge]
      exact .large (value token) htoken hlarge
    · rw [if_neg hlarge]
      exact .index (value token) htoken (not_le.mp hlarge)
  · rw [if_neg hdigits]
    have hsmall : ¬ 2 ^ 64 ≤ value (leadingDigits token) := by
      intro hlarge
      refine h ⟨hdigits, ?_, hlarge⟩
      -- a leading zero is followed by something, as it is a digit itself
      intro hhead
      refine hshape.2 ⟨?_, hhead⟩
      cases token with
      | nil => cases hhead
      | cons d token =>
        cases token with
        | nil =>
          cases hhead
          exact absurd (allDigits_replicate 1) hdigits
        | cons => simp
    rw [if_neg hsmall]
    exact .malformed (hmalformed fun hs => hdigits hs.2.1)

/-- A fault behind too many digits is taken for an index out of range. -/
theorem parsePointerIndex_of_late {token : Bytes} (h : LateFault token) :
    parsePointerIndex token = .PointerIndexOverflow ∧ ∀ n, token ≠ numeral n := by
  obtain ⟨hdigits, hhead, hlarge⟩ := h
  constructor
  · have hne : token ≠ [] := by
      rintro rfl
      exact hdigits allDigits_nil
    have hshape : ¬ (token = [] ∨ (1 < token.length ∧ token.head? = some 0x30)) :=
      fun hs => hs.elim hne fun hs => hhead hs.2
    rw [parsePointerIndex, if_neg hshape, parsePointerIndexFrom_eq (by norm_num), value_foldl,
      zero_mul, zero_add, if_pos hlarge]
  · rintro n rfl
    exact hdigits (numeral_allDigits n)

theorem Classified.not_late {token : Bytes} (h : Classified token (parsePointerIndex token)) :
    ¬ LateFault token := by
  intro hlate
  obtain ⟨hparse, hnot⟩ := parsePointerIndex_of_late hlate
  rw [hparse] at h
  cases h with
  | large n hn => exact hnot n hn

/-! ## What is reported -/

/-- A lookup judges an array index as out of range only if the parser read one, or gave up. -/
theorem resolvePointerTokensFrom_range {pointer : Bytes} {tokens : List Bytes} {i : Nat} {v : Pjson}
    {e : PointerError} (h : resolvePointerTokensFrom pointer i v tokens = .error e)
    (hcode : e.code = .ArrayIndexOutOfRange) : parsePointerIndex e.token ≠ .PointerIndexInvalid := by
  induction tokens generalizing i v with
  | nil => cases h
  | cons token tokens ih =>
    -- an error further down is reported as it is
    have hnext : ∀ {c : Pjson} {step : Step},
        (resolvePointerTokensFrom pointer (i + 1) c tokens).map (step :: ·) = .error e →
        parsePointerIndex e.token ≠ .PointerIndexInvalid := by
      intro c step h
      cases hrec : resolvePointerTokensFrom pointer (i + 1) c tokens with
      | error e' =>
        rw [hrec] at h
        cases h
        exact ih hrec
      | ok l =>
        rw [hrec] at h
        cases h
    rw [resolvePointerTokensFrom.eq_def] at h
    cases v with
    | jsonObject ms =>
      dsimp only at h
      cases hfind : Assoc.find token ms with
      | none =>
        rw [hfind] at h
        cases h
        cases hcode
      | some c =>
        rw [hfind] at h
        exact hnext h
    | jsonArray xs =>
      dsimp only at h
      split_ifs at h with happend
      · cases h
        cases hcode
      cases hparse : parsePointerIndex token with
      | PointerIndexInvalid =>
        rw [hparse] at h
        cases h
        cases hcode
      | PointerIndexOverflow =>
        rw [hparse] at h
        cases h
        rw [hparse]
        exact PointerIndexResult.noConfusion
      | PointerIndexOk n =>
        rw [hparse] at h
        dsimp only at h
        cases hget : xs[n]? with
        | none =>
          rw [hget] at h
          cases h
          rw [hparse]
          exact PointerIndexResult.noConfusion
        | some c =>
          rw [hget] at h
          exact hnext h
    | _ =>
      cases h
      cases hcode

/-- A lookup goes the way its tokens lead before it meets a further one. -/
theorem resolvePointerTokensFrom_append {pointer : Bytes} {v u : Pjson} {ts us : List Bytes}
    {l : Location} (h : Refers v ts l u) (hv : v.Addressable) (i : Nat) :
    resolvePointerTokensFrom pointer i v (ts ++ us) =
      (resolvePointerTokensFrom pointer (i + ts.length) u us).map (l ++ ·) := by
  have hmap : ∀ (step : Step) (l : Location) (r : Except PointerError Location),
      (r.map (l ++ ·)).map (step :: ·) = r.map (step :: l ++ ·) := by
    intro step l r
    cases r <;> rfl
  induction h generalizing i with
  | whole v =>
    show resolvePointerTokensFrom pointer i v us = (resolvePointerTokensFrom pointer i v us).map id
    cases resolvePointerTokensFrom pointer i v us <;> rfl
  | @member members token child w tokens loc hchild _ ih =>
    have hc : (Pjson.jsonObject members).child (.member token) = some child := hchild
    rw [List.cons_append, resolvePointerTokensFrom, hchild]
    dsimp only
    rw [ih ((Pjson.child_nodes hc).trans hv), hmap, List.length_cons, Nat.add_right_comm, Nat.add_assoc]
  | @element elements index child w tokens loc hchild _ ih =>
    have hc : (Pjson.jsonArray elements).child (.element index) = some child := hchild
    have hlt : index < elements.length := (List.getElem?_eq_some_iff.mp hchild).1
    have happend : numeral index ≠ [0x2D] := by
      intro h
      have hnone := arrayIndex_append
      rw [← h, arrayIndex_eq_some_iff.mpr rfl] at hnone
      cases hnone
    rw [List.cons_append, resolvePointerTokensFrom, if_neg happend,
      parsePointerIndex_of_lt hv hlt.le (arrayIndex_eq_some_iff.mpr rfl)]
    dsimp only
    rw [hchild]
    dsimp only
    rw [ih ((Pjson.child_nodes hc).trans hv), hmap, List.length_cons, Nat.add_right_comm, Nat.add_assoc]

theorem decodeTokens_error {pointer rest : Bytes} {i : Nat} {e : PointerError}
    (h : decodeTokens pointer i rest = .error e) : e.code = .InvalidEscape := by
  fun_induction decodeTokens pointer i rest with
  | case1 => cases h; rfl
  | case2 => cases h
  | case3 i rest decoded hdecode _ rest' hrest ih =>
    cases hrec : decodeTokens pointer (i + 1) rest' with
    | error e' =>
      rw [hrec] at h
      cases h
      exact ih hrec
    | ok l =>
      rw [hrec] at h
      cases h

/-- A text that is no pointer is no matter of indices. -/
theorem decodePointer_error {pointer : Bytes} {e : PointerError} (h : decodePointer pointer = .error e) :
    e.code = .InvalidSyntax ∨ e.code = .InvalidEscape := by
  cases pointer with
  | nil => cases h
  | cons ch rest =>
    rw [decodePointer] at h
    split_ifs at h
    · cases h
      exact Or.inl rfl
    · exact Or.inr (decodeTokens_error h)

theorem findPointer_range {v : Pjson} {pointer : Bytes} {e : PointerError}
    (h : v.findPointer pointer = .error e) (hcode : e.code = .ArrayIndexOutOfRange) :
    parsePointerIndex e.token ≠ .PointerIndexInvalid := by
  rw [Pjson.findPointer] at h
  cases hdecode : decodePointer pointer with
  | error e' =>
    rw [hdecode] at h
    cases h
    rcases decodePointer_error hdecode with h | h
    · rw [h] at hcode
      cases hcode
    · rw [h] at hcode
      cases hcode
  | ok tokens =>
    rw [hdecode] at h
    exact resolvePointerTokensFrom_range h hcode

/-- A malformed index is reported as one. -/
theorem findPointer_malformed {v : Pjson} (hv : v.Addressable) {ts us : List Bytes} {l : Location}
    {xs : List Pjson} (h : Refers v ts l (.jsonArray xs)) {token : Bytes} (happend : token ≠ [0x2D])
    (hparse : parsePointerIndex token = .PointerIndexInvalid) :
    ∃ e, v.findPointer (pointerText (ts ++ token :: us)) = .error e ∧
      e.code = .InvalidArrayIndex ∧ e.token = token := by
  refine ⟨⟨.InvalidArrayIndex, pointerText (ts ++ token :: us), ts.length, token,
    "JSON Pointer array index is not canonical decimal"⟩, ?_, rfl, rfl⟩
  rw [Pjson.findPointer, decodePointer_ok_iff.mpr rfl]
  show resolvePointerTokens v _ _ _ = _
  rw [resolvePointerTokens, List.take_length, resolvePointerTokensFrom_append h hv,
    resolvePointerTokensFrom, if_neg happend, hparse, zero_add]
  rfl

end ByteDance
