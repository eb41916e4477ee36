/-
  What a JSON Pointer refers to: `parsePointerIndex` and `resolvePointerTokens`.

  The abstract side is RFC 6901 section 4: a token names the member of an object, or by a canonical
  decimal index an element of an array (`Rfc6901.reference`), and a pointer is evaluated token by
  token (`Rfc6901.evaluate`).  The concrete side parses an index into a `size_t`, which can
  overflow, and reports why a token leads nowhere.  On a value of fewer than `2 ^ 64` nodes the two
  agree (`resolvePointerTokens_ok_iff`).
-/
import Pjson.Dom.Location
import Pjson.Lib.Decimal
import Pjson.Pointer.Decode

namespace ByteDance

open Decimal

/-! ## RFC 6901 -/

namespace Rfc6901

/-- The index a token spells: digits without a leading zero. -/
def arrayIndex (token : Bytes) : Option Nat :=
  if token ≠ [] ∧ AllDigits token ∧ ¬ (1 < token.length ∧ token.head? = some 0x30) then
    some (value token)
  else none

/-- The child of a value that a token refers to. -/
def reference (token : Bytes) : Pjson → Option Step
  | .jsonObject members => if token ∈ Assoc.keys members then some (.member token) else none
  | .jsonArray elements =>
      match arrayIndex token with
      | some index => if index < elements.length then some (.element index) else none
      | none => none
  | _ => none

/-- Where the tokens of a pointer lead. -/
def locate : List Bytes → Pjson → Option Location
  | [], _ => some []
  | token :: tokens, v =>
    match reference token v with
    | none => none
    | some step => ((v.child step).bind (locate tokens)).map (step :: ·)

/-- The value a pointer refers to. -/
def evaluate (tokens : List Bytes) (v : Pjson) : Option Pjson := (locate tokens v).bind fun loc => v.get loc

end Rfc6901

/-! ## The code -/

/-- `PointerIndexResult`, with the index in the case that has one. -/
inductive PointerIndexResult where
  | PointerIndexOk (index : Nat)
  | PointerIndexInvalid
  | PointerIndexOverflow

/-- The loop of `parsePointerIndex`. -/
def parsePointerIndexFrom (acc : Nat) : Bytes → PointerIndexResult
  | [] => .PointerIndexOk acc
  | ch :: token =>
    if ch < 0x30 ∨ 0x39 < ch then .PointerIndexInvalid
    else
      let digit := ch.toNat - 0x30
      if (2 ^ 64 - 1 - digit) / 10 < acc then .PointerIndexOverflow
      else parsePointerIndexFrom (acc * 10 + digit) token

/-- `parsePointerIndex`. -/
def parsePointerIndex (token : Bytes) : PointerIndexResult :=
  if token = [] ∨ (1 < token.length ∧ token.head? = some 0x30) then .PointerIndexInvalid
  else parsePointerIndexFrom 0 token

/-- The loop of `resolvePointerTokens`, at token number `i`. -/
def resolvePointerTokensFrom (pointer : Bytes) (i : Nat) (current : Pjson) :
    List Bytes → Except PointerError Location
  | [] => .ok []
  | token :: tokens =>
    match current with
    | .jsonObject members =>
      match Assoc.find token members with
      | none =>
          .error ⟨.MissingTarget, pointer, i, token, "JSON Pointer object member does not exist"⟩
      | some child =>
          (resolvePointerTokensFrom pointer (i + 1) child tokens).map (.member token :: ·)
    | .jsonArray elements =>
      if token = [0x2D] then
        .error ⟨.AppendTokenNotAllowed, pointer, i, token,
          "the '-' token is only valid for JSON Patch add"⟩
      else
        match parsePointerIndex token with
        | .PointerIndexInvalid =>
            .error ⟨.InvalidArrayIndex, pointer, i, token,
              "JSON Pointer array index is not canonical decimal"⟩
        | .PointerIndexOverflow =>
            .error ⟨.ArrayIndexOutOfRange, pointer, i, token,
              "JSON Pointer array index is out of range"⟩
        | .PointerIndexOk index =>
          match elements[index]? with
          | none =>
              .error ⟨.ArrayIndexOutOfRange, pointer, i, token,
                "JSON Pointer array index is out of range"⟩
          | some child =>
              (resolvePointerTokensFrom pointer (i + 1) child tokens).map (.element index :: ·)
    | _ =>
        .error ⟨.ExpectedContainer, pointer, i, token,
          "JSON Pointer traversal reached a non-container value"⟩

/-- `resolvePointerTokens`: where the first `count` tokens lead from the root. -/
def resolvePointerTokens (root : Pjson) (tokens : List Bytes) (count : Nat) (pointer : Bytes) :
    Except PointerError Location :=
  resolvePointerTokensFrom pointer 0 root (tokens.take count)

/-! ## Indices -/

theorem isDigit_not_iff {ch : UInt8} : (ch < 0x30 ∨ 0x39 < ch) ↔ ¬ IsDigit ch := by
  unfold IsDigit
  rw [not_and_or, UInt8.not_le, UInt8.not_le]

/-- The loop returns the number read, unless it leaves the range of a `size_t`. -/
theorem parsePointerIndexFrom_ok_iff {acc n : Nat} {token : Bytes} (hacc : acc < 2 ^ 64) :
    parsePointerIndexFrom acc token = .PointerIndexOk n ↔
      AllDigits token ∧ n = token.foldl (fun v d => v * 10 + digitVal d) acc ∧ n < 2 ^ 64 := by
  induction token generalizing acc with
  | nil =>
    rw [parsePointerIndexFrom]
    constructor
    · intro h
      cases h
      exact ⟨allDigits_nil, rfl, hacc⟩
    · rintro ⟨-, rfl, -⟩
      rfl
  | cons ch token ih =>
    rw [parsePointerIndexFrom, allDigits_cons]
    by_cases hdigit : IsDigit ch
    · have hval : digitVal ch < 10 := digitVal_lt hdigit
      rw [if_neg (by rw [isDigit_not_iff]; exact not_not.mpr hdigit)]
      dsimp only
      rw [List.foldl_cons]
      change (if (2 ^ 64 - 1 - digitVal ch) / 10 < acc then _ else
        parsePointerIndexFrom (acc * 10 + digitVal ch) token) = _ ↔ _
      by_cases hover : (2 ^ 64 - 1 - digitVal ch) / 10 < acc
      · rw [if_pos hover]
        constructor
        · intro h
          cases h
        · rintro ⟨-, hn, hlt⟩
          have hle : acc * 10 + digitVal ch ≤ n := by
            rw [hn, value_foldl]
            exact le_add_right (Nat.le_mul_of_pos_right _ (by positivity))
          omega
      · rw [if_neg hover, ih (by omega)]
        exact and_congr_left fun _ => (and_iff_right hdigit).symm
    · rw [if_pos (isDigit_not_iff.mpr hdigit)]
      constructor
      · intro h
        cases h
      · rintro ⟨⟨hd, -⟩, -⟩
        exact absurd hd hdigit

/-- **An index is parsed** exactly if the token spells it and it is a `size_t`. -/
theorem parsePointerIndex_ok_iff {token : Bytes} {n : Nat} :
    parsePointerIndex token = .PointerIndexOk n ↔ Rfc6901.arrayIndex token = some n ∧ n < 2 ^ 64 := by
  rw [parsePointerIndex, Rfc6901.arrayIndex]
  by_cases hshape : token = [] ∨ (1 < token.length ∧ token.head? = some 0x30)
  · have hnot : ¬ (token ≠ [] ∧ AllDigits token ∧ ¬ (1 < token.length ∧ token.head? = some 0x30)) := by
      rintro ⟨h₁, -, h₂⟩
      exact hshape.elim h₁ h₂
    rw [if_pos hshape, if_neg hnot]
    simp
  · rw [if_neg hshape, parsePointerIndexFrom_ok_iff (by norm_num)]
    rw [not_or] at hshape
    by_cases hdigits : AllDigits token
    · rw [if_pos ⟨hshape.1, hdigits, hshape.2⟩, Option.some.injEq, eq_comm (a := value token)]
      exact and_iff_right hdigits
    · rw [if_neg fun h => hdigits h.2.1]
      simp [hdigits]

/-! ## Evaluation -/

theorem Pjson.child_nodes {v c : Pjson} {step : Step} (h : v.child step = some c) :
    c.nodes < v.nodes := by
  cases step with
  | member key =>
    cases v with
    | jsonObject ms =>
      have hm := Assoc.mem_of_find (show Assoc.find key ms = some c from h)
      have hle := List.single_le_sum (by simp) _ (List.mem_map.mpr ⟨_, hm, rfl⟩ :
        c.nodes ∈ ms.map fun m => m.2.nodes)
      rw [← nodesMembers_eq_sum] at hle
      exact Nat.lt_one_add_iff.mpr hle
    | _ => cases h
  | element index =>
    cases v with
    | jsonArray xs =>
      have hm : c ∈ xs := List.mem_of_getElem? h
      have hle := List.single_le_sum (by simp) _ (List.mem_map.mpr ⟨_, hm, rfl⟩ :
        c.nodes ∈ xs.map Pjson.nodes)
      rw [← nodesElements_eq_sum] at hle
      exact Nat.lt_one_add_iff.mpr hle
    | _ => cases h

theorem Pjson.length_lt_nodes (xs : List Pjson) : xs.length < (jsonArray xs).nodes := by
  have hle : xs.length ≤ nodesElements xs := by
    induction xs with
    | nil => exact Nat.zero_le _
    | cons x xs ih =>
      rw [List.length_cons, nodesElements]
      have := x.nodes_pos
      omega
  exact Nat.lt_one_add_iff.mpr hle

/-- An index within an array is parsed if it is spelled. -/
theorem parsePointerIndex_of_lt {token : Bytes} {n : Nat} {xs : List Pjson}
    (hsize : (Pjson.jsonArray xs).nodes < 2 ^ 64) (hn : n ≤ xs.length)
    (h : Rfc6901.arrayIndex token = some n) : parsePointerIndex token = .PointerIndexOk n := by
  have := Pjson.length_lt_nodes xs
  exact parsePointerIndex_ok_iff.mpr ⟨h, by omega⟩

/-- A token spells an index exactly if it is the numeral of that index. -/
theorem arrayIndex_eq_some_iff {token : Bytes} {n : Nat} :
    Rfc6901.arrayIndex token = some n ↔ token = numeral n := by
  rw [Rfc6901.arrayIndex]
  constructor
  · intro h
    by_cases hshape : token ≠ [] ∧ AllDigits token ∧ ¬ (1 < token.length ∧ token.head? = some 0x30)
    · rw [if_pos hshape] at h
      cases h
      exact (numeral_value hshape.1 hshape.2.1 hshape.2.2).symm
    · rw [if_neg hshape] at h
      cases h
  · rintro rfl
    have hlead : ¬ (1 < (numeral n).length ∧ (numeral n).head? = some 0x30) := by
      rintro ⟨hlen, hhead⟩
      rcases numeral_shape n with h | ⟨d, ds, h, hd⟩
      · rw [h] at hlen
        simp at hlen
      · rw [h] at hhead
        exact hd (Option.some.inj hhead)
    rw [if_pos ⟨numeral_ne_nil n, numeral_allDigits n, hlead⟩, value_numeral]

/-- The minus sign is no index. -/
theorem arrayIndex_append : Rfc6901.arrayIndex [0x2D] = none := by
  decide

theorem resolvePointerTokensFrom_ok_iff {pointer : Bytes} {tokens : List Bytes} {i : Nat}
    {v : Pjson} {loc : Location} (hsize : v.nodes < 2 ^ 64) :
    resolvePointerTokensFrom pointer i v tokens = .ok loc ↔ Rfc6901.locate tokens v = some loc := by
  induction tokens generalizing i v loc with
  | nil =>
    rw [resolvePointerTokensFrom, Rfc6901.locate]
    simp
  | cons token tokens ih =>
    -- a token that leads to a child: both sides go on from there
    have hnext : ∀ {step : Step} {c : Pjson}, v.child step = some c →
        ((resolvePointerTokensFrom pointer (i + 1) c tokens).map (step :: ·) = .ok loc ↔
          ((some c).bind (Rfc6901.locate tokens)).map (step :: ·) = some loc) := by
      intro step c hc
      have hc' := Pjson.child_nodes hc
      rw [Option.bind_some, Option.map_eq_some_iff]
      cases hrec : resolvePointerTokensFrom pointer (i + 1) c tokens with
      | error e =>
        have hnone : ∀ l, Rfc6901.locate tokens c ≠ some l := by
          intro l hl
          rw [(ih (by omega)).mpr hl] at hrec
          cases hrec
        refine iff_of_false (by intro h; cases h) ?_
        rintro ⟨l, hl, -⟩
        exact hnone l hl
      | ok l =>
        rw [(ih (by omega)).mp hrec]
        constructor
        · intro h
          cases h
          exact ⟨l, rfl, rfl⟩
        · rintro ⟨l', hl, rfl⟩
          cases hl
          rfl
    cases v with
    | jsonObject ms =>
      rw [resolvePointerTokensFrom, Rfc6901.locate, Rfc6901.reference]
      cases hfind : Assoc.find token ms with
      | none =>
        rw [if_neg (Assoc.find_eq_none_iff.mp hfind)]
        simp
      | some c =>
        have hmem : token ∈ Assoc.keys ms := Assoc.find_isSome_iff.mp (by rw [hfind]; rfl)
        rw [if_pos hmem]
        have hc : (Pjson.jsonObject ms).child (.member token) = some c := hfind
        dsimp only
        rw [hc]
        exact hnext hc
    | jsonArray xs =>
      rw [resolvePointerTokensFrom, Rfc6901.locate, Rfc6901.reference]
      by_cases happend : token = [0x2D]
      · rw [if_pos happend, happend, arrayIndex_append]
        simp
      rw [if_neg happend]
      cases hindex : Rfc6901.arrayIndex token with
      | none =>
        cases hparse : parsePointerIndex token with
        | PointerIndexOk n =>
          rw [(parsePointerIndex_ok_iff.mp hparse).1] at hindex
          cases hindex
        | PointerIndexInvalid => simp
        | PointerIndexOverflow => simp
      | some n =>
        dsimp only
        by_cases hn : n < xs.length
        · have hc : (Pjson.jsonArray xs).child (.element n) = some xs[n] := List.getElem?_eq_getElem hn
          rw [parsePointerIndex_of_lt hsize hn.le hindex, if_pos hn]
          dsimp only
          rw [List.getElem?_eq_getElem hn, hc]
          exact hnext hc
        · rw [if_neg hn]
          refine iff_of_false ?_ (by simp)
          intro h
          cases hparse : parsePointerIndex token with
          | PointerIndexOk m =>
            rw [hparse] at h
            have hm := (parsePointerIndex_ok_iff.mp hparse).1
            rw [hindex] at hm
            cases hm
            dsimp only at h
            rw [List.getElem?_eq_none (not_lt.mp hn)] at h
            cases h
          | PointerIndexInvalid =>
            rw [hparse] at h
            cases h
          | PointerIndexOverflow =>
            rw [hparse] at h
            cases h
    | _ => simp [resolvePointerTokensFrom, Rfc6901.locate, Rfc6901.reference]

/-- **The code evaluates pointers** as RFC 6901 says. -/
theorem resolvePointerTokens_ok_iff {root : Pjson} {tokens : List Bytes} {count : Nat}
    {pointer : Bytes} {loc : Location} (hsize : root.nodes < 2 ^ 64) :
    resolvePointerTokens root tokens count pointer = .ok loc ↔
      Rfc6901.locate (tokens.take count) root = some loc :=
  resolvePointerTokensFrom_ok_iff hsize

/-- A located place exists. -/
theorem Rfc6901.get_of_locate {tokens : List Bytes} {v : Pjson} {loc : Location}
    (h : locate tokens v = some loc) : ∃ w, v.get loc = some w := by
  induction tokens generalizing v loc with
  | nil =>
    cases h
    exact ⟨v, rfl⟩
  | cons token tokens ih =>
    rw [locate] at h
    cases hstep : reference token v with
    | none =>
      rw [hstep] at h
      cases h
    | some step =>
      rw [hstep] at h
      obtain ⟨l, hl, rfl⟩ := Option.map_eq_some_iff.mp h
      obtain ⟨c, hc, hl⟩ := Option.bind_eq_some_iff.mp hl
      obtain ⟨w, hw⟩ := ih hl
      exact ⟨w, by rw [Pjson.get_cons, hc]; exact hw⟩

end ByteDance
