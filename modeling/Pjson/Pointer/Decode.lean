/-
  The text of a JSON Pointer: `escapePointerToken` and `decodePointer`.

  A pointer is the concatenation of its tokens, each escaped and put after a slash (`pointerText`);
  that text determines the tokens.  `decodePointer` follows the source, token by token and
  character by character; `decodePointer_ok_iff` says that it returns tokens exactly if the text is
  theirs, so what it refuses is no JSON Pointer.
-/
import Pjson.Lib.Utf8

namespace ByteDance

/-- `pjson::PointerError::Code`. -/
inductive PointerError.Code where
  | Ok | InvalidSyntax | InvalidEscape | MissingTarget | ExpectedContainer | InvalidArrayIndex
  | ArrayIndexOutOfRange | AppendTokenNotAllowed | AllocationFailure | InternalError
  deriving DecidableEq

/-- `pjson::PointerError`, as `failPointer` fills it in. -/
structure PointerError where
  code : PointerError.Code
  pointer : List UInt8
  tokenIndex : Nat
  token : List UInt8
  message : String

/-- `pjson::escapePointerToken`. -/
def escapePointerToken : List UInt8 → List UInt8
  | [] => []
  | c :: token =>
    if c = 0x7E then 0x7E :: 0x30 :: escapePointerToken token
    else if c = 0x2F then 0x7E :: 0x31 :: escapePointerToken token
    else c :: escapePointerToken token

/-- The text of the pointer with the given tokens. -/
def pointerText : List (List UInt8) → List UInt8
  | [] => []
  | token :: tokens => 0x2F :: (escapePointerToken token ++ pointerText tokens)

/-- `pointerAppend` of the schema code: it escapes a token on its own and puts it behind a path. -/
def pointerAppend (base token : List UInt8) : List UInt8 :=
  let escaped := token.foldl (fun escaped c =>
    if c = 0x7E then escaped ++ [0x7E, 0x30]
    else if c = 0x2F then escaped ++ [0x7E, 0x31]
    else escaped ++ [c]) []
  base ++ 0x2F :: escaped

/-- The inner loop of `decodePointer`: the characters of one token up to its slash. -/
def decodeToken : List UInt8 → Option (List UInt8)
  | [] => some []
  | ch :: rest =>
    if ch ≠ 0x7E then (decodeToken rest).map (ch :: ·)
    else
      match rest with
      | [] => none
      | next :: rest =>
        if next ≠ 0x30 ∧ next ≠ 0x31 then none
        else (decodeToken rest).map ((if next = 0x30 then 0x7E else 0x2F) :: ·)

/-- The outer loop of `decodePointer`, from behind a slash. -/
def decodeTokens (pointer : List UInt8) (tokenIndex : Nat) (rest : List UInt8) :
    Except PointerError (List (List UInt8)) :=
  match decodeToken (rest.takeWhile (· ≠ 0x2F)) with
  | none =>
      .error ⟨.InvalidEscape, pointer, tokenIndex, rest.takeWhile (· ≠ 0x2F),
        "JSON Pointer token contains an invalid '~' escape"⟩
  | some decoded =>
    match h : rest.dropWhile (· ≠ 0x2F) with
    | [] => .ok [decoded]
    | _ :: rest' => (decodeTokens pointer (tokenIndex + 1) rest').map (decoded :: ·)
termination_by rest.length
decreasing_by
  have := List.length_dropWhile_le (· ≠ 0x2F) rest
  rw [h, List.length_cons] at this
  omega

/-- `decodePointer`. -/
def decodePointer : List UInt8 → Except PointerError (List (List UInt8))
  | [] => .ok []
  | ch :: rest =>
    if ch ≠ 0x2F then
      .error ⟨.InvalidSyntax, ch :: rest, 0, [],
        "JSON Pointer must be empty or begin with '/'"⟩
    else decodeTokens (ch :: rest) 0 rest

/-! ## One token -/

/-- An escaped token has no slash. -/
theorem slash_notMem_escape (token : List UInt8) : 0x2F ∉ escapePointerToken token := by
  induction token with
  | nil => exact List.not_mem_nil
  | cons c token ih =>
    rw [escapePointerToken]
    split_ifs with h₁ h₂
    · simp [ih]
    · simp [ih]
    · simp [ih, Ne.symm h₂]

theorem decodeToken_plain {c : UInt8} (h : c ≠ 0x7E) (rest : List UInt8) :
    decodeToken (c :: rest) = (decodeToken rest).map (c :: ·) := by
  rw [decodeToken.eq_def]
  exact if_pos h

theorem decodeToken_escape (token : List UInt8) : decodeToken (escapePointerToken token) = some token := by
  induction token with
  | nil => rfl
  | cons c token ih =>
    rw [escapePointerToken]
    split_ifs with h₁ h₂
    · rw [decodeToken, if_neg (by decide)]
      simp [ih, h₁]
    · rw [decodeToken, if_neg (by decide)]
      simp [ih, h₂]
    · rw [decodeToken_plain h₁, ih]
      rfl

/-- What a slash-free text decodes to escapes to it again. -/
theorem escape_of_decodeToken {raw token : List UInt8} (h : decodeToken raw = some token)
    (hraw : 0x2F ∉ raw) : escapePointerToken token = raw := by
  fun_induction decodeToken raw generalizing token with
  | case1 =>
    cases h
    rfl
  | case2 ch rest hch ih =>
    obtain ⟨t, ht, rfl⟩ := Option.map_eq_some_iff.mp h
    rw [List.mem_cons, not_or] at hraw
    rw [escapePointerToken, if_neg hch, if_neg (Ne.symm hraw.1), ih ht hraw.2]
  | case3 => cases h
  | case4 => cases h
  | case5 ch hch next rest hnext ih =>
    obtain ⟨t, ht, rfl⟩ := Option.map_eq_some_iff.mp h
    have hrest : 0x2F ∉ rest := fun hm => hraw (List.mem_cons_of_mem _ (List.mem_cons_of_mem _ hm))
    have hch' : ch = 0x7E := not_not.mp hch
    by_cases h0 : next = 0x30
    · rw [if_pos h0, escapePointerToken, if_pos rfl, ih ht hrest, h0, hch']
    · have h1 : next = 0x31 := by
        by_contra h1
        exact hnext ⟨h0, h1⟩
      rw [if_neg h0, escapePointerToken, if_neg (by decide), if_pos rfl, ih ht hrest, h1, hch']

/-! ## All tokens -/

/-- What follows an escaped token is empty or begins with a slash. -/
theorem takeWhile_token (token : List UInt8) (tokens : List (List UInt8)) :
    (escapePointerToken token ++ pointerText tokens).takeWhile (· ≠ 0x2F) =
      escapePointerToken token ∧
    (escapePointerToken token ++ pointerText tokens).dropWhile (· ≠ 0x2F) = pointerText tokens := by
  have hall : ∀ b ∈ escapePointerToken token, decide (b ≠ 0x2F) = true := by
    intro b hb
    exact decide_eq_true fun he => slash_notMem_escape token (he ▸ hb)
  rw [List.takeWhile_append_of_pos hall, List.dropWhile_append_of_pos hall]
  cases tokens with
  | nil => exact ⟨List.append_nil _, rfl⟩
  | cons t ts =>
    constructor
    · rw [pointerText, List.takeWhile_cons, if_neg (by simp), List.append_nil]
    · rw [pointerText, List.dropWhile_cons, if_neg (by simp)]

theorem decodeTokens_text (pointer : List UInt8) (i : Nat) (token : List UInt8)
    (tokens : List (List UInt8)) :
    decodeTokens pointer i (escapePointerToken token ++ pointerText tokens) =
      .ok (token :: tokens) := by
  induction tokens generalizing i token with
  | nil =>
    obtain ⟨htake, hdrop⟩ := takeWhile_token token []
    rw [decodeTokens, htake, decodeToken_escape]
    dsimp only
    split
    · rfl
    · rename_i hd
      rw [hdrop] at hd
      cases hd
  | cons t ts ih =>
    obtain ⟨htake, hdrop⟩ := takeWhile_token token (t :: ts)
    rw [decodeTokens, htake, decodeToken_escape]
    dsimp only
    split
    · rename_i hd
      rw [hdrop] at hd
      cases hd
    · rename_i hd
      rw [hdrop] at hd
      cases hd
      rw [ih]
      rfl

theorem slash_notMem_takeWhile (rest : List UInt8) : 0x2F ∉ rest.takeWhile (· ≠ 0x2F) := by
  intro hm
  simpa using List.mem_takeWhile_imp hm

theorem text_of_decodeTokens {pointer : List UInt8} {i : Nat} {rest : List UInt8}
    {tokens : List (List UInt8)} (h : decodeTokens pointer i rest = .ok tokens) :
    0x2F :: rest = pointerText tokens := by
  fun_induction decodeTokens pointer i rest generalizing tokens with
  | case1 => cases h
  | case2 i rest decoded hdecoded hdrop =>
    cases h
    have hraw : 0x2F ∉ rest.takeWhile (· ≠ 0x2F) := slash_notMem_takeWhile rest
    rw [pointerText, pointerText, List.append_nil, escape_of_decodeToken hdecoded hraw]
    have hsplit := List.takeWhile_append_dropWhile (p := (· ≠ 0x2F)) (l := rest)
    rw [hdrop, List.append_nil] at hsplit
    exact congrArg _ hsplit.symm
  | case3 i rest decoded hdecoded slash rest' hdrop ih =>
    cases hrec : decodeTokens pointer (i + 1) rest' with
    | error e =>
      rw [hrec] at h
      cases h
    | ok ts =>
      rw [hrec] at h
      cases h
      have hraw : 0x2F ∉ rest.takeWhile (· ≠ 0x2F) := slash_notMem_takeWhile rest
      have hslash : slash = 0x2F := by
        have hne : rest.dropWhile (· ≠ 0x2F) ≠ [] := by
          rw [hdrop]
          exact List.cons_ne_nil _ _
        have hhead : (rest.dropWhile (· ≠ 0x2F)).head hne = slash := by
          rw [List.head_eq_iff_head?_eq_some, hdrop]
          rfl
        have hstop := List.head_dropWhile_not (· ≠ (0x2F : UInt8)) hne
        rw [hhead] at hstop
        simpa using hstop
      have hsplit := List.takeWhile_append_dropWhile (p := (· ≠ 0x2F)) (l := rest)
      rw [hdrop, hslash, ih hrec] at hsplit
      rw [pointerText, escape_of_decodeToken hdecoded hraw]
      exact congrArg _ hsplit.symm

/-- **A text decodes to tokens** exactly if it is the text of these tokens. -/
theorem decodePointer_ok_iff {pointer : List UInt8} {tokens : List (List UInt8)} :
    decodePointer pointer = .ok tokens ↔ pointer = pointerText tokens := by
  constructor
  · intro h
    cases pointer with
    | nil =>
      cases h
      rfl
    | cons ch rest =>
      rw [decodePointer] at h
      by_cases hch : ch = 0x2F
      · rw [if_neg (not_not.mpr hch)] at h
        rw [hch]
        exact text_of_decodeTokens h
      · rw [if_pos hch] at h
        cases h
  · rintro rfl
    cases tokens with
    | nil => rfl
    | cons t ts =>
      rw [pointerText, decodePointer, if_neg (by simp)]
      exact decodeTokens_text _ _ _ _

/-- The text determines the tokens. -/
theorem pointerText_injective : Function.Injective pointerText := by
  intro ts us h
  have hts := decodePointer_ok_iff.mpr (rfl : pointerText ts = pointerText ts)
  rw [decodePointer_ok_iff.mpr h] at hts
  exact (Except.ok.inj hts).symm

/-! ## The codec -/

theorem pointerText_append (ts us : List (List UInt8)) :
    pointerText (ts ++ us) = pointerText ts ++ pointerText us := by
  induction ts with
  | nil => rfl
  | cons t ts ih =>
    rw [List.cons_append, pointerText, pointerText, ih, List.cons_append, List.append_assoc]

theorem foldl_escape (token : List UInt8) : ∀ acc : List UInt8,
    token.foldl (fun escaped c =>
      if c = 0x7E then escaped ++ [0x7E, 0x30]
      else if c = 0x2F then escaped ++ [0x7E, 0x31]
      else escaped ++ [c]) acc = acc ++ escapePointerToken token := by
  induction token with
  | nil => exact fun acc => (List.append_nil acc).symm
  | cons c token ih =>
    intro acc
    rw [List.foldl_cons, ih, escapePointerToken]
    split_ifs with h₁ h₂
    · rw [List.append_assoc]
      rfl
    · rw [List.append_assoc]
      rfl
    · rw [List.append_assoc]
      rfl

/-- The copy in the schema code escapes as the public function does. -/
theorem pointerAppend_text (tokens : List (List UInt8)) (token : List UInt8) :
    pointerAppend (pointerText tokens) token = pointerText (tokens ++ [token]) := by
  rw [pointerAppend, foldl_escape, List.nil_append, pointerText_append, pointerText, pointerText,
    List.append_nil]

/-- **The codec is a bijection** between token lists and the texts that decode: encoding and
    decoding are inverse to each other, with either copy of the encoder. -/
theorem pointer_codec :
    (∀ tokens, decodePointer (pointerText tokens) = .ok tokens) ∧
      (∀ pointer tokens, decodePointer pointer = .ok tokens ↔ pointerText tokens = pointer) ∧
      (∀ tokens token, decodePointer (pointerAppend (pointerText tokens) token) =
        .ok (tokens ++ [token])) ∧
      Function.Injective pointerText := by
  refine ⟨fun tokens => decodePointer_ok_iff.mpr rfl, fun pointer tokens => ?_,
    fun tokens token => ?_, pointerText_injective⟩
  · rw [decodePointer_ok_iff, eq_comm]
  · rw [pointerAppend_text]
    exact decodePointer_ok_iff.mpr rfl

end ByteDance
