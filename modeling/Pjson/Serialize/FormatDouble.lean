/-
  `pjsonImpl::_formatDouble`: from the text Ryu prints to the text of a JSON document.

  `d2s_buffered_n` is a parameter: the conversion itself is not modelled, only the form of its
  output, `[-]d[.d+]E[-]k`, which is `RyuText`.  The source lowers the exponent mark, writes small
  exponents out, and appends `.0` to what would look like an integer.  `exists_isToken` says that
  the result is a number token with a fraction or an exponent, of the same sign and value.
-/
import Pjson.Parser.NumberConvert

namespace ByteDance

open Decimal

/-! ## The source -/

/-- The exponent digits behind the mark: the loop over `exponentValue`. -/
def exponentDigits (cursor : Bytes) : Int :=
  cursor.foldl (fun exponentValue c => exponentValue * 10 + ((c.toNat : Int) - 48)) 0

/-- Writes out the exponent found at index `exponent` where it is small. -/
def writeOutExponent (result : Bytes) (exponent : Nat) : Bytes :=
  let cursor := result.drop (exponent + 1)
  let signed : Bool := cursor.head? == some 0x2B || cursor.head? == some 0x2D
  let negativeExponent : Bool := cursor.head? == some 0x2D
  let magnitude := exponentDigits (if signed then cursor.tail else cursor)
  let exponentValue : Int := if negativeExponent then -magnitude else magnitude
  -- 15 is `std::numeric_limits<double>::digits10`
  if exponentValue ≥ -4 ∧ exponentValue < 15 then
    let negative : Bool := result.head? == some 0x2D
    let mantissaBegin := if negative then 1 else 0
    let digits := ((result.drop mantissaBegin).take (exponent - mantissaBegin)).erase 0x2E
    let decimalPosition : Int := 1 + exponentValue
    let digits :=
      if decimalPosition ≤ 0 then
        [0x30, 0x2E] ++ (List.replicate (-decimalPosition).toNat 0x30 ++ digits)
      else if decimalPosition.toNat ≥ digits.length then
        digits ++ List.replicate (decimalPosition.toNat - digits.length) 0x30
      else digits.take decimalPosition.toNat ++ 0x2E :: digits.drop decimalPosition.toNat
    if negative then 0x2D :: digits else digits
  else result

/-- `_formatDouble` from the text in `buffer` on. -/
def formatText (buffer : Bytes) : Bytes :=
  let result := buffer.map fun c => if c = 0x45 then 0x65 else c
  let result :=
    match result.findIdx? (· == 0x65) with
    | none => result
    | some exponent => writeOutExponent result exponent
  if result.any fun c => c == 0x2E || c == 0x65 || c == 0x45 then result
  else result ++ [0x2E, 0x30]

/-- `pjsonImpl::_formatDouble`; `d2s` is `d2s_buffered_n`. -/
def formatDouble (d2s : Binary64 → Bytes) (aValue : Binary64) : Bytes :=
  if aValue.isFinite = false then [0x6E, 0x75, 0x6C, 0x6C] else formatText (d2s aValue)

/-! ## The text of Ryu -/

/-- What `d2s_buffered_n` prints for a finite double. -/
structure RyuText where
  negative : Bool
  lead : UInt8
  frac : Bytes
  negativeExponent : Bool
  exponent : Nat
  lead_digit : IsDigit lead
  frac_digits : AllDigits frac
  /-- A leading zero only in the text of zero, `0E0`. -/
  lead_shape : lead ≠ 0x30 ∨ (frac = [] ∧ exponent = 0)
  exponent_small : exponent < 1000

namespace RyuText

variable (r : RyuText)

/-- The digits before the exponent mark. -/
def mantissa : Bytes := r.lead :: (if r.frac = [] then [] else 0x2E :: r.frac)

/-- The digits behind the exponent mark, with their sign. -/
def exponentText : Bytes := (if r.negativeExponent then [0x2D] else []) ++ numeral r.exponent

/-- The text, with the exponent mark `mark`. -/
def textWith (mark : UInt8) : Bytes :=
  NumberToken.signText r.negative ++ (r.mantissa ++ mark :: r.exponentText)

def text : Bytes := r.textWith 0x45

/-- The exponent as a number. -/
def expValue : Int := if r.negativeExponent then -(r.exponent : Int) else r.exponent

/-- The absolute value the text denotes. -/
def mag : ℚ := value (r.lead :: r.frac) * (10 : ℚ) ^ (r.expValue - r.frac.length)

/-- No byte of the mantissa is an exponent mark. -/
theorem mantissa_ne {c : UInt8} (h : c ∈ r.mantissa) : c ≠ 0x45 ∧ c ≠ 0x65 ∧ c ≠ 0x2D := by
  have hdig : ∀ c : UInt8, IsDigit c → c ≠ 0x45 ∧ c ≠ 0x65 ∧ c ≠ 0x2D := fun c hc =>
    ⟨hc.ne (by decide), hc.ne (by decide), hc.ne (by decide)⟩
  unfold mantissa at h
  rcases List.mem_cons.mp h with rfl | h
  · exact hdig _ r.lead_digit
  · split_ifs at h with hf
    · cases h
    · rcases List.mem_cons.mp h with rfl | h
      · decide
      · exact hdig _ (r.frac_digits c h)

/-- The exponent is digits, maybe behind a minus. -/
theorem exponentText_ne {c : UInt8} (h : c ∈ r.exponentText) : c ≠ 0x45 := by
  have hdig : ∀ c : UInt8, IsDigit c → c ≠ 0x45 := fun c hc => hc.ne (by decide)
  unfold exponentText at h
  rcases List.mem_append.mp h with h | h
  · split_ifs at h
    · rw [List.mem_singleton.mp h]
      decide
    · cases h
  · exact hdig _ (numeral_allDigits _ c h)

theorem signText_ne {neg : Bool} {c : UInt8} (h : c ∈ NumberToken.signText neg) :
    c ≠ 0x45 ∧ c ≠ 0x65 := by
  cases neg with
  | false => cases h
  | true =>
    rw [List.mem_singleton.mp h]
    decide

/-- The first loop lowers the mark. -/
theorem map_text : r.text.map (fun c => if c = 0x45 then 0x65 else c) = r.textWith 0x65 := by
  have hid : ∀ s : Bytes, (∀ c ∈ s, c ≠ 0x45) → s.map (fun c => if c = 0x45 then 0x65 else c) = s := by
    intro s hs
    conv_rhs => rw [← List.map_id s]
    exact List.map_congr_left fun c hc => if_neg (hs c hc)
  unfold text textWith
  rw [List.map_append, List.map_append, List.map_cons, hid _ fun c hc => (signText_ne hc).1,
    hid _ fun c hc => (r.mantissa_ne hc).1, hid _ fun c hc => r.exponentText_ne hc, if_pos rfl]

/-- What stands in front of the mark. -/
theorem findIdx_text : (r.textWith 0x65).findIdx? (· == 0x65) =
    some ((NumberToken.signText r.negative).length + r.mantissa.length) := by
  unfold textWith
  rw [← List.append_assoc, List.findIdx?_append]
  have hnone : (NumberToken.signText r.negative ++ r.mantissa).findIdx? (· == 0x65) = none := by
    rw [List.findIdx?_eq_none_iff]
    intro c hc
    rcases List.mem_append.mp hc with hc | hc
    · simpa using (signText_ne hc).2
    · simpa using (r.mantissa_ne hc).2.1
  rw [hnone]
  simp [List.findIdx?_cons]

theorem exponentDigits_eq {ds : Bytes} (h : AllDigits ds) : exponentDigits ds = value ds := by
  unfold exponentDigits
  suffices hgen : ∀ v : Nat, ds.foldl (fun (e : Int) c => e * 10 + ((c.toNat : Int) - 48)) (v : Int) =
      (ds.foldl (fun v d => v * 10 + digitVal d) v : Nat) from hgen 0
  induction ds with
  | nil => exact fun _ => rfl
  | cons d ds ih =>
    intro v
    obtain ⟨hd, hds⟩ := allDigits_cons.mp h
    have hrange := isDigit_iff.mp hd
    rw [List.foldl_cons, List.foldl_cons, ← ih hds]
    congr 1
    unfold digitVal
    omega

/-- The source reads the exponent back. -/
theorem exponentText_value :
    (r.exponentText.head? == some 0x2B) = false ∧
      (r.exponentText.head? == some 0x2D) = r.negativeExponent ∧
      exponentDigits (if r.negativeExponent then r.exponentText.tail else r.exponentText) =
        r.exponent := by
  have hval : exponentDigits (numeral r.exponent) = r.exponent := by
    rw [exponentDigits_eq (numeral_allDigits _), value_numeral]
  unfold exponentText
  cases r.negativeExponent with
  | true => exact ⟨rfl, rfl, hval⟩
  | false =>
    obtain ⟨d, ds, hd⟩ := List.exists_cons_of_ne_nil (numeral_ne_nil r.exponent)
    have hdig : IsDigit d := numeral_allDigits r.exponent d (by rw [hd]; exact List.mem_cons_self ..)
    have h₁ : d ≠ 0x2B := hdig.ne (by decide)
    have h₂ : d ≠ 0x2D := hdig.ne (by decide)
    refine ⟨?_, ?_, hval⟩
    · simp [hd, h₁]
    · simp [hd, h₂]

/-- The digits of the mantissa, the point left out. -/
theorem mantissa_erase : r.mantissa.erase 0x2E = r.lead :: r.frac := by
  have hne : ∀ d : UInt8, IsDigit d → (d == 0x2E) = false := fun d hd =>
    beq_eq_false_iff_ne.mpr (hd.ne (by decide))
  unfold mantissa
  rw [List.erase_cons_tail (by rw [hne _ r.lead_digit]; simp)]
  split_ifs with hf
  · rw [hf]
    rfl
  · rw [List.erase_cons_head]

/-- The digits of a small exponent written out. -/
def fixedText : Bytes :=
  let digits := r.lead :: r.frac
  let decimalPosition : Int := 1 + r.expValue
  if decimalPosition ≤ 0 then
    [0x30, 0x2E] ++ (List.replicate (-decimalPosition).toNat 0x30 ++ digits)
  else if decimalPosition.toNat ≥ digits.length then
    digits ++ List.replicate (decimalPosition.toNat - digits.length) 0x30
  else digits.take decimalPosition.toNat ++ 0x2E :: digits.drop decimalPosition.toNat

/-- **What the source makes of the text** before it looks for a point. -/
theorem writeOutExponent_eq :
    writeOutExponent (r.textWith 0x65)
        ((NumberToken.signText r.negative).length + r.mantissa.length) =
      if r.expValue ≥ -4 ∧ r.expValue < 15 then
        NumberToken.signText r.negative ++ r.fixedText
      else r.textWith 0x65 := by
  have hcursor : (r.textWith 0x65).drop
      ((NumberToken.signText r.negative).length + r.mantissa.length + 1) = r.exponentText := by
    unfold textWith
    rw [← List.append_assoc, ← List.length_append, List.drop_append]
    simp
  have hhead : ((r.textWith 0x65).head? == some 0x2D) = r.negative := by
    have hlead : r.lead ≠ 0x2D := r.lead_digit.ne (by decide)
    unfold textWith mantissa NumberToken.signText
    cases r.negative
    · simp [hlead]
    · rfl
  have hdigits : (((r.textWith 0x65).drop (if r.negative then 1 else 0)).take
      ((NumberToken.signText r.negative).length + r.mantissa.length -
        (if r.negative then 1 else 0))).erase 0x2E = r.lead :: r.frac := by
    rw [← r.mantissa_erase]
    congr 1
    unfold textWith NumberToken.signText
    cases r.negative <;> simp
  obtain ⟨h₁, h₂, h₃⟩ := r.exponentText_value
  unfold writeOutExponent
  dsimp only
  rw [hcursor, hhead, hdigits, h₁, h₂, Bool.false_or, h₃,
    show (if r.negativeExponent = true then -(r.exponent : Int) else r.exponent) = r.expValue from rfl]
  by_cases hsmall : r.expValue ≥ -4 ∧ r.expValue < 15
  · rw [if_pos hsmall, if_pos hsmall]
    unfold fixedText NumberToken.signText
    cases r.negative <;> rfl
  · rw [if_neg hsmall, if_neg hsmall]

/-! ## The token -/

/-- The exponent part of a token in scientific notation. -/
def exponentPart : Exponent where
  mark := 0x65
  sign := if r.negativeExponent then some 0x2D else none
  digits := numeral r.exponent
  mark_shape := Exponent.small_mark
  sign_shape b h := by
    split_ifs at h
    · cases h
      exact Or.inr rfl
  digits_shape := ⟨numeral_allDigits _, numeral_ne_nil _⟩

theorem exponentPart_text : r.exponentPart.text = 0x65 :: r.exponentText := by
  unfold Exponent.text exponentText
  cases h : r.negativeExponent <;> simp [exponentPart, h]

theorem exponentPart_value : r.exponentPart.value = r.expValue := by
  unfold Exponent.value expValue
  cases h : r.negativeExponent <;> simp [exponentPart, h, value_numeral]

/-- The token in scientific notation. -/
def scientific : NumberToken where
  negative := r.negative
  int := [r.lead]
  frac := if r.frac = [] then none else some r.frac
  exp := some r.exponentPart
  int_digits := allDigits_cons.mpr ⟨r.lead_digit, allDigits_nil⟩
  int_shape := by
    by_cases h : r.lead = 0x30
    · exact Or.inl (by rw [h])
    · exact Or.inr ⟨_, _, rfl, h⟩
  frac_shape ds h := by
    split_ifs at h with hf
    cases h
    exact ⟨r.frac_digits, hf⟩

/-- A token in fixed notation, from its digits before and behind the point. -/
def fixedToken (negative : Bool) (int frac : Bytes) (hint : AllDigits int)
    (hshape : int = [0x30] ∨ ∃ d ds, int = d :: ds ∧ d ≠ 0x30) (hfrac : AllDigits frac ∧ frac ≠ []) :
    NumberToken where
  negative := negative
  int := int
  frac := some frac
  exp := none
  int_digits := hint
  int_shape := hshape
  frac_shape ds h := by
    cases h
    exact hfrac

/-- The point that `_formatDouble` appends to what would look like an integer. -/
def pointed (result : Bytes) : Bytes :=
  if result.any fun c => c == 0x2E || c == 0x65 || c == 0x45 then result
  else result ++ [0x2E, 0x30]

theorem pointed_of_mem {s : Bytes} (h : 0x2E ∈ s ∨ 0x65 ∈ s) : pointed s = s := by
  unfold pointed
  rw [if_pos]
  rw [List.any_eq_true]
  rcases h with h | h
  · exact ⟨_, h, by decide⟩
  · exact ⟨_, h, by decide⟩

theorem pointed_of_digits {neg : Bool} {ds : Bytes} (h : AllDigits ds) :
    pointed (NumberToken.signText neg ++ ds) = NumberToken.signText neg ++ (ds ++ [0x2E, 0x30]) := by
  have hdig : ∀ c : UInt8, IsDigit c ∨ c = 0x2D → (c == 0x2E || c == 0x65 || c == 0x45) = false := by
    rintro c (hc | rfl)
    · simp [hc.ne (c := 0x2E) (by decide), hc.ne (c := 0x65) (by decide), hc.ne (c := 0x45) (by decide)]
    · decide
  unfold pointed
  rw [if_neg, List.append_assoc]
  rw [Bool.not_eq_true, List.any_eq_false]
  intro c hc
  rw [Bool.not_eq_true]
  apply hdig
  rcases List.mem_append.mp hc with hc | hc
  · cases neg with
    | false => cases hc
    | true => exact Or.inr (List.mem_singleton.mp hc)
  · exact Or.inl (h c hc)

/-- `_formatDouble` on the text of Ryu. -/
theorem formatText_text : formatText r.text =
    pointed (if r.expValue ≥ -4 ∧ r.expValue < 15 then
        NumberToken.signText r.negative ++ r.fixedText
      else r.textWith 0x65) := by
  rw [← r.writeOutExponent_eq]
  unfold formatText
  rw [r.map_text]
  dsimp only
  rw [r.findIdx_text]
  rfl

/-- A token of the sign and the value of the text, that is stored as a double. -/
structure IsToken (t : NumberToken) : Prop where
  text : formatText r.text = t.text
  negative : t.negative = r.negative
  mag : t.mag = r.mag
  isFloat : t.isFloat = true
  small : t.expValue.natAbs < 1000
  /-- At most sixteen digits are written out, or as many as the text has. -/
  digits_lt : value t.digits < 10 ^ max 16 (r.frac.length + 1)
  length_le : t.text.length ≤ r.frac.length + 30

theorem signText_length_le (negative : Bool) : (NumberToken.signText negative).length ≤ 1 := by
  cases negative <;> simp [NumberToken.signText]

/-- Scientific notation is kept. -/
theorem isToken_scientific (h : ¬ (r.expValue ≥ -4 ∧ r.expValue < 15)) :
    r.IsToken r.scientific where
  text := by
    rw [r.formatText_text, if_neg h, pointed_of_mem (Or.inr (by simp [textWith]))]
    have hfrac : NumberToken.fracText r.scientific.frac = if r.frac = [] then [] else 0x2E :: r.frac := by
      unfold scientific
      by_cases hf : r.frac = [] <;> simp [hf, NumberToken.fracText]
    have hexp : NumberToken.expText r.scientific.exp = 0x65 :: r.exponentText := r.exponentPart_text
    unfold NumberToken.text textWith mantissa
    rw [hfrac, hexp]
    rfl
  negative := rfl
  mag := by
    have hexp : r.scientific.expValue = r.expValue := r.exponentPart_value
    have hfrac : r.scientific.frac.getD [] = r.frac := by
      unfold scientific
      by_cases hf : r.frac = [] <;> simp [hf]
    unfold NumberToken.mag mag NumberToken.digits
    rw [hexp, hfrac]
    rfl
  isFloat := by simp [NumberToken.isFloat, scientific]
  small := by
    have hexp : r.scientific.expValue = r.expValue := r.exponentPart_value
    have := r.exponent_small
    rw [hexp]
    unfold expValue
    split_ifs <;> omega
  digits_lt := by
    have hdigits : r.scientific.digits = r.lead :: r.frac := by
      unfold NumberToken.digits scientific
      by_cases hf : r.frac = [] <;> simp [hf]
    have hall : AllDigits (r.lead :: r.frac) := allDigits_cons.mpr ⟨r.lead_digit, r.frac_digits⟩
    rw [hdigits]
    exact (value_lt hall).trans_le (Nat.pow_le_pow_right (by norm_num) (le_max_right _ _))
  length_le := by
    have hexp := length_numeral_le (n := r.exponent) (k := 3) (by norm_num) r.exponent_small
    have hfrac : (NumberToken.fracText r.scientific.frac).length ≤ r.frac.length + 1 := by
      unfold scientific
      by_cases hf : r.frac = [] <;> simp [hf, NumberToken.fracText]
    have hmark : (NumberToken.expText r.scientific.exp).length ≤ 5 := by
      show r.exponentPart.text.length ≤ 5
      rw [r.exponentPart_text, List.length_cons, exponentText, List.length_append]
      split_ifs <;> simp <;> omega
    have hsign := signText_length_le r.negative
    have hint : r.scientific.int.length = 1 := rfl
    have hneg : r.scientific.negative = r.negative := rfl
    simp only [NumberToken.text, List.length_append, hint, hneg]
    omega

theorem fixedToken_text {negative : Bool} {int frac : Bytes} {hint hshape hfrac} :
    (fixedToken negative int frac hint hshape hfrac).text =
      NumberToken.signText negative ++ (int ++ 0x2E :: frac) := by
  simp [fixedToken, NumberToken.text, NumberToken.fracText, NumberToken.expText]

/-- A token in fixed notation, of the value of the digits `ds` scaled by the digits behind the
    point. -/
theorem fixedToken_mag {negative : Bool} {int frac : Bytes} {hint hshape hfrac} :
    (fixedToken negative int frac hint hshape hfrac).mag =
      value (int ++ frac) * (10 : ℚ) ^ (-(frac.length : Int)) := by
  unfold NumberToken.mag NumberToken.digits NumberToken.expValue fixedToken
  simp

theorem fixedToken_small {negative : Bool} {int frac : Bytes} {hint hshape hfrac} :
    (fixedToken negative int frac hint hshape hfrac).expValue.natAbs < 1000 := by
  show (0 : Int).natAbs < 1000
  decide

theorem fixedToken_digits {negative : Bool} {int frac : Bytes} {hint hshape hfrac} :
    (fixedToken negative int frac hint hshape hfrac).digits = int ++ frac := rfl

theorem fixedToken_length {negative : Bool} {int frac : Bytes} {hint hshape hfrac} :
    (fixedToken negative int frac hint hshape hfrac).text.length ≤ int.length + frac.length + 2 := by
  have := signText_length_le negative
  rw [fixedToken_text]
  simp only [List.length_append, List.length_cons]
  omega

/-- Digits, as many as the text has. -/
theorem value_lt_max {ds : Bytes} (h : AllDigits ds) (hlen : ds.length ≤ r.frac.length + 1) :
    value ds < 10 ^ max 16 (r.frac.length + 1) :=
  (value_lt h).trans_le (Nat.pow_le_pow_right (by norm_num) (hlen.trans (le_max_right _ _)))

/-- A small exponent is written out in three ways, by where the point falls: before the digits,
    behind them, or between two of them. -/
theorem exists_isToken_fixed (h : r.expValue ≥ -4 ∧ r.expValue < 15) : ∃ t, r.IsToken t := by
  have htext := r.formatText_text
  rw [if_pos h] at htext
  have hdigits : AllDigits (r.lead :: r.frac) := allDigits_cons.mpr ⟨r.lead_digit, r.frac_digits⟩
  have hzero : AllDigits [(0x30 : UInt8)] := allDigits_cons.mpr ⟨by decide, allDigits_nil⟩
  unfold fixedText at htext
  dsimp only at htext
  by_cases hbefore : 1 + r.expValue ≤ 0
  · rw [if_pos hbefore, pointed_of_mem (Or.inl (by simp))] at htext
    refine ⟨fixedToken r.negative [0x30]
      (List.replicate (-(1 + r.expValue)).toNat 0x30 ++ r.lead :: r.frac) hzero
      (Or.inl rfl) ⟨allDigits_append.mpr ⟨allDigits_replicate _, hdigits⟩, by simp⟩,
      by rw [htext, fixedToken_text]; rfl, rfl, ?_, rfl, fixedToken_small, ?_, ?_⟩
    rotate_left
    · -- the zeros in front count for nothing
      rw [fixedToken_digits, show [(0x30 : UInt8)] = List.replicate 1 0x30 from rfl,
        ← List.append_assoc, List.replicate_append_replicate, value_append, value_replicate_zero,
        zero_mul, zero_add]
      exact r.value_lt_max hdigits (by simp)
    · refine fixedToken_length.trans ?_
      simp only [List.length_append, List.length_replicate, List.length_cons, List.length_nil]
      omega
    rw [fixedToken_mag, show [(0x30 : UInt8)] = List.replicate 1 0x30 from rfl, ← List.append_assoc,
      List.replicate_append_replicate, value_append, value_replicate_zero]
    unfold mag
    simp only [List.length_append, List.length_replicate, List.length_cons]
    congr 2
    · simp
    · omega
  rw [if_neg hbefore] at htext
  by_cases hbehind : (1 + r.expValue).toNat ≥ (r.lead :: r.frac).length
  · rw [if_pos hbehind, pointed_of_digits (allDigits_append.mpr ⟨hdigits, allDigits_replicate _⟩)]
      at htext
    refine ⟨fixedToken r.negative
      (r.lead :: r.frac ++ List.replicate ((1 + r.expValue).toNat - (r.lead :: r.frac).length) 0x30)
      [0x30] (allDigits_append.mpr ⟨hdigits, allDigits_replicate _⟩) ?_ ⟨hzero, List.cons_ne_nil _ _⟩,
      by rw [htext, fixedToken_text], rfl, ?_, rfl, fixedToken_small, ?_, ?_⟩
    rotate_left 2
    · rw [fixedToken_digits]
      refine (value_lt (allDigits_append.mpr ⟨allDigits_append.mpr ⟨hdigits,
        allDigits_replicate _⟩, hzero⟩)).trans_le (Nat.pow_le_pow_right (by norm_num) ?_)
      refine le_trans ?_ (le_max_left _ _)
      simp only [List.length_append, List.length_replicate, List.length_cons, List.length_nil] at *
      omega
    · refine fixedToken_length.trans ?_
      simp only [List.length_append, List.length_replicate, List.length_cons, List.length_nil] at *
      omega
    · -- a leading zero is the only digit, of a text with exponent 0
      rcases r.lead_shape with hne | ⟨hf, he⟩
      · exact Or.inr ⟨_, _, rfl, hne⟩
      · have hev : r.expValue = 0 := by
          unfold expValue
          rw [he]
          split_ifs <;> rfl
        by_cases hl : r.lead = 0x30
        · refine Or.inl ?_
          rw [hf, hev, hl]
          rfl
        · exact Or.inr ⟨_, _, rfl, hl⟩
    · have hk : (((1 + r.expValue).toNat - (r.lead :: r.frac).length : Nat) : Int) =
          r.expValue - r.frac.length := by
        simp only [List.length_cons] at *
        omega
      rw [fixedToken_mag, value_append, value_append, value_replicate_zero]
      unfold mag
      rw [← hk, zpow_natCast, List.length_replicate]
      simp [value, digitVal]
  · rw [if_neg hbehind, pointed_of_mem (Or.inl (by simp))] at htext
    have hlen : (1 + r.expValue).toNat < r.frac.length + 1 := not_le.mp hbehind
    have htake : AllDigits ((r.lead :: r.frac).take (1 + r.expValue).toNat) := fun d hd =>
      hdigits d (List.mem_of_mem_take hd)
    have hdrop : AllDigits ((r.lead :: r.frac).drop (1 + r.expValue).toNat) := fun d hd =>
      hdigits d (List.mem_of_mem_drop hd)
    have hne : (r.lead :: r.frac).drop (1 + r.expValue).toNat ≠ [] := by
      rw [Ne, List.drop_eq_nil_iff, List.length_cons]
      omega
    refine ⟨fixedToken r.negative ((r.lead :: r.frac).take (1 + r.expValue).toNat)
      ((r.lead :: r.frac).drop (1 + r.expValue).toNat) htake ?_ ⟨hdrop, hne⟩,
      by rw [htext, fixedToken_text], rfl, ?_, rfl, fixedToken_small, ?_, ?_⟩
    rotate_left 2
    · rw [fixedToken_digits, List.take_append_drop]
      exact r.value_lt_max hdigits (by simp)
    · refine fixedToken_length.trans ?_
      simp only [List.length_take, List.length_drop, List.length_cons]
      omega
    · -- there are two digits or more, so the first is no zero
      obtain ⟨n, hn⟩ : ∃ n, (1 + r.expValue).toNat = n + 1 :=
        Nat.exists_eq_succ_of_ne_zero (by omega)
      rcases r.lead_shape with hlead | ⟨hf, -⟩
      · exact Or.inr ⟨r.lead, r.frac.take n, by rw [hn, List.take_succ_cons], hlead⟩
      · rw [hf, List.length_nil] at hlen
        omega
    · rw [fixedToken_mag, List.take_append_drop]
      unfold mag
      congr 2
      rw [List.length_drop, List.length_cons]
      omega

/-- **The text of a double is a token** of the grammar with its sign and value, and one that is
    stored as a double again. -/
theorem exists_isToken : ∃ t, r.IsToken t := by
  by_cases h : r.expValue ≥ -4 ∧ r.expValue < 15
  · exact r.exists_isToken_fixed h
  · exact ⟨_, r.isToken_scientific h⟩

/-- No exponent mark is left in what the source writes out. -/
theorem fixedText_ne {c : UInt8} (h : c ∈ r.fixedText) : c ≠ 0x45 := by
  have hdig : ∀ c : UInt8, IsDigit c ∨ c = 0x2E → c ≠ 0x45 := by
    rintro c (hc | rfl)
    · exact hc.ne (by decide)
    · decide
  have hzero : ∀ n : Nat, ∀ c ∈ List.replicate n (0x30 : UInt8), IsDigit c := fun n c hc =>
    allDigits_replicate n c hc
  have hdigits : AllDigits (r.lead :: r.frac) := allDigits_cons.mpr ⟨r.lead_digit, r.frac_digits⟩
  refine hdig c ?_
  unfold fixedText at h
  dsimp only at h
  split_ifs at h with hbefore hbehind
  · rcases List.mem_append.mp h with h | h
    · simp only [List.mem_cons, List.not_mem_nil, or_false] at h
      rcases h with rfl | rfl
      · exact Or.inl (by decide)
      · exact Or.inr rfl
    · rcases List.mem_append.mp h with h | h
      · exact Or.inl (hzero _ c h)
      · exact Or.inl (hdigits c h)
  · rcases List.mem_append.mp h with h | h
    · exact Or.inl (hdigits c h)
    · exact Or.inl (hzero _ c h)
  · rcases List.mem_append.mp h with h | h
    · exact Or.inl (hdigits c (List.mem_of_mem_take h))
    · rcases List.mem_cons.mp h with rfl | h
      · exact Or.inr rfl
      · exact Or.inl (hdigits c (List.mem_of_mem_drop h))

/-- The result has a point or an exponent mark. -/
theorem formatText_marked : 0x2E ∈ formatText r.text ∨ 0x65 ∈ formatText r.text := by
  rw [r.formatText_text]
  by_cases hsmall : r.expValue ≥ -4 ∧ r.expValue < 15
  · rw [if_pos hsmall]
    unfold pointed
    split_ifs with hany
    · obtain ⟨c, hc, hmark⟩ := List.any_eq_true.mp hany
      have hne : c ≠ 0x45 := by
        rcases List.mem_append.mp hc with hc | hc
        · exact (signText_ne hc).1
        · exact r.fixedText_ne hc
      have hcases : c = 0x2E ∨ c = 0x65 ∨ c = 0x45 := by simpa [or_assoc] using hmark
      rcases hcases with rfl | rfl | rfl
      · exact Or.inl hc
      · exact Or.inr hc
      · exact absurd rfl hne
    · exact Or.inl (by simp)
  · have hmem : (0x65 : UInt8) ∈ r.textWith 0x65 := by simp [textWith]
    rw [if_neg hsmall, pointed_of_mem (Or.inr hmem)]
    exact Or.inr hmem

end RyuText

/-- **`_formatDouble` preserves the value**: for every finite double and every text Ryu may print for
    it, the result is a number token with a point or an exponent, of the same sign and value, with no
    leading zero but a lone one, and any number it is converted to is a double. -/
theorem formatDouble_preserves (d2s : Binary64 → Bytes) (aValue : Binary64)
    (hfinite : aValue.isFinite = true) (r : RyuText) (htext : d2s aValue = r.text) :
    ∃ t : NumberToken, formatDouble d2s aValue = t.text ∧
      (0x2E ∈ t.text ∨ 0x65 ∈ t.text) ∧
      t.negative = r.negative ∧ t.mag = r.mag ∧
      (t.int = [0x30] ∨ ∃ d ds, t.int = d :: ds ∧ d ≠ 0x30) ∧
      ∀ lib policy n, t.convert lib policy = some n → ∃ d, n = .FloatingPoint d := by
  obtain ⟨t, ht⟩ := r.exists_isToken
  have hformat : formatDouble d2s aValue = t.text := by
    rw [formatDouble, if_neg (by rw [hfinite]; simp), htext, ht.text]
  refine ⟨t, hformat, ?_, ht.negative, ht.mag, t.int_shape, fun lib policy n hn => ?_⟩
  · rw [← ht.text]
    exact r.formatText_marked
  · rw [t.convert_eq, if_pos ht.isFloat] at hn
    unfold NumberToken.ofDouble at hn
    split at hn
    · cases hn
    · split_ifs at hn
      cases hn
      exact ⟨_, rfl⟩

/-- The text of -1.5 is written out. -/
theorem formatDouble_preserves_negative :
    ∃ t : NumberToken,
      formatDouble (fun _ => [0x2D, 0x31, 0x2E, 0x35, 0x45, 0x30]) ⟨0xBFF8000000000000⟩ = t.text ∧
      (0x2E ∈ t.text ∨ 0x65 ∈ t.text) ∧ t.negative = true ∧
      t.mag = Decimal.value [0x31, 0x35] * (10 : ℚ) ^ (-1 : Int) ∧
      (t.int = [0x30] ∨ ∃ d ds, t.int = d :: ds ∧ d ≠ 0x30) ∧
      ∀ lib policy n, t.convert lib policy = some n → ∃ d, n = .FloatingPoint d :=
  formatDouble_preserves _ _ (by decide +kernel)
    { negative := true, lead := 0x31, frac := [0x35], negativeExponent := false, exponent := 0
      lead_digit := by decide, frac_digits := by decide +kernel, lead_shape := Or.inl (by decide)
      exponent_small := by decide } (by decide +kernel)

end ByteDance
