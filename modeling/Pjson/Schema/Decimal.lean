/-
  `multipleOf` in exact decimals: `decimalFromText`, `decimalFromNumber` and `isExactMultiple`.

  A number becomes a coefficient of 64 bits, without a trailing zero, and a power of ten: an
  integer from its value, a double from the text it is serialized to.  `Stop` tells how a
  computation ends early; an overflow is one of the ways, so that a theorem can exclude it.
-/
import Pjson.Lib.Checked
import Pjson.Lib.Scale
import Pjson.Dom.Compare
import Pjson.Serialize.RoundTrip

namespace ByteDance

open Checked Decimal

/-! ## The source -/

/-- How a computation stops. -/
inductive Stop where
  /-- A step of machine arithmetic overflows, or divides by zero. -/
  | overflow
  /-- `return false`: the text is no decimal of 64 bits. -/
  | rejected
  /-- The serializer throws. -/
  | threw (e : StdException)

def signed32 (z : Int) : Except Stop Int := (signed 32 z).elim (.error .overflow) .ok

def signed64 (z : Int) : Except Stop Int := (signed 64 z).elim (.error .overflow) .ok

def unsigned64 (n : Nat) : Except Stop Nat := (unsigned 64 n).elim (.error .overflow) .ok

/-- `ExactDecimal`. -/
structure ExactDecimal where
  coefficient : Nat
  exponent10 : Int

/-- `magnitudeOf`. -/
def magnitudeOf (value : Int) : Except Stop Nat :=
  if value < 0 then do
    let next ← signed64 (value + 1)
    let flipped ← signed64 (-next)
    unsigned64 (flipped.toNat + 1)
  else .ok value.toNat

/-- What the first loop of `decimalFromText` has read. -/
structure Significand where
  coefficient : Nat := 0
  fractionDigits : Int := 0
  seenDigit : Bool := false
  afterPoint : Bool := false

/-- `if (afterPoint) ++fractionDigits;`. -/
def Significand.counted (s : Significand) : Except Stop Int :=
  if s.afterPoint then signed32 (s.fractionDigits + 1) else .ok s.fractionDigits

/-- The loop over the significand, and the text from the exponent mark on. -/
def significandFrom (s : Significand) : Bytes → Except Stop (Significand × Bytes)
  | [] => .ok (s, [])
  | ch :: rest =>
    if ch = 0x65 ∨ ch = 0x45 then .ok (s, ch :: rest)
    else if ch = 0x2E ∧ s.afterPoint = false then significandFrom { s with afterPoint := true } rest
    else if ¬ IsDigit ch then .error .rejected
    else if s.coefficient > (2 ^ 64 - 1 - digitVal ch) / 10 then .error .rejected
    else do
      let scaled ← unsigned64 (s.coefficient * 10)
      let coefficient ← unsigned64 (scaled + digitVal ch)
      let fractionDigits ← s.counted
      significandFrom { coefficient, fractionDigits, seenDigit := true, afterPoint := s.afterPoint } rest

/-- The loop over the exponent digits. -/
def exponentFrom (explicitExponent : Int) : Bytes → Except Stop Int
  | [] => .ok explicitExponent
  | ch :: rest =>
    if ¬ IsDigit ch ∨ explicitExponent > 10000 then .error .rejected
    else do
      let scaled ← signed32 (explicitExponent * 10)
      let explicitExponent ← signed32 (scaled + digitVal ch)
      exponentFrom explicitExponent rest

/-- The exponent part, from its mark on. -/
def exponentPartOf : Bytes → Except Stop Int
  | [] => .ok 0
  | _ :: rest =>
    let negative : Bool := rest.head? == some 0x2D
    let rest := if negative || rest.head? == some 0x2B then rest.tail else rest
    if rest = [] then .error .rejected
    else do
      let explicitExponent ← exponentFrom 0 rest
      if negative then signed32 (-explicitExponent) else .ok explicitExponent

/-- `while (coefficient % 10 == 0) { coefficient /= 10; ++exponent; }`; zero does not get here, or
    is tested for. -/
def stripTens (coefficient : Nat) (exponent : Int) : Except Stop ExactDecimal :=
  if coefficient ≠ 0 ∧ coefficient % 10 = 0 then do
    let exponent ← signed32 (exponent + 1)
    stripTens (coefficient / 10) exponent
  else .ok ⟨coefficient, exponent⟩
termination_by coefficient
decreasing_by omega

/-- `decimalFromText`. -/
def decimalFromText (text : Bytes) : Except Stop ExactDecimal := do
  let unsigned := if text.head? = some 0x2B ∨ text.head? = some 0x2D then text.tail else text
  let (s, rest) ← significandFrom {} unsigned
  let explicitExponent ← exponentPartOf rest
  if s.seenDigit = false then .error .rejected
  else if s.coefficient = 0 then .ok ⟨0, 0⟩
  else do
    let exponent ← signed32 (explicitExponent - s.fractionDigits)
    stripTens s.coefficient exponent

/-- `numberText`. -/
def numberText (d2s : Binary64 → Bytes) : Pjson → Except Stop Bytes
  | .jsonNumberInt i => .ok (Serialize.toDecimal i.toInt)
  | .jsonNumberUInt u => .ok (Serialize.toDecimal u.toNat)
  | value =>
    match Serialize.toString d2s { nonFinite := .NonFiniteToString } value with
    | .ok text => .ok text
    | .error e => .error (.threw e)

/-- `decimalFromNumber`. -/
def decimalFromNumber (d2s : Binary64 → Bytes) : Pjson → Except Stop ExactDecimal
  | .jsonNumberUInt u => stripTens u.toNat 0
  | .jsonNumberInt i => do
    let magnitude ← magnitudeOf i.toInt
    stripTens magnitude 0
  | .jsonNumberDouble number =>
    if number.isFinite = false then .error .rejected
    else do
      let text ← numberText d2s (.jsonNumberDouble number)
      decimalFromText text
  | _ => .error .rejected

/-- `numberAsDouble`: an integer is rounded to the nearest double. -/
def numberAsDouble : Pjson → Binary64
  | .jsonNumberInt i => Binary64.ofInt i.toInt
  | .jsonNumberUInt u => Binary64.ofInt u.toNat
  | .jsonNumberDouble d => d
  | _ => Binary64.zero

/-- The last part of `isExactMultiple`, on two nonzero decimals. -/
def isMultipleDecimal (value divisor : ExactDecimal) : Except Stop Bool := do
  let shift ← signed32 (value.exponent10 - divisor.exponent10)
  if shift ≥ 0 then
    let reduced := (Scale.strip 2 shift.toNat divisor.coefficient).1
    let reduced := (Scale.strip 5 shift.toNat reduced).1
    if reduced = 0 then .error .overflow else .ok (value.coefficient % reduced == 0)
  else if value.coefficient % divisor.coefficient ≠ 0 then .ok false
  else do
    let decimalPlaces ← signed32 (-shift)
    .ok ((Scale.strip 10 decimalPlaces.toNat (value.coefficient / divisor.coefficient)).2 == 0)

/-- The part of `isExactMultiple` that goes through decimals; a number that is none decides. -/
def isExactMultipleDecimal (d2s : Binary64 → Bytes) (value divisor : Pjson) : Except Stop Bool :=
  match decimalFromNumber d2s divisor with
  | .error .rejected => .ok true
  | .error stop => .error stop
  | .ok divisorDecimal =>
    if divisorDecimal.coefficient = 0 then .ok true
    else
      match decimalFromNumber d2s value with
      | .error .rejected => .ok false
      | .error stop => .error stop
      | .ok valueDecimal =>
        if valueDecimal.coefficient = 0 then .ok true
        else isMultipleDecimal valueDecimal divisorDecimal

/-- `isExactMultiple`. -/
def isExactMultiple (d2s : Binary64 → Bytes) (value divisor : Pjson) : Except Stop Bool :=
  if (numberAsDouble divisor).le Binary64.zero then .ok true
  else
    match value, divisor with
    | .jsonNumberInt v, .jsonNumberInt d => do
      let dividend ← magnitudeOf v.toInt
      let modulus ← magnitudeOf d.toInt
      if modulus = 0 then .error .overflow else .ok (dividend % modulus == 0)
    | _, _ => isExactMultipleDecimal d2s value divisor

/-! ## What a number stands for -/

/-- What `d2s` is relied on for at a double: the form Ryu prints, read back as the same double, and
    no more than seventeen significant digits. -/
def Shortest (d2s : Binary64 → Bytes) (d : Binary64) : Prop :=
  ∃ r : RyuText, d2s d = r.text ∧ Binary64.ofRat r.negative r.mag = d ∧ r.frac.length + 1 ≤ 17

/-- The rational a text denotes. -/
def textValue (text : Bytes) : ℚ :=
  match readDecimal text with
  | some (negative, mag) => if negative then -mag else mag
  | none => 0

/-- The value `multipleOf` is about: an integer is itself, a double is what its text says. -/
def decimalValue (d2s : Binary64 → Bytes) : Pjson → ℚ
  | .jsonNumberInt i => i.toInt
  | .jsonNumberUInt u => u.toNat
  | .jsonNumberDouble d => textValue (d2s d)
  | _ => 0

/-! ## Arithmetic that fits -/

theorem Except.ok_bind {ε α β : Type} (a : α) (f : α → Except ε β) :
    ((Except.ok a : Except ε α) >>= f) = f a := rfl

theorem signed32_eq {z : Int} (hlo : -2147483648 ≤ z) (hhi : z < 2147483648) : signed32 z = .ok z := by
  rw [signed32, signed_32 hlo hhi]
  rfl

theorem signed64_eq {z : Int} (hlo : -9223372036854775808 ≤ z) (hhi : z < 9223372036854775808) :
    signed64 z = .ok z := by
  rw [signed64, signed_64 hlo hhi]
  rfl

theorem unsigned64_eq {n : Nat} (h : n < 2 ^ 64) : unsigned64 n = .ok n := by
  rw [unsigned64, unsigned_eq h]
  rfl

/-- The magnitude of a signed value never overflows, not even at the lowest one. -/
theorem magnitudeOf_eq (i : Int64) : magnitudeOf i.toInt = .ok i.toInt.natAbs := by
  have hlo := i.le_toInt
  have hhi := i.toInt_lt
  rw [magnitudeOf]
  by_cases h : i.toInt < 0
  · rw [if_pos h, signed64_eq (by omega) (by omega), Except.ok_bind,
      signed64_eq (by omega) (by omega), Except.ok_bind, unsigned64_eq (by omega)]
    congr 1
    omega
  · rw [if_neg h]
    congr 1
    omega

/-- Stripping tens moves them into the exponent. -/
theorem stripTens_eq {k n : Nat} {e : Int} (hn : n < 10 ^ k) (hlo : -2147483648 ≤ e)
    (hhi : e + k < 2147483648) :
    ∃ c j : Nat, stripTens n e = .ok ⟨c, e + j⟩ ∧ j ≤ k ∧ n = c * 10 ^ j := by
  induction k generalizing n e with
  | zero =>
    have h0 : n = 0 := by omega
    subst h0
    refine ⟨0, 0, ?_, le_rfl, rfl⟩
    rw [stripTens, if_neg (by simp)]
    simp
  | succ k ih =>
    rw [stripTens]
    by_cases h : n ≠ 0 ∧ n % 10 = 0
    · obtain ⟨m, rfl⟩ := Nat.dvd_of_mod_eq_zero h.2
      rw [pow_succ] at hn
      obtain ⟨c, j, hrun, hj, hm⟩ := ih (n := m) (e := e + 1) (by omega) (by omega) (by omega)
      refine ⟨c, j + 1, ?_, by omega, ?_⟩
      · rw [if_pos h, signed32_eq (by omega) (by omega), Except.ok_bind,
          Nat.mul_div_cancel_left m (by norm_num), hrun]
        congr 2
        push_cast
        ring
      · rw [hm, pow_succ]
        ring
    · exact ⟨n, 0, by rw [if_neg h]; simp, by omega, by simp⟩

/-! ## Reading a token -/

/-- A run of digits is read into the coefficient; behind the point it is counted as well. -/
theorem significandFrom_digits {ds : Bytes} (hds : AllDigits ds) (s : Significand) (out : Bytes)
    (hfit : s.coefficient * 10 ^ ds.length + value ds < 2 ^ 64)
    (hlo : 0 ≤ s.fractionDigits) (hhi : s.fractionDigits + ds.length < 2147483648) :
    significandFrom s (ds ++ out) = significandFrom
      { coefficient := s.coefficient * 10 ^ ds.length + value ds
        fractionDigits := if s.afterPoint then s.fractionDigits + ds.length else s.fractionDigits
        seenDigit := s.seenDigit || !ds.isEmpty
        afterPoint := s.afterPoint } out := by
  induction ds generalizing s with
  | nil =>
    congr 1
    cases s with
    | mk c f seen after => cases after <;> simp
  | cons d ds ih =>
    obtain ⟨hd, hds⟩ := allDigits_cons.mp hds
    have hplain : ¬ (d = 0x65 ∨ d = 0x45) ∧ d ≠ 0x2E :=
      ⟨not_or.mpr ⟨hd.ne (by decide), hd.ne (by decide)⟩, hd.ne (by decide)⟩
    have hval : s.coefficient * 10 ^ (d :: ds).length + value (d :: ds) =
        (s.coefficient * 10 + digitVal d) * 10 ^ ds.length + value ds := by
      rw [value_cons, List.length_cons, pow_succ]
      ring
    rw [hval] at hfit
    -- what has been read so far is no more than the whole
    have hpart : s.coefficient * 10 + digitVal d < 2 ^ 64 := by
      have := Nat.le_mul_of_pos_right (s.coefficient * 10 + digitVal d)
        (show 0 < 10 ^ ds.length by positivity)
      omega
    rw [List.length_cons] at hhi
    push_cast at hhi
    rw [List.cons_append, significandFrom, if_neg hplain.1, if_neg (fun h => hplain.2 h.1),
      if_neg (not_not.mpr hd), if_neg (by omega), unsigned64_eq (by omega), Except.ok_bind,
      unsigned64_eq hpart, Except.ok_bind]
    have hcount : s.counted =
        .ok (if s.afterPoint then s.fractionDigits + 1 else s.fractionDigits) := by
      rw [Significand.counted]
      cases s.afterPoint
      · rfl
      · exact signed32_eq (by omega) (by omega)
    rw [hcount, Except.ok_bind]
    rw [ih hds _ hfit (by cases s.afterPoint <;> simp <;> omega)
      (by cases s.afterPoint <;> simp <;> omega), hval]
    congr 1
    cases h : s.afterPoint <;> simp
    omega

/-- A short run of digits is read as the exponent. -/
theorem exponentFrom_digits {ds : Bytes} (hds : AllDigits ds) (e : Nat)
    (hfit : e * 10 ^ ds.length + value ds < 1000) :
    exponentFrom e ds = .ok ((e * 10 ^ ds.length + value ds : Nat) : Int) := by
  induction ds generalizing e with
  | nil => simp [exponentFrom]
  | cons d ds ih =>
    obtain ⟨hd, hds⟩ := allDigits_cons.mp hds
    have hval : e * 10 ^ (d :: ds).length + value (d :: ds) =
        (e * 10 + digitVal d) * 10 ^ ds.length + value ds := by
      rw [value_cons, List.length_cons, pow_succ]
      ring
    rw [hval] at hfit
    have hpart : e * 10 + digitVal d < 1000 := by
      have := Nat.le_mul_of_pos_right (e * 10 + digitVal d) (show 0 < 10 ^ ds.length by positivity)
      omega
    rw [exponentFrom, if_neg (by rw [not_or, not_not]; exact ⟨hd, by omega⟩),
      signed32_eq (by omega) (by omega), Except.ok_bind, signed32_eq (by omega) (by omega),
      Except.ok_bind]
    have hrec := ih hds (e * 10 + digitVal d) hfit
    push_cast at hrec
    rw [hrec, hval]
    push_cast
    rfl

/-- The exponent part of a token. -/
theorem exponentPartOf_text (t : NumberToken) (h : t.expValue.natAbs < 1000) :
    exponentPartOf (NumberToken.expText t.exp) = .ok t.expValue := by
  cases he : t.exp with
  | none =>
    rw [NumberToken.expValue, he]
    rfl
  | some e =>
    have hvalue : t.expValue = e.value := by rw [NumberToken.expValue, he]; rfl
    obtain ⟨hneg, htext⟩ := e.signed_text
    have hsmall : value e.digits < 1000 := by
      rw [hvalue, Exponent.value] at h
      split_ifs at h <;> omega
    have hloop := exponentFrom_digits e.digits_shape.1 0 (by omega)
    rw [Nat.zero_mul, Nat.zero_add, Nat.cast_zero] at hloop
    show exponentPartOf (e.mark :: (e.sign.toList ++ e.digits)) = _
    rw [exponentPartOf, htext, hneg, if_neg e.digits_shape.2, hloop, hvalue, Exponent.value,
      Except.ok_bind]
    by_cases hs : e.sign = some 0x2D
    · rw [if_pos hs, if_pos (beq_iff_eq.mpr hs), signed32_eq (by omega) (by omega)]
    · rw [if_neg hs, if_neg (by rwa [beq_iff_eq])]

theorem significandFrom_expText (s : Significand) (exp : Option Exponent) :
    significandFrom s (NumberToken.expText exp) = .ok (s, NumberToken.expText exp) := by
  cases exp with
  | none => rfl
  | some e =>
    show significandFrom s (e.mark :: _) = _
    rw [significandFrom, if_pos e.mark_shape]
    rfl

/-- The significand of a token, with or without a point in it. -/
theorem significandFrom_text (t : NumberToken) (hdigits : value t.digits < 2 ^ 64)
    (hlen : t.int.length < 1000 ∧ (t.frac.getD []).length < 1000) :
    ∃ afterPoint, significandFrom {} t.unsignedText =
      .ok (⟨value t.digits, (t.frac.getD []).length, true, afterPoint⟩, NumberToken.expText t.exp) := by
  have hparts : value t.digits = value t.int * 10 ^ (t.frac.getD []).length + value (t.frac.getD []) := by
    rw [NumberToken.digits, value_append]
  have hint : value t.int < 2 ^ 64 := by
    have := Nat.le_mul_of_pos_right (value t.int) (show 0 < 10 ^ (t.frac.getD []).length by positivity)
    omega
  have hnonempty : t.int.isEmpty = false := by
    obtain ⟨d, ds, hd, -⟩ := t.int_eq_cons
    rw [hd]
    rfl
  rw [NumberToken.unsignedText, significandFrom_digits t.int_digits {} _ (by simpa using hint)
    le_rfl (by simp; omega)]
  simp only [zero_mul, zero_add, hnonempty, Bool.false_or, Bool.not_false, Bool.false_eq_true,
    if_false]
  cases hf : t.frac with
  | none =>
    refine ⟨false, ?_⟩
    rw [NumberToken.digits, hf]
    show significandFrom _ (NumberToken.expText t.exp) = _
    rw [significandFrom_expText]
    simp
  | some ds =>
    rw [hf, Option.getD_some] at hparts hlen
    refine ⟨true, ?_⟩
    rw [NumberToken.fracText, List.cons_append, significandFrom, if_neg (by decide),
      if_pos ⟨rfl, rfl⟩, significandFrom_digits (t.frac_shape ds hf).1 _ _ (by rw [← hparts]; exact hdigits)
        le_rfl (by simp; omega), significandFrom_expText]
    simp [hparts]

/-- A sign in front is skipped. -/
theorem skip_sign (t : NumberToken) :
    (if t.text.head? = some 0x2B ∨ t.text.head? = some 0x2D then t.text.tail else t.text) =
      t.unsignedText := by
  obtain ⟨d, ds, hd, hdigit⟩ := t.int_eq_cons
  have hplus : t.text.head? ≠ some 0x2B := by
    have hne : d ≠ 0x2B := hdigit.ne (by decide)
    rw [NumberToken.text_eq, NumberToken.unsignedText, hd]
    cases t.negative <;> simp [NumberToken.signText, hne]
  rw [← t.unsigned_text]
  simp only [or_iff_right hplus, beq_iff_eq]

/-- What a decimal stands for. -/
def ExactDecimal.value (dec : ExactDecimal) : ℚ := dec.coefficient * (10 : ℚ) ^ dec.exponent10

/-- A decimal of 64 bits with a small exponent. -/
structure ExactDecimal.Fits (dec : ExactDecimal) : Prop where
  coefficient : dec.coefficient < 2 ^ 64
  exponent10 : dec.exponent10.natAbs < 3000

theorem stripTens_value {n : Nat} {e : Int} (hn : n < 2 ^ 64) (he : e.natAbs < 2000) :
    ∃ dec, stripTens n e = .ok dec ∧ dec.value = n * (10 : ℚ) ^ e ∧ dec.Fits := by
  obtain ⟨c, j, hrun, hj, hc⟩ := stripTens_eq (k := 20) (n := n) (e := e)
    (hn.trans (by norm_num)) (by omega) (by omega)
  refine ⟨_, hrun, ?_, ?_, ?_⟩
  · rw [ExactDecimal.value, hc, zpow_add₀ (by norm_num), zpow_natCast]
    push_cast
    ring
  · have := Nat.le_mul_of_pos_right c (show 0 < 10 ^ j by positivity)
    show c < 2 ^ 64
    omega
  · show (e + j).natAbs < 3000
    omega

/-- **A token is read exactly**: the coefficient and the power of ten make up its value. -/
theorem decimalFromText_text (t : NumberToken) (hdigits : Decimal.value t.digits < 10 ^ 17)
    (hexp : t.expValue.natAbs < 1000) (hlen : t.text.length < 1000) :
    ∃ dec, decimalFromText t.text = .ok dec ∧ dec.value = t.mag ∧ dec.Fits := by
  have hparts : t.int.length < 1000 ∧ (t.frac.getD []).length < 1000 := by
    simp only [NumberToken.text, List.length_append] at hlen
    cases hf : t.frac <;> simp [hf, NumberToken.fracText] at * <;> omega
  obtain ⟨after, hread⟩ := significandFrom_text t (by omega) hparts
  rw [decimalFromText, skip_sign, hread, Except.ok_bind]
  dsimp only
  rw [exponentPartOf_text t hexp, Except.ok_bind, if_neg (by simp)]
  by_cases hzero : Decimal.value t.digits = 0
  · refine ⟨⟨0, 0⟩, if_pos hzero, ?_, by norm_num, by norm_num⟩
    rw [ExactDecimal.value, NumberToken.mag, hzero]
    simp
  · rw [if_neg hzero, signed32_eq (by omega) (by omega), Except.ok_bind]
    obtain ⟨dec, hrun, hvalue, hfits⟩ := stripTens_value (n := Decimal.value t.digits)
      (e := t.expValue - (t.frac.getD []).length) (by omega) (by omega)
    exact ⟨dec, hrun, hvalue, hfits⟩

/-! ## The decimal of a number -/

/-- The token Ryu prints, with its mark. -/
def RyuText.token (r : RyuText) : NumberToken :=
  { r.scientific with exp := some { r.exponentPart with mark := 0x45, mark_shape := Or.inr rfl } }

/-- **The text of Ryu denotes its value.** -/
theorem readDecimal_ryu (r : RyuText) : readDecimal r.text = some (r.negative, r.mag) := by
  have htext : r.token.text = r.text := by
    have hfrac : NumberToken.fracText r.token.frac = if r.frac = [] then [] else 0x2E :: r.frac := by
      show NumberToken.fracText (if r.frac = [] then none else some r.frac) = _
      by_cases hf : r.frac = [] <;> simp [hf, NumberToken.fracText]
    have hexp : NumberToken.expText r.token.exp = 0x45 :: r.exponentText := by
      have h := r.exponentPart_text
      unfold Exponent.text at h
      exact congrArg (0x45 :: ·) (List.cons.inj h).2
    unfold NumberToken.text RyuText.text RyuText.textWith RyuText.mantissa
    rw [hfrac, hexp]
    rfl
  have hmag : r.token.mag = r.mag := by
    have hexp : r.token.expValue = r.expValue := r.exponentPart_value
    have hfrac : r.token.frac.getD [] = r.frac := by
      show (if r.frac = [] then none else some r.frac).getD [] = _
      by_cases hf : r.frac = [] <;> simp [hf]
    unfold NumberToken.mag RyuText.mag NumberToken.digits
    rw [hexp, hfrac]
    rfl
  rw [← htext, r.token.readDecimal_text, hmag]
  rfl

theorem abs_textValue_ryu (r : RyuText) : |textValue r.text| = r.mag := by
  have hmag : 0 ≤ r.mag := by
    unfold RyuText.mag
    positivity
  rw [textValue, readDecimal_ryu]
  show |if r.negative = true then -r.mag else r.mag| = r.mag
  split_ifs
  · rw [abs_neg, abs_of_nonneg hmag]
  · rw [abs_of_nonneg hmag]

/-- The serializer writes a finite double the way `_formatDouble` does. -/
theorem numberText_double {d2s : Binary64 → Bytes} {d : Binary64} (hf : d.isFinite = true)
    (hlen : (formatDouble d2s d).length ≤ 1000) :
    numberText d2s (.jsonNumberDouble d) = .ok (formatDouble d2s d) := by
  have hrun : Serialize.toString d2s { nonFinite := .NonFiniteToString } (.jsonNumberDouble d) =
      .ok (formatDouble d2s d) := by
    refine Serialize.toString_ok_iff.mpr ⟨?_, Or.inr ?_, ?_⟩
    · rw [Serialize.render, Serialize.renderDouble, if_neg (by rw [hf]; simp)]
    · show _ ≤ 64 * 1024 * 1024
      omega
    · unfold stringMaxSize
      omega
  show (match Serialize.toString d2s { nonFinite := .NonFiniteToString } (.jsonNumberDouble d) with
    | .ok text => Except.ok text
    | .error e => .error (Stop.threw e)) = _
  rw [hrun]

/-- **Every finite number has a decimal**, and it is that of its value. -/
theorem decimalFromNumber_ok {d2s : Binary64 → Bytes} {v : Pjson} {x : ℚ}
    (hv : v.place = some ((x : WithTop ℚ) : WithBot (WithTop ℚ)))
    (hd2s : ∀ d ∈ v.doubles, Shortest d2s d) :
    ∃ dec, decimalFromNumber d2s v = .ok dec ∧ dec.value = |decimalValue d2s v| ∧ dec.Fits := by
  cases v with
  | jsonNumberInt i =>
    have hlo := i.le_toInt
    have hhi := i.toInt_lt
    obtain ⟨dec, hrun, hvalue, hfits⟩ := stripTens_value (n := i.toInt.natAbs) (e := 0) (by omega)
      (by norm_num)
    refine ⟨dec, ?_, ?_, hfits⟩
    · rw [decimalFromNumber, magnitudeOf_eq, Except.ok_bind, hrun]
    · rw [hvalue, zpow_zero, mul_one, decimalValue, Nat.cast_natAbs, Int.cast_abs]
  | jsonNumberUInt u =>
    obtain ⟨dec, hrun, hvalue, hfits⟩ := stripTens_value (n := u.toNat) (e := 0) u.toNat_lt (by norm_num)
    refine ⟨dec, hrun, ?_, hfits⟩
    rw [hvalue, zpow_zero, mul_one, decimalValue, abs_of_nonneg (by positivity)]
  | jsonNumberDouble d =>
    obtain ⟨r, htext, -, hlen⟩ := hd2s d (List.mem_singleton.mpr rfl)
    obtain ⟨t, ht⟩ := r.exists_isToken
    have hf : d.isFinite = true := by
      by_contra hnot
      have hv : d.ext = some ((x : WithTop ℚ) : WithBot (WithTop ℚ)) := hv
      unfold Binary64.ext at hv
      rw [if_neg hnot] at hv
      split_ifs at hv
      · cases hv
      · exact absurd (WithBot.coe_inj.mp (Option.some.inj hv)).symm (WithTop.coe_ne_top)
    have hformat : formatDouble d2s d = t.text := by
      rw [formatDouble, if_neg (by rw [hf]; simp), htext, ht.text]
    have htlen := ht.length_le
    have hdigits : Decimal.value t.digits < 10 ^ 17 :=
      ht.digits_lt.trans_le (Nat.pow_le_pow_right (by norm_num) (max_le (by norm_num) hlen))
    obtain ⟨dec, hrun, hvalue, hfits⟩ := decimalFromText_text t hdigits ht.small (by omega)
    refine ⟨dec, ?_, ?_, hfits⟩
    · rw [decimalFromNumber, if_neg (by rw [hf]; simp), numberText_double hf (by rw [hformat]; omega),
        Except.ok_bind, hformat, hrun]
    · rw [hvalue, ht.mag, decimalValue, htext, abs_textValue_ryu]
  | _ => cases hv

/-- A number above zero is not taken for one that is not. -/
theorem numberAsDouble_pos {d : Pjson} {y : ℚ}
    (hd : d.place = some ((y : WithTop ℚ) : WithBot (WithTop ℚ))) (hpos : 0 < y) :
    (numberAsDouble d).le Binary64.zero = false := by
  have hle : ∀ {b : Binary64} {x : WithBot (WithTop ℚ)}, b.ext = some x → 0 < x →
      b.le Binary64.zero = false := by
    intro b x hb hx
    have hzero : Binary64.zero.ext = some (((0 : ℚ) : WithTop ℚ) : WithBot (WithTop ℚ)) := by
      decide +kernel
    unfold Binary64.le
    rw [hb, hzero]
    exact decide_eq_false (not_le.mpr hx)
  have hint : ∀ {n : Int}, 0 < (n : ℚ) → (Binary64.ofInt n).le Binary64.zero = false := by
    intro n hn
    have hn' : 0 < n := by exact_mod_cast hn
    obtain ⟨x, hx, h0⟩ := Binary64.exists_ext_pos (q := |(n : ℚ)|) (by
      rw [abs_of_pos hn]
      exact_mod_cast hn')
    refine hle ?_ h0
    rw [Binary64.ofInt, decide_eq_false (by omega)]
    exact_mod_cast hx
  cases d with
  | jsonNumberInt i =>
    rw [Pjson.place, Option.some.injEq, onLine_inj] at hd
    exact hint (by rw [hd]; exact hpos)
  | jsonNumberUInt u =>
    rw [Pjson.place, Option.some.injEq, onLine_inj] at hd
    exact hint (by rw [Int.cast_natCast, hd]; exact hpos)
  | jsonNumberDouble d => exact hle hd (by exact_mod_cast hpos)
  | _ => cases hd

/-- The text of a double other than zero does not denote zero. -/
theorem decimalValue_ne_zero {d2s : Binary64 → Bytes} {d : Pjson} {y : ℚ}
    (hd : d.place = some ((y : WithTop ℚ) : WithBot (WithTop ℚ))) (hne : y ≠ 0)
    (hd2s : ∀ z ∈ d.doubles, Shortest d2s z) : decimalValue d2s d ≠ 0 := by
  cases d with
  | jsonNumberInt i =>
    rw [Pjson.place, Option.some.injEq, onLine_inj] at hd
    rwa [decimalValue, hd]
  | jsonNumberUInt u =>
    rw [Pjson.place, Option.some.injEq, onLine_inj] at hd
    rwa [decimalValue, hd]
  | jsonNumberDouble d =>
    obtain ⟨r, htext, hround, -⟩ := hd2s d (List.mem_singleton.mpr rfl)
    intro hzero
    rw [decimalValue, htext, ← abs_eq_zero, abs_textValue_ryu] at hzero
    obtain ⟨hmag, -, hfin⟩ := Binary64.ofRat_exact r.negative (m := 0) (k := 0) (q := 0) (by simp)
      (by norm_num) (by norm_num) (by positivity)
    rw [hzero] at hround
    rw [hround] at hmag hfin
    have hd : d.ext = _ := hd
    rw [Binary64.ext_of_isFinite hfin, Option.some.injEq, onLine_inj, Binary64.toRat, hmag] at hd
    apply hne
    rw [← hd]
    simp
  | _ => cases hd

/-- **The decision on two decimals** is divisibility, whatever the gap between their exponents. -/
theorem isMultipleDecimal_eq {v d : ExactDecimal} (hv : v.Fits) (hd : d.Fits)
    (hne : d.coefficient ≠ 0) :
    ∃ answer, isMultipleDecimal v d = .ok answer ∧
      (answer = true ↔ ∃ n : ℤ, v.value = n * d.value) := by
  have hve := hv.exponent10
  have hde := hd.exponent10
  unfold ExactDecimal.value
  rw [isMultipleDecimal, signed32_eq (by omega) (by omega), Except.ok_bind, Scale.exists_multiple_iff]
  by_cases hshift : 0 ≤ v.exponent10 - d.exponent10
  · rw [if_pos hshift, if_pos hshift]
    generalize (v.exponent10 - d.exponent10).toNat = k
    -- both strippings together leave what the dividend has to supply itself
    have hstrip : ∀ n, (Scale.strip 5 k (Scale.strip 2 k d.coefficient).1).1 ∣ n ↔
        d.coefficient ∣ n * 10 ^ k := by
      intro n
      rw [Scale.strip_dvd_iff Nat.prime_five, Scale.strip_dvd_iff Nat.prime_two, mul_assoc, ← mul_pow,
        show 5 * 2 = 10 from rfl]
    have hreduced : (Scale.strip 5 k (Scale.strip 2 k d.coefficient).1).1 ≠ 0 := by
      intro h0
      have hone := (hstrip d.coefficient).mpr (Nat.dvd_mul_right _ _)
      rw [h0, zero_dvd_iff] at hone
      exact hne hone
    refine ⟨_, if_neg hreduced, ?_⟩
    rw [beq_iff_eq, ← Nat.dvd_iff_mod_eq_zero, hstrip]
  · rw [if_neg hshift, if_neg hshift]
    by_cases hdvd : d.coefficient ∣ v.coefficient
    · obtain ⟨q, hq⟩ := hdvd
      have hplaces : (-(v.exponent10 - d.exponent10)).toNat =
          (d.exponent10 - v.exponent10).toNat := by
        congr 1
        ring
      rw [if_neg (by rw [hq]; simp), signed32_eq (by omega) (by omega), Except.ok_bind, hplaces]
      refine ⟨_, rfl, ?_⟩
      rw [beq_iff_eq, Scale.strip_snd_eq_zero_iff (by norm_num), hq,
        Nat.mul_div_cancel_left q (Nat.pos_of_ne_zero hne)]
      exact (Nat.mul_dvd_mul_iff_left (Nat.pos_of_ne_zero hne)).symm
    · refine ⟨false, if_pos fun h => hdvd (Nat.dvd_of_mod_eq_zero h), ?_⟩
      exact iff_of_false (by simp) fun h => hdvd ((Nat.dvd_mul_right _ _).trans h)

theorem isExactMultipleDecimal_eq {d2s : Binary64 → Bytes} {v d : Pjson} {x y : ℚ}
    (hv : v.place = some ((x : WithTop ℚ) : WithBot (WithTop ℚ)))
    (hd : d.place = some ((y : WithTop ℚ) : WithBot (WithTop ℚ))) (hne : y ≠ 0)
    (hv2s : ∀ z ∈ v.doubles, Shortest d2s z) (hd2s : ∀ z ∈ d.doubles, Shortest d2s z) :
    ∃ answer, isExactMultipleDecimal d2s v d = .ok answer ∧
      (answer = true ↔ ∃ n : ℤ, decimalValue d2s v = n * decimalValue d2s d) := by
  obtain ⟨dv, hrunv, hvaluev, hfitsv⟩ := decimalFromNumber_ok hv hv2s
  obtain ⟨dd, hrund, hvalued, hfitsd⟩ := decimalFromNumber_ok hd hd2s
  have hcoefficient : dd.coefficient ≠ 0 := by
    intro h0
    rw [ExactDecimal.value, h0, Nat.cast_zero, zero_mul, eq_comm, abs_eq_zero] at hvalued
    exact decimalValue_ne_zero hd hne hd2s hvalued
  rw [isExactMultipleDecimal, hrund]
  dsimp only
  rw [if_neg hcoefficient, hrunv]
  dsimp only
  rw [Scale.exists_multiple_abs, ← hvaluev, ← hvalued]
  by_cases hzero : dv.coefficient = 0
  · refine ⟨true, if_pos hzero, iff_of_true rfl ⟨0, ?_⟩⟩
    rw [ExactDecimal.value, hzero]
    simp
  · rw [if_neg hzero]
    exact isMultipleDecimal_eq hfitsv hfitsd hcoefficient

/-- **`multipleOf` is exact.**  On a finite number and a positive finite divisor the answer is whether
    the one is an integer multiple of the other; no arithmetic overflows, and both are decimals. -/
theorem isExactMultiple_exact (d2s : Binary64 → Bytes) (v d : Pjson) (x y : ℚ)
    (hv : v.place = some ((x : WithTop ℚ) : WithBot (WithTop ℚ)))
    (hd : d.place = some ((y : WithTop ℚ) : WithBot (WithTop ℚ))) (hpos : 0 < y)
    (hv2s : ∀ z ∈ v.doubles, Shortest d2s z) (hd2s : ∀ z ∈ d.doubles, Shortest d2s z) :
    (∃ answer, isExactMultiple d2s v d = .ok answer ∧
      (answer = true ↔ ∃ n : ℤ, decimalValue d2s v = n * decimalValue d2s d)) ∧
    (∃ dec, decimalFromNumber d2s v = .ok dec) ∧ ∃ dec, decimalFromNumber d2s d = .ok dec := by
  obtain ⟨dv, hrunv, -⟩ := decimalFromNumber_ok hv hv2s
  obtain ⟨dd, hrund, -⟩ := decimalFromNumber_ok hd hd2s
  refine ⟨?_, ⟨dv, hrunv⟩, dd, hrund⟩
  have hpositive : ¬ ((numberAsDouble d).le Binary64.zero) = true := by
    rw [numberAsDouble_pos hd hpos]
    exact Bool.false_ne_true
  have hdecimal := isExactMultipleDecimal_eq hv hd hpos.ne' hv2s hd2s
  by_cases hints : ∃ i j, v = .jsonNumberInt i ∧ d = .jsonNumberInt j
  · obtain ⟨i, j, rfl, rfl⟩ := hints
    rw [Pjson.place, Option.some.injEq, onLine_inj] at hd
    have hj : j.toInt.natAbs ≠ 0 := by
      have : j.toInt ≠ 0 := by
        rintro h
        rw [h, Int.cast_zero] at hd
        exact hpos.ne hd
      omega
    rw [isExactMultiple, if_neg hpositive, magnitudeOf_eq, Except.ok_bind, magnitudeOf_eq, Except.ok_bind, if_neg hj]
    refine ⟨_, rfl, ?_⟩
    rw [beq_iff_eq, ← Nat.dvd_iff_mod_eq_zero, ← Scale.exists_multiple_nat, decimalValue, decimalValue]
    simp only [Nat.cast_natAbs, Int.cast_abs]
    exact Scale.exists_multiple_abs.symm
  · rw [isExactMultiple, if_neg hpositive]
    · exact hdecimal
    · intro i j hi hj
      exact hints ⟨i, j, hi, hj⟩

/-- One half is a multiple of itself. -/
theorem isExactMultiple_exact_half :
    (∃ answer, isExactMultiple (fun _ => ryuHalf.text) (.jsonNumberDouble ⟨0x3FE0000000000000⟩)
        (.jsonNumberDouble ⟨0x3FE0000000000000⟩) = .ok answer ∧
      (answer = true ↔ ∃ n : ℤ,
        decimalValue (fun _ => ryuHalf.text) (.jsonNumberDouble ⟨0x3FE0000000000000⟩) =
          n * decimalValue (fun _ => ryuHalf.text) (.jsonNumberDouble ⟨0x3FE0000000000000⟩))) :=
  have hplace : (Pjson.jsonNumberDouble ⟨0x3FE0000000000000⟩).place =
      some (((1 / 2 : ℚ) : WithTop ℚ) : WithBot (WithTop ℚ)) := by decide +kernel
  have hryu : ∀ z ∈ (Pjson.jsonNumberDouble ⟨0x3FE0000000000000⟩).doubles,
      Shortest (fun _ => ryuHalf.text) z := by
    intro z hz
    rw [List.mem_singleton.mp hz]
    exact ⟨ryuHalf, rfl, by decide +kernel, by decide⟩
  (isExactMultiple_exact (fun _ => ryuHalf.text) (.jsonNumberDouble ⟨0x3FE0000000000000⟩)
    (.jsonNumberDouble ⟨0x3FE0000000000000⟩) (1 / 2) (1 / 2) hplace hplace (by norm_num) hryu hryu).1

end ByteDance
