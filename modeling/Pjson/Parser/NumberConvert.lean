/-
  What `convertNumberToken` makes of a number token.

  The library calls are exact on a token (`readDecimal_text`, `strtoll_text`, `strtoull_text`), so
  the only judgement of the parser's own is which way a range error of the stream went.  It is made
  from the place of the leading digit: `E + B ≥ 0`, with `E` the exponent and `B` the place of the
  first nonzero digit before the point, says that the value is at least one.  The source adds the
  two after capping `E` at `kExponentCap`.  A token is `Misjudged` where the library reports a range
  error and the cap turns the sign of that sum.

  `convert_of_not_misjudged` is the result: away from misjudged tokens the conversion is
  `NumberToken.denote`.  `parseDouble_misjudged_overflow` and `parseDouble_misjudged_underflow` say what
  happens on the others, and `not_capTurns_of_length` that they are longer than a thousand million bytes.
-/
import Pjson.Parser.NumberScan

namespace ByteDance

open Decimal

theorem endsNumber_nil : EndsNumber [] := fun _ h => by cases h

namespace NumberToken

/-! ## The spelling of a token, seen by the library -/

/-- The digits of a token, with those of its fraction. -/
theorem digits_allDigits (t : NumberToken) : AllDigits t.digits := by
  unfold digits
  rw [allDigits_append]
  refine ⟨t.int_digits, ?_⟩
  cases h : t.frac with
  | none => exact allDigits_nil
  | some ds => exact (t.frac_shape ds h).1

/-- The integer part starts with a digit. -/
theorem int_eq_cons (t : NumberToken) : ∃ d ds, t.int = d :: ds ∧ IsDigit d := by
  rcases t.int_shape with h | ⟨d, ds, h, -⟩
  · exact ⟨0x30, [], h, by decide⟩
  · exact ⟨d, ds, h, (allDigits_cons.mp (h ▸ t.int_digits)).1⟩

/-- The text after the sign. -/
def unsignedText (t : NumberToken) : Bytes := t.int ++ (fracText t.frac ++ expText t.exp)

/-- A token is its sign and the rest. -/
theorem text_eq (t : NumberToken) : t.text = signText t.negative ++ t.unsignedText := rfl

/-- It begins with a minus if it is negative, and only then. -/
theorem head_text (t : NumberToken) : t.text.head? = some 0x2D ↔ t.negative = true := by
  obtain ⟨d, ds, h, hd⟩ := t.int_eq_cons
  rw [text_eq, unsignedText, h]
  cases t.negative with
  | true => simp [signText]
  | false =>
    have hne : d ≠ 0x2D := by rintro rfl; revert hd; decide
    simp [signText, hne]

/-- Cutting off a sign leaves the unsigned text. -/
theorem unsigned_text (t : NumberToken) :
    (if (t.text.head? == some 0x2D) = true then t.text.tail else t.text) = t.unsignedText := by
  cases h : t.negative with
  | true =>
    rw [if_pos (by rw [beq_iff_eq, head_text, h]), text_eq, h]
    rfl
  | false =>
    rw [if_neg (by rw [beq_iff_eq, head_text, h]; simp), text_eq, h]
    rfl

/-- As the source tests it. -/
theorem beq_head_text (t : NumberToken) : (t.text.head? == some 0x2D) = t.negative := by
  rw [Bool.eq_iff_iff, beq_iff_eq, head_text]

/-- The digits a scan finds at the head of the unsigned text are the integer part. -/
theorem span_unsignedText (t : NumberToken) :
    t.unsignedText.takeWhile (fun b => decide (IsDigit b)) = t.int ∧
      t.unsignedText.dropWhile (fun b => decide (IsDigit b)) =
        fracText t.frac ++ expText t.exp := by
  refine takeWhile_digits t.int_digits fun b hb => ?_
  exact CursorView.head_fracText (t := t) endsNumber_nil b (by simpa using hb)

/-- The digits of a fraction end where the exponent begins. -/
theorem span_fracText (t : NumberToken) {ds : Bytes} (h : t.frac = some ds) :
    (ds ++ expText t.exp).takeWhile (fun b => decide (IsDigit b)) = ds ∧
      (ds ++ expText t.exp).dropWhile (fun b => decide (IsDigit b)) = expText t.exp := by
  refine takeWhile_digits (t.frac_shape ds h).1 fun b hb => ?_
  exact (CursorView.head_expText (t := t) endsNumber_nil b (by simpa using hb)).1

/-- The head of an exponent part is its mark. -/
theorem head_expText_ne (t : NumberToken) : (expText t.exp).head? ≠ some 0x2E := by
  cases h : t.exp with
  | none => simp [expText]
  | some e => rcases e.mark_shape with hm | hm <;> simp [expText, Exponent.text, hm]

end NumberToken

namespace Exponent

/-- A leading digit is no sign, so what is left after the sign is the digits. -/
theorem signed_text (e : Exponent) :
    ((e.sign.toList ++ e.digits).head? == some 0x2D) = (e.sign == some 0x2D) ∧
    (if ((e.sign.toList ++ e.digits).head? == some 0x2D ||
        (e.sign.toList ++ e.digits).head? == some 0x2B) = true
      then (e.sign.toList ++ e.digits).tail else e.sign.toList ++ e.digits) = e.digits := by
  obtain ⟨hds, hne⟩ := e.digits_shape
  obtain ⟨d, ds, hcons⟩ := List.exists_cons_of_ne_nil hne
  have hd : IsDigit d := (allDigits_cons.mp (hcons ▸ hds)).1
  cases h : e.sign with
  | none =>
    have h1 : d ≠ 0x2D := by rintro rfl; revert hd; decide
    have h2 : d ≠ 0x2B := by rintro rfl; revert hd; decide
    simp [hcons, h1, h2]
  | some b =>
    rcases e.sign_shape b h with rfl | rfl <;> simp

end Exponent

namespace NumberToken

/-- **The decimal reader is exact** on a token. -/
theorem readDecimal_text (t : NumberToken) : readDecimal t.text = some (t.negative, t.mag) := by
  obtain ⟨d, ds, hcons, -⟩ := t.int_eq_cons
  obtain ⟨htake, hdrop⟩ := t.span_unsignedText
  unfold readDecimal
  dsimp only
  rw [unsigned_text, beq_head_text, htake, hdrop]
  have hfrac : (if (fracText t.frac ++ expText t.exp).head? = some 0x2E then
        (fracText t.frac ++ expText t.exp).tail.takeWhile fun b => decide (IsDigit b)
      else []) = t.frac.getD [] := by
    cases h : t.frac with
    | none => rw [if_neg (by simpa [fracText] using t.head_expText_ne)]; rfl
    | some ds => exact (t.span_fracText h).1
  have hrest : (if (fracText t.frac ++ expText t.exp).head? = some 0x2E then
        (fracText t.frac ++ expText t.exp).tail.dropWhile fun b => decide (IsDigit b)
      else fracText t.frac ++ expText t.exp) = expText t.exp := by
    cases h : t.frac with
    | none => rw [if_neg (by simpa [fracText] using t.head_expText_ne)]; rfl
    | some ds => exact (t.span_fracText h).2
  rw [hfrac, hrest, if_neg (by simp [hcons])]
  cases h : t.exp with
  | none => simp [expText, mag, digits, expValue, h]
  | some e =>
    obtain ⟨hneg, htext⟩ := e.signed_text
    simp only [expText, Exponent.text]
    rw [htext, hneg, if_pos ⟨e.mark_shape, e.digits_shape.2, e.digits_shape.1⟩]
    simp [mag, digits, expValue, h, Exponent.value]

/-- `strtoll` on an integer token: the value, with `ERANGE` outside the signed range. -/
theorem strtoll_text (t : NumberToken) :
    strtoll t.text = if t.intValue < -2 ^ 63 then (Int64.minValue, true)
      else if 2 ^ 63 ≤ t.intValue then (Int64.maxValue, true)
      else (Int64.ofInt t.intValue, false) := by
  unfold strtoll
  dsimp only
  rw [unsigned_text, beq_head_text, t.span_unsignedText.1]
  rfl

/-- `strtoull` on a token without sign. -/
theorem strtoull_text (t : NumberToken) (h : t.negative = false) :
    strtoull t.text = if 2 ^ 64 ≤ Decimal.value t.int then (UInt64.ofNat (2 ^ 64 - 1), true)
      else (UInt64.ofNat (Decimal.value t.int), false) := by
  have htext : t.text = t.unsignedText := by rw [text_eq, h]; rfl
  unfold strtoull
  dsimp only
  rw [htext, t.span_unsignedText.1]

/-! ## The place of the leading digit -/

/-- The ordinal of the first nonzero digit. -/
def lead (t : NumberToken) : Option Nat := t.digits.findIdx? (fun d => d != 0x30)

/-- How far the leading digit stands before the units digit, the exponent left out. -/
def base (t : NumberToken) (lead : Nat) : Int := (t.int.length : Int) - lead - 1

/-- The exponent, capped. -/
def cappedExp (t : NumberToken) : Int := max (-(kExponentCap : Int)) (min kExponentCap t.expValue)

/-- A round of the scan for the leading digit: a dot is not counted. -/
theorem firstNonzeroFrom_cons (n : Nat) (f : Option Nat) (b : UInt8) (s : Bytes) :
    firstNonzeroFrom n f (b :: s) = if b = 0x2E then firstNonzeroFrom n f s
      else firstNonzeroFrom (n + 1) (if f = none ∧ b ≠ 0x30 then some n else f) s := rfl

/-- Once found it stays. -/
theorem firstNonzeroFrom_some (k n : Nat) (s : Bytes) : firstNonzeroFrom n (some k) s = some k := by
  induction s generalizing n with
  | nil => rfl
  | cons b s ih =>
    rw [firstNonzeroFrom_cons, if_neg (by simp : ¬ (some k = none ∧ b ≠ 0x30)), ih, ih, ite_self]

/-- The loop over the significand finds the first nonzero digit, whatever points are strewn in. -/
theorem firstNonzeroFrom_eq (s : Bytes) (n : Nat) : firstNonzeroFrom n none s =
    ((s.filter (fun b => b != 0x2E)).findIdx? (fun d => d != 0x30)).map (· + n) := by
  induction s generalizing n with
  | nil => rfl
  | cons b s ih =>
    rw [firstNonzeroFrom_cons]
    by_cases h : b = 0x2E
    · rw [if_pos h, ih, List.filter_cons, if_neg (by simp [h])]
    · rw [if_neg h, List.filter_cons, if_pos (bne_iff_ne.mpr h), List.findIdx?_cons]
      by_cases h0 : b = 0x30
      · rw [if_neg (by simp [h0]), if_neg (by simp [h0]), ih, Option.map_map]
        congr 1
        funext k
        simp only [Function.comp_apply]
        omega
      · rw [if_pos ⟨rfl, h0⟩, if_pos (bne_iff_ne.mpr h0), firstNonzeroFrom_some]
        simp

/-- The loop over the exponent digits computes the exponent, capped. -/
theorem explicitExponentFrom_eq (ds : Bytes) (e : Nat) (h : AllDigits ds) (he : e ≤ kExponentCap) :
    explicitExponentFrom e ds = min (e * 10 ^ ds.length + Decimal.value ds) kExponentCap := by
  induction ds generalizing e with
  | nil => simp [explicitExponentFrom, he]
  | cons d ds ih =>
    obtain ⟨hd, hds⟩ := allDigits_cons.mp h
    have hdv : d.toNat - 0x30 = digitVal d := rfl
    have hlt := digitVal_lt hd
    have hval : e * 10 ^ (d :: ds).length + Decimal.value (d :: ds) =
        (e * 10 + digitVal d) * 10 ^ ds.length + Decimal.value ds := by
      rw [Decimal.value_cons, List.length_cons, pow_succ]
      ring
    rw [hval]
    unfold explicitExponentFrom
    dsimp only
    rw [hdv]
    split_ifs with hcap
    · -- the cap is passed here, and later digits only add to the value
      have hbig : kExponentCap ≤ e * 10 + digitVal d := by unfold kExponentCap at *; omega
      have hmono : e * 10 + digitVal d ≤ (e * 10 + digitVal d) * 10 ^ ds.length :=
        Nat.le_mul_of_pos_right _ (by positivity)
      omega
    · exact ih _ hds (by unfold kExponentCap at *; omega)

/-- The cap on the sum keeps its sign; it is the cap on the explicit exponent that may turn it. -/
theorem effectiveExponent_nonneg (e b : Int) :
    0 ≤ effectiveExponent e b ↔ 0 ≤ e + b := by
  unfold effectiveExponent kExponentCap
  split_ifs <;> omega

/-- The significand the source cuts out of the text: everything from the sign to the mark. -/
theorem significand_text (t : NumberToken) :
    t.text.findIdx? (fun b => b == 0x65 || b == 0x45) =
      (if t.exp.isSome then
        some ((signText t.negative).length + (t.int ++ fracText t.frac).length) else none) ∧
    (t.text.take ((t.text.findIdx? (fun b => b == 0x65 || b == 0x45)).getD t.text.length)).drop
      (if t.text.head? = some 0x2D then 1 else 0) = t.int ++ fracText t.frac := by
  -- no byte before the exponent part is a mark
  have hplain : ∀ b ∈ signText t.negative ++ (t.int ++ fracText t.frac),
      ¬ ((b == 0x65 || b == 0x45) = true) := by
    intro b hb
    have hdigit : ∀ {c : UInt8}, IsDigit c → ¬ ((c == 0x65 || c == 0x45) = true) := by
      intro c hc h
      rcases (by simpa using h : c = 0x65 ∨ c = 0x45) with rfl | rfl <;> revert hc <;> decide
    rcases List.mem_append.mp hb with h | h
    · cases hn : t.negative with
      | true => rw [hn] at h; rw [List.mem_singleton.mp h]; decide
      | false => rw [hn] at h; cases h
    rcases List.mem_append.mp h with h | h
    · exact hdigit (t.int_digits b h)
    · cases hf : t.frac with
      | none => rw [hf] at h; cases h
      | some ds =>
        rw [hf] at h
        rcases List.mem_cons.mp h with rfl | h
        · decide
        · exact hdigit ((t.frac_shape ds hf).1 b h)
  have htext : t.text = (signText t.negative ++ (t.int ++ fracText t.frac)) ++ expText t.exp := by
    simp [text]
  have hsign : (if t.text.head? = some 0x2D then 1 else 0) = (signText t.negative).length := by
    cases hn : t.negative with
    | true => rw [if_pos ((head_text t).mpr hn)]; rfl
    | false =>
      rw [if_neg (fun h => by rw [head_text, hn] at h; cases h)]
      rfl
  have hfind : t.text.findIdx? (fun b => b == 0x65 || b == 0x45) = if t.exp.isSome then
      some ((signText t.negative).length + (t.int ++ fracText t.frac).length) else none := by
    rw [htext, List.findIdx?_append, List.findIdx?_eq_none_iff.mpr
      (fun b hb => by simpa using hplain b hb)]
    cases he : t.exp with
    | none => simp [expText]
    | some e =>
      have hmark : (e.mark == 0x65 || e.mark == 0x45) = true := by simpa using e.mark_shape
      simp only [expText, Exponent.text, List.findIdx?_cons, hmark, if_true, Option.map_some,
        Option.isSome_some, List.length_append]
      simp
  refine ⟨hfind, ?_⟩
  rw [hsign, hfind]
  cases he : t.exp with
  | none =>
    have htake : t.text = signText t.negative ++ (t.int ++ fracText t.frac) := by
      rw [htext, he]; simp [expText]
    rw [if_neg (by simp), Option.getD_none, List.take_length, htake, List.drop_left]
  | some e =>
    rw [if_pos Option.isSome_some, Option.getD_some, htext, ← List.length_append, List.take_left, List.drop_left]

/-- The dot stands behind the integer part, or nowhere. -/
theorem point_text (t : NumberToken) :
    ((t.int ++ fracText t.frac).findIdx? (fun b => b == 0x2E)).getD
      (t.int ++ fracText t.frac).length = t.int.length := by
  have hint : t.int.findIdx? (fun b => b == 0x2E) = none :=
    List.findIdx?_eq_none_iff.mpr fun b hb => by
      have := t.int_digits b hb
      rw [beq_eq_false_iff_ne]
      rintro rfl
      revert this
      decide
  rw [List.findIdx?_append, hint]
  cases t.frac with
  | none => simp [fracText]
  | some ds => simp [fracText, List.findIdx?_cons]

/-- The scan finds the leading digit of the token. -/
theorem firstNonzero_text (t : NumberToken) :
    firstNonzeroFrom 0 none (t.int ++ fracText t.frac) = t.lead := by
  have hkeep : ∀ {ds : Bytes}, AllDigits ds → ds.filter (fun b => b != 0x2E) = ds := by
    intro ds hds
    refine List.filter_eq_self.mpr fun b hb => bne_iff_ne.mpr ?_
    rintro rfl
    exact absurd (hds _ hb) (by decide)
  have hdigits : (t.int ++ fracText t.frac).filter (fun b => b != 0x2E) = t.digits := by
    rw [List.filter_append, hkeep t.int_digits, digits]
    cases h : t.frac with
    | none => rfl
    | some ds =>
      rw [fracText, List.filter_cons, if_neg (by decide), hkeep (t.frac_shape ds h).1]
      rfl
  rw [firstNonzeroFrom_eq, hdigits]
  simp [lead]

/-- The exponent that is read is the one of the token, capped. -/
theorem explicitExponent_text (t : NumberToken) :
    explicitExponent t.text (t.text.findIdx? (fun b => b == 0x65 || b == 0x45)) = t.cappedExp := by
  rw [t.significand_text.1]
  cases he : t.exp with
  | none =>
    simp [explicitExponent, cappedExp, expValue, he]
  | some e =>
    obtain ⟨hneg, htext⟩ := e.signed_text
    have hdrop : t.text.drop ((signText t.negative).length + (t.int ++ fracText t.frac).length + 1)
        = e.sign.toList ++ e.digits := by
      have h : t.text = (signText t.negative ++ (t.int ++ fracText t.frac)) ++
          e.mark :: (e.sign.toList ++ e.digits) := by
        simp [text, he, expText, Exponent.text]
      rw [h, ← List.length_append, ← List.drop_drop, List.drop_left]
      rfl
    rw [if_pos Option.isSome_some]
    unfold explicitExponent
    dsimp only
    rw [hdrop, htext, hneg, explicitExponentFrom_eq _ _ e.digits_shape.1 (Nat.zero_le _)]
    simp only [cappedExp, expValue, he, Option.map_some, Option.getD_some, Exponent.value,
      Nat.zero_mul, Nat.zero_add, beq_iff_eq]
    split_ifs <;> omega

/-! ## The sign of the leading exponent -/

/-- The magnitude has no sign. -/
theorem mag_nonneg (t : NumberToken) : 0 ≤ t.mag := by unfold mag; positivity

/-- A token without a leading digit is zero. -/
theorem lead_eq_none_iff (t : NumberToken) : t.lead = none ↔ t.mag = 0 := by
  unfold lead
  rw [← Decimal.value_eq_zero_iff t.digits_allDigits]
  unfold mag
  rw [mul_eq_zero]
  have h10 : (10 : ℚ) ^ (t.expValue - (t.frac.getD []).length) ≠ 0 := by positivity
  exact ⟨fun h => Or.inl (by exact_mod_cast h), fun h => by
    exact_mod_cast h.resolve_right h10⟩

/-- The leading digit tells whether the value is at least one. -/
theorem one_le_mag_iff (t : NumberToken) {k : Nat} (h : t.lead = some k) :
    1 ≤ t.mag ↔ 0 ≤ t.expValue + t.base k := by
  obtain ⟨hk, hlo, hhi⟩ := Decimal.value_bounds t.digits_allDigits h
  have hlen : t.digits.length = t.int.length + (t.frac.getD []).length := by
    rw [digits, List.length_append]
  have hlo : ((10 : ℚ) ^ (t.digits.length - k - 1)) ≤ Decimal.value t.digits := by exact_mod_cast hlo
  have hhi : (Decimal.value t.digits : ℚ) < (10 : ℚ) ^ (t.digits.length - k) := by
    exact_mod_cast hhi
  have hscale : (0 : ℚ) < (10 : ℚ) ^ (t.expValue - (t.frac.getD []).length) := by positivity
  constructor
  · intro h1
    by_contra hneg
    -- the value is below the power of ten above its leading digit
    have hlt : t.mag < 1 := by
      calc t.mag < (10 : ℚ) ^ (t.digits.length - k) *
            (10 : ℚ) ^ (t.expValue - (t.frac.getD []).length) := by
            unfold mag; exact mul_lt_mul_of_pos_right hhi hscale
        _ = (10 : ℚ) ^ (((t.digits.length - k : Nat) : Int) +
              (t.expValue - (t.frac.getD []).length)) := by
            rw [zpow_add₀ (by norm_num), zpow_natCast]
        _ ≤ 1 := zpow_le_one_of_nonpos₀ (by norm_num) (by unfold base at hneg; omega)
    linarith
  · intro h0
    calc (1 : ℚ) ≤ (10 : ℚ) ^ (((t.digits.length - k - 1 : Nat) : Int) +
            (t.expValue - (t.frac.getD []).length)) :=
          one_le_zpow₀ (by norm_num) (by unfold base at h0; omega)
      _ = (10 : ℚ) ^ (t.digits.length - k - 1) *
            (10 : ℚ) ^ (t.expValue - (t.frac.getD []).length) := by
          rw [zpow_add₀ (by norm_num), zpow_natCast]
      _ ≤ t.mag := by unfold mag; exact mul_le_mul_of_nonneg_right hlo hscale.le

/-! ## The conversion -/

/-- The library overflows on the token. -/
def Overflows (t : NumberToken) : Prop := (Binary64.ofRat t.negative t.mag).isFinite = false

/-- The library reports an underflow on the token. -/
def ReportsUnderflow (lib : NumericLibrary) (t : NumberToken) : Prop :=
  t.mag ≠ 0 ∧ t.mag < (2 : ℚ) ^ (-1022 : Int) ∧ lib.underflowFails t.negative t.mag = true

/-- The cap turns the sign of the leading exponent. -/
def CapTurns (t : NumberToken) : Prop :=
  ∃ k, t.lead = some k ∧ ¬ (0 ≤ t.cappedExp + t.base k ↔ 0 ≤ t.expValue + t.base k)

/-- The library reports a range error whose direction the source gets wrong. -/
def Misjudged (lib : NumericLibrary) (t : NumberToken) : Prop :=
  (t.Overflows ∨ t.ReportsUnderflow lib) ∧ t.CapTurns

/-- A value the library overflows on is at least one. -/
theorem one_le_of_overflows {t : NumberToken} (h : t.Overflows) : 1 ≤ t.mag := by
  by_contra hlt
  unfold Overflows at h
  rw [Binary64.ofRat_isFinite_of_lt_one _ t.mag_nonneg (not_le.mp hlt)] at h
  cases h

/-- A value below the normal range is below one. -/
theorem lt_one_of_reportsUnderflow {lib : NumericLibrary} {t : NumberToken}
    (h : t.ReportsUnderflow lib) : t.mag < 1 :=
  lt_of_lt_of_le h.2.1 (zpow_le_one_of_nonpos₀ (by norm_num) (by norm_num))

/-- Underflow and overflow exclude each other. -/
theorem not_overflows_of_reportsUnderflow {lib : NumericLibrary} {t : NumberToken}
    (h : t.ReportsUnderflow lib) : ¬ t.Overflows := fun ho =>
  absurd (one_le_of_overflows ho) (not_le.mpr (lt_one_of_reportsUnderflow h))

/-- A nonzero value has a leading digit. -/
theorem exists_lead {t : NumberToken} (h : t.mag ≠ 0) : ∃ k, t.lead = some k :=
  Option.ne_none_iff_exists'.mp fun hn => h ((t.lead_eq_none_iff).mp hn)

/-- The source's decision on a token, in terms of its parts. -/
theorem parseDouble_text (lib : NumericLibrary) (t : NumberToken) :
    parseDouble lib t.text =
      let stream := extractDouble lib t.text
      let cleanParse := !stream.fail && stream.eof
      if !cleanParse && (!stream.eof || !stream.value.isFinite) then none
      else
        match t.lead with
        | none => some (stream.value, false)
        | some k =>
          if cleanParse then some (stream.value, stream.value.isZero)
          else if 0 ≤ t.cappedExp + t.base k then none
          else some (stream.value, stream.value.isZero) := by
  unfold parseDouble
  dsimp only
  rw [t.significand_text.2, t.firstNonzero_text, t.point_text, t.explicitExponent_text]
  cases t.lead with
  | none => rfl
  | some k =>
    have hsign : effectiveExponent t.cappedExp ((t.int.length : Int) - k - 1) ≥ 0 ↔
        0 ≤ t.cappedExp + t.base k := effectiveExponent_nonneg _ _
    simp only [hsign]

/-- Without a range error the nearest double is stored. -/
theorem parseDouble_clean {lib : NumericLibrary} {t : NumberToken} (ho : ¬ t.Overflows)
    (hu : ¬ t.ReportsUnderflow lib) : parseDouble lib t.text =
      some (Binary64.ofRat t.negative t.mag,
        decide (t.mag ≠ 0) && (Binary64.ofRat t.negative t.mag).isZero) := by
  have hstream : extractDouble lib t.text =
      { value := Binary64.ofRat t.negative t.mag, fail := false, eof := true } := by
    unfold extractDouble
    simp only [t.readDecimal_text]
    rw [if_neg (show ¬ (Binary64.ofRat t.negative t.mag).isFinite = false from ho)]
    have hfail : (decide (t.mag ≠ 0 ∧ t.mag < (2 : ℚ) ^ (-1022 : Int)) &&
        lib.underflowFails t.negative t.mag) = false := by
      rw [Bool.eq_false_iff]
      intro h
      rw [Bool.and_eq_true, decide_eq_true_iff] at h
      exact hu ⟨h.1.1, h.1.2, h.2⟩
    rw [hfail]
  rw [parseDouble_text, hstream]
  cases h : t.lead with
  | none => simp [t.lead_eq_none_iff.mp h]
  | some k =>
    have : t.mag ≠ 0 := fun h0 => by rw [t.lead_eq_none_iff.mpr h0] at h; cases h
    simp [this]

/-- On overflow the capped exponent decides. -/
theorem parseDouble_overflow {lib : NumericLibrary} {t : NumberToken} (ho : t.Overflows) {k : Nat}
    (hk : t.lead = some k) : parseDouble lib t.text =
      if 0 ≤ t.cappedExp + t.base k then none
      else some (if t.negative then Binary64.maxFinite.neg else Binary64.maxFinite, false) := by
  have hstream : extractDouble lib t.text =
      { value := if t.negative then Binary64.maxFinite.neg else Binary64.maxFinite,
        fail := true, eof := true } := by
    unfold extractDouble
    simp only [t.readDecimal_text]
    rw [if_pos (show (Binary64.ofRat t.negative t.mag).isFinite = false from ho)]
  obtain ⟨h1, h2, h3, h4⟩ := Binary64.maxFinite_fields
  rw [parseDouble_text, hstream, hk]
  cases t.negative <;> simp [h1, h2, h3, h4]

/-- On a reported underflow the capped exponent decides. -/
theorem parseDouble_underflow {lib : NumericLibrary} {t : NumberToken}
    (hu : t.ReportsUnderflow lib) {k : Nat} (hk : t.lead = some k) : parseDouble lib t.text =
      if 0 ≤ t.cappedExp + t.base k then none
      else some (Binary64.ofRat t.negative t.mag, (Binary64.ofRat t.negative t.mag).isZero) := by
  have ho : (Binary64.ofRat t.negative t.mag).isFinite = true := by
    simpa [Overflows] using not_overflows_of_reportsUnderflow hu
  have hstream : extractDouble lib t.text =
      { value := Binary64.ofRat t.negative t.mag, fail := true, eof := true } := by
    unfold extractDouble
    simp only [t.readDecimal_text]
    rw [if_neg (by rw [ho]; simp), decide_eq_true ⟨hu.1, hu.2.1⟩, hu.2.2]
    rfl
  rw [parseDouble_text, hstream, hk]
  simp [ho]

/-! ## Conversion of a whole token -/

/-- The conversion of the source, as a partial function on tokens. -/
def convert (lib : NumericLibrary) (policy : NumberPolicy) (t : NumberToken) :
    Option ParsedNumber :=
  (convertNumberToken lib t.text t.isFloat policy).toOption

/-- What the source makes of the outcome of `parseDouble`. -/
def ofDouble (lossy : Bool) : Option (Binary64 × Bool) → Option ParsedNumber
  | none => none
  | some (d, underflowToZero) =>
    if d.isFinite = false then none
    else if underflowToZero && !lossy then none
    else some (.FloatingPoint d)

/-- The conversion succeeds as the reading of the double does. -/
theorem convertToDouble_toOption (lib : NumericLibrary) (text : Bytes) (lossy : Bool) :
    (convertToDouble lib text lossy).toOption = ofDouble lossy (parseDouble lib text) := by
  unfold convertToDouble
  cases parseDouble lib text with
  | none => rfl
  | some r =>
    obtain ⟨d, z⟩ := r
    simp only [ofDouble]
    split_ifs <;> rfl

/-- What the source makes of an integer token: the exact value where an integer kind holds it. -/
theorem convert_integer (lib : NumericLibrary) (policy : NumberPolicy) (t : NumberToken)
    (hf : t.isFloat = false) :
    t.convert lib policy =
      match exactInteger t.intValue with
      | some n => some n
      | none => if policy == .AllowLossyNumbers then ofDouble true (parseDouble lib t.text)
        else none := by
  -- the last two steps of the source, once no integer kind holds the value
  have hlast : (if (policy == .AllowLossyNumbers) = false then
        .error "integer out of range; enable AllowLossyNumbers to store as double"
      else convertToDouble lib t.text (policy == .AllowLossyNumbers) :
        Except String ParsedNumber).toOption =
      if policy == .AllowLossyNumbers then ofDouble true (parseDouble lib t.text) else none := by
    cases policy with
    | RejectUnrepresentableNumbers => rfl
    | AllowLossyNumbers => exact convertToDouble_toOption lib t.text true
  unfold convert convertNumberToken
  dsimp only
  rw [hf, if_neg Bool.false_ne_true, strtoll_text]
  by_cases hlo : t.intValue < -2 ^ 63
  · -- below the signed range, hence negative, hence not unsigned either
    have hneg : t.negative = true := by
      by_contra hn
      rw [intValue, if_neg hn] at hlo
      omega
    rw [if_pos hlo, if_neg (by simp), if_neg (fun h => h.1 ((head_text t).mpr hneg)), hlast,
      exactInteger_none (Or.inl hlo)]
  · by_cases hhi : 2 ^ 63 ≤ t.intValue
    · have hneg : t.negative = false := by
        by_contra hn
        rw [Bool.not_eq_false] at hn
        rw [intValue, if_pos hn] at hhi
        omega
      have hval : t.intValue = Decimal.value t.int := by rw [intValue, hneg]; rfl
      have hhead : t.text.head? ≠ some 0x2D := fun h => by
        rw [head_text, hneg] at h; cases h
      rw [if_neg hlo, if_pos hhi, if_neg (by simp), strtoull_text t hneg]
      by_cases hu : 2 ^ 64 ≤ Decimal.value t.int
      · rw [if_pos hu, if_neg (fun h => Bool.noConfusion h.2), hlast,
          exactInteger_none (by omega)]
      · rw [if_neg hu, if_pos ⟨hhead, rfl⟩, exactInteger_unsigned hhi (by omega), hval,
          Int.toNat_natCast]
        rfl
    · rw [if_neg hlo, if_neg hhi, if_pos rfl, exactInteger_signed (by omega) (by omega)]
      rfl

/-- The conversion in terms of `parseDouble`, with the structure of `denote`. -/
theorem convert_eq (lib : NumericLibrary) (policy : NumberPolicy) (t : NumberToken) :
    t.convert lib policy =
      if t.isFloat then ofDouble (policy == .AllowLossyNumbers) (parseDouble lib t.text)
      else
        match exactInteger t.intValue with
        | some n => some n
        | none => if policy == .AllowLossyNumbers then ofDouble true (parseDouble lib t.text)
          else none := by
  cases hf : t.isFloat with
  | true =>
    rw [if_pos rfl, ← convertToDouble_toOption]
    unfold convert convertNumberToken
    rw [hf]
    rfl
  | false => exact convert_integer lib policy t hf

/-- **Away from misjudged tokens the conversion is the denotation.** -/
theorem convert_of_not_misjudged {lib : NumericLibrary} {policy : NumberPolicy} {t : NumberToken}
    (h : ¬ t.Misjudged lib) : t.convert lib policy = t.denote policy := by
  have hdouble : ∀ lossy, ofDouble lossy (parseDouble lib t.text) =
      nearestDouble lossy t.negative t.mag := by
    intro lossy
    have hsign : ∀ {k}, t.Overflows ∨ t.ReportsUnderflow lib → t.lead = some k →
        (0 ≤ t.cappedExp + t.base k ↔ 1 ≤ t.mag) := by
      intro k hr hk
      rw [t.one_le_mag_iff hk]
      by_contra hc
      exact h ⟨hr, k, hk, hc⟩
    by_cases ho : t.Overflows
    · obtain ⟨k, hk⟩ := exists_lead (t := t) (fun h0 => by
        have := one_le_of_overflows ho; linarith)
      rw [parseDouble_overflow ho hk, if_pos ((hsign (Or.inl ho) hk).mpr (one_le_of_overflows ho))]
      have hinf : (Binary64.ofRat t.negative t.mag).isFinite = false := ho
      simp [nearestDouble, ofDouble, hinf]
    · have hfin : (Binary64.ofRat t.negative t.mag).isFinite = true := by simpa [Overflows] using ho
      by_cases hu : t.ReportsUnderflow lib
      · obtain ⟨k, hk⟩ := exists_lead hu.1
        have hneg : ¬ 0 ≤ t.cappedExp + t.base k := by
          rw [hsign (Or.inr hu) hk, not_le]
          exact lt_one_of_reportsUnderflow hu
        rw [parseDouble_underflow hu hk, if_neg hneg]
        simp only [ofDouble, nearestDouble, hfin]
        cases lossy <;> simp [hu.1]
      · rw [parseDouble_clean ho hu]
        simp only [ofDouble, nearestDouble, hfin]
        by_cases h0 : t.mag = 0 <;> cases lossy <;> simp [h0]
  rw [convert_eq, hdouble, hdouble]
  unfold denote
  cases policy <;> rfl

/-- An overflow that is misjudged is stored as the largest finite value. -/
theorem parseDouble_misjudged_overflow {lib : NumericLibrary} {t : NumberToken} (ho : t.Overflows)
    (hc : t.CapTurns) : parseDouble lib t.text =
      some (if t.negative then Binary64.maxFinite.neg else Binary64.maxFinite, false) := by
  obtain ⟨k, hk, hne⟩ := hc
  have hpos : 0 ≤ t.expValue + t.base k := (t.one_le_mag_iff hk).mp (one_le_of_overflows ho)
  rw [parseDouble_overflow ho hk, if_neg fun h => hne ⟨fun _ => hpos, fun _ => h⟩]

/-- An underflow that is misjudged is refused. -/
theorem parseDouble_misjudged_underflow {lib : NumericLibrary} {t : NumberToken}
    (hu : t.ReportsUnderflow lib) (hc : t.CapTurns) : parseDouble lib t.text = none := by
  obtain ⟨k, hk, hne⟩ := hc
  have hneg : ¬ 0 ≤ t.expValue + t.base k := fun h =>
    absurd ((t.one_le_mag_iff hk).mpr h) (not_le.mpr (lt_one_of_reportsUnderflow hu))
  have hpos : 0 ≤ t.cappedExp + t.base k := by
    by_contra h
    exact hne ⟨fun h' => absurd h' h, fun h' => absurd h' hneg⟩
  rw [parseDouble_underflow hu hk, if_pos hpos]

/-- The cap can only turn the sign of a token longer than the cap. -/
theorem not_capTurns_of_length {t : NumberToken} (h : t.text.length ≤ kExponentCap) :
    ¬ t.CapTurns := by
  rintro ⟨k, hk, hne⟩
  have hlen : t.int.length + (t.frac.getD []).length ≤ t.text.length := by
    simp only [text, List.length_append]
    cases t.frac <;> simp [fracText] <;> omega
  have hk' : k < t.digits.length := (Decimal.value_bounds t.digits_allDigits hk).1
  rw [digits, List.length_append] at hk'
  apply hne
  unfold cappedExp base kExponentCap at *
  omega

end NumberToken

end ByteDance
