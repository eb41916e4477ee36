/-
  How a number token is classified, and the arithmetic of its exponent.

  `evalParseDouble` is `parseDouble` with the computation of the effective exponent step by step in
  `int64_t`, and `none` where a step overflows.  `evalParseDouble_text` says that no step does on a
  token the memory can hold, so the two are one function there.  `convertNumberToken_classifies` puts
  together what becomes of a token: exact integers, range errors judged by the decimal value, and
  the flag of an underflow to zero.
-/
import Pjson.Lib.Checked
import Pjson.Parser.NumberConvert

namespace ByteDance

open Checked Decimal

/-! ## The exponent in `int64_t` -/

/-- The loop over the exponent digits. -/
def evalExplicitExponentFrom (explicitExponent : Int) : Bytes → Option Int
  | [] => some explicitExponent
  | ch :: rest => do
    let digit : Int := (ch.toNat : Int) - 0x30
    let room ← signed 64 (kExponentCap - digit)
    if explicitExponent > room.tdiv 10 then some kExponentCap
    else
      let scaled ← signed 64 (explicitExponent * 10)
      let explicitExponent ← signed 64 (scaled + digit)
      evalExplicitExponentFrom explicitExponent rest

/-- The written exponent. -/
def evalExplicitExponent (text : Bytes) (exponentMark : Option Nat) : Option Int :=
  match exponentMark with
  | none => some 0
  | some mark => do
    let s := text.drop (mark + 1)
    let negative := s.head? == some 0x2D
    let s := if negative || s.head? == some 0x2B then s.tail else s
    let explicitExponent ← evalExplicitExponentFrom 0 s
    if negative then signed 64 (-explicitExponent) else some explicitExponent

/-- The place of the leading digit; the two sizes are cast to `int64_t` first. -/
def evalBaseExponent (digitsBeforePoint firstNonzero : Nat) : Option Int := do
  let before ← signed 64 digitsBeforePoint
  let first ← signed 64 firstNonzero
  let difference ← signed 64 (before - first)
  signed 64 (difference - 1)

/-- Their sum, kept within the cap. -/
def evalEffectiveExponent (explicitExponent baseExponent : Int) : Option Int := do
  let top ← signed 64 (kExponentCap - baseExponent)
  if explicitExponent > top then some kExponentCap
  else
    let bottom ← signed 64 (-kExponentCap - baseExponent)
    if explicitExponent < bottom then some (-kExponentCap)
    else signed 64 (explicitExponent + baseExponent)

/-- `parseDouble`, or `none` if the computation of the exponent overflows. -/
def evalParseDouble (lib : NumericLibrary) (text : Bytes) : Option (Option (Binary64 × Bool)) :=
  let stream := extractDouble lib text
  let cleanParse := !stream.fail && stream.eof
  if !cleanParse && (!stream.eof || !stream.value.isFinite) then some none
  else
    let signOffset := if text.head? = some 0x2D then 1 else 0
    let exponentMark := text.findIdx? fun b => b == 0x65 || b == 0x45
    let significandEnd := exponentMark.getD text.length
    let significand := (text.take significandEnd).drop signOffset
    let point := significand.findIdx? fun b => b == 0x2E
    let digitsBeforePoint := point.getD significand.length
    match firstNonzeroFrom 0 none significand with
    | none => some (some (stream.value, false))
    | some firstNonzero =>
      if cleanParse then some (some (stream.value, stream.value.isZero))
      else do
        let explicitExponent ← evalExplicitExponent text exponentMark
        let baseExponent ← evalBaseExponent digitsBeforePoint firstNonzero
        let effectiveExponent ← evalEffectiveExponent explicitExponent baseExponent
        if effectiveExponent ≥ 0 then some none
        else some (some (stream.value, stream.value.isZero))

/-! ## No overflow -/

/-- The loop stays within the cap, so its products stay far within the type. -/
theorem evalExplicitExponentFrom_eq (ds : Bytes) (e : Nat) (hds : AllDigits ds)
    (he : e ≤ kExponentCap) :
    evalExplicitExponentFrom e ds = some (explicitExponentFrom e ds : Int) := by
  induction ds generalizing e with
  | nil => rfl
  | cons d ds ih =>
    obtain ⟨hd, hds⟩ := allDigits_cons.mp hds
    have hrange := isDigit_iff.mp hd
    have hcap : kExponentCap = 1000000000 := rfl
    have hroom : signed 64 ((kExponentCap : Int) - ((d.toNat : Int) - 0x30)) =
        some (((kExponentCap - (d.toNat - 0x30) : Nat)) : Int) := by
      rw [signed_64 (by omega) (by omega)]
      congr 1
      omega
    rw [evalExplicitExponentFrom, explicitExponentFrom, hroom]
    dsimp only [Option.bind_eq_bind, Option.bind_some]
    have htest : (e : Int) > ((kExponentCap - (d.toNat - 0x30) : Nat) : Int).tdiv 10 ↔
        e > (kExponentCap - (d.toNat - 0x30)) / 10 := by
      rw [Int.tdiv_eq_ediv_of_nonneg (by omega)]
      omega
    by_cases hover : e > (kExponentCap - (d.toNat - 0x30)) / 10
    · rw [if_pos (htest.mpr hover), if_pos hover]
    · rw [if_neg fun h => hover (htest.mp h), if_neg hover, signed_64 (by omega) (by omega),
        Option.bind_some, signed_64 (by omega) (by omega), Option.bind_some, ← ih _ hds (by omega)]
      congr 1
      omega

theorem evalEffectiveExponent_eq {e b : Int} (hb : b.natAbs ≤ 2 ^ 62) : evalEffectiveExponent e b = some (effectiveExponent e b) := by
  have hcap : kExponentCap = 1000000000 := rfl
  rw [evalEffectiveExponent, effectiveExponent, signed_64 (by omega) (by omega)]
  dsimp only [Option.bind_eq_bind, Option.bind_some]
  by_cases htop : e > kExponentCap - b
  · rw [if_pos htop, if_pos htop]
  · rw [if_neg htop, if_neg htop, signed_64 (by omega) (by omega), Option.bind_some]
    by_cases hbottom : e < -kExponentCap - b
    · rw [if_pos hbottom, if_pos hbottom]
    · rw [if_neg hbottom, if_neg hbottom, signed_64 (by omega) (by omega)]

theorem evalBaseExponent_eq {m k : Nat} (hm : m < 2 ^ 62) (hk : k < 2 ^ 62) :
    evalBaseExponent m k = some ((m : Int) - k - 1) := by
  have hbefore : signed 64 (m : Int) = some (m : Int) := signed_64 (by omega) (by omega)
  have hfirst : signed 64 (k : Int) = some (k : Int) := signed_64 (by omega) (by omega)
  have hdiff : signed 64 ((m : Int) - k) = some ((m : Int) - k) := signed_64 (by omega) (by omega)
  have hbase : signed 64 ((m : Int) - k - 1) = some ((m : Int) - k - 1) :=
    signed_64 (by omega) (by omega)
  simp only [evalBaseExponent, Option.bind_eq_bind, hbefore, hfirst, hdiff, hbase, Option.bind_some]

namespace NumberToken

theorem evalExplicitExponent_text (t : NumberToken) :
    evalExplicitExponent t.text (t.text.findIdx? (fun b => b == 0x65 || b == 0x45)) =
      some t.cappedExp := by
  have hcap : kExponentCap = 1000000000 := rfl
  rw [← t.explicitExponent_text]
  rw [t.significand_text.1]
  cases he : t.exp with
  | none => rfl
  | some e =>
    obtain ⟨hneg, htext⟩ := e.signed_text
    have hdrop : t.text.drop ((signText t.negative).length + (t.int ++ fracText t.frac).length + 1)
        = e.sign.toList ++ e.digits := by
      have h : t.text = (signText t.negative ++ (t.int ++ fracText t.frac)) ++
          e.mark :: (e.sign.toList ++ e.digits) := by
        simp [text, he, expText, Exponent.text]
      rw [h, ← List.length_append, ← List.drop_drop, List.drop_left]
      rfl
    rw [if_pos Option.isSome_some, evalExplicitExponent, explicitExponent, hdrop, htext]
    have hloop := evalExplicitExponentFrom_eq e.digits 0 e.digits_shape.1 (Nat.zero_le _)
    rw [Nat.cast_zero] at hloop
    rw [hloop]
    have hle := explicitExponentFrom_eq e.digits 0 e.digits_shape.1 (Nat.zero_le _)
    dsimp only [Option.bind_eq_bind, Option.bind_some]
    split_ifs with hsign
    · exact signed_64 (by omega) (by omega)
    · rfl

/-- **No overflow**: on a token that fits into memory the exponent is computed exactly. -/
theorem evalParseDouble_text (lib : NumericLibrary) (t : NumberToken) (h : t.text.length < 2 ^ 62) :
    evalParseDouble lib t.text = some (parseDouble lib t.text) := by
  have hlen : t.digits.length ≤ t.text.length := by
    rw [digits, List.length_append, text]
    simp only [List.length_append]
    cases t.frac <;> simp [fracText] <;> omega
  unfold evalParseDouble parseDouble
  dsimp only
  rw [t.significand_text.2, t.firstNonzero_text, t.point_text, t.evalExplicitExponent_text,
    t.explicitExponent_text]
  split_ifs with hstream hclean
  · rfl
  · cases t.lead <;> rfl
  · cases hk : t.lead with
    | none => rfl
    | some k =>
      have hk' : k < t.digits.length := (Decimal.value_bounds t.digits_allDigits hk).1
      have hint : t.int.length ≤ t.digits.length := by
        rw [digits, List.length_append]
        exact Nat.le_add_right _ _
      have hbase := evalBaseExponent_eq (m := t.int.length) (k := k) (by omega) (by omega)
      have hsmall : ((t.int.length : Int) - k - 1).natAbs ≤ 2 ^ 62 := by omega
      simp only [Option.bind_eq_bind, Option.bind_some, hbase, evalEffectiveExponent_eq hsmall]
      split_ifs <;> rfl

/-! ## Classification -/

/-- The stream reports a range failure on an overflow and where the library reports an underflow. -/
theorem extractDouble_fail_iff {lib : NumericLibrary} {t : NumberToken} :
    (extractDouble lib t.text).fail = true ↔ t.Overflows ∨ t.ReportsUnderflow lib := by
  unfold extractDouble
  simp only [t.readDecimal_text]
  by_cases ho : t.Overflows
  · rw [if_pos (show (Binary64.ofRat t.negative t.mag).isFinite = false from ho)]
    exact iff_of_true rfl (Or.inl ho)
  · rw [if_neg (show ¬ (Binary64.ofRat t.negative t.mag).isFinite = false from ho)]
    show (decide (t.mag ≠ 0 ∧ t.mag < (2 : ℚ) ^ (-1022 : Int)) &&
      lib.underflowFails t.negative t.mag) = true ↔ _
    rw [Bool.and_eq_true, decide_eq_true_iff, or_iff_right ho, ReportsUnderflow, and_assoc]

/-- Where the cap does not interfere, a range failure is judged by the decimal value. -/
theorem parseDouble_of_fail {lib : NumericLibrary} {t : NumberToken} (hcap : ¬ t.CapTurns)
    (hfail : (extractDouble lib t.text).fail = true) :
    parseDouble lib t.text = if 1 ≤ t.mag then none
      else some (Binary64.ofRat t.negative t.mag, (Binary64.ofRat t.negative t.mag).isZero) := by
  have hsign : ∀ {k}, t.lead = some k → (0 ≤ t.cappedExp + t.base k ↔ 1 ≤ t.mag) := by
    intro k hk
    rw [t.one_le_mag_iff hk]
    by_contra hne
    exact hcap ⟨k, hk, hne⟩
  rcases extractDouble_fail_iff.mp hfail with ho | hu
  · have hone := one_le_of_overflows ho
    obtain ⟨k, hk⟩ := exists_lead (t := t) (by linarith)
    rw [parseDouble_overflow ho hk, if_pos ((hsign hk).mpr hone), if_pos hone]
  · obtain ⟨k, hk⟩ := exists_lead hu.1
    rw [parseDouble_underflow hu hk]
    simp only [hsign hk]

/-- The flag of an underflow to zero. -/
theorem parseDouble_flag {lib : NumericLibrary} {t : NumberToken} (hcap : ¬ t.CapTurns)
    {d : Binary64} {flag : Bool} (h : parseDouble lib t.text = some (d, flag)) :
    flag = true ↔ t.mag ≠ 0 ∧ d.isZero = true := by
  cases hfail : (extractDouble lib t.text).fail with
  | true =>
    have hne : t.mag ≠ 0 := by
      rcases extractDouble_fail_iff.mp hfail with ho | hu
      · have := one_le_of_overflows ho
        linarith
      · exact hu.1
    rw [parseDouble_of_fail hcap hfail] at h
    split_ifs at h
    cases h
    exact (and_iff_right hne).symm
  | false =>
    have hnot := mt extractDouble_fail_iff.mpr (by rw [hfail]; exact Bool.false_ne_true)
    rw [not_or] at hnot
    rw [parseDouble_clean hnot.1 hnot.2] at h
    cases h
    rw [Bool.and_eq_true, decide_eq_true_iff]

theorem convertNumberToken_of_convert {lib : NumericLibrary} {policy : NumberPolicy}
    {t : NumberToken} {n : ParsedNumber} (h : t.convert lib policy = some n) :
    convertNumberToken lib t.text t.isFloat policy = .ok n := by
  unfold convert at h
  cases hc : convertNumberToken lib t.text t.isFloat policy with
  | ok m =>
    rw [hc] at h
    cases h
    rfl
  | error e =>
    rw [hc] at h
    cases h

end NumberToken

open NumberToken in
/-- **Number tokens are classified exactly.**  An integer token becomes the signed or else the
    unsigned node of its value, and is refused under `RejectUnrepresentableNumbers` where there is
    neither; a range failure of the library is refused exactly if the decimal value is one or more;
    the flag of an underflow to zero says what its name says; and the exponent does not overflow. -/
theorem convertNumberToken_classifies (lib : NumericLibrary) (policy : NumberPolicy)
    (t : NumberToken) (hlen : t.text.length < 10 ^ 8) :
    (t.isFloat = false →
      (-2 ^ 63 ≤ t.intValue → t.intValue < 2 ^ 63 → ∃ n : Int64, n.toInt = t.intValue ∧
        convertNumberToken lib t.text false policy = .ok (.SignedInteger n)) ∧
      (2 ^ 63 ≤ t.intValue → t.intValue < 2 ^ 64 → ∃ n : UInt64, (n.toNat : Int) = t.intValue ∧
        convertNumberToken lib t.text false policy = .ok (.UnsignedInteger n)) ∧
      (t.intValue < -2 ^ 63 ∨ 2 ^ 64 ≤ t.intValue → policy = .RejectUnrepresentableNumbers →
        ∃ message, convertNumberToken lib t.text false policy = .error message)) ∧
    ((extractDouble lib t.text).fail = true →
      (parseDouble lib t.text = none ↔ 1 ≤ t.mag) ∧
      ((∃ flag, parseDouble lib t.text = some (Binary64.ofRat t.negative t.mag, flag)) ↔
        t.mag < 1)) ∧
    (∀ d flag, parseDouble lib t.text = some (d, flag) →
      (flag = true ↔ t.mag ≠ 0 ∧ d.isZero = true)) ∧
    evalParseDouble lib t.text = some (parseDouble lib t.text) := by
  -- A token this short has an exponent far below the cap, so the cap turns no sign.
  have hcap : ¬ t.CapTurns := not_capTurns_of_length (by unfold kExponentCap; omega)
  refine ⟨fun hint => ⟨?_, ?_, ?_⟩, fun hfail => ?_, fun d flag => parseDouble_flag hcap,
    evalParseDouble_text lib t (by omega)⟩
  · intro hlo hhi
    refine ⟨Int64.ofInt t.intValue, Int64.toInt_ofInt_of_le hlo hhi, ?_⟩
    rw [← hint]
    apply convertNumberToken_of_convert
    rw [convert_integer lib policy t hint, exactInteger_signed hlo hhi]
  · intro hlo hhi
    refine ⟨UInt64.ofNat t.intValue.toNat, ?_, ?_⟩
    · rw [UInt64.toNat_ofNat_of_lt' (by show _ < 2 ^ 64; omega)]
      omega
    · rw [← hint]
      apply convertNumberToken_of_convert
      rw [convert_integer lib policy t hint, exactInteger_unsigned hlo hhi]
  · rintro hout rfl
    have hnone := convert_integer lib .RejectUnrepresentableNumbers t hint
    rw [exactInteger_none hout, convert, hint] at hnone
    cases hc : convertNumberToken lib t.text false .RejectUnrepresentableNumbers with
    | error message => exact ⟨message, rfl⟩
    | ok n =>
      rw [hc] at hnone
      cases hnone
  -- Where the library reports a range failure the direction is that of the magnitude.
  · rw [parseDouble_of_fail hcap hfail]
    by_cases hone : 1 ≤ t.mag
    · rw [if_pos hone]
      refine ⟨iff_of_true rfl hone, iff_of_false ?_ (not_lt.mpr hone)⟩
      rintro ⟨flag, h⟩
      cases h
    · rw [if_neg hone]
      exact ⟨iff_of_false (by simp) hone, iff_of_true ⟨_, rfl⟩ (not_le.mp hone)⟩

/-- `1e-400`, or `1e400`. -/
def farPower (minus : Bool) : NumberToken :=
  { NumberToken.ofInt 1 with
    exp := some { mark := 0x65
                  sign := if minus then some 0x2D else none
                  digits := Decimal.numeral 400
                  mark_shape := Or.inl rfl
                  sign_shape := by cases minus <;> simp
                  digits_shape := ⟨Decimal.numeral_allDigits _, Decimal.numeral_ne_nil _⟩ } }

theorem mag_farPower (minus : Bool) :
    (farPower minus).mag = (10 : ℚ) ^ (if minus then (-400 : Int) else 400) := by
  have hdigits : (farPower minus).digits = Decimal.numeral 1 := List.append_nil _
  have hexp : (farPower minus).expValue = if minus then (-400 : Int) else 400 := by
    cases minus with
    | false =>
      show (Decimal.value (Decimal.numeral 400) : Int) = 400
      rw [Decimal.value_numeral]
      rfl
    | true =>
      show -(Decimal.value (Decimal.numeral 400) : Int) = -400
      rw [Decimal.value_numeral]
      rfl
  unfold NumberToken.mag
  rw [hdigits, hexp, Decimal.value_numeral]
  simp [farPower, NumberToken.ofInt]

/-- Both are outside the range of the library: one beyond every double, the other below every normal one. -/
theorem extractDouble_farPower (minus : Bool) :
    (extractDouble ⟨fun _ _ => true⟩ (farPower minus).text).fail = true := by
  have hbeyond : (2 : ℚ) ^ (1024 : Int) ≤ 10 ^ (400 : Int) := by
    calc (2 : ℚ) ^ (1024 : Int) ≤ 2 ^ ((3 : Int) * 400) := zpow_le_zpow_right₀ (by norm_num) (by norm_num)
      _ = (2 ^ (3 : Int)) ^ (400 : Int) := zpow_mul _ _ _
      _ ≤ 10 ^ (400 : Int) := zpow_le_zpow_left₀ (by norm_num) (by norm_num) (by norm_num)
  apply NumberToken.extractDouble_fail_iff.mpr
  have hmag := mag_farPower minus
  cases minus with
  | false =>
    refine Or.inl (Binary64.ofRat_overflow _ ?_)
    rw [hmag]
    exact hbeyond
  | true =>
    refine Or.inr ⟨?_, ?_, rfl⟩
    · rw [hmag]
      positivity
    · rw [hmag]
      show (10 : ℚ) ^ (-400 : Int) < 2 ^ (-1022 : Int)
      rw [zpow_neg, zpow_neg]
      refine inv_strictAnti₀ (by positivity) (lt_of_lt_of_le ?_ hbeyond)
      exact zpow_lt_zpow_right₀ (by norm_num) (by norm_num)

theorem length_farPower (minus : Bool) : (farPower minus).text.length < 10 ^ 8 := by
  cases minus <;> decide

/-- The token `-7` under the strict policy, and two on which the library reports a range failure. -/
theorem convertNumberToken_classifies_minus_seven :
    (∃ n : Int64, n.toInt = (NumberToken.ofInt (-7)).intValue ∧
      convertNumberToken ⟨fun _ _ => true⟩ (NumberToken.ofInt (-7)).text false
        .RejectUnrepresentableNumbers = .ok (.SignedInteger n)) ∧
    parseDouble ⟨fun _ _ => true⟩ (farPower false).text = none ∧
    ∃ flag, parseDouble ⟨fun _ _ => true⟩ (farPower true).text =
      some (Binary64.ofRat false (farPower true).mag, flag) := by
  have hbeyond := (convertNumberToken_classifies ⟨fun _ _ => true⟩ .RejectUnrepresentableNumbers
    (farPower false) (length_farPower _)).2.1 (extractDouble_farPower _)
  have hbelow := (convertNumberToken_classifies ⟨fun _ _ => true⟩ .RejectUnrepresentableNumbers
    (farPower true) (length_farPower _)).2.1 (extractDouble_farPower _)
  refine ⟨((convertNumberToken_classifies ⟨fun _ _ => true⟩ .RejectUnrepresentableNumbers (.ofInt (-7))
    (by decide)).1 rfl).1 (by decide) (by decide), hbeyond.1.mpr ?_, hbelow.2.mpr ?_⟩
  · rw [mag_farPower]
    exact one_le_zpow₀ (by norm_num) (by norm_num)
  · rw [mag_farPower]
    exact zpow_lt_one_of_neg₀ (by norm_num) (by norm_num)

end ByteDance
