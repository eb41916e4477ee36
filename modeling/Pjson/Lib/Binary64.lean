/-
  The binary64 interchange format of IEEE 754, as far as a program that stores, compares and
  truncates doubles can see it.

  A value is its 64 bits, so equality of `Binary64` is identity of the representation (`-0.0` and
  `0.0` differ, NaN payloads differ).  `toRat` is the number a finite value denotes and `ext` its
  place on the extended rational line; the arithmetic comparisons of the hardware are comparisons
  of `ext`, false when a NaN is involved.  `ofRat` is rounding to nearest, ties to even, and
  `ofInt` the conversion of an integer operand.
-/
import Mathlib

/-- A binary64 value: its bits. -/
structure Binary64 where
  bits : BitVec 64
  deriving DecidableEq, Repr

namespace Binary64

/-- The sign bit. -/
def negative (d : Binary64) : Bool := d.bits.getMsbD 0

/-- The biased exponent field, eleven bits. -/
def exponent (d : Binary64) : Nat := (d.bits.toNat / 2 ^ 52) % 2 ^ 11

/-- The trailing significand field, fifty-two bits. -/
def fraction (d : Binary64) : Nat := d.bits.toNat % 2 ^ 52

def isFinite (d : Binary64) : Bool := d.exponent != 2047

def isNaN (d : Binary64) : Bool := d.exponent == 2047 && d.fraction != 0

/-- Either zero, whatever its sign. -/
def isZero (d : Binary64) : Bool := d.exponent == 0 && d.fraction == 0

/-- The significand as an integer, with the hidden bit of a normal number. -/
def significand (d : Binary64) : Nat :=
  if d.exponent = 0 then d.fraction else 2 ^ 52 + d.fraction

/-- The exponent of the last significand bit. -/
def scale (d : Binary64) : Int := (max d.exponent 1 : Nat) - 1075

/-- The absolute value of a finite double. -/
def mag (d : Binary64) : ℚ := d.significand * (2 : ℚ) ^ d.scale

/-- The number a finite double denotes. -/
def toRat (d : Binary64) : ℚ := if d.negative then -d.mag else d.mag

/-- The place of a double on the extended line, `none` for a NaN. -/
def ext (d : Binary64) : Option (WithBot (WithTop ℚ)) :=
  if d.isFinite then some ((d.toRat : WithTop ℚ) : WithBot (WithTop ℚ))
  else if d.fraction ≠ 0 then none
  else if d.negative then some ⊥ else some ((⊤ : WithTop ℚ) : WithBot (WithTop ℚ))

/-- `a < b` of the hardware: false when either side is a NaN. -/
def lt (a b : Binary64) : Bool :=
  match a.ext, b.ext with
  | some x, some y => decide (x < y)
  | _, _ => false

/-- `a <= b` of the hardware: false when either side is a NaN. -/
def le (a b : Binary64) : Bool :=
  match a.ext, b.ext with
  | some x, some y => decide (x ≤ y)
  | _, _ => false

/-- `a == b` of the hardware: false when either side is a NaN, true on zeros of either sign. -/
def eq (a b : Binary64) : Bool :=
  match a.ext, b.ext with
  | some x, some y => decide (x = y)
  | _, _ => false

/-- Rounds a nonnegative rational to the nearest integer, ties to even. -/
def roundEven (q : ℚ) : Nat :=
  let n := ⌊q⌋.toNat
  if q - n < 1 / 2 then n
  else if 1 / 2 < q - n then n + 1
  else if n % 2 = 0 then n else n + 1

/-- The bits of the infinity of positive sign. -/
def infinityBits : Nat := 2047 * 2 ^ 52

/-- Rounding to nearest, ties to even: the double closest to `q` in absolute value, with the
    given sign; an infinity when `q` is beyond the largest finite value. -/
def ofRat (neg : Bool) (q : ℚ) : Binary64 :=
  let e := if q = 0 then (-1022 : Int) else max (Int.log 2 q) (-1022)
  let m := roundEven (q / (2 : ℚ) ^ (e - 52))
  let body := min ((e + 1022).toNat * 2 ^ 52 + m) infinityBits
  ⟨BitVec.ofNat 64 (if neg then 2 ^ 63 + body else body)⟩

/-- The conversion of an integer to double. -/
def ofInt (z : Int) : Binary64 := ofRat (z < 0) |z|

/-- Truncation toward zero, the conversion of a finite double to an integer type. -/
def trunc (d : Binary64) : Int := if d.negative then -⌊d.mag⌋ else ⌊d.mag⌋

/-- The conversion to an integer type that holds the values from `lowest` up to but not including
    `beyond`; the conversion of any other value is undefined. -/
def castTo (lowest beyond : Int) (d : Binary64) : Option Int :=
  if d.isFinite = true ∧ lowest ≤ d.trunc ∧ d.trunc < beyond then some d.trunc else none

/-- `0.0`. -/
def zero : Binary64 := ⟨0⟩

/-- The largest finite double. -/
def maxFinite : Binary64 := ⟨BitVec.ofNat 64 (infinityBits - 1)⟩

/-- The same value with the sign bit set. -/
def neg (d : Binary64) : Binary64 := ⟨d.bits ||| BitVec.ofNat 64 (2 ^ 63)⟩

example : ofRat false (3 / 2) = ⟨0x3FF8000000000000⟩ := by decide +kernel

/-! ## Exactness of the conversions -/

theorem exponent_lt (d : Binary64) : d.exponent < 2048 := Nat.mod_lt _ (by decide)

theorem fraction_lt (d : Binary64) : d.fraction < 2 ^ 52 := Nat.mod_lt _ (by decide)

theorem significand_lt (d : Binary64) : d.significand < 2 ^ 53 := by
  have h := d.fraction_lt
  unfold significand
  split <;> omega

theorem mag_nonneg (d : Binary64) : 0 ≤ d.mag := by
  unfold mag
  positivity

/-- Every finite double is below `2 ^ 1024` in absolute value. -/
theorem mag_lt {d : Binary64} (h : d.isFinite) : d.mag < 2 ^ (1024 : Int) := by
  have hexp : d.exponent < 2047 := by
    have := d.exponent_lt
    have hne : d.exponent ≠ 2047 := by simpa [isFinite] using h
    omega
  have hscale : d.scale ≤ 971 := by unfold scale; omega
  have hsig : (d.significand : ℚ) < 2 ^ (53 : Int) := by exact_mod_cast d.significand_lt
  calc d.mag = (d.significand : ℚ) * 2 ^ d.scale := rfl
    _ < 2 ^ (53 : Int) * 2 ^ d.scale := by gcongr
    _ ≤ 2 ^ (53 : Int) * 2 ^ (971 : Int) := by
        gcongr
        norm_num
    _ = 2 ^ (1024 : Int) := by rw [← zpow_add₀ (by norm_num)]; norm_num

theorem roundEven_natCast (n : Nat) : roundEven n = n := by
  unfold roundEven
  have hfloor : ⌊(n : ℚ)⌋.toNat = n := by simp
  simp only [hfloor, sub_self]
  rw [if_pos (by norm_num)]

/-- The field `e + 1022` and significand `m` of a rounded value, read back: what `ofRat` stores
    denotes `m * 2 ^ (e - 52)`. -/
theorem mag_of_fields (neg : Bool) {e m : Nat} (he : e < 2046) (hm : m < 2 ^ 53)
    (hnormal : e = 0 ∨ 2 ^ 52 ≤ m) :
    let d : Binary64 :=
      ⟨BitVec.ofNat 64 (if neg then 2 ^ 63 + (e * 2 ^ 52 + m) else e * 2 ^ 52 + m)⟩
    d.mag = m * (2 : ℚ) ^ ((e : Int) - 1074) ∧ d.negative = neg ∧ d.isFinite := by
  intro d
  have hlt : e * 2 ^ 52 + m < 2 ^ 63 := by omega
  have hbits : d.bits.toNat = if neg then 2 ^ 63 + (e * 2 ^ 52 + m) else e * 2 ^ 52 + m := by
    show (BitVec.ofNat 64 _).toNat = _
    rw [BitVec.toNat_ofNat, Nat.mod_eq_of_lt]
    split <;> omega
  have hneg : d.negative = neg := by
    unfold negative
    rw [BitVec.getMsbD_eq_getLsbD, BitVec.getLsbD, hbits]
    cases neg with
    | false =>
      simp only [Bool.false_eq_true, if_false]
      rw [Nat.testBit_lt_two_pow (by omega)]
      decide
    | true =>
      have : (2 ^ 63 + (e * 2 ^ 52 + m)).testBit (64 - 1 - 0) = true := by
        rw [show 64 - 1 - 0 = 63 from rfl, Nat.testBit_two_pow_add_eq,
          Nat.testBit_lt_two_pow hlt]
        rfl
      rw [if_pos rfl, this]
      rfl
  have hexp : d.exponent = e + m / 2 ^ 52 := by
    unfold exponent
    rw [hbits]
    split <;> omega
  have hfrac : d.fraction = m % 2 ^ 52 := by
    unfold fraction
    rw [hbits]
    split <;> omega
  refine ⟨?_, hneg, ?_⟩
  · unfold mag significand scale
    rw [hexp, hfrac]
    -- Subnormal: the field is the significand; normal: the hidden bit goes into the exponent.
    rcases Nat.lt_or_ge m (2 ^ 52) with hlo | hhi
    · have h0 : e = 0 := hnormal.resolve_right (by omega)
      subst h0
      rw [Nat.div_eq_of_lt hlo, if_pos rfl, Nat.mod_eq_of_lt hlo]
      norm_num
    · have h1 : m / 2 ^ 52 = 1 := by omega
      have h2 : 2 ^ 52 + m % 2 ^ 52 = m := by omega
      rw [h1, if_neg (by omega), h2, Nat.max_eq_left (by omega)]
      congr 2
      push_cast
      ring
  · unfold isFinite
    rw [hexp]
    have : e + m / 2 ^ 52 ≠ 2047 := by omega
    simpa using this

/-- **Rounding is exact on representable values**: a number `m * 2 ^ k` with at most 53
    significant bits, not below the subnormal grid and below the overflow threshold. -/
theorem ofRat_exact (neg : Bool) {m : Nat} {k : Int} {q : ℚ} (hq : q = m * (2 : ℚ) ^ k)
    (hm : m < 2 ^ 53) (hk : -1074 ≤ k) (hlt : q < 2 ^ (1024 : Int)) :
    (ofRat neg q).mag = q ∧ (ofRat neg q).negative = neg ∧ (ofRat neg q).isFinite := by
  rcases Nat.eq_zero_or_pos m with h0 | hpos
  · -- zero: every field is zero
    subst h0
    have hq0 : q = 0 := by rw [hq]; simp
    subst hq0
    have hform : ofRat neg 0 =
        ⟨BitVec.ofNat 64 (if neg then 2 ^ 63 + (0 * 2 ^ 52 + 0) else 0 * 2 ^ 52 + 0)⟩ := by
      cases neg <;> decide +kernel
    rw [hform]
    have h := mag_of_fields neg (e := 0) (m := 0) (by decide) (by decide) (Or.inl rfl)
    simpa using h
  · have hqpos : 0 < q := by rw [hq]; positivity
    have hlogle : (2 : ℚ) ^ Int.log 2 q ≤ q := Int.zpow_log_le_self (by norm_num) hqpos
    have hloglt : q < (2 : ℚ) ^ (Int.log 2 q + 1) := Int.lt_zpow_succ_log_self (by norm_num) q
    obtain ⟨e, he⟩ : ∃ e : Nat, max (Int.log 2 q) (-1022) = (e : Int) - 1022 :=
      ⟨(max (Int.log 2 q) (-1022) + 1022).toNat, by omega⟩
    have hlog1023 : Int.log 2 q < 1024 := by
      by_contra hge
      have : (2 : ℚ) ^ (1024 : Int) ≤ q :=
        le_trans (zpow_le_zpow_right₀ (by norm_num) (by omega)) hlogle
      linarith
    have he2046 : e < 2046 := by omega
    -- the grid of `q` is at least the rounding grid, since `m` has at most 53 bits
    have hgrid : (e : Int) - 1074 ≤ k := by
      by_contra hcon
      have hnormal : Int.log 2 q = (e : Int) - 1022 := by omega
      have h1 : (2 : ℚ) ^ ((e : Int) - 1022) ≤ m * 2 ^ k := by rw [← hnormal, ← hq]; exact hlogle
      have h2 : (2 : ℚ) ^ (53 : Int) * 2 ^ k ≤ (2 : ℚ) ^ ((e : Int) - 1022) := by
        rw [← zpow_add₀ (by norm_num)]
        exact zpow_le_zpow_right₀ (by norm_num) (by omega)
      have h3 : (2 : ℚ) ^ (53 : Int) ≤ m := by
        have hpk : (0 : ℚ) < 2 ^ k := by positivity
        exact le_of_mul_le_mul_right (le_trans h2 h1) hpk
      have h4 : (m : ℚ) < 2 ^ (53 : Int) := by exact_mod_cast hm
      linarith
    obtain ⟨j, hj⟩ : ∃ j : Nat, k = (e : Int) - 1074 + j := ⟨(k - ((e : Int) - 1074)).toNat, by omega⟩
    have hquot : q / (2 : ℚ) ^ ((e : Int) - 1022 - 52) = ((m * 2 ^ j : Nat) : ℚ) := by
      rw [hq, hj, div_eq_iff (by positivity)]
      push_cast
      rw [mul_assoc, ← zpow_natCast, ← zpow_add₀ (by norm_num)]
      congr 2
      ring
    have hqm : q = ((m * 2 ^ j : Nat) : ℚ) * 2 ^ ((e : Int) - 1074) := by
      rw [← hquot, show (e : Int) - 1022 - 52 = (e : Int) - 1074 by ring, div_mul_cancel₀]
      positivity
    have hM : m * 2 ^ j < 2 ^ 53 := by
      have h1 : q < (2 : ℚ) ^ ((e : Int) - 1021) :=
        lt_of_lt_of_le hloglt (zpow_le_zpow_right₀ (by norm_num) (by omega))
      rw [hqm, show (e : Int) - 1021 = 53 + ((e : Int) - 1074) by ring,
        zpow_add₀ (by norm_num : (2 : ℚ) ≠ 0)] at h1
      have h2 := lt_of_mul_lt_mul_right h1 (by positivity)
      exact_mod_cast h2
    have hnormal : e = 0 ∨ 2 ^ 52 ≤ m * 2 ^ j := by
      rcases Nat.eq_zero_or_pos e with h | h
      · exact Or.inl h
      · right
        have hl : Int.log 2 q = (e : Int) - 1022 := by omega
        have h1 : (2 : ℚ) ^ ((e : Int) - 1022) ≤ q := by rw [← hl]; exact hlogle
        rw [hqm, show (e : Int) - 1022 = 52 + ((e : Int) - 1074) by ring,
          zpow_add₀ (by norm_num : (2 : ℚ) ≠ 0)] at h1
        have h2 := le_of_mul_le_mul_right h1 (by positivity)
        exact_mod_cast h2
    have hform : ofRat neg q = ⟨BitVec.ofNat 64
        (if neg then 2 ^ 63 + (e * 2 ^ 52 + m * 2 ^ j) else e * 2 ^ 52 + m * 2 ^ j)⟩ := by
      unfold ofRat
      simp only [if_neg hqpos.ne', he, hquot, roundEven_natCast]
      have hnat : ((e : Int) - 1022 + 1022).toNat = e := by omega
      have hmin : min (e * 2 ^ 52 + m * 2 ^ j) infinityBits = e * 2 ^ 52 + m * 2 ^ j := by
        unfold infinityBits
        omega
      rw [hnat, hmin]
    have h := mag_of_fields neg he2046 hM hnormal
    rw [hform]
    refine ⟨?_, h.2⟩
    rw [hqm]
    exact h.1

/-- **An integer converts exactly** if it has at most 53 significant bits on a grid of the format. -/
theorem ofInt_exact {z : Int} {m : Nat} {k : Int} (hz : |(z : ℚ)| = m * (2 : ℚ) ^ k)
    (hm : m < 2 ^ 53) (hk : -1074 ≤ k) (hlt : |(z : ℚ)| < 2 ^ (1024 : Int)) :
    (ofInt z).isFinite ∧ (ofInt z).toRat = z := by
  obtain ⟨hmag, hneg, hfin⟩ := ofRat_exact (decide (z < 0)) hz hm hk hlt
  refine ⟨hfin, ?_⟩
  unfold toRat ofInt
  rw [hmag, hneg]
  rcases lt_or_ge z 0 with h | h
  · rw [decide_eq_true h, if_pos rfl, abs_of_neg (by exact_mod_cast h), neg_neg]
  · rw [decide_eq_false (by omega), if_neg (by simp), abs_of_nonneg (by exact_mod_cast h)]

/-- Truncation of a finite double converts back without rounding. -/
theorem ofInt_trunc {d : Binary64} (hf : d.isFinite) :
    (ofInt d.trunc).isFinite ∧ (ofInt d.trunc).toRat = d.trunc := by
  have habs : |((d.trunc : Int) : ℚ)| = (⌊d.mag⌋ : ℚ) := by
    have h0 : (0 : ℚ) ≤ (⌊d.mag⌋ : ℚ) := by exact_mod_cast Int.floor_nonneg.mpr d.mag_nonneg
    unfold trunc
    split
    · push_cast
      rw [abs_neg, abs_of_nonneg h0]
    · rw [abs_of_nonneg h0]
  -- the integer part again has at most 53 significant bits on a grid the format has
  obtain ⟨m, k, hmk, hm, hk⟩ : ∃ (m : Nat) (k : Int),
      (⌊d.mag⌋ : ℚ) = m * (2 : ℚ) ^ k ∧ m < 2 ^ 53 ∧ -1074 ≤ k := by
    rcases lt_or_ge d.scale 0 with hs | hs
    · refine ⟨⌊d.mag⌋.toNat, 0, ?_, ?_, by norm_num⟩
      · have h0 : 0 ≤ ⌊d.mag⌋ := Int.floor_nonneg.mpr d.mag_nonneg
        rw [zpow_zero, mul_one]
        exact_mod_cast (Int.toNat_of_nonneg h0).symm
      · have h1 : d.mag < 2 ^ 53 := by
          have hsig : (d.significand : ℚ) < 2 ^ 53 := by exact_mod_cast d.significand_lt
          have hle : (2 : ℚ) ^ d.scale ≤ 1 := zpow_le_one_of_nonpos₀ (by norm_num) (by omega)
          calc d.mag ≤ (d.significand : ℚ) * 1 := by unfold mag; gcongr
            _ < 2 ^ 53 := by linarith
        have h2 : ⌊d.mag⌋ < 2 ^ 53 := Int.floor_lt.mpr (by exact_mod_cast h1)
        omega
    · refine ⟨d.significand, d.scale, ?_, d.significand_lt, le_trans (by norm_num) hs⟩
      obtain ⟨n, hn⟩ : ∃ n : Nat, d.scale = n := ⟨d.scale.toNat, by omega⟩
      have hint : d.mag = ((d.significand * 2 ^ n : Nat) : ℚ) := by
        unfold mag
        rw [hn]
        push_cast
        rw [zpow_natCast]
      rw [hint, Int.floor_natCast, hn]
      push_cast
      rw [zpow_natCast]
  have hlt : (⌊d.mag⌋ : ℚ) < 2 ^ (1024 : Int) :=
    lt_of_le_of_lt (Int.floor_le _) (mag_lt hf)
  exact ofInt_exact (by rw [habs, hmk]) hm hk (by rw [habs]; exact hlt)

/-- Powers of two below the overflow threshold convert exactly, with either sign. -/
theorem ofInt_two_pow {n : Nat} (hn : n < 1024) :
    ((ofInt (2 ^ n)).isFinite ∧ (ofInt (2 ^ n)).toRat = 2 ^ n) ∧
      (ofInt (-2 ^ n)).isFinite ∧ (ofInt (-2 ^ n)).toRat = -2 ^ n := by
  have habs : |(((2 ^ n : Int)) : ℚ)| = ((1 : Nat) : ℚ) * (2 : ℚ) ^ (n : Int) := by
    push_cast
    rw [abs_of_pos (by positivity), one_mul, zpow_natCast]
  have hlt : |(((2 ^ n : Int)) : ℚ)| < 2 ^ (1024 : Int) := by
    rw [habs, Nat.cast_one, one_mul]
    exact zpow_lt_zpow_right₀ (by norm_num) (by omega)
  have hpos := ofInt_exact habs (by norm_num) (by omega) hlt
  have hneg := ofInt_exact (z := -2 ^ n) (by rw [Int.cast_neg, abs_neg]; exact habs) (by norm_num)
    (by omega) (by rw [Int.cast_neg, abs_neg]; exact hlt)
  push_cast at hpos hneg
  exact ⟨hpos, hneg⟩

/-! ## Comparing with integers -/

theorem ext_of_isFinite {d : Binary64} (h : d.isFinite = true) :
    d.ext = some ((d.toRat : WithTop ℚ) : WithBot (WithTop ℚ)) := if_pos h

/-- Only a NaN has no place on the line. -/
theorem ext_eq_none_iff {d : Binary64} : d.ext = none ↔ d.isNaN = true := by
  unfold ext isNaN isFinite
  cases hexp : d.exponent == 2047 <;> by_cases hf : d.fraction = 0 <;>
    cases d.negative <;> simp_all

/-- A double that is not finite and not a NaN is beyond every number. -/
theorem ext_of_not_isFinite {d : Binary64} (hf : d.isFinite = false) (hn : d.isNaN = false) :
    d.ext = some ⊥ ∨ d.ext = some ((⊤ : WithTop ℚ) : WithBot (WithTop ℚ)) := by
  have hfrac : d.fraction = 0 := by
    unfold isNaN isFinite at *
    simp_all
  unfold ext
  rw [hf, if_neg (by simp), if_neg (by simp [hfrac])]
  cases d.negative with
  | true => exact Or.inl rfl
  | false => exact Or.inr rfl

/-- **Truncation does not jump over an integer**: an integer other than the truncated value lies
    below the double exactly if it lies below the truncated value. -/
theorem lt_toRat_iff {d : Binary64} {n : Int} (h : n ≠ d.trunc) : (n : ℚ) < d.toRat ↔ n < d.trunc := by
  unfold trunc at *
  unfold toRat
  cases hneg : d.negative with
  | false =>
    rw [hneg] at h
    simp only [Bool.false_eq_true, if_false] at *
    constructor
    · intro hlt
      exact lt_of_le_of_ne (Int.le_floor.mpr hlt.le) h
    · intro hlt
      exact lt_of_lt_of_le (by exact_mod_cast hlt) (Int.floor_le d.mag)
  | true =>
    rw [hneg] at h
    simp only [if_true] at *
    constructor
    · intro hlt
      have hlt' : d.mag < ((-n : Int) : ℚ) := by
        push_cast
        linarith
      have := Int.floor_lt.mpr hlt'
      omega
    · intro hlt
      have hle : ⌊d.mag⌋ + 1 ≤ -n := by omega
      have hcast : ((⌊d.mag⌋ : ℚ) + 1) ≤ -n := by exact_mod_cast hle
      linarith [Int.lt_floor_add_one d.mag]

/-- A double that is an integer truncates to it. -/
theorem trunc_of_toRat {d : Binary64} {n : Int} (h : d.toRat = n) : d.trunc = n := by
  unfold trunc
  unfold toRat at h
  cases hneg : d.negative with
  | false =>
    rw [hneg, if_neg (by simp)] at h
    rw [if_neg (by simp), h, Int.floor_intCast]
  | true =>
    rw [hneg, if_pos rfl] at h
    have hmag : d.mag = ((-n : Int) : ℚ) := by
      rw [Int.cast_neg, ← h, neg_neg]
    rw [if_pos rfl, hmag, Int.floor_intCast, neg_neg]

/-- The same from above. -/
theorem toRat_lt_iff {d : Binary64} {n : Int} (h : n ≠ d.trunc) :
    d.toRat < (n : ℚ) ↔ d.trunc < n := by
  have hne : d.toRat ≠ n := fun he => h (trunc_of_toRat he).symm
  have hbelow := not_congr (lt_toRat_iff h)
  rw [not_lt, not_lt] at hbelow
  constructor
  · intro hlt
    exact lt_of_le_of_ne (hbelow.mp hlt.le) h.symm
  · intro hlt
    exact lt_of_le_of_ne (hbelow.mpr hlt.le) hne

/-- Truncation stays below a positive integer that the double is below. -/
theorem trunc_lt {d : Binary64} {n : Int} (hn : 0 < n) (h : d.toRat < n) : d.trunc < n := by
  unfold trunc
  unfold toRat at h
  cases hneg : d.negative with
  | false =>
    rw [hneg, if_neg (by simp)] at h
    rw [if_neg (by simp)]
    exact Int.floor_lt.mpr h
  | true =>
    rw [if_pos rfl]
    have := Int.floor_nonneg.mpr d.mag_nonneg
    omega

/-- Truncation stays above an integer that the double is not below. -/
theorem le_trunc {d : Binary64} {n : Int} (h : (n : ℚ) ≤ d.toRat) : n ≤ d.trunc := by
  by_contra hlt
  exact absurd ((toRat_lt_iff fun he => hlt he.le).mpr (not_le.mp hlt)) h.not_gt

/-- A double within the bounds of an integer type converts to it. -/
theorem castTo_of_mem {d : Binary64} {lowest beyond : Int} (hf : d.isFinite = true)
    (hpos : 0 < beyond) (hlo : (lowest : ℚ) ≤ d.toRat) (hhi : d.toRat < beyond) :
    castTo lowest beyond d = some d.trunc :=
  if_pos ⟨hf, le_trunc hlo, trunc_lt hpos hhi⟩

/-! ## When rounding leaves the finite range -/

theorem roundEven_le (q : ℚ) : roundEven q ≤ ⌊q⌋.toNat + 1 := by
  unfold roundEven
  dsimp only
  split_ifs <;> omega

theorem le_roundEven (q : ℚ) : ⌊q⌋.toNat ≤ roundEven q := by
  unfold roundEven
  dsimp only
  split_ifs <;> omega

/-- The fields of a rounded value, before the sign goes on. -/
theorem ofRat_isFinite_iff (neg : Bool) (q : ℚ) : (ofRat neg q).isFinite = true ↔
    (max (if q = 0 then (-1022 : Int) else Int.log 2 q) (-1022) + 1022).toNat * 2 ^ 52 +
      roundEven (q / (2 : ℚ) ^ (max (if q = 0 then (-1022 : Int) else Int.log 2 q) (-1022) - 52)) <
        infinityBits := by
  have he : (if q = 0 then (-1022 : Int) else max (Int.log 2 q) (-1022)) =
      max (if q = 0 then (-1022 : Int) else Int.log 2 q) (-1022) := by
    split_ifs <;> simp
  unfold ofRat
  dsimp only
  rw [he]
  generalize (max (if q = 0 then (-1022 : Int) else Int.log 2 q) (-1022) + 1022).toNat * 2 ^ 52 +
    roundEven _ = body
  have hinf : infinityBits = 2047 * 2 ^ 52 := rfl
  have hbits : (⟨BitVec.ofNat 64 (if neg then 2 ^ 63 + min body infinityBits
      else min body infinityBits)⟩ : Binary64).exponent = min body infinityBits / 2 ^ 52 := by
    unfold exponent
    rw [BitVec.toNat_ofNat]
    cases neg <;> simp only [if_true, if_false, Bool.false_eq_true] <;> omega
  unfold isFinite
  rw [hbits, bne_iff_ne, Ne]
  omega

/-- A value below one rounds to a finite double. -/
theorem ofRat_isFinite_of_lt_one (neg : Bool) {q : ℚ} (h0 : 0 ≤ q) (h1 : q < 1) :
    (ofRat neg q).isFinite = true := by
  rw [ofRat_isFinite_iff]
  generalize he : max (if q = 0 then (-1022 : Int) else Int.log 2 q) (-1022) = e
  have hlt : q < (2 : ℚ) ^ (e + 1) := by
    rcases eq_or_lt_of_le h0 with hz | hpos
    · rw [← hz]; positivity
    · rw [if_neg hpos.ne'] at he
      have hlog : q < (2 : ℚ) ^ (Int.log 2 q + 1) := Int.lt_zpow_succ_log_self (by norm_num) q
      exact lt_of_lt_of_le hlog (zpow_le_zpow_right₀ (by norm_num) (by omega))
  have hneg : e ≤ -1 := by
    rcases eq_or_lt_of_le h0 with hz | hpos
    · rw [if_pos hz.symm] at he; omega
    · have hle : (2 : ℚ) ^ Int.log 2 q ≤ q := Int.zpow_log_le_self (by norm_num) hpos
      have hlog : Int.log 2 q < 0 := by
        by_contra hge
        have : (2 : ℚ) ^ (0 : Int) ≤ q :=
          le_trans (zpow_le_zpow_right₀ (by norm_num) (by omega)) hle
        norm_num at this
        linarith
      rw [if_neg hpos.ne'] at he
      omega
  have hquot : q / (2 : ℚ) ^ (e - 52) < 2 ^ 53 := by
    rw [div_lt_iff₀ (by positivity), ← zpow_natCast, ← zpow_add₀ (by norm_num)]
    calc q < (2 : ℚ) ^ (e + 1) := hlt
      _ = _ := by congr 1; push_cast; ring
  have hfloor : ⌊q / (2 : ℚ) ^ (e - 52)⌋ < 2 ^ 53 := Int.floor_lt.mpr (by exact_mod_cast hquot)
  have hround := roundEven_le (q / (2 : ℚ) ^ (e - 52))
  unfold infinityBits
  omega

/-- A value from `2 ^ 1024` on overflows. -/
theorem ofRat_overflow (neg : Bool) {q : ℚ} (h : 2 ^ (1024 : Int) ≤ q) :
    (ofRat neg q).isFinite = false := by
  have hpos : 0 < q := lt_of_lt_of_le (by positivity) h
  rw [← Bool.not_eq_true, ofRat_isFinite_iff, if_neg hpos.ne', not_lt]
  have hlog : 1024 ≤ Int.log 2 q := by
    rw [← Int.zpow_le_iff_le_log (by norm_num) hpos]
    exact_mod_cast h
  have hmax : max (Int.log 2 q) (-1022) = Int.log 2 q := by omega
  rw [hmax]
  have hquot : (2 : ℚ) ^ 52 ≤ q / (2 : ℚ) ^ (Int.log 2 q - 52) := by
    rw [le_div_iff₀ (by positivity), ← zpow_natCast, ← zpow_add₀ (by norm_num)]
    calc (2 : ℚ) ^ (((52 : Nat) : Int) + (Int.log 2 q - 52)) = 2 ^ Int.log 2 q := by
          congr 1; push_cast; ring
      _ ≤ q := Int.zpow_log_le_self (by norm_num) hpos
  have hfloor : 2 ^ 52 ≤ ⌊q / (2 : ℚ) ^ (Int.log 2 q - 52)⌋ :=
    Int.le_floor.mpr (by exact_mod_cast hquot)
  have hround := le_roundEven (q / (2 : ℚ) ^ (Int.log 2 q - 52))
  unfold infinityBits
  omega

/-- A pattern between one half and the infinity is a positive number or the infinity. -/
theorem exists_ext_pos_of_bits {body : Nat} (hlo : 2 ^ 52 ≤ body) (hhi : body ≤ infinityBits) :
    ∃ x, ext ⟨BitVec.ofNat 64 body⟩ = some x ∧ 0 < x := by
  have hinf : infinityBits = 2047 * 2 ^ 52 := rfl
  have hbits : (BitVec.ofNat 64 body).toNat = body := by
    rw [BitVec.toNat_ofNat, Nat.mod_eq_of_lt (by omega)]
  have hneg : negative ⟨BitVec.ofNat 64 body⟩ = false := by
    unfold negative
    rw [BitVec.getMsbD_eq_getLsbD, BitVec.getLsbD, hbits, Nat.testBit_lt_two_pow (by omega)]
    decide
  have hexp : exponent ⟨BitVec.ofNat 64 body⟩ = body / 2 ^ 52 := by
    unfold exponent
    rw [hbits]
    omega
  unfold ext
  by_cases hfin : isFinite ⟨BitVec.ofNat 64 body⟩ = true
  · refine ⟨_, if_pos hfin, ?_⟩
    have hpos : (0 : ℚ) < toRat ⟨BitVec.ofNat 64 body⟩ := by
      unfold toRat mag significand
      rw [hneg, if_neg (by simp), if_neg (by rw [hexp]; omega)]
      positivity
    exact_mod_cast hpos
  · have hfrac : fraction ⟨BitVec.ofNat 64 body⟩ = 0 := by
      have h2047 : body / 2 ^ 52 = 2047 := by
        unfold isFinite at hfin
        rw [hexp] at hfin
        simpa using hfin
      unfold fraction
      rw [hbits]
      omega
    rw [if_neg hfin, if_neg (by rw [hfrac]; simp), hneg, if_neg (by simp)]
    exact ⟨_, rfl, WithBot.coe_lt_coe.mpr (WithTop.coe_lt_top 0)⟩

/-- A number of one or more does not round to anything below or at zero. -/
theorem exists_ext_pos {q : ℚ} (h : 1 ≤ q) : ∃ x, (ofRat false q).ext = some x ∧ 0 < x := by
  have hpos : 0 < q := by linarith
  have hlog : 0 ≤ Int.log 2 q := by
    rw [← Int.zpow_le_iff_le_log (by norm_num) hpos]
    simpa using h
  have hinf : infinityBits = 2047 * 2 ^ 52 := rfl
  unfold ofRat
  dsimp only
  rw [if_neg hpos.ne', if_neg (by simp)]
  refine exists_ext_pos_of_bits (le_min ?_ (by omega)) (min_le_right _ _)
  have hfield : 1022 ≤ (max (Int.log 2 q) (-1022) + 1022).toNat := by omega
  exact (Nat.le_mul_of_pos_left _ (by omega)).trans (Nat.le_add_right _ _)

theorem maxFinite_fields : maxFinite.isFinite = true ∧ maxFinite.isZero = false ∧
    maxFinite.neg.isFinite = true ∧ maxFinite.neg.isZero = false := by
  decide

end Binary64
