/-
  Divisibility of decimals, decided without computing a power of ten.

  `strip p k n` divides `n` by `p` at most `k` times.  Stripping a prime from a divisor is as good
  as multiplying the dividend by its powers (`strip_dvd_iff`), and stripping from a number to the
  end says that the power divides it (`strip_snd_eq_zero_iff`).  `exists_multiple_iff` reduces "is an
  integer multiple of", for two numbers of the form `c * 10 ^ e`, to these two questions.
-/
import Mathlib

namespace Scale

/-- `while (k > 0 && n % p == 0) { n /= p; --k; }`: what is left of `n` and of `k`. -/
def strip (p : Nat) : Nat → Nat → Nat × Nat
  | 0, n => (n, 0)
  | k + 1, n => if n % p = 0 then strip p k (n / p) else (n, k + 1)

/-- **A prime stripped from the divisor** is one the dividend need not supply. -/
theorem strip_dvd_iff {p : Nat} (hp : p.Prime) {k n v : Nat} :
    (strip p k n).1 ∣ v ↔ n ∣ v * p ^ k := by
  induction k generalizing n with
  | zero => rw [strip, pow_zero, mul_one]
  | succ k ih =>
    rw [strip]
    by_cases h : n % p = 0
    · obtain ⟨m, rfl⟩ := Nat.dvd_of_mod_eq_zero h
      rw [if_pos h, Nat.mul_div_cancel_left m hp.pos, ih, pow_succ']
      rw [show v * (p * p ^ k) = p * (v * p ^ k) by ring]
      exact (Nat.mul_dvd_mul_iff_left hp.pos).symm
    · have hcoprime : n.Coprime (p ^ (k + 1)) :=
        (Nat.Coprime.pow_left _ ((hp.coprime_iff_not_dvd).mpr fun hd =>
          h (Nat.mod_eq_zero_of_dvd hd))).symm
      rw [if_neg h]
      exact hcoprime.dvd_mul_right.symm

/-- **Stripping to the end** takes the whole power out. -/
theorem strip_snd_eq_zero_iff {p : Nat} (hp : 0 < p) {k n : Nat} :
    (strip p k n).2 = 0 ↔ p ^ k ∣ n := by
  induction k generalizing n with
  | zero => simp [strip]
  | succ k ih =>
    rw [strip]
    by_cases h : n % p = 0
    · obtain ⟨m, rfl⟩ := Nat.dvd_of_mod_eq_zero h
      rw [if_pos h, Nat.mul_div_cancel_left m hp, ih, pow_succ']
      exact (Nat.mul_dvd_mul_iff_left hp).symm
    · rw [if_neg h]
      refine iff_of_false (Nat.succ_ne_zero k) fun hd => h ?_
      exact Nat.mod_eq_zero_of_dvd ((dvd_pow_self p (Nat.succ_ne_zero k)).trans hd)

/-- A number and its absolute value have the same integer multiples among the reals of either sign. -/
theorem exists_multiple_abs {x y : ℚ} :
    (∃ n : ℤ, x = n * y) ↔ ∃ n : ℤ, |x| = n * |y| := by
  have hsign : ∀ z : ℚ, ∃ s : ℤ, (s = 1 ∨ s = -1) ∧ |z| = s * z ∧ z = s * |z| := by
    intro z
    rcases abs_choice z with h | h
    · exact ⟨1, Or.inl rfl, by simp [h], by simp [h]⟩
    · exact ⟨-1, Or.inr rfl, by simp [h], by simp [h]⟩
  obtain ⟨s, -, hx, hx'⟩ := hsign x
  obtain ⟨r, -, hy, hy'⟩ := hsign y
  constructor
  · rintro ⟨n, hn⟩
    refine ⟨s * n * r, ?_⟩
    rw [hx, hn]
    nth_rewrite 1 [hy']
    push_cast
    ring
  · rintro ⟨n, hn⟩
    refine ⟨s * n * r, ?_⟩
    rw [hx', hn, hy]
    push_cast
    ring

/-- A natural number is an integer multiple of another if that one divides it. -/
theorem exists_multiple_nat {a b : Nat} : (∃ n : ℤ, (a : ℚ) = n * b) ↔ b ∣ a := by
  constructor
  · rintro ⟨n, hn⟩
    have hint : (a : ℤ) = n * b := by exact_mod_cast hn
    exact Int.natCast_dvd_natCast.mp ⟨n, by rw [hint, mul_comm]⟩
  · rintro ⟨m, rfl⟩
    exact ⟨m, by push_cast; ring⟩

/-- **Multiples of decimals.**  The gap between the exponents goes to the dividend or to the divisor,
    by its sign. -/
theorem exists_multiple_iff {a b : Nat} {e f : ℤ} :
    (∃ n : ℤ, (a : ℚ) * 10 ^ e = n * (b * 10 ^ f)) ↔
      if 0 ≤ e - f then b ∣ a * 10 ^ (e - f).toNat else b * 10 ^ (f - e).toNat ∣ a := by
  have hne : ∀ k : ℤ, (10 : ℚ) ^ k ≠ 0 := fun k => zpow_ne_zero k (by norm_num)
  have hpow : ∀ {k : ℤ}, 0 ≤ k → (10 : ℚ) ^ k = ((10 ^ k.toNat : Nat) : ℚ) := by
    intro k hk
    push_cast
    rw [← zpow_natCast, Int.toNat_of_nonneg hk]
  split_ifs with h
  · rw [← exists_multiple_nat]
    refine exists_congr fun n => ?_
    rw [Nat.cast_mul, ← hpow h, zpow_sub₀ (by norm_num)]
    constructor
    · intro hn
      rw [mul_div_assoc', hn]
      have := hne f
      field_simp
    · intro hn
      rw [mul_div_assoc', div_eq_iff (hne f)] at hn
      rw [hn]
      ring
  · rw [← exists_multiple_nat]
    refine exists_congr fun n => ?_
    rw [Nat.cast_mul, ← hpow (by omega), zpow_sub₀ (by norm_num)]
    constructor
    · intro hn
      have := hne e
      field_simp
      linarith
    · intro hn
      rw [hn]
      have := hne e
      field_simp

end Scale
