/-
  Decimal digit strings: the number a string of ASCII digits denotes, the order of magnitude of
  that number read off the place of its first nonzero digit, and the canonical numeral of a
  natural number.

  `value` is the left fold a scanner computes.  The bounds in `value_bounds` are what a program
  relies on when it judges the size of a decimal number from its exponent and from the position
  of its leading digit, without computing it.
-/
import Mathlib

namespace Decimal

/-- An ASCII digit. -/
def IsDigit (b : UInt8) : Prop := 0x30 ≤ b ∧ b ≤ 0x39

instance (b : UInt8) : Decidable (IsDigit b) := inferInstanceAs (Decidable (_ ∧ _))

/-- A string of digits only. -/
def AllDigits (ds : List UInt8) : Prop := ∀ d ∈ ds, IsDigit d

instance (ds : List UInt8) : Decidable (AllDigits ds) :=
  inferInstanceAs (Decidable (∀ d ∈ ds, IsDigit d))

/-- What a digit counts for. -/
def digitVal (b : UInt8) : Nat := b.toNat - 48

/-- The number a string of digits denotes. -/
def value (ds : List UInt8) : Nat := ds.foldl (fun v d => v * 10 + digitVal d) 0

/-- The digit for a number below ten. -/
def digit (n : Nat) : UInt8 := UInt8.ofNat (48 + n)

/-- The canonical numeral: no leading zero but in `0` itself. -/
def numeral (n : Nat) : List UInt8 :=
  if n = 0 then [0x30] else (Nat.digits 10 n).reverse.map digit

/-! ## Digits -/

/-- The codes of the digits. -/
theorem isDigit_iff {b : UInt8} : IsDigit b ↔ 48 ≤ b.toNat ∧ b.toNat ≤ 57 := by
  unfold IsDigit
  rw [UInt8.le_iff_toNat_le, UInt8.le_iff_toNat_le]
  rfl

/-- A digit is not another byte. -/
theorem IsDigit.ne {b c : UInt8} (hb : IsDigit b) (hc : ¬ IsDigit c) : b ≠ c := fun heq => hc (heq ▸ hb)

/-- A digit is below ten. -/
theorem digitVal_lt {b : UInt8} (h : IsDigit b) : digitVal b < 10 := by
  have := isDigit_iff.mp h
  unfold digitVal
  omega

/-- Only one of them is zero. -/
theorem digitVal_eq_zero {b : UInt8} (h : IsDigit b) : digitVal b = 0 ↔ b = 0x30 := by
  have hb := isDigit_iff.mp h
  unfold digitVal
  rw [← UInt8.toNat_inj, show (0x30 : UInt8).toNat = 48 from rfl]
  omega

/-- The digit of a number has its value. -/
theorem digitVal_digit {n : Nat} (h : n < 10) : digitVal (digit n) = n := by
  unfold digitVal digit
  rw [UInt8.toNat_ofNat']
  omega

/-- And is a digit. -/
theorem isDigit_digit {n : Nat} (h : n < 10) : IsDigit (digit n) := by
  rw [isDigit_iff]
  unfold digit
  rw [UInt8.toNat_ofNat']
  omega

theorem allDigits_nil : AllDigits [] := by simp [AllDigits]

theorem allDigits_cons {d : UInt8} {ds : List UInt8} :
    AllDigits (d :: ds) ↔ IsDigit d ∧ AllDigits ds := by simp [AllDigits]

theorem allDigits_append {xs ys : List UInt8} :
    AllDigits (xs ++ ys) ↔ AllDigits xs ∧ AllDigits ys := by
  simp only [AllDigits, List.mem_append]
  exact ⟨fun h => ⟨fun d hd => h d (Or.inl hd), fun d hd => h d (Or.inr hd)⟩,
    fun h d hd => hd.elim (h.1 d) (h.2 d)⟩

theorem allDigits_replicate (n : Nat) : AllDigits (List.replicate n 0x30) := by
  intro d hd
  rw [List.eq_of_mem_replicate hd]
  decide

/-- Digits in front of something that is no digit are what a scan for digits takes. -/
theorem takeWhile_digits {ds out : List UInt8} (h : AllDigits ds)
    (hout : ∀ b, out.head? = some b → ¬ IsDigit b) :
    (ds ++ out).takeWhile (fun b => decide (IsDigit b)) = ds ∧
      (ds ++ out).dropWhile (fun b => decide (IsDigit b)) = out := by
  induction ds with
  | nil =>
    cases out with
    | nil => simp
    | cons b r => simp [hout b rfl]
  | cons d ds ih =>
    obtain ⟨hd, hds⟩ := allDigits_cons.mp h
    simp [hd, ih hds]

/-- What a scan for digits takes is digits. -/
theorem allDigits_takeWhile (s : List UInt8) :
    AllDigits (s.takeWhile (fun b => decide (IsDigit b))) := by
  intro d hd
  simpa using List.mem_takeWhile_imp hd

/-! ## The value of a string of digits -/

/-- Reading on from a value shifts it by the digits read. -/
theorem value_foldl (ds : List UInt8) : ∀ v,
    ds.foldl (fun v d => v * 10 + digitVal d) v = v * 10 ^ ds.length + value ds := by
  unfold value
  induction ds with
  | nil => simp
  | cons d ds ih =>
    intro v
    rw [List.foldl_cons, List.foldl_cons, ih, ih (0 * 10 + digitVal d), List.length_cons, pow_succ]
    ring

@[simp] theorem value_nil : value [] = 0 := rfl

/-- The value of a string in two pieces. -/
theorem value_append (xs ys : List UInt8) :
    value (xs ++ ys) = value xs * 10 ^ ys.length + value ys := by
  rw [value, List.foldl_append, value_foldl]
  rfl

/-- The leading digit counts most. -/
theorem value_cons (d : UInt8) (ds : List UInt8) :
    value (d :: ds) = digitVal d * 10 ^ ds.length + value ds := by
  rw [show d :: ds = [d] ++ ds from rfl, value_append]
  simp [value]

/-- Zeros are worth nothing. -/
theorem value_replicate_zero (n : Nat) : value (List.replicate n 0x30) = 0 := by
  induction n with
  | zero => rfl
  | succ n ih => rw [List.replicate_succ, value_cons, ih]; simp [digitVal]

/-- So many digits stay below that power of ten. -/
theorem value_lt {ds : List UInt8} (h : AllDigits ds) : value ds < 10 ^ ds.length := by
  induction ds with
  | nil => simp
  | cons d ds ih =>
    obtain ⟨hd, hds⟩ := allDigits_cons.mp h
    have h1 := digitVal_lt hd
    have h2 := ih hds
    rw [value_cons, List.length_cons, pow_succ]
    calc digitVal d * 10 ^ ds.length + value ds
        < digitVal d * 10 ^ ds.length + 10 ^ ds.length := by omega
      _ = (digitVal d + 1) * 10 ^ ds.length := by ring
      _ ≤ 10 * 10 ^ ds.length := Nat.mul_le_mul_right _ h1
      _ = 10 ^ ds.length * 10 := by ring

/-- A string that starts with a nonzero digit has the magnitude of its length. -/
theorem le_value {d : UInt8} {ds : List UInt8} (hd : IsDigit d) (hne : d ≠ 0x30) :
    10 ^ ds.length ≤ value (d :: ds) := by
  have h1 : 1 ≤ digitVal d := Nat.one_le_iff_ne_zero.mpr (fun h => hne ((digitVal_eq_zero hd).mp h))
  rw [value_cons]
  calc 10 ^ ds.length = 1 * 10 ^ ds.length := (one_mul _).symm
    _ ≤ digitVal d * 10 ^ ds.length := Nat.mul_le_mul_right _ h1
    _ ≤ digitVal d * 10 ^ ds.length + value ds := Nat.le_add_right _ _

/-- **Order of magnitude**: with its first nonzero digit at place `k`, a string of `n` digits is
    in `[10 ^ (n - k - 1), 10 ^ (n - k))`. -/
theorem value_bounds {ds : List UInt8} (h : AllDigits ds) {k : Nat}
    (hk : ds.findIdx? (fun d => d != 0x30) = some k) :
    k < ds.length ∧ 10 ^ (ds.length - k - 1) ≤ value ds ∧ value ds < 10 ^ (ds.length - k) := by
  induction ds generalizing k with
  | nil => simp at hk
  | cons d ds ih =>
    obtain ⟨hd, hds⟩ := allDigits_cons.mp h
    by_cases h0 : d = 0x30
    · -- a leading zero changes neither the value nor the distance to the end
      subst h0
      rw [List.findIdx?_cons] at hk
      simp only [bne_self_eq_false, Bool.false_eq_true, if_false, Option.map_eq_some_iff] at hk
      obtain ⟨j, hj, rfl⟩ := hk
      obtain ⟨h1, h2, h3⟩ := ih hds hj
      have hv : value (0x30 :: ds) = value ds := by rw [value_cons]; simp [digitVal]
      rw [hv, List.length_cons, show ds.length + 1 - (j + 1) = ds.length - j by omega]
      exact ⟨by omega, h2, h3⟩
    · have hk0 : k = 0 := by
        rw [List.findIdx?_cons] at hk
        simpa [h0] using hk.symm
      subst hk0
      exact ⟨by simp, le_value hd h0, value_lt h⟩

/-- All digits zero: the value is zero, and only then. -/
theorem value_eq_zero_iff {ds : List UInt8} (h : AllDigits ds) :
    value ds = 0 ↔ ds.findIdx? (fun d => d != 0x30) = none := by
  constructor
  · intro h0
    cases hk : ds.findIdx? (fun d => d != 0x30) with
    | none => rfl
    | some k =>
      have hlow := (value_bounds h hk).2.1
      have : 0 < 10 ^ (ds.length - k - 1) := by positivity
      omega
  · intro hn
    have hall : ds = List.replicate ds.length 0x30 := by
      rw [List.eq_replicate_iff]
      refine ⟨rfl, fun b hb => ?_⟩
      have := List.findIdx?_eq_none_iff.mp hn b hb
      simpa using this
    rw [hall, value_replicate_zero]

/-! ## Numerals -/

/-- A numeral is written in digits. -/
theorem numeral_allDigits (n : Nat) : AllDigits (numeral n) := by
  unfold numeral
  split_ifs with h
  · intro d hd
    rw [List.mem_singleton.mp hd]
    decide
  · intro d hd
    obtain ⟨m, hm, rfl⟩ := List.mem_map.mp hd
    exact isDigit_digit (Nat.digits_lt_base (by norm_num) (List.mem_reverse.mp hm))

/-- The digits of a number, written from the leading one. -/
theorem value_map_digit {ds : List Nat} (h : ∀ d ∈ ds, d < 10) :
    value (ds.reverse.map digit) = Nat.ofDigits 10 ds := by
  induction ds with
  | nil => rfl
  | cons d ds ih =>
    have hd := h d (List.mem_cons_self ..)
    have hds := ih fun e he => h e (List.mem_cons_of_mem _ he)
    rw [List.reverse_cons, List.map_append, value_append, hds, Nat.ofDigits_cons]
    simp [value, digitVal_digit hd]
    ring

/-- **A numeral has the value of its number.** -/
theorem value_numeral (n : Nat) : value (numeral n) = n := by
  unfold numeral
  split_ifs with h
  · rw [h]; rfl
  · rw [value_map_digit fun d hd => Nat.digits_lt_base (by norm_num) hd, Nat.ofDigits_digits]

/-- A numeral is `0` or starts with a nonzero digit. -/
theorem numeral_shape (n : Nat) : numeral n = [0x30] ∨
    ∃ d ds, numeral n = d :: ds ∧ d ≠ 0x30 := by
  unfold numeral
  split_ifs with h
  · exact Or.inl rfl
  · right
    have hne : Nat.digits 10 n ≠ [] := Nat.digits_ne_nil_iff_ne_zero.mpr h
    have hlast := Nat.getLast_digit_ne_zero 10 h
    have hlt := Nat.digits_lt_base (b := 10) (m := n) (by norm_num) (List.getLast_mem hne)
    rcases List.eq_nil_or_concat (Nat.digits 10 n) with hnil | ⟨l, d, hcat⟩
    · exact absurd hnil hne
    · have hd : (Nat.digits 10 n).getLast hne = d := by simp [hcat]
      rw [hd] at hlast hlt
      refine ⟨digit d, l.reverse.map digit, by simp [hcat], fun h0 => hlast ?_⟩
      have := digitVal_digit hlt
      rw [h0] at this
      simpa [digitVal] using this.symm

/-- Zero has a digit too. -/
theorem numeral_ne_nil (n : Nat) : numeral n ≠ [] := by
  rcases numeral_shape n with h | ⟨d, ds, h, -⟩ <;> simp [h]

/-- A number below a power of ten has no more digits than that. -/
theorem length_numeral_le {n k : Nat} (hk : 0 < k) (h : n < 10 ^ k) : (numeral n).length ≤ k := by
  unfold numeral
  split_ifs
  · exact hk
  · rw [List.length_map, List.length_reverse]
    exact (Nat.digits_length_le_iff (by norm_num) n).mpr h

/-- A digit is that of its value. -/
theorem digit_digitVal {b : UInt8} (h : IsDigit b) : digit (digitVal b) = b := by
  rw [isDigit_iff] at h
  have hval : 48 + digitVal b = b.toNat := by
    rw [digitVal]
    omega
  rw [digit, hval, UInt8.ofNat_toNat]

/-- **A digit string without a leading zero is the numeral** of the number it denotes. -/
theorem numeral_value {ds : List UInt8} (hne : ds ≠ []) (hds : AllDigits ds)
    (hlead : ¬ (1 < ds.length ∧ ds.head? = some 0x30)) : numeral (value ds) = ds := by
  have hmap : (ds.map digitVal).map digit = ds := by
    have hid : ∀ b ∈ ds, (digit ∘ digitVal) b = id b := fun b hb => digit_digitVal (hds b hb)
    rw [List.map_map, List.map_congr_left hid, List.map_id]
  by_cases hzero : value ds = 0
  · have hall := (value_eq_zero_iff hds).mp hzero
    rw [hzero]
    cases ds with
    | nil => exact absurd rfl hne
    | cons d ds =>
      have hd : d = 0x30 := by simpa using List.findIdx?_eq_none_iff.mp hall d List.mem_cons_self
      cases ds with
      | nil => rw [hd]; rfl
      | cons e es => exact absurd ⟨by simp, by rw [hd]; rfl⟩ hlead
  · have hdigits : Nat.digits 10 (value ds) = (ds.map digitVal).reverse := by
      have hlt : ∀ l ∈ (ds.map digitVal).reverse, l < 10 := by
        intro l hl
        obtain ⟨b, hb, rfl⟩ := List.mem_map.mp (List.mem_reverse.mp hl)
        exact digitVal_lt (hds b hb)
      have hval : value ds = Nat.ofDigits 10 (ds.map digitVal).reverse := by
        rw [← value_map_digit hlt, List.reverse_reverse, hmap]
      rw [hval]
      refine Nat.digits_ofDigits 10 (by norm_num) _ hlt ?_
      intro hne'
      -- the last of the reversed digits is the first one
      cases ds with
      | nil => exact absurd rfl hne
      | cons d ds =>
        rw [List.getLast_reverse]
        intro h0
        have hd : d = 0x30 := (digitVal_eq_zero (hds d List.mem_cons_self)).mp (by simpa using h0)
        cases ds with
        | nil =>
          rw [hd] at hzero
          exact hzero rfl
        | cons e es => exact hlead ⟨by simp, by rw [hd]; rfl⟩
    rw [numeral, if_neg hzero, hdigits, List.reverse_reverse, hmap]

example : numeral 1203 = [0x31, 0x32, 0x30, 0x33] := by decide

end Decimal
