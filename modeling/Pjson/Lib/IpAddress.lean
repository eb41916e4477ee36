/-
  RFC 3986, section 3.2.2: the IPv4address and IPv6address productions.

  The productions are Mathlib languages, alternative by alternative.  The nine alternatives of
  IPv6address say one thing about groups (`mem_ipv6Address_iff`): there are eight of them, or at most seven
  around a `::`, and a dotted quad may stand for the last two.  `Groups` are groups with colons
  between them, `Side` what stands on a side of the `::`.  `Leading` are groups at the front of a text
  that need not be an address: what a reader has seen who reads group after group.
-/
import Pjson.Lib.Decimal

namespace IpAddress

open Decimal

/-! ## The productions -/

/-- One byte of a range. -/
def range (lo hi : UInt8) : Language UInt8 := {s | ∃ b, lo ≤ b ∧ b ≤ hi ∧ s = [b]}

def byte (b : UInt8) : Language UInt8 := {[b]}

def digit : Language UInt8 := range 0x30 0x39

/-- A hexadecimal digit; the grammar's letters have no case. -/
def IsHexDigit (b : UInt8) : Prop :=
  0x30 ≤ b ∧ b ≤ 0x39 ∨ 0x61 ≤ b ∧ b ≤ 0x66 ∨ 0x41 ≤ b ∧ b ≤ 0x46

instance (b : UInt8) : Decidable (IsHexDigit b) := inferInstanceAs (Decidable (_ ∨ _))

/-- `dec-octet`. -/
def decOctet : Language UInt8 :=
  digit + range 0x31 0x39 * digit + byte 0x31 * (digit * digit) +
    byte 0x32 * (range 0x30 0x34 * digit) + byte 0x32 * (byte 0x35 * range 0x30 0x35)

/-- `dec-octet "." dec-octet "." dec-octet "." dec-octet`. -/
def ipv4Address : Language UInt8 :=
  decOctet * (byte 0x2E * (decOctet * (byte 0x2E * (decOctet * (byte 0x2E * decOctet)))))

/-- `1*4HEXDIG`. -/
def h16 : Language UInt8 := {s | s ≠ [] ∧ s.length ≤ 4 ∧ ∀ b ∈ s, IsHexDigit b}

/-- `h16 ":"`. -/
def group : Language UInt8 := h16 * byte 0x3A

/-- `"::"`. -/
def doubleColon : Language UInt8 := {[0x3A, 0x3A]}

/-- `( h16 ":" h16 ) / IPv4address`. -/
def ls32 : Language UInt8 := group * h16 + ipv4Address

/-- `*n( element )`. -/
def atMost (L : Language UInt8) : Nat → Language UInt8
  | 0 => 1
  | n + 1 => 1 + L * atMost L n

/-- `[ *n( h16 ":" ) h16 ]`. -/
def leading (n : Nat) : Language UInt8 := 1 + atMost group n * h16

/-- `IPv6address`. -/
def ipv6Address : Language UInt8 :=
  group ^ 6 * ls32 +
  doubleColon * (group ^ 5 * ls32) +
  leading 0 * (doubleColon * (group ^ 4 * ls32)) +
  leading 1 * (doubleColon * (group ^ 3 * ls32)) +
  leading 2 * (doubleColon * (group ^ 2 * ls32)) +
  leading 3 * (doubleColon * (group * ls32)) +
  leading 4 * (doubleColon * ls32) +
  leading 5 * (doubleColon * h16) +
  leading 6 * doubleColon

/-! ## Membership -/

section

variable {L K : Language UInt8} {s : List UInt8} {b lo hi : UInt8}

@[simp] theorem mem_add : s ∈ L + K ↔ s ∈ L ∨ s ∈ K := Iff.rfl

@[simp] theorem mem_range : s ∈ range lo hi ↔ ∃ b, lo ≤ b ∧ b ≤ hi ∧ s = [b] := Iff.rfl

theorem mem_byte_mul : s ∈ byte b * L ↔ ∃ t ∈ L, s = b :: t := by
  rw [Language.mem_mul]
  constructor
  · rintro ⟨_, rfl, t, ht, rfl⟩
    exact ⟨t, ht, rfl⟩
  · rintro ⟨t, ht, rfl⟩
    exact ⟨[b], rfl, t, ht, rfl⟩

theorem mem_doubleColon_mul : s ∈ doubleColon * L ↔ ∃ t ∈ L, s = 0x3A :: 0x3A :: t := by
  rw [Language.mem_mul]
  constructor
  · rintro ⟨_, rfl, t, ht, rfl⟩
    exact ⟨t, ht, rfl⟩
  · rintro ⟨t, ht, rfl⟩
    exact ⟨_, rfl, t, ht, rfl⟩

theorem mem_mul : s ∈ L * K ↔ ∃ x ∈ L, ∃ y ∈ K, s = x ++ y := by
  rw [Language.mem_mul]
  constructor
  · rintro ⟨x, hx, y, hy, rfl⟩
    exact ⟨x, hx, y, hy, rfl⟩
  · rintro ⟨x, hx, y, hy, rfl⟩
    exact ⟨x, hx, y, hy, rfl⟩

theorem mem_mul_byte_mul : s ∈ L * (byte b * K) ↔ ∃ x ∈ L, ∃ y ∈ K, s = x ++ b :: y := by
  rw [mem_mul]
  simp only [mem_byte_mul]
  constructor
  · rintro ⟨x, hx, _, ⟨y, hy, rfl⟩, rfl⟩
    exact ⟨x, hx, y, hy, rfl⟩
  · rintro ⟨x, hx, y, hy, rfl⟩
    exact ⟨x, hx, _, ⟨y, hy, rfl⟩, rfl⟩

end

/-! ## Octets -/

theorem mem_range_mul {lo hi : UInt8} {L : Language UInt8} {s : List UInt8} :
    s ∈ range lo hi * L ↔ ∃ b, lo ≤ b ∧ b ≤ hi ∧ ∃ t ∈ L, s = b :: t := by
  rw [mem_mul]
  constructor
  · rintro ⟨_, ⟨b, hlo, hhi, rfl⟩, t, ht, rfl⟩
    exact ⟨b, hlo, hhi, t, ht, rfl⟩
  · rintro ⟨b, hlo, hhi, t, ht, rfl⟩
    exact ⟨[b], ⟨b, hlo, hhi, rfl⟩, t, ht, rfl⟩

/-- The alternatives of `dec-octet`, digit by digit. -/
theorem mem_decOctet {s : List UInt8} : s ∈ decOctet ↔
    (∃ a, IsDigit a ∧ s = [a]) ∨
    (∃ a b, IsDigit a ∧ IsDigit b ∧ a ≠ 0x30 ∧ s = [a, b]) ∨
    (∃ a b c, IsDigit a ∧ IsDigit b ∧ IsDigit c ∧ a ≠ 0x30 ∧
      digitVal a * 100 + digitVal b * 10 + digitVal c ≤ 255 ∧ s = [a, b, c]) := by
  unfold decOctet digit
  simp only [mem_add, mem_range_mul, mem_byte_mul, mem_range, IsDigit, digitVal]
  simp only [UInt8.le_iff_toNat_le, ne_eq, ← UInt8.toNat_inj, UInt8.reduceToNat]
  constructor
  · rintro ((((⟨a, ha, ha', rfl⟩ | ⟨a, ha, ha', t, ⟨b, hb, hb', rfl⟩, rfl⟩) |
      ⟨t, ⟨b, hb, hb', t', ⟨c, hc, hc', rfl⟩, rfl⟩, rfl⟩) |
      ⟨t, ⟨b, hb, hb', t', ⟨c, hc, hc', rfl⟩, rfl⟩, rfl⟩) | ⟨t, ⟨t', ⟨c, hc, hc', rfl⟩, rfl⟩, rfl⟩)
    · exact Or.inl ⟨a, ⟨ha, ha'⟩, rfl⟩
    · exact Or.inr (Or.inl ⟨a, b, by omega, ⟨hb, hb'⟩, by omega, rfl⟩)
    · refine Or.inr (Or.inr ⟨0x31, b, c, by decide, ⟨hb, hb'⟩, ⟨hc, hc'⟩, by decide, ?_, rfl⟩)
      show (49 - 48) * 100 + (b.toNat - 48) * 10 + (c.toNat - 48) ≤ 255
      omega
    · refine Or.inr (Or.inr ⟨0x32, b, c, by decide, by omega, ⟨hc, hc'⟩, by decide, ?_, rfl⟩)
      show (50 - 48) * 100 + (b.toNat - 48) * 10 + (c.toNat - 48) ≤ 255
      omega
    · refine Or.inr (Or.inr ⟨0x32, 0x35, c, by decide, by decide, by omega, by decide, ?_, rfl⟩)
      show (50 - 48) * 100 + (53 - 48) * 10 + (c.toNat - 48) ≤ 255
      omega
  · rintro (⟨a, ha, rfl⟩ | ⟨a, b, ha, hb, hne, rfl⟩ | ⟨a, b, c, ha, hb, hc, hne, hle, rfl⟩)
    · exact Or.inl (Or.inl (Or.inl (Or.inl ⟨a, ha.1, ha.2, rfl⟩)))
    · exact Or.inl (Or.inl (Or.inl (Or.inr ⟨a, by omega, ha.2, [b], ⟨b, hb.1, hb.2, rfl⟩, rfl⟩)))
    · -- the first digit is a one or a two
      rcases (show a.toNat = 49 ∨ a.toNat = 50 by omega) with h1 | h2
      · rw [show a = 0x31 from UInt8.toNat_inj.mp h1]
        exact Or.inl (Or.inl (Or.inr ⟨[b, c], ⟨b, hb.1, hb.2, [c], ⟨c, hc.1, hc.2, rfl⟩, rfl⟩, rfl⟩))
      · rw [show a = 0x32 from UInt8.toNat_inj.mp h2]
        rcases (show b.toNat ≤ 52 ∨ b.toNat = 53 by omega) with hb4 | hb5
        · exact Or.inl (Or.inr ⟨[b, c], ⟨b, hb.1, hb4, [c], ⟨c, hc.1, hc.2, rfl⟩, rfl⟩, rfl⟩)
        · rw [show b = 0x35 from UInt8.toNat_inj.mp hb5]
          exact Or.inr ⟨[0x35, c], ⟨[c], ⟨c, hc.1, by omega, rfl⟩, rfl⟩, rfl⟩

/-- A `dec-octet` is a numeral up to 255: at most three digits, and no zero in front of another. -/
theorem mem_decOctet_iff {s : List UInt8} : s ∈ decOctet ↔
    AllDigits s ∧ s ≠ [] ∧ s.length ≤ 3 ∧ (1 < s.length → s.head? ≠ some 0x30) ∧ value s ≤ 255 := by
  rw [mem_decOctet]
  constructor
  · rintro (⟨a, ha, rfl⟩ | ⟨a, b, ha, hb, hne, rfl⟩ | ⟨a, b, c, ha, hb, hc, hne, hle, rfl⟩)
    · have h1 := digitVal_lt ha
      have hv : value [a] = digitVal a := by simp [value]
      exact ⟨by simpa [AllDigits] using ha, by simp, by simp, by simp, by omega⟩
    · have h1 := digitVal_lt ha
      have h2 := digitVal_lt hb
      have hv : value [a, b] = digitVal a * 10 + digitVal b := by simp [value]
      exact ⟨by simp [AllDigits, ha, hb], by simp, by simp, by simpa using hne, by omega⟩
    · have hv : value [a, b, c] = (digitVal a * 10 + digitVal b) * 10 + digitVal c := by simp [value]
      exact ⟨by simp [AllDigits, ha, hb, hc], by simp, by simp, by simpa using hne, by omega⟩
  · rintro ⟨hall, hne, hlen, hzero, hle⟩
    rcases s with _ | ⟨a, _ | ⟨b, _ | ⟨c, _ | ⟨d, t⟩⟩⟩⟩
    · exact absurd rfl hne
    · exact Or.inl ⟨a, hall a (by simp), rfl⟩
    · exact Or.inr (Or.inl ⟨a, b, hall a (by simp), hall b (by simp), by simpa using hzero, rfl⟩)
    · have hv : value [a, b, c] = (digitVal a * 10 + digitVal b) * 10 + digitVal c := by simp [value]
      exact Or.inr (Or.inr ⟨a, b, c, hall a (by simp), hall b (by simp), hall c (by simp),
        by simpa using hzero, by omega, rfl⟩)
    · simp only [List.length_cons] at hlen
      omega

/-! ## Groups -/

/-- So many groups with colons between them; a dotted quad at the end counts for two. -/
inductive Groups (quad : Bool) : Nat → List UInt8 → Prop
  | last {g : List UInt8} : g ∈ h16 → Groups quad 1 g
  | ipv4 {q : List UInt8} : quad = true → q ∈ ipv4Address → Groups quad 2 q
  | cons {g s : List UInt8} {n : Nat} : g ∈ h16 → Groups quad n s → Groups quad (n + 1) (g ++ 0x3A :: s)

/-- A text that begins with so many groups: it has no more, or a colon follows. -/
inductive Leading (quad : Bool) (n : Nat) : List UInt8 → Prop
  | all {s : List UInt8} : Groups quad n s → Leading quad n s
  | front {p t : List UInt8} : Groups false n p → Leading quad n (p ++ 0x3A :: t)

/-- What stands on a side of the `::`. -/
def Side (quad : Bool) (n : Nat) (s : List UInt8) : Prop := s = [] ∧ n = 0 ∨ Groups quad n s

section

variable {quad : Bool} {n m k : Nat} {s : List UInt8} {L : Language UInt8}

theorem Groups.pos (h : Groups quad n s) : 0 < n := by
  cases h <;> omega

theorem groups_one : Groups quad 1 s ↔ s ∈ h16 := by
  constructor
  · intro h
    cases h with
    | last hg => exact hg
    | cons _ hs => exact absurd hs.pos (Nat.lt_irrefl 0)
  · exact Groups.last

theorem groups_cons : Groups quad (n + 3) s ↔ ∃ g ∈ h16, ∃ t, Groups quad (n + 2) t ∧ s = g ++ 0x3A :: t := by
  constructor
  · intro h
    cases h with
    | cons hg ht => exact ⟨_, hg, _, ht, rfl⟩
  · rintro ⟨g, hg, t, ht, rfl⟩
    exact .cons hg ht

theorem mem_group_mul : s ∈ group * L ↔ ∃ g ∈ h16, ∃ t ∈ L, s = g ++ 0x3A :: t := by
  unfold group
  rw [mul_assoc, mem_mul_byte_mul]

theorem mem_ls32 : s ∈ ls32 ↔ Groups true 2 s := by
  unfold ls32
  rw [mem_add, mem_group_mul]
  constructor
  · rintro (⟨g, hg, t, ht, rfl⟩ | h)
    · exact .cons hg (.last ht)
    · exact .ipv4 rfl h
  · intro h
    cases h with
    | ipv4 _ hq => exact Or.inr hq
    | cons hg ht => exact Or.inl ⟨_, hg, _, groups_one.mp ht, rfl⟩

theorem mem_groups : s ∈ group ^ k * ls32 ↔ Groups true (k + 2) s := by
  induction k generalizing s with
  | zero => rw [pow_zero, one_mul, mem_ls32]
  | succ k ih =>
    rw [pow_succ', mul_assoc, mem_group_mul, groups_cons]
    simp only [ih]

/-- `*n( h16 ":" ) h16` are at least one and at most `n + 1` groups. -/
theorem mem_atMost : s ∈ atMost group n * h16 ↔ ∃ k ≤ n + 1, Groups false k s := by
  induction n generalizing s with
  | zero =>
    rw [atMost, one_mul]
    constructor
    · exact fun h => ⟨1, le_refl _, .last h⟩
    · rintro ⟨k, hk, h⟩
      rw [show k = 1 from le_antisymm hk h.pos] at h
      exact groups_one.mp h
  | succ n ih =>
    rw [atMost, add_mul, one_mul, mul_assoc, mem_add, mem_group_mul]
    constructor
    · rintro (h | ⟨g, hg, t, ht, rfl⟩)
      · exact ⟨1, by omega, .last h⟩
      · obtain ⟨k, hk, ht⟩ := ih.mp ht
        exact ⟨k + 1, by omega, .cons hg ht⟩
    · rintro ⟨k, hk, h⟩
      cases h with
      | last hg => exact Or.inl hg
      | ipv4 hquad _ => exact absurd hquad (by decide)
      | cons hg ht => exact Or.inr ⟨_, hg, _, ih.mpr ⟨_, by omega, ht⟩, rfl⟩

theorem mem_leading : s ∈ leading n ↔ ∃ k ≤ n + 1, Side false k s := by
  unfold leading
  rw [mem_add, mem_atMost]
  constructor
  · rintro (rfl | ⟨k, hk, h⟩)
    · exact ⟨0, Nat.zero_le _, Or.inl ⟨rfl, rfl⟩⟩
    · exact ⟨k, hk, Or.inr h⟩
  · rintro ⟨k, hk, ⟨rfl, -⟩ | h⟩
    · exact Or.inl rfl
    · exact Or.inr ⟨k, hk, h⟩

theorem mem_leading_mul : s ∈ leading n * (doubleColon * L) ↔
    ∃ l r k, k ≤ n + 1 ∧ Side false k l ∧ r ∈ L ∧ s = l ++ 0x3A :: 0x3A :: r := by
  rw [mem_mul]
  simp only [mem_leading, mem_doubleColon_mul]
  constructor
  · rintro ⟨l, ⟨k, hk, hl⟩, _, ⟨r, hr, rfl⟩, rfl⟩
    exact ⟨l, r, k, hk, hl, hr, rfl⟩
  · rintro ⟨l, r, k, hk, hl, hr, rfl⟩
    exact ⟨l, ⟨k, hk, hl⟩, _, ⟨r, hr, rfl⟩, rfl⟩

/-- **IPv6address**: eight groups, or at most seven around a `::`; a dotted quad may stand at the end for
    the last two. -/
theorem mem_ipv6Address_iff : s ∈ ipv6Address ↔ Groups true 8 s ∨
    ∃ l r n m, n + m ≤ 7 ∧ Side false n l ∧ Side true m r ∧ s = l ++ 0x3A :: 0x3A :: r := by
  have hnone : leading 6 * doubleColon = leading 6 * (doubleColon * 1) := by rw [mul_one]
  have hone : group * ls32 = group ^ 1 * ls32 := by rw [pow_one]
  have hzero : ls32 = group ^ 0 * ls32 := by rw [pow_zero, one_mul]
  unfold ipv6Address
  rw [hnone, hone]
  nth_rewrite 7 [hzero]
  simp only [mem_add, mem_leading_mul, mem_doubleColon_mul, mem_groups]
  constructor
  · rintro ((((((((h | ⟨r, hr, rfl⟩) | ⟨l, r, k, hk, hl, hr, rfl⟩) | ⟨l, r, k, hk, hl, hr, rfl⟩) |
      ⟨l, r, k, hk, hl, hr, rfl⟩) | ⟨l, r, k, hk, hl, hr, rfl⟩) | ⟨l, r, k, hk, hl, hr, rfl⟩) |
      ⟨l, r, k, hk, hl, hr, rfl⟩) | ⟨l, r, k, hk, hl, rfl, rfl⟩)
    · exact Or.inl h
    · exact Or.inr ⟨[], r, 0, 7, by omega, Or.inl ⟨rfl, rfl⟩, Or.inr hr, rfl⟩
    · exact Or.inr ⟨l, r, k, 6, by omega, hl, Or.inr hr, rfl⟩
    · exact Or.inr ⟨l, r, k, 5, by omega, hl, Or.inr hr, rfl⟩
    · exact Or.inr ⟨l, r, k, 4, by omega, hl, Or.inr hr, rfl⟩
    · exact Or.inr ⟨l, r, k, 3, by omega, hl, Or.inr hr, rfl⟩
    · exact Or.inr ⟨l, r, k, 2, by omega, hl, Or.inr hr, rfl⟩
    · exact Or.inr ⟨l, r, k, 1, by omega, hl, Or.inr (.last hr), rfl⟩
    · exact Or.inr ⟨l, [], k, 0, by omega, hl, Or.inl ⟨rfl, rfl⟩, rfl⟩
  · rintro (h | ⟨l, r, k, m, hle, hl, ⟨rfl, rfl⟩ | hr, rfl⟩)
    · simp only [h, true_or]
    · exact Or.inr ⟨l, [], k, by omega, hl, rfl, rfl⟩
    · -- by the number of groups on the right
      have hm := hr.pos
      have hm7 : m ≤ 7 := by omega
      interval_cases m
      · exact Or.inl (Or.inr ⟨l, r, k, by omega, hl, groups_one.mp hr, rfl⟩)
      · exact Or.inl (Or.inl (Or.inr ⟨l, r, k, by omega, hl, hr, rfl⟩))
      · exact Or.inl (Or.inl (Or.inl (Or.inr ⟨l, r, k, by omega, hl, hr, rfl⟩)))
      · exact Or.inl (Or.inl (Or.inl (Or.inl (Or.inr ⟨l, r, k, by omega, hl, hr, rfl⟩))))
      · exact Or.inl (Or.inl (Or.inl (Or.inl (Or.inl (Or.inr ⟨l, r, k, by omega, hl, hr, rfl⟩)))))
      · exact Or.inl (Or.inl (Or.inl (Or.inl (Or.inl (Or.inl (Or.inr ⟨l, r, k, by omega, hl, hr, rfl⟩))))))
      · have hnil : l = [] := hl.elim (fun h => h.1) fun h => absurd h.pos (by omega)
        rw [hnil]
        exact Or.inl (Or.inl (Or.inl (Or.inl (Or.inl (Or.inl (Or.inl (Or.inr ⟨r, hr, rfl⟩)))))))

end

end IpAddress
