/-
  UTF-8 as a code: Unicode scalar values, their encoding into one to four bytes, and the byte
  strings that are concatenations of such encodings.

  Nothing here knows about JSON.  A decoder that wants to be compared with the code proves two
  things about itself: a sequence it accepts is `encode cp` for a scalar value `cp`, and it
  accepts `encode cp` whatever follows.  The arithmetic both proofs need (which lead byte goes
  with which length, how the payload bits are put together and taken apart) is collected in
  `encode_two`, `encode_three`, `encode_four` and their converses, so that no decoder has to
  reason about bit masks twice.

  `WellFormed` is inductive: the empty string, or an encoded scalar value in front of a
  well-formed string.  Inductions on a string that has to be well formed follow it.
-/
import Mathlib

namespace Utf8

/-! ## Scalar values and their encoding -/

/-- A Unicode scalar value: any code point up to `10FFFF` but the surrogates. -/
def IsScalar (cp : Nat) : Prop := cp < 0xD800 ∨ (0xDFFF < cp ∧ cp ≤ 0x10FFFF)

instance (cp : Nat) : Decidable (IsScalar cp) := inferInstanceAs (Decidable (_ ∨ _))

/-- The byte `0x80 + x`, the form of every byte after the first of a sequence. -/
def tail (x : Nat) : UInt8 := UInt8.ofNat (0x80 + x % 64)

/-- The UTF-8 encoding of a code point. -/
def encode (cp : Nat) : List UInt8 :=
  if cp < 0x80 then [UInt8.ofNat cp]
  else if cp < 0x800 then [UInt8.ofNat (0xC0 + cp / 64), tail cp]
  else if cp < 0x10000 then [UInt8.ofNat (0xE0 + cp / 4096), tail (cp / 64), tail cp]
  else [UInt8.ofNat (0xF0 + cp / 262144), tail (cp / 4096), tail (cp / 64), tail cp]

/-- A byte string that is a concatenation of encoded scalar values. -/
inductive WellFormed : List UInt8 → Prop where
  | nil : WellFormed []
  | cons {cp : Nat} {s : List UInt8} : IsScalar cp → WellFormed s → WellFormed (encode cp ++ s)

theorem tail_toNat (x : Nat) : (tail x).toNat = 0x80 + x % 64 := by
  unfold tail
  rw [UInt8.toNat_ofNat']
  omega

theorem encode_ne_nil (cp : Nat) : encode cp ≠ [] := by
  unfold encode
  split_ifs <;> simp

/-- A sequence has one to four bytes. -/
theorem encode_length (cp : Nat) : 1 ≤ (encode cp).length ∧ (encode cp).length ≤ 4 := by
  unfold encode
  split_ifs <;> simp

/-! ## From payload bits to the encoding

  `b` is a lead byte, `t`, `u`, `w` are tail bytes; the code point is what a decoder computes
  from them.  Each lemma says that the bytes are the encoding of that code point, under the
  condition that excludes overlong forms. -/

theorem eq_ofNat {b : UInt8} {n : Nat} (h : b.toNat = n) : UInt8.ofNat n = b := by
  subst h
  exact UInt8.ofNat_toNat

theorem eq_tail {t : UInt8} {x : Nat} (ht : t.toNat = 0x80 + x % 64) : tail x = t :=
  eq_ofNat ht

theorem encode_one {b : UInt8} (hb : b.toNat < 0x80) : encode b.toNat = [b] := by
  unfold encode
  rw [if_pos hb, eq_ofNat rfl]

theorem encode_two {b t : UInt8} (hb : 0xC0 ≤ b.toNat) (hb' : b.toNat < 0xE0)
    (ht : 0x80 ≤ t.toNat) (ht' : t.toNat < 0xC0) {cp : Nat}
    (hcp : cp = (b.toNat - 0xC0) * 64 + (t.toNat - 0x80)) (hlo : 0x80 ≤ cp) :
    encode cp = [b, t] := by
  unfold encode
  rw [if_neg (by omega), if_pos (by omega), eq_ofNat (b := b) (by omega),
    eq_tail (t := t) (by omega)]

theorem encode_three {b t u : UInt8} (hb : 0xE0 ≤ b.toNat) (hb' : b.toNat < 0xF0)
    (ht : 0x80 ≤ t.toNat) (ht' : t.toNat < 0xC0) (hu : 0x80 ≤ u.toNat) (hu' : u.toNat < 0xC0)
    {cp : Nat} (hcp : cp = ((b.toNat - 0xE0) * 64 + (t.toNat - 0x80)) * 64 + (u.toNat - 0x80))
    (hlo : 0x800 ≤ cp) : encode cp = [b, t, u] := by
  unfold encode
  rw [if_neg (by omega), if_neg (by omega), if_pos (by omega), eq_ofNat (b := b) (by omega),
    eq_tail (t := t) (by omega), eq_tail (t := u) (by omega)]

theorem encode_four {b t u w : UInt8} (hb : 0xF0 ≤ b.toNat) (hb' : b.toNat < 0xF8)
    (ht : 0x80 ≤ t.toNat) (ht' : t.toNat < 0xC0) (hu : 0x80 ≤ u.toNat) (hu' : u.toNat < 0xC0)
    (hw : 0x80 ≤ w.toNat) (hw' : w.toNat < 0xC0) {cp : Nat}
    (hcp : cp = (((b.toNat - 0xF0) * 64 + (t.toNat - 0x80)) * 64 + (u.toNat - 0x80)) * 64 +
      (w.toNat - 0x80)) (hlo : 0x10000 ≤ cp) : encode cp = [b, t, u, w] := by
  unfold encode
  rw [if_neg (by omega), if_neg (by omega), if_neg (by omega), eq_ofNat (b := b) (by omega),
    eq_tail (t := t) (by omega), eq_tail (t := u) (by omega), eq_tail (t := w) (by omega)]

/-! ## From the encoding to payload bits

  What a decoder reads off an encoded scalar value: the shape of the sequence by its length,
  with the lead byte's range and the code point recovered from the bytes. -/

/-- The four shapes of an encoded scalar value, each with what its lead byte looks like. -/
theorem encode_cases {cp : Nat} (h : IsScalar cp) :
    (cp < 0x80 ∧ encode cp = [UInt8.ofNat cp]) ∨
    (∃ b t, encode cp = [b, t] ∧ (0xC0 ≤ b.toNat ∧ b.toNat < 0xE0) ∧
      (0x80 ≤ t.toNat ∧ t.toNat < 0xC0) ∧ 0x80 ≤ cp ∧
      cp = (b.toNat - 0xC0) * 64 + (t.toNat - 0x80)) ∨
    (∃ b t u, encode cp = [b, t, u] ∧ (0xE0 ≤ b.toNat ∧ b.toNat < 0xF0) ∧
      (0x80 ≤ t.toNat ∧ t.toNat < 0xC0) ∧ (0x80 ≤ u.toNat ∧ u.toNat < 0xC0) ∧ 0x800 ≤ cp ∧
      cp = ((b.toNat - 0xE0) * 64 + (t.toNat - 0x80)) * 64 + (u.toNat - 0x80)) ∨
    (∃ b t u w, encode cp = [b, t, u, w] ∧ (0xF0 ≤ b.toNat ∧ b.toNat < 0xF8) ∧
      (0x80 ≤ t.toNat ∧ t.toNat < 0xC0) ∧ (0x80 ≤ u.toNat ∧ u.toNat < 0xC0) ∧
      (0x80 ≤ w.toNat ∧ w.toNat < 0xC0) ∧ 0x10000 ≤ cp ∧
      cp = (((b.toNat - 0xF0) * 64 + (t.toNat - 0x80)) * 64 + (u.toNat - 0x80)) * 64 +
        (w.toNat - 0x80)) := by
  have hmax : cp ≤ 0x10FFFF := by rcases h with h | h <;> omega
  rcases Nat.lt_or_ge cp 0x80 with h1 | h1
  · exact Or.inl ⟨h1, by rw [encode, if_pos h1]⟩
  rcases Nat.lt_or_ge cp 0x800 with h2 | h2
  · refine Or.inr (Or.inl ⟨_, _, by rw [encode, if_neg (by omega), if_pos h2], ?_⟩)
    rw [UInt8.toNat_ofNat', tail_toNat]
    omega
  rcases Nat.lt_or_ge cp 0x10000 with h3 | h3
  · refine Or.inr (Or.inr (Or.inl
      ⟨_, _, _, by rw [encode, if_neg (by omega), if_neg (by omega), if_pos h3], ?_⟩))
    rw [UInt8.toNat_ofNat', tail_toNat, tail_toNat]
    omega
  · refine Or.inr (Or.inr (Or.inr
      ⟨_, _, _, _, by rw [encode, if_neg (by omega), if_neg (by omega), if_neg (by omega)], ?_⟩))
    rw [UInt8.toNat_ofNat', tail_toNat, tail_toNat, tail_toNat]
    omega

/-! ## Well-formed strings -/

theorem WellFormed.append {s t : List UInt8} (hs : WellFormed s) (ht : WellFormed t) :
    WellFormed (s ++ t) := by
  induction hs with
  | nil => exact ht
  | cons hcp _ ih => rw [List.append_assoc]; exact WellFormed.cons hcp ih

theorem WellFormed.singleton {cp : Nat} (h : IsScalar cp) : WellFormed (encode cp) := by
  simpa using WellFormed.cons h WellFormed.nil

/-- A single byte below `0x80` is a scalar value by itself. -/
theorem WellFormed.ascii {b : UInt8} (hb : b.toNat < 0x80) : WellFormed [b] := by
  rw [← encode_one hb]
  exact WellFormed.singleton (Or.inl (by omega))

theorem WellFormed.ascii_cons {b : UInt8} {s : List UInt8} (hb : b.toNat < 0x80)
    (hs : WellFormed s) : WellFormed (b :: s) :=
  WellFormed.append (WellFormed.ascii hb) hs

/-- The first character of a well-formed string, if it has one. -/
theorem WellFormed.inv {s : List UInt8} (h : WellFormed s) :
    s = [] ∨ ∃ cp t, IsScalar cp ∧ WellFormed t ∧ s = encode cp ++ t := by
  cases h with
  | nil => exact Or.inl rfl
  | cons hcp ht => exact Or.inr ⟨_, _, hcp, ht, rfl⟩

/-! ## The table of well-formed sequences -/

/-- Table 3-7 of the Unicode standard, a row for each line: the range of every byte. -/
def table : List (List (Nat × Nat)) :=
  [[(0x00, 0x7F)],
   [(0xC2, 0xDF), (0x80, 0xBF)],
   [(0xE0, 0xE0), (0xA0, 0xBF), (0x80, 0xBF)],
   [(0xE1, 0xEC), (0x80, 0xBF), (0x80, 0xBF)],
   [(0xED, 0xED), (0x80, 0x9F), (0x80, 0xBF)],
   [(0xEE, 0xEF), (0x80, 0xBF), (0x80, 0xBF)],
   [(0xF0, 0xF0), (0x90, 0xBF), (0x80, 0xBF), (0x80, 0xBF)],
   [(0xF1, 0xF3), (0x80, 0xBF), (0x80, 0xBF), (0x80, 0xBF)],
   [(0xF4, 0xF4), (0x80, 0x8F), (0x80, 0xBF), (0x80, 0xBF)]]

/-- The bytes lie in the ranges of a row, one in each. -/
def InRow : List (Nat × Nat) → List UInt8 → Prop
  | [], q => q = []
  | _ :: _, [] => False
  | range :: row, b :: q => (range.1 ≤ b.toNat ∧ b.toNat ≤ range.2) ∧ InRow row q

/-- A well-formed sequence, by the table. -/
def Sequence (q : List UInt8) : Prop := ∃ row ∈ table, InRow row q

/-- The table lists the encodings of the scalar values. -/
theorem sequence_iff {q : List UInt8} : Sequence q ↔ ∃ cp, IsScalar cp ∧ q = encode cp := by
  constructor
  · rintro ⟨row, hrow, hq⟩
    simp only [table, List.mem_cons, List.not_mem_nil, or_false] at hrow
    -- By the length of the sequence, which picks the rows that can match.
    rcases q with _ | ⟨b, _ | ⟨t, _ | ⟨u, _ | ⟨w, _ | ⟨x, q⟩⟩⟩⟩⟩
    · rcases hrow with rfl | rfl | rfl | rfl | rfl | rfl | rfl | rfl | rfl <;>
        simp [InRow] at hq
    · have hb : b.toNat < 0x80 := by
        rcases hrow with rfl | rfl | rfl | rfl | rfl | rfl | rfl | rfl | rfl <;>
          simp [InRow] at hq
        omega
      exact ⟨b.toNat, Or.inl (by omega), (encode_one hb).symm⟩
    · have h : (0xC2 ≤ b.toNat ∧ b.toNat < 0xE0) ∧ 0x80 ≤ t.toNat ∧ t.toNat < 0xC0 := by
        rcases hrow with rfl | rfl | rfl | rfl | rfl | rfl | rfl | rfl | rfl <;>
          simp [InRow] at hq
        omega
      exact ⟨_, Or.inl (by omega),
        (encode_two (by omega) h.1.2 h.2.1 h.2.2 rfl (by omega)).symm⟩
    · have h : (0xE0 ≤ b.toNat ∧ b.toNat < 0xF0) ∧ (0x80 ≤ t.toNat ∧ t.toNat < 0xC0) ∧
          (0x80 ≤ u.toNat ∧ u.toNat < 0xC0) ∧ (b.toNat = 0xE0 → 0xA0 ≤ t.toNat) ∧
          (b.toNat = 0xED → t.toNat ≤ 0x9F) := by
        rcases hrow with rfl | rfl | rfl | rfl | rfl | rfl | rfl | rfl | rfl <;>
          simp [InRow] at hq <;> omega
      exact ⟨_, (by unfold IsScalar; omega), (encode_three (by omega) h.1.2 h.2.1.1 h.2.1.2
        h.2.2.1.1 h.2.2.1.2 rfl (by omega)).symm⟩
    · have h : (0xF0 ≤ b.toNat ∧ b.toNat < 0xF5) ∧ (0x80 ≤ t.toNat ∧ t.toNat < 0xC0) ∧
          (0x80 ≤ u.toNat ∧ u.toNat < 0xC0) ∧ (0x80 ≤ w.toNat ∧ w.toNat < 0xC0) ∧
          (b.toNat = 0xF0 → 0x90 ≤ t.toNat) ∧ (b.toNat = 0xF4 → t.toNat ≤ 0x8F) := by
        rcases hrow with rfl | rfl | rfl | rfl | rfl | rfl | rfl | rfl | rfl <;>
          simp [InRow] at hq <;> omega
      exact ⟨_, Or.inr (by omega), (encode_four (by omega) (by omega) h.2.1.1 h.2.1.2
        h.2.2.1.1 h.2.2.1.2 h.2.2.2.1.1 h.2.2.2.1.2 rfl (by omega)).symm⟩
    · rcases hrow with rfl | rfl | rfl | rfl | rfl | rfl | rfl | rfl | rfl <;>
        simp [InRow] at hq
  · rintro ⟨cp, hcp, rfl⟩
    -- By the length of the encoding; its lead byte then picks the row.
    have hmax : cp < 0xD800 ∨ 0xDFFF < cp ∧ cp ≤ 0x10FFFF := hcp
    rcases encode_cases hcp with ⟨hlt, he⟩ | ⟨b, t, he, hb, ht, hlo, hv⟩ |
      ⟨b, t, u, he, hb, ht, hu, hlo, hv⟩ | ⟨b, t, u, w, he, hb, ht, hu, hw, hlo, hv⟩ <;> rw [he]
    · refine ⟨[(0x00, 0x7F)], by decide, ?_⟩
      simp only [InRow, UInt8.toNat_ofNat', and_true]
      omega
    · refine ⟨[(0xC2, 0xDF), (0x80, 0xBF)], by decide, ?_⟩
      simp only [InRow, and_true]
      omega
    · have hrow : InRow [(0xE0, 0xE0), (0xA0, 0xBF), (0x80, 0xBF)] [b, t, u] ∨
          InRow [(0xE1, 0xEC), (0x80, 0xBF), (0x80, 0xBF)] [b, t, u] ∨
          InRow [(0xED, 0xED), (0x80, 0x9F), (0x80, 0xBF)] [b, t, u] ∨
          InRow [(0xEE, 0xEF), (0x80, 0xBF), (0x80, 0xBF)] [b, t, u] := by
        simp only [InRow, and_true]
        omega
      rcases hrow with h | h | h | h <;> exact ⟨_, by decide, h⟩
    · have hrow : InRow [(0xF0, 0xF0), (0x90, 0xBF), (0x80, 0xBF), (0x80, 0xBF)] [b, t, u, w] ∨
          InRow [(0xF1, 0xF3), (0x80, 0xBF), (0x80, 0xBF), (0x80, 0xBF)] [b, t, u, w] ∨
          InRow [(0xF4, 0xF4), (0x80, 0x8F), (0x80, 0xBF), (0x80, 0xBF)] [b, t, u, w] := by
        simp only [InRow, and_true]
        omega
      rcases hrow with h | h | h <;> exact ⟨_, by decide, h⟩

/-! ## Strings as lists of scalar values -/

/-- A well-formed string spells a list of scalar values. -/
theorem wellFormed_iff {s : List UInt8} :
    WellFormed s ↔ ∃ cps : List Nat, (∀ cp ∈ cps, IsScalar cp) ∧ s = cps.flatMap encode := by
  constructor
  · intro h
    induction h with
    | nil => exact ⟨[], by simp, rfl⟩
    | @cons cp s hcp _ ih =>
      obtain ⟨cps, hcps, rfl⟩ := ih
      exact ⟨cp :: cps, List.forall_mem_cons.mpr ⟨hcp, hcps⟩, rfl⟩
  · rintro ⟨cps, hcps, rfl⟩
    induction cps with
    | nil => exact WellFormed.nil
    | cons cp cps ih =>
      rw [List.forall_mem_cons] at hcps
      exact WellFormed.cons hcps.1 (ih hcps.2)

end Utf8
