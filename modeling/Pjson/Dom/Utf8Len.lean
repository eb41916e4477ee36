/-
  `pjsonImpl::_utf8Len`, the UTF-8 scanner that the DOM parser and the serializer share.

  The source masks the lead byte, folds the payload of the tail bytes into a code point and only
  then rejects overlong forms, surrogates and values beyond Unicode.  `utf8Len_encode` and
  `exists_of_utf8Len` say together that it answers a positive length exactly where an encoded
  scalar value starts, and that the length is that of the encoding.
-/
import Pjson.Dom.Value

namespace ByteDance

/-- The continuation loop of `_utf8Len`: folds `n` tail bytes into `cp`, or stops at a byte
    that is none. -/
def utf8Tail : Nat → Nat → Bytes → Option Nat
  | 0, cp, _ => some cp
  | _ + 1, _, [] => none
  | n + 1, cp, ck :: rest =>
    if ck &&& 0xC0 ≠ 0x80 then none else utf8Tail n (cp <<< 6 ||| (ck &&& 0x3F).toNat) rest

/-- The checks of `_utf8Len` after the lead byte has announced a sequence of `n` bytes. -/
def utf8Finish (n cp lo : Nat) (rest : Bytes) : Nat :=
  if rest.length + 1 < n then 0
  else
    match utf8Tail (n - 1) cp rest with
    | none => 0 -- not a continuation byte
    | some cp =>
      if cp < lo then 0 -- overlong encoding
      else if cp > 0x10FFFF then 0 -- beyond Unicode
      else if cp ≥ 0xD800 ∧ cp ≤ 0xDFFF then 0 -- surrogate half in UTF-8
      else n

/-- `pjsonImpl::_utf8Len`, on the bytes from `pos` to the end: the length of the valid sequence
    that starts there, or 0.  The source requires at least one byte. -/
def utf8Len : Bytes → Nat
  | [] => 0
  | c0 :: rest =>
    if c0 < 0x80 then 1
    else if c0 &&& 0xE0 = 0xC0 then utf8Finish 2 (c0 &&& 0x1F).toNat 0x80 rest
    else if c0 &&& 0xF0 = 0xE0 then utf8Finish 3 (c0 &&& 0x0F).toNat 0x800 rest
    else if c0 &&& 0xF8 = 0xF0 then utf8Finish 4 (c0 &&& 0x07).toNat 0x10000 rest
    else 0 -- stray continuation / invalid lead

/-! ## What the masks say -/

theorem lead_two : ∀ c : UInt8, (c &&& 0xE0 = 0xC0 ↔ 0xC0 ≤ c.toNat ∧ c.toNat < 0xE0) ∧
    (0xC0 ≤ c.toNat → c.toNat < 0xE0 → (c &&& 0x1F).toNat = c.toNat - 0xC0) := by
  decide +kernel

theorem lead_three : ∀ c : UInt8, (c &&& 0xF0 = 0xE0 ↔ 0xE0 ≤ c.toNat ∧ c.toNat < 0xF0) ∧
    (0xE0 ≤ c.toNat → c.toNat < 0xF0 → (c &&& 0x0F).toNat = c.toNat - 0xE0) := by
  decide +kernel

theorem lead_four : ∀ c : UInt8, (c &&& 0xF8 = 0xF0 ↔ 0xF0 ≤ c.toNat ∧ c.toNat < 0xF8) ∧
    (0xF0 ≤ c.toNat → c.toNat < 0xF8 → (c &&& 0x07).toNat = c.toNat - 0xF0) := by
  decide +kernel

theorem continuation_mask : ∀ c : UInt8, (c &&& 0xC0 = 0x80 ↔ 0x80 ≤ c.toNat ∧ c.toNat < 0xC0) ∧
    (0x80 ≤ c.toNat → c.toNat < 0xC0 → (c &&& 0x3F).toNat = c.toNat - 0x80) := by
  decide +kernel

/-- Shifting in a six-bit payload. -/
theorem shift_payload (cp : Nat) {x : Nat} (hx : x < 64) : cp <<< 6 ||| x = cp * 64 + x := by
  rw [← Nat.shiftLeft_add_eq_or_of_lt (by omega : x < 2 ^ 6), Nat.shiftLeft_eq]

/-- One round of the loop, on a tail byte. -/
theorem utf8Tail_cons {n cp : Nat} {ck : UInt8} {rest : Bytes} (h : 0x80 ≤ ck.toNat)
    (h' : ck.toNat < 0xC0) :
    utf8Tail (n + 1) cp (ck :: rest) = utf8Tail n (cp * 64 + (ck.toNat - 0x80)) rest := by
  obtain ⟨hmask, hpay⟩ := continuation_mask ck
  rw [utf8Tail, if_neg (not_not_intro (hmask.mpr ⟨h, h'⟩)), hpay h h',
    shift_payload cp (by omega)]

/-- The loop only gets past tail bytes. -/
theorem exists_of_utf8Tail {n cp cp' : Nat} {s : Bytes} (h : utf8Tail (n + 1) cp s = some cp') :
    ∃ ck rest, s = ck :: rest ∧ 0x80 ≤ ck.toNat ∧ ck.toNat < 0xC0 ∧
      utf8Tail n (cp * 64 + (ck.toNat - 0x80)) rest = some cp' := by
  cases s with
  | nil => cases h
  | cons ck rest =>
    by_cases hm : ck &&& 0xC0 = 0x80
    · obtain ⟨h₁, h₂⟩ := (continuation_mask ck).1.mp hm
      rw [utf8Tail_cons h₁ h₂] at h
      exact ⟨ck, rest, rfl, h₁, h₂, h⟩
    · rw [utf8Tail, if_pos hm] at h
      cases h

/-- The final checks keep a code point that is a scalar value and not overlong. -/
theorem utf8Finish_eq {n cp r lo : Nat} {rest : Bytes} (hlen : n ≤ rest.length + 1)
    (ht : utf8Tail (n - 1) cp rest = some r) (hlo : lo ≤ r) (hs : Utf8.IsScalar r) :
    utf8Finish n cp lo rest = n := by
  have hmax : r ≤ 0x10FFFF := by rcases hs with h | h <;> omega
  have hsur : ¬ (r ≥ 0xD800 ∧ r ≤ 0xDFFF) := by rcases hs with h | h <;> omega
  simp only [utf8Finish, ht]
  rw [if_neg (by omega), if_neg (by omega), if_neg (by omega), if_neg hsur]

theorem exists_of_utf8Finish {n cp lo : Nat} {rest : Bytes} (h : utf8Finish n cp lo rest ≠ 0) :
    utf8Finish n cp lo rest = n ∧ ∃ cp', utf8Tail (n - 1) cp rest = some cp' ∧ lo ≤ cp' ∧
      Utf8.IsScalar cp' := by
  unfold utf8Finish at h ⊢
  split at h
  · exact absurd rfl h
  cases ht : utf8Tail (n - 1) cp rest with
  | none => simp [ht] at h
  | some cp' =>
    simp only [ht] at h ⊢
    split_ifs at h ⊢ <;> first | exact absurd rfl h | skip
    refine ⟨rfl, cp', rfl, by omega, ?_⟩
    unfold Utf8.IsScalar
    omega

/-! ## The scanner and the code -/

/-- **Completeness**: where an encoded scalar value starts, the scanner measures it. -/
theorem utf8Len_encode {cp : Nat} (h : Utf8.IsScalar cp) (s : Bytes) :
    utf8Len (Utf8.encode cp ++ s) = (Utf8.encode cp).length := by
  rcases Utf8.encode_cases h with ⟨hlt, he⟩ | ⟨b, t, he, hb, ht, hlo, hcp⟩ |
      ⟨b, t, u, he, hb, ht, hu, hlo, hcp⟩ | ⟨b, t, u, w, he, hb, ht, hu, hw, hlo, hcp⟩
  all_goals rw [he]
  · have h1 : UInt8.ofNat cp < 0x80 := by
      rw [UInt8.lt_iff_toNat_lt, UInt8.toNat_ofNat']
      show cp % 256 < 128
      omega
    simp [utf8Len, h1]
  · obtain ⟨hm, hp⟩ := lead_two b
    have h1 : ¬ b < 0x80 := by rw [UInt8.lt_iff_toNat_lt]; show ¬ b.toNat < 128; omega
    show utf8Len (b :: t :: s) = 2
    rw [utf8Len, if_neg h1, if_pos (hm.mpr hb), hp hb.1 hb.2]
    refine utf8Finish_eq (by simp) (r := cp) ?_ hlo h
    rw [show 2 - 1 = 0 + 1 from rfl, utf8Tail_cons ht.1 ht.2, utf8Tail, hcp]
  · obtain ⟨hm, hp⟩ := lead_three b
    have h1 : ¬ b < 0x80 := by rw [UInt8.lt_iff_toNat_lt]; show ¬ b.toNat < 128; omega
    have h2 : ¬ b &&& 0xE0 = 0xC0 := fun hc => by have := (lead_two b).1.mp hc; omega
    show utf8Len (b :: t :: u :: s) = 3
    rw [utf8Len, if_neg h1, if_neg h2, if_pos (hm.mpr hb), hp hb.1 hb.2]
    refine utf8Finish_eq (by simp) (r := cp) ?_ hlo h
    rw [show 3 - 1 = 0 + 1 + 1 from rfl, utf8Tail_cons ht.1 ht.2, utf8Tail_cons hu.1 hu.2,
      utf8Tail, hcp]
  · obtain ⟨hm, hp⟩ := lead_four b
    have h1 : ¬ b < 0x80 := by rw [UInt8.lt_iff_toNat_lt]; show ¬ b.toNat < 128; omega
    have h2 : ¬ b &&& 0xE0 = 0xC0 := fun hc => by have := (lead_two b).1.mp hc; omega
    have h3 : ¬ b &&& 0xF0 = 0xE0 := fun hc => by have := (lead_three b).1.mp hc; omega
    show utf8Len (b :: t :: u :: w :: s) = 4
    rw [utf8Len, if_neg h1, if_neg h2, if_neg h3, if_pos (hm.mpr hb), hp hb.1 hb.2]
    refine utf8Finish_eq (by simp) (r := cp) ?_ hlo h
    rw [show 4 - 1 = 0 + 1 + 1 + 1 from rfl, utf8Tail_cons ht.1 ht.2, utf8Tail_cons hu.1 hu.2,
      utf8Tail_cons hw.1 hw.2, utf8Tail, hcp]

/-- **Soundness**: a positive answer is the length of an encoded scalar value that the bytes
    start with. -/
theorem exists_of_utf8Len {s : Bytes} (h : utf8Len s ≠ 0) :
    ∃ cp t, Utf8.IsScalar cp ∧ s = Utf8.encode cp ++ t ∧
      utf8Len s = (Utf8.encode cp).length := by
  cases s with
  | nil => exact absurd rfl h
  | cons c0 rest =>
    -- any code point `cp` and bytes `t` that make up the input settle the claim
    suffices hex : ∃ cp t, Utf8.IsScalar cp ∧ c0 :: rest = Utf8.encode cp ++ t by
      obtain ⟨cp, t, hs, he⟩ := hex
      exact ⟨cp, t, hs, he, by rw [he, utf8Len_encode hs]⟩
    rw [utf8Len] at h
    split_ifs at h with h1 h2 h3 h4
    · have hlt : c0.toNat < 128 := UInt8.lt_iff_toNat_lt.mp h1
      exact ⟨c0.toNat, rest, Or.inl (by omega), by rw [Utf8.encode_one hlt]; rfl⟩
    · obtain ⟨hb, hb'⟩ := (lead_two c0).1.mp h2
      rw [(lead_two c0).2 hb hb'] at h
      obtain ⟨-, cp, ht, hlo, hs⟩ := exists_of_utf8Finish h
      obtain ⟨t, r, rfl, h5, h6, ht⟩ := exists_of_utf8Tail ht
      rw [utf8Tail, Option.some.injEq] at ht
      exact ⟨cp, r, hs, by rw [Utf8.encode_two hb hb' h5 h6 ht.symm hlo]; rfl⟩
    · obtain ⟨hb, hb'⟩ := (lead_three c0).1.mp h3
      rw [(lead_three c0).2 hb hb'] at h
      obtain ⟨-, cp, ht, hlo, hs⟩ := exists_of_utf8Finish h
      obtain ⟨t, r, rfl, h5, h6, ht⟩ := exists_of_utf8Tail ht
      obtain ⟨u, r, rfl, h7, h8, ht⟩ := exists_of_utf8Tail ht
      rw [utf8Tail, Option.some.injEq] at ht
      exact ⟨cp, r, hs, by rw [Utf8.encode_three hb hb' h5 h6 h7 h8 ht.symm hlo]; rfl⟩
    · obtain ⟨hb, hb'⟩ := (lead_four c0).1.mp h4
      rw [(lead_four c0).2 hb hb'] at h
      obtain ⟨-, cp, ht, hlo, hs⟩ := exists_of_utf8Finish h
      obtain ⟨t, r, rfl, h5, h6, ht⟩ := exists_of_utf8Tail ht
      obtain ⟨u, r, rfl, h7, h8, ht⟩ := exists_of_utf8Tail ht
      obtain ⟨w, r, rfl, h9, h10, ht⟩ := exists_of_utf8Tail ht
      rw [utf8Tail, Option.some.injEq] at ht
      exact ⟨cp, r, hs, by rw [Utf8.encode_four hb hb' h5 h6 h7 h8 h9 h10 ht.symm hlo]; rfl⟩
    · exact absurd rfl h

end ByteDance
