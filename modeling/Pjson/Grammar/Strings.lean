/-
  What a string token is made of.

  Between its quotes a token has no control character, and no quote but behind a backslash of its
  own; both the token and the string it denotes are well-formed UTF-8.
-/
import Pjson.Grammar.Syntax

namespace ByteDance

open Utf8

/-- Every quote stands behind a backslash of its own, and no backslash is the last byte.  `behind`
    says whether a backslash came before. -/
def quotesEscaped : (behind : Bool) → Bytes → Bool
  | behind, [] => !behind
  | true, _ :: rest => quotesEscaped false rest
  | false, b :: rest => if b = 0x5C then quotesEscaped true rest else b != 0x22 && quotesEscaped false rest

/-- A printable byte that is neither a quote nor a backslash. -/
def Plain (b : UInt8) : Prop := 0x20 ≤ b.toNat ∧ b ≠ 0x5C ∧ b ≠ 0x22

/-- Plain bytes do not count. -/
theorem quotesEscaped_append {t : Bytes} (h : ∀ b ∈ t, Plain b) (rest : Bytes) :
    quotesEscaped false (t ++ rest) = quotesEscaped false rest := by
  induction t with
  | nil => rfl
  | cons b t ih =>
    rw [List.forall_mem_cons] at h
    rw [List.cons_append, quotesEscaped, if_neg h.1.2.1, bne_iff_ne.mpr h.1.2.2, Bool.true_and,
      ih h.2]

/-- An escape is a backslash, the byte behind it and plain bytes. -/
theorem quotesEscaped_escape (e : UInt8) {t : Bytes} (h : ∀ b ∈ t, Plain b) (rest : Bytes) :
    quotesEscaped false (0x5C :: e :: t ++ rest) = quotesEscaped false rest := by
  show quotesEscaped false (t ++ rest) = _
  exact quotesEscaped_append h rest

/-! ## The bytes of a character -/

theorem hexVal_plain : ∀ b : UInt8, (hexVal b).isSome →
    (0x20 ≤ b.toNat ∧ b ≠ 0x5C ∧ b ≠ 0x22) ∧ b.toNat < 0x80 := by decide +kernel

theorem hexQuad_plain {q : Bytes} {u : Nat} (h : HexQuad q u) :
    ∀ b ∈ q, Plain b ∧ b.toNat < 0x80 := by
  obtain ⟨a, b, c, d, va, vb, vc, vd, rfl, ha, hb, hc, hd, -⟩ := h
  intro x hx
  simp only [List.mem_cons, List.not_mem_nil, or_false] at hx
  apply hexVal_plain
  rcases hx with rfl | rfl | rfl | rfl
  · rw [ha]; rfl
  · rw [hb]; rfl
  · rw [hc]; rfl
  · rw [hd]; rfl

theorem simpleEscape_ascii : ∀ e : UInt8, (simpleEscape e).isSome →
    0x20 ≤ e.toNat ∧ e.toNat < 0x80 ∧ ∀ d, simpleEscape e = some d → d.toNat < 0x80 := by
  decide +kernel

/-- An unescaped character is made of plain bytes. -/
theorem encode_plain {cp : Nat} (h : IsScalar cp) (hctl : 0x20 ≤ cp) (hq : cp ≠ 0x22)
    (hbs : cp ≠ 0x5C) : ∀ b ∈ encode cp, Plain b := by
  -- the bytes of a longer sequence are all above the ASCII range
  have hhigh : ∀ b : UInt8, 0x80 ≤ b.toNat → Plain b := by
    intro b hb
    refine ⟨by omega, ?_, ?_⟩ <;> rintro rfl <;> exact absurd hb (by decide)
  intro x hx
  rcases encode_cases h with ⟨hlt, he⟩ | ⟨b, t, he, hb, ht, -⟩ | ⟨b, t, u, he, hb, ht, hu, -⟩ |
    ⟨b, t, u, w, he, hb, ht, hu, hw, -⟩ <;> rw [he] at hx <;>
    simp only [List.mem_cons, List.not_mem_nil, or_false] at hx
  · have hnat : x.toNat = cp := by rw [hx, UInt8.toNat_ofNat']; omega
    refine ⟨by omega, ?_, ?_⟩ <;> rintro rfl
    · exact hbs hnat.symm
    · exact hq hnat.symm
  · rcases hx with rfl | rfl <;> exact hhigh _ (by omega)
  · rcases hx with rfl | rfl | rfl <;> exact hhigh _ (by omega)
  · rcases hx with rfl | rfl | rfl | rfl <;> exact hhigh _ (by omega)

/-- Bytes of the ASCII range are well formed. -/
theorem wellFormed_ascii {t : Bytes} (h : ∀ b ∈ t, b.toNat < 0x80) : WellFormed t := by
  induction t with
  | nil => exact WellFormed.nil
  | cons b t ih =>
    rw [List.forall_mem_cons] at h
    exact WellFormed.ascii_cons h.1 (ih h.2)

/-- What a character of a token looks like. -/
theorem StringChar.shape {t s : Bytes} (h : StringChar t s) :
    (∀ b ∈ t, 0x20 ≤ b.toNat) ∧
      (∀ rest, quotesEscaped false (t ++ rest) = quotesEscaped false rest) ∧
      WellFormed t ∧ WellFormed s := by
  have hback : (0x5C : UInt8).toNat < 0x80 ∧ (0x75 : UInt8).toNat < 0x80 := by decide
  cases h with
  | raw hs hctl hq hbs =>
    have hplain := encode_plain hs hctl hq hbs
    exact ⟨fun b hb => (hplain b hb).1, quotesEscaped_append hplain, .singleton hs, .singleton hs⟩
  | @escape e d he =>
    obtain ⟨h₁, h₂, h₃⟩ := simpleEscape_ascii e (by rw [he]; rfl)
    refine ⟨?_, quotesEscaped_escape e (by simp), .ascii_cons hback.1 (.ascii h₂),
      .ascii (h₃ d he)⟩
    simp [h₁]
  | @unicode q cp hq hs =>
    have hplain := hexQuad_plain hq
    refine ⟨?_, quotesEscaped_escape 0x75 fun b hb => (hplain b hb).1,
      .ascii_cons hback.1 (.ascii_cons hback.2 (wellFormed_ascii fun b hb => (hplain b hb).2)),
      .singleton hs⟩
    simp only [List.forall_mem_cons]
    exact ⟨by decide, by decide, fun b hb => (hplain b hb).1.1⟩
  | @surrogates q r hi lo hq hr h₁ h₂ h₃ h₄ =>
    have hq' := hexQuad_plain hq
    have hr' := hexQuad_plain hr
    have hsecond : WellFormed (0x5C :: 0x75 :: r) :=
      .ascii_cons hback.1 (.ascii_cons hback.2 (wellFormed_ascii fun b hb => (hr' b hb).2))
    refine ⟨?_, fun rest => ?_, ?_, .singleton ?_⟩
    · simp only [List.forall_mem_cons, List.forall_mem_append]
      exact ⟨by decide, by decide, fun b hb => (hq' b hb).1.1, by decide, by decide,
        fun b hb => (hr' b hb).1.1⟩
    · have hfirst := quotesEscaped_escape 0x75 (fun b hb => (hq' b hb).1)
        (0x5C :: 0x75 :: r ++ rest)
      have hthen := quotesEscaped_escape 0x75 (fun b hb => (hr' b hb).1) rest
      rw [← hthen, ← hfirst]
      simp
    · exact .ascii_cons hback.1 (.ascii_cons hback.2
        ((wellFormed_ascii fun b hb => (hq' b hb).2).append hsecond))
    · unfold surrogatePair IsScalar
      omega

/-- **What a string token looks like**, and that it denotes text. -/
theorem StringBody.shape {t s : Bytes} (h : StringBody t s) :
    (∀ b ∈ t, 0x20 ≤ b.toNat) ∧ quotesEscaped false t = true ∧ WellFormed t ∧ WellFormed s := by
  induction h with
  | nil => exact ⟨by simp, rfl, .nil, .nil⟩
  | cons hc _ ih =>
    obtain ⟨h₁, h₂, h₃, h₄⟩ := hc.shape
    obtain ⟨i₁, i₂, i₃, i₄⟩ := ih
    exact ⟨List.forall_mem_append.mpr ⟨h₁, i₁⟩, by rw [h₂, i₂], h₃.append i₃, h₄.append i₄⟩

end ByteDance
