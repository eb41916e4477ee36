/-
  Escaping strings and reading them back.

  `_writeEscapedTo` has a text for exactly the well-formed strings.  The text is a string token
  between its quotes, so that what the grammar says of tokens holds of it, and both decoders read
  the string back and stop behind its closing quote (`escaping_inverted`).
-/
import Pjson.Grammar.Strings
import Pjson.Parser.SaxSpec
import Pjson.Serialize.Text

namespace ByteDance

open Run Utf8 Dom

namespace Serialize

theorem hex_ascii : ∀ n : Fin 16, (hex n).toNat < 0x80 := by decide +kernel

theorem hex_mask_ascii (n : Nat) : (hex (n &&& 0x0F)).toNat < 0x80 := by
  have h : n &&& 0x0F < 16 := lt_of_le_of_lt Nat.and_le_right (by decide)
  exact hex_ascii ⟨n &&& 0x0F, h⟩

theorem unicodeEscape_ascii (value : Nat) : ∀ b ∈ unicodeEscape value, b.toNat < 0x80 := by
  intro b hb
  simp only [unicodeEscape, List.mem_cons, List.not_mem_nil, or_false] at hb
  rcases hb with rfl | rfl | rfl | rfl | rfl | rfl
  · decide
  · decide
  all_goals exact hex_mask_ascii _

theorem shortEscape_ascii {ch : UInt8} {escape : Bytes} (h : shortEscape ch = some escape) :
    ∀ b ∈ escape, b.toNat < 0x80 := by
  unfold shortEscape at h
  split_ifs at h <;> simp only [Option.some.injEq] at h <;> subst h <;> simp

/-- With `escapeNonAscii` the text is ASCII. -/
theorem escaped_ascii {bEscapeNonAscii : Bool} {s t : Bytes} (hopt : bEscapeNonAscii = true)
    (h : escaped bEscapeNonAscii s = some t) : ∀ b ∈ t, b.toNat < 0x80 := by
  fun_induction escaped bEscapeNonAscii s generalizing t with
  | case1 =>
    cases h
    simp
  | case2 ch rest escape hesc ih =>
    obtain ⟨a, b, ha, hb, rfl⟩ := Option.cat_eq_some.mp h
    cases ha
    exact List.forall_mem_append.mpr ⟨shortEscape_ascii hesc, ih hb⟩
  | case3 ch rest hesc h20 ih =>
    obtain ⟨a, b, ha, hb, rfl⟩ := Option.cat_eq_some.mp h
    cases ha
    exact List.forall_mem_append.mpr ⟨unicodeEscape_ascii _, ih hb⟩
  | case4 ch rest hesc h20 h80 ih =>
    obtain ⟨a, b, ha, hb, rfl⟩ := Option.cat_eq_some.mp h
    cases ha
    refine List.forall_mem_append.mpr ⟨?_, ih hb⟩
    simpa using UInt8.lt_iff_toNat_lt.mp h80
  | case5 => cases h
  | case6 ch rest hesc h20 h80 byteCount next h0 hascii =>
    rw [hopt] at hascii
    cases hascii
  | case7 ch rest hesc h20 h80 byteCount next h0 hascii codePoint hbmp =>
    rename_i ih
    obtain ⟨a, b, ha, hb, rfl⟩ := Option.cat_eq_some.mp h
    cases ha
    exact List.forall_mem_append.mpr ⟨unicodeEscape_ascii _, ih hb⟩
  | case8 ch rest hesc h20 h80 byteCount next h0 hascii codePoint hbmp =>
    rename_i ih
    obtain ⟨a, b, ha, hcat, rfl⟩ := Option.cat_eq_some.mp h
    obtain ⟨a', b', ha', hb, rfl⟩ := Option.cat_eq_some.mp hcat
    cases ha
    cases ha'
    exact List.forall_mem_append.mpr ⟨unicodeEscape_ascii _,
      List.forall_mem_append.mpr ⟨unicodeEscape_ascii _, ih hb⟩⟩

/-- **Escaping is total on text, safe, and inverted by both decoders.** -/
theorem escaping_inverted {σ κ : Type} [Sink σ] (D : LawfulSink σ) [SaxCursor κ] [LawfulSaxCursor κ]
    (bEscapeNonAscii : Bool) (s : Bytes) :
    (¬ WellFormed s → ∀ out : σ,
      D.Failed (· = false) out ((writeEscapedTo bEscapeNonAscii s : SinkM σ Bool).run out)) ∧
    (WellFormed s → ∃ t : Bytes,
      (∀ out : σ, D.good out = true → D.fits out t.length →
        (writeEscapedTo bEscapeNonAscii s : SinkM σ Bool).run out = .ok true (D.advance out t)) ∧
      (∀ b ∈ t, 0x20 ≤ b.toNat) ∧ quotesEscaped false t = true ∧ WellFormed t ∧
      (bEscapeNonAscii = true → ∀ b ∈ t, b.toNat ≤ 0x7F) ∧
      (∀ (c : ParseCtx) (rest : Bytes), c.rest = t ++ 0x22 :: rest →
        ∃ c', Ok (decodeStringBody true (c.rest.length + 1) []) c s c' ∧ c'.rest = rest ∧
          c'.pos = c.pos + t.length + 1) ∧
      (∀ (p : SaxParser) (st : SaxState κ) (rest : Bytes), st.Ready p →
        st.rest = 0x22 :: (t ++ 0x22 :: rest) →
        ∃ st', Ok (Sax.parseStringRaw p) st s st' ∧ st'.rest = rest ∧
          st'.position = st.position + t.length + 2)) := by
  have hemits := writeEscapedTo_emits D bEscapeNonAscii s
  constructor
  · intro hno out
    apply hemits.failed
    refine Or.inr fun bs hbs => absurd ?_ hno
    rw [← escaped_isSome_iff bEscapeNonAscii, hbs]
    rfl
  · intro hw
    obtain ⟨t, ht⟩ := Option.isSome_iff_exists.mp ((escaped_isSome_iff bEscapeNonAscii s).mpr hw)
    -- What is written is a string body of the grammar: both decoders are complete for those.
    have hbody := escaped_stringBody ht
    obtain ⟨hprintable, hquotes, htext, -⟩ := hbody.shape
    refine ⟨t, fun out => hemits.done out t ht, hprintable, hquotes, htext, ?_, ?_, ?_⟩
    · intro hopt b hb
      have := escaped_ascii hopt ht b hb
      omega
    · intro c rest hr
      obtain ⟨c', h, hm⟩ := decodeStringBody_complete (c.rest.length + 1) [] hbody hr
        (by rw [hr, List.length_append]; omega)
      refine ⟨c', h, hm.rest_eq (by rw [hr]; simp), ?_⟩
      rw [hm.eq]
      simp
      omega
    · intro p st rest hs hr
      obtain ⟨st', h, hm⟩ := Sax.parseStringRaw_does hs hbody hr
      refine ⟨st', h, hm.rest_eq (by rw [hr]; simp), ?_⟩
      rw [hm.position]
      simp
      omega

end Serialize

end ByteDance
