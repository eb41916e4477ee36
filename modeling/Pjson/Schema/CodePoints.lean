/-
  Three UTF-8 validators and the code-point length.

  `pjsonImpl::_utf8Len`, the copy in the schema code and the lead byte with `consumeUtf8Tail` of the
  SAX parser accept the sequences of the Unicode table and no others.  On text, the length that
  `minLength` and `maxLength` compare is then the number of scalar values; a string that the
  parsers decode or the serializer escapes is text.
-/
import Pjson.Schema.Keeping
import Pjson.Serialize.Escape

namespace ByteDance

open Run Utf8

/-- A well-formed sequence of `n` bytes starts at a position. -/
def SequenceAt (src : Bytes) (pos n : Nat) : Prop :=
  ∃ q rest, src.drop pos = q ++ rest ∧ q.length = n ∧ Sequence q

theorem utf8Len_iff {src : Bytes} {pos n : Nat} (hn : 0 < n) :
    utf8Len (src.drop pos) = n ↔ SequenceAt src pos n := by
  constructor
  · rintro rfl
    obtain ⟨cp, t, hs, he, hlen⟩ := exists_of_utf8Len (Nat.pos_iff_ne_zero.mp hn)
    exact ⟨encode cp, t, he, hlen.symm, sequence_iff.mpr ⟨cp, hs, rfl⟩⟩
  · rintro ⟨q, rest, he, rfl, hq⟩
    obtain ⟨cp, hs, rfl⟩ := sequence_iff.mp hq
    rw [he, utf8Len_encode hs]

/-! ## The SAX parser -/

namespace Sax

variable {κ : Type} [SaxCursor κ] (p : SaxParser)

/-- The end of `decodeChar`: a byte that is no escape and no control character, with the bytes that
    belong to it. -/
def rawChar (ch : UInt8) : SaxM κ Bytes := do
  if 0x80 ≤ ch then
    let tail ← consumeUtf8Tail p ch
    return ch :: tail
  else return [ch]

/-- The lead byte, as `parseStringRaw` consumes it, and its tail. -/
def sequence : SaxM κ Bytes := do
  let lead ← getCharOr p "unterminated string"
  rawChar p lead

variable {p} [LawfulSaxCursor κ] {s s' : SaxState κ}

theorem rawChar_does {lead : UInt8} {bs rest : Bytes} (hs : s.Ready p) (hr : s.rest = bs ++ rest)
    (h : utf8Len (lead :: bs) = bs.length + 1) :
    Does p (rawChar p lead) s bs 0 [] (lead :: bs) := by
  unfold rawChar
  by_cases hhi : 0x80 ≤ lead
  · rw [if_pos hhi]
    exact (consumeUtf8Tail_does (UInt8.not_lt.mpr hhi) hs hr h).last fun d => Does.pure d _
  · -- a byte of the ASCII range has no tail
    rw [utf8Len, if_pos (UInt8.not_le.mp hhi)] at h
    obtain rfl := List.length_eq_zero_iff.mp (show bs.length = 0 by omega)
    rw [if_neg hhi]
    exact Does.pure s _

theorem rawChar_sound {lead : UInt8} {b : Bytes} (hg : s.Good) (h : Ok (rawChar p lead) s b s') :
    ∃ bs, b = lead :: bs ∧ utf8Len (lead :: bs) = bs.length + 1 ∧ s.Moved p bs 0 [] s' := by
  unfold rawChar at h
  by_cases hhi : 0x80 ≤ lead
  · rw [if_pos hhi] at h
    obtain ⟨bs, d, hd, h⟩ := ok_bind.mp h
    obtain ⟨rfl, rfl⟩ := ok_pure.mp h
    obtain ⟨hlen, hm⟩ := consumeUtf8Tail_sound (UInt8.not_lt.mpr hhi) hg hd
    exact ⟨bs, rfl, hlen, hm⟩
  · rw [if_neg hhi] at h
    obtain ⟨rfl, rfl⟩ := ok_pure.mp h
    exact ⟨[], rfl, by rw [utf8Len, if_pos (UInt8.not_le.mp hhi)]; rfl, .refl s'⟩

/-- **The sequences the SAX parser accepts**, and what it consumes of them. -/
theorem sequence_iff (hlimit : p.opts.maxInputBytes = 0) (hg : s.Good) {src : Bytes} {pos n : Nat}
    (hn : 0 < n) (hr : s.rest = src.drop pos) :
    (∃ b s', Ok (sequence p) s b s' ∧ s'.position = s.position + n) ↔ SequenceAt src pos n := by
  have hready : s.Ready p := ⟨hg, Or.inl hlimit⟩
  constructor
  · rintro ⟨b, s', h, hpos⟩
    obtain ⟨lead, d, hl, h⟩ := ok_bind.mp h
    have hm := getCharOr_sound hg hl
    obtain ⟨bs, rfl, hlen, hm'⟩ := rawChar_sound (hm.good hg) h
    have hall := hm.trans hm'
    have hcount := hall.position
    rw [hpos] at hcount
    refine ⟨lead :: bs, s'.rest, hr ▸ hall.rest, by simpa using hcount.symm, ?_⟩
    rw [Utf8.sequence_iff]
    obtain ⟨cp, t, hs, he, ht⟩ := exists_of_utf8Len (s := lead :: bs) (by omega)
    -- the sequence is as long as what was read
    have hnil : t = [] := by
      have := congrArg List.length he
      rw [List.length_cons, List.length_append] at this
      exact List.length_eq_zero_iff.mp (by omega)
    exact ⟨cp, hs, by rw [he, hnil, List.append_nil]⟩
  · rintro ⟨q, rest, he, rfl, hq⟩
    obtain ⟨cp, hs, rfl⟩ := Utf8.sequence_iff.mp hq
    have hlen : utf8Len (encode cp ++ []) = (encode cp).length := utf8Len_encode hs []
    cases hc : encode cp with
    | nil => exact absurd hc (encode_ne_nil cp)
    | cons lead bs =>
      rw [hc, List.append_nil] at hlen
      rw [hc] at he
      rw [he] at hr
      have hdoes : Does p (sequence p) s (lead :: bs) 0 [] (lead :: bs) :=
        (getCharOr_does hready hr _).read fun d hm =>
          rawChar_does (hm.ready hready) (hm.rest_eq (t := [lead]) hr) hlen
      obtain ⟨s', h, hm⟩ := hdoes
      exact ⟨_, s', h, hm.position⟩

end Sax

/-! ## The code-point length -/

namespace Validate

/-- The rest of a character is skipped without a charge. -/
theorem unicodeLengthFrom_skip (scene : Scene) (count : Nat) (bs rest : Bytes) :
    unicodeLengthFrom scene bs.length count (bs ++ rest) = unicodeLengthFrom scene 0 count rest := by
  induction bs with
  | nil => rfl
  | cons b bs ih => exact ih

/-- A character is counted once, and paid for by its bytes. -/
theorem unicodeLengthFrom_encode (scene : Scene) (count : Nat) {cp : Nat} (h : IsScalar cp)
    (rest : Bytes) :
    unicodeLengthFrom scene 0 count (encode cp ++ rest) =
      (do charge scene (encode cp).length; unicodeLengthFrom scene 0 (count + 1) rest) := by
  have hlen := utf8Len_encode h rest
  cases hc : encode cp with
  | nil => exact absurd hc (encode_ne_nil cp)
  | cons b bs =>
    rw [hc, List.cons_append] at hlen
    rw [List.cons_append, unicodeLengthFrom, SchemaDetail.utf8Len_eq, hlen]
    have hmax : max 1 (b :: bs).length = (b :: bs).length := by
      rw [List.length_cons]
      omega
    rw [hmax]
    show (do charge scene (b :: bs).length
             unicodeLengthFrom scene bs.length (count + 1) (bs ++ rest)) = _
    rw [unicodeLengthFrom_skip]

theorem charge_run_of_le (scene : Scene) (amount : Nat) {o : Options} {r : Progress}
    (h : r.now.ctx.workUsed + amount ≤ validationWorkLimit o) :
    ∃ r', charge scene amount o r = .ok () r' ∧
      r'.now.ctx.workUsed = r.now.ctx.workUsed + amount := by
  have hroom : ¬ validationWorkLimit o - min r.now.ctx.workUsed (validationWorkLimit o) < amount := by
    omega
  have hrun := charge_run scene amount o r
  rw [Moment.charge, if_neg hroom] at hrun
  exact ⟨_, hrun, rfl⟩

/-- What the loop answers on text, and that it does answer within the work limit. -/
theorem unicodeLengthFrom_text (scene : Scene) (o : Options) {cps : List Nat}
    (h : ∀ cp ∈ cps, IsScalar cp) (count : Nat) (r : Progress) :
    (∀ n r', unicodeLengthFrom scene 0 count (cps.flatMap encode) o r = .ok n r' →
      n = count + cps.length) ∧
    (r.now.ctx.workUsed + (cps.flatMap encode).length ≤ validationWorkLimit o →
      ∃ r', unicodeLengthFrom scene 0 count (cps.flatMap encode) o r =
        .ok (count + cps.length) r') := by
  induction cps generalizing count r with
  | nil =>
    refine ⟨fun n r' hrun => ?_, fun _ => ⟨r, rfl⟩⟩
    cases hrun
    rfl
  | cons cp cps ih =>
    rw [List.forall_mem_cons] at h
    rw [List.flatMap_cons, unicodeLengthFrom_encode scene count h.1, List.length_append,
      List.length_cons]
    constructor
    · intro n r' hrun
      obtain ⟨_, u, -, hrest⟩ := parts_of_bind hrun
      have := (ih h.2 (count + 1) u).1 n r' hrest
      omega
    · intro hroom
      obtain ⟨u, hpaid, hused⟩ := charge_run_of_le scene (encode cp).length
        (show r.now.ctx.workUsed + (encode cp).length ≤ validationWorkLimit o by omega)
      obtain ⟨r', hrun⟩ := (ih h.2 (count + 1) u).2 (by omega)
      refine ⟨r', ?_⟩
      rw [bind_run_ok hpaid, hrun]
      congr 1
      omega

end Validate

/-! ## Agreement -/

/-- What the decoders of the parsers return, and what the serializer can escape. -/
inductive Handled (κ : Type) [SaxCursor κ] [LawfulSaxCursor κ] : Bytes → Prop where
  | dom {s : Bytes} {c c' : ParseCtx} : Ok Dom.extractString c s c' → Handled κ s
  | sax {s : Bytes} {p : SaxParser} {st st' : SaxState κ} : st.Good →
      Ok (Sax.parseStringRaw p) st s st' → Handled κ s
  | serializer {s t : Bytes} {bEscapeNonAscii : Bool} :
      Serialize.escaped bEscapeNonAscii s = some t → Handled κ s

variable {κ : Type} [SaxCursor κ] [LawfulSaxCursor κ]

theorem Handled.wellFormed {s : Bytes} (h : Handled κ s) : WellFormed s := by
  cases h with
  | dom h =>
    obtain ⟨t, hb, -⟩ := Dom.extractString_sound h
    exact hb.shape.2.2.2
  | sax hg h =>
    obtain ⟨t, hb, -⟩ := Sax.parseStringRaw_sound hg h
    exact hb.shape.2.2.2
  | serializer h => exact (Serialize.escaped_stringBody h).shape.2.2.2

/-- **The validators agree**, and the code-point length is the number of scalar values. -/
theorem utf8Validators_agree :
    (∀ (src : Bytes) (pos n : Nat), 0 < n →
      (utf8Len (src.drop pos) = n ↔ SequenceAt src pos n) ∧
      (SchemaDetail.utf8Len (src.drop pos) = n ↔ SequenceAt src pos n) ∧
      (∀ (p : SaxParser) (st : SaxState κ), p.opts.maxInputBytes = 0 → st.Good →
        st.rest = src.drop pos →
        ((∃ b st', Ok (Sax.sequence p) st b st' ∧ st'.position = st.position + n) ↔
          SequenceAt src pos n))) ∧
    (∀ s, Handled κ s → ∃ cps : List Nat, (∀ cp ∈ cps, IsScalar cp) ∧ s = cps.flatMap encode ∧
      ∀ (scene : Scene) (o : Options) (r : Progress),
        (∀ n r', Validate.unicodeLength scene s o r = .ok n r' → n = cps.length) ∧
        (r.now.ctx.workUsed + s.length ≤ validationWorkLimit o →
          ∃ r', Validate.unicodeLength scene s o r = .ok cps.length r')) := by
  constructor
  · intro src pos n hn
    refine ⟨utf8Len_iff hn, ?_, fun p st hlimit hg hr => Sax.sequence_iff hlimit hg hn hr⟩
    rw [SchemaDetail.utf8Len_eq]
    exact utf8Len_iff hn
  · intro s hs
    obtain ⟨cps, hcps, rfl⟩ := wellFormed_iff.mp hs.wellFormed
    refine ⟨cps, hcps, rfl, fun scene o r => ?_⟩
    have h := Validate.unicodeLengthFrom_text scene o hcps 0 r
    rwa [Nat.zero_add] at h

end ByteDance
