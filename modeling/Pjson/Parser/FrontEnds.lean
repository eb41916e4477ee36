/-
  The four front ends of the parser agree.

  `parse` and `parseStream` build a tree, `parseSax` and `parseSaxStream` deliver events; two read a
  buffer and two a stream that may hand out its bytes in any pieces.  All four have the language of
  `parse_ok_iff`, and the events of the latter two build the tree of the former.
-/
import Pjson.Parser.SaxLanguage

namespace ByteDance

/-- A SAX parse against the DOM parse of the same bytes: the same verdict, and on acceptance a clean
    error record and events that build the tree. -/
structure Sax.Outcome.Agrees (o : Sax.Outcome) (dom : Pjson × ParseError) : Prop where
  ok : o.ok = dom.2.ok
  error : o.ok = true → o.error = {}
  replay : o.ok = true → ByteDance.replay o.events = some dom.1

/-- A SAX parse that accepts the texts of the grammar within the limits, and only these, agrees with
    the DOM parser. -/
theorem Sax.agrees_of_language {lib : NumericLibrary} {opts : ParserOptions} {src : Bytes}
    {o : Sax.Outcome} (hsound : o.ok = true → ∃ v, o.Accepts lib opts src v)
    (hcomplete : ∀ x v, JsonText x src → opts.Admits x src →
      x.denote (fun t => t.convert lib opts.numberPolicy) opts.duplicateKeys = some v →
      o.ok = true) : o.Agrees (parse lib opts src) := by
  have hdom : o.ok = true → o.error = {} ∧ (parse lib opts src).2.ok = true ∧
      replay o.events = some (parse lib opts src).1 := by
    intro hok
    obtain ⟨v, hacc⟩ := hsound hok
    obtain ⟨x, hx, hadm, hden, hevents⟩ := hacc.events
    obtain ⟨h₁, h₂⟩ := (parse_ok_iff lib opts src _).mpr ⟨x, hx, hadm, hden⟩
    refine ⟨hacc.error, h₁, ?_⟩
    rw [hevents, replay_events hden, h₂]
  refine ⟨?_, fun hok => (hdom hok).1, fun hok => (hdom hok).2.2⟩
  rw [Bool.eq_iff_iff]
  constructor
  · exact fun hok => (hdom hok).2.1
  · intro hok
    obtain ⟨x, hx, hadm, hden⟩ := (parse_ok_iff lib opts src _).mp ⟨hok, rfl⟩
    exact hcomplete x _ hx hadm hden

theorem parseSax_agrees (lib : NumericLibrary) (opts : ParserOptions) {handler : SaxHandler}
    (hh : handler.Accepting) (src : Bytes) :
    (parseSax lib opts handler src).Agrees (parse lib opts src) := by
  unfold parseSax
  by_cases hsize : opts.maxInputBytes ≠ 0 ∧ src.length > opts.maxInputBytes
  · -- the size is checked before the first byte
    rw [if_pos hsize]
    refine Sax.agrees_of_language (fun h => by cases h) fun x v _ hadm _ => ?_
    have := hadm.bytes
    omega
  · rw [if_neg hsize]
    have hg : LawfulSaxCursor.Good ({ rest := src } : BufferSaxCursor) := trivial
    obtain ⟨h₁, h₂⟩ := Sax.parseDocument_ok_iff hh hg rfl
    exact Sax.agrees_of_language h₁ h₂

theorem parseSaxStream_agrees (lib : NumericLibrary) (opts : ParserOptions)
    {handler : SaxHandler} (hh : handler.Accepting) {src : Bytes} {aIn : IStream}
    (h : aIn.Reliable src) :
    (parseSaxStream lib opts handler aIn).Agrees (parse lib opts src) := by
  have hbad : aIn.badbit = false := by
    have hgood := h.good
    simp only [IStream.good, Bool.and_eq_true, Bool.not_eq_true'] at hgood
    exact hgood.2
  have hg : LawfulSaxCursor.Good
      ({ rdbuf := aIn.rdbuf, bad := aIn.badbit } : StreamSaxCursor) :=
    ⟨h.throws, hbad, rfl, fun he => by cases he⟩
  obtain ⟨h₁, h₂⟩ := Sax.parseDocument_ok_iff hh hg rfl
  have hrest : LawfulSaxCursor.rest
      ({ rdbuf := aIn.rdbuf, bad := aIn.badbit } : StreamSaxCursor) = src := h.content
  rw [hrest] at h₁ h₂
  exact Sax.agrees_of_language h₁ h₂

/-- **All four front ends agree** on every document, however a stream delivers its bytes. -/
theorem frontEnds_agree (lib : NumericLibrary) (opts : ParserOptions) (handler : SaxHandler)
    (hh : handler.Accepting) (src : Bytes) (aIn : IStream) (h : aIn.Reliable src) :
    ((parseStream lib opts aIn).1 = (parse lib opts src).1 ∧
        (parseStream lib opts aIn).2.ok = (parse lib opts src).2.ok) ∧
      (parseSax lib opts handler src).Agrees (parse lib opts src) ∧
      (parseSaxStream lib opts handler aIn).Agrees (parse lib opts src) := by
  obtain ⟨h₁, h₂, -⟩ := parseStream_eq lib opts h
  exact ⟨⟨h₁, h₂⟩, parseSax_agrees lib opts hh src, parseSaxStream_agrees lib opts hh h⟩

/-- The two bytes `[` and `]`, the second one in a get area of its own. -/
def splitBrackets : IStream where
  rdbuf := { area := [0x5B], refills := [⟨[0x5D], by decide⟩], throws := false }

theorem frontEnds_agree_splitBrackets : SaxHandler.Accepting (fun _ => .returned true) ∧
    splitBrackets.Reliable [0x5B, 0x5D] ∧
    (parseSaxStream ⟨fun _ _ => false⟩ {} (fun _ => .returned true) splitBrackets).Agrees
      (parse ⟨fun _ _ => false⟩ {} [0x5B, 0x5D]) :=
  have hh : SaxHandler.Accepting (fun _ => .returned true) := fun _ => rfl
  have hs : splitBrackets.Reliable [0x5B, 0x5D] := ⟨rfl, rfl, rfl⟩
  ⟨hh, hs, (frontEnds_agree _ _ _ hh _ _ hs).2.2⟩

end ByteDance
