/-
  The contract of the two event front ends.

  `EventContract run opts handler` is about a front end `run` on one input: what it delivers is the
  beginning of a well-nested document whatever happens; what it does not deliver of the input are the
  repeated members that `KeepFirstDuplicate` drops; and a handler can end the parse, but not change
  its course.

  `sax_eventContract`: `parseSax` meets it on every byte string, and `parseSaxStream` on every
  stream, whether or not the stream fails.
-/
import Pjson.Parser.SaxNesting

namespace ByteDance

/-- The handler that accepts everything. -/
def acceptAll : SaxHandler := fun _ => .returned true

/-- The same options, but the last of repeated names wins. -/
def ParserOptions.keepLast (opts : ParserOptions) : ParserOptions :=
  { opts with duplicateKeys := .KeepLastDuplicate }

/-- What a front end owes its handler on an input. -/
structure EventContract (run : ParserOptions → SaxHandler → Sax.Outcome) (opts : ParserOptions)
    (handler : SaxHandler) : Prop where
  /-- The events are the first ones of a document, and all of them on success; unless the last of
      repeated names is to win, no object of it repeats a name. -/
  nested : ∃ v : Pjson, (opts.duplicateKeys ≠ .KeepLastDuplicate → v.WF) ∧
    (run opts handler).events <+: v.events ∧
    ((run opts handler).ok = true → (run opts handler).events = v.events)
  /-- Under `KeepFirstDuplicate` the input has the events of some document up to somewhere, as the
      run in which nothing is dropped shows; the events of dropped members are left out, and nothing
      else. -/
  suppressed : opts.duplicateKeys = .KeepFirstDuplicate → ∃ (v : Pjson) (ms : List MarkedEvent),
    ms <+: v.marked true true ∧ (run opts.keepLast acceptAll).events = allEvents ms ∧
    (run opts acceptAll).events = toldEvents ms ∧
    (run opts acceptAll).ok = (run opts.keepLast acceptAll).ok
  /-- Whatever the handler does, it sees the first events of the run with one that accepts
      everything, and nothing else ends differently unless it interferes. -/
  course : (run opts handler).events <+: (run opts acceptAll).events
  /-- A handler that accepts what it is told changes nothing. -/
  undisturbed : handler.Accepts [] (run opts acceptAll).events →
    run opts handler = run opts acceptAll
  /-- A handler that returns false at the `k`-th event ends the parse there. -/
  cancelled : ∀ k, 0 < k → k ≤ (run opts acceptAll).events.length →
    (∀ i, 0 < i → i < k → handler ((run opts acceptAll).events.take i) = .returned true) →
    handler ((run opts acceptAll).events.take k) = .returned false →
    (run opts handler).events = (run opts acceptAll).events.take k ∧
      (run opts handler).ok = false ∧ (run opts handler).error.code = .CallbackError

namespace Sax

variable {κ : Type} [SaxCursor κ]

theorem acceptAll_accepting : acceptAll.Accepting := fun _ => rfl

/-- The parser under the same options, with a handler that accepts everything. -/
theorem sameOptions_acceptAll (opts : ParserOptions) (handler : SaxHandler) :
    SameOptions ⟨handler, opts⟩ ⟨acceptAll, opts⟩ := ⟨⟨rfl, rfl, rfl, rfl⟩, rfl⟩

/-- Under a policy that keeps the first or the last of repeated names, the parser and the one that
    keeps the last are twins. -/
theorem twins_keepLast {opts : ParserOptions} (h : opts.duplicateKeys ≠ .RejectDuplicateKeys) :
    Twins ⟨acceptAll, opts⟩ ⟨acceptAll, opts.keepLast⟩ := by
  refine ⟨⟨rfl, rfl, rfl, rfl⟩, ?_, acceptAll_accepting, acceptAll_accepting⟩
  show DuplicateKeyPolicy.KeepLastDuplicate = if decide (opts.duplicateKeys = .KeepFirstDuplicate) then
    .KeepLastDuplicate else opts.duplicateKeys
  cases hp : opts.duplicateKeys
  · exact absurd hp h
  · rfl
  · rfl

/-- A parser that refuses repeated names is its own twin. -/
theorem twins_self {opts : ParserOptions} (h : opts.duplicateKeys = .RejectDuplicateKeys) :
    Twins ⟨acceptAll, opts⟩ ⟨acceptAll, opts⟩ := by
  refine ⟨sameLimits_refl _, ?_, acceptAll_accepting, acceptAll_accepting⟩
  show opts.duplicateKeys = if decide (opts.duplicateKeys = .KeepFirstDuplicate) then
    .KeepLastDuplicate else opts.duplicateKeys
  rw [h]
  rfl

/-- What a run with an accepting handler delivers. -/
theorem acceptAll_nested (lib : NumericLibrary) (opts : ParserOptions) (cur : κ) :
    ∃ v : Pjson, (opts.duplicateKeys ≠ .KeepLastDuplicate → v.WF) ∧
      (parseDocument ⟨acceptAll, opts⟩ lib cur).events <+: v.events ∧
      ((parseDocument ⟨acceptAll, opts⟩ lib cur).ok = true →
        (parseDocument ⟨acceptAll, opts⟩ lib cur).events = v.events) := by
  obtain ⟨q, htwins⟩ : ∃ q, Twins ⟨acceptAll, opts⟩ q := by
    by_cases h : opts.duplicateKeys = .RejectDuplicateKeys
    · exact ⟨_, twins_self h⟩
    · exact ⟨_, twins_keepLast h⟩
  obtain ⟨v, ms, hv, hpre, hevents, -, -, -, hall⟩ := parseDocument_twin htwins lib cur
  have htold := Pjson.toldEvents_marked (SaxParser.drops ⟨acceptAll, opts⟩) v true
  rw [if_pos rfl] at htold
  refine ⟨v.resolve (SaxParser.drops ⟨acceptAll, opts⟩), fun hne => ?_, ?_, fun hok => ?_⟩
  · cases hd : SaxParser.drops ⟨acceptAll, opts⟩ with
    | true => exact v.resolve_wf
    | false =>
      rw [v.resolve_false]
      refine hv ?_
      have hfirst : opts.duplicateKeys ≠ .KeepFirstDuplicate := of_decide_eq_false hd
      show opts.duplicateKeys = .RejectDuplicateKeys
      cases hp : opts.duplicateKeys
      · rfl
      · exact absurd hp hfirst
      · exact absurd hp hne
  · rw [hevents, ← htold]
    exact toldEvents_prefix hpre
  · rw [hevents, hall hok, htold]

theorem parseDocument_eventContract (lib : NumericLibrary) (opts : ParserOptions)
    (handler : SaxHandler) (cur : κ) :
    EventContract (fun opts handler => parseDocument ⟨handler, opts⟩ lib cur) opts handler := by
  have hcut := parseDocument_cut (sameOptions_acceptAll opts handler) acceptAll_accepting lib cur
  have hcourse : (parseDocument ⟨handler, opts⟩ lib cur).events <+:
      (parseDocument ⟨acceptAll, opts⟩ lib cur).events := by
    obtain ⟨-, heq⟩ | ⟨told, event, hpre, -, -, hevents, -⟩ := hcut
    · rw [heq]
    · rw [hevents]
      exact hpre
  refine ⟨?_, fun hfirst => ?_, hcourse, fun hacc => ?_, fun k hpos hk hbefore hat => ?_⟩
  · obtain ⟨v, hwf, hpre, hall⟩ := acceptAll_nested lib opts cur
    refine ⟨v, hwf, hcourse.trans hpre, fun hok => ?_⟩
    obtain ⟨-, heq⟩ | ⟨_, _, -, -, -, -, hok', -⟩ := hcut
    · rw [heq] at hok ⊢
      exact hall hok
    · rw [hok] at hok'
      cases hok'
  · obtain ⟨v, ms, -, hpre, htold, hall, hok, -, -⟩ :=
      parseDocument_twin (twins_keepLast (by rw [hfirst]; decide)) lib cur
    have hdrops : SaxParser.drops ⟨acceptAll, opts⟩ = true := decide_eq_true hfirst
    rw [hdrops] at hpre
    exact ⟨v, ms, hpre, hall, htold, hok.symm⟩
  · obtain ⟨-, heq⟩ | ⟨told, event, hpre, -, href, -⟩ := hcut
    · exact heq
    · exact absurd (hacc _ (by simp) hpre) href
  · have hne : (parseDocument ⟨acceptAll, opts⟩ lib cur).events.take k ≠ [] := by
      intro h
      have hlen := congrArg List.length h
      rw [List.length_take, List.length_nil] at hlen
      omega
    obtain ⟨hacc, -⟩ | ⟨told, event, hpre, hacc, href, hevents, hok, hcode⟩ := hcut
    · have htrue : handler ((parseDocument ⟨acceptAll, opts⟩ lib cur).events.take k) =
          .returned true := hacc _ hne (List.take_prefix _ _)
      rw [htrue] at hat
      cases hat
    · -- the event that was not accepted is the `k`-th one
      have htold : told ++ [event] = (parseDocument ⟨acceptAll, opts⟩ lib cur).events.take
          (told.length + 1) := by
        have := List.prefix_iff_eq_take.mp hpre
        rwa [List.length_append, List.length_singleton] at this
      have hlen := hpre.length_le
      rw [List.length_append, List.length_singleton] at hlen
      rcases Nat.lt_trichotomy k (told.length + 1) with hlt | rfl | hgt
      · have hprefix : (parseDocument ⟨acceptAll, opts⟩ lib cur).events.take k <+: told := by
          refine List.prefix_of_prefix_length_le (List.take_prefix _ _)
            ((List.prefix_append _ _).trans hpre) ?_
          rw [List.length_take]
          omega
        have htrue : handler ((parseDocument ⟨acceptAll, opts⟩ lib cur).events.take k) =
            .returned true := hacc _ hne hprefix
        rw [htrue] at hat
        cases hat
      · rw [← htold] at hat ⊢
        exact ⟨hevents, hok, by rw [hcode, if_neg]; show handler _ ≠ _; rw [hat]; simp⟩
      · exact absurd (by rw [htold]; exact hbefore _ (Nat.succ_pos _) hgt) href

end Sax

/-- A front end that refuses the input before it reads it tells the handler nothing. -/
theorem eventContract_refused {run : ParserOptions → SaxHandler → Sax.Outcome} {opts : ParserOptions}
    {handler : SaxHandler} (refused : Sax.Outcome) (hok : refused.ok = false)
    (hevents : refused.events = []) (h : run opts handler = refused)
    (h' : run opts acceptAll = refused) (h'' : run opts.keepLast acceptAll = refused) :
    EventContract run opts handler := by
  refine ⟨⟨.jsonNull, fun _ => trivial, ?_, ?_⟩, fun _ => ⟨.jsonNull, [], List.nil_prefix, ?_⟩, ?_,
    fun _ => by rw [h, h'], fun k hpos hk => ?_⟩
  · rw [h, hevents]
    exact List.nil_prefix
  · rw [h, hok]
    exact fun h => absurd h (by decide)
  · rw [h', h'', hevents]
    exact ⟨rfl, rfl, rfl⟩
  · rw [h, h']
  · rw [h', hevents] at hk
    exact absurd hk (Nat.not_le.mpr hpos)

/-- **Event streams are well formed, and cancellation is exact**: on every byte string and on every
    stream, under all options and for every handler. -/
theorem sax_eventContract (lib : NumericLibrary) (opts : ParserOptions) (handler : SaxHandler) :
    (∀ src, EventContract (fun opts handler => parseSax lib opts handler src) opts handler) ∧
      ∀ aIn, EventContract (fun opts handler => parseSaxStream lib opts handler aIn) opts handler := by
  refine ⟨fun src => ?_, fun aIn => Sax.parseDocument_eventContract lib opts handler _⟩
  by_cases hlimit : opts.maxInputBytes ≠ 0 ∧ src.length > opts.maxInputBytes
  · exact eventContract_refused ⟨false, setParseError src opts.maxInputBytes
      "input exceeds maxInputBytes", []⟩ rfl rfl (if_pos hlimit) (if_pos hlimit) (if_pos hlimit)
  · have hrun : ∀ opts' : ParserOptions, opts'.maxInputBytes = opts.maxInputBytes →
        ∀ handler, parseSax lib opts' handler src =
          Sax.parseDocument ⟨handler, opts'⟩ lib { rest := src : BufferSaxCursor } := by
      intro opts' h handler
      unfold parseSax
      rw [h]
      exact if_neg hlimit
    have hdoc := Sax.parseDocument_eventContract lib opts handler { rest := src : BufferSaxCursor }
    refine ⟨?_, ?_, ?_, ?_, ?_⟩
    · rw [hrun opts rfl]
      exact hdoc.nested
    · rw [hrun opts rfl, hrun opts.keepLast rfl]
      exact hdoc.suppressed
    · rw [hrun opts rfl, hrun opts rfl]
      exact hdoc.course
    · rw [hrun opts rfl, hrun opts rfl]
      exact hdoc.undisturbed
    · rw [hrun opts rfl, hrun opts rfl]
      exact hdoc.cancelled

end ByteDance
