/-
  Whatever happens, the handler has seen the beginning of a well-nested document.

  `Pjson.marked` lists the events of a document in the order of its text: a start and an end around
  the items of a container, a name before each member's value, and nothing behind the root.  Each
  event is marked with whether it is told; an event of a dropped member is not.

  A run is compared with the run in which nothing is dropped: `Twin x y done cut` says that `y` takes
  the course of `x`, that there is one marked sequence of which `y` delivers everything and `x` what
  is told, and that `done` holds of it if the two return and `cut` if they exit.
-/
import Pjson.Parser.SaxCancel
import Pjson.Dom.Value

namespace ByteDance

open Run

/-- An event with whether it is told. -/
abbrev MarkedEvent := Bool × SaxEvent

/-- All events. -/
def allEvents (ms : List MarkedEvent) : List SaxEvent := ms.map (·.2)

/-- The events that are told. -/
def toldEvents (ms : List MarkedEvent) : List SaxEvent := (ms.filter (·.1)).map (·.2)

/-- All events of two sequences. -/
theorem allEvents_append (ms ns : List MarkedEvent) :
    allEvents (ms ++ ns) = allEvents ms ++ allEvents ns := List.map_append

/-- The events told of two sequences. -/
theorem toldEvents_append (ms ns : List MarkedEvent) :
    toldEvents (ms ++ ns) = toldEvents ms ++ toldEvents ns := by
  unfold toldEvents
  rw [List.filter_append, List.map_append]

/-- An event is told if its mark says so. -/
theorem toldEvents_cons (tell : Bool) (e : SaxEvent) (ms : List MarkedEvent) :
    toldEvents ((tell, e) :: ms) = (if tell then [e] else []) ++ toldEvents ms := by
  cases tell <;> rfl

theorem allEvents_nil : allEvents [] = [] := rfl

theorem toldEvents_nil : toldEvents [] = [] := rfl

/-- What is told at the beginning is told at the beginning. -/
theorem toldEvents_prefix {ms ns : List MarkedEvent} (h : ms <+: ns) :
    toldEvents ms <+: toldEvents ns := by
  obtain ⟨rest, rfl⟩ := h
  rw [toldEvents_append]
  exact List.prefix_append _ _

namespace Pjson

mutual
/-- The event sequence of a document. -/
def events : Pjson → List SaxEvent
  | .jsonNull => [.onNull]
  | .jsonBoolean b => [.onBool b]
  | .jsonNumberInt i => [.onInt i]
  | .jsonNumberUInt u => [.onUInt u]
  | .jsonNumberDouble d => [.onDouble d]
  | .jsonString s => [.onString s]
  | .jsonArray xs => .onStartArray :: (eventsElements xs ++ [.onEndArray])
  | .jsonObject ms => .onStartObject :: (eventsMembers ms ++ [.onEndObject])
def eventsElements : List Pjson → List SaxEvent
  | [] => []
  | x :: xs => events x ++ eventsElements xs
def eventsMembers : List (Bytes × Pjson) → List SaxEvent
  | [] => []
  | (k, x) :: ms => .onKey k :: (events x ++ eventsMembers ms)
end

/-- Whether a name is one of the repeated ones that are dropped. -/
def dropped (drop : Bool) (seen : List Bytes) (k : Bytes) : Bool := drop && decide (k ∈ seen)

/-- The names seen after one more. -/
def see (drop : Bool) (seen : List Bytes) (k : Bytes) : List Bytes :=
  if dropped drop seen k then seen else k :: seen

mutual
/-- The marked events of a document, if it is told at all. -/
def marked (drop tell : Bool) : Pjson → List MarkedEvent
  | .jsonNull => [(tell, .onNull)]
  | .jsonBoolean b => [(tell, .onBool b)]
  | .jsonNumberInt i => [(tell, .onInt i)]
  | .jsonNumberUInt u => [(tell, .onUInt u)]
  | .jsonNumberDouble d => [(tell, .onDouble d)]
  | .jsonString s => [(tell, .onString s)]
  | .jsonArray xs =>
    (tell, .onStartArray) :: (markedElements drop tell xs ++ [(tell, .onEndArray)])
  | .jsonObject ms =>
    (tell, .onStartObject) :: (markedMembers drop tell [] ms ++ [(tell, .onEndObject)])
def markedElements (drop tell : Bool) : List Pjson → List MarkedEvent
  | [] => []
  | x :: xs => marked drop tell x ++ markedElements drop tell xs
/-- The marked events of members, after the names in `seen`: if `drop`, the members whose name has
    been seen are not told. -/
def markedMembers (drop tell : Bool) (seen : List Bytes) : List (Bytes × Pjson) → List MarkedEvent
  | [] => []
  | (k, x) :: ms =>
    (tell && !dropped drop seen k, .onKey k) ::
      (marked drop (tell && !dropped drop seen k) x ++ markedMembers drop tell (see drop seen k) ms)
end

mutual
/-- The document that is told: under `drop`, the first member of each name. -/
def resolve (drop : Bool) : Pjson → Pjson
  | .jsonArray xs => .jsonArray (resolveElements drop xs)
  | .jsonObject ms => .jsonObject (resolveMembers drop [] ms)
  | v => v
def resolveElements (drop : Bool) : List Pjson → List Pjson
  | [] => []
  | x :: xs => resolve drop x :: resolveElements drop xs
def resolveMembers (drop : Bool) (seen : List Bytes) : List (Bytes × Pjson) → List (Bytes × Pjson)
  | [] => []
  | (k, x) :: ms =>
    if dropped drop seen k then resolveMembers drop (see drop seen k) ms
    else (k, resolve drop x) :: resolveMembers drop (see drop seen k) ms
end

/-- What is told of a document are the events of the document without the dropped members. -/
theorem toldEvents_marked (drop : Bool) (v : Pjson) (tell : Bool) :
    toldEvents (v.marked drop tell) = if tell then (v.resolve drop).events else [] := by
  induction v using Pjson.induct generalizing tell with
  | jsonNull => cases tell <;> rfl
  | jsonString s => cases tell <;> rfl
  | jsonNumberInt n => cases tell <;> rfl
  | jsonNumberDouble d => cases tell <;> rfl
  | jsonBoolean b => cases tell <;> rfl
  | jsonNumberUInt n => cases tell <;> rfl
  | jsonArray xs ih =>
    have hxs : toldEvents (markedElements drop tell xs) =
        if tell then eventsElements (resolveElements drop xs) else [] := by
      induction xs with
      | nil => cases tell <;> rfl
      | cons x xs ih' =>
        rw [markedElements, toldEvents_append, ih x (List.mem_cons_self ..),
          ih' fun y hy => ih y (List.mem_cons_of_mem _ hy)]
        cases tell <;> rfl
    rw [marked, toldEvents_cons, toldEvents_append, hxs]
    cases tell <;> rfl
  | jsonObject ms ih =>
    have hms : ∀ seen, toldEvents (markedMembers drop tell seen ms) =
        if tell then eventsMembers (resolveMembers drop seen ms) else [] := by
      induction ms with
      | nil => intro seen; cases tell <;> rfl
      | cons m ms ih' =>
        intro seen
        obtain ⟨k, x⟩ := m
        rw [markedMembers, toldEvents_cons, toldEvents_append, ih _ (List.mem_cons_self ..),
          ih' (fun y hy => ih y (List.mem_cons_of_mem _ hy)), resolveMembers]
        cases tell
        · rfl
        · cases dropped drop seen k <;> rfl
    rw [marked, toldEvents_cons, toldEvents_append, hms]
    cases tell <;> rfl

/-- Without dropping everything is told. -/
theorem resolve_false (v : Pjson) : v.resolve false = v := by
  induction v using Pjson.induct with
  | jsonNull => rfl
  | jsonString s => rfl
  | jsonNumberInt n => rfl
  | jsonNumberDouble d => rfl
  | jsonBoolean b => rfl
  | jsonNumberUInt n => rfl
  | jsonArray xs ih =>
    have hxs : resolveElements false xs = xs := by
      induction xs with
      | nil => rfl
      | cons x xs ih' =>
        rw [resolveElements, ih x (List.mem_cons_self ..),
          ih' fun y hy => ih y (List.mem_cons_of_mem _ hy)]
    rw [resolve, hxs]
  | jsonObject ms ih =>
    have hms : ∀ seen, resolveMembers false seen ms = ms := by
      induction ms with
      | nil => intro seen; rfl
      | cons m ms ih' =>
        intro seen
        have hx : resolve false m.2 = m.2 := ih m (List.mem_cons_self ..)
        show (m.1, resolve false m.2) :: resolveMembers false (m.1 :: seen) ms = m :: ms
        rw [hx, ih' fun y hy => ih y (List.mem_cons_of_mem _ hy)]
    rw [resolve, hms]

/-- With dropping no object repeats a name. -/
theorem resolve_wf (v : Pjson) : (v.resolve true).WF := by
  induction v using Pjson.induct with
  | jsonNull => trivial
  | jsonString s => trivial
  | jsonNumberInt n => trivial
  | jsonNumberDouble d => trivial
  | jsonBoolean b => trivial
  | jsonNumberUInt n => trivial
  | jsonArray xs ih =>
    rw [resolve, wf_array]
    induction xs with
    | nil => simp [resolveElements]
    | cons x xs ih' =>
      rw [resolveElements, List.forall_mem_cons]
      exact ⟨ih x (List.mem_cons_self ..), ih' fun y hy => ih y (List.mem_cons_of_mem _ hy)⟩
  | jsonObject ms ih =>
    have hms : ∀ seen, Assoc.UniqueKeys (resolveMembers true seen ms) ∧
        (∀ k ∈ Assoc.keys (resolveMembers true seen ms), k ∉ seen) ∧
        ∀ m ∈ resolveMembers true seen ms, m.2.WF := by
      induction ms with
      | nil => exact fun seen => ⟨Assoc.uniqueKeys_nil, by simp [resolveMembers, Assoc.keys],
          by simp [resolveMembers]⟩
      | cons m ms ih' =>
        intro seen
        obtain ⟨k, x⟩ := m
        have ih' := ih' fun y hy => ih y (List.mem_cons_of_mem _ hy)
        by_cases hk : k ∈ seen
        · have hsee : see true seen k = seen := by simp [see, dropped, hk]
          rw [resolveMembers, hsee, if_pos (by simp [dropped, hk])]
          exact ih' seen
        · have hsee : see true seen k = k :: seen := by simp [see, dropped, hk]
          rw [resolveMembers, hsee, if_neg (by simp [dropped, hk])]
          obtain ⟨hu, hnew, hwf⟩ := ih' (k :: seen)
          refine ⟨Assoc.uniqueKeys_cons.mpr ⟨fun hmem => hnew k hmem (List.mem_cons_self ..), hu⟩, ?_,
            List.forall_mem_cons.mpr ⟨ih _ (List.mem_cons_self ..), hwf⟩⟩
          rintro k' hk'
          rcases List.mem_cons.mp hk' with rfl | hmem
          · exact hk
          · exact fun hs => hnew k' hmem (List.mem_cons_of_mem _ hs)
    rw [resolve, wf_object]
    exact ⟨(hms []).1, (hms []).2.2⟩

end Pjson

/-- A number is one event, whatever the policy. -/
theorem ParsedNumber.marked_toPjson (drop tell : Bool) (n : ParsedNumber) :
    n.toPjson.marked drop tell = [(tell, n.event)] := by
  cases n <;> rfl

/-- Whether the parser drops the repeated members. -/
def SaxParser.drops (p : SaxParser) : Bool := decide (p.opts.duplicateKeys = .KeepFirstDuplicate)

namespace Sax

variable {κ : Type} {α β : Type}

/-- `y` runs like `x`; of one marked sequence `y` delivers everything and `x` what is told.  The
    sequence satisfies `done` if they return, and `cut` if they exit. -/
def Twin (x y : SaxM κ α) (done cut : List MarkedEvent → Prop) : Prop :=
  ∀ s log, ∃ ms,
    (Ending.state (x.run s)).delivered = s.delivered ++ toldEvents ms ∧
    y.run (s.tell log) = Ending.tell (log ++ allEvents ms) (x.run s) ∧
    match x.run s with
    | .ok _ _ => done ms
    | .error _ _ => cut ms

/-- Nothing. -/
def Silent (ms : List MarkedEvent) : Prop := ms = []

/-- A leaf function and its like deliver nothing. -/
theorem Alike.twin {x y : SaxM κ α} (hx : Alike x x) (h : Alike x y) : Twin x y Silent Silent := by
  intro s log
  refine ⟨[], by rw [hx.quiet, toldEvents_nil, List.append_nil], ?_, ?_⟩
  · rw [allEvents_nil, List.append_nil]
    exact h s log
  · cases x.run s <;> rfl

variable {done done₁ done₂ cut cut₁ cut₂ : List MarkedEvent → Prop}

/-- The two conditions may be weakened. -/
theorem Twin.mono {x y : SaxM κ α} (h : Twin x y done₁ cut₁) (hd : ∀ ms, done₁ ms → done ms)
    (hc : ∀ ms, cut₁ ms → cut ms) : Twin x y done cut := by
  intro s log
  obtain ⟨ms, htold, hall, hx⟩ := h s log
  refine ⟨ms, htold, hall, ?_⟩
  cases hr : x.run s with
  | ok a t =>
    rw [hr] at hx
    exact hd ms hx
  | error e t =>
    rw [hr] at hx
    exact hc ms hx

/-- Two functions in sequence: the exit may come in the first or in the second. -/
theorem Twin.bind {x y : SaxM κ α} {f g : α → SaxM κ β} (h : Twin x y done₁ cut₁)
    (hf : ∀ a, Twin (f a) (g a) done₂ cut₂) (hd : ∀ ms ns, done₁ ms → done₂ ns → done (ms ++ ns))
    (hc₁ : ∀ ms, cut₁ ms → cut ms) (hc₂ : ∀ ms ns, done₁ ms → cut₂ ns → cut (ms ++ ns)) :
    Twin (x >>= f) (y >>= g) done cut := by
  intro s log
  obtain ⟨ms, htold, hall, hdone⟩ := h s log
  rw [EStateM.run_bind, EStateM.run_bind, hall]
  cases hr : x.run s with
  | error e t =>
    rw [hr] at htold hdone
    exact ⟨ms, htold, rfl, hc₁ ms hdone⟩
  | ok a t =>
    rw [hr] at htold hdone
    have ht : t.delivered = s.delivered ++ toldEvents ms := htold
    obtain ⟨ns, htold₂, hall₂, hdone₂⟩ := hf a t (log ++ allEvents ms)
    refine ⟨ms ++ ns, ?_, ?_, ?_⟩
    · rw [toldEvents_append, ← List.append_assoc, ← ht]
      exact htold₂
    · rw [allEvents_append, ← List.append_assoc]
      exact hall₂
    · dsimp only
      cases hr₂ : (f a).run t with
      | ok b u =>
        rw [hr₂] at hdone₂
        exact hd ms ns hdone hdone₂
      | error e u =>
        rw [hr₂] at hdone₂
        exact hc₂ ms ns hdone hdone₂

/-- Two functions that do not look at the events, in front. -/
theorem Twin.after {x y : SaxM κ α} {f g : α → SaxM κ β} (hx : Alike x x) (h : Alike x y)
    (hf : ∀ a, Twin (f a) (g a) done cut) (hnil : cut []) : Twin (x >>= f) (y >>= g) done cut := by
  refine (hx.twin h).bind hf ?_ ?_ ?_
  · rintro _ ns rfl hns
    exact hns
  · rintro _ rfl
    exact hnil
  · rintro _ ns rfl hns
    exact hns

/-- The same, where the course goes on by whether there is a byte. -/
theorem Twin.afterOption {x y : SaxM κ (Option α)} {f g : Option α → SaxM κ β} (hx : Alike x x)
    (h : Alike x y) (hnone : Twin (f none) (g none) done cut)
    (hsome : ∀ a, Twin (f (some a)) (g (some a)) done cut) (hnil : cut []) :
    Twin (x >>= f) (y >>= g) done cut := by
  refine Twin.after hx h (fun o => ?_) hnil
  cases o with
  | none => exact hnone
  | some a => exact hsome a

/-- The two take the same branch. -/
theorem Twin.ite {c : Prop} [Decidable c] {x x' y y' : SaxM κ α} (hx : Twin x x' done cut)
    (hy : Twin y y' done cut) : Twin (if c then x else y) (if c then x' else y') done cut := by
  split
  · exact hx
  · exact hy

/-- Reading the state is no event. -/
theorem Twin.get_bind {f g : SaxState κ → SaxM κ α} (hg : ∀ s log, g (s.tell log) = g s)
    (h : ∀ s, Twin (f s) (g s) done cut) : Twin (get >>= f) (get >>= g) done cut := by
  intro s log
  have hrun : (get >>= g).run (s.tell log) = (g s).run (s.tell log) := by
    rw [← hg s log]
    rfl
  rw [hrun]
  exact h s s log

/-- Two functions that only exit. -/
theorem Twin.exits {x y : SaxM κ α} (hx : Alike x x) (h : Alike x y) (hno : ∀ s a t, ¬ Ok x s a t)
    (hnil : cut []) : Twin x y done cut := by
  intro s log
  obtain ⟨ms, htold, hall, hs⟩ := hx.twin h s log
  cases hr : x.run s with
  | ok a t => exact absurd hr (hno s a t)
  | error e t =>
    rw [hr] at htold hall hs
    have hs : ms = [] := hs
    subst hs
    exact ⟨[], htold, hall, hnil⟩

/-- An exit delivers nothing. -/
theorem Twin.throw {e : ParseExit} (hnil : cut []) :
    Twin (MonadExcept.throw e : SaxM κ α) (MonadExcept.throw e) done cut :=
  Twin.exits (Alike.throw e) (Alike.throw e) (fun _ _ _ h => not_ok_throw h) hnil

variable [SaxCursor κ]

/-- Nor does a failure. -/
theorem Twin.fail {message : String} (hnil : cut []) :
    Twin (Sax.fail message : SaxM κ α) (Sax.fail message) done cut :=
  Twin.exits (fail_alike _) (fail_alike _) (fun _ _ _ h => not_ok_fail h) hnil

/-- Nor does one at the end of the input. -/
theorem Twin.failAtEnd {message : String} (hnil : cut []) :
    Twin (Sax.failAtEnd message : SaxM κ α) (Sax.failAtEnd message) done cut :=
  Twin.exits (failAtEnd_alike _) (failAtEnd_alike _) (fun _ _ _ h => not_ok_failAtEnd h) hnil

/-! ## The two parsers -/

/-- `q` is `p`, except that it tells the members that `p` drops; both handlers accept everything. -/
structure Twins (p q : SaxParser) : Prop extends SameLimits p q where
  duplicateKeys : q.opts.duplicateKeys = if p.drops then .KeepLastDuplicate else p.opts.duplicateKeys
  accepting : p.handler.Accepting
  accepting' : q.handler.Accepting

variable {p q : SaxParser}

/-- The two refuse repeated names, or `q` keeps no record of names. -/
theorem Twins.policy (h : Twins p q) :
    (p.opts.duplicateKeys = .RejectDuplicateKeys ∧ q.opts.duplicateKeys = .RejectDuplicateKeys) ∨
      (p.opts.duplicateKeys ≠ .RejectDuplicateKeys ∧ q.opts.duplicateKeys = .KeepLastDuplicate) := by
  have hq := h.duplicateKeys
  unfold ByteDance.SaxParser.drops at hq
  cases hp : p.opts.duplicateKeys <;> rw [hp] at hq
  · exact .inl ⟨rfl, hq⟩
  · exact .inr ⟨by decide, hq⟩
  · exact .inr ⟨by decide, hq⟩

omit [SaxCursor κ] in
/-- The one event of a call of the handler, told by `x` if it is to be and by `y` in any case. -/
theorem dispatch_twin (h : Twins p q) (tell : Bool) (event : SaxEvent) :
    Twin (dispatch p tell event : SaxM κ Unit) (dispatch q true event) (· = [(tell, event)])
      (· = [(tell, event)]) := by
  intro s log
  refine ⟨[(tell, event)], ?_⟩
  rw [dispatch_run, h.accepting']
  cases tell with
  | false => exact ⟨(List.append_nil _).symm, rfl, rfl⟩
  | true =>
    rw [dispatch_run, h.accepting]
    exact ⟨rfl, rfl, rfl⟩

/-! ## Values -/

/-- A document as the policy lets it through. -/
def Fine (p : SaxParser) (v : Pjson) : Prop := p.opts.duplicateKeys = .RejectDuplicateKeys → v.WF

/-- All events of a document. -/
def Whole (p : SaxParser) (tell : Bool) (ms : List MarkedEvent) : Prop :=
  ∃ v, Fine p v ∧ ms = v.marked p.drops tell

/-- The events of a document up to somewhere. -/
def Partial (p : SaxParser) (tell : Bool) (ms : List MarkedEvent) : Prop :=
  ∃ v, Fine p v ∧ ms <+: v.marked p.drops tell

variable {tell : Bool}

/-- No events are the beginning of any document. -/
theorem partial_nil : Partial p tell [] := ⟨.jsonNull, fun _ => trivial, List.nil_prefix⟩

/-- A whole document is the beginning of itself. -/
theorem Whole.toPartial {ms : List MarkedEvent} (h : Whole p tell ms) : Partial p tell ms := by
  obtain ⟨v, hv, rfl⟩ := h
  exact ⟨v, hv, List.prefix_refl _⟩

omit [SaxCursor κ] in
/-- The one event of a scalar. -/
theorem dispatch_scalar_twin (h : Twins p q) {v : Pjson} {event : SaxEvent} (hv : v.WF)
    (he : v.marked p.drops tell = [(tell, event)]) :
    Twin (dispatch p tell event : SaxM κ Unit) (dispatch q true event) (Whole p tell)
      (Partial p tell) := by
  have hwhole : ∀ ms, ms = [(tell, event)] → Whole p tell ms := by
    rintro _ rfl
    exact ⟨v, fun _ => hv, he.symm⟩
  exact (dispatch_twin h tell event).mono hwhole fun ms hms => (hwhole ms hms).toPartial

section Scalars

variable (h : Twins p q)
include h

/-- A keyword is one event, behind its last letter and the charge for it. -/
theorem keyword_twin {v : Pjson} {event : SaxEvent} (lit : Bytes) (hv : v.WF)
    (he : v.marked p.drops tell = [(tell, event)]) :
    Twin (keyword p tell lit event : SaxM κ Unit) (keyword q true lit event) (Whole p tell)
      (Partial p tell) := by
  refine Twin.after (matchLiteral_alike (sameLimits_refl p) lit)
    (matchLiteral_alike h.toSameLimits lit) (fun _ => ?_) partial_nil
  refine Twin.after (reserveNode_alike (sameLimits_refl p))
    (reserveNode_alike h.toSameLimits) (fun _ => ?_) partial_nil
  exact dispatch_scalar_twin h hv he

/-- The keywords, told apart by their first letter. -/
theorem parseKeywordValue_twin :
    Twin (parseKeywordValue p tell : SaxM κ Unit) (parseKeywordValue q true) (Whole p tell)
      (Partial p tell) := by
  refine Twin.afterOption peekChar_alike peekChar_alike (Twin.fail partial_nil) (fun ch => ?_) partial_nil
  apply Twin.ite
  · exact keyword_twin h (v := .jsonNull) _ trivial rfl
  apply Twin.ite
  · exact keyword_twin h (v := .jsonBoolean true) _ trivial rfl
  apply Twin.ite
  · exact keyword_twin h (v := .jsonBoolean false) _ trivial rfl
  · exact Twin.fail partial_nil

/-- A string is one event, behind its last quote. -/
theorem parseStringValue_twin :
    Twin (parseStringValue p tell : SaxM κ Unit) (parseStringValue q true) (Whole p tell)
      (Partial p tell) := by
  refine Twin.after (reserveNode_alike (sameLimits_refl p))
    (reserveNode_alike h.toSameLimits) (fun _ => ?_) partial_nil
  refine Twin.after (parseStringRaw_alike (sameLimits_refl p))
    (parseStringRaw_alike h.toSameLimits) (fun text => ?_) partial_nil
  exact dispatch_scalar_twin h (v := .jsonString text) trivial rfl

/-- A number is one event, of the kind it has been converted to. -/
theorem parseNumberValue_twin (lib : NumericLibrary) :
    Twin (parseNumberValue p lib tell : SaxM κ Unit) (parseNumberValue q lib true) (Whole p tell)
      (Partial p tell) := by
  refine Twin.after (scanNumber_alike (sameLimits_refl p)) (scanNumber_alike h.toSameLimits)
    (fun r => Twin.after (reserveNode_alike (sameLimits_refl p)) (reserveNode_alike h.toSameLimits)
      (fun _ => ?_) partial_nil) partial_nil
  rw [h.numberPolicy]
  cases convertNumberToken lib r.1 r.2 p.opts.numberPolicy with
  | error message => exact Twin.fail partial_nil
  | ok number =>
    exact dispatch_scalar_twin h (by cases number <;> trivial) (number.marked_toPjson _ _)

end Scalars

/-! ## Arrays -/

/-- All events of some elements. -/
def WholeElements (p : SaxParser) (tell : Bool) (ms : List MarkedEvent) : Prop :=
  ∃ vs, (∀ v ∈ vs, Fine p v) ∧ ms = Pjson.markedElements p.drops tell vs

/-- The events of some elements up to somewhere. -/
def PartialElements (p : SaxParser) (tell : Bool) (ms : List MarkedEvent) : Prop :=
  ∃ vs, (∀ v ∈ vs, Fine p v) ∧ ms <+: Pjson.markedElements p.drops tell vs

/-- No events are the beginning of any elements. -/
theorem partialElements_nil : PartialElements p tell [] := ⟨[], by simp, List.nil_prefix⟩

/-- And all the events of none. -/
theorem wholeElements_nil : WholeElements p tell [] := ⟨[], by simp, rfl⟩

/-- A whole element in front of whole elements. -/
theorem WholeElements.cons {ms ns : List MarkedEvent} (h : Whole p tell ms)
    (h' : WholeElements p tell ns) : WholeElements p tell (ms ++ ns) := by
  obtain ⟨v, hv, rfl⟩ := h
  obtain ⟨vs, hvs, rfl⟩ := h'
  exact ⟨v :: vs, List.forall_mem_cons.mpr ⟨hv, hvs⟩, rfl⟩

/-- A whole element in front of some that are cut off. -/
theorem PartialElements.cons {ms ns : List MarkedEvent} (h : Whole p tell ms)
    (h' : PartialElements p tell ns) : PartialElements p tell (ms ++ ns) := by
  obtain ⟨v, hv, rfl⟩ := h
  obtain ⟨vs, hvs, hns⟩ := h'
  exact ⟨v :: vs, List.forall_mem_cons.mpr ⟨hv, hvs⟩, (List.prefix_append_right_inj _).mpr hns⟩

/-- An element that is cut off itself. -/
theorem PartialElements.last {ms : List MarkedEvent} (h : Partial p tell ms) :
    PartialElements p tell ms := by
  obtain ⟨v, hv, hms⟩ := h
  refine ⟨[v], by simpa using hv, ?_⟩
  rw [Pjson.markedElements, Pjson.markedElements, List.append_nil]
  exact hms

section Loops

variable (h : Twins p q)
include h

/-- A byte that has been seen is skipped by both. -/
theorem skipChar_twin (hdone : done []) (hnil : cut []) :
    Twin (skipChar p : SaxM κ Unit) (skipChar q) done cut := by
  refine ((skipChar_alike (sameLimits_refl p)).twin (skipChar_alike h.toSameLimits)).mono ?_ ?_
  · rintro _ rfl
    exact hdone
  · rintro _ rfl
    exact hnil

/-- The loop over the elements; induction on its bound, with the events of one round in front of
    those of the rest. -/
theorem arrayLoop_twin {x y : SaxM κ Unit} (hxy : Twin x y (Whole p tell) (Partial p tell))
    (fuel : Nat) (expect any : Bool) :
    Twin (arrayLoop p x fuel expect any) (arrayLoop q y fuel expect any) (WholeElements p tell)
      (PartialElements p tell) := by
  have hnil : PartialElements p tell [] := partialElements_nil
  induction fuel generalizing expect any with
  | zero => exact Twin.throw hnil
  | succ fuel ih =>
    refine Twin.after (skipWhitespace_alike (sameLimits_refl p))
      (skipWhitespace_alike h.toSameLimits) (fun _ =>
      Twin.afterOption peekChar_alike peekChar_alike (Twin.failAtEnd hnil) (fun _ =>
        Twin.ite (Twin.ite (Twin.fail hnil) (skipChar_twin h wholeElements_nil hnil))
          (Twin.ite (Twin.ite (Twin.fail hnil) ?_) (Twin.ite (Twin.fail hnil) ?_))) hnil) hnil
    · exact Twin.after (skipChar_alike (sameLimits_refl p)) (skipChar_alike h.toSameLimits)
        (fun _ => ih _ _) hnil
    · exact hxy.bind (fun _ => ih _ _) (fun _ _ => WholeElements.cons)
        (fun _ => PartialElements.last) fun _ _ => PartialElements.cons

end Loops

/-! ## Objects -/

/-- Members as the policy lets them through, after the names in `seen`. -/
structure FineMembers (p : SaxParser) (seen : List Bytes) (l : List (Bytes × Pjson)) : Prop where
  keys : p.opts.duplicateKeys = .RejectDuplicateKeys →
    Assoc.UniqueKeys l ∧ ∀ k ∈ Assoc.keys l, k ∉ seen
  values : ∀ m ∈ l, Fine p m.2

/-- No members are fine under every policy. -/
theorem fineMembers_nil (seen : List Bytes) : FineMembers p seen [] :=
  ⟨fun _ => ⟨Assoc.uniqueKeys_nil, by simp [Assoc.keys]⟩, by simp⟩

/-- A parser that refuses repeated names drops none. -/
theorem SaxParser.drops_of_reject (h : p.opts.duplicateKeys = .RejectDuplicateKeys) :
    p.drops = false := by
  unfold ByteDance.SaxParser.drops
  rw [h]
  rfl

/-- A member that is not refused has not been seen, and the later ones are none of those seen. -/
theorem FineMembers.cons {k : Bytes} {v : Pjson} {seen : List Bytes} {l : List (Bytes × Pjson)}
    (hk : p.opts.duplicateKeys = .RejectDuplicateKeys → k ∉ seen) (hv : Fine p v)
    (h : FineMembers p (Pjson.see p.drops seen k) l) : FineMembers p seen ((k, v) :: l) := by
  refine ⟨fun hp => ?_, List.forall_mem_cons.mpr ⟨hv, h.values⟩⟩
  obtain ⟨hu, hnew⟩ := h.keys hp
  have hsee : Pjson.see p.drops seen k = k :: seen := by
    rw [SaxParser.drops_of_reject hp]
    rfl
  rw [hsee] at hnew
  refine ⟨Assoc.uniqueKeys_cons.mpr ⟨fun hmem => hnew k hmem (List.mem_cons_self ..), hu⟩, ?_⟩
  rintro k' hk'
  rcases List.mem_cons.mp hk' with rfl | hmem
  · exact hk hp
  · exact fun hs => hnew k' hmem (List.mem_cons_of_mem _ hs)

/-- All events of some members. -/
def WholeMembers (p : SaxParser) (tell : Bool) (seen : List Bytes) (ms : List MarkedEvent) : Prop :=
  ∃ l, FineMembers p seen l ∧ ms = Pjson.markedMembers p.drops tell seen l

/-- The events of some members up to somewhere. -/
def PartialMembers (p : SaxParser) (tell : Bool) (seen : List Bytes) (ms : List MarkedEvent) :
    Prop :=
  ∃ l, FineMembers p seen l ∧ ms <+: Pjson.markedMembers p.drops tell seen l

/-- No events are the beginning of any members. -/
theorem partialMembers_nil (seen : List Bytes) : PartialMembers p tell seen [] :=
  ⟨[], fineMembers_nil _, List.nil_prefix⟩

/-- And all the events of none. -/
theorem wholeMembers_nil (seen : List Bytes) : WholeMembers p tell seen [] :=
  ⟨[], fineMembers_nil _, rfl⟩

omit [SaxCursor κ] in
/-- A member in front of what the loop delivers behind it. -/
theorem member_twin (h : Twins p q) {x y rest rest' : SaxM κ Unit} {k : Bytes} {seen : List Bytes}
    (hk : p.opts.duplicateKeys = .RejectDuplicateKeys → k ∉ seen)
    (hxy : Twin x y (Whole p (tell && !Pjson.dropped p.drops seen k))
      (Partial p (tell && !Pjson.dropped p.drops seen k)))
    (hrest : Twin rest rest' (WholeMembers p tell (Pjson.see p.drops seen k))
      (PartialMembers p tell (Pjson.see p.drops seen k))) :
    Twin (do dispatch p (tell && !Pjson.dropped p.drops seen k) (.onKey k); x; rest)
      (do dispatch q true (.onKey k); y; rest') (WholeMembers p tell seen)
      (PartialMembers p tell seen) := by
  have hpartial : ∀ ms, Partial p (tell && !Pjson.dropped p.drops seen k) ms →
      PartialMembers p tell seen ((tell && !Pjson.dropped p.drops seen k, .onKey k) :: ms) := by
    rintro ms ⟨v, hv, hms⟩
    refine ⟨[(k, v)], FineMembers.cons hk hv (fineMembers_nil _), ?_⟩
    rw [Pjson.markedMembers, Pjson.markedMembers, List.append_nil]
    exact (List.prefix_append_right_inj [_]).mpr hms
  have htail : Twin (do x; rest) (do y; rest')
      (fun ms => WholeMembers p tell seen
        ((tell && !Pjson.dropped p.drops seen k, .onKey k) :: ms))
      (fun ms => PartialMembers p tell seen
        ((tell && !Pjson.dropped p.drops seen k, .onKey k) :: ms)) := by
    refine hxy.bind (fun _ => hrest) ?_ hpartial ?_
    · rintro _ _ ⟨v, hv, rfl⟩ ⟨l, hl, rfl⟩
      exact ⟨(k, v) :: l, FineMembers.cons hk hv hl, rfl⟩
    · rintro _ ms ⟨v, hv, rfl⟩ ⟨l, hl, hms⟩
      refine ⟨(k, v) :: l, FineMembers.cons hk hv hl, ?_⟩
      exact (List.prefix_append_right_inj [_]).mpr ((List.prefix_append_right_inj _).mpr hms)
  refine (dispatch_twin h _ (.onKey k)).bind (fun _ => htail) ?_ ?_ ?_
  · rintro _ _ rfl hms
    exact hms
  · rintro _ rfl
    exact hpartial [] partial_nil
  · rintro _ _ rfl hms
    exact hms

/-- A name is told, dropped or refused. -/
theorem name_cases (p : SaxParser) (key : Bytes) (seenKeys : List Bytes) :
    (p.opts.duplicateKeys ≠ .KeepLastDuplicate → key ∉ seenKeys) ∨
      (p.opts.duplicateKeys = .KeepFirstDuplicate ∧ key ∈ seenKeys) ∨
      (p.opts.duplicateKeys = .RejectDuplicateKeys ∧ key ∈ seenKeys) := by
  by_cases hmem : key ∈ seenKeys
  · cases h : p.opts.duplicateKeys with
    | RejectDuplicateKeys => exact .inr (.inr ⟨rfl, hmem⟩)
    | KeepFirstDuplicate => exact .inr (.inl ⟨rfl, hmem⟩)
    | KeepLastDuplicate => exact .inl fun hne => absurd rfl hne
  · exact .inl fun _ => hmem

section CheckKey

omit [SaxCursor κ]

variable {key : Bytes} {seenKeys : List Bytes} {offset line column : Nat}

/-- A name that has not been seen is told, as is every name where the last one counts. -/
theorem checkKey_told (h : p.opts.duplicateKeys ≠ .KeepLastDuplicate → key ∉ seenKeys) :
    (checkKey p key seenKeys offset line column : SaxM κ Bool) = pure false := by
  have hdup : ¬ (p.opts.duplicateKeys ≠ .KeepLastDuplicate ∧ key ∈ seenKeys) :=
    fun ⟨hne, hmem⟩ => h hne hmem
  unfold checkKey
  rw [decide_eq_false hdup]
  rfl

/-- A name that has been seen is dropped where the first one counts. -/
theorem checkKey_dropped (h : p.opts.duplicateKeys = .KeepFirstDuplicate) (hmem : key ∈ seenKeys) :
    (checkKey p key seenKeys offset line column : SaxM κ Bool) = pure true := by
  unfold checkKey
  rw [h, decide_eq_true ⟨by decide, hmem⟩]
  rfl

/-- And refused where none may be repeated. -/
theorem checkKey_refused (h : p.opts.duplicateKeys = .RejectDuplicateKeys) (hmem : key ∈ seenKeys)
    (f : Bool → SaxM κ α) :
    (checkKey p key seenKeys offset line column >>= f) =
      (do failAt offset line column "duplicate object key"; throw .failed) := by
  unfold checkKey
  rw [h, decide_eq_true ⟨by decide, hmem⟩]
  rfl

end CheckKey

omit [SaxCursor κ] in
/-- The refusal delivers nothing. -/
theorem refuse_twin {offset line column : Nat} {done cut : List MarkedEvent → Prop} (hnil : cut []) :
    Twin (do failAt offset line column "duplicate object key"; throw .failed : SaxM κ α)
      (do failAt offset line column "duplicate object key"; throw .failed) done cut := by
  have halike := (failAt_alike (κ := κ) offset line column "duplicate object key").bind fun _ =>
    Alike.throw (α := α) .failed
  refine Twin.exits halike halike (fun s a t h => ?_) hnil
  obtain ⟨_, _, -, h⟩ := ok_bind.mp h
  exact not_ok_throw h

/-- The loop over the members.  The two parsers have recorded the names in `seen`, each as far as
    its policy keeps a record; what follows a name that is dropped is not told by `x`, and told by
    `y`. -/
theorem objectLoop_twin (h : Twins p q) {x y : Bool → SaxM κ Unit}
    (hxy : ∀ tell, Twin (x tell) (y true) (Whole p tell) (Partial p tell)) (tell : Bool) (fuel : Nat)
    (expect any : Bool) (seen seenKeys seenKeys' : List Bytes)
    (hseen : p.opts.duplicateKeys ≠ .KeepLastDuplicate → seenKeys = seen)
    (hseen' : q.opts.duplicateKeys ≠ .KeepLastDuplicate → seenKeys' = seen) :
    Twin (objectLoop p x tell fuel expect any seenKeys)
      (objectLoop q y true fuel expect any seenKeys') (WholeMembers p tell seen)
      (PartialMembers p tell seen) := by
  induction fuel generalizing expect any seen seenKeys seenKeys' with
  | zero => exact Twin.throw (partialMembers_nil _)
  | succ fuel ih =>
    have hnil : PartialMembers p tell seen [] := partialMembers_nil seen
    refine Twin.after (skipWhitespace_alike (sameLimits_refl p))
      (skipWhitespace_alike h.toSameLimits) (fun _ =>
      Twin.afterOption peekChar_alike peekChar_alike (Twin.failAtEnd hnil) (fun _ =>
        Twin.ite (Twin.ite (Twin.fail hnil) (skipChar_twin h (wholeMembers_nil _) hnil))
          (Twin.ite (Twin.ite (Twin.fail hnil) (Twin.after (skipChar_alike (sameLimits_refl p))
              (skipChar_alike h.toSameLimits) (fun _ => ih _ _ _ _ _ hseen hseen') hnil))
            (Twin.ite (Twin.fail hnil) (Twin.ite (Twin.fail hnil) ?_)))) hnil) hnil
    refine Twin.get_bind (fun _ _ => rfl) fun s => Twin.after (parseStringRaw_alike (sameLimits_refl p))
      (parseStringRaw_alike h.toSameLimits) (fun key =>
      Twin.after (skipWhitespace_alike (sameLimits_refl p)) (skipWhitespace_alike h.toSameLimits)
        (fun _ => Twin.after (expectChar_alike (sameLimits_refl p) _ _)
          (expectChar_alike h.toSameLimits _ _) (fun _ => ?_) hnil) hnil) hnil
    rcases name_cases p key seenKeys with hnew | ⟨hfirst, hmem⟩ | ⟨hreject, hmem⟩
    · -- told by both
      have hnew' : q.opts.duplicateKeys ≠ .KeepLastDuplicate → key ∉ seenKeys' := by
        intro hq
        obtain ⟨hp, -⟩ | ⟨-, hq'⟩ := h.policy
        · have hp : p.opts.duplicateKeys ≠ .KeepLastDuplicate := by rw [hp]; decide
          rw [hseen' hq, ← hseen hp]
          exact hnew hp
        · exact absurd hq' hq
      have hdrop : Pjson.dropped p.drops seen key = false := by
        cases hd : p.drops with
        | false => rfl
        | true =>
          have hp : p.opts.duplicateKeys ≠ .KeepLastDuplicate := by
            rw [of_decide_eq_true hd]
            decide
          rw [← hseen hp]
          exact decide_eq_false (hnew hp)
      have hsee : Pjson.see p.drops seen key = key :: seen := by
        unfold Pjson.see
        rw [hdrop]
        rfl
      have hkeys : ∀ (policy : DuplicateKeyPolicy) (l : List Bytes),
          (policy ≠ .KeepLastDuplicate → l = seen) → policy ≠ .KeepLastDuplicate →
          (if (!false && decide (policy ≠ .KeepLastDuplicate)) = true then key :: l else l) =
            Pjson.see p.drops seen key := by
        intro policy l hl hne
        rw [hsee, decide_eq_true hne, hl hne]
        rfl
      rw [checkKey_told hnew, checkKey_told hnew', pure_bind, pure_bind]
      have hmember := member_twin h (k := key)
        (fun hp => by rw [← hseen (by rw [hp]; decide)]; exact hnew (by rw [hp]; decide))
        (hxy _) (ih false true (Pjson.see p.drops seen key) _ _ (hkeys _ _ hseen) (hkeys _ _ hseen'))
      rw [hdrop] at hmember
      exact hmember
    · -- only told by `q`
      have hp : p.opts.duplicateKeys ≠ .KeepLastDuplicate := by rw [hfirst]; decide
      have hlast : q.opts.duplicateKeys = .KeepLastDuplicate := by
        obtain ⟨hp', -⟩ | ⟨-, hq'⟩ := h.policy
        · rw [hfirst] at hp'
          cases hp'
        · exact hq'
      have hdrop : Pjson.dropped p.drops seen key = true := by
        unfold Pjson.dropped ByteDance.SaxParser.drops
        rw [hfirst, ← hseen hp, decide_eq_true hmem]
        rfl
      have hsee : Pjson.see p.drops seen key = seen := by
        unfold Pjson.see
        rw [hdrop]
        rfl
      rw [checkKey_dropped hfirst hmem, checkKey_told fun hq => absurd hlast hq, pure_bind, pure_bind,
        decide_eq_true hfirst]
      have hmember := member_twin h (k := key) (fun hr => by rw [hfirst] at hr; cases hr)
        (hxy _) (ih false true (Pjson.see p.drops seen key) seenKeys
          (if (!false && decide (q.opts.duplicateKeys ≠ .KeepLastDuplicate)) = true then
            key :: seenKeys' else seenKeys')
          (fun _ => by rw [hsee, hseen hp]) fun hq => absurd hlast hq)
      rw [hdrop] at hmember
      exact hmember
    · -- refused by both
      obtain ⟨-, hreject'⟩ | ⟨hp, -⟩ := h.policy
      · have hmem' : key ∈ seenKeys' := by
          rw [hseen' (by rw [hreject']; decide), ← hseen (by rw [hreject]; decide)]
          exact hmem
        rw [checkKey_refused hreject hmem, checkKey_refused hreject' hmem']
        exact refuse_twin hnil
      · exact absurd hreject hp

/-! ## Containers and documents -/

/-- The bracket, the start and the end around what the loop delivers. -/
theorem container_twin (h : Twins p q) {depth : Nat} {bracket : UInt8} {start close : SaxEvent}
    {x y : Nat → SaxM κ Unit} (hxy : ∀ fuel, Twin (x fuel) (y fuel) done₁ cut₁)
    (hstart : Partial p tell [(tell, start)])
    (hcut : ∀ ms, cut₁ ms → Partial p tell ((tell, start) :: ms))
    (hclose : ∀ ms, done₁ ms → Whole p tell ((tell, start) :: (ms ++ [(tell, close)]))) :
    Twin (container p depth tell bracket start close x) (container q depth true bracket start close y)
      (Whole p tell) (Partial p tell) := by
  have hrest : Twin (do x ((← unread) + 1); dispatch p tell close)
      (do y ((← unread) + 1); dispatch q true close)
      (fun ms => Whole p tell ((tell, start) :: ms))
      (fun ms => Partial p tell ((tell, start) :: ms)) := by
    refine Twin.after unread_alike unread_alike (fun _ => (hxy _).bind
      (fun _ => dispatch_twin h tell close) ?_ hcut ?_) hstart
    · rintro ms _ hms rfl
      exact hclose ms hms
    · rintro ms _ hms rfl
      exact (hclose ms hms).toPartial
  unfold container
  rw [h.maxDepth]
  refine Twin.ite (Twin.fail partial_nil)
    (Twin.after (reserveNode_alike (sameLimits_refl p)) (reserveNode_alike h.toSameLimits) (fun _ =>
      Twin.after (expectChar_alike (sameLimits_refl p) _ _) (expectChar_alike h.toSameLimits _ _)
        (fun _ => (dispatch_twin h tell start).bind (fun _ => hrest) ?_ ?_ ?_) partial_nil)
      partial_nil)
  · rintro _ ms rfl hms
    exact hms
  · rintro _ rfl
    exact hstart
  · rintro _ ms rfl hms
    exact hms

/-- The start and the end of an array stand around the events of its elements. -/
theorem parseArray_twin (h : Twins p q) {x y : SaxM κ Unit}
    (hxy : Twin x y (Whole p tell) (Partial p tell)) (depth : Nat) :
    Twin (parseArray p x depth tell) (parseArray q y depth true) (Whole p tell)
      (Partial p tell) := by
  have hwf : ∀ vs : List Pjson, (∀ v ∈ vs, Fine p v) → Fine p (.jsonArray vs) := by
    intro vs hvs hp
    exact Pjson.wf_array.mpr fun v hv => hvs v hv hp
  refine container_twin h (fun fuel => arrayLoop_twin h hxy fuel _ _) ?_ ?_ ?_
  · refine ⟨.jsonArray [], hwf [] (by simp), ?_⟩
    rw [Pjson.marked, List.cons_prefix_cons]
    exact ⟨rfl, List.nil_prefix⟩
  · rintro ms ⟨vs, hvs, hms⟩
    refine ⟨.jsonArray vs, hwf vs hvs, ?_⟩
    rw [Pjson.marked, List.cons_prefix_cons]
    exact ⟨rfl, hms.trans (List.prefix_append _ _)⟩
  · rintro ms ⟨vs, hvs, rfl⟩
    exact ⟨.jsonArray vs, hwf vs hvs, rfl⟩

/-- And those of an object around the events of its members. -/
theorem parseObject_twin (h : Twins p q) {x y : Bool → SaxM κ Unit}
    (hxy : ∀ tell, Twin (x tell) (y true) (Whole p tell) (Partial p tell)) (depth : Nat)
    (tell : Bool) :
    Twin (parseObject p x depth tell) (parseObject q y depth true) (Whole p tell)
      (Partial p tell) := by
  have hwf : ∀ l, FineMembers p [] l → Fine p (.jsonObject l) := by
    intro l hl hp
    exact Pjson.wf_object.mpr ⟨(hl.keys hp).1, fun m hm => hl.values m hm hp⟩
  refine container_twin h (fun fuel => objectLoop_twin h hxy tell fuel _ _ [] [] []
    (fun _ => rfl) fun _ => rfl) ?_ ?_ ?_
  · refine ⟨.jsonObject [], hwf [] (fineMembers_nil _), ?_⟩
    rw [Pjson.marked, List.cons_prefix_cons]
    exact ⟨rfl, List.nil_prefix⟩
  · rintro ms ⟨l, hl, hms⟩
    refine ⟨.jsonObject l, hwf l hl, ?_⟩
    rw [Pjson.marked, List.cons_prefix_cons]
    exact ⟨rfl, hms.trans (List.prefix_append _ _)⟩
  · rintro ms ⟨l, hl, rfl⟩
    exact ⟨.jsonObject l, hwf l hl, rfl⟩

/-- **A value**; induction on the levels of nesting that are left. -/
theorem parseValue_twin (h : Twins p q) (lib : NumericLibrary) (level depth : Nat) (tell : Bool) :
    Twin (parseValue p lib level depth tell : SaxM κ Unit) (parseValue q lib level depth true)
      (Whole p tell) (Partial p tell) := by
  induction level generalizing depth tell with
  | zero => exact Twin.throw partial_nil
  | succ level ih =>
    exact Twin.after (skipWhitespace_alike (sameLimits_refl p)) (skipWhitespace_alike h.toSameLimits)
      (fun _ => Twin.afterOption peekChar_alike peekChar_alike (Twin.failAtEnd partial_nil) (fun _ =>
        Twin.ite (parseStringValue_twin h)
          (Twin.ite (parseObject_twin h (fun _ => ih _ _) _ _)
            (Twin.ite (parseArray_twin h (ih _ _) _)
              (Twin.ite (parseNumberValue_twin h lib) (parseKeywordValue_twin h)))))
        partial_nil) partial_nil

/-- Behind the root nothing is delivered. -/
theorem document_twin (h : Twins p q) (lib : NumericLibrary) :
    Twin (document p lib : SaxM κ Unit) (document q lib) (Whole p true) (Partial p true) := by
  have hend : Twin (do skipWhitespace p; finishDocument p : SaxM κ Unit)
      (do skipWhitespace q; finishDocument q) Silent Silent :=
    Alike.twin ((skipWhitespace_alike (sameLimits_refl p)).bind fun _ =>
      finishDocument_alike (sameLimits_refl p)) ((skipWhitespace_alike h.toSameLimits).bind fun _ =>
        finishDocument_alike h.toSameLimits)
  unfold document
  rw [h.maxDepth]
  refine (parseValue_twin h lib _ _ true).bind (fun _ => hend) ?_ (fun _ hms => hms) ?_
  · rintro ms _ hms rfl
    rwa [List.append_nil]
  · rintro ms _ hms rfl
    rw [List.append_nil]
    exact hms.toPartial

/-- A run and the run in which nothing is dropped end alike; the one has delivered what is told, and
    the other everything, of the beginning of one document. -/
theorem parseDocument_twin (h : Twins p q) (lib : NumericLibrary) (cur : κ) :
    ∃ v ms, Fine p v ∧ ms <+: v.marked p.drops true ∧
      (parseDocument p lib cur).events = toldEvents ms ∧
      (parseDocument q lib cur).events = allEvents ms ∧
      (parseDocument q lib cur).ok = (parseDocument p lib cur).ok ∧
      (parseDocument q lib cur).error = (parseDocument p lib cur).error ∧
      ((parseDocument p lib cur).ok = true → ms = v.marked p.drops true) := by
  obtain ⟨ms, htold, hall, hx⟩ := document_twin h lib { cur := cur } []
  have htold : (Ending.state ((document p lib).run { cur := cur })).delivered = toldEvents ms := htold
  have hall : (document q lib).run { cur := cur } =
      Ending.tell (allEvents ms) ((document p lib).run { cur := cur }) := hall
  have hevents : (parseDocument q lib cur).events = allEvents ms := by
    rw [parseDocument_events, hall]
    cases (document p lib).run { cur := cur } <;> rfl
  have hok : (parseDocument q lib cur).ok = (parseDocument p lib cur).ok := by
    rw [parseDocument_ok_eq, parseDocument_ok_eq, hall]
    cases (document p lib).run { cur := cur } <;> rfl
  have herr : (parseDocument q lib cur).error = (parseDocument p lib cur).error := by
    unfold parseDocument
    rw [hall]
    rcases (document p lib).run { cur := cur } with ⟨_, _⟩ | ⟨_ | _ | (_ | _) | _ | _ | _, _⟩ <;> rfl
  rw [hevents, hok, herr, parseDocument_events, htold]
  have hend := parseDocument_ok_eq (p := p) lib cur
  cases hr : (document p lib).run { cur := cur } with
  | ok a t =>
    rw [hr] at hx
    obtain ⟨v, hv, rfl⟩ := hx
    exact ⟨v, _, hv, List.prefix_refl _, rfl, rfl, rfl, rfl, fun _ => rfl⟩
  | error e t =>
    rw [hr] at hx hend
    obtain ⟨v, hv, hpre⟩ := hx
    exact ⟨v, ms, hv, hpre, rfl, rfl, rfl, rfl, fun hok => by rw [hend] at hok; cases hok⟩

end Sax

end ByteDance
