/-
  The events of a document: which ones the SAX parser owes its handler, and what a handler that
  builds a tree makes of them.

  `Json.events` lists the callbacks for a parse tree; the members that `KeepFirstDuplicate` drops are
  left out.  `replay` runs a tree builder over a sequence of events: it keeps the open containers
  and stores a member under its name, over an earlier one of that name.

  `replay_events`: replaying the events of a tree gives its meaning, under every policy.
-/
import Pjson.Parser.Sax
import Pjson.Parser.Shape

namespace ByteDance

/-! ## The events of a tree -/

namespace Json

mutual
/-- The callbacks for a value. -/
def events (convert : NumberToken → Option ParsedNumber) (policy : DuplicateKeyPolicy) :
    Json → List SaxEvent
  | .null => [.onNull]
  | .bool b => [.onBool b]
  | .number t => (convert t).toList.map ParsedNumber.event
  | .string s => [.onString s]
  | .array xs => .onStartArray :: (eventsElements convert policy xs ++ [.onEndArray])
  | .object ms => .onStartObject :: (eventsMembers convert policy [] ms ++ [.onEndObject])
def eventsElements (convert : NumberToken → Option ParsedNumber) (policy : DuplicateKeyPolicy) :
    List Json → List SaxEvent
  | [] => []
  | x :: xs => events convert policy x ++ eventsElements convert policy xs
/-- The callbacks for members, after the names in `seen`. -/
def eventsMembers (convert : NumberToken → Option ParsedNumber) (policy : DuplicateKeyPolicy)
    (seen : List Bytes) : List (Bytes × Json) → List SaxEvent
  | [] => []
  | (k, x) :: ms =>
    (if policy = .KeepFirstDuplicate ∧ k ∈ seen then [] else .onKey k :: events convert policy x) ++
      eventsMembers convert policy (k :: seen) ms
end

/-- Only which names have been seen matters, and only if repeated ones are dropped. -/
theorem eventsMembers_congr {convert : NumberToken → Option ParsedNumber}
    {policy : DuplicateKeyPolicy} {seen seen' : List Bytes} (ms : List (Bytes × Json))
    (h : policy = .KeepFirstDuplicate → ∀ k, k ∈ seen ↔ k ∈ seen') :
    eventsMembers convert policy seen ms = eventsMembers convert policy seen' ms := by
  induction ms generalizing seen seen' with
  | nil => rfl
  | cons m ms ih =>
    obtain ⟨k, x⟩ := m
    have hif : (policy = .KeepFirstDuplicate ∧ k ∈ seen) ↔
        (policy = .KeepFirstDuplicate ∧ k ∈ seen') := and_congr_right fun hp => h hp k
    have hrest : eventsMembers convert policy (k :: seen) ms =
        eventsMembers convert policy (k :: seen') ms := by
      apply ih
      intro hp k'
      rw [List.mem_cons, List.mem_cons, h hp k']
    simp only [eventsMembers, hif, hrest]

end Json

/-! ## Replaying events -/

/-- An open container of the tree builder: an object may be waiting for the value of a name. -/
inductive ReplayFrame where
  | array (elems : List Pjson)
  | object (members : List (Bytes × Pjson)) (key : Option Bytes)

/-- The tree builder: its open containers, the innermost first, and the finished document. -/
structure Replay where
  stack : List ReplayFrame := []
  root : Option Pjson := none

namespace Replay

/-- Puts a finished value where the builder stands; a member replaces an earlier one. -/
def place (v : Pjson) : Replay → Option Replay
  | ⟨[], none⟩ => some ⟨[], some v⟩
  | ⟨.array elems :: stack, root⟩ => some ⟨.array (elems ++ [v]) :: stack, root⟩
  | ⟨.object members (some k) :: stack, root⟩ =>
    some ⟨.object (Assoc.assign k v members) none :: stack, root⟩
  | _ => none

/-- One callback. -/
def step (r : Replay) : SaxEvent → Option Replay
  | .onNull => r.place .jsonNull
  | .onBool value => r.place (.jsonBoolean value)
  | .onInt value => r.place (.jsonNumberInt value)
  | .onUInt value => r.place (.jsonNumberUInt value)
  | .onDouble value => r.place (.jsonNumberDouble value)
  | .onString value => r.place (.jsonString value)
  | .onStartArray => some { r with stack := .array [] :: r.stack }
  | .onStartObject => some { r with stack := .object [] none :: r.stack }
  | .onKey k =>
    match r.stack with
    | .object members none :: stack => some { r with stack := .object members (some k) :: stack }
    | _ => none
  | .onEndArray =>
    match r.stack with
    | .array elems :: stack => place (.jsonArray elems) { r with stack := stack }
    | _ => none
  | .onEndObject =>
    match r.stack with
    | .object members none :: stack => place (.jsonObject members) { r with stack := stack }
    | _ => none

/-- A sequence of callbacks. -/
def feed (r : Replay) (es : List SaxEvent) : Option Replay := es.foldlM step r

theorem feed_append (r : Replay) (es fs : List SaxEvent) :
    r.feed (es ++ fs) = (r.feed es).bind fun r => r.feed fs := List.foldlM_append

theorem feed_cons (r : Replay) (e : SaxEvent) (es : List SaxEvent) :
    r.feed (e :: es) = (r.step e).bind fun r => r.feed es := List.foldlM_cons

theorem feed_singleton (r : Replay) (e : SaxEvent) : r.feed [e] = r.step e := by
  rw [feed_cons]
  exact Option.bind_fun_some (r.step e)

end Replay

/-- The tree that a whole sequence of events builds. -/
def replay (es : List SaxEvent) : Option Pjson := do
  let r ← Replay.feed {} es
  if r.stack.isEmpty then r.root else none

/-- The builder's reply to a number is the number. -/
theorem Replay.step_number (r : Replay) (n : ParsedNumber) :
    r.step n.event = r.place n.toPjson := by
  cases n <;> rfl

section Meaning

variable {convert : NumberToken → Option ParsedNumber} {policy : DuplicateKeyPolicy}

/-- Replaying the elements of an array appends their values. -/
theorem feed_eventsElements {xs : List Json} (hxs : ∀ x ∈ xs, ∀ v r,
      x.denote convert policy = some v →
      Replay.feed r (x.events convert policy) = r.place v) {vs : List Pjson}
    (h : Json.denoteElements convert policy xs = some vs) (elems : List Pjson)
    (stack : List ReplayFrame) (root : Option Pjson) :
    Replay.feed ⟨.array elems :: stack, root⟩ (Json.eventsElements convert policy xs) =
      some ⟨.array (elems ++ vs) :: stack, root⟩ := by
  induction xs generalizing vs elems with
  | nil =>
    cases h
    rw [List.append_nil]
    rfl
  | cons x xs ih =>
    obtain ⟨v, vs, rfl, hv, hvs⟩ := Json.denoteElements_cons_iff.mp h
    rw [Json.eventsElements, Replay.feed_append, hxs x (List.mem_cons_self ..) v _ hv]
    show Replay.feed ⟨.array (elems ++ [v]) :: stack, root⟩ _ = _
    rw [ih (fun y hy => hxs y (List.mem_cons_of_mem _ hy)) hvs, List.append_assoc]
    rfl

/-- Replaying the members of an object folds them in as the policy does. -/
theorem feed_eventsMembers {ms : List (Bytes × Json)} (hms : ∀ m ∈ ms, ∀ v r,
      m.2.denote convert policy = some v →
      Replay.feed r (m.2.events convert policy) = r.place v) {obj obj' : List (Bytes × Pjson)}
    (h : Json.denoteMembers convert policy obj ms = some obj') (seen : List Bytes)
    (hseen : policy = .KeepFirstDuplicate → ∀ k, k ∈ seen ↔ k ∈ Assoc.keys obj)
    (stack : List ReplayFrame) (root : Option Pjson) :
    Replay.feed ⟨.object obj none :: stack, root⟩ (Json.eventsMembers convert policy seen ms) =
      some ⟨.object obj' none :: stack, root⟩ := by
  induction ms generalizing obj seen with
  | nil =>
    cases h
    rfl
  | cons m ms ih =>
    obtain ⟨k, x⟩ := m
    obtain ⟨v, obj₁, hv, hadd, hrest⟩ := Json.denoteMembers_cons_iff.mp h
    have hkeys : ∀ k', k' ∈ Assoc.keys obj₁ ↔ k' = k ∨ k' ∈ Assoc.keys obj :=
      fun k' => Json.mem_keys_addMember hadd
    have hih := ih (fun y hy => hms y (List.mem_cons_of_mem _ hy)) hrest (k :: seen)
      (fun hp k' => by rw [List.mem_cons, hkeys, hseen hp k'])
    rw [Json.eventsMembers, Replay.feed_append]
    by_cases hdup : policy = .KeepFirstDuplicate ∧ k ∈ seen
    · -- a dropped member is not told to the builder
      rw [if_pos hdup]
      have hobj : obj₁ = obj := by
        have hk := (hseen hdup.1 k).mp hdup.2
        rw [hdup.1, Json.addMember, if_pos hk] at hadd
        exact (Option.some.inj hadd).symm
      rw [← hobj]
      exact hih
    · rw [if_neg hdup, Replay.feed_cons]
      show Option.bind (Replay.feed ⟨.object obj (some k) :: stack, root⟩ _) _ = _
      rw [hms (k, x) (List.mem_cons_self ..) v _ hv]
      show Replay.feed ⟨.object (Assoc.assign k v obj) none :: stack, root⟩ _ = _
      have hobj : obj₁ = Assoc.assign k v obj := by
        unfold Json.addMember at hadd
        split at hadd
        · rename_i hk
          cases policy with
          | RejectDuplicateKeys => cases hadd
          | KeepFirstDuplicate => exact absurd ⟨rfl, (hseen rfl k).mpr hk⟩ hdup
          | KeepLastDuplicate => exact (Option.some.inj hadd).symm
        · rename_i hk
          rw [Assoc.assign_of_notMem hk]
          exact (Option.some.inj hadd).symm
      rw [← hobj]
      exact hih

/-- Replaying the events of a value puts its meaning in place, wherever the builder stands. -/
theorem feed_events (x : Json) : ∀ v r, x.denote convert policy = some v →
    Replay.feed r (x.events convert policy) = r.place v := by
  induction x using Json.induct with
  | null =>
    rintro v r ⟨⟩
    exact Replay.feed_singleton r _
  | bool b =>
    rintro v r ⟨⟩
    exact Replay.feed_singleton r _
  | string s =>
    rintro v r ⟨⟩
    exact Replay.feed_singleton r _
  | number t =>
    intro v r h
    rw [Json.denote] at h
    obtain ⟨n, hn, rfl⟩ := Option.map_eq_some_iff.mp h
    rw [Json.events, hn]
    show Replay.feed r [n.event] = _
    rw [Replay.feed_singleton, Replay.step_number]
  | array xs hxs =>
    intro v r h
    rw [Json.denote] at h
    obtain ⟨vs, hvs, rfl⟩ := Option.map_eq_some_iff.mp h
    rw [Json.events, Replay.feed_cons]
    show Replay.feed ⟨.array [] :: r.stack, r.root⟩ _ = _
    rw [Replay.feed_append, feed_eventsElements hxs hvs, List.nil_append]
    exact Replay.feed_singleton _ _
  | object ms hms =>
    intro v r h
    rw [Json.denote] at h
    obtain ⟨obj, hobj, rfl⟩ := Option.map_eq_some_iff.mp h
    rw [Json.events, Replay.feed_cons]
    show Replay.feed ⟨.object [] none :: r.stack, r.root⟩ _ = _
    rw [Replay.feed_append, feed_eventsMembers hms hobj [] (fun _ _ => by simp [Assoc.keys])]
    exact Replay.feed_singleton _ _

/-- **The events of a tree build its meaning.** -/
theorem replay_events {x : Json} {v : Pjson} (h : x.denote convert policy = some v) :
    replay (x.events convert policy) = some v := by
  unfold replay
  rw [feed_events x v {} h]
  rfl

end Meaning

end ByteDance
