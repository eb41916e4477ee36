/-
  What a run of the evaluator preserves.

  `Rules o T G I R` lists what has to be shown of an invariant `I` of the state and a relation `R`
  between two states of a call: one clause for each step, and one for each way a state is mended
  when a call, a scratch sink or a group of branches is left.  `Steps.kept` is the run lemma: every
  program made of steps then keeps `I` in all the states it goes through, and relates its first
  state to its last.  `G` is a condition on the groups of branches the run has ended; what is kept
  is kept as long as they meet it.
-/
import Pjson.Schema.Traversal

namespace ByteDance

open Validate

/-! ## Runs -/

/-- The state a run ends in, however it ends. -/
def ending {α : Type} : EStateM.Result Exit Progress α → Progress
  | .ok _ t => t
  | .error _ t => t

@[simp] theorem ending_ok {α : Type} (a : α) (t : Progress) : ending (.ok a t) = t := rfl

@[simp] theorem ending_error {α : Type} (e : Exit) (t : Progress) :
    ending (.error e t : EStateM.Result Exit Progress α) = t := rfl

/-- What a call catches does not change the state. -/
theorem ending_caught (r : EStateM.Result Exit Progress (Bool × SchemaAnnotations)) :
    ending (caught r) = ending r := by
  cases r with
  | ok a t => rfl
  | error e t => cases e <;> rfl

/-- Nor does what a comparison catches. -/
theorem ending_answered (r : EStateM.Result Exit Progress Unit) : ending (answered r) = ending r := by
  cases r with
  | ok a t => rfl
  | error e t => cases e <;> rfl

namespace Validate

variable {α β : Type}

/-- One program after the other, from the first result on. -/
theorem bind_run (m : Validate α) (f : α → Validate β) (o : Options) (s : Progress) :
    (m >>= f) o s =
      match m o s with
      | .ok a u => f a o u
      | .error e u => .error e u := by
  show EStateM.bind (m o) (fun a => f a o) s = _
  rw [EStateM.bind]
  cases m o s <;> rfl

/-- If the first returns. -/
theorem bind_run_ok {m : Validate α} {f : α → Validate β} {o : Options} {s u : Progress} {a : α}
    (h : m o s = .ok a u) : (m >>= f) o s = f a o u := by
  rw [bind_run, h]

/-- If it exits. -/
theorem bind_run_error {m : Validate α} {f : α → Validate β} {o : Options} {s u : Progress}
    {e : Exit} (h : m o s = .error e u) : (m >>= f) o s = .error e u := by
  rw [bind_run, h]

/-- The two parts of a sequence that returns. -/
theorem parts_of_bind {m : Validate α} {f : α → Validate β} {o : Options} {s t : Progress} {b : β}
    (h : (m >>= f) o s = .ok b t) : ∃ a u, m o s = .ok a u ∧ f a o u = .ok b t := by
  rw [bind_run] at h
  cases hm : m o s with
  | error e u =>
    rw [hm] at h
    cases h
  | ok a u =>
    rw [hm] at h
    exact ⟨a, u, rfl, h⟩

/-- The test for the depth, as one function of the state. -/
theorem checkDepth_run (scene : Scene) (o : Options) (s : Progress) :
    checkDepth scene o s =
      if validationDepthLimit o ≤ s.now.ctx.depth then
        .error .returned (s.step (s.now.failBudget o scene
          (ascii "schema validation depth budget exceeded")))
      else .ok () s := by
  by_cases h : validationDepthLimit o ≤ s.now.ctx.depth
  · rw [if_pos h]
    refine (bind_run_ok (a := true) (u := s) ?_).trans rfl
    show EStateM.Result.ok (decide _) s = _
    rw [decide_eq_true h]
  · rw [if_neg h]
    refine (bind_run_ok (a := false) (u := s) ?_).trans rfl
    show EStateM.Result.ok (decide _) s = _
    rw [decide_eq_false h]

/-- The count of a resolution, likewise. -/
theorem countReference_run (scene : Scene) (message : Bytes) (o : Options) (s : Progress) :
    countReference scene message o s =
      if validationRefLimit o ≤ s.now.ctx.refResolutions then
        .error .returned (s.step (s.now.failBudget o scene message))
      else .ok () (s.step { s.now with ctx := { s.now.ctx with
        refResolutions := s.now.ctx.refResolutions + 1 } }) := by
  by_cases h : validationRefLimit o ≤ s.now.ctx.refResolutions
  · rw [if_pos h]
    refine (bind_run_ok (a := true) (u := s) ?_).trans rfl
    show EStateM.Result.ok (decide _) s = _
    rw [decide_eq_true h]
  · rw [if_neg h]
    refine (bind_run_ok (a := false) (u := s) ?_).trans rfl
    show EStateM.Result.ok (decide _) s = _
    rw [decide_eq_false h]

/-- And the test for an abort. -/
theorem unlessAborted_run (o : Options) (s : Progress) :
    unlessAborted o s = if s.now.ctx.aborted = true then .error .returned s else .ok () s := by
  refine (@require_run _ o s s (!s.now.ctx.aborted) rfl).trans ?_
  cases s.now.ctx.aborted <;> rfl

end Validate

/-! ## What a diagnostic changes -/

/-- The part of a moment that no diagnostic changes. -/
structure Moment.Frame where
  publicErrorStart : Nat
  depth : Nat
  refResolutions : Nat
  workUsed : Nat
  activeRefs : List (Address × Address)
  regexCache : List (Bytes × RegexState)
  dynamicScope : List SchemaTarget
  mode : SinkMode
  hidden : List ErrorSink
  levels : Nat
  evaluated : SchemaAnnotations

def Moment.frame (m : Moment) : Moment.Frame :=
  ⟨m.ctx.publicErrorStart, m.ctx.depth, m.ctx.refResolutions, m.ctx.workUsed, m.ctx.activeRefs,
    m.ctx.regexCache, m.ctx.dynamicScope, m.errors.mode, m.hidden, m.levels, m.evaluated⟩

namespace Moment

variable {o : Options} {m : Moment}

/-- What a push may come to. -/
@[elab_as_elim]
theorem push_cases {e : SchemaError} {P : Moment → Prop} (aborted : m.ctx.aborted = true → P m)
    (counted : m.ctx.aborted = false → m.errors.mode ≠ .Public →
      (m.errors.mode = .Causes → diagnosticLimit o ≤ m.ctx.diagnosticsUsed + 1) → P m.addFailure)
    (collected : m.ctx.aborted = false → m.errors.mode = .Causes →
      m.ctx.diagnosticsUsed + 1 < diagnosticLimit o → P (m.addFailure.collect e))
    (overflowed : m.ctx.aborted = false → m.errors.mode = .Public → m.overBudget o →
      P (overflow o m.addFailure e))
    (published : m.ctx.aborted = false → m.errors.mode = .Public → ¬ m.overBudget o →
      o.stopAfterFirstError = false → P (m.addFailure.publish e).addErrorUsed)
    (last : m.ctx.aborted = false → m.errors.mode = .Public → ¬ m.overBudget o →
      o.stopAfterFirstError = true → P (m.addFailure.publish e).addErrorUsed.abort) :
    P (m.push o e).1 := by
  rw [push]
  by_cases ha : m.ctx.aborted = true
  · rw [if_pos ha]
    exact aborted ha
  rw [if_neg ha]
  have ha' : m.ctx.aborted = false := Bool.not_eq_true _ ▸ ha
  cases hmode : m.errors.mode with
  | Discard => exact counted ha' (by rw [hmode]; simp) (by rw [hmode]; simp)
  | Causes =>
    by_cases hroom : diagnosticLimit o ≤ m.ctx.diagnosticsUsed + 1
    · simp only [if_pos hroom]
      exact counted ha' (by rw [hmode]; simp) fun _ => hroom
    · simp only [if_neg hroom]
      exact collected ha' hmode (not_le.mp hroom)
  | Public =>
    by_cases hover : m.overBudget o
    · simp only [if_pos hover]
      exact overflowed ha' hmode hover
    · simp only [if_neg hover]
      by_cases hstop : o.stopAfterFirstError = true
      · simp only [if_pos hstop]
        exact last ha' hmode hover hstop
      · simp only [if_neg hstop]
        exact published ha' hmode hover (Bool.not_eq_true _ ▸ hstop)

/-- What an exhausted budget may come to. -/
@[elab_as_elim]
theorem failBudget_cases {scene : Scene} {message : Bytes} {P : Moment → Prop}
    (aborted : m.ctx.aborted = true → P m) (full : m.ctx.aborted = false → P m.abort)
    (published : m.ctx.aborted = false → m.ctx.errorsUsed < diagnosticLimit o →
      P (m.abort.publish (budgetError scene message)).addErrorUsed) :
    P (m.failBudget o scene message) := by
  rw [failBudget]
  split_ifs with ha hfull
  · exact aborted ha
  · exact full (Bool.not_eq_true _ ▸ ha)
  · exact published (Bool.not_eq_true _ ▸ ha) (not_le.mp hfull)

/-- What a payment may come to. -/
@[elab_as_elim]
theorem charge_cases {scene : Scene} {amount : Nat} {P : Moment → Prop}
    (failed : ∀ message, P (m.failBudget o scene message))
    (paid : m.ctx.workUsed + amount ≤ validationWorkLimit o ∨ amount = 0 →
      P { m with ctx := { m.ctx with workUsed := m.ctx.workUsed + amount } }) :
    P (m.charge o scene amount).1 := by
  rw [charge]
  split_ifs with hroom
  · exact failed _
  · exact paid (by omega)

/-- A diagnostic that is reported touches the records of diagnostics alone. -/
theorem push_frame (e : SchemaError) : (m.push o e).1.frame = m.frame := by
  refine push_cases (fun _ => rfl) (fun _ _ _ => rfl) (fun _ _ _ => rfl) (fun _ _ _ => ?_)
    (fun _ _ _ _ => rfl) (fun _ _ _ _ => rfl)
  rw [overflow]
  split_ifs <;> rfl

/-- So does a budget that fails. -/
theorem failBudget_frame (scene : Scene) (message : Bytes) :
    (m.failBudget o scene message).frame = m.frame :=
  failBudget_cases (fun _ => rfl) (fun _ => rfl) (fun _ _ => rfl)

/-- Once the run is aborted nothing is recorded. -/
theorem push_keeps_aborted {e : SchemaError} (h : m.ctx.aborted = true) : (m.push o e).1 = m := by
  rw [push, if_pos h]

end Moment

/-! ## Rules -/

/-- A node and a schema are put on the stack of active references. -/
def Moment.activated (m : Moment) (active : Address × Address) : Moment :=
  { m with ctx := { m.ctx with activeRefs := m.ctx.activeRefs ++ [active] } }

structure Rules (o : Options) (T : Scene → Prop) (G : GroupEnd → Prop) (I : Moment → Prop)
    (R : Moment → Moment → Prop) : Prop where
  refl (m : Moment) : R m m
  trans {a b c : Moment} : R a b → R b c → R a c
  aborted {a b : Moment} : R a b → a.ctx.aborted = true → b.ctx.aborted = true
  mode {a b : Moment} : R a b → b.errors.mode = a.errors.mode
  lead {scene scene' : Scene} : T scene → scene.Leads scene' → T scene'
  push {scene : Scene} {e : SchemaError} {m : Moment} : T scene → e.About scene → I m →
    I (m.push o e).1 ∧ R m (m.push o e).1
  pay {scene : Scene} {amount : Nat} {m : Moment} : T scene → I m →
    I (m.charge o scene amount).1 ∧ R m (m.charge o scene amount).1
  budget {scene : Scene} {message : Bytes} {m : Moment} : T scene → I m →
    I (m.failBudget o scene message) ∧ R m (m.failBudget o scene message)
  cache {m : Moment} (f : List (Bytes × RegexState) → List (Bytes × RegexState)) : I m →
    I { m with ctx := { m.ctx with regexCache := f m.ctx.regexCache } } ∧
      R m { m with ctx := { m.ctx with regexCache := f m.ctx.regexCache } }
  annotate {m : Moment} (a : SchemaAnnotations) : I m →
    I { m with evaluated := a } ∧ R m { m with evaluated := a }
  count {m : Moment} : I m → m.ctx.refResolutions < validationRefLimit o →
    I { m with ctx := { m.ctx with refResolutions := m.ctx.refResolutions + 1 } } ∧
      R m { m with ctx := { m.ctx with refResolutions := m.ctx.refResolutions + 1 } }
  activate {m : Moment} (active : Address × Address) : I m → I (m.activated active) ∧
    R m (m.activated active)
  enterResource {m : Moment} (target : SchemaTarget) : I m →
    I { m with ctx := { m.ctx with dynamicScope := m.ctx.dynamicScope ++ [target] } } ∧
      R m { m with ctx := { m.ctx with dynamicScope := m.ctx.dynamicScope ++ [target] } }
  descend {m : Moment} : I m → m.ctx.depth < validationDepthLimit o → I m.descend ∧ R m m.descend
  shadow {m : Moment} (mode : SinkMode) : mode ≠ .Public → I m → I (m.shadow mode)
  discard {b t : Moment} : I b → I t → R (b.shadow .Discard) t →
    I (t.unshadow b) ∧ R b (t.unshadow b)
  fresh {m : Moment} : I m → m.errors.mode ≠ .Public → I m.freshSink ∧ R m m.freshSink
  giveBack {b t : Moment} : I b → I t → R (b.shadow (groupMode o)) t →
    (t.ctx.aborted = true → b.ctx.aborted = true) →
    I ((t.unshadow b).withDiagnostics b.ctx.diagnosticsUsed) ∧
      R b ((t.unshadow b).withDiagnostics b.ctx.diagnosticsUsed)
  hand {scene : Scene} {e : SchemaError} {b t : Moment} : T scene → e.About scene →
    o.collectNestedCauses = true → I b → I t → R (b.shadow (groupMode o)) t →
    G ⟨t.unshadow b, t.errors.values, .kept⟩ →
    I ((t.unshadow b).push o { e with causes := t.errors.values }).1 ∧
      R b ((t.unshadow b).push o { e with causes := t.errors.values }).1
  abandon {b t : Moment} : I b → I t → R (b.shadow (groupMode o)) t →
    G ⟨t.unshadow b, t.errors.values, .dropped⟩ → I (t.unshadow b) ∧ R b (t.unshadow b)
  enter {m : Moment} : I m → m.ctx.depth < validationDepthLimit o → I m.enter
  leave {b t : Moment} : I b → I t → R b.enter t → I (t.leave b) ∧ R b (t.leave b)

/-- What a run from `s` to `t` has kept. -/
structure Kept (G : GroupEnd → Prop) (I : Moment → Prop) (R : Moment → Moment → Prop)
    (s t : Progress) : Prop where
  groups : s.groups <:+ t.groups
  now : (∀ g ∈ t.groups, G g) → I s.now → I t.now ∧ R s.now t.now
  past : ∃ new, t.past = new ++ s.past ∧ ((∀ g ∈ t.groups, G g) → I s.now →
    ∀ m ∈ new, I m ∧ (m.ctx.aborted = true → t.now.ctx.aborted = true))

namespace Kept

variable {o : Options} {T : Scene → Prop} {G : GroupEnd → Prop} {I : Moment → Prop}
  {R : Moment → Moment → Prop} {s t u : Progress} (rules : Rules o T G I R)

include rules

/-- A run that does nothing. -/
theorem refl (s : Progress) : Kept G I R s s where
  groups := List.suffix_refl _
  now _ hI := ⟨hI, rules.refl _⟩
  past := ⟨[], rfl, fun _ _ _ hm => by cases hm⟩

/-- One run after the other; what the groups of both end as is asked of all of them. -/
theorem trans (h : Kept G I R s t) (h' : Kept G I R t u) : Kept G I R s u where
  groups := h.groups.trans h'.groups
  now hG hI := by
    obtain ⟨hIt, hst⟩ := h.now (fun g hg => hG g (h'.groups.subset hg)) hI
    obtain ⟨hIu, htu⟩ := h'.now hG hIt
    exact ⟨hIu, rules.trans hst htu⟩
  past := by
    obtain ⟨new, hnew, hall⟩ := h.past
    obtain ⟨new', hnew', hall'⟩ := h'.past
    refine ⟨new' ++ new, by rw [hnew', hnew, List.append_assoc], fun hG hI m hm => ?_⟩
    have hGt : ∀ g ∈ t.groups, G g := fun g hg => hG g (h'.groups.subset hg)
    have hIt := (h.now hGt hI).1
    rcases List.mem_append.mp hm with hm | hm
    · exact hall' hG hIt m hm
    · obtain ⟨hIm, haborted⟩ := hall hGt hI m hm
      exact ⟨hIm, fun ha => rules.aborted (h'.now hG hIt).2 (haborted ha)⟩

/-- One more step, which may use what has been kept so far. -/
theorem andStep (h : Kept G I R s t) {m : Moment}
    (hm : I s.now → I t.now → R s.now t.now → I m ∧ R t.now m) : Kept G I R s (t.step m) where
  groups := h.groups
  now hG hI := by
    obtain ⟨hIt, hst⟩ := h.now hG hI
    obtain ⟨hIm, htm⟩ := hm hI hIt hst
    exact ⟨hIm, rules.trans hst htm⟩
  past := by
    obtain ⟨new, hnew, hall⟩ := h.past
    refine ⟨m :: new, by rw [Progress.step, hnew, List.cons_append], fun hG hI m' hm' => ?_⟩
    obtain ⟨hIt, hst⟩ := h.now hG hI
    obtain ⟨hIm, htm⟩ := hm hI hIt hst
    rcases List.mem_cons.mp hm' with rfl | hm'
    · exact ⟨hIm, id⟩
    · obtain ⟨hIm', haborted⟩ := hall hG hI m' hm'
      exact ⟨hIm', fun ha => rules.aborted htm (haborted ha)⟩

/-- A run of one step. -/
theorem step {m : Moment} (hm : I s.now → I m ∧ R s.now m) : Kept G I R s (s.step m) :=
  (refl rules s).andStep rules fun _ hI _ => hm hI

omit rules in
/-- A part of the run on another state, which is mended in the end; the groups that ended with it
    are accounted for at once. -/
theorem frame {b : Moment} {t' : Progress} (hb : I s.now → I b) (h : Kept G I R (s.step b) t)
    (hgroups : t.groups <:+ t'.groups) (hpast : t'.past = t.past ∨ t'.past = t'.now :: t.past)
    (hm : (∀ g ∈ t'.groups, G g) → I s.now → I t.now → R b t.now → I t'.now ∧ R s.now t'.now)
    (haborted : t.now.ctx.aborted = true → t'.now.ctx.aborted = true)
    (hkeep : R b t.now → b.ctx.aborted = true → t.now.ctx.aborted = true) : Kept G I R s t' where
  groups := h.groups.trans hgroups
  now hG hI := by
    obtain ⟨hIt, hbt⟩ := h.now (fun g hg => hG g (hgroups.subset hg)) (hb hI)
    exact hm hG hI hIt hbt
  past := by
    obtain ⟨new, hnew, hall⟩ := h.past
    have hinner : (∀ g ∈ t'.groups, G g) → I s.now →
        ∀ m ∈ new ++ [b], I m ∧ (m.ctx.aborted = true → t'.now.ctx.aborted = true) := by
      intro hG hI m hm'
      have hGt : ∀ g ∈ t.groups, G g := fun g hg => hG g (hgroups.subset hg)
      rcases List.mem_append.mp hm' with hm' | hm'
      · obtain ⟨hIm, ha⟩ := hall hGt (hb hI) m hm'
        exact ⟨hIm, fun h => haborted (ha h)⟩
      · rw [List.mem_singleton.mp hm']
        exact ⟨hb hI, fun ha => haborted (hkeep (h.now hGt (hb hI)).2 ha)⟩
    have hsplit : t.past = (new ++ [b]) ++ s.past := by
      rw [hnew, Progress.step]
      simp
    rcases hpast with hpast | hpast
    · exact ⟨new ++ [b], hpast.trans hsplit, hinner⟩
    · refine ⟨t'.now :: (new ++ [b]), by rw [hpast, hsplit, List.cons_append], fun hG hI m hm' => ?_⟩
      rcases List.mem_cons.mp hm' with rfl | hm'
      · obtain ⟨hIt, hbt⟩ := h.now (fun g hg => hG g (hgroups.subset hg)) (hb hI)
        exact ⟨(hm hG hI hIt hbt).1, id⟩
      · exact hinner hG hI m hm'

end Kept

/-! ## The run lemma -/

section RunLemma

variable {A : Scene → (α : Type) → Validate α → Prop} {o : Options} {T : Scene → Prop}
  {G : GroupEnd → Prop} {I : Moment → Prop} {R : Moment → Moment → Prop} (rules : Rules o T G I R)

/-- A program keeps what the rules are about. -/
def Keeps (o : Options) (G : GroupEnd → Prop) (I : Moment → Prop) (R : Moment → Moment → Prop)
    {α : Type} (m : Validate α) : Prop := ∀ s, Kept G I R s (ending (m o s))

include rules

/-- A program that changes nothing. -/
theorem keeps_of_still {α : Type} {m : Validate α} (h : ∀ s, ending (m o s) = s) :
    Keeps o G I R m := by
  intro s
  rw [h]
  exact .refl rules s

/-- One program after the other; the second may use that the first returns. -/
theorem keeps_bind {α β : Type} {m : Validate α} {f : α → Validate β} (hm : Keeps o G I R m)
    (hf : ∀ a, Returns m a → Keeps o G I R (f a)) : Keeps o G I R (m >>= f) := by
  intro s
  have hs := hm s
  rw [bind_run]
  cases hrun : m o s with
  | ok a u =>
    rw [hrun] at hs
    exact hs.trans rules (hf a ⟨o, s, u, hrun⟩ u)
  | error e u =>
    rw [hrun] at hs
    exact hs

/-- A diagnostic about the node. -/
theorem keeps_push {scene : Scene} (hT : T scene) {e : SchemaError} (he : e.About scene) :
    Keeps o G I R (push_back e) := by
  intro s
  have hstep : Kept G I R s (s.step (s.now.push o e).1) := .step rules fun hI => rules.push hT he hI
  have hending : ending (push_back e o s) = s.step (s.now.push o e).1 := by
    rw [push_back]
    dsimp only
    split_ifs <;> rfl
  rwa [hending]

/-- Work that is charged for. -/
theorem keeps_pay {scene : Scene} (hT : T scene) (amount : Nat) :
    Keeps o G I R (chargeValidationWork scene amount) := fun _ =>
  .step rules fun hI => rules.pay hT hI

/-- And with the exit if there is not enough. -/
theorem keeps_charge {scene : Scene} (hT : T scene) (amount : Nat) :
    Keeps o G I R (charge scene amount) := by
  refine keeps_bind rules (keeps_pay rules hT amount) fun ok _ => ?_
  cases ok <;> exact keeps_of_still rules fun _ => rfl

/-- The test for an abort. -/
theorem keeps_unlessAborted : Keeps o G I R unlessAborted := by
  refine keeps_of_still rules fun s => ?_
  rw [unlessAborted_run]
  split_ifs <;> rfl

/-- Room for one more level is checked before it is taken. -/
theorem keeps_checkDepth {α : Type} {scene : Scene} (hT : T scene) {m : Validate α}
    (hm : ∀ s : Progress, s.now.ctx.depth < validationDepthLimit o → Kept G I R s (ending (m o s))) :
    Keeps o G I R (checkDepth scene >>= fun _ => m) := by
  intro s
  rw [bind_run, checkDepth_run]
  by_cases hfull : validationDepthLimit o ≤ s.now.ctx.depth
  · rw [if_pos hfull]
    exact .step rules fun hI => rules.budget hT hI
  · rw [if_neg hfull]
    exact hm s (not_le.mp hfull)

/-- The guards of a call: the state inside is a new one, and the one outside comes back. -/
theorem keeps_guarded {m : Validate Bool} (hm : Keeps o G I R m) (s : Progress)
    (hdepth : s.now.ctx.depth < validationDepthLimit o) :
    Kept G I R s (ending (guarded m o s)) := by
  have hbody : Keeps o G I R (do
      let valid ← m
      let evaluated ← inspect fun _ m => m.evaluated
      pure (valid, evaluated)) :=
    keeps_bind rules hm fun valid _ => keeps_of_still rules fun _ => rfl
  have hinner := hbody (s.step s.now.enter)
  rw [guarded, within]
  cases hrun : (do
      let valid ← m
      let evaluated ← inspect fun _ m => m.evaluated
      pure (valid, evaluated) : Validate (Bool × SchemaAnnotations)) o (s.step s.now.enter) with
  | ok a t =>
    rw [hrun, ending_ok] at hinner
    exact .frame (fun hI => rules.enter hI hdepth) hinner (List.suffix_refl _) (Or.inl rfl)
      (fun _ hI hIt hR => rules.leave hI hIt hR) id fun hR => rules.aborted hR
  | error e t =>
    rw [hrun, ending_error] at hinner
    exact .frame (fun hI => rules.enter hI hdepth) hinner (List.suffix_refl _) (Or.inl rfl)
      (fun _ hI hIt hR => rules.leave hI hIt hR) id fun hR => rules.aborted hR

/-- A call, with the three tests in front of its guards. -/
theorem keeps_call {scene : Scene} (hT : T scene) {m : Validate Bool} (hm : Keeps o G I R m) :
    Keeps o G I R (Validate.call do
      unlessAborted
      charge scene 1
      checkDepth scene
      guarded m) := by
  have hbody : Keeps o G I R (do
      unlessAborted
      charge scene 1
      checkDepth scene
      guarded m) :=
    keeps_bind rules (keeps_unlessAborted rules) fun _ _ =>
      keeps_bind rules (keeps_charge rules hT 1) fun _ _ =>
        keeps_checkDepth rules hT (keeps_guarded rules hm)
  intro s
  rw [Validate.call, ending_caught]
  exact hbody s

/-- A program whose diagnostics are discarded. -/
theorem keeps_discard {α : Type} {m : Validate α} (hm : Keeps o G I R m) :
    Keeps o G I R (discarding m) := by
  intro s
  have hinner := hm (s.step (s.now.shadow .Discard))
  rw [discarding, within]
  cases hrun : m o (s.step (s.now.shadow .Discard)) with
  | ok a t =>
    rw [hrun, ending_ok] at hinner
    exact .frame (fun hI => rules.shadow _ (by simp) hI) hinner (List.suffix_refl _) (Or.inl rfl)
      (fun _ hI hIt hR => rules.discard hI hIt hR) id fun hR => rules.aborted hR
  | error e t =>
    rw [hrun, ending_error] at hinner
    exact .frame (fun hI => rules.shadow _ (by simp) hI) hinner (List.suffix_refl _) (Or.inl rfl)
      (fun _ hI hIt hR => rules.discard hI hIt hR) id fun hR => rules.aborted hR

/-- The branches of a group, in a sink that is not the public one. -/
theorem kept_branches {β : Type} {scene : Scene} (hT : T scene) (amount : Nat)
    {ms : List (Validate β)} (hms : ∀ m ∈ ms, Keeps o G I R m) {s : Progress}
    (hmode : s.now.errors.mode ≠ .Public) {u : Progress} (hu : Kept G I R s u) :
    Kept G I R s (ending (branches (charge scene amount) ms o u)) := by
  induction ms generalizing u with
  | nil => exact hu
  | cons m ms ih =>
    rw [branches, bind_run]
    have hcharge := hu.trans rules (keeps_charge rules hT amount u)
    cases hrun : charge scene amount o u with
    | error e u₁ =>
      rw [hrun] at hcharge
      exact hcharge
    | ok _ u₁ =>
      rw [hrun, ending_ok] at hcharge
      have hfresh : Kept G I R s (u₁.step u₁.now.freshSink) := by
        refine hcharge.andStep rules fun _ hI hR => rules.fresh hI ?_
        rw [rules.mode hR]
        exact hmode
      show Kept G I R s (ending ((m >>= fun b => unlessAborted >>= fun _ =>
        branches (charge scene amount) ms >>= fun bs => pure (b :: bs)) o (u₁.step u₁.now.freshSink)))
      have hm := hfresh.trans rules (hms m List.mem_cons_self _)
      rw [bind_run]
      cases hrun₂ : m o (u₁.step u₁.now.freshSink) with
      | error e u₂ =>
        rw [hrun₂] at hm
        exact hm
      | ok b u₂ =>
        rw [hrun₂, ending_ok] at hm
        dsimp only
        rw [bind_run, unlessAborted_run]
        by_cases ha : u₂.now.ctx.aborted = true
        · rw [if_pos ha]
          exact hm
        · rw [if_neg ha]
          dsimp only
          have hrest := ih (fun m' hm' => hms m' (List.mem_cons_of_mem _ hm')) hm
          rw [bind_run]
          cases hrun₃ : branches (charge scene amount) ms o u₂ with
          | error e u₃ =>
            rw [hrun₃] at hrest
            exact hrest
          | ok bs u₃ =>
            rw [hrun₃] at hrest
            exact hrest

omit rules in
/-- Branches that all return have not aborted the run. -/
theorem branches_live {β : Type} {o : Options} {charged : Validate Unit} {ms : List (Validate β)}
    {s t : Progress} {bs : List β} (hrun : branches charged ms o s = .ok bs t)
    (ht : t.now.ctx.aborted = true) : s.now.ctx.aborted = true := by
  induction ms generalizing s t bs with
  | nil =>
    cases hrun
    exact ht
  | cons m ms ih =>
    obtain ⟨_, s₁, -, hrest⟩ := parts_of_bind hrun
    obtain ⟨_, s₂, -, hrest⟩ := parts_of_bind hrest
    obtain ⟨_, s₃, -, hrest⟩ := parts_of_bind hrest
    obtain ⟨_, s₄, hlive, hrest⟩ := parts_of_bind hrest
    obtain ⟨bs', t', hbranches, hpure⟩ := parts_of_bind hrest
    cases hpure
    rw [unlessAborted_run] at hlive
    split_ifs at hlive with ha
    cases hlive
    exact absurd (ih hbranches ht) ha

/-- The last step of a group that started at `b` and whose branches ended at `t`. -/
theorem kept_close {scene : Scene} (hT : T scene) {b t : Moment} (hb : I b) (ht : I t)
    (hR : R (b.shadow (groupMode o)) t) (hlive : t.ctx.aborted = true → b.ctx.aborted = true)
    {s : Settlement} (hs : s.Proper o.collectNestedCauses scene)
    (hG : G ⟨t.unshadow b, t.errors.values, s.fate⟩) :
    I (s.close o b t.errors.values (t.unshadow b)).1 ∧
      R b (s.close o b t.errors.values (t.unshadow b)).1 := by
  obtain ⟨error, fate⟩ := s
  cases fate with
  | kept =>
    cases error with
    | none => exact absurd (hs.passed rfl) (by simp)
    | some e => exact rules.hand hT (hs.about e rfl) (hs.kept rfl) hb ht hR hG
  | givenBack =>
    have hback := rules.giveBack hb ht hR hlive
    cases error with
    | none => exact hback
    | some e =>
      have habout := hs.about e rfl
      obtain ⟨hI, hR'⟩ := rules.push (e := { e with causes := [] }) hT
        ⟨habout.location, habout.subject, rfl⟩ hback.1
      exact ⟨hI, rules.trans hback.2 hR'⟩
  | dropped =>
    obtain ⟨hI, hR'⟩ := rules.abandon hb ht hR hG
    cases error with
    | none => exact absurd (hs.passed rfl) (by simp)
    | some e =>
      have habout := hs.about e rfl
      obtain ⟨hI', hR''⟩ := rules.push (e := { e with causes := [] }) hT
        ⟨habout.location, habout.subject, rfl⟩ hI
      exact ⟨hI', rules.trans hR' hR''⟩

omit rules in
/-- However a group is settled, an aborted run stays so. -/
theorem close_aborted {s : Settlement} {o : Options} {b m : Moment} {causes : List SchemaError}
    (h : m.ctx.aborted = true) : (s.close o b causes m).1.ctx.aborted = true := by
  have hm : (if s.fate = .givenBack then m.withDiagnostics b.ctx.diagnosticsUsed else m).ctx.aborted =
      true := by
    split_ifs <;> exact h
  rw [Settlement.close]
  cases s.error with
  | none => exact hm
  | some e =>
    dsimp only
    rw [Moment.push_keeps_aborted hm]
    exact hm

/-- A group: each branch with its sink, and the settlement at the end. -/
theorem keeps_group {β : Type} {scene : Scene} (hT : T scene) (amount : Nat)
    {ms : List (Validate β)} (hms : ∀ m ∈ ms, Keeps o G I R m)
    {verdict : Bool → List β → Settlement}
    (hverdict : ∀ collect bs, (verdict collect bs).Proper collect scene) :
    Keeps o G I R (Validate.group (charge scene amount) ms verdict) := by
  intro s
  have hmode : groupMode o ≠ .Public := by
    rw [groupMode]
    split_ifs <;> simp
  have hstart : Kept G I R (s.step (s.now.shadow (groupMode o)))
      (s.step (s.now.shadow (groupMode o))) := .refl rules _
  have hinner := kept_branches rules hT amount hms hmode hstart
  rw [Validate.group]
  cases hrun : branches (charge scene amount) ms o (s.step (s.now.shadow (groupMode o))) with
  | error e t =>
    rw [hrun, ending_error] at hinner
    exact .frame (fun hI => rules.shadow _ hmode hI) hinner (List.suffix_cons _ _) (Or.inl rfl)
      (fun hG hI hIt hR => rules.abandon hI hIt hR (hG _ List.mem_cons_self)) id
      fun hR => rules.aborted hR
  | ok bs t =>
    rw [hrun, ending_ok] at hinner
    dsimp only
    have hlive : t.now.ctx.aborted = true → s.now.ctx.aborted = true := by
      intro ht
      have hstarted := branches_live hrun ht
      exact hstarted
    have hending : ∀ (threw : Bool) (u : Progress),
        ending (if threw then .error .budgetExceeded u else .ok bs u) = u := by
      intro threw u
      cases threw <;> rfl
    rw [hending]
    exact .frame (fun hI => rules.shadow _ hmode hI) hinner (List.suffix_cons _ _) (Or.inr rfl)
      (fun hG hI hIt hR => kept_close rules hT hI hIt hR hlive (hverdict _ _) (hG _ List.mem_cons_self))
      (fun ha => close_aborted (show (t.now.unshadow s.now).ctx.aborted = true from ha))
      fun hR => rules.aborted hR

/-- **The run lemma**: a program made of steps keeps what the rules are about. -/
theorem Steps.keeps (hmore : ∀ scene (α : Type) (m : Validate α), A scene α m → T scene →
      Keeps o G I R m) {d : Bool} {n : Nat} {scene : Scene} {α : Type} {m : Validate α}
    (h : Steps A d n scene α m) (hT : T scene) : Keeps o G I R m := by
  induction h with
  | pure a => exact keeps_of_still rules fun _ => rfl
  | bind _ _ ihm ihf => exact keeps_bind rules (ihm hT) fun a ha => ihf a ha hT
  | exit _ => exact keeps_of_still rules fun _ => rfl
  | differ => exact keeps_of_still rules fun _ => rfl
  | outOfFuel => exact keeps_of_still rules fun _ => rfl
  | fewer _ _ ih => exact ih hT
  | lead hlead _ ih => exact ih (rules.lead hT hlead)
  | more hA => exact hmore _ _ _ hA hT
  | read _ => exact keeps_of_still rules fun _ => rfl
  | look f => exact keeps_of_still rules fun _ => rfl
  | push he => exact keeps_push rules hT he
  | pay amount => exact keeps_pay rules hT amount
  | cache f => exact fun _ => .step rules fun hI => rules.cache f hI
  | annotate f => exact fun _ => .step rules fun hI => rules.annotate _ hI
  | count message =>
    intro s
    rw [countReference_run]
    -- Either the limit is reached and the budget is failed, or one more is counted below it.
    by_cases hfull : validationRefLimit o ≤ s.now.ctx.refResolutions
    · rw [if_pos hfull]
      exact .step rules fun hI => rules.budget hT hI
    · rw [if_neg hfull]
      exact .step rules fun hI => rules.count hI (not_le.mp hfull)
  | activate S site keyword target message =>
    refine keeps_bind rules (keeps_of_still rules fun _ => rfl) fun cycle _ => ?_
    -- A cycle is reported and left; otherwise the pair joins the active ones.
    cases cycle with
    | true =>
      refine keeps_bind rules ?_ fun _ _ => keeps_of_still rules fun _ => rfl
      exact keeps_push rules hT (Steps.about_validationError ..)
    | false => exact fun _ => .step rules fun hI => rules.activate _ hI
  | enterResource site =>
    intro s
    refine .step rules fun hI => ?_
    dsimp only
    split_ifs
    · exact ⟨hI, rules.refl _⟩
    · exact rules.enterResource _ hI
  | descend _ ih =>
    -- Going down is the step the depth limit guards.
    refine keeps_checkDepth rules hT fun s hdepth => ?_
    have hstep : Kept G I R s (s.step s.now.descend) := .step rules fun hI => rules.descend hI hdepth
    exact hstep.trans rules (ih hT _)
  | answer _ ih =>
    intro s
    rw [ending_answered]
    exact ih hT s
  | discard _ ih => exact keeps_discard rules (ih hT)
  | group amount _ hverdict ih => exact keeps_group rules hT amount (fun m hm => ih m hm hT) hverdict
  | call _ ih => exact keeps_call rules hT (ih hT)

end RunLemma

end ByteDance
