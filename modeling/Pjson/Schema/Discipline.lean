/-
  The evaluator keeps its state in order, and it ends.

  The three counters stay within their limits in every state of a run, and every way out of a call
  puts back the depth, the active references and the dynamic scope.  A call adds a level of depth
  and so does a hop along a reference, so the depth limit bounds the recursion whatever the schema
  refers to.  A run that has been aborted does not come back with `true`
  (`validateCtx_disciplined`).
-/
import Pjson.Schema.Keeping

namespace ByteDance

open Validate Run

/-! ## Two moments of a call -/

/-- A later moment of the same call: the guards have taken what is new on the two stacks, and the
    levels. -/
structure Moment.Extends (a b : Moment) : Prop where
  depth : b.ctx.depth + a.levels = a.ctx.depth + b.levels
  levels : a.levels ≤ b.levels
  activeRefs : a.ctx.activeRefs <+: b.ctx.activeRefs
  dynamicScope : a.ctx.dynamicScope <+: b.ctx.dynamicScope
  aborted : a.ctx.aborted = true → b.ctx.aborted = true
  mode : b.errors.mode = a.errors.mode
  hidden : b.hidden = a.hidden
  start : b.ctx.publicErrorStart = a.ctx.publicErrorStart
  /-- Behind a scratch sink nothing is published, unless it aborts the run. -/
  quiet : a.errors.mode ≠ .Public → (b.ctx.aborted = true → a.ctx.aborted = true) →
    b.ctx.publicErrors = a.ctx.publicErrors

namespace Moment.Extends

variable {a b c : Moment}

/-- The moment itself. -/
theorem refl (a : Moment) : a.Extends a :=
  ⟨rfl, le_rfl, List.prefix_rfl, List.prefix_rfl, id, rfl, rfl, rfl, fun _ _ => rfl⟩

/-- A later moment of a later one. What is quiet in both parts is quiet throughout, since an abort
    is never taken back. -/
theorem trans (h : a.Extends b) (h' : b.Extends c) : a.Extends c where
  depth := by
    have hab := h.depth
    have hbc := h'.depth
    omega
  levels := h.levels.trans h'.levels
  activeRefs := h.activeRefs.trans h'.activeRefs
  dynamicScope := h.dynamicScope.trans h'.dynamicScope
  aborted ha := h'.aborted (h.aborted ha)
  mode := h'.mode.trans h.mode
  hidden := h'.hidden.trans h.hidden
  start := h'.start.trans h.start
  quiet hmode hlive := by
    have hbc := h'.quiet (by rw [h.mode]; exact hmode) fun hc => h.aborted (hlive hc)
    exact hbc.trans (h.quiet hmode fun hb => hlive (h'.aborted hb))

/-- A diagnostic may abort the run, and changes nothing else of this. -/
theorem of_frame (h : b.frame = a.frame) (ha : a.ctx.aborted = true → b.ctx.aborted = true)
    (hquiet : a.errors.mode ≠ .Public → (b.ctx.aborted = true → a.ctx.aborted = true) →
      b.ctx.publicErrors = a.ctx.publicErrors) : a.Extends b := by
  rw [Moment.frame, Moment.frame, Moment.Frame.mk.injEq] at h
  obtain ⟨hstart, hdepth, -, -, hrefs, -, hscope, hmode, hhidden, hlevels, -⟩ := h
  refine ⟨by rw [hdepth, hlevels], hlevels.ge, ?_, ?_, ha, hmode, hhidden, hstart, hquiet⟩
  · rw [hrefs]
  · rw [hscope]

/-- A diagnostic that is reported. -/
theorem push (o : Options) (e : SchemaError) (m : Moment) : m.Extends (m.push o e).1 := by
  refine of_frame (Moment.push_frame e) (fun ha => ?_) fun hmode _ => ?_
  · rw [Moment.push_keeps_aborted ha]
    exact ha
  · exact Moment.push_cases (fun _ => rfl) (fun _ _ _ => rfl) (fun _ _ _ => rfl)
      (fun _ h => absurd h hmode) (fun _ h => absurd h hmode) (fun _ h => absurd h hmode)

/-- A budget that fails: it aborts, so nothing is asked of what it publishes. -/
theorem failBudget (o : Options) (scene : Scene) (message : Bytes) (m : Moment) :
    m.Extends (m.failBudget o scene message) := by
  refine of_frame (Moment.failBudget_frame ..) (fun _ => Moment.failBudget_aborted ..) fun _ hlive => ?_
  rw [Moment.failBudget, if_pos (hlive (Moment.failBudget_aborted ..))]

/-- Work that is charged for, whether or not there is enough. -/
theorem charge (o : Options) (scene : Scene) (amount : Nat) (m : Moment) :
    m.Extends (m.charge o scene amount).1 :=
  Moment.charge_cases (fun _ => failBudget ..) fun _ =>
    ⟨rfl, le_rfl, List.prefix_rfl, List.prefix_rfl, id, rfl, rfl, rfl, fun _ _ => rfl⟩

/-- A later moment of a call with a scratch sink. -/
theorem unshadow {mode : SinkMode} (hmode : mode ≠ .Public) (h : (a.shadow mode).Extends b) :
    a.Extends (b.unshadow a) :=
  ⟨h.depth, h.levels, h.activeRefs, h.dynamicScope, h.aborted, rfl, rfl, h.start,
    fun _ => h.quiet hmode⟩

/-- The guard of the depth takes off the level of the call and those of its hops. -/
theorem leave_depth (h : a.enter.Extends b) : (b.leave a).ctx.depth = a.ctx.depth := by
  have hdepth : b.ctx.depth + 1 = a.ctx.depth + 1 + b.levels := h.depth
  show b.ctx.depth - b.levels = a.ctx.depth
  omega

/-- The guard of the references cuts the stack back to the length it had. -/
theorem leave_activeRefs (h : a.enter.Extends b) :
    (b.leave a).ctx.activeRefs = a.ctx.activeRefs :=
  (List.prefix_iff_eq_take.mp h.activeRefs).symm

/-- And so does the guard of the dynamic scope. -/
theorem leave_dynamicScope (h : a.enter.Extends b) :
    (b.leave a).ctx.dynamicScope = a.ctx.dynamicScope :=
  (List.prefix_iff_eq_take.mp h.dynamicScope).symm

/-- **The guards make a later moment of the callee a later moment of the caller.** -/
theorem leave (h : a.enter.Extends b) : a.Extends (b.leave a) := by
  refine ⟨?_, le_rfl, ?_, ?_, h.aborted, h.mode, h.hidden, h.start, h.quiet⟩
  · rw [h.leave_depth]
    rfl
  · rw [h.leave_activeRefs]
  · rw [h.leave_dynamicScope]

end Moment.Extends

/-! ## Invariants -/

/-- What has to be shown of an invariant: the rules, less what they say about two moments. -/
structure Invariant (o : Options) (T : Scene → Prop) (G : GroupEnd → Prop) (I : Moment → Prop) :
    Prop where
  lead {scene scene' : Scene} : T scene → scene.Leads scene' → T scene'
  push {scene : Scene} {e : SchemaError} {m : Moment} : T scene → e.About scene → I m →
    I (m.push o e).1
  budget {scene : Scene} {message : Bytes} {m : Moment} : T scene → I m →
    I (m.failBudget o scene message)
  pay {amount : Nat} {m : Moment} : I m →
    m.ctx.workUsed + amount ≤ validationWorkLimit o ∨ amount = 0 →
    I { m with ctx := { m.ctx with workUsed := m.ctx.workUsed + amount } }
  cache {m : Moment} (f : List (Bytes × RegexState) → List (Bytes × RegexState)) : I m →
    I { m with ctx := { m.ctx with regexCache := f m.ctx.regexCache } }
  annotate {m : Moment} (a : SchemaAnnotations) : I m → I { m with evaluated := a }
  count {m : Moment} : I m → m.ctx.refResolutions < validationRefLimit o →
    I { m with ctx := { m.ctx with refResolutions := m.ctx.refResolutions + 1 } }
  activate {m : Moment} (active : Address × Address) : I m → I (m.activated active)
  enterResource {m : Moment} (target : SchemaTarget) : I m →
    I { m with ctx := { m.ctx with dynamicScope := m.ctx.dynamicScope ++ [target] } }
  descend {m : Moment} : I m → m.ctx.depth < validationDepthLimit o → I m.descend
  shadow {m : Moment} (mode : SinkMode) : mode ≠ .Public → I m → I (m.shadow mode)
  discard {b t : Moment} : I b → I t → (b.shadow .Discard).Extends t → I (t.unshadow b)
  fresh {m : Moment} : I m → I m.freshSink
  giveBack {b t : Moment} : I b → I t → (b.shadow (groupMode o)).Extends t →
    (t.ctx.aborted = true → b.ctx.aborted = true) →
    I ((t.unshadow b).withDiagnostics b.ctx.diagnosticsUsed)
  hand {scene : Scene} {e : SchemaError} {b t : Moment} : T scene → e.About scene →
    o.collectNestedCauses = true → I b → I t → (b.shadow (groupMode o)).Extends t →
    G ⟨t.unshadow b, t.errors.values, .kept⟩ →
    I ((t.unshadow b).push o { e with causes := t.errors.values }).1
  abandon {b t : Moment} : I b → I t → (b.shadow (groupMode o)).Extends t →
    G ⟨t.unshadow b, t.errors.values, .dropped⟩ → I (t.unshadow b)
  enter {m : Moment} : I m → m.ctx.depth < validationDepthLimit o → I m.enter
  leave {b t : Moment} : I b → I t → b.enter.Extends t → I (t.leave b)

/-- A group never writes to the public sink. -/
theorem groupMode_ne (o : Options) : groupMode o ≠ .Public := by
  rw [groupMode]
  split_ifs
  · simp
  · simp

/-- What the rules say of two moments is the same for every invariant, so it is shown once here. -/
theorem Invariant.rules {o : Options} {T : Scene → Prop} {G : GroupEnd → Prop} {I : Moment → Prop}
    (h : Invariant o T G I) : Rules o T G I Moment.Extends where
  refl := .refl
  trans := .trans
  aborted h := h.aborted
  mode h := h.mode
  lead := h.lead
  push hT he hI := ⟨h.push hT he hI, .push ..⟩
  pay hT hI := ⟨Moment.charge_cases (fun _ => h.budget hT hI) (h.pay hI), .charge ..⟩
  budget hT hI := ⟨h.budget hT hI, .failBudget ..⟩
  cache f hI := ⟨h.cache f hI, rfl, le_rfl, List.prefix_rfl, List.prefix_rfl, id, rfl, rfl, rfl,
      fun _ _ => rfl⟩
  annotate a hI := ⟨h.annotate a hI, rfl, le_rfl, List.prefix_rfl, List.prefix_rfl, id, rfl, rfl, rfl,
      fun _ _ => rfl⟩
  count hI hroom := ⟨h.count hI hroom, rfl, le_rfl, List.prefix_rfl, List.prefix_rfl, id, rfl, rfl, rfl,
      fun _ _ => rfl⟩
  activate active hI :=
    ⟨h.activate active hI, rfl, le_rfl, List.prefix_append _ _, List.prefix_rfl, id, rfl, rfl, rfl,
      fun _ _ => rfl⟩
  enterResource target hI :=
    ⟨h.enterResource target hI, rfl, le_rfl, List.prefix_rfl, List.prefix_append _ _, id, rfl, rfl, rfl,
      fun _ _ => rfl⟩
  descend {m} hI hroom := by
    refine ⟨h.descend hI hroom, ?_, Nat.le_succ _, List.prefix_rfl, List.prefix_rfl, id, rfl, rfl, rfl,
      fun _ _ => rfl⟩
    show m.ctx.depth + 1 + m.levels = m.ctx.depth + (m.levels + 1)
    omega
  shadow := h.shadow
  discard hb ht hR := ⟨h.discard hb ht hR, hR.unshadow (by simp)⟩
  fresh hI _ := ⟨h.fresh hI, rfl, le_rfl, List.prefix_rfl, List.prefix_rfl, id, rfl, rfl, rfl,
      fun _ _ => rfl⟩
  giveBack {b t} hb ht hR hlive := by
    have hback : b.Extends (t.unshadow b) := hR.unshadow (groupMode_ne o)
    exact ⟨h.giveBack hb ht hR hlive, hback.depth, hback.levels, hback.activeRefs, hback.dynamicScope,
      hback.aborted, hback.mode, hback.hidden, hback.start, hback.quiet⟩
  hand hT he hcollect hb ht hR hG := ⟨h.hand hT he hcollect hb ht hR hG, (hR.unshadow (groupMode_ne o)).trans (.push ..)⟩
  abandon hb ht hR hG := ⟨h.abandon hb ht hR hG, hR.unshadow (groupMode_ne o)⟩
  enter := h.enter
  leave hb ht hR := ⟨h.leave hb ht hR, hR.leave⟩

/-- The stacks and the depth only grow in a call. -/
theorem extends_rules (o : Options) :
    Rules o (fun _ => True) (fun _ => True) (fun _ => True) Moment.Extends :=
  Invariant.rules <| by constructor <;> intros <;> trivial

/-! ## The limits -/

/-- The counters are within their limits. -/
structure Moment.Bounded (o : Options) (m : Moment) : Prop where
  depth : m.ctx.depth ≤ validationDepthLimit o
  refResolutions : m.ctx.refResolutions ≤ validationRefLimit o
  workUsed : m.ctx.workUsed ≤ validationWorkLimit o

namespace Moment.Bounded

variable {o : Options} {a b : Moment}

/-- A diagnostic touches none of the three counters. -/
theorem of_frame (h : b.frame = a.frame) (ha : a.Bounded o) : b.Bounded o := by
  rw [Moment.frame, Moment.frame, Moment.Frame.mk.injEq] at h
  obtain ⟨-, hdepth, hrefs, hwork, -⟩ := h
  exact ⟨hdepth ▸ ha.depth, hrefs ▸ ha.refResolutions, hwork ▸ ha.workUsed⟩

theorem push {e : SchemaError} (h : a.Bounded o) : (a.push o e).1.Bounded o :=
  of_frame (Moment.push_frame e) h

theorem failBudget {scene : Scene} {message : Bytes} (h : a.Bounded o) :
    (a.failBudget o scene message).Bounded o := of_frame (Moment.failBudget_frame ..) h

end Moment.Bounded

/-- Each counter grows behind the test against its own limit, and nowhere else. -/
theorem bounded_invariant (o : Options) :
    Invariant o (fun _ => True) (fun _ => True) (Moment.Bounded o) where
  lead _ _ := trivial
  push _ _ h := h.push
  budget _ h := h.failBudget
  pay {amount m} h hroom := by
    refine ⟨h.depth, h.refResolutions, ?_⟩
    show m.ctx.workUsed + amount ≤ validationWorkLimit o
    have hwork := h.workUsed
    omega
  cache _ h := ⟨h.depth, h.refResolutions, h.workUsed⟩
  annotate _ h := ⟨h.depth, h.refResolutions, h.workUsed⟩
  count h hroom := ⟨h.depth, hroom, h.workUsed⟩
  activate _ h := ⟨h.depth, h.refResolutions, h.workUsed⟩
  enterResource _ h := ⟨h.depth, h.refResolutions, h.workUsed⟩
  descend h hroom := ⟨hroom, h.refResolutions, h.workUsed⟩
  shadow _ _ h := ⟨h.depth, h.refResolutions, h.workUsed⟩
  discard _ h _ := ⟨h.depth, h.refResolutions, h.workUsed⟩
  fresh h := ⟨h.depth, h.refResolutions, h.workUsed⟩
  giveBack _ h _ _ := ⟨h.depth, h.refResolutions, h.workUsed⟩
  hand _ _ _ _ h _ _ := .push ⟨h.depth, h.refResolutions, h.workUsed⟩
  abandon _ h _ _ := ⟨h.depth, h.refResolutions, h.workUsed⟩
  enter h hroom := ⟨hroom, h.refResolutions, h.workUsed⟩
  leave _ h _ := ⟨(Nat.sub_le _ _).trans h.depth, h.refResolutions, h.workUsed⟩

/-- The limits, with what a later moment of a call has in common with an earlier one. -/
theorem bounded_rules (o : Options) :
    Rules o (fun _ => True) (fun _ => True) (Moment.Bounded o) Moment.Extends := (bounded_invariant o).rules

/-- A read of the options leaves the moment as it is. -/
theorem ReadsPatternOptions.keeps {o : Options} {T : Scene → Prop} {G : GroupEnd → Prop}
    {I : Moment → Prop} {R : Moment → Moment → Prop} (rules : Rules o T G I R) {scene : Scene}
    {α : Type} {m : Validate α} (h : ReadsPatternOptions scene α m) : Keeps o G I R m := by
  cases h
  exact keeps_of_still rules fun _ => rfl

/-- A program keeps the limits, the stacks and the depth. -/
abbrev Orderly (o : Options) {α : Type} (m : Validate α) : Prop :=
  Keeps o (fun _ => True) (Moment.Bounded o) Moment.Extends m

/-- Programs made of steps keep the limits, the stacks and the depth. -/
theorem Steps.orderly {o : Options} {d : Bool} {n : Nat} {scene : Scene} {α : Type} {m : Validate α}
    (h : Steps ReadsPatternOptions d n scene α m) : Orderly o m :=
  h.keeps (bounded_rules o) (fun _ _ _ hA _ => hA.keeps (bounded_rules o)) trivial

/-- What an orderly program says of the state it ends in. -/
theorem Orderly.after {o : Options} {α : Type} {m : Validate α} (h : Orderly o m) {s : Progress}
    (hs : s.now.Bounded o) : (ending (m o s)).now.Bounded o ∧ s.now.Extends (ending (m o s)).now :=
  (h s).now (fun _ _ => trivial) hs

/-! ## Termination -/

/-- With `n` levels left to the recursion, which is more than the depth limit leaves, the program
    does not run out of them, and finds values unequal only in a comparison. -/
def Completes (o : Options) (d : Bool) (n : Nat) {α : Type} (m : Validate α) : Prop :=
  ∀ s : Progress, s.now.Bounded o → validationDepthLimit o < n + s.now.ctx.depth →
    ∀ e t, m o s = .error e t → e ≠ .outOfFuel ∧ (e = .unequal → d = true)

section Termination

variable {o : Options} {d : Bool} {n : Nat} {α β : Type}

/-- A program that cannot fail. -/
theorem completes_of_ok {m : Validate α} (h : ∀ s, ∃ a t, m o s = .ok a t) : Completes o d n m := by
  intro s _ _ e t hrun
  obtain ⟨a, u, hok⟩ := h s
  rw [hok] at hrun
  cases hrun

/-- The rest of a program starts with no less depth. -/
theorem completes_bind {m : Validate α} {f : α → Validate β} (hm : Completes o d n m)
    (hkeep : Orderly o m) (hf : ∀ a, Returns m a → Completes o d n (f a)) :
    Completes o d n (m >>= f) := by
  intro s hs hfuel e t hrun
  have hafter := hkeep.after hs
  rw [bind_run] at hrun
  cases hrun₁ : m o s with
  | error e' u =>
    rw [hrun₁] at hrun
    cases hrun
    exact hm s hs hfuel e t hrun₁
  | ok a u =>
    rw [hrun₁] at hrun hafter
    obtain ⟨hu, hext⟩ := hafter
    refine hf a ⟨o, s, u, hrun₁⟩ u hu ?_ e t hrun
    have hdepth : u.now.ctx.depth + s.now.levels = s.now.ctx.depth + u.now.levels := hext.depth
    have hlevels : s.now.levels ≤ u.now.levels := hext.levels
    omega

/-- A continuation that cannot fail. -/
theorem completes_map {m : Validate α} (hm : Completes o d n m) (f : α → β) :
    Completes o d n (m >>= fun a => pure (f a)) := by
  intro s hs hfuel e t hrun
  rw [bind_run] at hrun
  cases hrun₁ : m o s with
  | error e' u =>
    rw [hrun₁] at hrun
    cases hrun
    exact hm s hs hfuel e t hrun₁
  | ok a u =>
    rw [hrun₁] at hrun
    cases hrun

/-- A full sink may end the run, with an exit of its own. -/
theorem completes_push (e : SchemaError) : Completes o d n (push_back e) := by
  intro s _ _ x t hrun
  rw [push_back] at hrun
  dsimp only at hrun
  split_ifs at hrun
  cases hrun
  exact ⟨by simp, by simp⟩

/-- `return false` is neither of the two exits. -/
theorem completes_return : Completes o d n (exit .returned : Validate α) := by
  rintro s _ _ e t ⟨⟩
  exact ⟨by simp, by simp⟩

/-- A condition that leaves the call if it is false. -/
theorem completes_require {m : Validate Bool} (hm : Completes o d n m) (hkeep : Orderly o m) :
    Completes o d n (require m) := by
  refine completes_bind hm hkeep fun ok _ => ?_
  cases ok with
  | true => exact completes_of_ok fun _ => ⟨_, _, rfl⟩
  | false => exact completes_return

/-- A charge may leave the call, and no more. -/
theorem completes_charge (scene : Scene) (amount : Nat) : Completes o d n (charge scene amount) :=
  completes_require (completes_of_ok fun _ => ⟨_, _, rfl⟩) (keeps_pay (bounded_rules o) trivial amount)

/-- So may the test for an abort. -/
theorem completes_unlessAborted : Completes o d n unlessAborted :=
  completes_require (completes_of_ok fun _ => ⟨_, _, rfl⟩)
    (keeps_of_still (bounded_rules o) fun _ => rfl)

/-- What follows the test for the depth may assume that there is room for one more level. -/
theorem completes_checkDepth {scene : Scene} {m : Validate α}
    (hm : ∀ s : Progress, s.now.Bounded o → s.now.ctx.depth < validationDepthLimit o →
      validationDepthLimit o < n + s.now.ctx.depth →
      ∀ e t, m o s = .error e t → e ≠ .outOfFuel ∧ (e = .unequal → d = true)) :
    Completes o d n (checkDepth scene >>= fun _ => m) := by
  intro s hs hfuel e t hrun
  rw [bind_run, checkDepth_run] at hrun
  by_cases hfull : validationDepthLimit o ≤ s.now.ctx.depth
  · rw [if_pos hfull] at hrun
    cases hrun
    exact ⟨by simp, by simp⟩
  · rw [if_neg hfull] at hrun
    exact hm s hs (not_le.mp hfull) hfuel e t hrun

/-- A scope that is closed on every way out passes the exit on. -/
theorem completes_within {before : Moment → Moment} {after : Moment → Moment → Moment}
    {m : Validate α} {s : Progress} {k : Nat} (hm : Completes o d k m)
    (hs : (before s.now).Bounded o) (hfuel : validationDepthLimit o < k + (before s.now).ctx.depth)
    {e : Exit} {t : Progress} (hrun : within before after m o s = .error e t) :
    e ≠ .outOfFuel ∧ (e = .unequal → d = true) := by
  rw [within] at hrun
  cases hrun₁ : m o (s.step (before s.now)) with
  | ok a u =>
    rw [hrun₁] at hrun
    cases hrun
  | error e' u =>
    rw [hrun₁] at hrun
    cases hrun
    exact hm _ hs hfuel _ u hrun₁

/-- The guards of a call pay one level of depth for the one level of the recursion. -/
theorem completes_guarded {m : Validate Bool} (hm : Completes o d n m) (hkeep : Orderly o m)
    (s : Progress) (hs : s.now.Bounded o) (hroom : s.now.ctx.depth < validationDepthLimit o)
    (hfuel : validationDepthLimit o < n + 1 + s.now.ctx.depth) (e : Exit) (t : Progress)
    (hrun : guarded m o s = .error e t) : e ≠ .outOfFuel ∧ (e = .unequal → d = true) := by
  refine completes_within (k := n) ?_ ((bounded_rules o).enter hs hroom) ?_ hrun
  · exact completes_bind hm hkeep fun valid _ => completes_of_ok fun _ => ⟨_, _, rfl⟩
  · show validationDepthLimit o < n + (s.now.ctx.depth + 1)
    omega

/-- Each branch of a group starts with an empty sink. -/
theorem orderly_freshSink : Orderly o (update fun _ => Moment.freshSink) := fun _ =>
  .step (bounded_rules o) fun h => ⟨⟨h.depth, h.refResolutions, h.workUsed⟩, rfl, le_rfl,
    List.prefix_rfl, List.prefix_rfl, id, rfl, rfl, rfl, fun _ _ => rfl⟩

/-- The branches of a group, one after the other; induction on them. -/
theorem completes_branches (scene : Scene) (amount : Nat) {ms : List (Validate β)}
    (hms : ∀ m ∈ ms, Completes o d n m ∧ Orderly o m) :
    Completes o d n (branches (charge scene amount) ms) := by
  induction ms with
  | nil => exact completes_of_ok fun _ => ⟨_, _, rfl⟩
  | cons m ms ih =>
    obtain ⟨hm, hkeep⟩ := hms m List.mem_cons_self
    refine completes_bind (completes_charge scene amount)
      (keeps_charge (bounded_rules o) trivial amount) fun _ _ => ?_
    refine completes_bind (completes_of_ok fun _ => ⟨_, _, rfl⟩) orderly_freshSink fun _ _ => ?_
    refine completes_bind hm hkeep fun b _ => ?_
    refine completes_bind completes_unlessAborted (keeps_unlessAborted (bounded_rules o)) fun _ _ => ?_
    exact completes_map (ih fun m' hm' => hms m' (List.mem_cons_of_mem _ hm')) _

/-- A group ends as its branches do, unless its own error fills the sink. -/
theorem completes_group {scene : Scene} (amount : Nat) {ms : List (Validate β)}
    (hms : ∀ m ∈ ms, Completes o d n m ∧ Orderly o m) (verdict : Bool → List β → Settlement) :
    Completes o d n (Validate.group (charge scene amount) ms verdict) := by
  intro s hs hfuel e t hrun
  rw [Validate.group] at hrun
  have hbranches := completes_branches scene amount hms (s.step (s.now.shadow (groupMode o)))
    ⟨hs.depth, hs.refResolutions, hs.workUsed⟩ hfuel
  cases hrun₁ : branches (charge scene amount) ms o (s.step (s.now.shadow (groupMode o))) with
  | error e' u =>
    rw [hrun₁] at hrun
    cases hrun
    exact hbranches e u hrun₁
  | ok bs u =>
    rw [hrun₁] at hrun
    dsimp only at hrun
    split_ifs at hrun
    cases hrun
    exact ⟨by simp, by simp⟩

/-- A call is one level of the recursion; its `return false` is caught, and a comparison in it has
    caught its own exit. -/
theorem completes_call {scene : Scene} {m : Validate Bool} (hm : Completes o false n m)
    (hkeep : Orderly o m) : Completes o d (n + 1) (Validate.call do
      unlessAborted
      charge scene 1
      checkDepth scene
      guarded m) := by
  have hbody : Completes o false (n + 1) (do
      unlessAborted
      charge scene 1
      checkDepth scene
      guarded m) := by
    refine completes_bind completes_unlessAborted (keeps_unlessAborted (bounded_rules o)) fun _ _ => ?_
    refine completes_bind (completes_charge scene 1)
      (keeps_charge (bounded_rules o) trivial 1) fun _ _ => ?_
    exact completes_checkDepth (completes_guarded hm hkeep)
  intro s hs hfuel e t hrun
  rw [Validate.call] at hrun
  cases hrun₁ : (do
      unlessAborted
      charge scene 1
      checkDepth scene
      guarded m : Validate (Bool × SchemaAnnotations)) o s with
  | ok a u =>
    rw [hrun₁] at hrun
    cases hrun
  | error e' u =>
    rw [hrun₁] at hrun
    obtain ⟨hfuel', hunequal⟩ := hbody s hs hfuel e' u hrun₁
    cases e' with
    | returned => cases hrun
    | unequal => exact absurd (hunequal rfl) (by simp)
    | outOfFuel => exact absurd rfl hfuel'
    | budgetExceeded =>
      cases hrun
      exact ⟨by simp, by simp⟩
    | stopped stop =>
      cases hrun
      exact ⟨by simp, by simp⟩

end Termination

/-- **Every program made of steps completes.** -/
theorem Steps.completes {o : Options} {d : Bool} {n : Nat} {scene : Scene} {α : Type}
    {m : Validate α} (h : Steps ReadsPatternOptions d n scene α m) : Completes o d n m := by
  induction h with
  | pure a => exact completes_of_ok fun _ => ⟨_, _, rfl⟩
  | bind hm _ ihm ihf => exact completes_bind ihm hm.orderly ihf
  | exit he =>
    rintro s _ _ e t ⟨⟩
    exact ⟨fun h => by rw [h] at he; exact he, fun h => by rw [h] at he; exact he.elim⟩
  | differ =>
    rintro s _ _ e t ⟨⟩
    exact ⟨by simp, fun _ => rfl⟩
  | outOfFuel =>
    -- The measure: fuel and depth together exceed the limit, so no fuel is left only past it.
    intro s hs hfuel
    have hdepth := hs.depth
    omega
  | fewer _ hle ih =>
    intro s hs hfuel
    exact ih s hs (by omega)
  | lead _ _ ih => exact ih
  | more hA =>
    cases hA
    exact completes_of_ok fun _ => ⟨_, _, rfl⟩
  | read _ => exact completes_of_ok fun _ => ⟨_, _, rfl⟩
  | look f => exact completes_of_ok fun _ => ⟨_, _, rfl⟩
  | push _ => exact completes_push _
  | pay amount => exact completes_of_ok fun _ => ⟨_, _, rfl⟩
  | cache f => exact completes_of_ok fun _ => ⟨_, _, rfl⟩
  | annotate f => exact completes_of_ok fun _ => ⟨_, _, rfl⟩
  | count message =>
    intro s _ _ e t hrun
    rw [countReference_run] at hrun
    split_ifs at hrun
    cases hrun
    exact ⟨by simp, by simp⟩
  | activate S site keyword target message =>
    refine completes_bind (completes_of_ok fun _ => ⟨_, _, rfl⟩)
      (keeps_of_still (bounded_rules o) fun _ => rfl) fun cycle _ => ?_
    cases cycle with
    | true =>
      refine completes_bind (completes_push _) ?_ fun _ _ => completes_return
      exact keeps_push (bounded_rules o) trivial (about_validationError ..)
    | false => exact completes_of_ok fun _ => ⟨_, _, rfl⟩
  | enterResource site => exact completes_of_ok fun _ => ⟨_, _, rfl⟩
  | descend hm ih =>
    -- One unit of fuel goes, and the depth grows by one: the sum stays.
    refine completes_checkDepth fun s hs hroom hfuel e t hrun => ?_
    refine ih (s.step s.now.descend) ⟨hroom, hs.refResolutions, hs.workUsed⟩ ?_ e t hrun
    show validationDepthLimit o < _ + (s.now.ctx.depth + 1)
    omega
  | @answer d n scene m hm ih =>
    intro s hs hfuel e t hrun
    have hanswer : answered (m o s) = .error e t := hrun
    cases hrun₁ : m o s with
    | ok a u =>
      rw [hrun₁] at hanswer
      cases hanswer
    | error e' u =>
      rw [hrun₁] at hanswer
      obtain ⟨hfuel', -⟩ := ih s hs hfuel e' u hrun₁
      -- `answered` turns a return into a verdict and lets every other exit pass.
      cases e' with
      | unequal => cases hanswer
      | outOfFuel => exact absurd rfl hfuel'
      | returned =>
        cases hanswer
        exact ⟨by simp, by simp⟩
      | budgetExceeded =>
        cases hanswer
        exact ⟨by simp, by simp⟩
      | stopped stop =>
        cases hanswer
        exact ⟨by simp, by simp⟩
  | discard _ ih =>
    intro s hs hfuel e t hrun
    have hshadow : (s.now.shadow .Discard).Bounded o := ⟨hs.depth, hs.refResolutions, hs.workUsed⟩
    exact completes_within ih hshadow hfuel hrun
  | group amount hms _ ih =>
    exact completes_group amount (fun m hm => ⟨ih m hm, (hms m hm).orderly⟩) _
  | call hm ih => exact completes_call ih hm.orderly

/-! ## What a call restores -/

/-- The depth and the two stacks are those of before. -/
structure Moment.Restored (before after : Moment) : Prop where
  depth : after.ctx.depth = before.ctx.depth
  activeRefs : after.ctx.activeRefs = before.ctx.activeRefs
  dynamicScope : after.ctx.dynamicScope = before.ctx.dynamicScope

namespace Moment.Restored

variable {a b c : Moment}

theorem refl (a : Moment) : a.Restored a := ⟨rfl, rfl, rfl⟩

theorem trans (h : a.Restored b) (h' : b.Restored c) : a.Restored c :=
  ⟨h'.depth.trans h.depth, h'.activeRefs.trans h.activeRefs, h'.dynamicScope.trans h.dynamicScope⟩

/-- Nor does it touch the depth and the stacks. -/
theorem of_frame (h : b.frame = a.frame) : a.Restored b := by
  rw [Moment.frame, Moment.frame, Moment.Frame.mk.injEq] at h
  obtain ⟨-, hdepth, -, -, hrefs, -, hscope, -⟩ := h
  exact ⟨hdepth, hrefs, hscope⟩

/-- A charge leaves the depth and the stacks alone. -/
theorem charge (o : Options) (scene : Scene) (amount : Nat) (m : Moment) :
    m.Restored (m.charge o scene amount).1 :=
  Moment.charge_cases (fun _ => of_frame (Moment.failBudget_frame ..)) fun _ => ⟨rfl, rfl, rfl⟩

/-- What the guards of a call have put back. -/
theorem leave (h : a.enter.Extends b) : a.Restored (b.leave a) :=
  ⟨h.leave_depth, h.leave_activeRefs, h.leave_dynamicScope⟩

end Moment.Restored

/-- The program puts the depth and the two stacks back, however it ends. -/
def PutsBack (o : Options) {α : Type} (m : Validate α) : Prop :=
  ∀ s : Progress, s.now.Restored (ending (m o s)).now

section Restoration

variable {o : Options} {α β : Type}

/-- One program after the other. -/
theorem putsBack_bind {m : Validate α} {f : α → Validate β} (hm : PutsBack o m)
    (hf : ∀ a, PutsBack o (f a)) : PutsBack o (m >>= f) := by
  intro s
  have hs := hm s
  rw [bind_run]
  cases hrun : m o s with
  | error e u =>
    rw [hrun] at hs
    exact hs
  | ok a u =>
    rw [hrun] at hs
    exact hs.trans (hf a u)

/-- A charge, on either way out. -/
theorem putsBack_charge (scene : Scene) (amount : Nat) : PutsBack o (charge scene amount) := by
  intro s
  have hrun : charge scene amount o s =
      if (s.now.charge o scene amount).2 = true then .ok () (s.step (s.now.charge o scene amount).1)
      else .error .returned (s.step (s.now.charge o scene amount).1) := charge_run ..
  rw [hrun]
  split_ifs
  · exact .charge ..
  · exact .charge ..

/-- The test for an abort changes nothing. -/
theorem putsBack_unlessAborted : PutsBack o unlessAborted := by
  intro s
  rw [unlessAborted_run]
  split_ifs
  · exact .refl _
  · exact .refl _

/-- The test for the depth changes no depth: the guard behind it does. -/
theorem putsBack_checkDepth (scene : Scene) : PutsBack o (checkDepth scene) := by
  intro s
  rw [checkDepth_run]
  split_ifs
  · exact .of_frame (Moment.failBudget_frame ..)
  · exact .refl _

/-- The guards of a call, on every way out of it. -/
theorem putsBack_guarded {m : Validate Bool}
    (hm : Keeps o (fun _ => True) (fun _ => True) Moment.Extends m) : PutsBack o (guarded m) := by
  intro s
  have hbody : Keeps o (fun _ => True) (fun _ => True) Moment.Extends (do
      let valid ← m
      let evaluated ← inspect fun _ m => m.evaluated
      pure (valid, evaluated)) :=
    keeps_bind (extends_rules o) hm fun valid _ => keeps_of_still (extends_rules o) fun _ => rfl
  have hinner := ((hbody (s.step s.now.enter)).now (fun _ _ => trivial) trivial).2
  rw [guarded, within]
  cases hrun : (do
      let valid ← m
      let evaluated ← inspect fun _ m => m.evaluated
      pure (valid, evaluated) : Validate (Bool × SchemaAnnotations)) o (s.step s.now.enter) with
  | ok a t =>
    rw [hrun] at hinner
    exact .leave hinner
  | error e t =>
    rw [hrun] at hinner
    exact .leave hinner

end Restoration

/-- **Every way out of a call restores the depth and the two stacks.** -/
theorem validateCtx_putsBack (S : Session) (fuel : Nat) (scene : Scene) (schema : NodePtr)
    (resourceRoot : Option NodePtr) (baseUri : Bytes) (o : Options) :
    PutsBack o (Validate.validateCtx S fuel scene schema resourceRoot baseUri) := by
  cases fuel with
  | zero => exact fun s => .refl _
  | succ fuel =>
    intro s
    have hbody : Steps ReadsPatternOptions false fuel scene Bool
        (evaluateSchema S (Validate.validateCtx S fuel) fuel scene schema resourceRoot baseUri) :=
      Steps.evaluateSchema (Steps.validateCtx (Steps.evaluateRegex S) fuel) (Steps.evaluateRegex S) ..
    have hkeeps := hbody.keeps (extends_rules o) (fun _ _ _ hA _ => hA.keeps (extends_rules o)) trivial
    have hcall : PutsBack o (do
        unlessAborted
        charge scene 1
        checkDepth scene
        guarded (evaluateSchema S (Validate.validateCtx S fuel) fuel scene schema resourceRoot baseUri)) :=
      putsBack_bind putsBack_unlessAborted fun _ => putsBack_bind (putsBack_charge _ _) fun _ =>
        putsBack_bind (putsBack_checkDepth _) fun _ => putsBack_guarded hkeeps
    have hs := hcall s
    rw [← ending_caught] at hs
    exact hs

/-! ## An aborted run -/

/-- A program that returns has not aborted the run. -/
def Stays (o : Options) {α : Type} (m : Validate α) : Prop :=
  ∀ s a t, s.now.ctx.aborted = false → m o s = .ok a t → t.now.ctx.aborted = false

section Live

variable {o : Options} {α β : Type}

/-- A program that changes nothing. -/
theorem stays_of_still {m : Validate α} (h : ∀ s a t, m o s = .ok a t → t = s) : Stays o m := by
  intro s a t hs hrun
  rw [h s a t hrun]
  exact hs

/-- One program after the other. -/
theorem stays_bind {m : Validate α} {f : α → Validate β} (hm : Stays o m)
    (hf : ∀ a, Stays o (f a)) : Stays o (m >>= f) := by
  intro s b t hs hrun
  obtain ⟨a, u, hm', hf'⟩ := parts_of_bind hrun
  exact hf a u b t (hm s a u hs hm') hf'

/-- A value. -/
theorem stays_pure (a : α) : Stays o (pure a : Validate α) := by
  rintro s b t hs ⟨⟩
  exact hs

/-- What exits does not return. -/
theorem stays_exit (m : Validate β) (e : Exit) : Stays o (m >>= fun _ => (exit e : Validate α)) := by
  intro s a t _ hrun
  obtain ⟨b, u, -, hexit⟩ := parts_of_bind hrun
  cases hexit

/-- If the test for the depth comes back, it has not failed the budget. -/
theorem stays_checkDepth (scene : Scene) : Stays o (checkDepth scene) := by
  refine stays_of_still fun s a t hrun => ?_
  rw [checkDepth_run] at hrun
  split_ifs at hrun
  cases hrun
  rfl

/-- A charge that is paid adds to the work and does nothing else. -/
theorem charge_of_paid {scene : Scene} {amount : Nat} {m : Moment}
    (h : (m.charge o scene amount).2 = true) :
    (m.charge o scene amount).1 =
      { m with ctx := { m.ctx with workUsed := m.ctx.workUsed + amount } } := by
  rw [Moment.charge] at h ⊢
  dsimp only at h ⊢
  split_ifs at h ⊢ with hroom
  rfl

/-- If a charge comes back, it has been paid. -/
theorem stays_charge (scene : Scene) (amount : Nat) : Stays o (charge scene amount) := by
  intro s a t hs hrun
  have hcharge : charge scene amount o s =
      if (s.now.charge o scene amount).2 = true then .ok () (s.step (s.now.charge o scene amount).1)
      else .error .returned (s.step (s.now.charge o scene amount).1) := charge_run ..
  rw [hcharge] at hrun
  split_ifs at hrun with hpaid
  cases hrun
  show (s.now.charge o scene amount).1.ctx.aborted = false
  rw [charge_of_paid hpaid]
  exact hs

/-- If the count comes back, there was room for one more. -/
theorem stays_countReference (scene : Scene) (message : Bytes) :
    Stays o (countReference scene message) := by
  intro s a t hs hrun
  rw [countReference_run] at hrun
  split_ifs at hrun
  cases hrun
  exact hs

variable (S : Session)

/-- If a resolution comes back, nothing has been reported. -/
theorem stays_resolveReference (scene : Scene) (site : Site) (keyword : String) (reference : Bytes) :
    Stays o (resolveReference S scene site keyword reference) := by
  rw [resolveReference]
  cases resolveSchemaReference reference site.baseUri S.compiled with
  | ok target => exact stays_pure _
  | error message => exact stays_exit _ _

/-- If a reference has been entered, no cycle has been reported. -/
theorem stays_activate (scene : Scene) (site : Site) (keyword : String) (target : SchemaTarget)
    (message : Bytes) : Stays o (activate S scene site keyword target message) := by
  refine stays_bind (stays_of_still ?_) fun cycle => ?_
  · rintro s a t ⟨⟩
    rfl
  · cases cycle with
    | true => exact stays_exit _ _
    | false =>
      rintro s a t hs ⟨⟩
      exact hs

/-- A loop that comes back has only entered references; induction on the fuel. -/
theorem stays_followReferences (scene : Scene) (fuel : Nat) (site : Site) :
    Stays o (followReferences S scene fuel site) := by
  induction fuel generalizing site with
  | zero =>
    rintro s a t _ ⟨⟩
  | succ fuel ih =>
    rw [followReferences]
    split
    · exact stays_pure _
    · exact stays_exit _ _
    · split
      · exact stays_pure _
      · split_ifs
        · exact stays_pure _
        · refine stays_bind ?_ fun target => ?_
          · refine stays_bind (stays_countReference _ _) fun _ => ?_
            refine stays_bind (stays_resolveReference S _ _ _ _) fun resolved => ?_
            refine stays_bind (stays_pure _) fun target => ?_
            exact stays_bind (stays_activate S _ _ _ _ _) fun _ => stays_pure _
          · refine stays_bind (stays_charge _ _) fun _ => stays_bind (stays_checkDepth _) fun _ => ?_
            refine stays_bind ?_ fun _ => ih _
            rintro s a t hs ⟨⟩
            exact hs
    · exact stays_pure _

/-- What a program returns, and where. -/
def Yields (o : Options) {α : Type} (m : Validate α) (P : α → Progress → Prop) : Prop :=
  ∀ s a t, m o s = .ok a t → P a t

/-- The last program decides. -/
theorem yields_bind {m : Validate α} {f : α → Validate β} {P : β → Progress → Prop}
    (hf : ∀ a, Yields o (f a) P) : Yields o (m >>= f) P := by
  intro s b t hrun
  obtain ⟨a, u, -, hf'⟩ := parts_of_bind hrun
  exact hf a u b t hf'

/-- `true` and an aborted run exclude each other. -/
def Honest (valid : Bool) (t : Progress) : Prop := valid = true → t.now.ctx.aborted = false

/-- The verdict of a site asks for the flag itself. -/
theorem evaluateSite_honest (rec : Recurse) (scene : Scene) (site : Site) :
    Yields o (evaluateSite S rec scene site) Honest := by
  refine yields_bind fun before => yields_bind fun _ => yields_bind fun _ => yields_bind fun _ =>
    yields_bind fun _ => ?_
  rintro s valid t ⟨⟩ hvalid
  simp only [Bool.and_eq_true, Bool.not_eq_true'] at hvalid
  exact hvalid.1

/-- A loop over references that ends in `return true` has not aborted the run. -/
theorem evaluateSchema_honest (rec : Recurse) (fuel : Nat) (scene : Scene) (schema : NodePtr)
    (resourceRoot : Option NodePtr) (baseUri : Bytes) {s t : Progress} {valid : Bool}
    (hs : s.now.ctx.aborted = false)
    (hrun : evaluateSchema S rec fuel scene schema resourceRoot baseUri o s = .ok valid t) :
    Honest valid t := by
  obtain ⟨site, u, hsite, hrest⟩ := parts_of_bind hrun
  cases hsite
  obtain ⟨reached, u, hfollow, hlast⟩ := parts_of_bind hrest
  cases reached with
  | none =>
    cases hlast
    exact fun _ => stays_followReferences S scene fuel _ s none t hs hfollow
  | some site => exact evaluateSite_honest S rec scene _ _ _ _ hlast

/-- The guards do not touch the flag. -/
theorem guarded_honest {m : Validate Bool} {s t : Progress} {result : Bool × SchemaAnnotations}
    (hm : ∀ valid u, m o (s.step s.now.enter) = .ok valid u → Honest valid u)
    (hrun : guarded m o s = .ok result t) : Honest result.1 t := by
  rw [guarded, within] at hrun
  cases hbody : m o (s.step s.now.enter) with
  | error e u =>
    rw [bind_run_error hbody] at hrun
    cases hrun
  | ok valid u =>
    rw [bind_run_ok hbody] at hrun
    cases hrun
    exact fun hvalid => hm valid u hbody hvalid

/-- The early exits of a call answer with `false`. -/
theorem call_honest {scene : Scene} {m : Validate Bool} {s t : Progress}
    {result : Bool × SchemaAnnotations}
    (hm : ∀ s valid u, s.now.ctx.aborted = false → m o s = .ok valid u → Honest valid u)
    (hrun : Validate.call (do
      unlessAborted
      charge scene 1
      checkDepth scene
      guarded m) o s = .ok result t) : Honest result.1 t := by
  rw [Validate.call] at hrun
  cases hbody : (do
      unlessAborted
      charge scene 1
      checkDepth scene
      guarded m : Validate (Bool × SchemaAnnotations)) o s with
  | error e u =>
    rw [hbody] at hrun
    cases e with
    | returned =>
      cases hrun
      exact fun h => absurd h (by simp)
    | unequal => cases hrun
    | budgetExceeded => cases hrun
    | stopped stop => cases hrun
    | outOfFuel => cases hrun
  | ok result' u =>
    rw [hbody] at hrun
    cases hrun
    obtain ⟨_, s₁, hlive, hrest⟩ := parts_of_bind hbody
    obtain ⟨_, s₂, hcharge, hrest⟩ := parts_of_bind hrest
    obtain ⟨_, s₃, hdepth, hguarded⟩ := parts_of_bind hrest
    have hs₁ : s₁.now.ctx.aborted = false := by
      rw [unlessAborted_run] at hlive
      split_ifs at hlive with ha
      cases hlive
      exact Bool.not_eq_true _ ▸ ha
    have hs₃ := stays_checkDepth scene s₂ () s₃ (stays_charge scene 1 s₁ () s₂ hs₁ hcharge) hdepth
    exact guarded_honest (fun valid v h => hm (s₃.step s₃.now.enter) valid v hs₃ h) hguarded

/-- A call that returns `true` has not aborted the run, nor found it aborted. -/
theorem validateCtx_honest (fuel : Nat) (scene : Scene) (schema : NodePtr)
    (resourceRoot : Option NodePtr) (baseUri : Bytes) :
    Yields o (Validate.validateCtx S fuel scene schema resourceRoot baseUri) fun result t =>
      Honest result.1 t := by
  cases fuel with
  | zero => rintro s result t ⟨⟩
  | succ fuel =>
    intro s result t hrun
    exact call_honest (fun s valid u hs h =>
      evaluateSchema_honest S _ fuel scene schema resourceRoot baseUri hs h) hrun

end Live

/-! ## The discipline -/

/-- The evaluator keeps whatever the rules admit, on every way out. -/
theorem validateCtx_kept (S : Session) (fuel : Nat) (scene : Scene) (schema : NodePtr)
    (resourceRoot : Option NodePtr) (baseUri : Bytes) {o : Options} {T : Scene → Prop}
    {G : GroupEnd → Prop} {I : Moment → Prop} {R : Moment → Moment → Prop} (rules : Rules o T G I R)
    (hT : T scene) (s : Progress) :
    Kept G I R s (ending (Validate.validateCtx S fuel scene schema resourceRoot baseUri o s)) :=
  (Steps.validateCtx (Steps.evaluateRegex S) fuel false scene schema resourceRoot baseUri).keeps rules
    (fun _ _ _ hA _ => hA.keeps rules) hT s

/-- The states a run has gone through, the last one included. -/
def Progress.moments (t : Progress) : List Moment := t.now :: t.past

/-- **An invariant holds in every state of a run** whose groups all end as it asks. -/
theorem Invariant.run {S : Session} {o : Options} {T : Scene → Prop} {G : GroupEnd → Prop}
    {I : Moment → Prop} (h : Invariant o T G I) {instance' : Pjson} {publicErrors : List SchemaError}
    (hT : T (rootScene instance')) (hstart : I (.initial publicErrors))
    (hG : ∀ g ∈ (ending (Validate.run S o instance' publicErrors)).groups, G g) :
    ∀ m ∈ (ending (Validate.run S o instance' publicErrors)).moments, I m := by
  intro m hm
  have hkept := validateCtx_kept S validationFuel (rootScene instance') S.rootSchema none []
    h.rules hT { now := .initial publicErrors }
  rcases List.mem_cons.mp hm with rfl | hm
  · exact (hkept.now hG hstart).1
  · obtain ⟨new, hnew, hall⟩ := hkept.past
    rw [List.append_nil] at hnew
    rw [Validate.run, hnew] at hm
    exact (hall hG hstart m hm).1

/-- No option raises the depth limit above the hard one. -/
theorem validationDepthLimit_le (o : Options) : validationDepthLimit o ≤ kSchemaValidationDepthHardLimit :=
  min_le_right _ _

/-- An aborted run is not one that returns `true`. -/
theorem validateCtx_aborted (S : Session) (fuel : Nat) (scene : Scene) (schema : NodePtr)
    (resourceRoot : Option NodePtr) (baseUri : Bytes) (o : Options) {s t : Progress} {valid : Bool}
    {annotations : SchemaAnnotations}
    (hrun : Validate.validateCtx S fuel scene schema resourceRoot baseUri o s =
      .ok (valid, annotations) t) {new : List Moment} (hnew : t.past = new ++ s.past)
    {m : Moment} (hm : m ∈ t.now :: new ++ [s.now]) (ha : m.ctx.aborted = true) : valid = false := by
  have hkept := validateCtx_kept S fuel scene schema resourceRoot baseUri (extends_rules o) trivial s
  rw [hrun, ending_ok] at hkept
  have hlast : t.now.ctx.aborted = true := by
    obtain ⟨new', hnew', hall⟩ := hkept.past
    obtain rfl : new' = new := List.append_cancel_right (hnew'.symm.trans hnew)
    rcases List.mem_append.mp hm with hm | hm
    · rcases List.mem_cons.mp hm with rfl | hm
      · exact ha
      · exact (hall (fun _ _ => trivial) trivial m hm).2 ha
    · rw [List.mem_singleton.mp hm] at ha
      exact (hkept.now (fun _ _ => trivial) trivial).2.aborted ha
  by_contra hvalid
  have hlive := validateCtx_honest S fuel scene schema resourceRoot baseUri s (valid, annotations) t
    hrun (Bool.not_eq_false _ ▸ hvalid)
  rw [hlast] at hlive
  cases hlive

/-- A call catches its own `return false`. -/
theorem caught_ne_returned (r : EStateM.Result Exit Progress (Bool × SchemaAnnotations))
    {t : Progress} : caught r ≠ .error .returned t := by
  intro h
  cases r with
  | ok a u => cases h
  | error e u =>
    cases e with
    | returned => cases h
    | unequal => cases h
    | budgetExceeded => cases h
    | stopped stop => cases h
    | outOfFuel => cases h

/-- The fuel of a run exceeds its depth limit, so a run fails only as the source can. -/
theorem run_completes (S : Session) (o : Options) (instance' : Pjson) (publicErrors : List SchemaError)
    {e : Exit} {t : Progress} (hrun : Validate.run S o instance' publicErrors = .error e t) :
    e = .budgetExceeded ∨ ∃ stop, e = .stopped stop := by
  have hsteps : Steps ReadsPatternOptions false validationFuel _ _ _ :=
    Steps.validateCtx (Steps.evaluateRegex S) validationFuel false (rootScene instance') S.rootSchema none []
  obtain ⟨hfuel, hunequal⟩ := hsteps.completes (o := o) { now := .initial publicErrors }
    ⟨Nat.zero_le _, Nat.zero_le _, Nat.zero_le _⟩
    (Nat.lt_succ_of_le (validationDepthLimit_le o)) e t hrun
  cases e with
  | returned => exact absurd hrun (caught_ne_returned _)
  | unequal => exact absurd (hunequal rfl) (by simp)
  | outOfFuel => exact absurd rfl hfuel
  | budgetExceeded => exact Or.inl rfl
  | stopped stop => exact Or.inr ⟨stop, rfl⟩

/-- **The evaluator ends and keeps its state in order**, whatever the schema refers to: the run comes
    to a verdict or an exception, the counters stay within their limits, every way out of a call puts
    back the depth and the two stacks, and what has been aborted does not return `true`. -/
theorem validateCtx_disciplined (S : Session) (o : Options) :
    (∀ (instance' : Pjson) (publicErrors : List SchemaError) (e : Exit) (t : Progress),
      Validate.run S o instance' publicErrors = .error e t →
        e = .budgetExceeded ∨ ∃ stop, e = .stopped stop) ∧
    (∀ (instance' : Pjson) (publicErrors : List SchemaError),
      ∀ m ∈ (ending (Validate.run S o instance' publicErrors)).moments,
        m.ctx.depth ≤ kSchemaValidationDepthHardLimit ∧
          m.ctx.refResolutions ≤ validationRefLimit o ∧ m.ctx.workUsed ≤ validationWorkLimit o) ∧
    (∀ (fuel : Nat) (scene : Scene) (schema : NodePtr) (resourceRoot : Option NodePtr)
      (baseUri : Bytes) (s : Progress), s.now.Restored
        (ending (Validate.validateCtx S fuel scene schema resourceRoot baseUri o s)).now) ∧
    (∀ (fuel : Nat) (scene : Scene) (schema : NodePtr) (resourceRoot : Option NodePtr)
      (baseUri : Bytes) (s t : Progress) (valid : Bool) (annotations : SchemaAnnotations)
      (new : List Moment),
      Validate.validateCtx S fuel scene schema resourceRoot baseUri o s =
        .ok (valid, annotations) t → t.past = new ++ s.past →
      (∃ m ∈ t.now :: new ++ [s.now], m.ctx.aborted = true) → valid = false) ∧
    (∀ (instance' : Pjson) (publicErrors : List SchemaError) (valid : Bool)
      (errors : List SchemaError),
      runValidation S o instance' publicErrors = some (valid, errors) →
      (∃ m ∈ (ending (Validate.run S o instance' publicErrors)).moments, m.ctx.aborted = true) →
        valid = false) := by
  refine ⟨fun _ _ _ _ => run_completes S o _ _, ?_,
    fun fuel scene schema resourceRoot baseUri =>
      validateCtx_putsBack S fuel scene schema resourceRoot baseUri o, ?_, ?_⟩
  · intro instance' publicErrors m hm
    -- The bounds hold at the start, and every step keeps them.
    have hbounded : m.Bounded o := (bounded_invariant o).run trivial
      ⟨Nat.zero_le _, Nat.zero_le _, Nat.zero_le _⟩ (fun _ _ => trivial) m hm
    exact ⟨hbounded.depth.trans (validationDepthLimit_le o), hbounded.refResolutions,
      hbounded.workUsed⟩
  · rintro fuel scene schema resourceRoot baseUri s t valid annotations new hrun hnew ⟨m, hm, ha⟩
    exact validateCtx_aborted S fuel scene schema resourceRoot baseUri o hrun hnew hm ha
  · rintro instance' publicErrors valid errors hresult ⟨m, hm, ha⟩
    rw [runValidation] at hresult
    -- Only a run that ends by itself can say yes; a budget or a stop says no.
    split at hresult
    · rename_i valid' annotations t hrun
      cases hresult
      rw [hrun] at hm
      refine validateCtx_aborted S validationFuel (rootScene instance') S.rootSchema none [] o hrun
        (List.append_nil t.past).symm ?_ ha
      exact List.mem_append_left _ hm
    · cases hresult
      rfl
    · cases hresult
      rfl
    · cases hresult

end ByteDance
