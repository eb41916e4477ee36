/-
  What `ctx.diagnosticsUsed` counts.

  It should be the number of diagnostics that are retained: the public errors with their causes, and
  the causes that open groups have collected.  The evaluator gives the causes of a group back when
  it succeeds, and hands them to the error of the group when it fails, but does not look at what
  becomes of that error.  Behind a sink that discards, as under `not`, or a full one, the causes go
  with it and stay counted (`diagnostics_leak`).  In a run where every group is settled the count is
  exact, and the run is given up only when the limit is reached by what is retained
  (`diagnostics_accounted`).
-/
import Pjson.Schema.Discipline

namespace ByteDance

open Decimal Validate

/-! ## Retained diagnostics -/

mutual

/-- An error and the causes in it, at any depth. -/
def SchemaError.diagnostics : SchemaError → Nat
  | ⟨_, _, _, _, _, _, causes, _⟩ => 1 + diagnosticsOf causes

def diagnosticsOf : List SchemaError → Nat
  | [] => 0
  | e :: es => e.diagnostics + diagnosticsOf es

end

/-- An error counts as one, and its causes are counted with it. -/
theorem SchemaError.diagnostics_eq (e : SchemaError) : e.diagnostics = 1 + diagnosticsOf e.causes := by
  cases e
  rfl

/-- The count of two lists. -/
@[simp] theorem diagnosticsOf_append (es fs : List SchemaError) :
    diagnosticsOf (es ++ fs) = diagnosticsOf es + diagnosticsOf fs := by
  induction es with
  | nil => simp [diagnosticsOf]
  | cons e es ih => rw [List.cons_append, diagnosticsOf, diagnosticsOf, ih, Nat.add_assoc]

/-- The count of one error. -/
theorem diagnosticsOf_singleton (e : SchemaError) : diagnosticsOf [e] = 1 + diagnosticsOf e.causes := by
  rw [diagnosticsOf, diagnosticsOf, Nat.add_zero, e.diagnostics_eq]

/-- There are no more errors than diagnostics. -/
theorem length_le_diagnosticsOf (es : List SchemaError) : es.length ≤ diagnosticsOf es := by
  induction es with
  | nil => exact Nat.zero_le _
  | cons e es ih =>
    rw [List.length_cons, diagnosticsOf, e.diagnostics_eq]
    omega

/-- The diagnostics that sinks hold. -/
def collectedIn (sinks : List ErrorSink) : Nat := (sinks.map fun sink => diagnosticsOf sink.values).sum

/-- The count of what the hidden sinks hold. -/
theorem collectedIn_cons (sink : ErrorSink) (sinks : List ErrorSink) :
    collectedIn (sink :: sinks) = diagnosticsOf sink.values + collectedIn sinks := rfl

namespace Moment

/-- The errors the run has reported. -/
def reported (m : Moment) : List SchemaError := m.ctx.publicErrors.drop m.ctx.publicErrorStart

/-- The diagnostics that are retained. -/
def retained (m : Moment) : Nat :=
  diagnosticsOf m.reported + diagnosticsOf m.errors.values + collectedIn m.hidden

/-- The current sink keeps the next error. -/
def KeepsNext (o : Options) (m : Moment) : Prop :=
  m.ctx.aborted = false ∧ (m.errors.mode = .Public ∧ ¬ m.overBudget o ∨
    m.errors.mode = .Causes ∧ m.ctx.diagnosticsUsed + 1 < diagnosticLimit o)

end Moment

instance (o : Options) (m : Moment) : Decidable (m.KeepsNext o) := inferInstanceAs (Decidable (_ ∧ _))

/-- The causes of the group, if there are any, are given back or go to an error that is kept. -/
def GroupEnd.Settled (o : Options) (g : GroupEnd) : Prop :=
  g.causes = [] ∨ g.fate = .givenBack ∨ g.fate = .kept ∧ g.moment.KeepsNext o

instance (o : Options) (g : GroupEnd) : Decidable (g.Settled o) :=
  decidable_of_iff (g.causes.isEmpty = true ∨ g.fate = .givenBack ∨ g.fate = .kept ∧ g.moment.KeepsNext o)
    (by rw [GroupEnd.Settled, List.isEmpty_iff])

/-- The count is exact. -/
structure Moment.Accounted (m : Moment) : Prop where
  used : m.ctx.diagnosticsUsed = m.retained
  errors : m.ctx.publicErrorStart + m.ctx.errorsUsed ≤ m.ctx.publicErrors.length
  scratch : m.errors.mode ≠ .Causes → m.errors.values = []
  outer : m.errors.mode = .Public → m.hidden = []

namespace Moment.Accounted

variable {o : Options} {m b t : Moment} {e : SchemaError}

/-- A diagnostic that is published is one more that has been reported. -/
theorem reported_publish (h : m.Accounted) (e : SchemaError) :
    (m.publish e).reported = m.reported ++ [e] :=
  List.drop_append_of_le_length (Nat.le_of_add_right_le h.errors)

/-- And the count goes up by one with it, since it has no causes. -/
theorem publish (h : m.Accounted) (he : e.causes = []) : (m.publish e).Accounted := by
  refine ⟨?_, ?_, h.scratch, h.outer⟩
  · show m.ctx.diagnosticsUsed + 1 = (m.publish e).retained
    rw [Moment.retained, h.reported_publish, diagnosticsOf_append, diagnosticsOf_singleton, he, h.used,
      Moment.retained]
    show _ = diagnosticsOf m.reported + (1 + 0) + diagnosticsOf m.errors.values + collectedIn m.hidden
    omega
  · show m.ctx.publicErrorStart + m.ctx.errorsUsed ≤ (m.ctx.publicErrors ++ [e]).length
    rw [List.length_append]
    exact le_add_right h.errors

/-- An error is counted once it is published. -/
theorem addErrorUsed (h : m.Accounted) (he : e.causes = []) :
    (m.publish e).addErrorUsed.Accounted := by
  have hp := h.publish he
  refine ⟨hp.used, ?_, hp.scratch, hp.outer⟩
  show m.ctx.publicErrorStart + (m.ctx.errorsUsed + 1) ≤ (m.ctx.publicErrors ++ [e]).length
  rw [List.length_append, List.length_singleton, ← Nat.add_assoc]
  exact Nat.add_le_add_right h.errors 1

/-- An abort touches neither the count nor what is counted. -/
theorem abort (h : m.Accounted) : m.abort.Accounted := ⟨h.used, h.errors, h.scratch, h.outer⟩

/-- A diagnostic that is collected is counted in its sink. -/
theorem collect (h : m.Accounted) (hmode : m.errors.mode = .Causes) (he : e.causes = []) :
    (m.collect e).Accounted := by
  refine ⟨?_, h.errors, fun hne => absurd hmode hne, fun hpublic => ?_⟩
  · show m.ctx.diagnosticsUsed + 1 = diagnosticsOf m.reported + diagnosticsOf (m.errors.values ++ [e]) + _
    rw [diagnosticsOf_append, diagnosticsOf_singleton, he, h.used, Moment.retained]
    show _ = diagnosticsOf m.reported + (diagnosticsOf m.errors.values + (1 + 0)) + collectedIn m.hidden
    omega
  · have hcauses : m.errors.mode = .Public := hpublic
    rw [hmode] at hcauses
    cases hcauses

/-- An error without causes leaves the count exact, whatever becomes of it. -/
theorem push (h : m.Accounted) (he : e.causes = []) : (m.push o e).1.Accounted := by
  have hcounted : m.addFailure.Accounted := ⟨h.used, h.errors, h.scratch, h.outer⟩
  refine Moment.push_cases (fun _ => h) (fun _ _ _ => hcounted)
    (fun _ hmode _ => hcounted.collect hmode he) (fun _ _ _ => ?_)
    (fun _ _ _ _ => hcounted.addErrorUsed he) (fun _ _ _ _ => (hcounted.addErrorUsed he).abort)
  rw [Moment.overflow]
  split_ifs
  · exact hcounted.abort.publish rfl
  · exact hcounted.abort

/-- What the causes of a group have added is what the count has too much once their sink is gone. -/
theorem unshadow {mode : SinkMode} (ht : t.Accounted) (hR : (b.shadow mode).Extends t) :
    t.ctx.diagnosticsUsed = (t.unshadow b).retained + diagnosticsOf t.errors.values := by
  have hhidden : t.hidden = b.errors :: b.hidden := hR.hidden
  rw [ht.used, Moment.retained, Moment.retained, hhidden, collectedIn_cons]
  show diagnosticsOf t.reported + diagnosticsOf t.errors.values +
    (diagnosticsOf b.errors.values + collectedIn b.hidden) =
      diagnosticsOf t.reported + diagnosticsOf b.errors.values + collectedIn b.hidden +
        diagnosticsOf t.errors.values
  omega

/-- A scratch sink that has collected nothing leaves no trace. -/
theorem unshadow_empty {mode : SinkMode} (hb : b.Accounted) (ht : t.Accounted)
    (hR : (b.shadow mode).Extends t) (hvalues : t.errors.values = []) : (t.unshadow b).Accounted := by
  refine ⟨?_, ht.errors, hb.scratch, hb.outer⟩
  have hused := ht.unshadow hR
  rw [hvalues] at hused
  exact hused

/-- Nothing is published while a group is open, so its causes are all it has added to the count. -/
theorem giveBack (hb : b.Accounted) (ht : t.Accounted) (hR : (b.shadow (groupMode o)).Extends t)
    (hlive : t.ctx.aborted = true → b.ctx.aborted = true) :
    ((t.unshadow b).withDiagnostics b.ctx.diagnosticsUsed).Accounted := by
  have hpublic : t.ctx.publicErrors = b.ctx.publicErrors := hR.quiet (groupMode_ne o) hlive
  have hstart : t.ctx.publicErrorStart = b.ctx.publicErrorStart := hR.start
  refine ⟨?_, ht.errors, hb.scratch, hb.outer⟩
  show b.ctx.diagnosticsUsed = diagnosticsOf t.reported + _ + _
  rw [hb.used, Moment.retained, Moment.reported, Moment.reported, hpublic, hstart]
  rfl

/-- An error that is kept takes the causes over. -/
theorem hand (ht : t.Accounted) (hb : b.Accounted) {mode : SinkMode} (hR : (b.shadow mode).Extends t)
    (hkeep : (t.unshadow b).KeepsNext o) :
    ((t.unshadow b).push o { e with causes := t.errors.values }).1.Accounted := by
  have hused := ht.unshadow hR
  obtain ⟨hlive, hroom⟩ := hkeep
  have hreported : (((t.unshadow b).addFailure.publish { e with causes := t.errors.values }).reported) =
      t.reported ++ [{ e with causes := t.errors.values }] :=
    List.drop_append_of_le_length (Nat.le_of_add_right_le ht.errors)
  -- The causes move from the scratch list into the error, and the error counts one.
  have hpublished : ((t.unshadow b).addFailure.publish
      { e with causes := t.errors.values }).addErrorUsed.Accounted := by
    refine ⟨?_, ?_, hb.scratch, hb.outer⟩
    · show t.ctx.diagnosticsUsed + 1 = diagnosticsOf (Moment.reported _) +
        diagnosticsOf b.errors.values + collectedIn b.hidden
      rw [hused, Moment.retained]
      show _ = diagnosticsOf (((t.unshadow b).addFailure.publish
        { e with causes := t.errors.values }).reported) + _ + _
      rw [hreported, diagnosticsOf_append, diagnosticsOf_singleton]
      show diagnosticsOf t.reported + diagnosticsOf b.errors.values + collectedIn b.hidden +
        diagnosticsOf t.errors.values + 1 = diagnosticsOf t.reported +
          (1 + diagnosticsOf t.errors.values) + diagnosticsOf b.errors.values + collectedIn b.hidden
      omega
    · show t.ctx.publicErrorStart + (t.ctx.errorsUsed + 1) ≤ (t.ctx.publicErrors ++ [_]).length
      rw [List.length_append, List.length_singleton, ← Nat.add_assoc]
      exact Nat.add_le_add_right ht.errors 1
  -- The six ways a push can go; what is kept rules out that the error is dropped.
  refine Moment.push_cases (fun ha => ?_) (fun _ hne hfull => ?_) (fun _ hmode _ => ?_)
    (fun _ hmode hover => ?_) (fun _ _ _ _ => hpublished) (fun _ _ _ _ => hpublished.abort)
  · rw [hlive] at ha
    cases ha
  · rcases hroom with ⟨hmode, -⟩ | ⟨hmode, hroom⟩
    · exact absurd hmode hne
    · exact absurd hroom (not_lt.mpr (hfull hmode))
  · refine ⟨?_, ht.errors, fun hne => absurd hmode hne, fun hpublic => ?_⟩
    · show t.ctx.diagnosticsUsed + 1 = diagnosticsOf t.reported +
        diagnosticsOf (b.errors.values ++ [{ e with causes := t.errors.values }]) + collectedIn b.hidden
      rw [hused, Moment.retained, diagnosticsOf_append, diagnosticsOf_singleton]
      show diagnosticsOf t.reported + diagnosticsOf b.errors.values + collectedIn b.hidden +
        diagnosticsOf t.errors.values + 1 = diagnosticsOf t.reported +
          (diagnosticsOf b.errors.values + (1 + diagnosticsOf t.errors.values)) + collectedIn b.hidden
      omega
    · have hcauses : (t.unshadow b).errors.mode = .Public := hpublic
      rw [hmode] at hcauses
      cases hcauses
  · rcases hroom with ⟨-, hroom⟩ | ⟨hcauses, -⟩
    · exact absurd hover hroom
    · rw [hmode] at hcauses
      cases hcauses

end Moment.Accounted

/-- The count stays exact as long as every group is settled. -/
theorem accounted_invariant (o : Options) :
    Invariant o (fun _ => True) (GroupEnd.Settled o) Moment.Accounted where
  lead _ _ := trivial
  push _ he h := h.push he.causes
  budget _ h := Moment.failBudget_cases (fun _ => h) (fun _ => h.abort)
    fun _ _ => h.abort.addErrorUsed rfl
  pay h _ := ⟨h.used, h.errors, h.scratch, h.outer⟩
  cache _ h := ⟨h.used, h.errors, h.scratch, h.outer⟩
  annotate _ h := ⟨h.used, h.errors, h.scratch, h.outer⟩
  count h _ := ⟨h.used, h.errors, h.scratch, h.outer⟩
  activate _ h := ⟨h.used, h.errors, h.scratch, h.outer⟩
  enterResource _ h := ⟨h.used, h.errors, h.scratch, h.outer⟩
  descend h _ := ⟨h.used, h.errors, h.scratch, h.outer⟩
  shadow {m} mode hmode h := by
    refine ⟨?_, h.errors, fun _ => rfl, fun hpublic => absurd hpublic hmode⟩
    show m.ctx.diagnosticsUsed = diagnosticsOf m.reported + 0 + collectedIn (m.errors :: m.hidden)
    rw [h.used, Moment.retained, collectedIn_cons]
    omega
  discard hb ht hR := hb.unshadow_empty ht hR (ht.scratch (by rw [hR.mode]; simp [Moment.shadow, ErrorSink.ofMode]))
  fresh h := ⟨h.used, h.errors, h.scratch, h.outer⟩
  giveBack hb ht hR hlive := hb.giveBack ht hR hlive
  hand {scene e b t} _ he _ hb ht hR hG := by
    rcases hG with hempty | hback | ⟨-, hkeep⟩
    · have hvalues : t.errors.values = [] := hempty
      exact (hb.unshadow_empty ht hR hvalues).push hvalues
    · cases hback
    · exact ht.hand hb hR hkeep
  abandon hb ht hR hG := by
    rcases hG with hempty | hback | ⟨hkept, -⟩
    · exact hb.unshadow_empty ht hR hempty
    · cases hback
    · cases hkept
  enter h _ := ⟨h.used, h.errors, h.scratch, h.outer⟩
  leave _ ht _ := ⟨ht.used, ht.errors, ht.scratch, ht.outer⟩

/-! ## What gives a run up -/

/-- The limit is reached in the state a program throws in. -/
def ThrowsFull (o : Options) {α : Type} (m : Validate α) : Prop :=
  ∀ s t, m o s = .error .budgetExceeded t → t.now.overBudget o

section Throws

variable {o : Options} {α β : Type}

/-- One program after the other. -/
theorem throwsFull_bind {m : Validate α} {f : α → Validate β} (hm : ThrowsFull o m)
    (hf : ∀ a, Returns m a → ThrowsFull o (f a)) : ThrowsFull o (m >>= f) := by
  intro s t hrun
  rw [bind_run] at hrun
  cases hrun₁ : m o s with
  | error e u =>
    rw [hrun₁] at hrun
    cases hrun
    exact hm s t hrun₁
  | ok a u =>
    rw [hrun₁] at hrun
    exact hf a ⟨o, s, u, hrun₁⟩ u t hrun

/-- A program that cannot fail. -/
theorem throwsFull_of_ok {m : Validate α} (h : ∀ s, ∃ a t, m o s = .ok a t) : ThrowsFull o m := by
  intro s t hrun
  obtain ⟨a, u, hok⟩ := h s
  rw [hok] at hrun
  cases hrun

/-- An exit that is not this one. -/
theorem throwsFull_exit {e : Exit} (he : e ≠ .budgetExceeded) : ThrowsFull o (exit e : Validate α) := by
  rintro s t ⟨⟩
  exact absurd rfl he

/-- A push gives the run up only when it has filled the budget. -/
theorem push_throws {e : SchemaError} {m : Moment} (h : (m.push o e).2 = true) :
    (m.push o e).1.overBudget o := by
  rw [Moment.push] at h ⊢
  by_cases ha : m.ctx.aborted = true
  · rw [if_pos ha] at h
    cases h
  rw [if_neg ha] at h ⊢
  cases hmode : m.errors.mode with
  | Discard => simp [hmode] at h
  | Causes =>
    simp only [hmode] at h
    split_ifs at h
  | Public =>
    simp only [hmode] at h ⊢
    by_cases hover : m.overBudget o
    · simp only [if_pos hover]
      rw [Moment.overflow]
      split_ifs
      · exact hover.imp id Nat.le_succ_of_le
      · exact hover
    · by_cases hstop : o.stopAfterFirstError = true
      · simp only [if_neg hover, if_pos hstop]
        refine Or.inl ?_
        show diagnosticLimit o ≤ m.ctx.errorsUsed + 1
        rw [diagnosticLimit, if_pos hstop]
        exact Nat.le_add_left ..
      · simp only [if_neg hover, if_neg hstop] at h
        cases h

/-- So does a report. -/
theorem throwsFull_push (e : SchemaError) : ThrowsFull o (push_back e) := by
  intro s t hrun
  rw [push_back] at hrun
  dsimp only at hrun
  split_ifs at hrun with hthrew
  cases hrun
  exact push_throws hthrew

/-- A condition that leaves the call. -/
theorem throwsFull_require {m : Validate Bool} (hm : ThrowsFull o m) : ThrowsFull o (require m) := by
  refine throwsFull_bind hm fun ok _ => ?_
  cases ok with
  | true => exact throwsFull_of_ok fun _ => ⟨_, _, rfl⟩
  | false => exact throwsFull_exit (by simp)

/-- A charge leaves the call, and does not give the run up. -/
theorem throwsFull_charge (scene : Scene) (amount : Nat) : ThrowsFull o (charge scene amount) :=
  throwsFull_require (throwsFull_of_ok fun _ => ⟨_, _, rfl⟩)

/-- Nor does the test for an abort. -/
theorem throwsFull_unlessAborted : ThrowsFull o unlessAborted :=
  throwsFull_require (throwsFull_of_ok fun _ => ⟨_, _, rfl⟩)

/-- Nor the test for the depth. -/
theorem throwsFull_checkDepth (scene : Scene) : ThrowsFull o (checkDepth scene) := by
  intro s t hrun
  rw [checkDepth_run] at hrun
  split_ifs at hrun
  cases hrun

/-- The way out of a call and of a scratch sink changes no count. -/
theorem throwsFull_within {before : Moment → Moment} {after : Moment → Moment → Moment}
    {m : Validate α} (hafter : ∀ t b : Moment, t.overBudget o → (after t b).overBudget o)
    (hm : ThrowsFull o m) : ThrowsFull o (within before after m) := by
  intro s t hrun
  rw [within] at hrun
  cases hrun₁ : m o (s.step (before s.now)) with
  | ok a u =>
    rw [hrun₁] at hrun
    cases hrun
  | error e u =>
    rw [hrun₁] at hrun
    cases hrun
    exact hafter _ _ (hm _ u hrun₁)

/-- The branches of a group, one after the other; induction on them. -/
theorem throwsFull_branches {charged : Validate Unit} (hcharged : ThrowsFull o charged)
    {ms : List (Validate β)} (hms : ∀ m ∈ ms, ThrowsFull o m) : ThrowsFull o (branches charged ms) := by
  induction ms with
  | nil => exact throwsFull_of_ok fun _ => ⟨_, _, rfl⟩
  | cons m ms ih =>
    refine throwsFull_bind hcharged fun _ _ => ?_
    refine throwsFull_bind (throwsFull_of_ok fun _ => ⟨_, _, rfl⟩) fun _ _ => ?_
    refine throwsFull_bind (hms m List.mem_cons_self) fun b _ => ?_
    refine throwsFull_bind throwsFull_unlessAborted fun _ _ => ?_
    refine throwsFull_bind (ih fun m' hm' => hms m' (List.mem_cons_of_mem _ hm')) fun bs _ => ?_
    exact throwsFull_of_ok fun _ => ⟨_, _, rfl⟩

/-- The error of a group is pushed like any other. -/
theorem close_throws {s : Settlement} {b m : Moment} {causes : List SchemaError}
    (h : (s.close o b causes m).2 = true) : (s.close o b causes m).1.overBudget o := by
  rw [Settlement.close] at h ⊢
  cases herror : s.error with
  | none => simp [herror] at h
  | some e =>
    simp only [herror] at h ⊢
    exact push_throws h

/-- So a group gives the run up if a branch does, or its own error fills the budget. -/
theorem throwsFull_group {charged : Validate Unit} (hcharged : ThrowsFull o charged)
    {ms : List (Validate β)} (hms : ∀ m ∈ ms, ThrowsFull o m) (verdict : Bool → List β → Settlement) :
    ThrowsFull o (Validate.group charged ms verdict) := by
  intro s t hrun
  rw [Validate.group] at hrun
  cases hrun₁ : branches charged ms o (s.step (s.now.shadow (groupMode o))) with
  | error e u =>
    rw [hrun₁] at hrun
    cases hrun
    exact throwsFull_branches hcharged hms _ u hrun₁
  | ok bs u =>
    rw [hrun₁] at hrun
    dsimp only at hrun
    split_ifs at hrun with hthrew
    cases hrun
    exact close_throws hthrew

/-- A call passes the exit on. -/
theorem throwsFull_call {m : Validate (Bool × SchemaAnnotations)} (hm : ThrowsFull o m) :
    ThrowsFull o (Validate.call m) := by
  intro s t hrun
  rw [Validate.call] at hrun
  cases hrun₁ : m o s with
  | ok a u =>
    rw [hrun₁] at hrun
    cases hrun
  | error e u =>
    rw [hrun₁] at hrun
    cases e with
    | budgetExceeded =>
      cases hrun
      exact hm s t hrun₁
    | returned => cases hrun
    | unequal => cases hrun
    | stopped stop => cases hrun
    | outOfFuel => cases hrun

end Throws

/-- **A program made of steps throws only when the limit is reached.** -/
theorem Steps.throwsFull {o : Options} {d : Bool} {n : Nat} {scene : Scene} {α : Type}
    {m : Validate α} (h : Steps ReadsPatternOptions d n scene α m) : ThrowsFull o m := by
  induction h with
  | pure a => exact throwsFull_of_ok fun _ => ⟨_, _, rfl⟩
  | bind _ _ ihm ihf => exact throwsFull_bind ihm ihf
  | exit he =>
    refine throwsFull_exit ?_
    rintro rfl
    exact he
  | differ => exact throwsFull_exit (by simp)
  | outOfFuel => exact throwsFull_exit (by simp)
  | fewer _ _ ih => exact ih
  | lead _ _ ih => exact ih
  | more hA =>
    cases hA
    exact throwsFull_of_ok fun _ => ⟨_, _, rfl⟩
  | read _ => exact throwsFull_of_ok fun _ => ⟨_, _, rfl⟩
  | look f => exact throwsFull_of_ok fun _ => ⟨_, _, rfl⟩
  | push _ => exact throwsFull_push _
  | pay amount => exact throwsFull_of_ok fun _ => ⟨_, _, rfl⟩
  | cache f => exact throwsFull_of_ok fun _ => ⟨_, _, rfl⟩
  | annotate f => exact throwsFull_of_ok fun _ => ⟨_, _, rfl⟩
  | count message =>
    intro s t hrun
    -- A reference too many is left by a return, not by the exception.
    rw [countReference_run] at hrun
    split_ifs at hrun
    cases hrun
  | activate S site keyword target message =>
    refine throwsFull_bind (throwsFull_of_ok fun _ => ⟨_, _, rfl⟩) fun cycle _ => ?_
    cases cycle with
    | true => exact throwsFull_bind (throwsFull_push _) fun _ _ => throwsFull_exit (by simp)
    | false => exact throwsFull_of_ok fun _ => ⟨_, _, rfl⟩
  | enterResource site => exact throwsFull_of_ok fun _ => ⟨_, _, rfl⟩
  | descend _ ih =>
    refine throwsFull_bind (throwsFull_checkDepth _) fun _ _ => ?_
    exact throwsFull_bind (throwsFull_of_ok fun _ => ⟨_, _, rfl⟩) fun _ _ => ih
  | @answer d n scene m _ ih =>
    intro s t hrun
    have hanswer : answered (m o s) = .error .budgetExceeded t := hrun
    cases hrun₁ : m o s with
    | ok a u =>
      rw [hrun₁] at hanswer
      cases hanswer
    | error e u =>
      rw [hrun₁] at hanswer
      cases e with
      | budgetExceeded =>
        cases hanswer
        exact ih s t hrun₁
      | unequal => cases hanswer
      | returned => cases hanswer
      | stopped stop => cases hanswer
      | outOfFuel => cases hanswer
  | discard _ ih => exact throwsFull_within (fun _ _ h => h) ih
  | group amount _ _ ih => exact throwsFull_group (throwsFull_charge _ _) ih _
  | call _ ih =>
    -- The prologue of a call: whether the run is aborted, its charge and its depth.
    refine throwsFull_call (throwsFull_bind throwsFull_unlessAborted fun _ _ =>
      throwsFull_bind (throwsFull_charge _ _) fun _ _ =>
        throwsFull_bind (throwsFull_checkDepth _) fun _ _ => ?_)
    refine throwsFull_within (fun _ _ h => h) (throwsFull_bind ih fun valid _ => ?_)
    exact throwsFull_of_ok fun _ => ⟨_, _, rfl⟩

/-! ## The count -/

/-- **The count is exact in a run whose groups are all settled**, and such a run is given up only
    when the errors it has reported, with their causes, reach the limit. -/
theorem diagnostics_accounted (S : Session) (o : Options) (instance' : Pjson)
    (publicErrors : List SchemaError)
    (hG : ∀ g ∈ (ending (Validate.run S o instance' publicErrors)).groups, g.Settled o) :
    (∀ m ∈ (ending (Validate.run S o instance' publicErrors)).moments,
      m.ctx.diagnosticsUsed = m.retained) ∧
    (∀ t, Validate.run S o instance' publicErrors = .error .budgetExceeded t →
      diagnosticLimit o ≤ diagnosticsOf (t.now.ctx.publicErrors.drop publicErrors.length)) := by
  have hstart : (Moment.initial publicErrors).Accounted := by
    refine ⟨?_, le_rfl, fun _ => rfl, fun _ => rfl⟩
    show 0 = diagnosticsOf (publicErrors.drop publicErrors.length) + 0 + 0
    rw [List.drop_length]
    rfl
  have hall : ∀ m ∈ (ending (Validate.run S o instance' publicErrors)).moments, m.Accounted :=
    (accounted_invariant o).run trivial hstart hG
  refine ⟨fun m hm => (hall m hm).used, fun t hrun => ?_⟩
  have hlast := hall _ List.mem_cons_self
  have hext := ((validateCtx_kept S validationFuel (rootScene instance') S.rootSchema none []
    (accounted_invariant o).rules trivial { now := .initial publicErrors }).now hG hstart).2
  have hfull := (Steps.validateCtx (Steps.evaluateRegex S) validationFuel false
    (rootScene instance') S.rootSchema none []).throwsFull _ t hrun
  change (Moment.initial publicErrors).Extends
    (ending (Validate.run S o instance' publicErrors)).now at hext
  rw [hrun, ending_error] at hlast hext
  -- the current sink is the public one, so no group is open
  have hmode : t.now.errors.mode = .Public := hext.mode
  have hbegin : t.now.ctx.publicErrorStart = publicErrors.length := hext.start
  have hretained : t.now.retained = diagnosticsOf t.now.reported := by
    rw [Moment.retained, hlast.scratch (by rw [hmode]; simp), hlast.outer hmode]
    rfl
  rw [← hbegin]
  show diagnosticLimit o ≤ diagnosticsOf t.now.reported
  rcases hfull with herrors | hused
  · have hlength : t.now.reported.length = t.now.ctx.publicErrors.length - t.now.ctx.publicErrorStart :=
      List.length_drop
    have hle := length_le_diagnosticsOf t.now.reported
    have hcount := hlast.errors
    omega
  · rw [← hretained, ← hlast.used]
    exact hused

/-- `{"anyOf": [false, false]}`, whose error takes two causes. -/
def twoCauses : Pjson :=
  .jsonObject [(ascii "anyOf", .jsonArray [.jsonBoolean false, .jsonBoolean false])]

/-- The error and its two causes. -/
theorem diagnostics_accounted_anyOf :
    let last := (ending (Validate.run (.ofSchema twoCauses) { collectNestedCauses := true } .jsonNull [])).now
    last.ctx.diagnosticsUsed = last.retained ∧ last.retained = 3 :=
  ⟨(diagnostics_accounted (.ofSchema twoCauses) { collectNestedCauses := true } .jsonNull []
    (by decide +kernel)).1 _ List.mem_cons_self, by decide +kernel⟩

/-- `{"allOf": [{"not": {"anyOf": [false, false]}}, false, false]}`. -/
def leakyCauses : Pjson :=
  .jsonObject [(ascii "allOf", .jsonArray
    [.jsonObject [(ascii "not", twoCauses)], .jsonBoolean false, .jsonBoolean false])]

/-- Under `not` the causes are dropped and stay counted: with room for three diagnostics the run is
    given up after one, and the second error is never reported. -/
theorem diagnostics_leak :
    let o : Options := { collectNestedCauses := true, maxErrors := 3 }
    let last := (ending (Validate.run (.ofSchema leakyCauses) o .jsonNull [])).now
    last.ctx.aborted = true ∧ last.ctx.diagnosticsUsed = 3 ∧ last.retained = 1 ∧
      last.ctx.publicErrors.length = 1 ∧ diagnosticLimit o = 3 := by
  decide +kernel

end ByteDance
