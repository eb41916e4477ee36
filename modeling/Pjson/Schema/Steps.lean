/-
  What a call of the evaluator is made of.

  `Steps A n scene m` says that the program `m`, run in a call about `scene`, is put together from
  the steps listed there, none of which looks at more of the state than `Observed`; `A` are further
  steps, left open here, `n` bounds the nesting of calls and reference hops below it, and `d` says
  whether it is part of a comparison, which alone may end with `unequal`.  What
  every step preserves holds along every run of such a program, and two runs that every step keeps
  in step stay in step; so a fact about the evaluator needs one case for each step and no case for
  a keyword.

  `Steps.validateCtx` goes through the evaluator once.
-/
import Pjson.Schema.Evaluator

namespace ByteDance

open Decimal Validate

/-! ## Scenes -/

/-- The text of a step in a pointer. -/
def Step.token : Step → Bytes
  | .member key => key
  | .element index => numeral index

/-- The scenes a call may lead to: its own, those of the children of its node, and those of the
    names of its members. -/
inductive Scene.Leads (scene : Scene) : Scene → Prop
  | self : Leads scene scene
  | child {step : Step} {p : NodePtr} : scene.node.child step = some p →
      Leads scene (scene.childAt step.token p)
  | name {key : Bytes} {p : NodePtr} : scene.node.find key = some p →
      Leads scene (nameScene scene key)

/-- The error is about the node of the scene, and has no causes yet. -/
structure SchemaError.About (scene : Scene) (e : SchemaError) : Prop where
  location : e.instanceLocation = scene.path
  subject : e.subject = scene.node.address
  causes : e.causes = []

/-- A group is settled as `anyOf` and `oneOf` do it: a group that fails reports an error, and the
    causes that are collected are not just dropped. -/
structure Settlement.Proper (collect : Bool) (scene : Scene) (s : Settlement) : Prop where
  about : ∀ e, s.error = some e → e.About scene
  passed : s.error = none → s.fate = .givenBack
  kept : s.fate = .kept → collect = true
  dropped : s.fate = .dropped → collect = false

theorem Settlement.Proper.givenBack {collect : Bool} {scene : Scene} :
    Settlement.Proper collect scene ⟨none, .givenBack⟩ := ⟨nofun, fun _ => rfl, nofun, nofun⟩

/-! ## Steps -/

/-- What a call may look at. -/
structure Observed where
  aborted : Bool
  failures : Nat
  activeRefs : List (Address × Address)
  regexCache : List (Bytes × RegexState)
  dynamicScope : List SchemaTarget
  evaluated : SchemaAnnotations

def Moment.observed (m : Moment) : Observed :=
  ⟨m.ctx.aborted, m.errors.failures, m.ctx.activeRefs, m.ctx.regexCache, m.ctx.dynamicScope,
    m.evaluated⟩

/-- The options say the same about the dialect. -/
structure Options.SameDialect (o o' : Options) : Prop where
  strictSubset : o.strictSubset = o'.strictSubset
  refSiblings : o.refSiblings = o'.refSiblings
  validateFormats : o.validateFormats = o'.validateFormats

/-- A program can return this value. -/
def Returns {α : Type} (m : Validate α) (a : α) : Prop := ∃ o s t, m o s = .ok a t

/-- The exits a step may take on its own. -/
def Exit.Plain : Exit → Prop
  | .returned | .stopped _ => True
  | .unequal | .budgetExceeded | .outOfFuel => False

inductive Steps (A : Scene → (α : Type) → Validate α → Prop) :
    Bool → Nat → Scene → (α : Type) → Validate α → Prop
  | pure {d : Bool} {n : Nat} {scene : Scene} {α : Type} (a : α) : Steps A d n scene α (Pure.pure a)
  | bind {d : Bool} {n : Nat} {scene : Scene} {α β : Type} {m : Validate α} {f : α → Validate β} :
      Steps A d n scene α m → (∀ a, Returns m a → Steps A d n scene β (f a)) → Steps A d n scene β (m >>= f)
  | exit {d : Bool} {n : Nat} {scene : Scene} {α : Type} {e : Exit} : e.Plain → Steps A d n scene α (Validate.exit e)
  | differ {n : Nat} {scene : Scene} {α : Type} : Steps A true n scene α (Validate.exit .unequal)
  | outOfFuel {d : Bool} {scene : Scene} {α : Type} : Steps A d 0 scene α (Validate.exit .outOfFuel)
  | fewer {d : Bool} {n n' : Nat} {scene : Scene} {α : Type} {m : Validate α} :
      Steps A d n scene α m → n' ≤ n → Steps A d n' scene α m
  | lead {d : Bool} {n : Nat} {scene scene' : Scene} {α : Type} {m : Validate α} :
      scene.Leads scene' → Steps A d n scene' α m → Steps A d n scene α m
  | more {d : Bool} {n : Nat} {scene : Scene} {α : Type} {m : Validate α} : A scene α m → Steps A d n scene α m
  | read {d : Bool} {n : Nat} {scene : Scene} {α : Type} {f : Options → α} :
      (∀ o o', Options.SameDialect o o' → f o = f o') → Steps A d n scene α (option f)
  | look {d : Bool} {n : Nat} {scene : Scene} {α : Type} (f : Observed → α) :
      Steps A d n scene α (inspect fun _ m => f m.observed)
  | push {d : Bool} {n : Nat} {scene : Scene} {e : SchemaError} : e.About scene → Steps A d n scene Unit (push_back e)
  | pay {d : Bool} {n : Nat} {scene : Scene} (amount : Nat) : Steps A d n scene Bool (chargeValidationWork scene amount)
  | cache {d : Bool} {n : Nat} {scene : Scene} (f : List (Bytes × RegexState) → List (Bytes × RegexState)) :
      Steps A d n scene Unit
        (update fun _ m => { m with ctx := { m.ctx with regexCache := f m.ctx.regexCache } })
  | annotate {d : Bool} {n : Nat} {scene : Scene} (f : SchemaAnnotations → SchemaAnnotations) :
      Steps A d n scene Unit (Validate.annotate f)
  | count {d : Bool} {n : Nat} {scene : Scene} (message : Bytes) : Steps A d n scene Unit (countReference scene message)
  | activate {d : Bool} {n : Nat} {scene : Scene} (S : Session) (site : Site) (keyword : String)
      (target : SchemaTarget) (message : Bytes) :
      Steps A d n scene Unit (Validate.activate S scene site keyword target message)
  | enterResource {d : Bool} {n : Nat} {scene : Scene} (site : Site) : Steps A d n scene Unit (pushResource site)
  | descend {d : Bool} {n : Nat} {scene : Scene} {α : Type} {m : Validate α} : Steps A d n scene α m →
      Steps A d (n + 1) scene α (do
        checkDepth scene
        update fun _ => Moment.descend
        m)
  | answer {d : Bool} {n : Nat} {scene : Scene} {m : Validate Unit} : Steps A true n scene Unit m →
      Steps A d n scene Bool fun o s => answered (m o s)
  | discard {d : Bool} {n : Nat} {scene : Scene} {α : Type} {m : Validate α} : Steps A d n scene α m →
      Steps A d n scene α (discarding m)
  | group {d : Bool} {n : Nat} {scene : Scene} {β : Type} {ms : List (Validate β)}
      {verdict : Bool → List β → Settlement} (amount : Nat) : (∀ m ∈ ms, Steps A d n scene β m) →
      (∀ collect bs, (verdict collect bs).Proper collect scene) →
      Steps A d n scene (List β) (Validate.group (charge scene amount) ms verdict)
  | call {d : Bool} {n : Nat} {scene : Scene} {m : Validate Bool} : Steps A false n scene Bool m →
      Steps A d (n + 1) scene (Bool × SchemaAnnotations) (Validate.call do
        unlessAborted
        charge scene 1
        checkDepth scene
        guarded m)

namespace Steps

variable {A : Scene → (α : Type) → Validate α → Prop} {d : Bool} {n : Nat} {scene : Scene} {α β : Type}

/-! ## Programs built from steps -/

theorem seq {m : Validate α} {f : α → Validate β} (hm : Steps A d n scene α m)
    (hf : ∀ a, Steps A d n scene β (f a)) : Steps A d n scene β (m >>= f) := .bind hm fun a _ => hf a

theorem require {m : Validate Bool} (h : Steps A d n scene Bool m) :
    Steps A d n scene Unit (Validate.require m) := by
  refine h.seq fun ok => ?_
  cases ok with
  | true => exact .pure _
  | false => exact .exit trivial

theorem onlyIf {c : Prop} [Decidable c] {m : Validate Unit} (h : c → Steps A d n scene Unit m) :
    Steps A d n scene Unit (Validate.onlyIf c m) := by
  rw [Validate.onlyIf]
  by_cases hc : c
  · rw [if_pos hc]
    exact h hc
  · rw [if_neg hc]
    exact .pure _

theorem withNode {p : Option NodePtr} {m : NodePtr → Validate Unit}
    (h : ∀ q, p = some q → Steps A d n scene Unit (m q)) : Steps A d n scene Unit (Validate.withNode p m) := by
  cases p with
  | none => exact .pure _
  | some q => exact h q rfl

theorem forEach {m : β → Validate Unit} (bs : List β) (h : ∀ b ∈ bs, Steps A d n scene Unit (m b)) :
    Steps A d n scene Unit (Validate.forEach bs m) := by
  induction bs with
  | nil => exact .pure _
  | cons b bs ih =>
    refine (h b List.mem_cons_self).seq fun _ => ?_
    exact ih fun b' hb' => h b' (List.mem_cons_of_mem _ hb')

theorem aborted : Steps A d n scene Bool Validate.aborted := .look Observed.aborted

theorem unlessAborted : Steps A d n scene Unit Validate.unlessAborted :=
  require (aborted.seq fun _ => .pure _)

theorem charge (amount : Nat) : Steps A d n scene Unit (Validate.charge scene amount) :=
  require (.pay amount)

theorem forEachLive {m : β → Validate Unit} (bs : List β) (h : ∀ b ∈ bs, Steps A d n scene Unit (m b)) :
    Steps A d n scene Unit (Validate.forEachLive bs m) := by
  induction bs with
  | nil => exact .pure _
  | cons b bs ih =>
    refine aborted.seq fun stop => ?_
    cases stop with
    | true => exact .pure _
    | false =>
      refine (h b List.mem_cons_self).seq fun _ => ?_
      exact ih fun b' hb' => h b' (List.mem_cons_of_mem _ hb')

theorem lift (x : Except Stop α) : Steps A d n scene α (Validate.lift x) := by
  cases x with
  | ok a => exact .pure a
  | error stop => exact .exit trivial

theorem annotateIf (result : Bool × SchemaAnnotations) :
    Steps A d n scene Unit (Validate.annotateIf result) := onlyIf fun _ => .annotate _

/-- A step in a scene the call leads to. -/
theorem child (step : Step) {p : NodePtr} {m : Validate α} (hp : scene.node.child step = some p)
    (h : Steps A d n (scene.childAt step.token p) α m) : Steps A d n scene α m := .lead (.child hp) h

theorem about_validationError (S : Session) (schema : NodePtr) (code : SchemaError.Code)
    (scene : Scene) (keyword message : Bytes) :
    (S.validationError schema code scene keyword message).About scene := ⟨rfl, rfl, rfl⟩

theorem report (S : Session) (schema : NodePtr) (code : SchemaError.Code) (keyword : String)
    (message : Bytes) : Steps A d n scene Unit (Validate.report S schema code scene keyword message) :=
  .push (about_validationError ..)

/-! ## Comparisons -/

theorem pairMembers (r ms : List (Bytes × Pjson)) :
    Steps A true n scene (List Pair) (Validate.pairMembers scene r ms) := by
  induction ms with
  | nil => exact .pure _
  | cons m ms ih =>
    refine (charge _).seq fun _ => ?_
    cases Assoc.find m.1 r with
    | none => exact .differ
    | some rv => exact ih.seq fun _ => .pure _

theorem comparePair (e : Enumeration) (l r : Pjson) :
    Steps A true n scene (List Pair) (Validate.comparePair e scene l r) := by
  have hchoice : ∀ {c : Prop} [Decidable c] (ps : List Pair),
      Steps A true n scene (List Pair) (if c then Validate.exit .unequal else Pure.pure ps) := by
    intro c _ ps
    by_cases hc : c
    · rw [if_pos hc]
      exact .differ
    · rw [if_neg hc]
      exact .pure _
  induction l, r using pair_cases with
  | numbers l r hl hr =>
    unfold Validate.comparePair
    rw [if_pos (by rw [hl, hr]; rfl)]
    exact hchoice _
  | types l r hnum htype =>
    unfold Validate.comparePair
    rw [if_neg (by rw [hnum]; simp), if_pos htype]
    exact .differ
  | null => exact .pure _
  | string x y => exact (charge (max x.length y.length)).seq fun _ => hchoice (c := x ≠ y) _
  | boolean b c => exact hchoice (c := b ≠ c) _
  | array xs ys => exact hchoice (c := xs.length ≠ ys.length) _
  | object ms ns =>
    show Steps A true n scene _ (if ms.length ≠ ns.length then Validate.exit .unequal
      else Validate.pairMembers scene ns (e.order ms))
    by_cases hc : ms.length ≠ ns.length
    · rw [if_pos hc]
      exact .differ
    · rw [if_neg hc]
      exact pairMembers _ _

theorem visitEqual (e : Enumeration) (p : Pair) :
    Steps A true n scene (List Pair) (Validate.visitEqual e scene p) :=
  (charge _).seq fun _ => comparePair e p.1 p.2

/-- The loop of `equalWithBudget`, as a program. -/
theorem drainEqual (e : Enumeration) (work : List Pair) :
    Steps A true n scene Unit fun o => (equalVisitor e scene o).drain work := by
  induction hw : (work.map fun p => p.1.nodes).sum using Nat.strong_induction_on generalizing work with
  | _ w ih =>
    cases work with
    | nil =>
      have hnil : (fun o => (equalVisitor e scene o).drain []) = (Pure.pure () : Validate Unit) := by
        funext o s
        exact (equalVisitor e scene o).drain_nil s
      rw [hnil]
      exact .pure _
    | cons a rest =>
      have hcons : (fun o => (equalVisitor e scene o).drain (a :: rest)) =
          (Validate.visitEqual e scene a >>= fun pushed =>
            fun o => (equalVisitor e scene o).drain (pushed.reverse ++ rest) : Validate Unit) := by
        funext o s
        have hrun := (equalVisitor e scene o).drain_cons a rest s
        show (equalVisitor e scene o).drain (a :: rest) s =
          EStateM.bind (Validate.visitEqual e scene a o) _ s
        rw [EStateM.bind]
        refine hrun.trans ?_
        cases hv : ((equalVisitor e scene o).visit a).run s with
        | ok pushed t => rw [show Validate.visitEqual e scene a o s = .ok pushed t from hv]; rfl
        | error x t => rw [show Validate.visitEqual e scene a o s = .error x t from hv]
      rw [hcons]
      refine .bind (visitEqual e a) ?_
      rintro pushed ⟨o, s, t, hvisit⟩
      refine ih _ ?_ (pushed.reverse ++ rest) rfl
      rw [← hw]
      exact (equalVisitor e scene o).weight_push hvisit rest

theorem equalWithBudget (e : Enumeration) (l r : Pjson) :
    Steps A d n scene Bool (Validate.equalWithBudget e scene l r) := .answer (drainEqual e [(l, r)])

end Steps

end ByteDance
