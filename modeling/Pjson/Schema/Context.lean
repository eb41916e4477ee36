/-
  One validation run: its counters, its error sinks and the steps that change them.

  The source threads a `ValidationCtx` and an `ErrorSink` through its functions by reference; here
  both are part of the state of a `Validate` program.  A scratch sink hides the sink it replaces,
  so the sinks form a stack; the public one, at the bottom, writes to `ctx.publicErrors`.  An early
  `return false` of a call is the exit `returned`, which the call catches.

  `Progress.past` remembers every state the run has been in, and `Progress.groups` every group of
  branches that has ended.  Neither is in the source: they are there so that a theorem can speak
  about all of them.
-/
import Pjson.Schema.Reference
import Pjson.Schema.Regex
import Pjson.Schema.Decimal
import Pjson.Dom.Enumeration
import Pjson.Dom.Utf8Len

namespace ByteDance

open Decimal

/-! ## The state -/

/-- `RegexCacheEntry::State`, of a pattern that has been looked at. -/
inductive RegexState where
  | Ready | PatternTooLarge | UnsafePattern | InvalidPattern
  deriving DecidableEq

/-- `ErrorSink::Mode`. -/
inductive SinkMode where
  | Public | Causes | Discard
  deriving DecidableEq

/-- `ErrorSink`; the values of a public sink are those of the run. -/
structure ErrorSink where
  mode : SinkMode
  values : List SchemaError
  failures : Nat

/-- A sink as its constructor leaves it. -/
def ErrorSink.ofMode (mode : SinkMode) : ErrorSink := ⟨mode, [], 0⟩

/-- `++failures`, up to the largest `size_t`. -/
def ErrorSink.counted (sink : ErrorSink) : ErrorSink :=
  { sink with failures := if sink.failures = 2 ^ 64 - 1 then sink.failures else sink.failures + 1 }

/-- `SchemaAnnotations`: only membership in the two sets is ever asked for. -/
structure SchemaAnnotations where
  properties : List Bytes := []
  items : List Nat := []

/-- `SchemaAnnotations::merge`. -/
def SchemaAnnotations.merge (a other : SchemaAnnotations) : SchemaAnnotations :=
  ⟨other.properties ++ a.properties, other.items ++ a.items⟩

/-- What a call of `validateCtx` is about: the node and the path that names it. -/
structure Scene where
  node : NodePtr
  path : Bytes

/-- `ValidationCtx`. -/
structure ValidationCtx where
  publicErrors : List SchemaError
  publicErrorStart : Nat
  depth : Nat := 0
  refResolutions : Nat := 0
  workUsed : Nat := 0
  errorsUsed : Nat := 0
  diagnosticsUsed : Nat := 0
  aborted : Bool := false
  activeRefs : List (Address × Address) := []
  regexCache : List (Bytes × RegexState) := []
  dynamicScope : List SchemaTarget := []

/-- The state at one moment of a run. -/
structure Moment where
  ctx : ValidationCtx
  /-- The sink of the call in progress. -/
  errors : ErrorSink
  /-- The sinks it hides, innermost first. -/
  hidden : List ErrorSink := []
  /-- `DepthGuard::levels` of the call in progress. -/
  levels : Nat := 0
  /-- `evaluated` of the call in progress. -/
  evaluated : SchemaAnnotations := {}

/-- What becomes of the causes of a group of branches. -/
inductive Fate where
  /-- An error takes them. -/
  | kept
  /-- `ctx.diagnosticsUsed` is set back to where it was before them. -/
  | givenBack
  | dropped
  deriving DecidableEq

/-- How a group of branches has ended: the moment its sinks are gone, the causes it has collected
    and what becomes of them. -/
structure GroupEnd where
  moment : Moment
  causes : List SchemaError
  fate : Fate

structure Progress where
  now : Moment
  past : List Moment := []
  groups : List GroupEnd := []

/-- How a program ends before its last statement. -/
inductive Exit where
  /-- `return false` of the call in progress. -/
  | returned
  /-- A comparison has found a difference. -/
  | unequal
  /-- `throw SchemaBudgetExceeded()`. -/
  | budgetExceeded
  /-- Another exception, or undefined behaviour. -/
  | stopped (stop : Stop)
  /-- The recursion bound of the model is reached. -/
  | outOfFuel

/-- A program of the evaluator. -/
abbrev Validate := ReaderT Options (EStateM Exit Progress)

/-- What a validation reads besides its options: the compiled schema, the order in which objects
    are enumerated, and the functions that are parameters of the model. -/
structure Session where
  compiled : CompiledSchemaIndex
  rootSchema : NodePtr
  enumeration : Enumeration
  engine : EcmaRegex.Engine
  d2s : Binary64 → Bytes
  /-- `knownFormatValid`; `none` for a format that is not known. -/
  formats : Bytes → Bytes → Option Bool

/-! ## Limits -/

/-- `diagnosticLimit`. -/
def diagnosticLimit (options : Options) : Nat :=
  if options.stopAfterFirstError then 1
  else if options.maxErrors = 0 then 100 else options.maxErrors.toNat

/-- `kSchemaValidationDepthHardLimit`. -/
def kSchemaValidationDepthHardLimit : Nat := 32

/-- `validationDepthLimit`. -/
def validationDepthLimit (options : Options) : Nat :=
  let requested := if options.maxValidationDepth = 0 then kSchemaValidationDepthHardLimit
    else options.maxValidationDepth.toNat
  min requested kSchemaValidationDepthHardLimit

/-- `validationRefLimit`. -/
def validationRefLimit (options : Options) : Nat :=
  if options.maxRefResolutions = 0 then 1024 else options.maxRefResolutions.toNat

/-- `validationWorkLimit`. -/
def validationWorkLimit (options : Options) : Nat :=
  if options.maxValidationWork = 0 then 1000000 else options.maxValidationWork.toNat

/-! ## What the steps do to the state -/

namespace Moment

/-- `values.push_back(error); ++ctx.diagnosticsUsed;` of the public sink. -/
def publish (m : Moment) (error : SchemaError) : Moment :=
  { m with ctx := { m.ctx with
      publicErrors := m.ctx.publicErrors ++ [error]
      diagnosticsUsed := m.ctx.diagnosticsUsed + 1 } }

/-- `ctx.aborted = true`. -/
def abort (m : Moment) : Moment := { m with ctx := { m.ctx with aborted := true } }

def addErrorUsed (m : Moment) : Moment :=
  { m with ctx := { m.ctx with errorsUsed := m.ctx.errorsUsed + 1 } }

/-- `++failures`. -/
def addFailure (m : Moment) : Moment := { m with errors := m.errors.counted }

/-- Collects the error as a cause. -/
def collect (m : Moment) (error : SchemaError) : Moment :=
  { m with
    ctx := { m.ctx with diagnosticsUsed := m.ctx.diagnosticsUsed + 1 }
    errors := { m.errors with values := m.errors.values ++ [error] } }

/-- The diagnostic that takes the place of the first public error over budget. -/
def overflowError (error : SchemaError) : SchemaError where
  code := .ResourceLimit
  instanceLocation := error.instanceLocation
  schemaLocation := error.schemaLocation
  keyword := []
  message := ascii "schema validation error budget exceeded"
  subject := error.subject

/-- A public error over budget. -/
def overflow (o : Options) (m : Moment) (error : SchemaError) : Moment :=
  if m.ctx.publicErrors.length - m.ctx.publicErrorStart < diagnosticLimit o ∧
      m.ctx.diagnosticsUsed < diagnosticLimit o then
    m.abort.publish (overflowError error)
  else m.abort

/-- A public error is over budget. -/
def overBudget (o : Options) (m : Moment) : Prop :=
  diagnosticLimit o ≤ m.ctx.errorsUsed ∨ diagnosticLimit o ≤ m.ctx.diagnosticsUsed

instance (o : Options) (m : Moment) : Decidable (m.overBudget o) :=
  inferInstanceAs (Decidable (_ ∨ _))

/-- `ErrorSink::push_back`: the state it leaves, and whether it throws. -/
def push (o : Options) (error : SchemaError) (m : Moment) : Moment × Bool :=
  if m.ctx.aborted then (m, false)
  else
    match m.errors.mode with
    | .Discard => (m.addFailure, false)
    | .Causes =>
      -- one slot is left for the combinator error that encloses the causes
      if diagnosticLimit o ≤ m.ctx.diagnosticsUsed + 1 then (m.addFailure, false)
      else (m.addFailure.collect error, false)
    | .Public =>
      if m.overBudget o then (overflow o m.addFailure error, true)
      else if o.stopAfterFirstError then ((m.addFailure.publish error).addErrorUsed.abort, true)
      else ((m.addFailure.publish error).addErrorUsed, false)

/-- The diagnostic of an exhausted budget. -/
def budgetError (scene : Scene) (message : Bytes) : SchemaError where
  code := .ResourceLimit
  instanceLocation := scene.path
  schemaLocation := []
  keyword := []
  message := message
  subject := scene.node.address

/-- `failValidationBudget`. -/
def failBudget (o : Options) (scene : Scene) (message : Bytes) (m : Moment) : Moment :=
  if m.ctx.aborted then m
  else if diagnosticLimit o ≤ m.ctx.errorsUsed then m.abort
  else (m.abort.publish (budgetError scene message)).addErrorUsed

/-- `chargeValidationWork`: the state it leaves, and what it returns. -/
def charge (o : Options) (scene : Scene) (amount : Nat) (m : Moment) : Moment × Bool :=
  let limit := validationWorkLimit o
  if limit - min m.ctx.workUsed limit < amount then
    (m.failBudget o scene (ascii "schema validation work budget exceeded"), false)
  else ({ m with ctx := { m.ctx with workUsed := m.ctx.workUsed + amount } }, true)

theorem failBudget_aborted (o : Options) (scene : Scene) (message : Bytes) (m : Moment) :
    (m.failBudget o scene message).ctx.aborted = true := by
  rw [failBudget]
  split_ifs with h
  · exact h
  · rfl
  · rfl

/-- A payment is made in full, or aborts the run. -/
theorem charge_aborted {o : Options} {scene : Scene} {amount : Nat} {m : Moment}
    (h : (m.charge o scene amount).2 = false) : (m.charge o scene amount).1.ctx.aborted = true := by
  rw [charge] at h ⊢
  split_ifs at h ⊢
  exact failBudget_aborted ..

/-- A call begins: `DepthGuard` and a fresh annotation set. -/
def enter (m : Moment) : Moment :=
  { m with ctx := { m.ctx with depth := m.ctx.depth + 1 }, levels := 1, evaluated := {} }

/-- A call ends: the destructors of its three guards, and the caller's own variables. -/
def leave (m caller : Moment) : Moment :=
  { m with
    ctx := { m.ctx with
      depth := m.ctx.depth - m.levels
      activeRefs := m.ctx.activeRefs.take caller.ctx.activeRefs.length
      dynamicScope := m.ctx.dynamicScope.take caller.ctx.dynamicScope.length }
    levels := caller.levels
    evaluated := caller.evaluated }

/-- `DepthGuard::enterResolvedReference`. -/
def descend (m : Moment) : Moment :=
  { m with ctx := { m.ctx with depth := m.ctx.depth + 1 }, levels := m.levels + 1 }

/-- A scratch sink takes the place of the current one. -/
def shadow (mode : SinkMode) (m : Moment) : Moment :=
  { m with errors := .ofMode mode, hidden := m.errors :: m.hidden }

/-- The sink of before is back. -/
def unshadow (m before : Moment) : Moment := { m with errors := before.errors, hidden := before.hidden }

/-- A scratch sink of its own for the next branch, on the same vector. -/
def freshSink (m : Moment) : Moment := { m with errors := { m.errors with failures := 0 } }

end Moment

/-- The next state of a run. -/
def Progress.step (r : Progress) (m : Moment) : Progress := ⟨m, m :: r.past, r.groups⟩

/-- The same state, without a record of it. -/
def Progress.become (r : Progress) (m : Moment) : Progress := { r with now := m }

def Progress.ended (r : Progress) (g : GroupEnd) : Progress := { r with groups := g :: r.groups }

/-- The diagnostics in use are set back. -/
def Moment.withDiagnostics (m : Moment) (n : Nat) : Moment :=
  { m with ctx := { m.ctx with diagnosticsUsed := n } }

/-- How a group of branches is settled: an error to report, and what becomes of the causes. -/
structure Settlement where
  error : Option SchemaError
  fate : Fate

/-- Settles a group that started at `before`, as `push` does. -/
def Settlement.close (s : Settlement) (o : Options) (before : Moment) (causes : List SchemaError)
    (m : Moment) : Moment × Bool :=
  let m := if s.fate = .givenBack then m.withDiagnostics before.ctx.diagnosticsUsed else m
  match s.error with
  | none => (m, false)
  | some error => m.push o { error with causes := if s.fate = .kept then causes else [] }

/-! ## The steps -/

namespace Validate

variable {α β : Type}

/-- A step that always succeeds. -/
def update (f : Options → Moment → Moment) : Validate Unit := fun o r => .ok () (r.step (f o r.now))

/-- A look at the state. -/
def inspect (f : Options → Moment → α) : Validate α := fun o r => .ok (f o r.now) r

def exit (e : Exit) : Validate α := fun _ r => .error e r

/-- `if (!m) return false;`. -/
def require (m : Validate Bool) : Validate Unit := do
  let ok ← m
  if ok then pure () else exit .returned

def onlyIf (c : Prop) [Decidable c] (m : Validate Unit) : Validate Unit := if c then m else pure ()

/-- `if (const pjson* p = …)`. -/
def withNode (p : Option NodePtr) (m : NodePtr → Validate Unit) : Validate Unit :=
  match p with
  | none => pure ()
  | some p => m p

/-- A loop without an exit of its own. -/
def forEach : List β → (β → Validate Unit) → Validate Unit
  | [], _ => pure ()
  | b :: bs, m => do
    m b
    forEach bs m

/-- `errors.push_back(error)`. -/
def push_back (error : SchemaError) : Validate Unit := fun o r =>
  let (m, threw) := r.now.push o error
  if threw then .error .budgetExceeded (r.step m) else .ok () (r.step m)

/-- `failValidationBudget`. -/
def failValidationBudget (scene : Scene) (message : Bytes) : Validate Unit :=
  update fun o m => m.failBudget o scene message

/-- `chargeValidationWork`, and `chargeLoopWork`, which is the same. -/
def chargeValidationWork (scene : Scene) (amount : Nat) : Validate Bool := fun o r =>
  let (m, ok) := r.now.charge o scene amount
  .ok ok (r.step m)

/-- `if (!chargeLoopWork(…)) return false;`. -/
def charge (scene : Scene) (amount : Nat) : Validate Unit :=
  require (chargeValidationWork scene amount)

/-- `ctx.aborted`. -/
def aborted : Validate Bool := inspect fun _ m => m.ctx.aborted

/-- `if (ctx.aborted) return false;`. -/
def unlessAborted : Validate Unit := require (do pure !(← aborted))

/-- Reads the options; what may be read is for the user to say. -/
def option (f : Options → α) : Validate α := inspect fun o _ => f o

/-- What throws, or is undefined, in a pure function. -/
def lift (x : Except Stop α) : Validate α :=
  match x with
  | .ok a => pure a
  | .error stop => exit (.stopped stop)

/-! The annotations of the call in progress. -/

def annotate (f : SchemaAnnotations → SchemaAnnotations) : Validate Unit :=
  update fun _ m => { m with evaluated := f m.evaluated }

def annotateProperty (key : Bytes) : Validate Unit :=
  annotate fun a => { a with properties := key :: a.properties }

def annotateItem (i : Nat) : Validate Unit := annotate fun a => { a with items := i :: a.items }

/-- `if (valid) evaluated.merge(annotations)`. -/
def annotateIf (result : Bool × SchemaAnnotations) : Validate Unit :=
  onlyIf (result.1 = true) (annotate fun a => a.merge result.2)

/-! Programs run with a scratch sink, or as a call. -/

/-- Runs a program on another state, and mends the state on every way out of it. -/
def within (before : Moment → Moment) (after : Moment → Moment → Moment) (m : Validate α) :
    Validate α := fun o r =>
  match m o (r.step (before r.now)) with
  | .ok a t => .ok a (t.become (after t.now r.now))
  | .error e t => .error e (t.become (after t.now r.now))

/-- Runs a program with a sink that drops every error. -/
def discarding (m : Validate α) : Validate α := within (.shadow .Discard) .unshadow m

/-- The branches of a group, one after the other, each with a sink of its own. -/
def branches (charged : Validate Unit) : List (Validate β) → Validate (List β)
  | [] => pure []
  | m :: ms => do
    charged
    update fun _ => Moment.freshSink
    let b ← m
    unlessAborted
    let bs ← branches charged ms
    pure (b :: bs)

/-- The mode of the sinks of a group. -/
def groupMode (o : Options) : SinkMode := if o.collectNestedCauses then .Causes else .Discard

/-- A group of branches: `anyOf` and `oneOf`. -/
def group (charged : Validate Unit) (ms : List (Validate β)) (verdict : Bool → List β → Settlement) :
    Validate (List β) := fun o r =>
  match branches charged ms o (r.step (r.now.shadow (groupMode o))) with
  | .error e t =>
    let left := t.now.unshadow r.now
    .error e ((t.become left).ended ⟨left, t.now.errors.values, .dropped⟩)
  | .ok bs t =>
    let left := t.now.unshadow r.now
    let s := verdict o.collectNestedCauses bs
    let (m, threw) := s.close o r.now t.now.errors.values left
    let settled := ((t.become left).ended ⟨left, t.now.errors.values, s.fate⟩).step m
    if threw then .error .budgetExceeded settled else .ok bs settled

/-- The body of a call between its guards; a `return false` in it is caught. -/
def guarded (m : Validate Bool) : Validate (Bool × SchemaAnnotations) :=
  within .enter .leave do
    let valid ← m
    let evaluated ← inspect fun _ m => m.evaluated
    pure (valid, evaluated)

/-- A `return false`, caught. -/
def caught : EStateM.Result Exit Progress (Bool × SchemaAnnotations) →
    EStateM.Result Exit Progress (Bool × SchemaAnnotations)
  | .error .returned t => .ok (false, {}) t
  | result => result

/-- A call of `validateCtx` catches its own `return false`. -/
def call (m : Validate (Bool × SchemaAnnotations)) : Validate (Bool × SchemaAnnotations) := fun o r =>
  caught (m o r)

end Validate

end ByteDance
