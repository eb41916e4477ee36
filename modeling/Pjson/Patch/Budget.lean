/-
  What a patch may cost: `PatchOptions`, `PatchBudget` and `chargePatch`.

  Both patch functions keep one account of operations, work steps, cloned nodes and cloned bytes,
  and pay before they act; a payment that does not fit fails the patch with `ResourceLimit`.
  A failing helper of the source returns false after filling in the caller's `PatchError`; here it
  throws, and the error record is part of the state (`Account`).

  Sizes are `size_t`.  Sums and differences are computed modulo `2 ^ 64`, and `wrapped` remembers
  whether one ever differed from the exact value; `ledger` remembers every value the totals took.
  Neither is in the source: they are there to be reasoned about.
-/
import Pjson.Dom.Value
import Pjson.Lib.Run

namespace ByteDance

open Run

/-- `pjson::PatchError::Code`. -/
inductive PatchError.Code where
  | Ok | InvalidPatchDocument | OperationNotObject | MissingOp | MissingPath | MissingFrom
  | MissingValue | InvalidOp | InvalidPath | InvalidFrom | TargetMissing | InvalidArrayIndex
  | ArrayIndexOutOfRange | MoveRootNotAllowed | MoveIntoDescendant | TestFailed | ResourceLimit
  | AllocationFailure | InternalError
  deriving DecidableEq

/-- `pjson::PatchError`; the defaults are those of its constructor and of `resetPatchError`. -/
structure PatchError where
  ok : Bool := true
  code : PatchError.Code := .Ok
  opIndex : Nat := 0
  op : Bytes := []
  path : Bytes := []
  from' : Bytes := []
  tokenIndex : Nat := 0
  token : Bytes := []
  message : String := ""

/-- `pjson::PatchOptions`; zero selects the built-in ceiling. -/
structure PatchOptions where
  maxOperations : UInt64 := 10000
  maxClonedNodes : UInt64 := 1000000
  maxClonedBytes : UInt64 := 64 * 1024 * 1024
  maxWork : UInt64 := 1000000

/-- What is accounted for. -/
inductive Resource where
  | operations | nodes | bytes | work
  deriving DecidableEq

/-- `PatchBudget`: a total and a limit for each resource. -/
structure PatchBudget where
  used : Resource → Nat
  limit : Resource → Nat

/-- The limit an option stands for. -/
def PatchOptions.effective (options : PatchOptions) : Resource → UInt64
  | .operations => if options.maxOperations = 0 then 10000 else options.maxOperations
  | .nodes => if options.maxClonedNodes = 0 then 1000000 else options.maxClonedNodes
  | .bytes => if options.maxClonedBytes = 0 then 64 * 1024 * 1024 else options.maxClonedBytes
  | .work => if options.maxWork = 0 then 1000000 else options.maxWork

/-- The constructor of `PatchBudget`. -/
def PatchBudget.ofOptions (options : PatchOptions) : PatchBudget where
  used _ := 0
  limit r := (options.effective r).toNat

/-- What a resource still admits, `limit - std::min(used, limit)`. -/
def PatchBudget.left (b : PatchBudget) (r : Resource) : Nat := b.limit r - min (b.used r) (b.limit r)

/-- The state of a patch function: its account, and the error it reports to. -/
structure Account where
  budget : PatchBudget
  error : PatchError
  wrapped : Bool := false
  ledger : List PatchBudget := []

abbrev AccountM := EStateM Unit Account

/-- A sum of two sizes. -/
def addSize (a b : Nat) : AccountM Nat := do
  modify fun s => { s with wrapped := s.wrapped || decide (2 ^ 64 ≤ a + b) }
  pure ((a + b) % 2 ^ 64)

/-- A difference of two sizes. -/
def subSize (a b : Nat) : AccountM Nat := do
  modify fun s => { s with wrapped := s.wrapped || decide (a < b) }
  pure ((a + 2 ^ 64 - b) % 2 ^ 64)

/-- `failPatch`, with the `return false` that follows every call. -/
def failPatch {α : Type} (code : PatchError.Code) (message : String) : AccountM α := do
  modify fun s => { s with error := { s.error with ok := false, code, message } }
  throw ()

/-- `failPatchAtToken`. -/
def failPatchAtToken {α : Type} (code : PatchError.Code) (tokenIndex : Nat) (token : Bytes)
    (message : String) : AccountM α := do
  modify fun s => { s with error := { s.error with tokenIndex, token } }
  failPatch code message

/-- Sets a total. -/
def setUsed (r : Resource) (total : Nat) : AccountM Unit :=
  modify fun s =>
    let budget := { s.budget with used := Function.update s.budget.used r total }
    { s with budget, ledger := budget :: s.ledger }

/-- `chargePatch`. -/
def chargePatch (r : Resource) (amount : Nat) (message : String) : AccountM Unit := do
  let b := (← get).budget
  if b.left r < amount then failPatch .ResourceLimit message
  setUsed r (← addSize (b.used r) amount)

/-! ## What a charge does -/

/-- The totals are within the limits, the limits are sizes, and nothing has wrapped. -/
structure PatchBudget.Sound (b : PatchBudget) : Prop where
  within : ∀ r, b.used r ≤ b.limit r
  sizes : ∀ r, b.limit r < 2 ^ 64

theorem PatchBudget.sound_ofOptions (options : PatchOptions) : (ofOptions options).Sound where
  within _ := Nat.zero_le _
  sizes r := (options.effective r).toNat_lt

/-- The account after a payment. -/
def Account.paid (s : Account) (r : Resource) (amount : Nat) : Account :=
  let budget := { s.budget with
    used := Function.update s.budget.used r (s.budget.used r + amount) }
  { s with budget, ledger := budget :: s.ledger }

/-- The account after a failure. -/
def Account.failed (s : Account) (code : PatchError.Code) (message : String) : Account :=
  { s with error := { s.error with ok := false, code, message } }

theorem PatchBudget.Sound.left_eq {b : PatchBudget} (h : b.Sound) (r : Resource) :
    b.left r = b.limit r - b.used r := by
  rw [left, Nat.min_eq_left (h.within r)]

theorem addSize_run {a b : Nat} (h : a + b < 2 ^ 64) (s : Account) :
    (addSize a b).run s = .ok (a + b) s := by
  have hwrap : (s.wrapped || decide (2 ^ 64 ≤ a + b)) = s.wrapped := by
    rw [decide_eq_false (by omega), Bool.or_false]
  show EStateM.Result.ok ((a + b) % 2 ^ 64) { s with wrapped := _ } = _
  rw [hwrap, Nat.mod_eq_of_lt h]

theorem subSize_run {a b : Nat} (h : b ≤ a) (ha : a < 2 ^ 64) (s : Account) :
    (subSize a b).run s = .ok (a - b) s := by
  have hwrap : (s.wrapped || decide (a < b)) = s.wrapped := by
    rw [decide_eq_false (by omega), Bool.or_false]
  have hmod : (a + 2 ^ 64 - b) % 2 ^ 64 = a - b := by omega
  show EStateM.Result.ok ((a + 2 ^ 64 - b) % 2 ^ 64) { s with wrapped := _ } = _
  rw [hwrap, hmod]

/-- **A charge** is paid in full without wrapping, or fails the patch and leaves the totals. -/
theorem chargePatch_run {s : Account} (h : s.budget.Sound) (r : Resource) (amount : Nat)
    (message : String) : (chargePatch r amount message).run s =
      if s.budget.used r + amount ≤ s.budget.limit r then .ok () (s.paid r amount)
      else .error () (s.failed .ResourceLimit message) := by
  have hused := h.within r
  have hsize := h.sizes r
  have hleft := h.left_eq r
  unfold chargePatch
  rw [EStateM.run_bind, EStateM.run_get]
  dsimp only
  by_cases hfit : s.budget.used r + amount ≤ s.budget.limit r
  · have hnot : ¬ s.budget.left r < amount := by omega
    rw [if_pos hfit, if_neg hnot, EStateM.run_bind, addSize_run (by omega)]
    rfl
  · have hover : s.budget.left r < amount := by omega
    rw [if_neg hfit, if_pos hover]
    rfl

end ByteDance
