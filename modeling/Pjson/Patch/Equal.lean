/-
  `patchEqual`, the comparison behind the `test` operation of a JSON Patch.

  The loop pays for every pair it pops, for the longer of two strings and for every key it looks
  up; a payment that does not fit fails the patch.  Two things are shown of a turn, and each is
  carried over the stack by a rule of its own: what the turn decides (`visitEqual_ends`), and what
  it may spend (`visitEqual_pays`).  Together they leave the comparison two ends (`patchEqual_ends`):
  an answer, which is structural equality, or a `ResourceLimit` where the work on the two values
  does not fit.
-/
import Pjson.Dom.CompareWork
import Pjson.Dom.Enumeration
import Pjson.Lib.Meter
import Pjson.Patch.Budget

namespace ByteDance

open Run

/-- How the loop of a budgeted comparison is left early. -/
inductive EqualExit where
  /-- The budget is exhausted. -/
  | failed
  /-- A difference is found. -/
  | unequal
  deriving DecidableEq

/-- A step that may exhaust the budget. -/
def budgeted {σ α : Type} (x : EStateM Unit σ α) : EStateM EqualExit σ α :=
  EStateM.adaptExcept (fun _ => .failed) x

namespace Patch

def workMessage : String := "JSON Patch work budget exceeded"

/-- The members of the left object against those of the right one. -/
def pairMembers (r : List (Bytes × Pjson)) :
    List (Bytes × Pjson) → EStateM EqualExit Account (List Pair)
  | [] => pure []
  | (key, value) :: li => do
    let ri := Assoc.find key r
    budgeted (do chargePatch .work (← addSize key.length 1) workMessage)
    match ri with
    | none => throw .unequal
    | some matching => do
      let rest ← pairMembers r li
      pure ((value, matching) :: rest)

variable (e : Enumeration)

/-- One turn of the loop; `throw .unequal` is `return true` with `equal` still false. -/
def visitEqual (current : Pair) : EStateM EqualExit Account (List Pair) := do
  budgeted (chargePatch .work 1 workMessage)
  let (lhs, rhs) := current
  if lhs.isNumber && rhs.isNumber then
    if compareNumbers lhs rhs ≠ 0 then throw .unequal else pure []
  else if lhs.getType ≠ rhs.getType then throw .unequal
  else
    match lhs, rhs with
    | .jsonString l, .jsonString r => do
      budgeted (chargePatch .work (max l.length r.length) workMessage)
      if l ≠ r then throw .unequal else pure []
    | .jsonBoolean l, .jsonBoolean r => if l ≠ r then throw .unequal else pure []
    | .jsonArray l, .jsonArray r => if l.length ≠ r.length then throw .unequal else pure (l.zip r)
    | .jsonObject l, .jsonObject r =>
        if l.length ≠ r.length then throw .unequal else pairMembers r (e.order l)
    | _, _ => pure []

theorem pairMembers_ends (r ms : List (Bytes × Pjson)) (s : Account) :
    Ends (pairMembers r ms) s (fun pushed _ => Paired r ms pushed)
      (fun x _ => x = .unequal → ∃ m ∈ ms, Assoc.find m.1 r = none) := by
  induction ms generalizing s with
  | nil => exact List.Forall₂.nil
  | cons m ms ih =>
    obtain ⟨key, value⟩ := m
    unfold pairMembers budgeted
    rw [ends_bind, ends_adaptExcept]
    refine (ends_true _).mono (fun _ t _ => ?_) (fun _ _ _ h => by cases h)
    cases hfind : Assoc.find key r with
    | none => exact fun _ => ⟨(key, value), List.mem_cons_self, hfind⟩
    | some matching =>
      dsimp only
      rw [ends_bind]
      refine (ih t).mono (fun rest _ hrest => ?_) (fun _ _ h hx => ?_)
      · exact List.Forall₂.cons ⟨rfl, hfind⟩ hrest
      · obtain ⟨m, hm, hmiss⟩ := h hx
        exact ⟨m, List.mem_cons_of_mem _ hm, hmiss⟩

theorem visitEqual_ends (p : Pair) (s : Account) :
    Ends (visitEqual e p) s (fun pushed _ => Splits p pushed)
      (fun x _ => x = .unequal → Differs p) := by
  obtain ⟨l, r⟩ := p
  unfold visitEqual budgeted
  rw [ends_bind, ends_adaptExcept]
  refine (ends_true _).mono (fun _ t _ => ?_) (fun _ _ _ h => by cases h)
  induction l, r using pair_cases with
  | numbers l r hl hr =>
    simp only [hl, hr, Bool.and_self, if_true]
    refine ends_ite.mpr ⟨fun h => ?_, fun h => ?_⟩
    · exact fun _ _ _ hsame => h ((same_numbers_iff hl hr).mp hsame)
    · exact splits_nil ((same_numbers_iff hl hr).mpr (not_not.mp h))
  | types l r hnum htype =>
    simp only [hnum, if_pos htype]
    exact fun _ _ _ => not_same_of_getType_ne hnum htype
  | null => exact splits_nil .null
  | string x y =>
    show Ends (budgeted (chargePatch .work (max x.length y.length) workMessage) >>= fun _ =>
      if x ≠ y then throw .unequal else pure []) t _ _
    unfold budgeted
    rw [ends_bind, ends_adaptExcept]
    refine (ends_true _).mono (fun _ u _ => ?_) (fun _ _ _ h => by cases h)
    refine ends_ite.mpr ⟨fun h => ?_, fun h => ?_⟩
    · exact fun _ _ _ hsame => h (same_string_iff.mp hsame)
    · exact splits_nil (same_string_iff.mpr (not_not.mp h))
  | boolean b c =>
    show Ends (if b ≠ c then throw EqualExit.unequal else pure []) t _ _
    refine ends_ite.mpr ⟨fun h => ?_, fun h => ?_⟩
    · exact fun _ _ _ hsame => h (same_boolean_iff.mp hsame)
    · exact splits_nil (same_boolean_iff.mpr (not_not.mp h))
  | array xs ys =>
    show Ends (if xs.length ≠ ys.length then throw EqualExit.unequal else pure (xs.zip ys)) t _ _
    exact ends_ite.mpr ⟨fun h _ => differs_array h, fun h => splits_array (not_not.mp h)⟩
  | object ms ns =>
    show Ends (if ms.length ≠ ns.length then throw .unequal else pairMembers ns (e.order ms)) t _ _
    refine ends_ite.mpr ⟨fun h _ => differs_object_length h, fun h => ?_⟩
    refine (pairMembers_ends ns (e.order ms) t).mono
      (fun _ _ => splits_object (e.perm ms) (not_not.mp h)) ?_
    rintro x _ hmiss hx
    obtain ⟨m, hm, hnone⟩ := hmiss hx
    exact differs_object_missing (e.mem_order.mp hm) hnone

/-! ## What a turn may spend -/

/-- The work of an account; a difference that is found has nothing to do with it. -/
def workMeter : Meter EqualExit Account where
  used s := s.budget.used .work
  limit s := s.budget.limit .work
  early x := x = .unequal
  broke x t := x = .failed ∧ t.error.code = .ResourceLimit

/-- A charge is worth its amount; the sum wraps downwards, if at all. -/
theorem chargePatch_pays (amount : Nat) :
    Pays workMeter (budgeted (chargePatch .work amount workMessage)) amount fun _ => 0 := by
  intro s
  unfold budgeted
  rw [ends_adaptExcept]
  unfold chargePatch
  rw [ends_bind, ends_get]
  by_cases hover : s.budget.left .work < amount
  · simp only [if_pos hover, failPatch, ends_bind, ends_modify, ends_throw]
    refine Or.inr ⟨⟨rfl, rfl⟩, ?_⟩
    unfold PatchBudget.left at hover
    show s.budget.limit .work < s.budget.used .work + amount
    omega
  · simp only [if_neg hover, addSize, setUsed, ends_bind, ends_modify, ends_pure]
    refine ⟨rfl, ?_⟩
    show Function.update s.budget.used .work _ .work + 0 ≤ s.budget.used .work + amount
    rw [Function.update_self]
    exact Nat.mod_le _ _

theorem keyCharge_pays (key : Bytes) : Pays workMeter
    (budgeted (do chargePatch .work (← addSize key.length 1) workMessage)) (key.length + 1)
    fun _ => 0 := by
  intro s
  have hsum := (chargePatch_pays ((key.length + 1) % 2 ^ 64)).mono (Nat.mod_le (key.length + 1) (2 ^ 64))
  exact hsum { s with wrapped := s.wrapped || decide (2 ^ 64 ≤ key.length + 1) }

theorem pairMembers_pays (r ms : List (Bytes × Pjson)) : Pays workMeter (pairMembers r ms)
    (ms.map (memberWork r)).sum fun pushed => (pushed.map pairWork).sum := by
  induction ms with
  | nil => exact Pays.pure le_rfl
  | cons m ms ih =>
    obtain ⟨key, value⟩ := m
    rw [List.map_cons, List.sum_cons, memberWork, pairMembers, Nat.add_assoc (key.length + 1)]
    refine ((keyCharge_pays key).frame _).bind fun _ => ?_
    cases hfind : Assoc.find key r with
    | none => exact Pays.throw rfl
    | some matching =>
      -- the value found is paid for when its turn comes
      refine ((ih.frame (value.compareWork matching)).mono (by dsimp only; omega)).bind fun rest => ?_
      refine Pays.pure ?_
      rw [List.map_cons, List.sum_cons, pairWork, Nat.add_comm]

/-- **A turn of the loop** spends no more than its pair is worth, and leaves the pairs it pushes to
    be paid for. -/
theorem visitEqual_pays (p : Pair) :
    Pays workMeter (visitEqual e p) (pairWork p) fun pushed => (pushed.map pairWork).sum := by
  obtain ⟨l, r⟩ := p
  have hone := l.one_le_compareWork r
  unfold visitEqual
  refine (((chargePatch_pays 1).frame (l.compareWork r - 1)).mono ?_).bind fun _ => ?_
  · show 1 + (l.compareWork r - 1) ≤ l.compareWork r
    omega
  induction l, r using pair_cases with
  | numbers l r hl hr =>
    simp only [hl, hr, Bool.and_self, if_true]
    exact Pays.ite (fun _ => Pays.throw rfl) fun _ => Pays.pure (Nat.zero_le _)
  | types l r hnum htype =>
    simp only [hnum, if_pos htype]
    exact Pays.throw rfl
  | null => exact Pays.pure (Nat.zero_le _)
  | string x y =>
    show Pays workMeter (budgeted (chargePatch .work (max x.length y.length) workMessage) >>= fun _ =>
      if x ≠ y then throw .unequal else pure []) _ _
    rw [Pjson.compareWork, Nat.zero_add, Nat.add_sub_cancel_left]
    refine (chargePatch_pays _).bind fun _ => ?_
    exact Pays.ite (fun _ => Pays.throw rfl) fun _ => Pays.pure (Nat.zero_le _)
  | boolean b c =>
    show Pays workMeter (if b ≠ c then throw EqualExit.unequal else pure []) _ _
    exact Pays.ite (fun _ => Pays.throw rfl) fun _ => Pays.pure (Nat.zero_le _)
  | array xs ys =>
    show Pays workMeter (if xs.length ≠ ys.length then throw EqualExit.unequal
      else pure (xs.zip ys)) _ _
    rw [compareWork_array, Nat.zero_add, Nat.add_sub_cancel_left]
    exact Pays.ite (fun _ => Pays.throw rfl) fun _ => Pays.pure le_rfl
  | object ms ns =>
    show Pays workMeter (if ms.length ≠ ns.length then throw .unequal
      else pairMembers ns (e.order ms)) _ _
    rw [compareWork_object_perm ns (e.perm ms), Nat.zero_add, Nat.add_sub_cancel_left]
    exact Pays.ite (fun _ => Pays.throw rfl) fun _ => pairMembers_pays ns (e.order ms)

/-- The loop of `patchEqual`. -/
def equalVisitor : Visitor EqualExit Account Pair where
  visit := visitEqual e
  size p := p.1.nodes
  shrinks h := ((visitEqual_ends e _ _).ok h).smaller

end Patch

/-- `patchEqual`: throws when the budget is exhausted, else returns `equal`. -/
def patchEqual (e : Enumeration) (left right : Pjson) : AccountM Bool := fun s =>
  match (Patch.equalVisitor e).drain [(left, right)] s with
  | .ok _ t => .ok true t
  | .error .unequal t => .ok false t
  | .error .failed t => .error () t

section

variable {e : Enumeration} {l r : Pjson} {s t : Account}

theorem patchEqual_of_ok {u : Unit} (h : ((Patch.equalVisitor e).drain [(l, r)]).run s = .ok u t) :
    (patchEqual e l r).run s = .ok true t := by
  show patchEqual e l r s = _
  unfold patchEqual
  rw [show (Patch.equalVisitor e).drain [(l, r)] s = _ from h]

theorem patchEqual_of_unequal
    (h : ((Patch.equalVisitor e).drain [(l, r)]).run s = .error .unequal t) :
    (patchEqual e l r).run s = .ok false t := by
  show patchEqual e l r s = _
  unfold patchEqual
  rw [show (Patch.equalVisitor e).drain [(l, r)] s = _ from h]

theorem patchEqual_of_failed
    (h : ((Patch.equalVisitor e).drain [(l, r)]).run s = .error .failed t) :
    (patchEqual e l r).run s = .error () t := by
  show patchEqual e l r s = _
  unfold patchEqual
  rw [show (Patch.equalVisitor e).drain [(l, r)] s = _ from h]

end

/-- **The comparison has two ends**: its answer is structural equality, and it fails the patch only
    where the account cannot pay for the two values. -/
theorem patchEqual_ends (e : Enumeration) {l r : Pjson} (hl : l.WF) (hr : r.WF) (s : Account) :
    Ends (patchEqual e l r) s (fun equal _ => equal = true ↔ Same l r) fun _ t =>
      t.error.code = .ResourceLimit ∧
        s.budget.limit .work < s.budget.used .work + l.compareWork r := by
  have hanswer := compares (· = EqualExit.unequal) (Patch.equalVisitor e)
    (fun p s => Patch.visitEqual_ends e p s) hl hr s
  have hspend := Pays.drain (Patch.equalVisitor e) pairWork (Patch.visitEqual_pays e) [(l, r)] s
  unfold Ends at hanswer hspend ⊢
  cases hrun : ((Patch.equalVisitor e).drain [(l, r)]).run s with
  | ok u t =>
    rw [hrun] at hanswer
    rw [patchEqual_of_ok hrun]
    exact iff_of_true rfl hanswer
  | error x t =>
    rw [hrun] at hanswer hspend
    cases x with
    | unequal =>
      rw [patchEqual_of_unequal hrun]
      exact iff_of_false (by simp) (hanswer rfl)
    | failed =>
      rw [patchEqual_of_failed hrun]
      rcases hspend with hearly | ⟨⟨-, hcode⟩, hover⟩
      · cases hearly
      · rw [List.map_singleton, List.sum_singleton] at hover
        exact ⟨hcode, hover⟩

end ByteDance
