/-
  `pjson::applyMergePatch`: a merge by an explicit list of pending pairs.

  An item stands for a node of the scratch document, by its place, and for the patch object that is to be
  merged into it; the source keeps a pointer to the node.  The members of the patch object are visited in
  the order of an enumeration, those of them that are objects are pushed, and the place of the last one
  pushed is visited next.  What a turn changes is written back at its end; if a charge fails, the source drops
  the scratch document with the changes made so far.  `insertObjectChild` does not fail here.
-/
import Pjson.Patch.Apply
import Pjson.Patch.Rfc7396

namespace ByteDance

open Run

namespace Patch

/-- `MergeItem`. -/
structure MergeItem where
  target : Location
  patch : List (Bytes × Pjson)

/-- An account and the document under work. -/
structure Merging where
  account : Account
  scratch : Pjson

abbrev MergeM := EStateM Unit Merging

/-- A step that uses the account only. -/
def onAccount {α : Type} (x : AccountM α) : MergeM α := fun s =>
  match x s.account with
  | .ok a t => .ok a { s with account := t }
  | .error e t => .error e { s with account := t }

variable (e : Enumeration) (nodeSize : Nat)

/-- The body of the loop over a patch object: what becomes of the members of the target. -/
def mergeMember (object : List (Bytes × Pjson)) (it : Bytes × Pjson) : AccountM (List (Bytes × Pjson)) := do
  chargePatch .operations 1 "JSON Merge Patch operation budget exceeded"
  chargePatch .work 1 "JSON Merge Patch work budget exceeded"
  let (key, patchValue) := it
  chargePatch .bytes key.length "JSON Merge Patch cloned-byte budget exceeded"
  match patchValue with
  | .jsonNull => pure (Assoc.drop key object)
  | .jsonObject _ =>
    match Assoc.find key object with
    | none => do
      chargePatch .nodes 1 "JSON Merge Patch cloned-node budget exceeded"
      chargePatch .bytes nodeSize "JSON Merge Patch cloned-byte budget exceeded"
      pure (Assoc.assign key (.jsonObject []) object)
    | some (.jsonObject _) => pure object
    | some _ => pure (Assoc.assign key (.jsonObject []) object)
  | _ => do
    measureClone e nodeSize patchValue
    pure (Assoc.assign key patchValue object)

/-- What a member of a patch object leaves to be done: its key, if it is an object itself. -/
def pending (it : Bytes × Pjson) : Option (Bytes × List (Bytes × Pjson)) :=
  match it.2 with
  | .jsonObject patch => some (it.1, patch)
  | _ => none

/-- The loop over a patch object, and the items it pushes. -/
def mergeMembers (object : List (Bytes × Pjson)) :
    List (Bytes × Pjson) → AccountM (List (Bytes × Pjson) × List (Bytes × List (Bytes × Pjson)))
  | [] => pure (object, [])
  | it :: rest => do
    let object ← mergeMember e nodeSize object it
    let (object, pushed) ← mergeMembers object rest
    pure (object, (pending it).toList ++ pushed)

/-- One turn of the loop of `applyMergePatchTo`; a target that is no object becomes an empty one. -/
def visitMerge (item : MergeItem) : MergeM (List MergeItem) := do
  let target := ((← get).scratch.get item.target).getD .jsonNull
  let (object, pushed) ← onAccount (mergeMembers e nodeSize target.members (e.order item.patch))
  modify fun s => { s with scratch := s.scratch.put item.target (.jsonObject object) }
  pure (pushed.map fun p => ⟨item.target ++ [.member p.1], p.2⟩)

/-! ## Termination -/

theorem ends_onAccount {α : Type} {x : AccountM α} {s : Merging} {Q : α → Merging → Prop}
    {R : Unit → Merging → Prop} : Ends (onAccount x) s Q R ↔
      Ends x s.account (fun a t => Q a { s with account := t }) fun u t => R u { s with account := t } := by
  unfold Ends EStateM.run onAccount
  cases x s.account <;> exact Iff.rfl

theorem mergeMembers_ends (object l : List (Bytes × Pjson)) (s : Account) :
    Ends (mergeMembers e nodeSize object l) s (fun r _ => r.2 = l.filterMap pending) fun _ _ => True := by
  induction l generalizing object s with
  | nil => rfl
  | cons it l ih =>
    rw [mergeMembers, ends_bind]
    refine (ends_true _).mono (fun object' t _ => ?_) fun _ _ h => h
    rw [ends_bind]
    refine (ih object' t).mono (fun r u hr => ?_) fun _ _ h => h
    show (pending it).toList ++ r.2 = _
    rw [hr, List.filterMap_cons]
    cases pending it <;> rfl

/-- What a patch object pushes weighs less than it does. -/
theorem sum_pending_le (l : List (Bytes × Pjson)) :
    ((l.filterMap pending).map fun p => (Pjson.jsonObject p.2).nodes).sum ≤ Pjson.nodesMembers l := by
  induction l with
  | nil => exact le_rfl
  | cons it l ih =>
    obtain ⟨key, value⟩ := it
    rw [Pjson.nodesMembers]
    cases value with
    | jsonObject patch =>
      rw [List.filterMap_cons_some (show pending (key, .jsonObject patch) = some (key, patch) from rfl),
        List.map_cons, List.sum_cons]
      exact Nat.add_le_add_left ih _
    | _ =>
      rw [List.filterMap_cons_none rfl]
      exact ih.trans (Nat.le_add_left _ _)

theorem visitMerge_ends (item : MergeItem) (s : Merging) :
    Ends (visitMerge e nodeSize item) s (fun pushed _ =>
      (pushed.map fun p => (Pjson.jsonObject p.patch).nodes).sum < (Pjson.jsonObject item.patch).nodes)
      fun _ _ => True := by
  unfold visitMerge
  rw [ends_bind, ends_get, ends_bind, ends_onAccount]
  refine (mergeMembers_ends e nodeSize _ _ s.account).mono ?_ fun _ _ h => h
  rintro ⟨object, pushed⟩ t rfl
  show ((((e.order item.patch).filterMap pending).map _).map _).sum < _
  rw [List.map_map]
  have hle := sum_pending_le (e.order item.patch)
  have hperm : Pjson.nodesMembers (e.order item.patch) = Pjson.nodesMembers item.patch := by
    rw [Pjson.nodesMembers_eq_sum, Pjson.nodesMembers_eq_sum]
    exact ((e.perm item.patch).map _).sum_eq
  rw [hperm] at hle
  exact Nat.lt_one_add_iff.mpr hle

/-- The loop of `applyMergePatchTo`. -/
def mergeVisitor : Visitor Unit Merging MergeItem where
  visit := visitMerge e nodeSize
  size item := (Pjson.jsonObject item.patch).nodes
  shrinks h := (visitMerge_ends e nodeSize _ _).ok h

/-- `applyMergePatchTo`. -/
def applyMergePatchTo : Pjson → MergeM Unit
  | .jsonObject patch => (mergeVisitor e nodeSize).drain [⟨[], patch⟩]
  | aPatch => do
    onAccount (do
      chargePatch .operations 1 "JSON Merge Patch operation budget exceeded"
      measureClone e nodeSize aPatch)
    modify fun s => { s with scratch := aPatch }

/-- A run on a scratch document. -/
def onScratch (x : MergeM Unit) (scratch : Pjson) : AccountM Pjson := fun s =>
  match x ⟨s, scratch⟩ with
  | .ok _ t => .ok t.scratch t.account
  | .error u t => .error u t.account

end Patch

/-- `pjson::applyMergePatch`. -/
def Pjson.applyMergePatch (e : Enumeration) (nodeSize : Nat) (target aPatch : Pjson) (aOpts : PatchOptions) :
    PatchResult :=
  publishPatch aOpts target do
    measureClone e nodeSize target
    Patch.onScratch (Patch.applyMergePatchTo e nodeSize aPatch) target

end ByteDance
