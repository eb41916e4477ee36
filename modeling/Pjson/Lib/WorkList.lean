/-
  Traversals driven by an explicit stack.

  A loop `while (!work.empty())` pops an item, visits it, and the visit either leaves the loop or
  pushes the items that are left to do.  `Visitor` is such a body together with the measure that
  every visit spends: the items pushed weigh less than the item popped.  So the loop is a total
  program, `drain`.  `drain_ends` is its invariant rule, over the stack and the state;
  `drain_decides` is the case of a search: where a visit reduces a property of its item to the
  items it pushes, a run that ends normally has established the property of the whole stack, and
  an exit that refutes its item has refuted it.

  Items are pushed in order, so the last one pushed is visited first.
-/
import Pjson.Lib.Run

open Run

/-- The body of a work-list loop over items `α` and a state `σ`, left early by a failure in `ε`. -/
structure Visitor (ε σ α : Type) where
  visit : α → EStateM ε σ (List α)
  /-- What an item weighs. -/
  size : α → Nat
  shrinks : ∀ {a s pushed t}, Ok (visit a) s pushed t → (pushed.map size).sum < size a

namespace Visitor

variable {ε σ α : Type} (V : Visitor ε σ α)

/-- What a stack weighs. -/
def weight (work : List α) : Nat := (work.map V.size).sum

theorem weight_push {a : α} {s t : σ} {pushed : List α} (h : Ok (V.visit a) s pushed t)
    (rest : List α) : V.weight (pushed.reverse ++ rest) < V.weight (a :: rest) := by
  unfold weight
  rw [List.map_append, List.sum_append, List.map_reverse, List.sum_reverse, List.map_cons,
    List.sum_cons]
  exact Nat.add_lt_add_right (V.shrinks h) _

/-- Empties the stack, whose top is the head of the list. -/
def drain (work : List α) : EStateM ε σ Unit := fun s =>
  match work with
  | [] => .ok () s
  | a :: rest =>
    match _h : V.visit a s with
    | .error e t => .error e t
    | .ok pushed t => drain (pushed.reverse ++ rest) t
termination_by V.weight work
decreasing_by
  rw [List.unattach_reverse, List.unattach_attach]
  exact V.weight_push ‹_› rest

theorem drain_nil (s : σ) : (V.drain []).run s = .ok () s := by
  show V.drain [] s = _
  rw [drain.eq_def]

theorem drain_cons (a : α) (rest : List α) (s : σ) : (V.drain (a :: rest)).run s =
    match (V.visit a).run s with
    | .error e t => .error e t
    | .ok pushed t => (V.drain (pushed.reverse ++ rest)).run t := by
  show V.drain (a :: rest) s = match V.visit a s with
    | .error e t => .error e t
    | .ok pushed t => V.drain (pushed.reverse ++ rest) t
  rw [drain.eq_def]
  dsimp only
  split <;> rename_i hv <;> rw [hv]

/-- **The invariant rule**: `J` holds of the stack and the state before every visit, so it holds of
    the empty stack after the run; an exit satisfies what the visit that takes it guarantees. -/
theorem drain_ends {J : List α → σ → Prop} {R : ε → σ → Prop}
    (hvisit : ∀ a rest s, J (a :: rest) s →
      Ends (V.visit a) s (fun pushed t => J (pushed.reverse ++ rest) t) R)
    {work : List α} {s : σ} (h : J work s) : Ends (V.drain work) s (fun _ t => J [] t) R := by
  induction hw : V.weight work using Nat.strong_induction_on generalizing work s with
  | _ w ih =>
    unfold Ends
    cases work with
    | nil =>
      rw [drain_nil]
      exact h
    | cons a rest =>
      have hstep := hvisit a rest s h
      rw [drain_cons]
      unfold Ends at hstep
      cases hv : (V.visit a).run s with
      | error e t =>
        rw [hv] at hstep
        exact hstep
      | ok pushed t =>
        rw [hv] at hstep
        exact ih _ (hw ▸ V.weight_push hv rest) hstep rfl

/-- **The search rule**: visits that reduce `P` of a valid item to `P` of the valid items they push
    decide `P` of the stack; an exit in `bad` is one that refutes its item. -/
theorem drain_decides (Valid P : α → Prop) (bad : ε → Prop)
    (hvisit : ∀ a s, Valid a → Ends (V.visit a) s
      (fun pushed _ => (∀ b ∈ pushed, Valid b) ∧ (P a ↔ ∀ b ∈ pushed, P b))
      (fun e _ => bad e → ¬ P a))
    {work : List α} (hvalid : ∀ a ∈ work, Valid a) (s : σ) :
    Ends (V.drain work) s (fun _ _ => ∀ a ∈ work, P a) (fun e _ => bad e → ¬ ∀ a ∈ work, P a) := by
  have hloop := V.drain_ends (R := fun e _ => bad e → ¬ ∀ a ∈ work, P a)
    (J := fun left _ => (∀ a ∈ left, Valid a) ∧ ((∀ a ∈ work, P a) ↔ ∀ a ∈ left, P a)) ?_
    (s := s) ⟨hvalid, Iff.rfl⟩
  · exact hloop.mono (fun _ _ h => h.2.mpr (by simp)) (fun _ _ h => h)
  · rintro a rest u ⟨hleft, hiff⟩
    refine (hvisit a u (hleft a List.mem_cons_self)).mono ?_ ?_
    · rintro pushed t ⟨hpushed, hreduce⟩
      constructor
      · intro b hb
        rcases List.mem_append.mp hb with hb | hb
        · exact hpushed b (List.mem_reverse.mp hb)
        · exact hleft b (List.mem_cons_of_mem _ hb)
      · rw [hiff, List.forall_mem_cons, hreduce, List.forall_mem_append]
        simp only [List.mem_reverse]
    · intro e t hbad he hall
      exact hbad he (hiff.mp hall a List.mem_cons_self)

end Visitor
