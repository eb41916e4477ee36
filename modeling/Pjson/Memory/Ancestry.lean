/-
  The ancestry test, `_containsNode`.

  The walk keeps a stack of nodes still to be seen; they are the roots of trees of the forest, and what the
  walk has to tell is whether the node is in one of them.  A stack that cannot grow ends the walk with the
  answer that is safe to give.
-/
import Pjson.Memory.Places
import Pjson.Memory.Mutate

namespace ByteDance

open Run Ownership Owned

namespace Memory

namespace Leads

variable {M : Machine} {α β : Type} {F : List NodeTree} {P : β → List NodeTree → Prop}
  {R : HeapExit → List NodeTree → Prop}

/-- A handler goes on from the forest the exception leaves. -/
theorem tryCatch {x : HeapM α} {handle : HeapExit → HeapM α} {Q : α → List NodeTree → Prop}
    (hx : Leads x F Q fun e F' => Leads (handle e) F' Q R) : Leads (MonadExcept.tryCatch x handle) F Q R :=
  fun h hi => ends_tryCatch.mpr
    ((hx h hi).mono (fun _ _ hq => hq) fun _ h' ⟨hs, _, hi', hhandle⟩ => later hs (hhandle h' hi'))

theorem pushAll {Q : List Addr → List NodeTree → Prop} {cs work : List Addr} (hQ : Q (cs.reverse ++ work) F)
    (hR : ∀ k, M.fails k = true → R .badAlloc F) : Leads (Memory.pushAll M cs work) F Q R := by
  induction cs generalizing work with
  | nil => exact pure hQ
  | cons c cs ih =>
    rw [Memory.pushAll]
    refine allocate (ih ?_) hR
    rw [List.reverse_cons, List.append_assoc] at hQ
    exact hQ

/-- The walk over a stack of trees of the forest. -/
theorem containsLoop {Q : Bool → List NodeTree → Prop} {b : Addr} {fuel : Nat} {ts : List NodeTree}
    (hok : ∀ t ∈ ts, t.Ok) (hcells : ∀ c ∈ cellsAll ts, c ∈ cellsAll F) (hfuel : (cellsAll ts).length ≤ fuel)
    (hin : b ∈ (cellsAll ts).map Prod.fst → Q true F) (hout : b ∉ (cellsAll ts).map Prod.fst → Q false F)
    (hR : ∀ k, M.fails k = true → R .badAlloc F) :
    Leads (Memory.containsLoop M b fuel (ts.map addr)) F Q R := by
  induction fuel generalizing ts with
  | zero =>
    cases ts with
    | nil => exact pure (hout nofun)
    | cons t ts =>
      obtain ⟨a, n, cs⟩ := t
      rw [cellsAll_cons, cells_node, List.cons_append, List.length_cons] at hfuel
      omega
  | succ fuel ih =>
    cases ts with
    | nil => exact pure (hout nofun)
    | cons t ts =>
      obtain ⟨a, n, cs⟩ := t
      obtain ⟨ht, hts⟩ := List.forall_mem_cons.mp hok
      obtain ⟨hslots, -, hcs⟩ := ok_node.mp ht
      have hpush : (cellsAll (cs.reverse ++ ts)).Perm (cellsAll cs ++ cellsAll ts) := by
        rw [← cellsAll_append]
        exact cellsAll_perm ((List.reverse_perm cs).append_right ts)
      have hall : (cellsAll (node a n cs :: ts)).Perm ((a, n) :: cellsAll (cs.reverse ++ ts)) := by
        rw [cellsAll_cons, cells_node, List.cons_append]
        exact (hpush.symm.cons _)
      have hmem : b ∈ (cellsAll (node a n cs :: ts)).map Prod.fst ↔
          b = a ∨ b ∈ (cellsAll (cs.reverse ++ ts)).map Prod.fst := by
        rw [(hall.map Prod.fst).mem_iff, List.map_cons, List.mem_cons]
      rw [List.map_cons, addr_node, Memory.containsLoop]
      refine ite (fun heq => pure (hin (hmem.mpr (Or.inl heq.symm)))) fun hne => ?_
      refine load (hcells _ (hall.mem_iff.mpr List.mem_cons_self)) (bind (pushAll ?_ hR))
      rw [show n.impl.children = cs.map addr from hslots, ← List.map_reverse, ← List.map_append]
      refine ih (List.forall_mem_append.mpr ⟨fun c hc => hcs c (List.mem_reverse.mp hc), hts⟩)
        (fun c hc => hcells c (hall.mem_iff.mpr (List.mem_cons_of_mem _ hc))) ?_ (fun hb => ?_) fun hb => ?_
      · have hlen := hall.length_eq
        rw [List.length_cons] at hlen
        omega
      · exact hin (hmem.mpr (Or.inr hb))
      · exact hout fun hb' => hb ((hmem.mp hb').resolve_left fun h => hne h.symm)

/-- **The ancestry test** says yes of a node below the root, and may say so of any other if memory runs out;
    it says no of no node below the root, and it changes nothing. -/
theorem containsNode {f : Bool → HeapM β} {t : NodeTree} {b : Addr}
    (ht : Beside t (cellsAll F)) (hnodup : t.cells.Nodup)
    (hin : b ∈ t.addrs ∨ (∃ k, M.fails k = true) → Leads (f true) F P R)
    (hout : b ∉ t.addrs → Leads (f false) F P R) :
    Leads (Memory.containsNode M t.addr b >>= f) F P R := by
  have hone : cellsAll [t] = t.cells := by rw [cellsAll_cons, cellsAll_nil, List.append_nil]
  unfold Memory.containsNode
  refine bind (tryCatch (R := R) ?_)
  have hfail : ∀ k, M.fails k = true → Leads (if HeapExit.badAlloc = .badAlloc then Pure.pure true
      else MonadExcept.throw HeapExit.badAlloc : HeapM Bool) F (fun v F' => Leads (f v) F' P R) R := fun k hk => by
    rw [if_pos rfl]
    exact pure (hin (Or.inr ⟨k, hk⟩))
  refine allocate ?_ hfail
  refine next (f := fun fuel => Memory.containsLoop M b fuel [t.addr]) fun fuel hfuel => ?_
  have hroots : ∀ u ∈ [t], u.Ok := List.forall_mem_singleton.mpr ht.ok
  refine containsLoop hroots (hone ▸ ht.cells) ?_ (fun hb => ?_) (fun hb => ?_) hfail
  · rw [hone]
    exact (hnodup.subperm ht.cells).length_le.trans hfuel
  · rw [hone] at hb
    exact hin (Or.inl hb)
  · rw [hone] at hb
    exact hout hb

end Leads

end Memory

end ByteDance
