/-
  The heap of the DOM as a forest, and its teardown.

  A node owns what its array or object refers to, and shares its allocator with it.  `Mem h L` says that
  the live nodes are the cells of the list, and takes the census: every address used is that of a live
  node or has been destroyed, once.  `Balanced` does the same for blocks: those that are outstanding are
  the ones behind the cells, each as often as there is a cell with it.

  Teardown runs over slots that refer to nodes already gone, so its lemmas are about bare cells.  The
  pending nodes are roots of a forest of their own, chained through their links (`chain`).  A node is
  destroyed when it owns nothing, so its destructor destroys nothing (`ends_destroyLeaf`), and what
  the loop has left to do is the number of cells of the pending trees.
-/
import Pjson.Lib.Ownership
import Pjson.Memory.Heap

namespace ByteDance

open Run Ownership Owned

instance : Slotted Node Addr AllocatorId where
  slots n := n.impl.children
  tag n := n.alloc

/-- A node with what it owns. -/
abbrev NodeTree := Owned Addr Node

namespace Memory

/-! ## Bare cells -/

/-- The heap has these cells, and every address used is that of a cell or has been destroyed. -/
structure Mem (h : Heap) (L : List (Addr × Node)) : Prop where
  holds : Holds h.nodes L
  census : (L.map Prod.fst ++ h.destroyed).Perm (List.range h.next)

namespace Mem

variable {h : Heap} {L L' : List (Addr × Node)} {a : Addr} {n n' : Node}

/-- The order of the cells does not matter. -/
theorem perm (hm : Mem h L) (hp : L.Perm L') : Mem h L' :=
  ⟨hm.holds.perm hp, ((hp.map Prod.fst).symm.append_right _).trans hm.census⟩

/-- An address in use is below the next one. -/
theorem lt_next (hm : Mem h L) (ha : h.nodes a = some n) : a < h.next := by
  have hmem : a ∈ L.map Prod.fst ++ h.destroyed :=
    List.mem_append_left _ (List.mem_map.mpr ⟨_, hm.holds.iff.mp ha, rfl⟩)
  exact List.mem_range.mp (hm.census.mem_iff.mp hmem)

/-- Addresses not yet used are free. -/
theorem fresh (hm : Mem h L) {a : Nat} (ha : h.next ≤ a) : h.nodes a = none := by
  rw [Option.eq_none_iff_forall_not_mem]
  intro n hn
  exact absurd (hm.lt_next hn) (Nat.not_lt.mpr ha)

/-- There are no more cells than addresses used. -/
theorem length_le (hm : Mem h L) : L.length ≤ h.next := by
  have hlen := hm.census.length_eq
  rw [List.length_append, List.length_map, List.length_range] at hlen
  omega

/-- No node is destroyed twice, and none that is live. -/
theorem destroyed_nodup (hm : Mem h L) : h.destroyed.Nodup ∧ ∀ b ∈ h.destroyed, h.nodes b = none := by
  have hnodup := hm.census.nodup_iff.mpr List.nodup_range
  refine ⟨(List.nodup_append.mp hnodup).2.1, fun b hb => ?_⟩
  rw [hm.holds.eq_none_iff]
  intro hmem
  exact (List.nodup_append.mp hnodup).2.2 b hmem b hb rfl

/-- If no address is used and no cell appears, what has been destroyed stays so. -/
theorem destroyed_of_subset (hm : Mem h L) {h' : Heap} (hm' : Mem h' L') (hnext : h'.next = h.next)
    (hsub : ∀ b ∈ L'.map Prod.fst, b ∈ L.map Prod.fst) : ∀ b ∈ h.destroyed, b ∈ h'.destroyed := by
  intro b hb
  have hused : b ∈ L'.map Prod.fst ++ h'.destroyed := by
    rw [hm'.census.mem_iff, hnext, ← hm.census.mem_iff]
    exact List.mem_append_right _ hb
  rcases List.mem_append.mp hused with hlive | hdead
  · have hnodup := hm.census.nodup_iff.mpr List.nodup_range
    exact absurd rfl ((List.nodup_append.mp hnodup).2.2 b (hsub b hlive) b hb)
  · exact hdead

/-- An address used is that of a cell or has been destroyed. -/
theorem used (hm : Mem h L) {b : Nat} (hb : b < h.next) : b ∈ L.map Prod.fst ∨ b ∈ h.destroyed :=
  List.mem_append.mp (hm.census.mem_iff.mpr (List.mem_range.mpr hb))

/-- A cell is rewritten; its address stays in the census. -/
theorem store (hm : Mem h ((a, n) :: L)) (n' : Node) :
    Mem { h with nodes := Function.update h.nodes a (some n') } ((a, n') :: L) :=
  ⟨hm.holds.replace, hm.census⟩

/-- A cell goes from those in use to those destroyed. -/
theorem release (hm : Mem h ((a, n) :: L)) :
    Mem { h with nodes := Function.update h.nodes a none, destroyed := a :: h.destroyed } L :=
  ⟨hm.holds.erase, List.perm_middle.trans hm.census⟩

/-- A new cell takes the next address. -/
theorem construct (hm : Mem h L) (n : Node) :
    Mem { h with nodes := Function.update h.nodes h.next (some n), next := h.next + 1 }
      ((h.next, n) :: L) := by
  refine ⟨hm.holds.insert (hm.fresh (le_refl _)), ?_⟩
  show (h.next :: (L.map Prod.fst ++ h.destroyed)).Perm (List.range (h.next + 1))
  rw [List.range_succ]
  exact (hm.census.cons _).trans (List.perm_append_singleton _ _).symm

end Mem

/-! ## Blocks -/

/-- The blocks behind cells. -/
def blocks (L : List (Addr × Node)) : List Block := L.flatMap fun c => c.2.blocks

/-- The blocks of a cell are in front of those of the others. -/
theorem blocks_cons (a : Addr) (n : Node) (L : List (Addr × Node)) :
    blocks ((a, n) :: L) = n.blocks ++ blocks L := List.flatMap_cons

/-- The blocks of two lists of cells. -/
theorem blocks_append (L L' : List (Addr × Node)) : blocks (L ++ L') = blocks L ++ blocks L' :=
  List.flatMap_append

/-- The same cells have the same blocks. -/
theorem blocks_perm {L L' : List (Addr × Node)} (hp : L.Perm L') : (blocks L).Perm (blocks L') :=
  hp.flatMap_right _

/-- What is behind a node depends on its allocator and its kind. -/
theorem blocks_of_eType {n n' : Node} (halloc : n'.alloc = n.alloc)
    (hkind : n'.impl.eType = n.impl.eType) : n'.blocks = n.blocks := by
  unfold Node.blocks
  rw [halloc, hkind]

/-- A container that has been emptied is of the type it was, so its blocks are those it had. -/
theorem eType_cleared (impl : Impl) : impl.cleared.eType = impl.eType := by
  cases impl <;> rfl

/-- The blocks that are outstanding are those behind the cells. -/
def Balanced (ledger : List Block) (L : List (Addr × Node)) : Prop := ledger.Perm (blocks L)

namespace Balanced

variable {ledger : List Block} {L L' : List (Addr × Node)} {a : Addr} {n n' : Node}

/-- The order of the cells does not matter to the balance. -/
theorem perm (hb : Balanced ledger L) (hp : L.Perm L') : Balanced ledger L' := hb.trans (blocks_perm hp)

/-- The blocks behind one of the cells. -/
theorem head (hb : Balanced ledger ((a, n) :: L)) : ledger.Perm (n.blocks ++ blocks L) := by
  rwa [← blocks_cons]

/-- A node of the same type and allocator has the same blocks. -/
theorem store (hb : Balanced ledger ((a, n) :: L)) (halloc : n'.alloc = n.alloc)
    (hkind : n'.impl.eType = n.impl.eType) : Balanced ledger ((a, n') :: L) := by
  unfold Balanced
  rw [blocks_cons, blocks_of_eType halloc hkind]
  exact hb.head

/-- The blocks behind a cell are given back. -/
theorem release (hb : Balanced ledger ((a, n) :: L)) : Balanced (ledger.diff n.blocks) L := by
  have hp := hb.head
  clear hb
  revert hp
  generalize n.blocks = bs
  intro hp
  induction bs generalizing ledger with
  | nil => exact hp
  | cons b bs ih =>
    rw [List.diff_cons]
    refine ih ?_
    have herase := hp.erase b
    rwa [List.cons_append, List.erase_cons_head] at herase

end Balanced

variable {h : Heap} {L : List (Addr × Node)} {a : Addr} {n : Node} {α β : Type}
  {Q : α → Heap → Prop} {R : HeapExit → Heap → Prop}

/-- A node that is there is loaded. -/
theorem ends_load {Q : Node → Heap → Prop} (ha : h.nodes a = some n) :
    Ends (load a) h Q R ↔ Q n h := by
  unfold load
  rw [ends_bind, ends_get, ha]
  exact Iff.rfl

/-- And rewritten. -/
theorem ends_store {Q : Unit → Heap → Prop} (ha : h.nodes a = some n) (impl : Impl) :
    Ends (store a impl) h Q R ↔ Q ()
      { h with nodes := Function.update h.nodes a (some { n with impl := impl }) } := by
  unfold store
  rw [ends_bind, ends_load ha]
  exact Iff.rfl

/-- And given back. -/
theorem ends_release {Q : Unit → Heap → Prop} (ha : h.nodes a = some n) :
    Ends (release a) h Q R ↔ Q ()
      { h with nodes := Function.update h.nodes a none, destroyed := a :: h.destroyed } := by
  unfold release
  rw [ends_bind, ends_load ha]
  exact Iff.rfl

/-- The link of a node that is there is read. -/
theorem ends_getLink {Q : Option Addr → Heap → Prop} (ha : h.nodes a = some n) :
    Ends (getLink a) h Q R ↔ Q (h.links a) h := by
  unfold getLink
  rw [ends_bind, ends_load ha]
  exact Iff.rfl

/-- A link can be written where the node is no null. -/
theorem ends_setLink {Q : Unit → Heap → Prop} (ha : h.nodes a = some n) (hn : n.impl ≠ .jsonNull)
    (next : Option Addr) : Ends (setLink a next) h Q R ↔ Q ()
      { h with links := Function.update h.links a next } := by
  unfold setLink
  rw [ends_bind, ends_load ha]
  revert hn
  cases n.impl with
  | jsonNull => exact fun hn => absurd rfl hn
  | _ => exact fun _ => Iff.rfl

/-- Two nodes exchange what they hold and keep their allocators. -/
theorem ends_swapStorage {Q : Unit → Heap → Prop} {b : Addr} {m : Node} (ha : h.nodes a = some n)
    (hb : h.nodes b = some m) (hne : b ≠ a) : Ends (swapStorage a b) h Q R ↔ Q ()
      { h with nodes := Function.update (Function.update h.nodes a (some { n with impl := m.impl })) b
                 (some { m with impl := n.impl }) } := by
  unfold swapStorage
  have hb' : (Function.update h.nodes a (some { n with impl := m.impl })) b = some m := by
    rwa [Function.update_of_ne hne]
  rw [ends_bind, ends_load ha, ends_bind, ends_load hb, ends_bind, ends_store ha, ends_store hb']

/-- A block that is outstanding is given back. -/
theorem ends_deallocate {Q : Unit → Heap → Prop} {alloc : AllocatorId} {kind : AllocationKind}
    (hmem : (alloc, kind) ∈ h.ledger) : Ends (deallocate alloc kind) h Q R ↔ Q ()
      { h with ledger := h.ledger.erase (alloc, kind) } := by
  unfold deallocate
  rw [ends_bind, ends_get, if_pos hmem]
  exact Iff.rfl

/-- The end of `reset` gives back the blocks behind the node, which it may have cleared before. -/
theorem ends_dropStorage {Q : Unit → Heap → Prop} {impl : Impl} {X : List Block}
    (hn : n.impl.eType ≠ .jsonNull) (ha : h.nodes a = some { n with impl := impl })
    (hledger : h.ledger.Perm (n.blocks ++ X)) : Ends (dropStorage a n) h Q R ↔ Q ()
      { h with nodes := Function.update h.nodes a (some { n with impl := .jsonNull })
               ledger := h.ledger.diff n.blocks } := by
  unfold Node.blocks at hledger ⊢
  rw [if_neg hn] at hledger ⊢
  unfold dropStorage destroyWrapper
  cases hw : n.impl.eType.wrapper with
  | none =>
    rw [hw] at hledger
    have hmem : (n.alloc, AllocationKind.ImplementationAllocation) ∈ h.ledger :=
      hledger.mem_iff.mpr (by simp)
    rw [ends_bind, ends_pure, ends_bind, ends_store ha, Option.toList_none, List.map_nil, List.nil_append,
      List.diff_cons, List.diff_nil]
    refine ends_deallocate ?_
    exact hmem
  | some kind =>
    rw [hw] at hledger
    have hwrapper : (n.alloc, kind) ∈ h.ledger := hledger.mem_iff.mpr (by simp)
    have hmem : (n.alloc, AllocationKind.ImplementationAllocation) ∈ h.ledger.erase (n.alloc, kind) := by
      refine (hledger.erase (n.alloc, kind)).mem_iff.mpr ?_
      rw [Option.toList_some, List.map_singleton, List.singleton_append, List.cons_append,
        List.erase_cons_head]
      simp
    rw [ends_bind, ends_deallocate hwrapper, ends_bind, Option.toList_some, List.map_singleton,
      List.singleton_append, List.diff_cons, List.diff_cons, List.diff_nil]
    refine (ends_store (n := { n with impl := impl }) ?_ _).trans (ends_deallocate ?_)
    · exact ha
    · exact hmem

/-! ## Teardown -/

/-- The links of the pending list. -/
def chain : List Addr → Addr → Option Addr
  | [] => fun _ => none
  | a :: as => Function.update (chain as) a as.head?

/-- What is not in the list has no link. -/
theorem chain_of_not_mem {as : List Addr} (ha : a ∉ as) : chain as a = none := by
  induction as with
  | nil => rfl
  | cons b bs ih =>
    rw [List.mem_cons, not_or] at ha
    rw [chain, Function.update_of_ne ha.1, ih ha.2]

/-- The first of the list is taken off by cutting its link. -/
theorem chain_pop {as : List Addr} (ha : a ∉ as) :
    Function.update (chain (a :: as)) a none = chain as := by
  rw [chain, Function.update_idem]
  exact Function.update_eq_self_iff.mpr (chain_of_not_mem ha).symm

/-- A container that has been emptied has no children. -/
theorem children_cleared (impl : Impl) : impl.cleared.children = [] := by
  cases impl <;> rfl

/-- The heap without a leaf, and without the blocks behind it. -/
def without (h : Heap) (a : Addr) (n : Node) : Heap :=
  { h with nodes := Function.update h.nodes a none
           destroyed := a :: h.destroyed
           ledger := h.ledger.diff n.blocks }

/-- The destructor of a node that owns nothing destroys nothing, and gives back what is behind it. -/
theorem ends_destroyLeaf {Q : Unit → Heap → Prop} {depth : Nat} (ha : h.nodes a = some n)
    (hn : n.impl.children = []) (hb : Balanced h.ledger ((a, n) :: L)) :
    Ends (destroyNodeAt (depth + 1) a) h Q R ↔ Q () (without h a n) := by
  -- a container has been cleared
  have hdrop : ∀ impl, n.impl.eType ≠ .jsonNull → (Ends (do
      dropStorage a n
      release a) { h with nodes := Function.update h.nodes a (some { n with impl := impl }) } Q R ↔
        Q () (without h a n)) := fun impl hkind => by
    rw [ends_bind]
    refine (ends_dropStorage (X := blocks L) hkind (Function.update_self ..) ?_).trans ?_
    · exact hb.head
    · rw [Function.update_idem]
      refine (ends_release (Function.update_self ..)).trans ?_
      unfold without
      rw [Function.update_idem]
  have hself : ({ h with nodes := Function.update h.nodes a (some { n with impl := n.impl }) } : Heap) = h := by
    rw [Function.update_eq_self_iff.mpr ha.symm]
  have hplain : n.impl.eType ≠ .jsonNull → (Ends (do
      dropStorage a n
      release a) h Q R ↔ Q () (without h a n)) := fun hkind => by
    have hrun := hdrop n.impl hkind
    rwa [hself] at hrun
  have hcontainer : n.impl.isContainer = true → n.impl.eType ≠ .jsonNull →
      (Ends (disposeChildrenWith (destroyNodeAt depth) a >>= fun _ => do
        dropStorage a n
        release a) h Q R ↔ Q () (without h a n)) := by
    intro hc hkind
    unfold disposeChildrenWith detach
    rw [ends_bind, ends_bind, ends_load ha, hc, if_pos rfl, ends_bind, ends_bind, ends_load ha, hc,
      if_pos rfl, hn]
    unfold enqueue
    rw [ends_bind, ends_pure, ends_bind, ends_store ha, ends_pure, ends_bind, ends_get]
    unfold disposeLoop
    exact hdrop n.impl.cleared hkind
  unfold destroyNodeAt resetWith
  rw [ends_bind, ends_bind, ends_load ha]
  cases hi : n.impl with
  | jsonNull =>
    rw [ends_pure, ends_release ha]
    unfold without Node.blocks
    rw [hi]
    exact Iff.rfl
  | jsonArray es =>
    have hrun := hcontainer (by rw [hi]; rfl) (by rw [hi]; exact fun hn => by cases hn)
    rw [ends_bind] at hrun
    rw [ends_bind]
    simpa only [ends_bind] using hrun
  | jsonObject ms =>
    have hrun := hcontainer (by rw [hi]; rfl) (by rw [hi]; exact fun hn => by cases hn)
    rw [ends_bind] at hrun
    rw [ends_bind]
    simpa only [ends_bind] using hrun
  | _ =>
    have hrun := hplain (by rw [hi]; exact fun hn => by cases hn)
    rw [ends_bind] at hrun
    exact hrun

/-- A cell less, when its node has been destroyed. -/
theorem Mem.without (hm : Mem h ((a, n) :: L)) : Mem (without h a n) L :=
  ⟨hm.holds.erase, List.perm_middle.trans hm.census⟩

/-- A null node, and any other leaf, owns nothing. -/
theorem eq_nil_of_children {cs : List NodeTree} (hok : (node a n cs).Ok) (hn : n.impl.children = []) :
    cs = [] := by
  have hslots : n.impl.children = cs.map addr := (ok_node.mp hok).1
  rw [hn] at hslots
  exact List.map_eq_nil_iff.mp hslots.symm

/-- What teardown keeps of the heap beside its cells and links. -/
structure SameUse (h h' : Heap) : Prop where
  next : h'.next = h.next
  allocations : h'.allocations = h.allocations

/-- The state of teardown: the pending trees are roots of their own, none of them null, chained through
    their links, and no other node has a link. -/
structure Pending (h : Heap) (p : Option Addr) (qs : List NodeTree) (L : List (Addr × Node)) : Prop where
  mem : Mem h (cellsAll qs ++ L)
  balance : Balanced h.ledger (cellsAll qs ++ L)
  ok : OkAll qs
  notNull : ∀ q ∈ qs, q.data.impl ≠ .jsonNull
  head : p = (qs.map addr).head?
  links : h.links = chain (qs.map addr)

/-- The roots of a forest have addresses of their own. -/
theorem nodup_addrs {ts : List NodeTree} (hm : Mem h (cellsAll ts ++ L)) : (ts.map addr).Nodup := by
  have hnodup := hm.holds.nodup
  rw [List.map_append] at hnodup
  have hts := (List.nodup_append.mp hnodup).1
  clear hm hnodup
  induction ts with
  | nil => exact List.nodup_nil
  | cons t ts ih =>
    rw [cellsAll_cons, List.map_append] at hts
    obtain ⟨-, hrest, hdisj⟩ := List.nodup_append.mp hts
    refine List.nodup_cons.mpr ⟨fun hmem => ?_, ih hrest⟩
    obtain ⟨u, hu, haddr⟩ := List.mem_map.mp hmem
    have hin : u.addr ∈ (cellsAll ts).map Prod.fst :=
      List.mem_map.mpr ⟨_, mem_cellsAll.mpr ⟨u, hu, u.root_mem_cells⟩, rfl⟩
    exact hdisj t.addr t.addr_mem_addrs u.addr hin haddr.symm

/-- The loop over the children leaves pending what is not null. -/
theorem enqueue_ends {depth : Nat} (ts qs : List NodeTree) {h : Heap} {p : Option Addr}
    (hp : Pending h p qs (cellsAll ts ++ L)) (hts : OkAll ts) :
    Ends (enqueue (destroyNodeAt (depth + 1)) (ts.map addr) p) h
      (fun p' h' => SameUse h h' ∧ ∃ qs', Pending h' p' qs' L ∧
        (cellsAll qs').length ≤ (cellsAll ts).length + (cellsAll qs).length)
      fun _ _ => False := by
  induction ts generalizing qs h p with
  | nil => exact ⟨⟨rfl, rfl⟩, qs, by simpa using hp, by simp⟩
  | cons t ts ih =>
    obtain ⟨a, n, cs⟩ := t
    rw [okAll_iff, List.forall_mem_cons, ← okAll_iff] at hts
    obtain ⟨ht, hts⟩ := hts
    have hm := hp.mem
    have hb := hp.balance
    rw [cellsAll_cons, cells_node, List.cons_append, List.cons_append] at hm hb
    have ha : h.nodes a = some n := hm.holds.iff.mpr (by simp)
    rw [List.map_cons, addr_node, enqueue, ends_bind, ends_load ha]
    by_cases hnull : n.impl = .jsonNull
    · -- a null child owns nothing
      have hnone : n.impl.children = [] := by rw [hnull]; rfl
      have hnil := eq_nil_of_children ht hnone
      subst hnil
      have hb' := hb.perm List.perm_middle
      rw [hnull, ends_bind, ends_destroyLeaf ha hnone hb']
      have hm' := (hm.perm List.perm_middle).without
      have hgiven := hb'.release
      rw [cellsAll_nil, List.nil_append] at hm' hgiven
      refine (ih qs ⟨hm', hgiven, hp.ok, hp.notNull, hp.head, hp.links⟩ hts).mono (fun p' h' hq => ?_)
        fun _ _ hf => hf
      obtain ⟨huse, qs', hp', hlen⟩ := hq
      refine ⟨⟨huse.next, huse.allocations⟩, qs', hp', ?_⟩
      rw [cellsAll_cons, cells_node, cellsAll_nil, List.length_append, List.length_singleton]
      omega
    · have hperm : (cellsAll qs ++ ((a, n) :: (cellsAll cs ++ cellsAll ts ++ L))).Perm
          (cellsAll (node a n cs :: qs) ++ (cellsAll ts ++ L)) := by
        rw [cellsAll_cons, cells_node, List.cons_append, List.cons_append]
        refine List.perm_middle.trans (List.Perm.cons _ ?_)
        rw [List.append_assoc, ← List.append_assoc]
        exact List.perm_append_comm.append_right _
      have hpushed : Pending { h with links := Function.update h.links a p } (some a)
          (node a n cs :: qs) (cellsAll ts ++ L) := by
        have hmem := hm.perm hperm
        refine ⟨⟨hmem.holds, hmem.census⟩, hb.perm hperm, ?_, ?_, rfl, ?_⟩
        · rw [okAll_iff, List.forall_mem_cons]
          exact ⟨ht, okAll_iff.mp hp.ok⟩
        · rw [List.forall_mem_cons]
          exact ⟨hnull, hp.notNull⟩
        · rw [List.map_cons, addr_node, chain, hp.links, hp.head]
      have hnext := ih (node a n cs :: qs) hpushed hts
      have hlen : (cellsAll (node a n cs :: ts)).length + (cellsAll qs).length =
          (cellsAll ts).length + (cellsAll (node a n cs :: qs)).length := by
        rw [cellsAll_cons, cellsAll_cons, List.length_append, List.length_append]
        omega
      have hstep : Ends (do
          setLink a p
          enqueue (destroyNodeAt (depth + 1)) (ts.map addr) (some a)) h
          (fun p' h' => SameUse h h' ∧ ∃ qs', Pending h' p' qs' L ∧
            (cellsAll qs').length ≤ (cellsAll (node a n cs :: ts)).length + (cellsAll qs).length)
          fun _ _ => False := by
        rw [ends_bind, ends_setLink ha hnull, hlen]
        exact hnext.mono (fun p' h' hq => ⟨⟨hq.1.next, hq.1.allocations⟩, hq.2⟩) fun _ _ hf => hf
      revert hnull hstep
      cases n.impl with
      | jsonNull => exact fun hnull => absurd rfl hnull
      | _ => exact fun _ hstep => hstep

/-- A container gives its children up and is left empty. -/
theorem detach_ends {depth : Nat} {cs qs : List NodeTree} {p : Option Addr}
    (hp : Pending h p qs ((a, n) :: cellsAll cs ++ L)) (hok : (node a n cs).Ok) :
    Ends (detach (destroyNodeAt (depth + 1)) a p) h
      (fun p' h' => SameUse h h' ∧ ∃ qs', Pending h' p' qs' ((a, { n with impl := n.impl.cleared }) :: L) ∧
        (cellsAll qs').length ≤ (cellsAll cs).length + (cellsAll qs).length)
      fun _ _ => False := by
  have ha : h.nodes a = some n := hp.mem.holds.iff.mpr (by simp)
  have hslots : n.impl.children = cs.map addr := (ok_node.mp hok).1
  unfold detach
  rw [ends_bind, ends_load ha, ends_ite]
  refine ⟨fun _ => ?_, fun hc => ?_⟩
  · -- the node stands open: its children are taken from its slots one by one
    have hopen : (cellsAll qs ++ ((a, n) :: cellsAll cs ++ L)).Perm
        (cellsAll qs ++ (cellsAll cs ++ ((a, n) :: L))) :=
      List.Perm.append_left _ List.perm_middle.symm
    have hp' : Pending h p qs (cellsAll cs ++ ((a, n) :: L)) :=
      ⟨hp.mem.perm hopen, hp.balance.perm hopen, hp.ok, hp.notNull, hp.head, hp.links⟩
    rw [ends_bind, hslots]
    refine (enqueue_ends cs qs hp' (okAll_iff.mpr (ok_node.mp hok).2.2)).mono (fun p' h' hq => ?_)
      fun _ _ hf => hf
    obtain ⟨huse, qs', hq', hlen⟩ := hq
    have hm' := hq'.mem.perm List.perm_middle
    rw [ends_bind, ends_store (hm'.holds.iff.mpr (List.mem_cons_self ..)), ends_pure]
    have hstored := (hm'.store { n with impl := n.impl.cleared }).perm List.perm_middle.symm
    have hsame : Balanced h'.ledger ((a, { n with impl := n.impl.cleared }) :: (cellsAll qs' ++ L)) :=
      (hq'.balance.perm List.perm_middle).store rfl (eType_cleared _)
    exact ⟨⟨huse.next, huse.allocations⟩, qs',
      ⟨hstored, hsame.perm List.perm_middle.symm, hq'.ok, hq'.notNull, hq'.head, hq'.links⟩, hlen⟩
  · -- a scalar has no children
    have hsame : n.impl.cleared = n.impl ∧ n.impl.children = [] := by
      revert hc
      cases n.impl <;> simp [Impl.isContainer, Impl.cleared, Impl.children]
    have hnil := eq_nil_of_children hok hsame.2
    subst hnil
    rw [ends_pure, hsame.1]
    exact ⟨⟨rfl, rfl⟩, qs, by simpa using hp, by simp⟩

/-- The loop destroys what is pending, and all that it owns. -/
theorem disposeLoop_ends {depth : Nat} (fuel : Nat) (qs : List NodeTree) {h : Heap} {p : Option Addr}
    (hp : Pending h p qs L) (hfuel : (cellsAll qs).length ≤ fuel) :
    Ends (disposeLoop (destroyNodeAt (depth + 1)) fuel p) h
      (fun _ h' => SameUse h h' ∧ Pending h' none [] L) fun _ _ => False := by
  induction fuel generalizing qs h p with
  | zero =>
    cases qs with
    | nil =>
      rw [hp.head]
      exact ⟨⟨rfl, rfl⟩, ⟨hp.mem, hp.balance, hp.ok, hp.notNull, rfl, hp.links⟩⟩
    | cons q qs =>
      obtain ⟨a, n, cs⟩ := q
      rw [cellsAll_cons, cells_node, List.cons_append, List.length_cons] at hfuel
      omega
  | succ fuel ih =>
    cases qs with
    | nil =>
      rw [hp.head]
      exact ⟨⟨rfl, rfl⟩, ⟨hp.mem, hp.balance, hp.ok, hp.notNull, rfl, hp.links⟩⟩
    | cons q qs =>
      obtain ⟨a, n, cs⟩ := q
      have hok := okAll_iff.mp hp.ok
      rw [List.forall_mem_cons] at hok
      -- Pop the head: its link is read and cleared before its children are pushed.
      have hnull := hp.notNull _ (List.mem_cons_self ..)
      have hnodup := nodup_addrs hp.mem
      rw [List.map_cons, addr_node, List.nodup_cons] at hnodup
      rw [cellsAll_cons, cells_node, List.cons_append, List.length_cons, List.length_append] at hfuel
      have ha : h.nodes a = some n := hp.mem.holds.iff.mpr (by simp)
      have hhead : p = some a := hp.head
      have hlink : h.links a = (qs.map addr).head? := by
        rw [hp.links, List.map_cons, addr_node, chain, Function.update_self]
      have hpop : Function.update h.links a none = chain (qs.map addr) := by
        rw [hp.links, List.map_cons, addr_node, chain_pop hnodup.1]
      rw [hhead, disposeLoop, ends_bind, ends_getLink ha, ends_bind, ends_setLink ha hnull, hlink]
      have hperm : (cellsAll (node a n cs :: qs) ++ L).Perm
          (cellsAll qs ++ ((a, n) :: cellsAll cs ++ L)) := by
        rw [cellsAll_cons, cells_node, ← List.append_assoc]
        exact List.perm_append_comm.append_right _
      have hmem := hp.mem.perm hperm
      have hopen : Pending { h with links := Function.update h.links a none } ((qs.map addr).head?) qs
          ((a, n) :: cellsAll cs ++ L) :=
        ⟨⟨hmem.holds, hmem.census⟩, hp.balance.perm hperm, okAll_iff.mpr hok.2,
          fun q hq => hp.notNull q (List.mem_cons_of_mem _ hq), rfl, hpop⟩
      rw [ends_bind]
      -- The children join the chain, so the head is a leaf when it is destroyed.
      refine (detach_ends hopen hok.1).mono (fun p' h' hq => ?_) fun _ _ hf => hf
      obtain ⟨huse, qs', hq', hlen⟩ := hq
      have hnode := hq'.mem.perm List.perm_middle
      have hblocks := hq'.balance.perm List.perm_middle
      rw [ends_bind, ends_destroyLeaf (hnode.holds.iff.mpr (List.mem_cons_self ..))
        (children_cleared n.impl) hblocks]
      refine (ih qs' ⟨hnode.without, hblocks.release, hq'.ok, hq'.notNull, hq'.head, hq'.links⟩
        (by omega)).mono (fun _ h'' hq => ?_) fun _ _ hf => hf
      exact ⟨⟨hq.1.next.trans huse.next, hq.1.allocations.trans huse.allocations⟩, hq.2⟩

/-- The cells of a heap in which nothing is pending, and the blocks behind them. -/
structure Still (h : Heap) (L : List (Addr × Node)) : Prop where
  mem : Mem h L
  balance : Balanced h.ledger L
  links : ∀ b, h.links b = none

/-- The order of the cells does not matter. -/
theorem Still.perm {L' : List (Addr × Node)} (hs : Still h L) (hp : L.Perm L') : Still h L' :=
  ⟨hs.mem.perm hp, hs.balance.perm hp, hs.links⟩

/-- **`_disposeChildren`** leaves the node with an empty container, and of the nodes below it none,
    with no more than one destructor running at a time. -/
theorem disposeChildren_ends {depth : Nat} {cs : List NodeTree} (hok : (node a n cs).Ok)
    (hs : Still h ((node a n cs).cells ++ L)) :
    Ends (disposeChildrenWith (destroyNodeAt (depth + 1)) a) h
      (fun _ h' => SameUse h h' ∧ Still h' ((a, { n with impl := n.impl.cleared }) :: L))
      fun _ _ => False := by
  rw [cells_node, List.cons_append] at hs
  have ha : h.nodes a = some n := hs.mem.holds.iff.mpr (List.mem_cons_self ..)
  have hstart : Pending h none [] ((a, n) :: cellsAll cs ++ L) :=
    ⟨hs.mem, hs.balance, okAll_iff.mpr (by simp), by simp, rfl, funext hs.links⟩
  unfold disposeChildrenWith
  rw [ends_bind, ends_load ha, ends_ite]
  refine ⟨fun _ => ?_, fun hc => ?_⟩
  · rw [ends_bind]
    refine (detach_ends hstart hok).mono (fun p h' hq => ?_) fun _ _ hf => hf
    obtain ⟨huse, qs, hq, -⟩ := hq
    have hlen := hq.mem.length_le
    rw [List.length_append] at hlen
    rw [ends_bind, ends_get]
    refine (disposeLoop_ends _ qs hq (by omega)).mono (fun _ h'' hq => ?_) fun _ _ hf => hf
    refine ⟨⟨hq.1.next.trans huse.next, hq.1.allocations.trans huse.allocations⟩, hq.2.mem,
      hq.2.balance, fun b => ?_⟩
    rw [hq.2.links]
    rfl
  · have hsame : n.impl.cleared = n.impl ∧ n.impl.children = [] := by
      revert hc
      cases n.impl <;> simp [Impl.isContainer, Impl.cleared, Impl.children]
    have hnil := eq_nil_of_children hok hsame.2
    subst hnil
    rw [ends_pure, hsame.1]
    exact ⟨⟨rfl, rfl⟩, by simpa using hs⟩

/-- The end of `reset` after the children are gone: the node is null, with nothing behind it. -/
theorem dropStorage_ends {impl : Impl} (hn : n.impl.eType ≠ .jsonNull)
    (hkind : impl.eType = n.impl.eType) (hs : Still h ((a, { n with impl := impl }) :: L)) :
    Ends (dropStorage a n) h
      (fun _ h' => SameUse h h' ∧ Still h' ((a, { n with impl := .jsonNull }) :: L))
      fun _ _ => False := by
  have hbalance : Balanced h.ledger ((a, n) :: L) := hs.balance.store rfl hkind.symm
  rw [ends_dropStorage hn (hs.mem.holds.iff.mpr (List.mem_cons_self ..)) hbalance.head]
  have hmem := hs.mem.store { n with impl := .jsonNull }
  refine ⟨⟨rfl, rfl⟩, ⟨hmem.holds, hmem.census⟩, ?_, hs.links⟩
  unfold Balanced
  rw [blocks_cons]
  exact hbalance.release

/-- `reset` leaves a null node. -/
theorem reset_ends {cs : List NodeTree} (hok : (node a n cs).Ok)
    (hs : Still h ((node a n cs).cells ++ L)) :
    Ends (reset a) h
      (fun _ h' => SameUse h h' ∧ Still h' ((a, { n with impl := .jsonNull }) :: L))
      fun _ _ => False := by
  have ha : h.nodes a = some n := hs.mem.holds.iff.mpr (by simp)
  have hlt := hs.mem.lt_next ha
  obtain ⟨depth, hdepth⟩ : ∃ depth, h.next = depth + 1 := Nat.exists_eq_succ_of_ne_zero (by
    intro h0
    rw [h0] at hlt
    exact absurd hlt (Nat.not_lt_zero _))
  have hrest : n.impl.eType ≠ .jsonNull → Ends (do
      disposeChildrenWith (destroyNodeAt (depth + 1)) a
      dropStorage a n) h
      (fun _ h' => SameUse h h' ∧ Still h' ((a, { n with impl := .jsonNull }) :: L))
      fun _ _ => False := by
    intro hkind
    rw [ends_bind]
    refine (disposeChildren_ends hok hs).mono (fun _ h' hq => ?_) fun _ _ hf => hf
    refine (dropStorage_ends hkind (eType_cleared _) hq.2).mono (fun _ h'' hq' => ?_) fun _ _ hf => hf
    exact ⟨⟨hq'.1.next.trans hq.1.next, hq'.1.allocations.trans hq.1.allocations⟩, hq'.2⟩
  -- a scalar owns nothing
  have hplain : n.impl.children = [] → Still h ((a, n) :: L) := by
    intro hc
    have hnil := eq_nil_of_children hok hc
    subst hnil
    simpa using hs
  unfold reset resetWith
  rw [ends_bind, ends_get, hdepth, ends_bind, ends_load ha]
  cases hi : n.impl with
  | jsonNull =>
    have hself := hplain (by rw [hi]; rfl)
    rw [show ({ n with impl := Impl.jsonNull } : Node) = n by rw [← hi]]
    exact ⟨⟨rfl, rfl⟩, hself⟩
  | jsonArray es => exact hrest (by rw [hi]; exact fun hn => by cases hn)
  | jsonObject ms => exact hrest (by rw [hi]; exact fun hn => by cases hn)
  | _ => exact dropStorage_ends (by rw [hi]; exact fun hn => by cases hn) rfl (hplain (by rw [hi]; rfl))

/-- A node is destroyed with all that it owns. -/
theorem destroyNode_ends {cs : List NodeTree} (hok : (node a n cs).Ok)
    (hs : Still h ((node a n cs).cells ++ L)) :
    Ends (destroyNode a) h (fun _ h' => SameUse h h' ∧ Still h' L) fun _ _ => False := by
  unfold destroyNode
  rw [ends_bind]
  refine (reset_ends hok hs).mono (fun _ h' hq => ?_) fun _ _ hf => hf
  rw [ends_release (hq.2.mem.holds.iff.mpr (List.mem_cons_self ..))]
  exact ⟨⟨hq.1.next, hq.1.allocations⟩, hq.2.mem.release, hq.2.balance, hq.2.links⟩

/-! ## Forests -/

section

variable {m : Addr → Option Node} {L' : List (Addr × Node)} {k : Node} {b : Addr}

/-- What tells the cells before from those after a node has been written. -/
theorem cells_update (hm : Holds m L) (ha : m a = some n)
    (hm' : Holds (Function.update m a (some k)) L') :
    (L'.map Prod.fst).Perm (L.map Prod.fst) ∧ (n.blocks ++ blocks L').Perm (k.blocks ++ blocks L) := by
  obtain ⟨L₁, L₂, rfl⟩ := List.append_of_mem (hm.iff.mp ha)
  have hold : (L₁ ++ (a, n) :: L₂).Perm ((a, n) :: (L₁ ++ L₂)) := List.perm_middle
  have hnew : L'.Perm ((a, k) :: (L₁ ++ L₂)) := hm'.perm_of (hm.perm hold).replace
  refine ⟨(hnew.map Prod.fst).trans (hold.map Prod.fst).symm, ?_⟩
  calc List.Perm (n.blocks ++ blocks L') (n.blocks ++ (k.blocks ++ blocks (L₁ ++ L₂))) := by
        rw [← blocks_cons a k]
        exact (blocks_perm hnew).append_left _
    List.Perm _ (k.blocks ++ (n.blocks ++ blocks (L₁ ++ L₂))) := List.perm_append_comm_assoc _ _ _
    List.Perm _ (k.blocks ++ blocks (L₁ ++ (a, n) :: L₂)) := by
        rw [← blocks_cons a n]
        exact (blocks_perm hold.symm).append_left _

/-- An exchange of values within one allocator moves no block. -/
theorem cells_swap (hm : Holds m L) (ha : m a = some n) (hb : m b = some k) (hne : b ≠ a)
    (halloc : n.alloc = k.alloc)
    (hm' : Holds (Function.update (Function.update m a (some { n with impl := k.impl })) b
      (some { k with impl := n.impl })) L') :
    (L'.map Prod.fst).Perm (L.map Prod.fst) ∧ (blocks L').Perm (blocks L) := by
  obtain ⟨L₁, L₂, rfl⟩ := List.append_of_mem (hm.iff.mp ha)
  have hmid : Holds (Function.update m a (some { n with impl := k.impl }))
      ((a, { n with impl := k.impl }) :: (L₁ ++ L₂)) := (hm.perm List.perm_middle).replace
  have hbmid : Function.update m a (some { n with impl := k.impl }) b = some k := by
    rwa [Function.update_of_ne hne]
  obtain ⟨haddrs, hblocks⟩ := cells_update hm ha hmid
  obtain ⟨haddrs', hblocks'⟩ := cells_update hmid hbmid hm'
  refine ⟨haddrs'.trans haddrs, ?_⟩
  rw [show ({ n with impl := k.impl } : Node).blocks = k.blocks from blocks_of_eType halloc rfl] at hblocks
  rw [show ({ k with impl := n.impl } : Node).blocks = n.blocks from
    blocks_of_eType halloc.symm rfl] at hblocks'
  exact (List.perm_append_left_iff _).mp (hblocks'.trans hblocks)

/-- Nodes have been written, with the same blocks behind them as before. -/
theorem Still.rewrite (hs : Still h L) (hm : Holds m L') (haddrs : (L'.map Prod.fst).Perm (L.map Prod.fst))
    (hblocks : (blocks L').Perm (blocks L)) : Still { h with nodes := m } L' :=
  ⟨⟨hm, (haddrs.append_right _).trans hs.mem.census⟩, hs.balance.trans hblocks.symm, hs.links⟩

end

/-- A root exchanges its value with another node of its allocator. -/
theorem swapRoot {m : Addr → Option Node} {F : List NodeTree} {l a : Addr} {nl n : Node}
    {ls cs : List NodeTree} {fill : NodeTree → List NodeTree} {rest : List (Addr × Node)}
    (ho : Owns m (node l nl ls :: F)) (hp : IsPlace F (node a n cs) fill rest)
    (halloc : nl.alloc = n.alloc) : a ≠ l ∧
    Owns (Function.update (Function.update m a (some { n with impl := nl.impl })) l
        (some { nl with impl := n.impl }))
      (node l { nl with impl := n.impl } cs :: fill (node a { n with impl := nl.impl } ls)) :=
  ho.exchangeRoot hp rfl rfl halloc rfl rfl
    (show Slotted.slots ({ nl with impl := .jsonNull } : Node) = [] from rfl) rfl

/-- The heap is the forest, and nothing is pending. -/
structure Intact (h : Heap) (F : List NodeTree) : Prop extends Still h (cellsAll F) where
  ok : OkAll F

namespace Intact

variable {F F' : List NodeTree} {h' : Heap} {t : NodeTree} {fill : NodeTree → List NodeTree}
  {rest : List (Addr × Node)}

/-- Of the heap only the nodes make up the forest. -/
theorem owns (hi : Intact h F) : Owns h.nodes F := ⟨hi.ok, hi.mem.holds⟩

/-- Nor does the order of the trees. -/
theorem perm {G : List NodeTree} (hi : Intact h F) (hp : F.Perm G) : Intact h G :=
  ⟨hi.toStill.perm (cellsAll_perm hp), (hi.owns.perm hp).ok⟩

/-- The forest determines the nodes. -/
theorem nodes_eq (hi : Intact h F) (hi' : Intact h' F) : h'.nodes = h.nodes :=
  hi'.mem.holds.unique hi.mem.holds

/-- A tree of the heap is a tree in a context. -/
theorem place (hi : Intact h F) (ht : Stands h.nodes t) : ∃ fill rest, IsPlace F t fill rest := by
  obtain ⟨a, n, cs⟩ := t
  have ha : h.nodes a = some n := (Stands.node_iff.mp ht).1
  obtain ⟨cs', fill, rest, hp⟩ := hi.owns.place ha
  have heq := (hi.owns.stands hp).unique ht rfl
  exact ⟨fill, rest, heq ▸ hp⟩

/-- A node is written with a value of its kind: it may give up children and take roots. -/
theorem write {G H : List NodeTree} {a : Addr} {n : Node} {cs D : List NodeTree} {v : Impl}
    (hi : Intact h (F ++ G)) (hp : IsPlace F (node a n cs) fill rest)
    (hperm : (D ++ H).Perm (cs ++ G)) (hslots : v.children = D.map addr)
    (halloc : ∀ c ∈ D, c.data.alloc = n.alloc) (hkind : v.eType = n.impl.eType) :
    Intact { h with nodes := Function.update h.nodes a (some { n with impl := v }) }
      (fill (node a { n with impl := v } D) ++ H) := by
  have hpl := hp.around [] G
  rw [List.nil_append] at hpl
  have hw := hi.owns.write hp (k := { n with impl := v }) hperm hslots rfl halloc
  obtain ⟨haddrs, hblocks⟩ := cells_update hi.mem.holds (hi.owns.place_data hpl) hw.holds
  rw [show ({ n with impl := v } : Node).blocks = n.blocks from blocks_of_eType rfl hkind] at hblocks
  exact ⟨hi.rewrite hw.holds haddrs ((List.perm_append_left_iff _).mp hblocks), hw.ok⟩

/-- Two nodes of one allocator have exchanged their values. -/
theorem swapped {a b : Addr} {n k : Node} (hi : Intact h F) (ha : h.nodes a = some n)
    (hb : h.nodes b = some k) (hne : b ≠ a) (halloc : n.alloc = k.alloc)
    (hw : Owns (Function.update (Function.update h.nodes a (some { n with impl := k.impl })) b
      (some { k with impl := n.impl })) F') :
    Intact { h with nodes := Function.update (Function.update h.nodes a
      (some { n with impl := k.impl })) b (some { k with impl := n.impl }) } F' := by
  obtain ⟨haddrs, hblocks⟩ := cells_swap hi.mem.holds ha hb hne halloc hw.holds
  exact ⟨hi.rewrite hw.holds haddrs hblocks, hw.ok⟩

end Intact

/-- The heap of a forest whose addresses are those in use. -/
def ofForest (F : List NodeTree) : Heap where
  nodes a := Assoc.find a (cellsAll F)
  links _ := none
  next := (cellsAll F).length
  allocations := 0
  destroyed := []
  ledger := blocks (cellsAll F)

/-- A heap that is laid out from a forest holds it. -/
theorem intact_ofForest {F : List NodeTree} (hok : OkAll F)
    (haddrs : ((cellsAll F).map Prod.fst).Perm (List.range (cellsAll F).length)) :
    Intact (ofForest F) F := by
  have hnodup : Assoc.UniqueKeys (cellsAll F) := haddrs.nodup_iff.mpr List.nodup_range
  refine ⟨⟨⟨⟨hnodup, fun {a n} => ?_⟩, ?_⟩, List.Perm.refl _, fun _ => rfl⟩, hok⟩
  · exact ⟨Assoc.mem_of_find, Assoc.find_of_mem hnodup⟩
  · rw [ofForest, List.append_nil]
    exact haddrs

/-- **Teardown is exact**: for every node of every intact heap, and with destructors that may not run
    inside each other, `_disposeChildren` returns; every node below has been destroyed once and nothing
    else has, the node keeps its container, empty, and no other node changes. -/
theorem disposeChildren_exact {h : Heap} {F : List NodeTree} (hi : Intact h F) {a : Addr} {n : Node}
    {cs : List NodeTree} (ht : Stands h.nodes (node a n cs)) :
    Ends (disposeChildrenWith (destroyNodeAt 1) a) h
      (fun _ h' => h'.nodes a = some { n with impl := n.impl.cleared } ∧
        h'.destroyed.Perm ((cellsAll cs).map Prod.fst ++ h.destroyed) ∧
        (∀ b ∈ (cellsAll cs).map Prod.fst, h'.nodes b = none) ∧
        (∀ b ∉ (node a n cs).addrs, h'.nodes b = h.nodes b) ∧
        (∀ b, h'.links b = none) ∧ h'.next = h.next ∧ h'.allocations = h.allocations)
      fun _ _ => False := by
  obtain ⟨fill, rest, hp⟩ := hi.place ht
  have hs : Still h ((node a n cs).cells ++ rest) :=
    hi.toStill.perm (hp.cells_perm.trans List.perm_append_comm)
  have hm := hs.mem
  refine (@disposeChildren_ends h rest a n 0 cs ht.ok hs).mono (fun _ h' hq => ?_) fun _ _ hf => hf
  obtain ⟨huse, hm', -, hlinks⟩ := hq
  rw [cells_node] at hm
  have hnodup := hm.holds.nodup
  rw [List.cons_append, List.map_cons, List.map_append, List.nodup_cons] at hnodup
  -- the census before and after
  have hcensus : (rest.map Prod.fst ++ h'.destroyed).Perm
      (rest.map Prod.fst ++ ((cellsAll cs).map Prod.fst ++ h.destroyed)) := by
    have hbefore := hm.census
    have hafter := hm'.census
    rw [huse.next] at hafter
    rw [List.cons_append, List.map_cons, List.map_append, List.cons_append] at hbefore
    rw [List.map_cons, List.cons_append] at hafter
    refine ((hafter.trans hbefore.symm).cons_inv).trans ?_
    rw [← List.append_assoc]
    exact List.perm_append_comm.append_right _
  have hdestroyed := (List.perm_append_left_iff _).mp hcensus
  refine ⟨hm'.holds.iff.mpr (List.mem_cons_self ..), hdestroyed, fun b hb => ?_, fun b hb => ?_, hlinks,
    huse.next, huse.allocations⟩
  · exact hm'.destroyed_nodup.2 b (hdestroyed.mem_iff.mpr (List.mem_append_left _ hb))
  · rw [addrs, cells_node, List.map_cons, List.mem_cons, not_or] at hb
    apply Option.ext
    intro k
    rw [hm'.holds.iff, hm.holds.iff, List.mem_cons, List.cons_append, List.mem_cons, List.mem_append]
    have hcell : (b, k) ∉ cellsAll cs := fun hmem => hb.2 (List.mem_map.mpr ⟨_, hmem, rfl⟩)
    have hself : ∀ m : Node, (b, k) ≠ (a, m) := fun m heq => hb.1 (Prod.mk.inj heq).1
    simp only [hself, hcell, false_or]

/-- An array of a null and an object with an empty array. -/
def nestedTree : NodeTree :=
  node 0 ⟨0, .jsonArray [1, 2]⟩ [node 1 ⟨0, .jsonNull⟩ [],
    node 2 ⟨0, .jsonObject ⟨[([0x61], 3)], by decide⟩⟩ [node 3 ⟨0, .jsonArray []⟩ []]]

/-- The nested tree is one. -/
theorem nestedTree_ok : nestedTree.Ok := by
  simp [nestedTree, Owned.Ok, OkAll, Slotted.slots, Slotted.tag, Impl.children]

/-- A heap with this tree alone. -/
theorem intact_nestedTree : Intact (ofForest [nestedTree]) [nestedTree] :=
  intact_ofForest (okAll_iff.mpr (by simpa using nestedTree_ok)) (by decide)

theorem disposeChildren_exact_nested :
    Ends (disposeChildrenWith (destroyNodeAt 1) 0) (ofForest [nestedTree])
      (fun _ h' => h'.nodes 0 = some ⟨0, .jsonArray []⟩ ∧
        h'.destroyed.Perm [1, 2, 3] ∧
        (∀ b ∈ [1, 2, 3], h'.nodes b = none) ∧
        (∀ b ∉ [0, 1, 2, 3], h'.nodes b = (ofForest [nestedTree]).nodes b) ∧
        (∀ b, h'.links b = none) ∧ h'.next = 4 ∧ h'.allocations = 0)
      fun _ _ => False :=
  disposeChildren_exact intact_nestedTree (intact_nestedTree.owns.stands (IsPlace.root nestedTree))

end Memory

end ByteDance
