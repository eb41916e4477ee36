/-
  The deep copy is exact and disjoint.

  `Granted M k₀ h` says that no allocation since the `k₀`-th has failed.  The functions below
  `_copyContentsInto` uphold it: an allocation that fails ends the run, because whoever catches the
  exception throws it again.  What the copy leaves comes from the rules.

  Where its addresses come from is read off the census before and after, and so is what has been destroyed
  on the way out.  The blocks behind the nodes are read off the ledger: it balances before and after, the
  two forests differ in one place, and so the two ledgers differ by what is behind the tree in that place.
  A block released twice would have been a fault on the way, and a block lost would still be on the ledger.
-/
import Pjson.Memory.Copy

namespace ByteDance

open Run Ownership Owned

namespace Memory

variable {M : Machine}

/-! ## Allocations -/

/-- No allocation since then has failed. -/
structure Granted (M : Machine) (k₀ : Nat) (h : Heap) : Prop where
  le : k₀ ≤ h.allocations
  granted : ∀ k, k₀ ≤ k → k < h.allocations → M.fails k = false

variable {k₀ : Nat} {α : Type}

/-- Only the count of the allocations matters. -/
theorem Granted.of_eq {h h' : Heap} (hg : Granted M k₀ h) (heq : h'.allocations = h.allocations) :
    Granted M k₀ h' := ⟨heq ▸ hg.le, heq ▸ hg.granted⟩

/-- A look at a node. -/
theorem upholds_load (a : Addr) : Upholds (Granted M k₀) (load a) := by
  unfold load
  refine .get_bind fun h _ => ?_
  cases h.nodes a with
  | none => exact .throw _
  | some n => exact .pure n

/-- A change of the heap that allocates nothing. -/
theorem upholds_modify {f : Heap → Heap} (hf : ∀ h, (f h).allocations = h.allocations) :
    Upholds (Granted M k₀) (modify f : HeapM Unit) := .modify fun h hg => hg.of_eq (hf h)

/-- A node that is there is rewritten. -/
theorem upholds_store (a : Addr) (impl : Impl) : Upholds (Granted M k₀) (store a impl) := by
  unfold store
  exact (upholds_load a).bind fun n => upholds_modify fun _ => rfl

/-- A node is given back. -/
theorem upholds_release (a : Addr) : Upholds (Granted M k₀) (release a) := by
  unfold release
  exact (upholds_load a).bind fun n => upholds_modify fun _ => rfl

/-- A link of the pending list. -/
theorem upholds_setLink (a : Addr) (next : Option Addr) :
    Upholds (Granted M k₀) (setLink a next) := by
  unfold setLink
  refine (upholds_load a).bind fun n => ?_
  cases n.impl with
  | jsonNull => exact .throw _
  | _ => exact upholds_modify fun _ => rfl

theorem upholds_getLink (a : Addr) : Upholds (Granted M k₀) (getLink a) := by
  unfold getLink
  exact (upholds_load a).bind fun _ => .get_bind fun _ _ => .pure _

/-- A block is given back, or the block is not there. -/
theorem upholds_deallocate (alloc : AllocatorId) (kind : AllocationKind) :
    Upholds (Granted M k₀) (deallocate alloc kind) := by
  unfold deallocate
  exact .get_bind fun h _ => .ite (upholds_modify fun _ => rfl) (.throw _)

/-- The wrapper of a node is given back, and then its implementation. -/
theorem upholds_dropStorage (this : Addr) (n : Node) : Upholds (Granted M k₀) (dropStorage this n) := by
  have hwrapper : Upholds (Granted M k₀) (destroyWrapper n.alloc n.impl.eType) := by
    unfold destroyWrapper
    cases n.impl.eType.wrapper with
    | none => exact .pure _
    | some kind => exact upholds_deallocate _ kind
  unfold dropStorage
  exact hwrapper.bind fun _ => (upholds_store this _).bind fun _ => upholds_deallocate _ _

/-- An allocation is made, or the run ends. -/
theorem upholds_allocate : Upholds (Granted M k₀) (allocate M) := by
  intro h hg
  unfold allocate
  rw [ends_bind, ends_get, ends_bind, ends_set, ends_ite]
  refine ⟨fun _ => trivial, fun hk => ⟨hg.le.trans (Nat.le_succ _), fun k hle hlt => ?_⟩⟩
  rcases Nat.lt_succ_iff_lt_or_eq.mp hlt with hlt | heq
  · exact hg.granted k hle hlt
  · rw [heq]
    simpa using hk

/-- A constructor that allocates no block. -/
theorem upholds_construct (alloc : AllocatorId) : Upholds (Granted M k₀) (construct alloc) := by
  intro h hg
  unfold construct
  exact hg.of_eq rfl

/-- What a handler does counts for nothing here: it ends by throwing. -/
theorem upholds_catchRethrow {x : HeapM α} {cleanup : HeapM Unit} (hx : Upholds (Granted M k₀) x) :
    Upholds (Granted M k₀) (catchRethrow x cleanup) := by
  unfold catchRethrow
  exact .rethrow hx

section

variable {destroy : Addr → HeapM Unit} (hdestroy : ∀ a, Upholds (Granted M k₀) (destroy a))

include hdestroy

/-- The children of a container, one after the other; induction on them. -/
theorem upholds_enqueue (cs : List Addr) (pending : Option Addr) :
    Upholds (Granted M k₀) (enqueue destroy cs pending) := by
  induction cs generalizing pending with
  | nil => exact .pure _
  | cons c cs ih =>
    unfold enqueue
    refine (upholds_load c).bind fun n => ?_
    cases n.impl with
    | jsonNull => exact (hdestroy c).bind fun _ => ih pending
    | _ => exact (upholds_setLink c pending).bind fun _ => ih (some c)

/-- A container is emptied into the pending list. -/
theorem upholds_detach (node : Addr) (pending : Option Addr) :
    Upholds (Granted M k₀) (detach destroy node pending) := by
  unfold detach
  refine (upholds_load node).bind fun n => .ite ?_ (.pure _)
  exact (upholds_enqueue hdestroy _ _).bind fun p => (upholds_store _ _).bind fun _ => .pure p

/-- The loop over the pending list; induction on its bound. -/
theorem upholds_disposeLoop (fuel : Nat) (pending : Option Addr) :
    Upholds (Granted M k₀) (disposeLoop destroy fuel pending) := by
  induction fuel generalizing pending with
  | zero =>
    cases pending with
    | none => exact .pure _
    | some p => exact .throw _
  | succ fuel ih =>
    cases pending with
    | none => exact .pure _
    | some p =>
      unfold disposeLoop
      refine (upholds_getLink p).bind fun link => (upholds_setLink p none).bind fun _ => ?_
      exact (upholds_detach hdestroy p link).bind fun q => (hdestroy p).bind fun _ => ih q

/-- A reset only gives back. -/
theorem upholds_resetWith (this : Addr) : Upholds (Granted M k₀) (resetWith destroy this) := by
  have hdispose : Upholds (Granted M k₀) (disposeChildrenWith destroy this) := by
    unfold disposeChildrenWith
    refine (upholds_load this).bind fun n => .ite ?_ (.pure _)
    refine (upholds_detach hdestroy this none).bind fun p => .get_bind fun h _ => ?_
    exact upholds_disposeLoop hdestroy _ p
  unfold resetWith
  refine (upholds_load this).bind fun n => ?_
  cases n.impl with
  | jsonNull => exact .pure _
  | jsonArray es => exact hdispose.bind fun _ => upholds_dropStorage _ _
  | jsonObject o => exact hdispose.bind fun _ => upholds_dropStorage _ _
  | _ => exact upholds_dropStorage _ _

end

/-- Destructors within destructors; induction on their depth. -/
theorem upholds_destroyNodeAt (depth : Nat) (a : Addr) :
    Upholds (Granted M k₀) (destroyNodeAt depth a) := by
  induction depth generalizing a with
  | zero => exact .throw _
  | succ depth ih => exact (upholds_resetWith ih a).bind fun _ => upholds_release a

theorem upholds_reset (a : Addr) : Upholds (Granted M k₀) (reset a) := by
  unfold reset
  exact .get_bind fun h _ => upholds_resetWith (upholds_destroyNodeAt _) a

theorem upholds_destroyNode (a : Addr) : Upholds (Granted M k₀) (destroyNode a) := by
  unfold destroyNode
  exact (upholds_reset a).bind fun _ => upholds_release a

/-- A local node is destroyed on either way out. -/
theorem upholds_withLocal {alloc : AllocatorId} {body : Addr → HeapM α}
    (hbody : ∀ a, Upholds (Granted M k₀) (body a)) : Upholds (Granted M k₀) (withLocal alloc body) := by
  unfold withLocal
  refine (upholds_construct alloc).bind fun a => (upholds_catchRethrow (hbody a)).bind fun v => ?_
  exact (upholds_destroyNode a).bind fun _ => .pure v

/-- A node that is owned until it is handed over. -/
theorem upholds_withOwned {alloc : AllocatorId} {body : Addr → HeapM α}
    (hbody : ∀ a, Upholds (Granted M k₀) (body a)) : Upholds (Granted M k₀) (withOwned M alloc body) := by
  unfold withOwned
  exact upholds_allocate.bind fun _ => (upholds_construct alloc).bind fun a =>
    upholds_catchRethrow (hbody a)

/-- Two nodes that are there exchange what they hold. -/
theorem upholds_swapStorage (left right : Addr) : Upholds (Granted M k₀) (swapStorage left right) := by
  unfold swapStorage
  exact (upholds_load left).bind fun l => (upholds_load right).bind fun r =>
    (upholds_store left _).bind fun _ => upholds_store right _

/-- A reset to a type allocates the implementation, and then the wrapper. -/
theorem upholds_resetTo (this : Addr) (type : JsonType) :
    Upholds (Granted M k₀) (resetTo M this type) := by
  have hobject : ∀ alloc kind, Upholds (Granted M k₀) (allocateDomObject M alloc kind) := fun alloc kind => by
    have hpush : Upholds (Granted M k₀)
        (modify fun h => { h with ledger := (alloc, kind) :: h.ledger } : HeapM Unit) :=
      upholds_modify fun _ => rfl
    unfold allocateDomObject
    exact upholds_allocate.bind fun _ => hpush.bind fun _ =>
      .ite (upholds_catchRethrow upholds_allocate) (.pure _)
  have hwrapper : ∀ alloc, Upholds (Granted M k₀) (allocateWrapper M alloc type) := fun alloc => by
    unfold allocateWrapper
    cases type.wrapper with
    | none => exact .pure _
    | some kind => exact hobject alloc kind
  unfold resetTo
  refine .ite (upholds_reset this) ((upholds_load this).bind fun n => upholds_withLocal fun l => ?_)
  exact (hobject _ _).bind fun _ => (upholds_catchRethrow (hwrapper _)).bind fun _ =>
    (upholds_store l _).bind fun _ => upholds_swapStorage this l

/-- Of the scalars only a string allocates. -/
theorem upholds_assignValue (this : Addr) (v : Impl) :
    Upholds (Granted M k₀) (assignValue M this v) := by
  unfold assignValue
  refine (upholds_load this).bind fun n => .ite (.throw _) ?_
  cases v with
  | jsonNull => exact .pure _
  | jsonString text => exact upholds_allocate.bind fun _ => upholds_store this _
  | _ => exact upholds_store this _

/-- The children of an array. -/
theorem upholds_elements (this : Addr) : Upholds (Granted M k₀) (elements this) := by
  unfold elements
  refine (upholds_load this).bind fun n => ?_
  cases n.impl with
  | jsonArray es => exact .pure _
  | _ => exact .throw _

/-- And those of an object. -/
theorem upholds_members (this : Addr) : Upholds (Granted M k₀) (members this) := by
  unfold members
  refine (upholds_load this).bind fun n => ?_
  cases n.impl with
  | jsonObject o => exact .pure _
  | _ => exact .throw _

/-- A slot that has been reserved is filled without an allocation. -/
theorem upholds_pushReserved (this child : Addr) :
    Upholds (Granted M k₀) (pushReserved this child) := by
  unfold pushReserved
  exact (upholds_elements this).bind fun _ => upholds_store this _

/-- A member takes two allocations, whether or not its key is there. -/
theorem upholds_insertSlot (this : Addr) (key : Bytes) (child : Addr) :
    Upholds (Granted M k₀) (insertSlot M this key child) := by
  unfold insertSlot
  refine (upholds_members this).bind fun o => upholds_allocate.bind fun _ => upholds_allocate.bind
    fun _ => ?_
  cases o.find key with
  | some existing => exact .pure _
  | none => exact (upholds_store this _).bind fun _ => .pure _

/-- A container is put on the work list, a scalar copied at once. -/
theorem upholds_copyChild (elem attached : Addr) (work : List (Addr × Addr)) :
    Upholds (Granted M k₀) (copyChild M elem attached work) := by
  have hscalar : Upholds (Granted M k₀) (copyScalarInto M attached elem) := by
    unfold copyScalarInto
    exact upholds_catchRethrow ((upholds_load elem).bind fun n => (upholds_resetTo attached _).bind
      fun _ => upholds_assignValue attached _)
  unfold copyChild
  exact (upholds_load elem).bind fun n => .ite (upholds_allocate.bind fun _ => .pure _)
    (hscalar.bind fun _ => .pure _)

/-- The elements, one after the other; induction on them. -/
theorem upholds_copyElements (dst : Addr) (es : List Addr) (work : List (Addr × Addr)) :
    Upholds (Granted M k₀) (copyElements M dst es work) := by
  induction es generalizing work with
  | nil => exact .pure _
  | cons e es ih =>
    unfold copyElements
    refine (upholds_load dst).bind fun n => (upholds_withOwned fun child => ?_).bind fun attached =>
      (upholds_copyChild e attached work).bind ih
    exact (upholds_load e).bind fun m => (upholds_resetTo child _).bind fun _ =>
      (upholds_pushReserved dst child).bind fun _ => .pure child

/-- And the members. -/
theorem upholds_copyMembers (dst : Addr) (ms : List (Bytes × Addr)) (work : List (Addr × Addr)) :
    Upholds (Granted M k₀) (copyMembers M dst ms work) := by
  induction ms generalizing work with
  | nil => exact .pure _
  | cons m ms ih =>
    unfold copyMembers
    refine (upholds_load dst).bind fun n => (upholds_withOwned fun child => ?_).bind fun attached =>
      (upholds_copyChild m.2 attached work).bind ih
    refine (upholds_load m.2).bind fun k => (upholds_resetTo child _).bind fun _ =>
      (upholds_insertSlot dst m.1 child).bind fun there => ?_
    cases there with
    | none => exact .pure child
    | some _ => exact .throw _

/-- The loop over the work list; induction on its bound. -/
theorem upholds_copyLoop (fuel : Nat) (work : List (Addr × Addr)) :
    Upholds (Granted M k₀) (copyLoop M fuel work) := by
  induction fuel generalizing work with
  | zero =>
    cases work with
    | nil => exact .pure _
    | cons p work => exact .throw _
  | succ fuel ih =>
    cases work with
    | nil => exact .pure _
    | cons p work =>
      unfold copyLoop
      refine (upholds_load p.1).bind fun n => ?_
      cases n.impl with
      | jsonArray es => exact upholds_allocate.bind fun _ => (upholds_copyElements _ _ _).bind ih
      | jsonObject o => exact (upholds_copyMembers _ _ _).bind ih
      | _ => exact .throw _

/-- A copy that returns has been given all the memory it asked for. -/
theorem upholds_copyContentsInto (dst source : Addr) :
    Upholds (Granted M k₀) (copyContentsInto M dst source) := by
  unfold copyContentsInto
  refine upholds_catchRethrow ((upholds_load source).bind fun n => (upholds_resetTo dst _).bind
    fun _ => .ite ?_ (upholds_assignValue dst _))
  exact upholds_allocate.bind fun _ => .get_bind fun h _ => upholds_copyLoop _ _

/-! ## Exactness -/

/-- A tree of the heap that has no node in common with a place is beside it. -/
theorem Beside.of_disjoint {h : Heap} {F : List NodeTree} {s t : NodeTree}
    {fill : NodeTree → List NodeTree} {rest : List (Addr × Node)} (hi : Intact h F)
    (hs : Stands h.nodes s) (hp : IsPlace F t fill rest) (hdisj : s.addrs.Disjoint t.addrs) :
    Beside s rest := by
  refine ⟨hs.ok, fun c hc => (hp.mem_or (hi.mem.holds.iff.mp (hs.cells hc))).resolve_right fun hct => ?_⟩
  exact hdisj (List.mem_map.mpr ⟨c, hc, rfl⟩) (List.mem_map.mpr ⟨c, hct, rfl⟩)

section

variable {h : Heap} {F : List NodeTree} {d : Addr} {nd : Node} {ds : List NodeTree}
  {fill : NodeTree → List NodeTree} {rest : List (Addr × Node)}

/-- The cells of a heap with another tree in a place. -/
theorem Mem.of_refill {h' : Heap} {t t' : NodeTree} (hp : IsPlace F t fill rest)
    (hi' : Intact h' (fill t')) : Mem h' (t'.cells ++ rest) :=
  hi'.mem.perm ((hp.cells t').trans List.perm_append_comm)

/-- Only what is behind the two trees tells the ledgers apart. -/
theorem ledger_refill {h' : Heap} {t t' : NodeTree} (hp : IsPlace F t fill rest) (hi : Intact h F)
    (hi' : Intact h' (fill t')) : (h'.ledger ++ blocks t.cells).Perm (h.ledger ++ blocks t'.cells) := by
  have hbefore : h.ledger.Perm (blocks rest ++ blocks t.cells) := by
    rw [← blocks_append]
    exact hi.balance.trans (blocks_perm hp.cells_perm)
  have hafter : h'.ledger.Perm (blocks rest ++ blocks t'.cells) := by
    rw [← blocks_append]
    exact hi'.balance.trans (blocks_perm (hp.cells t'))
  refine (hafter.append_right _).trans (List.Perm.trans ?_ (hbefore.append_right _).symm)
  rw [List.append_assoc, List.append_assoc]
  exact List.perm_append_comm.append_left _

/-- Only the cells of the two trees tell the heaps apart. -/
theorem Mem.nodes_eq {h' : Heap} {L L' : List (Addr × Node)} (hm : Mem h (L ++ rest))
    (hm' : Mem h' (L' ++ rest)) {b : Addr} (hb : b ∉ L.map Prod.fst) (hb' : b ∉ L'.map Prod.fst) :
    h'.nodes b = h.nodes b := by
  apply Option.ext
  intro k
  have hcell : (b, k) ∉ L := fun hmem => hb (List.mem_map.mpr ⟨_, hmem, rfl⟩)
  have hcell' : (b, k) ∉ L' := fun hmem => hb' (List.mem_map.mpr ⟨_, hmem, rfl⟩)
  rw [hm'.holds.iff, hm.holds.iff, List.mem_append, List.mem_append]
  simp only [hcell, hcell', false_or]

/-- What has been destroyed between a heap and one in which a tree has become a leaf. -/
theorem Mem.destroyed_perm {h' : Heap} {n n' : Node} (hm : Mem h ((node d n ds).cells ++ rest))
    (hm' : Mem h' ((d, n') :: rest)) (hnext : h.next ≤ h'.next) :
    h'.destroyed.Perm ((cellsAll ds).map Prod.fst ++ h.destroyed ++
      List.range' h.next (h'.next - h.next)) := by
  have hrange : List.range h'.next = List.range h.next ++ List.range' h.next (h'.next - h.next) := by
    obtain ⟨k, hk⟩ := Nat.exists_eq_add_of_le hnext
    rw [hk, Nat.add_sub_cancel_left, List.range_eq_range', List.range_eq_range']
    rw [show List.range' h.next k = List.range' (0 + h.next) k by rw [Nat.zero_add]]
    rw [← List.range'_append_1, Nat.zero_add]
  have hbefore := hm.census
  have hafter := hm'.census
  rw [hrange] at hafter
  have hboth := hafter.trans (hbefore.symm.append_right _)
  rw [cells_node] at hboth
  rw [List.perm_iff_count] at hboth ⊢
  intro b
  have hb := hboth b
  simp only [List.map_cons, List.map_append, List.cons_append, List.count_cons, List.count_append] at hb ⊢
  omega

end

/-- After a copy: the destination has become the tree `t'`, and what is behind it has taken the place of
    what was behind `t`. -/
structure Copied (h h' : Heap) (s t t' : NodeTree) : Prop where
  stands : Stands h'.nodes t'
  addr : t'.addr = t.addr
  value : value t' = value s
  alloc : ∀ c ∈ t'.cells, c.2.alloc = t.data.alloc
  nodup : t'.addrs.Nodup
  fresh : ∀ b ∈ t'.addrs, b = t.addr ∨ h.next ≤ b ∧ h.nodes b = none
  source : Stands h'.nodes s
  others : ∀ b, b ∉ t.addrs → b ∉ t'.addrs → h'.nodes b = h.nodes b
  ledger : (h'.ledger ++ blocks t.cells).Perm (h.ledger ++ blocks t'.cells)

/-- After a copy that has failed: the destination is null; every node it owned, and every node made since,
    is destroyed, once; and of the blocks that were outstanding all are but those behind the old tree, and
    no other. -/
structure Undone (h h' : Heap) (s t : NodeTree) : Prop where
  null : h'.nodes t.addr = some { t.data with impl := .jsonNull }
  released : h'.destroyed.Perm ((cellsAll t.children).map Prod.fst ++ h.destroyed ++
    List.range' h.next (h'.next - h.next))
  source : Stands h'.nodes s
  others : ∀ b, b ∉ t.addrs → h'.nodes b = h.nodes b
  ledger : (h'.ledger ++ blocks t.cells).Perm h.ledger

/-- The clean-up after a failure. -/
theorem undone_of_reset {h h₁ : Heap} {F : List NodeTree} {s t t₁ : NodeTree}
    {fill : NodeTree → List NodeTree} {rest : List (Addr × Node)} (hi : Intact h F)
    (hp : IsPlace F t fill rest) (hside : Beside s rest) (hsince : Since h h₁)
    (hi₁ : Intact h₁ (fill t₁)) (hkey : t₁.key = t.key) {k : Nat} (hk : M.fails k = true) :
    Ends (do
      reset t.addr
      throw .badAlloc : HeapM Unit) h₁ (fun _ _ => False)
      (fun e h' => e = .badAlloc ∧ (∃ k, M.fails k = true) ∧ Undone h h' s t) := by
  obtain ⟨d, nd, ds⟩ := t
  have hm : Mem h ((node d nd ds).cells ++ rest) := Mem.of_refill hp (hp.fill_self.symm ▸ hi)
  have hreset : Leads (Memory.reset d) (fill t₁)
      (fun _ F' => F' = fill (node d { nd with impl := .jsonNull } [])) fun _ _ => False :=
    Leads.resetKey hp hkey rfl
  rw [ends_bind]
  refine (hreset h₁ hi₁).mono (fun _ h' hq => ⟨rfl, ⟨k, hk⟩, ?_⟩) fun _ _ ⟨_, _, _, hf⟩ => hf.elim
  obtain ⟨hsince', F', hi', rfl⟩ := hq
  have hm' := Mem.of_refill hp hi'
  constructor
  · exact hm'.holds.iff.mpr (by simp)
  · exact hm.destroyed_perm (by simpa using hm') (hsince.next.trans hsince'.next)
  · exact ⟨hside.ok, fun hc => hm'.holds.iff.mpr (List.mem_append_right _ (hside.cells _ hc))⟩
  · refine fun b hb => hm.nodes_eq hm' hb fun hb' => hb ?_
    rw [cells_node, cellsAll_nil] at hb'
    rw [List.mem_singleton.mp hb']
    exact addr_mem_addrs _
  · -- nothing is behind a null
    have hnone : blocks (node d ({ nd with impl := .jsonNull } : Node) []).cells = [] := by
      rw [cells_node, cellsAll_nil]
      rfl
    have hledger := ledger_refill hp hi hi'
    rwa [hnone, List.append_nil] at hledger

/-- **The deep copy is exact and disjoint**: in every intact heap, from every tree into every node whose
    tree has nothing in common with it, `_copyContentsInto` returns or throws `bad_alloc`.  If it returns,
    no allocation has failed and the destination is the root of a tree with the value of the source, all
    of the destination's allocator, of distinct nodes, and all but the destination new; the blocks behind
    that tree are outstanding, and those behind the old one are not.  If it throws, an allocation has
    failed and the destination is null; every node that it owned or that has been made since is destroyed,
    once, and every block allocated since, and every one behind the old tree, has been given back to its
    allocator, once.  The source stands as it did and no other node has changed. -/
theorem copyContentsInto_exact {h : Heap} {F : List NodeTree} (hi : Intact h F) {s t : NodeTree}
    (hs : Stands h.nodes s) (ht : Stands h.nodes t) (hdisj : s.addrs.Disjoint t.addrs) :
    Ends (copyContentsInto M t.addr s.addr) h
      (fun _ h' => (∀ k, h.allocations ≤ k → k < h'.allocations → M.fails k = false) ∧
        ∃ t', Copied h h' s t t')
      (fun e h' => e = .badAlloc ∧ (∃ k, M.fails k = true) ∧ Undone h h' s t) := by
  obtain ⟨fill, rest, hp⟩ := hi.place ht
  obtain ⟨d, nd, ds⟩ := t
  have hm : Mem h ((node d nd ds).cells ++ rest) := Mem.of_refill hp (hp.fill_self.symm ▸ hi)
  have hside : Beside s rest := .of_disjoint hi hs hp hdisj
  have hnodup : s.cells.Nodup := by
    obtain ⟨fill', rest', hp'⟩ := hi.place hs
    have hms : Mem h (s.cells ++ rest') := Mem.of_refill hp' (hp'.fill_self.symm ▸ hi)
    have hall := hms.holds.nodup
    rw [List.map_append, List.nodup_append] at hall
    exact hall.1.of_map
  have hgranted : Granted M h.allocations h :=
    ⟨le_refl _, fun k hle hlt => absurd hle (Nat.not_le.mpr hlt)⟩
  have hrun : Ends (copyContentsInto M d s.addr) h
      (fun _ h' => ∃ h₁ t', Since h h₁ ∧ Since h₁ h' ∧
        Intact h₁ (fill (node d { nd with impl := s.data.impl.eType.initial } [])) ∧
        Intact h' (fill t') ∧ IsCopy s d nd.alloc t')
      (fun e h' => e = .badAlloc ∧ (∃ k, M.fails k = true) ∧ Undone h h' s (node d nd ds)) := by
    unfold copyContentsInto catchRethrow
    rw [ends_tryCatch, ends_bind, ends_load (hs.cells s.root_mem_cells), ends_bind]
    have hreset : Leads (Memory.resetTo M d s.data.impl.eType) F
        (fun _ F' => F' = fill (node d { nd with impl := s.data.impl.eType.initial } []))
        (fun e F' => e = .badAlloc ∧ (∃ k, M.fails k = true) ∧ F' = fill (node d nd ds)) :=
      Leads.resetTo hp rfl fun k hk => ⟨rfl, ⟨k, hk⟩, hp.fill_self.symm⟩
    refine (hreset h hi).mono (fun _ h₁ hq => ?_) fun e h₁ he => ?_
    · obtain ⟨hsince, F₁, hi₁, rfl⟩ := hq
      have hfill := Leads.fillCleared (M := M) (hp.refill rfl) hside hnodup
        (Q := fun _ F' => ∃ t', IsCopy s d nd.alloc t' ∧ F' = fill t')
        (R := fun e F' => e = .badAlloc ∧ (∃ k, M.fails k = true) ∧
          ∃ t', t'.key = (d, nd.alloc) ∧ F' = fill t')
        (fun t' ht' => ⟨t', ht', rfl⟩) (fun k t' hk hkey => ⟨rfl, ⟨k, hk⟩, t', hkey, rfl⟩) h₁ hi₁
      refine hfill.mono (fun _ h' hq => ?_) fun e h' he => ?_
      · obtain ⟨hsince', F', hi', t', hcopy, rfl⟩ := hq
        exact ⟨h₁, t', hsince, hsince', hi₁, hi', hcopy⟩
      · obtain ⟨hsince', F', hi', rfl, ⟨k, hk⟩, t', hkey, rfl⟩ := he
        exact (undone_of_reset hi hp hside (hsince.trans hsince') hi' hkey hk).mono
          (fun _ _ hf => hf.elim) fun _ _ hr => hr
    · obtain ⟨hsince, F₁, hi₁, rfl, ⟨k, hk⟩, rfl⟩ := he
      exact (undone_of_reset hi hp hside hsince hi₁ rfl hk).mono (fun _ _ hf => hf.elim)
        fun _ _ hr => hr
  refine (hrun.and (upholds_copyContentsInto d s.addr h hgranted)).mono (fun _ h' hq => ?_)
    fun _ _ he => he.1
  obtain ⟨⟨h₁, t', hsince, hsince', hi₁, hi', hcopy⟩, hg⟩ := hq
  have hm₁ := Mem.of_refill hp hi₁
  have hm' := Mem.of_refill hp hi'
  have hall := hm'.holds.nodup
  rw [List.map_append, List.nodup_append] at hall
  have hstand := hi'.owns.stands (hp.refill hcopy.key)
  refine ⟨hg.granted, t', hstand, congrArg Prod.fst hcopy.key, hcopy.value, fun c hc => ?_, hall.1,
    fun b hb => ?_, ?_, fun b hb hb' => hm.nodes_eq hm' hb hb', ledger_refill hp hi hi'⟩
  · exact (tag_of_mem hstand.ok hc).trans (congrArg Prod.snd hcopy.key)
  · -- an address used before is gone, unless it is the destination's
    rcases Nat.lt_or_ge b h.next with hlt | hge
    · refine Or.inl ?_
      rcases hm₁.used (hlt.trans_le hsince.next) with hlive | hdead
      · rw [cells_node, cellsAll_nil, List.cons_append, List.map_cons, List.mem_cons] at hlive
        exact hlive.resolve_right fun hrest => hall.2.2 b hb b hrest rfl
      · have hgone := hm'.destroyed_nodup.2 b (hsince'.destroyed b hdead)
        rw [hm'.holds.eq_none_iff] at hgone
        exact absurd (by rw [List.map_append]; exact List.mem_append_left _ hb) hgone
    · exact Or.inr ⟨hge, hm.fresh hge⟩
  · exact ⟨hside.ok, fun hc => hm'.holds.iff.mpr (List.mem_append_right _ (hside.cells _ hc))⟩

/-- A null of another allocator beside the tree above. -/
def nullTree : NodeTree := node 4 ⟨1, .jsonNull⟩ []

theorem intact_nestedPair : Intact (ofForest [nestedTree, nullTree]) [nestedTree, nullTree] := by
  refine intact_ofForest (okAll_iff.mpr (by simpa using ⟨nestedTree_ok, ok_leaf rfl⟩)) ?_
  simp only [nestedTree, nullTree, cellsAll_cons, cellsAll_nil, cells_node]
  decide

/-- The eighth allocation fails. -/
def failsOnce : Machine := ⟨fun k => k == 7, 100, 8⟩

-- the statement is not to be run
attribute [local irreducible] Ends in
theorem copyContentsInto_exact_nested :
    Ends (copyContentsInto failsOnce nullTree.addr nestedTree.addr) (ofForest [nestedTree, nullTree])
      (fun _ h' => (∀ k, (ofForest [nestedTree, nullTree]).allocations ≤ k → k < h'.allocations →
        failsOnce.fails k = false) ∧
        ∃ t', Copied (ofForest [nestedTree, nullTree]) h' nestedTree nullTree t')
      (fun e h' => e = .badAlloc ∧ (∃ k, failsOnce.fails k = true) ∧
        Undone (ofForest [nestedTree, nullTree]) h' nestedTree nullTree) := by
  have hs := intact_nestedPair.owns.stands ((IsPlace.root nestedTree).around [] [nullTree])
  have ht := intact_nestedPair.owns.stands ((IsPlace.root nullTree).cons nestedTree)
  have hdisj : nestedTree.addrs.Disjoint nullTree.addrs := by simp [nestedTree, nullTree, addrs]
  exact copyContentsInto_exact intact_nestedPair hs ht hdisj

end Memory

end ByteDance
