/-
  The rules of the DOM's programs over forests.

  `Leads x F Q R` reads a run over forests: started on an intact heap with forest `F`, `x` returns
  with one that `Q` speaks of or exits with one that `R` speaks of.  There is a rule for each primitive,
  so what a member function does is read off its text; a receiver below a root is a tree in a context
  (`IsPlace`).

  Between its two allocations `resetTo` holds a block that is behind no node, so no forest describes the heap
  there.  The rule `Leads.build` spans both and the store that puts them behind the node; below it the
  allocations speak of the ledger alone (`SameNodes`).

  A run also goes forward (`Since`): an address once used or destroyed stays so.

  `Thrown M e` are the exits by an exception.  Most functions that throw leave the forest as it was.
-/
import Pjson.Memory.Forest

namespace ByteDance

open Run Ownership Owned

namespace Memory

/-- The forests of heaps. -/
structure Sound (F : List NodeTree) : Prop where
  ok : OkAll F
  nodup : ((cellsAll F).map Prod.fst).Nodup

variable (M : Machine)

/-- An exception; memory is not at fault unless an allocation failed. -/
def Thrown (e : HeapExit) : Prop :=
  e ≠ .fault ∧ e ≠ .fuel ∧ (e = .badAlloc → ∃ k, M.fails k = true)

/-- An allocation that fails throws. -/
theorem thrown_badAlloc {k : Nat} (hk : M.fails k = true) : Thrown M .badAlloc :=
  ⟨by simp, by simp, fun _ => ⟨k, hk⟩⟩

/-- The heap comes after the other: addresses used stay used, and nodes destroyed stay destroyed. -/
structure Since (h h' : Heap) : Prop where
  next : h.next ≤ h'.next
  destroyed : ∀ b ∈ h.destroyed, b ∈ h'.destroyed

/-- Nothing has happened. -/
theorem Since.refl (h : Heap) : Since h h := ⟨le_refl _, fun _ hb => hb⟩

/-- What has happened in two parts. -/
theorem Since.trans {h h' h'' : Heap} (hs : Since h h') (hs' : Since h' h'') : Since h h'' :=
  ⟨hs.next.trans hs'.next, fun b hb => hs'.destroyed b (hs.destroyed b hb)⟩

/-- A tree has become a leaf, and no address has been used. -/
theorem Intact.emptied {h h' : Heap} {F : List NodeTree} {a : Addr} {n : Node} {cs : List NodeTree}
    {fill : NodeTree → List NodeTree} {rest : List (Addr × Node)} {impl : Impl} (hi : Intact h F)
    (hp : IsPlace F (node a n cs) fill rest) (himpl : impl.children = []) (huse : SameUse h h')
    (hs : Still h' ((a, { n with impl := impl }) :: rest)) :
    Since h h' ∧ Intact h' (fill (node a { n with impl := impl } [])) := by
  have hm : Mem h ((node a n cs).cells ++ rest) := hi.mem.perm (hp.cells_perm.trans List.perm_append_comm)
  have hkey : (node a { n with impl := impl } []).key = (node a n cs).key := rfl
  obtain ⟨-, hfill⟩ := hp.ok rfl hkey (hp.fill_self.symm ▸ hi.ok)
  refine ⟨⟨huse.next.ge, hm.destroyed_of_subset hs.mem huse.next fun b hb => ?_⟩,
    hs.perm (List.Perm.trans ?_ (hp.cells _).symm), hfill (ok_leaf himpl)⟩
  · rw [List.map_cons, List.mem_cons] at hb
    rw [cells_node, List.cons_append, List.map_cons, List.map_append, List.mem_cons, List.mem_append]
    exact hb.imp_right Or.inr
  · rw [cells_node, cellsAll_nil]
    exact (List.perm_append_singleton _ _).symm

/-! ## Allocations -/

/-- What an allocation leaves alone. -/
structure SameNodes (h h' : Heap) : Prop where
  nodes : h'.nodes = h.nodes
  links : h'.links = h.links
  next : h'.next = h.next
  destroyed : h'.destroyed = h.destroyed

/-- Two changes of the ledger alone. -/
theorem SameNodes.trans {h h' h'' : Heap} (hs : SameNodes h h') (hs' : SameNodes h' h'') :
    SameNodes h h'' :=
  ⟨hs'.nodes.trans hs.nodes, hs'.links.trans hs.links, hs'.next.trans hs.next,
    hs'.destroyed.trans hs.destroyed⟩

/-- What leaves the nodes leaves what has happened to them. -/
theorem SameNodes.since {h h' : Heap} (hs : SameNodes h h') : Since h h' :=
  ⟨hs.next.ge, fun _ hb => hs.destroyed ▸ hb⟩

/-- A forest stands whatever becomes of the ledger, as long as this balances. -/
theorem Intact.of_same {h h' : Heap} {F : List NodeTree} (hi : Intact h F) (hs : SameNodes h h')
    (hb : Balanced h'.ledger (cellsAll F)) : Intact h' F := by
  refine ⟨⟨⟨hs.nodes ▸ hi.mem.holds, ?_⟩, hb, hs.links ▸ hi.links⟩, hi.ok⟩
  rw [hs.next, hs.destroyed]
  exact hi.mem.census

variable {M}

/-- An allocation takes a number, and may fail. -/
theorem allocate_ends (h : Heap) : Ends (allocate M) h
    (fun _ h' => SameNodes h h' ∧ h'.ledger = h.ledger)
    fun e h' => e = .badAlloc ∧ (∃ k, M.fails k = true) ∧ SameNodes h h' ∧ h'.ledger = h.ledger := by
  unfold allocate
  rw [ends_bind, ends_get, ends_bind, ends_set, ends_ite]
  exact ⟨fun hk => ⟨rfl, ⟨_, hk⟩, ⟨rfl, rfl, rfl, rfl⟩, rfl⟩, fun _ => ⟨⟨rfl, rfl, rfl, rfl⟩, rfl⟩⟩

/-- A block that has just been handed out is given back. -/
theorem deallocate_ends {alloc : AllocatorId} {kind : AllocationKind} {h : Heap} {ledger : List Block}
    (hledger : h.ledger = (alloc, kind) :: ledger) : Ends (deallocate alloc kind) h
      (fun _ h' => SameNodes h h' ∧ h'.ledger = ledger) fun _ _ => False := by
  have hmem : (alloc, kind) ∈ h.ledger := by
    rw [hledger]
    exact List.mem_cons_self
  rw [ends_deallocate hmem]
  refine ⟨⟨rfl, rfl, rfl, rfl⟩, ?_⟩
  show h.ledger.erase (alloc, kind) = ledger
  rw [hledger, List.erase_cons_head]

/-- A block is handed out, or none. -/
theorem allocateDomObject_ends (alloc : AllocatorId) (kind : AllocationKind) (h : Heap) :
    Ends (allocateDomObject M alloc kind) h
      (fun _ h' => SameNodes h h' ∧ h'.ledger = (alloc, kind) :: h.ledger)
      fun e h' => e = .badAlloc ∧ (∃ k, M.fails k = true) ∧ SameNodes h h' ∧ h'.ledger = h.ledger := by
  unfold allocateDomObject
  rw [ends_bind]
  refine (allocate_ends h).mono (fun _ h₁ hq => ?_) fun _ _ he => he
  obtain ⟨hsame, hledger⟩ := hq
  rw [ends_bind, ends_modify, ends_ite]
  have hstep : SameNodes h { h₁ with ledger := (alloc, kind) :: h₁.ledger } :=
    hsame.trans ⟨rfl, rfl, rfl, rfl⟩
  refine ⟨fun _ => ?_, fun _ => ⟨hstep, congrArg _ hledger⟩⟩
  -- the constructor throws: the block goes back
  unfold catchRethrow
  rw [ends_tryCatch]
  refine (allocate_ends _).mono (fun _ h₂ hq => ⟨hstep.trans hq.1, ?_⟩) fun e h₂ he => ?_
  · rw [hq.2, ← hledger]
  · obtain ⟨rfl, hk, hsame', hledger'⟩ := he
    rw [ends_bind]
    refine (deallocate_ends hledger').mono (fun _ h₃ hq => ?_) fun _ _ hf => hf.elim
    exact ⟨rfl, hk, (hstep.trans hsame').trans hq.1, hq.2.trans hledger⟩

/-- The wrapper object of the type is allocated, if it has one. -/
theorem allocateWrapper_ends (alloc : AllocatorId) (type : JsonType) (h : Heap) :
    Ends (allocateWrapper M alloc type) h
      (fun _ h' => SameNodes h h' ∧ h'.ledger = type.wrapper.toList.map (alloc, ·) ++ h.ledger)
      fun e h' => e = .badAlloc ∧ (∃ k, M.fails k = true) ∧ SameNodes h h' ∧ h'.ledger = h.ledger := by
  unfold allocateWrapper
  cases type.wrapper with
  | none => exact ⟨⟨rfl, rfl, rfl, rfl⟩, rfl⟩
  | some kind => exact allocateDomObject_ends alloc kind h

/-- The two blocks of a value of the type, or none: without its wrapper object the implementation is given
    back. -/
theorem allocateStorage_ends (alloc : AllocatorId) (type : JsonType) (h : Heap) :
    Ends (do
      allocateDomObject M alloc .ImplementationAllocation
      catchRethrow (allocateWrapper M alloc type) (deallocate alloc .ImplementationAllocation)) h
      (fun _ h' => SameNodes h h' ∧
        h'.ledger = type.wrapper.toList.map (alloc, ·) ++ (alloc, .ImplementationAllocation) :: h.ledger)
      fun e h' => e = .badAlloc ∧ (∃ k, M.fails k = true) ∧ SameNodes h h' ∧ h'.ledger = h.ledger := by
  rw [ends_bind]
  refine (allocateDomObject_ends alloc _ h).mono (fun _ h₁ hq => ?_) fun _ _ he => he
  obtain ⟨hsame, hledger⟩ := hq
  unfold catchRethrow
  rw [ends_tryCatch]
  refine (allocateWrapper_ends alloc type h₁).mono (fun _ h₂ hq => ⟨hsame.trans hq.1, ?_⟩) fun e h₂ he => ?_
  · rw [hq.2, hledger]
  · obtain ⟨rfl, hk, hsame', hledger'⟩ := he
    rw [ends_bind]
    refine (deallocate_ends (hledger'.trans hledger)).mono (fun _ h₃ hq => ?_) fun _ _ hf => hf.elim
    exact ⟨rfl, hk, (hsame.trans hsame').trans hq.1, hq.2⟩

/-- The storage a type starts with is of that type. -/
theorem eType_initial (type : JsonType) : type.initial.eType = type := by
  cases type <;> rfl

/-- The blocks behind the initial value of a type. -/
theorem blocks_initial {alloc : AllocatorId} {type : JsonType} (hnull : type ≠ .jsonNull) :
    (⟨alloc, type.initial⟩ : Node).blocks =
      type.wrapper.toList.map (alloc, ·) ++ [(alloc, .ImplementationAllocation)] := by
  unfold Node.blocks
  rw [eType_initial, if_neg hnull]

variable (M)

/-! ## Runs over forests -/

/-- From the forest the program returns in `Q` or exits in `R`. -/
def Leads {α : Type} (x : HeapM α) (F : List NodeTree) (Q : α → List NodeTree → Prop)
    (R : HeapExit → List NodeTree → Prop) : Prop :=
  ∀ h, Intact h F → Ends x h (fun v h' => Since h h' ∧ ∃ F', Intact h' F' ∧ Q v F')
    fun e h' => Since h h' ∧ ∃ F', Intact h' F' ∧ R e F'

namespace Leads

variable {M} {α β : Type} {F F' G G' : List NodeTree} {Q Q' : α → List NodeTree → Prop}
  {P : β → List NodeTree → Prop} {R R' : HeapExit → List NodeTree → Prop} {x : HeapM α} {a : Addr}
  {n : Node} {cs cs' : List NodeTree} {fill : NodeTree → List NodeTree} {rest : List (Addr × Node)}

/-- A value. -/
theorem pure {v : α} (hQ : Q v F) : Leads (Pure.pure v) F Q R := fun h hi => ⟨.refl h, F, hi, hQ⟩

/-- An exception leaves the forest as it is. -/
theorem throw {e : HeapExit} (hR : R e F) : Leads (MonadExcept.throw e : HeapM α) F Q R :=
  fun h hi => ⟨.refl h, F, hi, hR⟩

/-- Weaker postconditions. -/
theorem mono (hx : Leads x F Q R) (hQ : ∀ v F', Q v F' → Q' v F') (hR : ∀ e F', R e F' → R' e F') :
    Leads x F Q' R' := fun h hi =>
  (hx h hi).mono (fun v _ ⟨hs, F', hi', hv⟩ => ⟨hs, F', hi', hQ v F' hv⟩)
    fun e _ ⟨hs, F', hi', he⟩ => ⟨hs, F', hi', hR e F' he⟩

/-- What comes after a later heap comes after this one. -/
theorem later {h h' : Heap} {S : α → Heap → Prop} {T : HeapExit → Heap → Prop} (hs : Since h h')
    (hx : Ends x h' (fun v h'' => Since h' h'' ∧ S v h'') fun e h'' => Since h' h'' ∧ T e h'') :
    Ends x h' (fun v h'' => Since h h'' ∧ S v h'') fun e h'' => Since h h'' ∧ T e h'' :=
  hx.mono (fun _ _ ⟨hs', hS⟩ => ⟨hs.trans hs', hS⟩) fun _ _ ⟨hs', hT⟩ => ⟨hs.trans hs', hT⟩

/-- Where the one ends the other starts. -/
theorem bind {f : α → HeapM β} (hx : Leads x F (fun v F' => Leads (f v) F' P R) R) :
    Leads (x >>= f) F P R := fun h hi =>
  ends_bind.mpr ((hx h hi).mono (fun _ h' ⟨hs, _, hi', hf⟩ => later hs (hf h' hi')) fun _ _ he => he)

/-- What is known of the forest. -/
theorem sound (hx : Sound F → Leads x F Q R) : Leads x F Q R := fun h hi =>
  hx ⟨hi.ok, hi.mem.holds.nodup⟩ h hi

/-- Either branch may use its condition. -/
theorem ite {c : Prop} [Decidable c] {y : HeapM α} (hx : c → Leads x F Q R)
    (hy : ¬ c → Leads y F Q R) : Leads (if c then x else y) F Q R := by
  split
  · exact hx ‹_›
  · exact hy ‹_›

/-- A loop bound is at least the number of nodes. -/
theorem next {f : Nat → HeapM β} (hf : ∀ k, (cellsAll F).length ≤ k → Leads (f k) F P R) :
    Leads (get >>= fun h => f h.next) F P R := fun h hi => hf h.next hi.mem.length_le h hi

/-- A look at a node of the forest. -/
theorem load {f : Node → HeapM β} (ha : (a, n) ∈ cellsAll F) (hf : Leads (f n) F P R) :
    Leads (Memory.load a >>= f) F P R := fun h hi => by
  rw [ends_bind, ends_load (hi.mem.holds.iff.mpr ha)]
  exact hf h hi

/-- An allocation succeeds or throws; the forest is the same. -/
theorem allocate {f : Unit → HeapM β} (hf : Leads (f ()) F P R)
    (hR : ∀ k, M.fails k = true → R .badAlloc F) : Leads (Memory.allocate M >>= f) F P R := by
  intro h hi
  rw [ends_bind]
  refine (allocate_ends h).mono (fun _ h' hq => ?_) fun e h' he => ?_
  · exact later hq.1.since (hf h' (hi.of_same hq.1 (hq.2 ▸ hi.balance)))
  · obtain ⟨rfl, ⟨k, hk⟩, hsame, hledger⟩ := he
    exact ⟨hsame.since, F, hi.of_same hsame (hledger ▸ hi.balance), hR k hk⟩

/-- A node is written: it may give up children and take roots. -/
theorem store {Q : Unit → List NodeTree → Prop} {impl : Impl} {D H : List NodeTree} (hp : IsPlace F (node a n cs) fill rest)
    (hperm : (D ++ H).Perm (cs ++ G)) (hslots : impl.children = D.map addr)
    (halloc : ∀ c ∈ D, c.data.alloc = n.alloc) (hkind : impl.eType = n.impl.eType)
    (hQ : Q () (H ++ fill (node a { n with impl := impl } D))) :
    Leads (Memory.store a impl) (G ++ F) Q R := by
  intro h hi
  have hi' := hi.perm List.perm_append_comm
  have ha : h.nodes a = some n := by
    have hpl := hp.around [] G
    rw [List.nil_append] at hpl
    exact hi'.owns.place_data hpl
  rw [ends_store ha]
  exact ⟨⟨le_refl _, fun _ hb => hb⟩, _,
    (hi'.write hp hperm hslots halloc hkind).perm List.perm_append_comm, hQ⟩

/-- A node that keeps its children. -/
theorem write {Q : Unit → List NodeTree → Prop} {impl : Impl} {D : List NodeTree} (hp : IsPlace F (node a n cs) fill rest)
    (hslots : impl.children = D.map addr) (hperm : D.Perm cs) (hkind : impl.eType = n.impl.eType)
    (hQ : Q () (fill (node a { n with impl := impl } D))) :
    Leads (Memory.store a impl) F Q R := by
  refine sound fun hs => ?_
  have hok := (hp.ok rfl rfl (hp.fill_self.symm ▸ hs.ok)).1
  have htags := (ok_node.mp hok).2.1
  exact store (G := []) (H := []) hp (by simpa using hperm) hslots
    (fun c hc => htags c (hperm.mem_iff.mp hc)) hkind hQ

/-! ### Scopes -/

/-- The handler starts where the exception has left the forest, and may not throw itself. -/
theorem catchRethrow {cleanup : HeapM Unit}
    (hx : Leads x F Q fun e F' => Leads cleanup F' (fun _ F'' => R e F'') fun _ _ => False) :
    Leads (Memory.catchRethrow x cleanup) F Q R := fun h hi => by
  unfold Memory.catchRethrow
  rw [ends_tryCatch]
  refine (hx h hi).mono (fun _ _ hq => hq) fun e h' hr => ?_
  obtain ⟨hs, F', hi', hcleanup⟩ := hr
  rw [ends_bind]
  exact (later hs (hcleanup h' hi')).mono (fun _ _ hr => hr) fun _ _ ⟨_, _, _, hf⟩ => hf.elim

/-- A node at a place is emptied where it is. -/
theorem reset {Q : Unit → List NodeTree → Prop} (hp : IsPlace F (node a n cs) fill rest)
    (hQ : Q () (fill (node a { n with impl := .jsonNull } []))) : Leads (Memory.reset a) F Q R :=
  fun h hi => by
  have hm : Still h ((node a n cs).cells ++ rest) :=
    hi.toStill.perm (hp.cells_perm.trans List.perm_append_comm)
  refine (reset_ends (hi.owns.stands hp).ok hm).mono (fun _ h' hq => ?_) fun _ _ hf => hf.elim
  obtain ⟨hs, hi'⟩ := hi.emptied hp rfl hq.1 hq.2
  exact ⟨hs, _, hi', hQ⟩

/-- A tree goes with all that is below it. -/
theorem destroyNode {Q : Unit → List NodeTree → Prop} (hQ : Q () F) :
    Leads (Memory.destroyNode a) (node a n cs :: F) Q R := fun h hi => by
  obtain ⟨hok, hF⟩ := List.forall_mem_cons.mp (okAll_iff.mp hi.ok)
  have hm : Still h ((node a n cs).cells ++ cellsAll F) := hi.toStill
  refine (destroyNode_ends hok hm).mono (fun _ h' hq => ?_) fun _ _ hf => hf.elim
  have hs : Since h h' := by
    refine ⟨hq.1.next.ge, hm.mem.destroyed_of_subset hq.2.mem hq.1.next fun b hb => ?_⟩
    rw [List.map_append]
    exact List.mem_append_right _ hb
  exact ⟨hs, F, ⟨hq.2, okAll_iff.mpr hF⟩, hQ⟩

/-- A new tree stands in front of the forest. -/
theorem construct {alloc : AllocatorId} {f : Addr → HeapM β}
    (hf : ∀ a, Leads (f a) (node a ⟨alloc, .jsonNull⟩ [] :: F) P R) :
    Leads (Memory.construct alloc >>= f) F P R := fun h hi => by
  unfold Memory.construct
  rw [ends_bind, ends_bind, ends_get, ends_bind, ends_set]
  refine later ⟨Nat.le_succ _, fun _ hb => hb⟩ (hf h.next _ ⟨⟨?_, ?_, hi.links⟩, okAll_iff.mpr ?_⟩)
  · rw [cellsAll_cons, cells_node, cellsAll_nil]
    exact hi.mem.construct _
  · -- nothing is behind a null
    rw [cellsAll_cons, cells_node, cellsAll_nil]
    unfold Balanced
    rw [List.singleton_append, blocks_cons]
    exact hi.balance
  · rw [List.forall_mem_cons]
    exact ⟨ok_leaf rfl, okAll_iff.mp hi.ok⟩

/-- A local is gone when its scope is left. -/
theorem withLocal {alloc : AllocatorId} {body : Addr → HeapM α}
    (hbody : ∀ a, Leads (body a) (node a ⟨alloc, .jsonNull⟩ [] :: F)
      (fun v F' => ∃ n cs G, F' = node a n cs :: G ∧ Q v G)
      fun e F' => ∃ n cs G, F' = node a n cs :: G ∧ R e G) :
    Leads (Memory.withLocal alloc body) F Q R := by
  unfold Memory.withLocal
  refine construct fun a => bind (catchRethrow ?_)
  refine (hbody a).mono (fun v F' hq => ?_) fun e F' hr => ?_
  · obtain ⟨n, cs, G, rfl, hQ⟩ := hq
    exact bind (destroyNode (pure hQ))
  · obtain ⟨n, cs, G, rfl, hR⟩ := hr
    exact destroyNode hR

/-- A node held by an `OwnedNode` is gone if an exception leaves its scope. -/
theorem withOwned {alloc : AllocatorId} {body : Addr → HeapM α}
    (hbody : ∀ a, Leads (body a) (node a ⟨alloc, .jsonNull⟩ [] :: F) Q
      fun e F' => ∃ n cs G, F' = node a n cs :: G ∧ R e G)
    (hR : ∀ k, M.fails k = true → R .badAlloc F) : Leads (Memory.withOwned M alloc body) F Q R := by
  unfold Memory.withOwned
  refine allocate (construct fun a => catchRethrow ?_) hR
  refine (hbody a).mono (fun v F' hq => hq) fun e F' hr => ?_
  obtain ⟨n, cs, G, rfl, hR⟩ := hr
  exact destroyNode hR

/-! ### Storage -/

/-- A node exchanges its value with a root. -/
theorem swapRoot {Q : Unit → List NodeTree → Prop} {l : Addr} {nl : Node} {ls : List NodeTree}
    (hp : IsPlace F (node a n cs) fill rest) (halloc : nl.alloc = n.alloc)
    (hQ : Q () (node l { nl with impl := n.impl } cs :: fill (node a { n with impl := nl.impl } ls))) :
    Leads (swapStorage a l) (node l nl ls :: F) Q R := fun h hi => by
  obtain ⟨hne, hswap⟩ := Memory.swapRoot hi.owns hp halloc
  have hl : h.nodes l = some nl := hi.mem.holds.iff.mpr (by simp)
  have ha : h.nodes a = some n := hi.owns.place_data (hp.cons _)
  rw [ends_swapStorage ha hl hne.symm]
  exact ⟨⟨le_refl _, fun _ hb => hb⟩, _, hi.swapped ha hl hne.symm halloc.symm hswap, hQ⟩

/-- A root exchanges its value with a node. -/
theorem rootSwap {Q : Unit → List NodeTree → Prop} {l : Addr} {nl : Node} {ls : List NodeTree}
    (hp : IsPlace F (node a n cs) fill rest) (halloc : nl.alloc = n.alloc)
    (hQ : Q () (node l { nl with impl := n.impl } cs :: fill (node a { n with impl := nl.impl } ls))) :
    Leads (swapStorage l a) (node l nl ls :: F) Q R := fun h hi => by
  obtain ⟨hne, hswap⟩ := Memory.swapRoot hi.owns hp halloc
  have hl : h.nodes l = some nl := hi.mem.holds.iff.mpr (by simp)
  have ha : h.nodes a = some n := hi.owns.place_data (hp.cons _)
  rw [ends_swapStorage hl ha hne]
  rw [Function.update_comm hne] at hswap
  exact ⟨⟨le_refl _, fun _ hb => hb⟩, _, hi.swapped hl ha hne halloc hswap, hQ⟩

/-- A root that is null gets the two blocks, and takes the initial value. -/
theorem build {f : Unit → HeapM β} {type : JsonType} {l : Addr} {alloc : AllocatorId}
    (hnull : type ≠ .jsonNull) (hf : Leads (f ()) (node l ⟨alloc, type.initial⟩ [] :: F) P R)
    (hR : ∀ k, M.fails k = true → R .badAlloc (node l ⟨alloc, .jsonNull⟩ [] :: F)) :
    Leads (do
      allocateDomObject M alloc .ImplementationAllocation
      Memory.catchRethrow (allocateWrapper M alloc type) (deallocate alloc .ImplementationAllocation)
      Memory.store l type.initial
      f ()) (node l ⟨alloc, .jsonNull⟩ [] :: F) P R := fun h hi => by
  have hcells : ∀ n : Node, cellsAll (node l n [] :: F) = (l, n) :: cellsAll F := fun n => by
    rw [cellsAll_cons, cells_node, cellsAll_nil, List.singleton_append]
  have hinitial : type.initial.children = [] := by cases type <;> rfl
  rw [← bind_assoc, ends_bind]
  refine (allocateStorage_ends alloc type h).mono (fun _ h' hq => ?_) fun e h' he => ?_
  · obtain ⟨hsame, hledger⟩ := hq
    have hm := hi.mem
    have hb := hi.balance
    rw [hcells] at hm hb
    have hl : h'.nodes l = some ⟨alloc, .jsonNull⟩ := by
      rw [hsame.nodes]
      exact hm.holds.iff.mpr List.mem_cons_self
    rw [ends_bind, ends_store hl]
    refine later ⟨hsame.next.ge, fun b hb => hsame.destroyed ▸ hb⟩ (hf _ ⟨⟨?_, ?_, ?_⟩, ?_⟩)
    · have hstored := hm.store ⟨alloc, type.initial⟩
      rw [hcells]
      refine ⟨hsame.nodes ▸ hstored.holds, ?_⟩
      show (_ ++ h'.destroyed).Perm (List.range h'.next)
      rw [hsame.next, hsame.destroyed]
      exact hstored.census
    · -- what has been allocated is behind the initial value
      show h'.ledger.Perm _
      rw [hledger, hcells, blocks_cons, blocks_initial hnull, List.append_assoc]
      exact (List.Perm.cons _ hb.head).append_left _
    · exact hsame.links ▸ hi.links
    · exact okAll_iff.mpr (List.forall_mem_cons.mpr
        ⟨ok_leaf hinitial, (List.forall_mem_cons.mp (okAll_iff.mp hi.ok)).2⟩)
  · obtain ⟨rfl, ⟨k, hk⟩, hsame, hledger⟩ := he
    exact ⟨hsame.since, _, hi.of_same hsame (hledger ▸ hi.balance), hR k hk⟩

/-- A node takes an initial value, or stays as it is. -/
theorem resetTo {Q : Unit → List NodeTree → Prop} {type : JsonType}
    (hp : IsPlace F (node a n cs) fill rest)
    (hQ : Q () (fill (node a { n with impl := type.initial } [])))
    (hR : ∀ k, M.fails k = true → R .badAlloc F) : Leads (Memory.resetTo M a type) F Q R := by
  unfold Memory.resetTo
  refine ite (fun hnull => ?_) fun hnull => ?_
  · subst hnull
    exact reset hp hQ
  · refine load (hp.fill_self ▸ hp.mem_cells _ (by simp : (a, n) ∈ _)) (withLocal fun l => ?_)
    exact build (f := fun _ => swapStorage a l) hnull (swapRoot hp rfl ⟨_, _, _, rfl, hQ⟩)
      fun k hk => ⟨_, _, _, rfl, hR k hk⟩

end Leads

end Memory

end ByteDance
