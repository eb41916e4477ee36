/-
  The deep copy, `_copyContentsInto`.

  `value t` is what a tree of nodes denotes.  The copy walks the source with a stack of pairs of a source
  and a destination.  A destination is attached to its parent before it is filled: until its turn
  comes it is a `draft`, complete if the source is a scalar and an empty container if not.  `pend` are
  the pairs that a row of drafts leaves on the stack.

  The crux is `fills`, an induction on the source tree: the loop fills the draft on top of the stack and
  goes on with the rest of the stack, whatever that is.  A failure at any moment leaves the tree that has
  been built so far at the place of the destination, and `Leads.copyContentsInto` says that it is gone
  when the exception leaves the function.
-/
import Pjson.Memory.Rules

namespace ByteDance

open Run Ownership Owned

/-- What an implementation denotes, given what its children do. -/
def Impl.denote (impl : Impl) (children : List Pjson) : Pjson :=
  match impl with
  | .jsonNull => .jsonNull
  | .jsonString value => .jsonString value
  | .jsonNumberInt value => .jsonNumberInt value
  | .jsonNumberDouble value => .jsonNumberDouble value
  | .jsonBoolean value => .jsonBoolean value
  | .jsonArray _ => .jsonArray children
  | .jsonObject object => .jsonObject ((Assoc.keys object.members).zip children)
  | .jsonNumberUInt value => .jsonNumberUInt value

namespace Memory

mutual
/-- What a tree of nodes denotes. -/
def value : NodeTree → Pjson
  | .node _ n cs => n.impl.denote (values cs)
def values : List NodeTree → List Pjson
  | [] => []
  | t :: ts => value t :: values ts
end

theorem values_eq_map (ts : List NodeTree) : values ts = ts.map value := by
  induction ts with
  | nil => rw [values, List.map_nil]
  | cons t ts ih => rw [values, ih, List.map_cons]

theorem value_node (a : Addr) (n : Node) (cs : List NodeTree) :
    value (node a n cs) = n.impl.denote (cs.map value) := by
  rw [value, values_eq_map]

variable {M : Machine} {F G : List NodeTree} {a d s : Addr} {n nd ns : Node} {cs ds : List NodeTree}
  {fill : NodeTree → List NodeTree} {rest : List (Addr × Node)} {α : Type}
  {R : HeapExit → List NodeTree → Prop}

/-! ## Scalars and slots -/

theorem Leads.assignValue {Q : Unit → List NodeTree → Prop} {v : Impl}
    (hp : IsPlace F (node a n cs) fill rest) (htype : n.impl.eType = v.eType)
    (hscalar : v.isContainer = false) (hQ : Q () (fill (node a { n with impl := v } [])))
    (hR : ∀ k, M.fails k = true → R .badAlloc F) : Leads (Memory.assignValue M a v) F Q R := by
  refine Leads.sound fun hs => ?_
  have hok := (hp.ok rfl rfl (hp.fill_self.symm ▸ hs.ok)).1
  have hleaf : n.impl.children = [] ∧ (v = .jsonNull → n.impl = .jsonNull) := by
    revert htype hscalar
    cases n.impl <;> cases v <;> simp [Impl.eType, Impl.isContainer, Impl.children]
  have hnil := eq_nil_of_children hok hleaf.1
  subst hnil
  have hv : v.children = [] := by
    revert hscalar
    cases v <;> simp [Impl.isContainer, Impl.children]
  have hcell : (a, n) ∈ cellsAll F := hp.fill_self ▸ hp.mem_cells _ (by simp)
  have hstore : Leads (Memory.store a v) F Q R := Leads.write (D := []) hp hv (List.Perm.refl _)
    htype.symm hQ
  unfold Memory.assignValue
  refine Leads.load hcell ?_
  rw [if_neg (not_not.mpr htype)]
  cases v with
  | jsonNull =>
    have hself : ({ n with impl := .jsonNull } : Node) = n := by rw [← hleaf.2 rfl]
    rw [hself, hp.fill_self] at hQ
    exact Leads.pure hQ
  | jsonString text => exact Leads.allocate hstore hR
  | _ => exact hstore

/-- A scalar is copied whole, or the destination is null. -/
theorem Leads.copyScalarInto {Q : Unit → List NodeTree → Prop} (hp : IsPlace G (node d nd ds) fill rest)
    (hs : (s, ns) ∈ rest) (hscalar : ns.impl.isContainer = false)
    (hQ : Q () (fill (node d { nd with impl := ns.impl } [])))
    (hR : ∀ k, M.fails k = true → R .badAlloc (fill (node d { nd with impl := .jsonNull } []))) :
    Leads (Memory.copyScalarInto M d s) G Q R := by
  unfold Memory.copyScalarInto
  refine Leads.catchRethrow (Leads.load (hp.fill_self ▸ hp.mem_rest hs _) (Leads.bind ?_))
  refine Leads.resetTo hp ?_ fun k hk => Leads.reset hp (hR k hk)
  have hp' := hp.refill (u := node d { nd with impl := ns.impl.eType.initial } []) rfl
  exact Leads.assignValue hp' (eType_initial _) hscalar hQ fun k hk => Leads.reset hp' (hR k hk)

theorem Leads.elements {f : List Addr → HeapM α} {Q : α → List NodeTree → Prop} {es : List Addr}
    (ha : (a, n) ∈ cellsAll F) (hn : n.impl = .jsonArray es) (hf : Leads (f es) F Q R) :
    Leads (Memory.elements a >>= f) F Q R := by
  unfold Memory.elements
  rw [bind_assoc]
  refine Leads.load ha ?_
  rw [hn]
  exact Leads.bind (Leads.pure hf)

theorem Leads.members {f : ObjectStorage → HeapM α} {Q : α → List NodeTree → Prop} {o : ObjectStorage}
    (ha : (a, n) ∈ cellsAll F) (hn : n.impl = .jsonObject o) (hf : Leads (f o) F Q R) :
    Leads (Memory.members a >>= f) F Q R := by
  unfold Memory.members
  rw [bind_assoc]
  refine Leads.load ha ?_
  rw [hn]
  exact Leads.bind (Leads.pure hf)

/-- A root becomes the last element of an array that has room for it. -/
theorem Leads.pushReserved {Q : Unit → List NodeTree → Prop} {t : NodeTree}
    (hp : IsPlace F (node a n cs) fill rest) (hn : n.impl = .jsonArray (cs.map addr))
    (halloc : t.data.alloc = n.alloc)
    (hQ : Q () (fill (node a { n with impl := .jsonArray ((cs ++ [t]).map addr) } (cs ++ [t])))) :
    Leads (Memory.pushReserved a t.addr) (t :: F) Q R := by
  refine Leads.sound fun hs => ?_
  have hok := (hp.ok rfl rfl (hp.fill_self.symm ▸
    okAll_iff.mpr (List.forall_mem_cons.mp (okAll_iff.mp hs.ok)).2)).1
  have hcell : (a, n) ∈ cellsAll (t :: F) := by
    rw [cellsAll_cons]
    exact List.mem_append_right _ (hp.fill_self ▸ hp.mem_cells _ (by simp))
  unfold Memory.pushReserved
  refine Leads.elements hcell hn ?_
  rw [show cs.map addr ++ [t.addr] = (cs ++ [t]).map addr by rw [List.map_append]; rfl]
  refine Leads.store (G := [t]) (H := []) hp (by rw [List.append_nil]) rfl (fun c hc => ?_)
    (by rw [hn]; rfl) hQ
  rcases List.mem_append.mp hc with hc | hc
  · exact (ok_node.mp hok).2.1 c hc
  · rw [List.mem_singleton.mp hc]
    exact halloc

/-- A root becomes the member of a key that is not there. -/
theorem Leads.insertSlot {Q : Option Addr → List NodeTree → Prop} {t : NodeTree} {o : ObjectStorage}
    {key : Bytes} (hp : IsPlace F (node a n cs) fill rest) (hn : n.impl = .jsonObject o)
    (hkey : o.find key = none) (halloc : t.data.alloc = n.alloc)
    (hQ : Q none (fill (node a { n with impl := .jsonObject (o.insert key t.addr) } (cs ++ [t]))))
    (hR : ∀ k, M.fails k = true → R .badAlloc (t :: F)) :
    Leads (Memory.insertSlot M a key t.addr) (t :: F) Q R := by
  refine Leads.sound fun hs => ?_
  have hok := (hp.ok rfl rfl (hp.fill_self.symm ▸
    okAll_iff.mpr (List.forall_mem_cons.mp (okAll_iff.mp hs.ok)).2)).1
  obtain ⟨hslots, htags, -⟩ := ok_node.mp hok
  have hcell : (a, n) ∈ cellsAll (t :: F) := by
    rw [cellsAll_cons]
    exact List.mem_append_right _ (hp.fill_self ▸ hp.mem_cells _ (by simp))
  have hmembers : (o.insert key t.addr).members = o.members ++ [(key, t.addr)] :=
    Assoc.assign_of_notMem (Assoc.find_eq_none_iff.mp hkey)
  unfold Memory.insertSlot
  refine Leads.members hcell hn (Leads.allocate (Leads.allocate ?_ hR) hR)
  rw [hkey]
  refine Leads.bind (Leads.store (G := [t]) (H := []) hp (by rw [List.append_nil]) ?_ (fun c hc => ?_)
    (by rw [hn]; rfl) (Leads.pure hQ))
  · have hold : o.members.map Prod.snd = cs.map addr := by
      rw [← hslots, show Slotted.slots n = n.impl.children from rfl, hn]
      rfl
    show (o.insert key t.addr).members.map Prod.snd = _
    rw [hmembers, List.map_append, hold, List.map_append]
    rfl
  · rcases List.mem_append.mp hc with hc | hc
    · exact htags c hc
    · rw [List.mem_singleton.mp hc]
      exact halloc

/-! ## Drafts -/

/-- A copy before its turn: a scalar is complete, a container still empty. -/
def draft (alloc : AllocatorId) (s : NodeTree) (c : Addr) : NodeTree :=
  node c ⟨alloc, s.data.impl.cleared⟩ []

/-- A row of drafts, from pairs of a source and an address. -/
def drafts (alloc : AllocatorId) (ps : List (NodeTree × Addr)) : List NodeTree :=
  ps.map fun p => draft alloc p.1 p.2

/-- The stack after a row of drafts has been attached. -/
def pend : List (NodeTree × Addr) → List (Addr × Addr) → List (Addr × Addr)
  | [], work => work
  | (s, c) :: ps, work => pend ps (if s.data.impl.isContainer then (s.addr, c) :: work else work)

theorem pend_append (ps qs : List (NodeTree × Addr)) (work : List (Addr × Addr)) :
    pend (ps ++ qs) work = pend qs (pend ps work) := by
  induction ps generalizing work with
  | nil => rfl
  | cons p ps ih => exact ih _

theorem cleared_scalar {impl : Impl} (h : impl.isContainer = false) : impl.cleared = impl := by
  revert h
  cases impl <;> simp [Impl.isContainer, Impl.cleared]

theorem cleared_container {impl : Impl} (h : impl.isContainer = true) :
    impl.eType.initial = impl.cleared := by
  revert h
  cases impl <;> simp [Impl.isContainer, Impl.cleared, Impl.eType, JsonType.initial]

/-- A scalar's draft is a copy of it. -/
theorem value_draft {alloc : AllocatorId} {s : NodeTree} {c : Addr}
    (h : s.data.impl.isContainer = false) : value (draft alloc s c) = value s := by
  rw [draft, cleared_scalar h]
  obtain ⟨a, n, cs⟩ := s
  rw [value_node, value_node]
  rw [data_node] at h ⊢
  revert h
  cases n.impl <;> simp [Impl.isContainer, Impl.denote]

/-- The end of a round: the attached child is a draft of its source. -/
theorem Leads.copyChild {Q : List (Addr × Addr) → List NodeTree → Prop} {s : NodeTree} {c : Addr}
    {alloc : AllocatorId} {work : List (Addr × Addr)}
    (hp : IsPlace G (node c ⟨alloc, s.data.impl.eType.initial⟩ []) fill rest)
    (hs : (s.addr, s.data) ∈ rest) (hQ : Q (pend [(s, c)] work) (fill (draft alloc s c)))
    (hR : ∀ k, M.fails k = true → ∀ impl, impl.children = [] →
      R .badAlloc (fill (node c ⟨alloc, impl⟩ []))) :
    Leads (Memory.copyChild M s.addr c work) G Q R := by
  have hinitial : s.data.impl.eType.initial.children = [] := by cases s.data.impl.eType <;> rfl
  unfold Memory.copyChild
  refine Leads.load (hp.fill_self ▸ hp.mem_rest hs _) (Leads.ite (fun hc => ?_) fun hc => ?_)
  · refine Leads.allocate (Leads.pure ?_) fun k hk => hp.fill_self ▸ hR k hk _ hinitial
    rw [draft, ← cleared_container hc, hp.fill_self] at hQ
    simpa only [pend, hc, if_true] using hQ
  · have hscalar : s.data.impl.isContainer = false := by simpa using hc
    refine Leads.bind (Leads.copyScalarInto hp hs hscalar (Leads.pure ?_) fun k hk => hR k hk _ rfl)
    rw [draft, cleared_scalar hscalar] at hQ
    simpa only [pend, hscalar, Bool.false_eq_true, if_false] using hQ

/-- The loop over the elements of an array attaches a row of drafts. -/
theorem Leads.copyElements {Q : List (Addr × Addr) → List NodeTree → Prop} {alloc : AllocatorId}
    (ss : List NodeTree) {G : List NodeTree} {ds : List NodeTree} {work : List (Addr × Addr)}
    (hp : IsPlace G (node d ⟨alloc, .jsonArray (ds.map addr)⟩ ds) fill rest)
    (hs : ∀ s ∈ ss, (s.addr, s.data) ∈ rest)
    (hQ : ∀ ps, ps.map Prod.fst = ss → Q (pend ps work)
      (fill (node d ⟨alloc, .jsonArray ((ds ++ drafts alloc ps).map addr)⟩ (ds ++ drafts alloc ps))))
    (hR : ∀ k t, M.fails k = true → t.key = (d, alloc) → R .badAlloc (fill t)) :
    Leads (Memory.copyElements M d (ss.map addr) work) G Q R := by
  induction ss generalizing G ds work with
  | nil =>
    have hnil := hQ [] rfl
    rw [drafts, List.map_nil, List.append_nil, hp.fill_self] at hnil
    exact Leads.pure hnil
  | cons s ss ih =>
    rw [List.forall_mem_cons] at hs
    have hdst : (d, (⟨alloc, .jsonArray (ds.map addr)⟩ : Node)) ∈ cellsAll G :=
      hp.fill_self ▸ hp.mem_cells _ (by simp)
    have hsource : (s.addr, s.data) ∈ cellsAll G := hp.fill_self ▸ hp.mem_rest hs.1 _
    rw [List.map_cons, Memory.copyElements]
    have hfail : ∀ k, M.fails k = true → R .badAlloc G := fun k hk => hp.fill_self ▸ hR k _ hk rfl
    refine Leads.load hdst (Leads.bind (Leads.withOwned (fun c => ?_) hfail))
    have hin : ∀ {x : Addr × Node} {t : NodeTree}, x ∈ cellsAll G → x ∈ cellsAll (t :: G) := by
      intro x t hx
      rw [cellsAll_cons]
      exact List.mem_append_right _ hx
    have hroot := (IsPlace.root (node c (⟨alloc, .jsonNull⟩ : Node) [])).around [] G
    rw [List.nil_append, List.singleton_append] at hroot
    refine Leads.load (hin hsource) (Leads.bind (Leads.resetTo hroot ?_ fun k hk =>
      ⟨_, _, _, rfl, hfail k hk⟩))
    refine Leads.bind (Leads.pushReserved (t := node c ⟨alloc, s.data.impl.eType.initial⟩ []) hp rfl rfl
      (Leads.pure ?_))
    -- the child is attached: the rest of the round is about the place it has now
    let child : NodeTree := node c ⟨alloc, s.data.impl.eType.initial⟩ []
    have hat := hp.refill (u := node d ⟨alloc, .jsonArray ((ds ++ [child]).map addr)⟩
      (ds ++ child :: [])) rfl
    refine Leads.bind (Leads.copyChild hat.child (List.mem_append_left _ hs.1) ?_ fun k hk impl _ =>
      hR k _ hk rfl)
    have hrow : ∀ t : NodeTree, t.addr = c → (ds ++ [child]).map addr = (ds ++ [t]).map addr := by
      rintro t rfl
      rw [List.map_append, List.map_append]
      rfl
    rw [hrow (draft alloc s c) rfl]
    refine ih (hp.refill rfl) hs.2 fun ps hps => ?_
    have hnext := hQ ((s, c) :: ps) (by rw [List.map_cons, hps])
    rw [List.append_assoc]
    exact hnext

/-- The loop over the members of an object attaches a row of drafts under the same keys. -/
theorem Leads.copyMembers {Q : List (Addr × Addr) → List NodeTree → Prop} {alloc : AllocatorId}
    (ms : List (Bytes × Addr)) (ss : List NodeTree) {G : List NodeTree} {ds : List NodeTree}
    {work : List (Addr × Addr)} {o : ObjectStorage}
    (hp : IsPlace G (node d ⟨alloc, .jsonObject o⟩ ds) fill rest)
    (hms : ms.map Prod.snd = ss.map addr) (hs : ∀ s ∈ ss, (s.addr, s.data) ∈ rest)
    (hkeys : (Assoc.keys o.members ++ Assoc.keys ms).Nodup)
    (hQ : ∀ ps o', ps.map Prod.fst = ss →
      o'.members = o.members ++ (Assoc.keys ms).zip (ps.map Prod.snd) →
      Q (pend ps work) (fill (node d ⟨alloc, .jsonObject o'⟩ (ds ++ drafts alloc ps))))
    (hR : ∀ k t, M.fails k = true → t.key = (d, alloc) → R .badAlloc (fill t)) :
    Leads (Memory.copyMembers M d ms work) G Q R := by
  induction ss generalizing G ds work o ms with
  | nil =>
    have hnone : ms = [] := List.map_eq_nil_iff.mp hms
    subst hnone
    have hnil := hQ [] o rfl (by simp)
    rw [drafts, List.map_nil, List.append_nil, hp.fill_self] at hnil
    exact Leads.pure hnil
  | cons s ss ih =>
    cases ms with
    | nil => simp at hms
    | cons m ms =>
      obtain ⟨key, elem⟩ := m
      rw [List.map_cons, List.map_cons, List.cons.injEq] at hms
      obtain ⟨rfl, hms⟩ := hms
      rw [List.forall_mem_cons] at hs
      have hdst : (d, (⟨alloc, .jsonObject o⟩ : Node)) ∈ cellsAll G :=
        hp.fill_self ▸ hp.mem_cells _ (by simp)
      have hsource : (s.addr, s.data) ∈ cellsAll G := hp.fill_self ▸ hp.mem_rest hs.1 _
      have hnew : o.find key = none := by
        refine Assoc.find_eq_none_iff.mpr fun hmem => ?_
        exact (List.nodup_append.mp hkeys).2.2 key hmem key (List.mem_cons_self ..) rfl
      have hmembers : ∀ c, (o.insert key c).members = o.members ++ [(key, c)] := fun c =>
        Assoc.assign_of_notMem (Assoc.find_eq_none_iff.mp hnew)
      rw [Memory.copyMembers]
      have hfail : ∀ k, M.fails k = true → R .badAlloc G := fun k hk => hp.fill_self ▸ hR k _ hk rfl
      refine Leads.load hdst (Leads.bind (Leads.withOwned (fun c => ?_) hfail))
      have hin : ∀ {x : Addr × Node} {t : NodeTree}, x ∈ cellsAll G → x ∈ cellsAll (t :: G) := by
        intro x t hx
        rw [cellsAll_cons]
        exact List.mem_append_right _ hx
      have hroot := (IsPlace.root (node c (⟨alloc, .jsonNull⟩ : Node) [])).around [] G
      rw [List.nil_append, List.singleton_append] at hroot
      refine Leads.load (hin hsource) (Leads.bind (Leads.resetTo hroot ?_ fun k hk =>
        ⟨_, _, _, rfl, hfail k hk⟩))
      let child : NodeTree := node c ⟨alloc, s.data.impl.eType.initial⟩ []
      refine Leads.bind (Leads.insertSlot (t := child) hp rfl hnew rfl (Leads.pure ?_) fun k hk =>
        ⟨_, _, _, rfl, hfail k hk⟩)
      -- the child is attached: the rest of the round is about the place it has now
      have hat := hp.refill (u := node d ⟨alloc, .jsonObject (o.insert key c)⟩ (ds ++ child :: [])) rfl
      refine Leads.bind (Leads.copyChild hat.child (List.mem_append_left _ hs.1) ?_ fun k hk impl _ =>
        hR k _ hk rfl)
      refine ih ms (hp.refill rfl) hms hs.2 ?_ fun ps o' hps ho' => ?_
      · rw [hmembers, Assoc.keys, List.map_append, List.append_assoc]
        exact hkeys
      · have hnext := hQ ((s, c) :: ps) o' (by rw [List.map_cons, hps]) (by
          rw [ho', hmembers, List.append_assoc]
          rfl)
        rw [List.append_assoc]
        exact hnext

/-! ## The walk -/

/-- The tree stands beside the place. -/
structure Beside (s : NodeTree) (rest : List (Addr × Node)) : Prop where
  ok : s.Ok
  cells : ∀ c ∈ s.cells, c ∈ rest

theorem Beside.child {s c : NodeTree} (h : Beside s rest) (hc : c ∈ s.children) : Beside c rest := by
  obtain ⟨a, n, cs⟩ := s
  refine ⟨(ok_node.mp h.ok).2.2 c hc, fun x hx => h.cells x ?_⟩
  rw [cells_node]
  exact List.mem_cons_of_mem _ (mem_cellsAll.mpr ⟨c, hc, hx⟩)

theorem Beside.mono {s : NodeTree} {rest' : List (Addr × Node)} (h : Beside s rest)
    (hsub : ∀ c ∈ rest, c ∈ rest') : Beside s rest' := ⟨h.ok, fun c hc => hsub c (h.cells c hc)⟩

/-- The tree is a copy of the source at the address, in the domain of the allocator. -/
structure IsCopy (s : NodeTree) (d : Addr) (alloc : AllocatorId) (t : NodeTree) : Prop where
  key : t.key = (d, alloc)
  value : value t = value s

/-- What the loop does with the pair on top of its stack. -/
def Fills (M : Machine) (s : NodeTree) : Prop :=
  ∀ {d : Addr} {alloc : AllocatorId} {G : List NodeTree} {fill : NodeTree → List NodeTree}
    {rest : List (Addr × Node)} {work : List (Addr × Addr)} {fuel left : Nat}
    {Q : Unit → List NodeTree → Prop} {R : HeapExit → List NodeTree → Prop},
    s.data.impl.isContainer = true → Beside s rest → IsPlace G (draft alloc s d) fill rest →
    s.cells.length + left ≤ fuel →
    (∀ fuel' ≥ left, ∀ t, IsCopy s d alloc t → Leads (copyLoop M fuel' work) (fill t) Q R) →
    (∀ k t, M.fails k = true → t.key = (d, alloc) → R .badAlloc (fill t)) →
    Leads (copyLoop M fuel ((s.addr, d) :: work)) G Q R

/-- The loop fills a row of drafts, the last one first. -/
theorem fills_row {alloc : AllocatorId} {Q : Unit → List NodeTree → Prop} {nd : Node}
    {work : List (Addr × Addr)} {left : Nat} (hd : nd.alloc = alloc) (ps : List (NodeTree × Addr))
    (ih : ∀ p ∈ ps, Fills M p.1) {dones : List NodeTree} {G : List NodeTree} {fuel : Nat}
    (hbeside : ∀ p ∈ ps, Beside p.1 rest)
    (hp : IsPlace G (node d nd (drafts alloc ps ++ dones)) fill rest)
    (hfuel : (ps.map fun p => p.1.cells.length).sum + left ≤ fuel)
    (hQ : ∀ fuel' ≥ left, ∀ ts, List.Forall₂ (fun p t => IsCopy p.1 p.2 alloc t) ps ts →
      Leads (copyLoop M fuel' work) (fill (node d nd (ts ++ dones))) Q R)
    (hR : ∀ k t, M.fails k = true → t.key = (d, alloc) → R .badAlloc (fill t)) :
    Leads (copyLoop M fuel (pend ps work)) G Q R := by
  induction ps using List.reverseRecOn generalizing dones G fuel with
  | nil =>
    rw [← hp.fill_self]
    exact hQ fuel (by simpa using hfuel) [] .nil
  | append_singleton ps p hrow =>
    obtain ⟨s, c⟩ := p
    rw [List.forall_mem_append, List.forall_mem_singleton] at ih hbeside
    rw [List.map_append, List.sum_append, List.map_singleton, List.sum_singleton] at hfuel
    have hsplit : drafts alloc (ps ++ [(s, c)]) ++ dones = drafts alloc ps ++ draft alloc s c :: dones := by
      rw [drafts, List.map_append, List.append_assoc]
      rfl
    rw [hsplit] at hp
    -- with the last one done, the others are a row with more behind it
    have hothers : ∀ fuel' ≥ (ps.map fun p => p.1.cells.length).sum + left, ∀ t, IsCopy s c alloc t →
        Leads (copyLoop M fuel' (pend ps work)) (fill (node d nd (drafts alloc ps ++ t :: dones))) Q R := by
      intro fuel' hfuel' t ht
      refine hrow ih.1 hbeside.1 (hp.refill rfl) hfuel' fun fuel'' hfuel'' ts hts => ?_
      have hdone := hQ fuel'' hfuel'' (ts ++ [t]) (List.rel_append hts (.cons ht .nil))
      rwa [List.append_assoc] at hdone
    rw [pend_append, pend, pend]
    by_cases hc : s.data.impl.isContainer = true
    · rw [if_pos hc]
      have hmore : ∀ c' ∈ rest, c' ∈ rest ++ (d, nd) :: (cellsAll (drafts alloc ps) ++ cellsAll dones) :=
        fun c' hc' => List.mem_append_left _ hc'
      refine ih.2 hc (hbeside.2.mono hmore) hp.child (by omega) hothers fun k t hk _ => ?_
      exact hR k _ hk (by rw [key_node, show Slotted.tag nd = nd.alloc from rfl, hd])
    · rw [if_neg hc, ← hp.fill_self]
      have hscalar : s.data.impl.isContainer = false := by simpa using hc
      exact hothers fuel (by omega) _ ⟨rfl, value_draft hscalar⟩

/-- The rows of a container's drafts, filled, are copies of its children. -/
theorem values_of_copies {alloc : AllocatorId} {ps : List (NodeTree × Addr)} {ts : List NodeTree}
    (h : List.Forall₂ (fun p t => IsCopy p.1 p.2 alloc t) ps ts) :
    ts.map value = (ps.map Prod.fst).map value ∧ ts.map addr = ps.map Prod.snd := by
  induction h with
  | nil => exact ⟨rfl, rfl⟩
  | cons hpt _ ih =>
    rw [List.map_cons, List.map_cons, List.map_cons, List.map_cons, List.map_cons, hpt.value, ih.1, ih.2]
    exact ⟨rfl, congrArg (· :: _) (congrArg Prod.fst hpt.key)⟩

theorem sum_cells (ts : List NodeTree) :
    (ts.map fun t => t.cells.length).sum = (cellsAll ts).length := by
  induction ts with
  | nil => rfl
  | cons t ts ih => rw [List.map_cons, List.sum_cons, ih, cellsAll_cons, List.length_append]

/-- **The loop fills the draft on top of its stack.** -/
theorem fills (s : NodeTree) : Fills M s := by
  induction s using Owned.induct with
  | node a n cs ih =>
    intro d alloc G fill rest work fuel left Q R hc hs hp hfuel hQ hR
    have hslots : n.impl.children = cs.map addr := (ok_node.mp hs.ok).1
    rw [cells_node, List.length_cons] at hfuel
    obtain ⟨fuel, rfl⟩ : ∃ fuel', fuel = fuel' + 1 := Nat.exists_eq_succ_of_ne_zero (by omega)
    have hload : (a, n) ∈ cellsAll G := hp.fill_self ▸ hp.mem_rest (hs.cells _ (by simp)) _
    have hchildren : ∀ c ∈ cs, (c.addr, c.data) ∈ rest := fun c hmem =>
      (hs.child hmem).cells _ c.root_mem_cells
    -- what is left to do when the drafts are attached
    have hrow : ∀ (ps : List (NodeTree × Addr)) (impl : Impl), ps.map Prod.fst = cs →
        (∀ ts : List NodeTree, ts.map value = cs.map value → ts.map addr = ps.map Prod.snd →
          impl.denote (ts.map value) = n.impl.denote (cs.map value)) →
        Leads (copyLoop M fuel (pend ps work))
          (fill (node d ⟨alloc, impl⟩ ([] ++ drafts alloc ps))) Q R := by
      intro ps impl hps hdenote
      have hmem : ∀ p ∈ ps, p.1 ∈ cs := fun p hpmem => hps ▸ List.mem_map.mpr ⟨p, hpmem, rfl⟩
      have hsum : (ps.map fun p => p.1.cells.length).sum = (cellsAll cs).length := by
        rw [← hps, ← sum_cells, List.map_map]
        rfl
      have hplace : IsPlace (fill (node d ⟨alloc, impl⟩ (drafts alloc ps)))
          (node d ⟨alloc, impl⟩ (drafts alloc ps ++ [])) fill rest := by
        rw [List.append_nil]
        exact hp.refill rfl
      rw [List.nil_append]
      have hfuel' : (ps.map fun p => p.1.cells.length).sum + left ≤ fuel := by rw [hsum]; omega
      refine fills_row rfl ps (fun p hpmem => ih p.1 (hmem p hpmem))
        (fun p hpmem => hs.child (hmem p hpmem)) hplace hfuel' (fun fuel'' hle ts hts => ?_) hR
      obtain ⟨hvalues, haddrs⟩ := values_of_copies hts
      rw [hps] at hvalues
      rw [List.append_nil]
      refine hQ fuel'' hle _ ⟨rfl, ?_⟩
      rw [value_node, value_node]
      exact hdenote ts hvalues haddrs
    rw [addr_node, copyLoop]
    refine Leads.load hload ?_
    rw [data_node] at hc
    cases hi : n.impl with
    | jsonArray es =>
      have hes : es = cs.map addr := by rw [← hslots, hi]; rfl
      subst hes
      have hempty : IsPlace G (node d ⟨alloc, .jsonArray (([] : List NodeTree).map addr)⟩ []) fill rest := by
        have hdraft := hp
        rw [draft, data_node, hi] at hdraft
        exact hdraft
      refine Leads.allocate (Leads.bind ?_) fun k hk => hempty.fill_self ▸ hR k _ hk rfl
      refine Leads.copyElements cs hempty hchildren (fun ps hps => ?_) hR
      refine hrow ps _ hps fun ts hts _ => ?_
      rw [hi, Impl.denote, Impl.denote, hts]
    | jsonObject o =>
      have hms : o.members.map Prod.snd = cs.map addr := by rw [← hslots, hi]; rfl
      have hempty : IsPlace G (node d ⟨alloc, .jsonObject .empty⟩ []) fill rest := by
        have hdraft := hp
        rw [draft, data_node, hi] at hdraft
        exact hdraft
      refine Leads.bind (Leads.copyMembers o.members cs hempty hms hchildren ?_ (fun ps o' hps ho' => ?_)
        hR)
      · exact o.unique
      · refine hrow ps _ hps fun ts hts haddrs => ?_
        have hlen : (Assoc.keys o.members).length ≤ (ps.map Prod.snd).length := by
          have h₁ := congrArg List.length hms
          have h₂ := congrArg List.length hps
          rw [List.length_map, List.length_map] at h₁
          rw [List.length_map] at h₂
          rw [Assoc.keys, List.length_map, List.length_map]
          omega
        have hkeys : Assoc.keys o'.members = Assoc.keys o.members := by
          rw [ho', Assoc.keys, List.map_append, List.map_fst_zip hlen]
          rfl
        rw [hi, Impl.denote, Impl.denote, hkeys, hts]
    | _ =>
      rw [hi] at hc
      cases hc

/-- What `_copyContentsInto` does once the destination has an empty value of the source's kind. -/
theorem Leads.fillCleared {Q : Unit → List NodeTree → Prop} {s : NodeTree}
    (hp : IsPlace F (node d { nd with impl := s.data.impl.eType.initial } []) fill rest)
    (hs : Beside s rest) (hnodup : s.cells.Nodup) (hQ : ∀ t, IsCopy s d nd.alloc t → Q () (fill t))
    (hR : ∀ k t, M.fails k = true → t.key = (d, nd.alloc) → R .badAlloc (fill t)) :
    Leads (if s.data.impl.isContainer then do
        Memory.allocate M
        copyLoop M (← get).next [(s.addr, d)]
      else Memory.assignValue M d s.data.impl) F Q R := by
  refine Leads.ite (fun hc => ?_) fun hc => ?_
  · refine Leads.allocate ?_ fun k hk => hp.fill_self ▸ hR k _ hk rfl
    refine Leads.next (f := fun fuel => copyLoop M fuel [(s.addr, d)]) fun fuel hfuel => ?_
    have hlen : s.cells.length ≤ fuel := by
      refine le_trans (List.Nodup.subperm hnodup fun c hmem => ?_).length_le hfuel
      exact hp.fill_self ▸ hp.mem_rest (hs.cells c hmem) _
    rw [cleared_container hc] at hp
    refine fills s hc hs hp (Nat.le_trans (Nat.le_of_eq (Nat.add_zero _)) hlen) (fun fuel' _ t ht => ?_) hR
    unfold copyLoop
    exact Leads.pure (hQ t ht)
  · have hscalar : s.data.impl.isContainer = false := by simpa using hc
    refine Leads.assignValue hp (eType_initial _) hscalar ?_ fun k hk => hp.fill_self ▸ hR k _ hk rfl
    have hvalue := @value_draft nd.alloc s d hscalar
    refine hQ _ ⟨rfl, ?_⟩
    rwa [draft, cleared_scalar hscalar] at hvalue

/-- The clean-up of a copy. -/
theorem Leads.resetKey {Q : Unit → List NodeTree → Prop} {t : NodeTree}
    (hp : IsPlace F (node d nd ds) fill rest) (ht : t.key = (d, nd.alloc))
    (hQ : Q () (fill (node d { nd with impl := .jsonNull } []))) : Leads (Memory.reset d) (fill t) Q R := by
  obtain ⟨d', n', cs'⟩ := t
  rw [key_node, Prod.mk.injEq] at ht
  obtain ⟨rfl, halloc⟩ := ht
  have hn : ({ n' with impl := .jsonNull } : Node) = { nd with impl := .jsonNull } := by
    rw [Node.mk.injEq]
    exact ⟨halloc, rfl⟩
  refine Leads.reset (hp.refill (by rw [key_node, key_node, halloc]; rfl)) ?_
  rw [hn]
  exact hQ

/-- **The deep copy** leaves a copy of the source at the destination, or null if an allocation fails. -/
theorem Leads.copyContentsInto {Q : Unit → List NodeTree → Prop} {s : NodeTree}
    (hp : IsPlace G (node d nd ds) fill rest) (hs : Beside s rest) (hnodup : s.cells.Nodup)
    (hQ : ∀ t, IsCopy s d nd.alloc t → Q () (fill t))
    (hR : ∀ k, M.fails k = true → R .badAlloc (fill (node d { nd with impl := .jsonNull } []))) :
    Leads (Memory.copyContentsInto M d s.addr) G Q R := by
  have hcell : (s.addr, s.data) ∈ rest := hs.cells _ s.root_mem_cells
  have hclean : ∀ k t, M.fails k = true → t.key = (d, nd.alloc) →
      Leads (Memory.reset d) (fill t) (fun _ F' => R .badAlloc F') fun _ _ => False :=
    fun k t hk ht => Leads.resetKey hp ht (hR k hk)
  unfold Memory.copyContentsInto
  refine Leads.catchRethrow (Leads.load (hp.fill_self ▸ hp.mem_rest hcell _) (Leads.bind ?_))
  refine Leads.resetTo hp ?_ fun k hk => hp.fill_self ▸ hclean k _ hk rfl
  exact Leads.fillCleared (hp.refill rfl) hs hnodup hQ hclean

end Memory

end ByteDance
