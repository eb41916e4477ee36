/-
  Programs that use the DOM.

  A program makes one call after the other.  The nodes it passes are live, but they may be anywhere: an
  argument may be the receiver, one of its ancestors or descendants, or a node of another tree and another
  allocator.  Any allocation may fail, and the program goes on after an exception.

  `Call.leads` says what one call does to the forest, and `calls_intact` what any number of calls do.
-/
import Pjson.Memory.CopyExact
import Pjson.Memory.Objects

namespace ByteDance

open Run Ownership Owned

namespace Memory

/-- A value that is not a container. -/
abbrev Scalar := { v : Impl // v.isContainer = false }

theorem isContainer_of_mem {values : List Scalar} : ∀ v ∈ values.map Subtype.val, v.isContainer = false := by
  intro v hv
  obtain ⟨w, -, rfl⟩ := List.mem_map.mp hv
  exact w.2

/-- A call of a member function, with the nodes it is given. -/
inductive Call where
  | copyFrom (this source : Addr)
  | assignMove (this source : Addr)
  | swap (this other : Addr)
  | pushBackCopy (this value : Addr)
  | pushBackMove (this value : Addr)
  | reserve (this : Addr) (aCount : Nat)
  | assignScalar (this : Addr) (value : Scalar)
  | appendDomArray (target : Addr) (values : List Scalar)
  | assignDomArray (target : Addr) (values : List Scalar)
  | indexSize (this : Addr) (index : UInt64)
  | indexInt (this : Addr) (index : Int32)
  | insertOrAssign (move : Bool) (this : Addr) (aKey : Bytes) (aValue : Addr)
  | indexKey (this : Addr) (aString : Bytes)
  | eraseKey (this : Addr) (aKey : Bytes)
  | eraseIndex (this : Addr) (aIndex : Nat)
  | resetTo (this : Addr) (type : JsonType)
  | clear (this : Addr)

namespace Call

/-- The call as it is made; what it returns is dropped. -/
def run (M : Machine) : Call → HeapM Unit
  | copyFrom this source => Memory.copyFrom M this source
  | assignMove this source => Memory.assignMove M this source
  | swap this other => Memory.swap M this other
  | pushBackCopy this value => Memory.pushBackCopy M this value
  | pushBackMove this value => Memory.pushBackMove M this value
  | reserve this aCount => Memory.reserve M this aCount
  | assignScalar this value => Memory.assignScalar M this value
  | appendDomArray target values => Memory.appendDomArray M target (values.map Subtype.val)
  | assignDomArray target values => Memory.assignDomArray M target (values.map Subtype.val)
  | indexSize this index => do
    let _ ← Memory.indexSize M this index.toNat
  | indexInt this index => do
    let _ ← Memory.indexInt M this index
  | insertOrAssign move this aKey aValue => Memory.insertOrAssign M M.stack move this aKey aValue
  | indexKey this aString => do
    let _ ← Memory.indexKey M this aString
  | eraseKey this aKey => do
    let _ ← Memory.eraseKey this aKey
  | eraseIndex this aIndex => do
    let _ ← Memory.eraseIndex this aIndex
  | resetTo this type => Memory.resetTo M this type
  | clear this => Memory.clear this

/-- The nodes a call is given. -/
def nodes : Call → List Addr
  | copyFrom this source | assignMove this source | swap this source | pushBackCopy this source
  | pushBackMove this source | insertOrAssign _ this _ source => [this, source]
  | reserve this _ | assignScalar this _ | appendDomArray this _ | assignDomArray this _ | indexSize this _
  | indexInt this _ | indexKey this _ | eraseKey this _ | eraseIndex this _ | resetTo this _
  | clear this => [this]

/-- Whether a call that throws leaves everything as it was: `reserve` may have made an array of its
    receiver, and the assignment of a scalar an empty value of the new kind. -/
def atomic : Call → Bool
  | reserve _ _ | assignScalar _ _ => false
  | _ => true

/-- What a call is given is live. -/
def Live (h : Heap) (c : Call) : Prop := ∀ b ∈ c.nodes, h.nodes b ≠ none

end Call

variable {M : Machine} {F : List NodeTree} {a : Addr} {n : Node} {cs : List NodeTree}
  {fill : NodeTree → List NodeTree} {rest : List (Addr × Node)}

/-- The exceptions that have nothing to do with memory. -/
theorem thrown_of_notMem {e : HeapExit} (he : e ∉ [HeapExit.fault, .fuel, .badAlloc]) : Thrown M e := by
  simp only [List.mem_cons, List.not_mem_nil, or_false, not_or] at he
  exact ⟨he.1, he.2.1, fun heq => absurd heq he.2.2⟩

/-- **`clear`** leaves an empty container, or null. -/
theorem Leads.clear {Q : Unit → List NodeTree → Prop} {R : HeapExit → List NodeTree → Prop}
    (hp : IsPlace F (node a n cs) fill rest)
    (hQ : ∀ impl, impl.children = [] → Q () (fill (node a { n with impl := impl } []))) :
    Leads (Memory.clear a) F Q R := by
  unfold Memory.clear
  refine load hp.cell (ite (fun _ h hi => ?_) fun _ => reset hp (hQ _ rfl))
  have hm : Still h ((node a n cs).cells ++ rest) := hi.toStill.perm (hp.cells_perm.trans List.perm_append_comm)
  have hlt := hm.mem.lt_next (hi.owns.place_data hp)
  obtain ⟨depth, hdepth⟩ : ∃ depth, h.next = depth + 1 := Nat.exists_eq_succ_of_ne_zero
    (Nat.ne_of_gt (Nat.zero_lt_of_lt hlt))
  unfold Memory.disposeChildren
  rw [ends_bind, ends_get, hdepth]
  refine (disposeChildren_ends (hi.owns.stands hp).ok hm).mono (fun _ h' hq => ?_) fun _ _ hf => hf.elim
  obtain ⟨hs, hi'⟩ := hi.emptied hp (children_cleared _) hq.1 hq.2
  exact ⟨hs, _, hi', hQ _ (children_cleared _)⟩

/-- The receiver has been filled with another tree. -/
theorem keys_fill {t u : NodeTree} (hp : IsPlace F t fill rest) (hu : u.key = t.key) :
    (fill u).map key = F.map key := hp.keys hu

/-- The argument has given up what it owned, and the receiver has been filled. -/
theorem keys_fill_pruned {x : Addr} {nx : Node} {xs : List NodeTree} {t u : NodeTree}
    {fx f : NodeTree → List NodeTree} {rx r : List (Addr × Node)} (hx : IsPlace F (node x nx xs) fx rx)
    (hp : IsPlace (fx (node x { nx with impl := .jsonNull } [])) t f r) (hu : u.key = t.key) :
    (f u).map key = F.map key := (hp.keys hu).trans (hx.keys rfl)

/-- What a call does to a forest: its roots stay, and it is not at fault.  If it throws, everything is as
    it was. -/
theorem Call.leads (hmax : M.maxSize < 2 ^ 64) {c : Call} (hs : Sound F)
    (hlive : ∀ b ∈ c.nodes, b ∈ (cellsAll F).map Prod.fst) : Leads (c.run M) F
      (fun _ F' => F'.map key = F.map key)
      fun e F' => Thrown M e ∧ F'.map key = F.map key ∧ (c.atomic = true → F' = F) := by
  have hbad : ∀ {b : Bool} k, M.fails k = true →
      Thrown M .badAlloc ∧ F.map key = F.map key ∧ (b = true → F = F) :=
    fun k hk => ⟨thrown_badAlloc M hk, rfl, fun _ => rfl⟩
  have hlong : ∀ {b : Bool}, Thrown M .lengthError ∧ F.map key = F.map key ∧ (b = true → F = F) :=
    ⟨thrown_of_notMem (by decide), rfl, fun _ => rfl⟩
  -- Where an argument node stands in the forest: alone, or inside another tree.
  have hplace : ∀ {b}, b ∈ c.nodes → ∃ n cs fill rest, IsPlace F (node b n cs) fill rest := fun hb => by
    obtain ⟨⟨b, n, cs⟩, fill, rest, rfl, hp⟩ := exists_place (hlive _ hb)
    exact ⟨n, cs, fill, rest, hp⟩
  cases c with
  | copyFrom this source =>
    obtain ⟨n, cs, fill, rest, hp⟩ := hplace (b := this) (by simp [Call.nodes])
    obtain ⟨nx, xs, fx, rx, hx⟩ := hplace (b := source) (by simp [Call.nodes])
    exact Leads.copyFrom (s := node source nx xs) hp (hs.tree hx) (hs.nodup_cells hx) (fun _ => rfl)
      (fun t' ht' => keys_fill hp ht'.key) hbad
  | assignMove this source =>
    obtain ⟨n, cs, fill, rest, hp⟩ := hplace (b := this) (by simp [Call.nodes])
    obtain ⟨nx, xs, fx, rx, hx⟩ := hplace (b := source) (by simp [Call.nodes])
    -- The source may lie outside the target: then pruning it leaves the target's place.
    refine Leads.assignMove hs hp hx (fun _ => rfl) (fun t' ht' => keys_fill hp ht'.key) (fun hout => ?_) hbad
    obtain ⟨cs', f, r, hp', -, -⟩ := hs.other hx hp hout
    exact ⟨cs', f, r, hp', fun t' ht' => keys_fill_pruned hx hp' ht'.key⟩
  | swap this other =>
    obtain ⟨n, cs, fill, rest, hp⟩ := hplace (b := this) (by simp [Call.nodes])
    obtain ⟨nx, xs, fx, rx, hx⟩ := hplace (b := other) (by simp [Call.nodes])
    exact Leads.swap hs hp hx rfl fun F' hkeys _ _ _ => hkeys
  | pushBackCopy this value =>
    obtain ⟨n, cs, fill, rest, hp⟩ := hplace (b := this) (by simp [Call.nodes])
    obtain ⟨nx, xs, fx, rx, hx⟩ := hplace (b := value) (by simp [Call.nodes])
    exact Leads.pushBackCopy (s := node value nx xs) hs hp (hs.tree hx) (hs.nodup_cells hx)
      (fun t ht => keys_fill hp rfl) hbad hlong
  | pushBackMove this value =>
    obtain ⟨n, cs, fill, rest, hp⟩ := hplace (b := this) (by simp [Call.nodes])
    obtain ⟨nx, xs, fx, rx, hx⟩ := hplace (b := value) (by simp [Call.nodes])
    refine Leads.pushBackMove hs hp hx (fun t ht => keys_fill hp rfl) (fun hout => ?_) hbad hlong
    obtain ⟨cs', f, r, hp', -, -⟩ := hs.other hx hp hout
    exact ⟨cs', f, r, hp', fun t ht => keys_fill_pruned hx hp' rfl⟩
  | reserve this aCount =>
    obtain ⟨n, cs, fill, rest, hp⟩ := hplace (b := this) (by simp [Call.nodes])
    -- Not atomic: a failure behind the promotion leaves an empty array.
    refine Leads.reserve hs hp (keys_fill hp rfl) (fun k hk => ⟨hbad k hk, ?_⟩) fun _ => ?_
    · exact ⟨thrown_badAlloc M hk, keys_fill hp rfl, by rintro ⟨⟩⟩
    · exact ⟨thrown_of_notMem (by decide), keys_fill hp rfl, by rintro ⟨⟩⟩
  | assignScalar this value =>
    obtain ⟨n, cs, fill, rest, hp⟩ := hplace (b := this) (by simp [Call.nodes])
    refine Leads.assignScalar hp value.2 (keys_fill hp rfl) fun k hk => ⟨hbad k hk, ?_⟩
    exact ⟨thrown_badAlloc M hk, keys_fill hp rfl, by rintro ⟨⟩⟩
  | appendDomArray target values =>
    obtain ⟨n, cs, fill, rest, hp⟩ := hplace (b := target) (by simp [Call.nodes])
    exact Leads.appendDomArray hs hp isContainer_of_mem (fun ts _ => keys_fill hp rfl) hbad hlong
  | assignDomArray target values =>
    obtain ⟨n, cs, fill, rest, hp⟩ := hplace (b := target) (by simp [Call.nodes])
    exact Leads.assignDomArray hp isContainer_of_mem (fun ts _ => keys_fill hp rfl) hbad hlong
  | indexSize this index =>
    obtain ⟨n, cs, fill, rest, hp⟩ := hplace (b := this) (by simp [Call.nodes])
    refine Leads.bind (Leads.indexSize hs hp index.toNat_lt hmax (fun ts t _ _ _ => ?_) hbad fun _ => hlong)
    exact Leads.pure (keys_fill hp rfl)
  | indexInt this index =>
    obtain ⟨n, cs, fill, rest, hp⟩ := hplace (b := this) (by simp [Call.nodes])
    refine Leads.bind (Leads.indexInt hs hp hmax (fun position ts t _ _ _ _ => ?_) hbad (fun _ _ _ => hlong)
      fun _ => ⟨thrown_of_notMem (by decide), rfl, fun _ => rfl⟩)
    exact Leads.pure (keys_fill hp rfl)
  | insertOrAssign move this aKey aValue =>
    obtain ⟨n, cs, fill, rest, hp⟩ := hplace (b := this) (by simp [Call.nodes])
    obtain ⟨nx, xs, fx, rx, hx⟩ := hplace (b := aValue) (by simp [Call.nodes])
    refine Leads.insertOrAssign M.stack hs hp hx (fun t h _ => keys_fill hp rfl) (fun _ hout => ?_) hbad
      fun _ => ⟨thrown_of_notMem (by decide), rfl, fun _ => rfl⟩
    obtain ⟨cs', f, r, hp', -, -⟩ := hs.other hx hp hout
    exact ⟨cs', f, r, hp', fun t h _ => keys_fill_pruned hx hp' rfl⟩
  | indexKey this aString =>
    obtain ⟨n, cs, fill, rest, hp⟩ := hplace (b := this) (by simp [Call.nodes])
    exact Leads.bind (Leads.indexKey hs hp (fun c _ => Leads.pure rfl) (fun c h _ =>
      Leads.pure (keys_fill hp rfl)) hbad)
  | eraseKey this aKey =>
    obtain ⟨n, cs, fill, rest, hp⟩ := hplace (b := this) (by simp [Call.nodes])
    exact Leads.bind (Leads.eraseKey hs hp (fun c h _ => Leads.pure (keys_fill hp rfl)) fun _ => Leads.pure rfl)
  | eraseIndex this aIndex =>
    obtain ⟨n, cs, fill, rest, hp⟩ := hplace (b := this) (by simp [Call.nodes])
    exact Leads.bind (Leads.eraseIndex hs hp (fun _ => Leads.pure (keys_fill hp rfl)) fun _ => Leads.pure rfl)
  | resetTo this type =>
    obtain ⟨n, cs, fill, rest, hp⟩ := hplace (b := this) (by simp [Call.nodes])
    exact Leads.resetTo hp (keys_fill hp rfl) hbad
  | clear this =>
    obtain ⟨n, cs, fill, rest, hp⟩ := hplace (b := this) (by simp [Call.nodes])
    exact Leads.clear hp fun impl _ => keys_fill hp rfl

/-! ## Runs -/

/-- A run of calls: a call returns or throws, and the run goes on. -/
inductive Calls (M : Machine) : Heap → List Call → Heap → Prop
  | nil (h : Heap) : Calls M h [] h
  | returns {h h' h'' : Heap} {c : Call} {calls : List Call} (hlive : c.Live h)
      (hrun : (c.run M).run h = .ok () h') (hrest : Calls M h' calls h'') : Calls M h (c :: calls) h''
  | throws {h h' h'' : Heap} {c : Call} {calls : List Call} {e : HeapExit} (hlive : c.Live h)
      (hrun : (c.run M).run h = .error e h') (hrest : Calls M h' calls h'') : Calls M h (c :: calls) h''

/-- A call can be made. -/
theorem Calls.exists_single {h : Heap} {c : Call} (hlive : c.Live h) : ∃ h', Calls M h [c] h' := by
  cases hrun : (c.run M).run h with
  | ok v h' => exact ⟨h', .returns hlive hrun (.nil h')⟩
  | error e h' => exact ⟨h', .throws hlive hrun (.nil h')⟩

/-- What is known of every run that throws is known of this one. -/
theorem ends_error {x : HeapM Unit} {h h' : Heap} {e : HeapExit} {Q : Unit → Heap → Prop} {R : HeapExit → Heap → Prop}
    (hx : Ends x h Q R) (hrun : x.run h = .error e h') : R e h' := by
  unfold Ends at hx
  rw [hrun] at hx
  exact hx

/-- A call on an intact heap. -/
theorem Call.ends (hmax : M.maxSize < 2 ^ 64) {h : Heap} (hi : Intact h F) {c : Call} (hlive : c.Live h) :
    Ends (c.run M) h (fun _ h' => Since h h' ∧ ∃ F', Intact h' F' ∧ F'.map key = F.map key)
      fun e h' => Since h h' ∧ Thrown M e ∧ (c.atomic = true → Intact h' F) ∧
        ∃ F', Intact h' F' ∧ F'.map key = F.map key := by
  have hcells : ∀ b ∈ c.nodes, b ∈ (cellsAll F).map Prod.fst := fun b hb => by
    obtain ⟨n, hn⟩ := Option.ne_none_iff_exists'.mp (hlive b hb)
    exact List.mem_map_of_mem (hi.mem.holds.iff.mp hn)
  refine (Call.leads hmax ⟨hi.ok, hi.mem.holds.nodup⟩ hcells h hi).mono (fun _ h' hq => hq) fun e h' he => ?_
  obtain ⟨hs, F', hi', hthrown, hkeys, hatomic⟩ := he
  exact ⟨hs, hthrown, fun ha => hatomic ha ▸ hi', F', hi', hkeys⟩

/-- **Ownership**: whatever calls a program makes, with arguments that alias the receivers in any way and
    with allocations that fail at any time, the heap is a forest with the roots there were at the
    start; every node is owned once, none is lost and none is destroyed twice; and no call reads or writes
    what is not live. -/
theorem calls_intact (hmax : M.maxSize < 2 ^ 64) {h h' : Heap} (hi : Intact h F) {calls : List Call}
    (hrun : Calls M h calls h') : Since h h' ∧ (∃ F', Intact h' F' ∧ F'.map key = F.map key) ∧
      ∀ c : Call, c.Live h' → Ends (c.run M) h' (fun _ _ => True) fun e _ => Thrown M e := by
  induction hrun generalizing F with
  | nil h =>
    refine ⟨.refl h, ⟨F, hi, rfl⟩, fun c hlive => ?_⟩
    exact (Call.ends hmax hi hlive).mono (fun _ _ _ => trivial) fun _ _ he => he.2.1
  | returns hlive hrun hrest ih =>
    obtain ⟨hs, F', hi', hkeys⟩ := (Call.ends hmax hi hlive).ok hrun
    obtain ⟨hs', ⟨F'', hi'', hkeys'⟩, hsafe⟩ := ih hi'
    exact ⟨hs.trans hs', ⟨F'', hi'', hkeys'.trans hkeys⟩, hsafe⟩
  | throws hlive hrun hrest ih =>
    obtain ⟨hs, -, -, F', hi', hkeys⟩ := ends_error (Call.ends hmax hi hlive) hrun
    obtain ⟨hs', ⟨F'', hi'', hkeys'⟩, hsafe⟩ := ih hi'
    exact ⟨hs.trans hs', ⟨F'', hi'', hkeys'.trans hkeys⟩, hsafe⟩

/-- The null, of another allocator, takes the object in the middle of the tree. -/
def takesObject : Call := .pushBackMove 4 2

theorem live_takesObject : takesObject.Live (ofForest [nestedTree, nullTree]) := by
  intro b hb
  simp only [takesObject, Call.nodes, List.mem_cons, List.not_mem_nil, or_false] at hb
  rcases hb with rfl | rfl <;> simp [ofForest, nestedTree, nullTree, Assoc.find]

-- the statements are not to be run
attribute [local irreducible] Ends in
theorem calls_intact_takesObject : ∃ h', Calls failsOnce (ofForest [nestedTree, nullTree]) [takesObject] h' ∧
    Since (ofForest [nestedTree, nullTree]) h' ∧
    (∃ F', Intact h' F' ∧ F'.map key = [nestedTree, nullTree].map key) ∧
    ∀ c : Call, c.Live h' → Ends (c.run failsOnce) h' (fun _ _ => True) fun e _ => Thrown failsOnce e := by
  obtain ⟨h', hrun⟩ := Calls.exists_single (M := failsOnce) live_takesObject
  exact ⟨h', hrun, calls_intact (show 100 < 2 ^ 64 by norm_num) intact_nestedPair hrun⟩

/-- **All or nothing**: a call that throws leaves every node as it was, but for `reserve` and the assignment
    of a scalar; and whatever it has allocated has been destroyed. -/
theorem call_atomic (hmax : M.maxSize < 2 ^ 64) {h : Heap} (hi : Intact h F) {c : Call} (hlive : c.Live h)
    (hc : c.atomic = true) : Ends (c.run M) h (fun _ _ => True) fun e h' =>
      Thrown M e ∧ h'.nodes = h.nodes ∧ ∀ b, h.next ≤ b → b < h'.next → b ∈ h'.destroyed := by
  refine (Call.ends hmax hi hlive).mono (fun _ _ _ => trivial) fun e h' he => ?_
  obtain ⟨-, hthrown, hatomic, -⟩ := he
  have hi' := hatomic hc
  refine ⟨hthrown, hi.nodes_eq hi', fun b hfresh hused => ?_⟩
  refine (hi'.mem.used hused).resolve_left fun hlive => ?_
  obtain ⟨⟨b', n⟩, hmem, rfl⟩ := List.mem_map.mp hlive
  exact absurd (hi.mem.lt_next (hi.mem.holds.iff.mpr hmem)) (Nat.not_lt.mpr hfresh)

attribute [local irreducible] Ends in
theorem call_atomic_takesObject : Ends (takesObject.run failsOnce) (ofForest [nestedTree, nullTree])
    (fun _ _ => True) fun e h' => Thrown failsOnce e ∧ h'.nodes = (ofForest [nestedTree, nullTree]).nodes ∧
      ∀ b, (ofForest [nestedTree, nullTree]).next ≤ b → b < h'.next → b ∈ h'.destroyed :=
  call_atomic (show 100 < 2 ^ 64 by norm_num) intact_nestedPair live_takesObject rfl

end Memory

end ByteDance
