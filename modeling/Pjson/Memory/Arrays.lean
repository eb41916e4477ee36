/-
  The growth of arrays.

  `arrayAt` is an array with the trees it owns.  An operation that turns another value into an array
  does to an empty array in a local what it does to an array, and exchanges the two; `kept` are the
  elements the receiver has to begin with.
-/
import Pjson.Memory.Assign

namespace ByteDance

open Run Ownership Owned

namespace Memory

/-- An array. -/
def arrayAt (a : Addr) (alloc : AllocatorId) (cs : List NodeTree) : NodeTree :=
  node a ⟨alloc, .jsonArray (cs.map addr)⟩ cs

/-- The elements of a receiver: none, if it is no array. -/
def kept (n : Node) (cs : List NodeTree) : List NodeTree := if n.impl.eType = .jsonArray then cs else []

variable {M : Machine} {F : List NodeTree} {R : HeapExit → List NodeTree → Prop} {a x : Addr} {n nx : Node}
  {alloc : AllocatorId} {cs xs : List NodeTree} {fill fx : NodeTree → List NodeTree} {rest rx : List (Addr × Node)}

theorem value_arrayAt (a : Addr) (alloc : AllocatorId) (cs : List NodeTree) :
    value (arrayAt a alloc cs) = .jsonArray (cs.map value) := by
  rw [arrayAt, value_node, Impl.denote]

/-- A node that is an array, as one. -/
theorem arrayAt_of_eType (hok : (node a n cs).Ok) (hn : n.impl.eType = .jsonArray) :
    node a n cs = arrayAt a n.alloc cs := by
  have hslots : n.impl.children = cs.map addr := (ok_node.mp hok).1
  obtain ⟨alloc, impl⟩ := n
  cases impl with
  | jsonArray es =>
    rw [arrayAt, ← hslots]
    rfl
  | _ => cases hn

theorem impl_of_eType (hok : (node a n cs).Ok) (hn : n.impl.eType = .jsonArray) : n.impl = .jsonArray (cs.map addr) := by
  have harray := arrayAt_of_eType hok hn
  rw [arrayAt, node.injEq] at harray
  exact congrArg Node.impl harray.2.1

theorem Sound.arrayAt (hs : Sound F) (hp : IsPlace F (node a n cs) fill rest) (hn : n.impl.eType = .jsonArray) :
    IsPlace F (arrayAt a n.alloc cs) fill rest := arrayAt_of_eType (hs.tree hp).ok hn ▸ hp

namespace Leads

theorem isArray {β : Type} {P : β → List NodeTree → Prop} {f : Bool → HeapM β} (hn : (a, n) ∈ cellsAll F)
    (hyes : n.impl.eType = .jsonArray → Leads (f true) F P R) (hno : n.impl.eType ≠ .jsonArray → Leads (f false) F P R) :
    Leads (Memory.isArray a >>= f) F P R := by
  unfold Memory.isArray
  rw [bind_assoc]
  refine load hn (bind (pure ?_))
  by_cases h : n.impl.eType = .jsonArray
  · rw [decide_eq_true h]
    exact hyes h
  · rw [decide_eq_false h]
    exact hno h

/-- A root becomes the last element of an array that may have to grow. -/
theorem pushGrowing {Q : Unit → List NodeTree → Prop} {t : NodeTree} (hp : IsPlace F (arrayAt a alloc cs) fill rest)
    (halloc : t.data.alloc = alloc) (hQ : Q () (fill (arrayAt a alloc (cs ++ [t]))))
    (hR : ∀ k, M.fails k = true → R .badAlloc (t :: F)) (hlength : R .lengthError (t :: F)) :
    Leads (Memory.pushGrowing M a t.addr) (t :: F) Q R := by
  have hcell := mem_cells_cons t hp.cell
  have hstore : Leads (Memory.store a (.jsonArray (cs.map addr ++ [t.addr]))) (t :: F) Q R := by
    refine sound fun hs => ?_
    have hok := (hp.ok rfl rfl (hp.fill_self.symm ▸
      okAll_iff.mpr (List.forall_mem_cons.mp (okAll_iff.mp hs.ok)).2)).1
    rw [show cs.map addr ++ [t.addr] = (cs ++ [t]).map addr by rw [List.map_append]; rfl]
    refine store (G := [t]) (H := []) hp (by rw [List.append_nil]) rfl (fun c hc => ?_) rfl hQ
    rcases List.mem_append.mp hc with hc | hc
    · exact (ok_node.mp hok).2.1 c hc
    · rw [List.mem_singleton.mp hc]
      exact halloc
  unfold Memory.pushGrowing
  exact elements hcell rfl (ite (fun _ => throw hlength) fun _ => allocate hstore hR)

/-! ## Elements that are copied -/

/-- A copy is appended to an array. -/
theorem appendCopy {Q : Unit → List NodeTree → Prop} {s : NodeTree} (hp : IsPlace F (arrayAt a alloc cs) fill rest)
    (hs : Beside s (cellsAll F)) (hnodup : s.cells.Nodup)
    (hQ : ∀ t, value t = value s → Q () (fill (arrayAt a alloc (cs ++ [t]))))
    (hR : ∀ k, M.fails k = true → R .badAlloc F) (hlength : R .lengthError F) :
    Leads (Memory.appendCopy M a s.addr) F Q R := by
  unfold Memory.appendCopy
  refine load (hp.cell) (withOwned (fun c => bind ?_) hR)
  refine copyContentsInto (root_place _ F) hs hnodup (fun t ht => ?_) fun k hk => ⟨_, _, _, rfl, hR k hk⟩
  obtain ⟨c', m, ds⟩ := t
  obtain ⟨hkey, hvalue⟩ := ht
  rw [key_node, Prod.mk.injEq] at hkey
  obtain ⟨rfl, halloc⟩ := hkey
  exact pushGrowing (t := node c' m ds) hp halloc (hQ _ hvalue) (fun k hk => ⟨_, _, _, rfl, hR k hk⟩)
    ⟨_, _, _, rfl, hlength⟩

/-- An empty array in a local. -/
theorem emptyArray {Q : Unit → List NodeTree → Prop} {l : Addr} (hQ : Q () (arrayAt l alloc [] :: F))
    (hR : ∀ k, M.fails k = true → R .badAlloc F) : Leads (Memory.resetTo M l .jsonArray)
      (node l ⟨alloc, .jsonNull⟩ [] :: F) Q fun e F' => ∃ m ds G, F' = node l m ds :: G ∧ R e G :=
  resetTo (root_place _ F) hQ fun k hk => ⟨_, _, _, rfl, hR k hk⟩

/-- An array that has been built in a local takes the receiver's place. -/
theorem publishArray {Q : Unit → List NodeTree → Prop} {l : Addr} {ds : List NodeTree}
    (hp : IsPlace F (node a n cs) fill rest) (hQ : Q () (fill (arrayAt a n.alloc ds))) :
    Leads (swapStorage a l) (arrayAt l n.alloc ds :: F) (fun v F' => ∃ m es G, F' = node l m es :: G ∧ Q v G) R :=
  swapRoot hp rfl ⟨_, _, _, rfl, hQ⟩

/-- **`pushBack` of a copy.** -/
theorem pushBackCopy {Q : Unit → List NodeTree → Prop} {s : NodeTree} (hsound : Sound F)
    (hp : IsPlace F (node a n cs) fill rest) (hs : Beside s (cellsAll F)) (hnodup : s.cells.Nodup)
    (hQ : ∀ t, value t = value s → Q () (fill (arrayAt a n.alloc (kept n cs ++ [t]))))
    (hR : ∀ k, M.fails k = true → R .badAlloc F) (hlength : R .lengthError F) :
    Leads (Memory.pushBackCopy M a s.addr) F Q R := by
  have hcell : (a, n) ∈ cellsAll F := hp.cell
  unfold Memory.pushBackCopy
  refine isArray hcell (fun hn => ?_) fun hn => ?_
  · rw [if_pos rfl]
    rw [kept, if_pos hn] at hQ
    exact appendCopy (hsound.arrayAt hp hn) hs hnodup hQ hR hlength
  · rw [if_neg Bool.false_ne_true]
    rw [kept, if_neg hn] at hQ
    refine load hcell (withLocal fun l => bind (emptyArray (bind ?_) hR))
    refine appendCopy (root_place (arrayAt l n.alloc []) F) (hs.mono fun c hc => ?_) hnodup
      (fun t ht => publishArray hp (hQ t ht)) (fun k hk => ⟨_, _, _, rfl, hR k hk⟩) ⟨_, _, _, rfl, hlength⟩
    exact mem_cells_cons _ hc

/-! ## Elements that are moved -/

/-- An argument is moved to the end of an array that is not below it. -/
theorem appendMove {Q : Unit → List NodeTree → Prop} {f : NodeTree → List NodeTree} {r : List (Addr × Node)}
    (hs : Sound F) (hx : IsPlace F (node x nx xs) fx rx)
    (hp : IsPlace (fx (node x { nx with impl := .jsonNull } [])) (arrayAt a alloc cs) f r)
    (hold : ∃ es, (a, ⟨alloc, .jsonArray es⟩) ∈ cellsAll F)
    (hQ : ∀ t, value t = value (node x nx xs) → Q () (f (arrayAt a alloc (cs ++ [t]))))
    (hR : ∀ k, M.fails k = true → R .badAlloc F) (hlength : R .lengthError F) :
    Leads (Memory.appendMove M a x) F Q R := by
  obtain ⟨es, hcell⟩ := hold
  have hval : (x, nx) ∈ cellsAll F := hx.cell
  unfold Memory.appendMove
  refine load hcell (withOwned (fun c => elements (mem_cells_cons _ hcell) rfl ?_) hR)
  refine ite (fun _ => throw ⟨_, _, _, rfl, hlength⟩) fun _ => allocate ?_ fun k hk => ⟨_, _, _, rfl, hR k hk⟩
  refine load (mem_cells_root (node c ⟨alloc, .jsonNull⟩ []) F) ?_
  refine load (mem_cells_cons _ hval) (ite (fun halloc => bind ?_) fun _ => bind ?_)
  · have hnull := hx.refill (u := node x { nx with impl := .jsonNull } []) rfl
    refine rootSwap hx halloc (bind (reset (hnull.cons _) ?_))
    exact pushReserved (t := node c ⟨alloc, nx.impl⟩ xs) hp rfl rfl (hQ _ (by rw [value_node, value_node]))
  · refine copyContentsInto (root_place _ F) (hs.tree hx) (hs.nodup_cells hx) (fun t ht => bind ?_)
      fun k hk => ⟨_, _, _, rfl, hR k hk⟩
    obtain ⟨c', m, ds⟩ := t
    obtain ⟨hkey, hvalue⟩ := ht
    rw [key_node, Prod.mk.injEq] at hkey
    obtain ⟨rfl, halloc⟩ := hkey
    exact reset (hx.cons _) (pushReserved (t := node c' m ds) hp rfl halloc (hQ _ hvalue))

/-- **`pushBack` of an rvalue.**  If the receiver is below the argument, or if that cannot be told, it
    appends a copy. -/
theorem pushBackMove {Q : Unit → List NodeTree → Prop} (hs : Sound F) (hp : IsPlace F (node a n cs) fill rest)
    (hx : IsPlace F (node x nx xs) fx rx)
    (hcopy : ∀ t, value t = value (node x nx xs) → Q () (fill (arrayAt a n.alloc (kept n cs ++ [t]))))
    (hmove : a ∉ (node x nx xs).addrs → ∃ cs' f r,
      IsPlace (fx (node x { nx with impl := .jsonNull } [])) (node a n cs') f r ∧
        ∀ t, value t = value (node x nx xs) → Q () (f (arrayAt a n.alloc (kept n cs' ++ [t]))))
    (hR : ∀ k, M.fails k = true → R .badAlloc F) (hlength : R .lengthError F) :
    Leads (Memory.pushBackMove M a x) F Q R := by
  have htree := hs.tree hx
  have hnodup := hs.nodup_cells hx
  have hcell : (a, n) ∈ cellsAll F := hp.cell
  unfold Memory.pushBackMove
  -- A value that holds the target cannot be moved into it, so it is copied.
  refine containsNode (t := node x nx xs) htree hnodup (fun _ => ?_) fun hout => ?_
  · rw [if_pos rfl]
    exact pushBackCopy (s := node x nx xs) hs hp htree hnodup hcopy hR hlength
  rw [if_neg Bool.false_ne_true]
  obtain ⟨cs', f, r, hplace, hmove⟩ := hmove hout
  refine isArray hcell (fun hn => ?_) fun hn => ?_
  · rw [if_pos rfl]
    rw [kept, if_pos hn] at hmove
    have harray := arrayAt_of_eType (hs.tree hp).ok hn
    rw [arrayAt, node.injEq] at harray
    exact appendMove hs hx ((hs.prune hx).arrayAt hplace hn) ⟨_, harray.2.1 ▸ hcell⟩ hmove hR hlength
  · rw [if_neg Bool.false_ne_true]
    -- No array yet: a local one is filled first and then exchanged, so a failure leaves all.
    rw [kept, if_neg hn] at hmove hcopy
    refine load hcell (withLocal fun l => bind (emptyArray (sound fun hs' => ?_) hR))
    have hx' := hx.cons (arrayAt l n.alloc [])
    have hempty := root_place (arrayAt l n.alloc []) (fx (node x { nx with impl := .jsonNull } []))
    have hfail : ∀ k, M.fails k = true → ∃ m ds G, arrayAt l n.alloc [] :: F = node l m ds :: G ∧ R .badAlloc G :=
      fun k hk => ⟨_, _, _, rfl, hR k hk⟩
    have hlong : ∃ m ds G, arrayAt l n.alloc [] :: F = node l m ds :: G ∧ R .lengthError G := ⟨_, _, _, rfl, hlength⟩
    -- The call on the local asks again, and either answer leads to the same array.
    refine containsNode (t := node x nx xs) (hs'.tree hx') hnodup (fun _ => ?_) fun _ => ?_
    · show Leads (do
        Memory.appendCopy M l x
        swapStorage a l) _ _ _
      exact bind (appendCopy (s := node x nx xs) (root_place (arrayAt l n.alloc []) F) (hs'.tree hx') hnodup
        (fun t ht => publishArray hp (hcopy t ht)) hfail hlong)
    · show Leads (do
        Memory.appendMove M l x
        swapStorage a l) _ _ _
      exact bind (appendMove hs' hx' hempty ⟨[], mem_cells_root _ F⟩
        (fun t ht => publishArray hplace (hmove t ht)) hfail hlong)

/-! ## Capacity -/

/-- **`reserve`**: a receiver that is no array becomes an empty one before the capacity is asked for. -/
theorem reserve {Q : Unit → List NodeTree → Prop} {aCount : Nat} (hs : Sound F)
    (hp : IsPlace F (node a n cs) fill rest) (hQ : Q () (fill (arrayAt a n.alloc (kept n cs))))
    (hR : ∀ k, M.fails k = true → R .badAlloc F ∧ R .badAlloc (fill (arrayAt a n.alloc (kept n cs))))
    (hlength : M.maxSize < aCount → R .lengthError (fill (arrayAt a n.alloc (kept n cs)))) :
    Leads (Memory.reserve M a aCount) F Q R := by
  have hreserve : Leads (if aCount > M.maxSize then MonadExcept.throw HeapExit.lengthError else Memory.allocate M)
      (fill (arrayAt a n.alloc (kept n cs))) Q R := by
    refine ite (fun h => throw (hlength h)) fun _ => ?_
    rw [← bind_pure (Memory.allocate M)]
    exact allocate (pure hQ) fun k hk => (hR k hk).2
  unfold Memory.reserve
  refine isArray hp.cell (fun hn => ?_) fun hn => ?_
  · rw [kept, if_pos hn, ← arrayAt_of_eType (hs.tree hp).ok hn, hp.fill_self] at hreserve
    exact hreserve
  · rw [kept, if_neg hn] at hreserve
    exact bind (resetTo hp hreserve fun k hk => (hR k hk).1)

end Leads

end Memory

end ByteDance
