/-
  Growth that is undone: vectors of scalars and indices past the end.

  Both append one element after the other to the receiver itself.  If that fails half way, the elements
  appended so far are popped and destroyed, the last one first (`rollbackTo`), and the receiver is what
  it was.
-/
import Pjson.Memory.Arrays

namespace ByteDance

open Run Ownership Owned

namespace Memory

variable {M : Machine} {F : List NodeTree} {R : HeapExit → List NodeTree → Prop} {a : Addr} {n : Node}
  {alloc : AllocatorId} {cs : List NodeTree} {fill : NodeTree → List NodeTree} {rest : List (Addr × Node)}

/-- A scalar in a node. -/
def leafAt (c : Addr) (alloc : AllocatorId) (v : Impl) : NodeTree := node c ⟨alloc, v⟩ []

/-- The trees are nodes with these scalars. -/
def Leaves (alloc : AllocatorId) (vs : List Impl) (ts : List NodeTree) : Prop :=
  List.Forall₂ (fun v t => ∃ c, t = leafAt c alloc v) vs ts

namespace Leads

/-! ## Scalars -/

/-- Assignment of a scalar; a string may fail after the receiver has become an empty one. -/
theorem assignScalar {Q : Unit → List NodeTree → Prop} {v : Impl} (hp : IsPlace F (node a n cs) fill rest)
    (hscalar : v.isContainer = false) (hQ : Q () (fill (leafAt a n.alloc v)))
    (hR : ∀ k, M.fails k = true → R .badAlloc F ∧ R .badAlloc (fill (leafAt a n.alloc v.eType.initial))) :
    Leads (Memory.assignScalar M a v) F Q R := by
  unfold Memory.assignScalar Memory.resetIfNeeded
  rw [bind_assoc]
  refine load hp.cell ?_
  by_cases htype : n.impl.eType = v.eType
  · rw [if_pos htype]
    exact bind (pure (assignValue hp htype hscalar hQ fun k hk => (hR k hk).1))
  · rw [if_neg htype]
    refine bind (resetTo hp ?_ fun k hk => (hR k hk).1)
    exact assignValue (hp.refill rfl) (eType_initial _) hscalar hQ fun k hk => (hR k hk).2

/-- A scalar is appended to an array. -/
theorem appendScalar {Q : Unit → List NodeTree → Prop} {v : Impl} (hp : IsPlace F (arrayAt a alloc cs) fill rest)
    (hscalar : v.isContainer = false) (hQ : ∀ c, Q () (fill (arrayAt a alloc (cs ++ [leafAt c alloc v]))))
    (hR : ∀ k, M.fails k = true → R .badAlloc F) (hlength : R .lengthError F) :
    Leads (Memory.appendScalar M a v) F Q R := by
  unfold Memory.appendScalar
  refine load hp.cell (withOwned (fun c => bind ?_) hR)
  refine assignScalar (root_place _ F) hscalar ?_ fun k hk => ⟨⟨_, _, _, rfl, hR k hk⟩, ⟨_, _, _, rfl, hR k hk⟩⟩
  exact pushGrowing (t := leafAt c alloc v) hp rfl (hQ c) (fun k hk => ⟨_, _, _, rfl, hR k hk⟩)
    ⟨_, _, _, rfl, hlength⟩

/-- `appendDomValue` on an array. -/
theorem appendDomValue {Q : Unit → List NodeTree → Prop} {v : Impl} (hp : IsPlace F (arrayAt a alloc cs) fill rest)
    (hscalar : v.isContainer = false) (hQ : ∀ c, Q () (fill (arrayAt a alloc (cs ++ [leafAt c alloc v]))))
    (hR : ∀ k, M.fails k = true → R .badAlloc F) (hlength : R .lengthError F) :
    Leads (Memory.appendDomValue M a v) F Q R := by
  unfold Memory.appendDomValue
  refine isArray hp.cell (fun _ => ?_) fun hn => absurd rfl hn
  rw [if_pos rfl]
  exact appendScalar hp hscalar hQ hR hlength

/-- The loop of the vector functions; a failure leaves what has been appended. -/
theorem appendAll {Q : Unit → List NodeTree → Prop} {vs : List Impl} (hp : IsPlace F (arrayAt a alloc cs) fill rest)
    (hscalar : ∀ v ∈ vs, v.isContainer = false)
    (hQ : ∀ ts, Leaves alloc vs ts → Q () (fill (arrayAt a alloc (cs ++ ts))))
    (hR : ∀ k ts, M.fails k = true → R .badAlloc (fill (arrayAt a alloc (cs ++ ts))))
    (hlength : ∀ ts, R .lengthError (fill (arrayAt a alloc (cs ++ ts)))) :
    Leads (Memory.appendAll M a vs) F Q R := by
  induction vs generalizing F cs with
  | nil =>
    have hnil := hQ [] .nil
    rw [List.append_nil, hp.fill_self] at hnil
    exact pure hnil
  | cons v vs ih =>
    have hbad := fun k hk => hR k [] hk
    have hlong := hlength []
    rw [List.append_nil, hp.fill_self] at hlong
    simp only [List.append_nil, hp.fill_self] at hbad
    rw [Memory.appendAll]
    refine bind (appendDomValue hp (hscalar v List.mem_cons_self) (fun c => ?_) hbad hlong)
    refine ih (hp.refill rfl) (fun w hw => hscalar w (List.mem_cons_of_mem _ hw)) (fun ts hts => ?_)
      (fun k ts hk => ?_) fun ts => ?_
    · rw [List.append_assoc]
      exact hQ _ (.cons ⟨c, rfl⟩ hts)
    · rw [List.append_assoc]
      exact hR k _ hk
    · rw [List.append_assoc]
      exact hlength _

/-! ## Undoing -/

/-- What has been appended is popped and destroyed, the last one first. -/
theorem rollback {Q : Unit → List NodeTree → Prop} (ts : List NodeTree)
    (hp : IsPlace F (arrayAt a alloc (cs ++ ts)) fill rest) (hQ : Q () (fill (arrayAt a alloc cs))) :
    Leads (Memory.rollback a ts.length) F Q R := by
  induction ts using List.reverseRecOn generalizing F with
  | nil =>
    rw [List.append_nil] at hp
    rw [hp.fill_self] at hQ
    exact pure hQ
  | append_singleton ts t ih =>
    have hsplit : (cs ++ (ts ++ [t])).map addr = (cs ++ ts).map addr ++ [t.addr] := by
      rw [← List.append_assoc, List.map_append]
      rfl
    rw [List.length_append, List.length_singleton, Memory.rollback]
    refine elements hp.cell rfl ?_
    rw [hsplit, List.getLast?_concat, List.dropLast_concat]
    refine sound fun hs => bind ?_
    obtain ⟨c, m, ds⟩ := t
    refine store (G := []) (D := cs ++ ts) (H := [node c m ds]) hp ?_ rfl (fun u hu => ?_) rfl ?_
    · rw [List.append_nil, List.append_assoc]
    · exact (ok_node.mp (hs.tree hp).ok).2.1 u (by rw [← List.append_assoc]; exact List.mem_append_left _ hu)
    · exact bind (destroyNode (ih (hp.refill rfl)))

/-- The elements behind the first ones are gone. -/
theorem rollbackTo {Q : Unit → List NodeTree → Prop} {ts : List NodeTree}
    (hp : IsPlace F (arrayAt a alloc (cs ++ ts)) fill rest) (hQ : Q () (fill (arrayAt a alloc cs))) :
    Leads (Memory.rollbackTo a cs.length) F Q R := by
  unfold Memory.rollbackTo
  refine elements hp.cell rfl ?_
  rw [List.length_map, List.length_append, Nat.add_sub_cancel_left]
  exact rollback ts hp hQ

/-! ## Vectors -/

/-- **Appending a vector**: all of it, or nothing. -/
theorem appendDomArray {Q : Unit → List NodeTree → Prop} {vs : List Impl} (hs : Sound F)
    (hp : IsPlace F (node a n cs) fill rest) (hscalar : ∀ v ∈ vs, v.isContainer = false)
    (hQ : ∀ ts, Leaves n.alloc vs ts → Q () (fill (arrayAt a n.alloc (kept n cs ++ ts))))
    (hR : ∀ k, M.fails k = true → R .badAlloc F) (hlength : R .lengthError F) :
    Leads (Memory.appendDomArray M a vs) F Q R := by
  unfold Memory.appendDomArray
  refine isArray hp.cell (fun hn => ?_) fun hn => ?_
  · have harray := hs.arrayAt hp hn
    have hundo : ∀ e ts, R e F → Leads (Memory.rollbackTo a cs.length)
        (fill (arrayAt a n.alloc (cs ++ ts))) (fun _ F'' => R e F'') fun _ _ => False := fun e ts he =>
      rollbackTo (harray.refill (u := arrayAt a n.alloc (cs ++ ts)) rfl) (harray.fill_self.symm ▸ he)
    rw [kept, if_pos hn] at hQ
    rw [if_pos rfl]
    refine elements harray.cell rfl ?_
    rw [List.length_map]
    exact catchRethrow (appendAll harray hscalar hQ (fun k ts hk => hundo _ ts (hR k hk))
      fun ts => hundo _ ts hlength)
  · rw [kept, if_neg hn] at hQ
    rw [if_neg Bool.false_ne_true]
    refine load hp.cell (withLocal fun l => bind (emptyArray (bind ?_) hR))
    exact appendAll (root_place (arrayAt l n.alloc []) F) hscalar (fun ts hts => publishArray hp (hQ ts hts))
      (fun k ts hk => ⟨_, _, _, rfl, hR k hk⟩) fun ts => ⟨_, _, _, rfl, hlength⟩

/-- **Assigning a vector**. -/
theorem assignDomArray {Q : Unit → List NodeTree → Prop} {vs : List Impl} (hp : IsPlace F (node a n cs) fill rest)
    (hscalar : ∀ v ∈ vs, v.isContainer = false)
    (hQ : ∀ ts, Leaves n.alloc vs ts → Q () (fill (arrayAt a n.alloc ts)))
    (hR : ∀ k, M.fails k = true → R .badAlloc F) (hlength : R .lengthError F) :
    Leads (Memory.assignDomArray M a vs) F Q R := by
  unfold Memory.assignDomArray
  refine load hp.cell (withLocal fun l => bind (emptyArray (bind ?_) hR))
  exact appendAll (root_place (arrayAt l n.alloc []) F) hscalar (fun ts hts => publishArray hp (hQ ts hts))
    (fun k ts hk => ⟨_, _, _, rfl, hR k hk⟩) fun ts => ⟨_, _, _, rfl, hlength⟩

/-! ## Indices -/

/-- The loop that appends null nodes. -/
theorem growLoop {Q : Unit → List NodeTree → Prop} {count : Nat} (hp : IsPlace F (arrayAt a alloc cs) fill rest)
    (hQ : ∀ ts, Leaves alloc (List.replicate count .jsonNull) ts → Q () (fill (arrayAt a alloc (cs ++ ts))))
    (hR : ∀ k ts, M.fails k = true → R .badAlloc (fill (arrayAt a alloc (cs ++ ts)))) :
    Leads (Memory.growLoop M a count) F Q R := by
  induction count generalizing F cs with
  | zero =>
    have hnil := hQ [] .nil
    rw [List.append_nil, hp.fill_self] at hnil
    exact pure hnil
  | succ count ih =>
    have hbad := fun k hk => hR k [] hk
    simp only [List.append_nil, hp.fill_self] at hbad
    rw [Memory.growLoop]
    refine load hp.cell (bind (withOwned (fun c => ?_) hbad))
    refine pushReserved (t := leafAt c alloc .jsonNull) hp rfl rfl ?_
    refine ih (hp.refill rfl) (fun ts hts => ?_) fun k ts hk => ?_
    · rw [List.append_assoc]
      exact hQ _ (.cons ⟨c, rfl⟩ hts)
    · rw [List.append_assoc]
      exact hR k _ hk

end Leads

/-- The elements an index asks for cannot be made. -/
def OutOfReach (M : Machine) (size position : Nat) : Prop :=
  size ≤ position ∧ (kMaxAutoGrowth < position - size + 1 ∨ M.maxSize < position + 1)

theorem Leaves.length {vs : List Impl} {ts : List NodeTree} (h : Leaves alloc vs ts) : ts.length = vs.length :=
  h.length_eq.symm

/-- What the checks of `operator[](size_t)` let through, and what its arithmetic makes of it. -/
theorem grows {size position : Nat} (hposition : position < 2 ^ 64) (hge : size ≤ position)
    (hgrowth : ¬ sizeT (position - size + 1) > kMaxAutoGrowth)
    (hlimit : ¬ (position = 2 ^ 64 - 1 ∨ sizeT (position + 1) > M.maxSize)) :
    sizeT (position + 1) = position + 1 ∧ ¬ OutOfReach M size position := by
  rw [not_or] at hlimit
  have hlast : position + 1 < 2 ^ 64 := by omega
  have hsize : sizeT (position + 1) = position + 1 := Nat.mod_eq_of_lt hlast
  have hmore : sizeT (position - size + 1) = position - size + 1 := Nat.mod_eq_of_lt (by omega)
  rw [hsize] at hlimit
  rw [hmore] at hgrowth
  refine ⟨hsize, fun hout => ?_⟩
  rcases hout.2 with h | h
  · exact hgrowth h
  · exact hlimit.2 h

namespace Leads

/-- **`operator[](size_t)` on an array.** -/
theorem indexArray {Q : Addr → List NodeTree → Prop} {position : Nat} (hp : IsPlace F (arrayAt a alloc cs) fill rest)
    (hposition : position < 2 ^ 64) (hmax : M.maxSize < 2 ^ 64)
    (hQ : ∀ ts t, Leaves alloc (List.replicate (position + 1 - cs.length) .jsonNull) ts →
      ¬ OutOfReach M cs.length position → (cs ++ ts)[position]? = some t →
        Q t.addr (fill (arrayAt a alloc (cs ++ ts))))
    (hR : ∀ k, M.fails k = true → R .badAlloc F)
    (hlength : OutOfReach M cs.length position → R .lengthError F) :
    Leads (Memory.indexArray M a position) F Q R := by
  unfold Memory.indexArray
  refine elements hp.cell rfl ?_
  rw [List.length_map]
  refine ite (fun hge => ite (fun hgrowth => throw (hlength ⟨hge, Or.inl ?_⟩)) fun hgrowth => ?_) fun hlt => ?_
  · exact Nat.lt_of_lt_of_le hgrowth (Nat.mod_le _ _)
  · refine ite (fun hlimit => throw (hlength ⟨hge, Or.inr ?_⟩)) fun hlimit => ?_
    · rcases hlimit with hlast | hlimit
      · omega
      · exact Nat.lt_of_lt_of_le hlimit (Nat.mod_le _ _)
    obtain ⟨hsize, hreach⟩ := grows hposition hge hgrowth hlimit
    have hundo : ∀ k ts, M.fails k = true → Leads (Memory.rollbackTo a cs.length)
        (fill (arrayAt a alloc (cs ++ ts))) (fun _ F'' => R .badAlloc F'') fun _ _ => False := fun k ts hk =>
      rollbackTo (hp.refill (u := arrayAt a alloc (cs ++ ts)) rfl) (hp.fill_self.symm ▸ hR k hk)
    have hnone : ∀ k, M.fails k = true → Leads (Memory.rollbackTo a cs.length) F
        (fun _ F'' => R .badAlloc F'') fun _ _ => False := fun k hk => by
      have hundo := hundo k [] hk
      rwa [List.append_nil, hp.fill_self] at hundo
    rw [hsize]
    refine bind (catchRethrow (allocate (growLoop hp (fun ts hts => ?_) hundo) hnone))
    -- every element is there
    have hlen := hts.length
    rw [List.length_replicate] at hlen
    have hin : position < (cs ++ ts).length := by
      rw [List.length_append]
      omega
    refine elements (hp.refill (u := arrayAt a alloc (cs ++ ts)) rfl).cell rfl ?_
    rw [List.getElem?_map, List.getElem?_eq_getElem hin]
    exact pure (hQ ts _ hts hreach (List.getElem?_eq_getElem hin))
  · have hin : position < cs.length := Nat.not_le.mp hlt
    have hnil := hQ [] cs[position] (by rw [Nat.sub_eq_zero_of_le hin]; exact .nil) (fun h => hlt h.1)
      (by rw [List.append_nil, List.getElem?_eq_getElem hin])
    rw [List.append_nil, hp.fill_self] at hnil
    rw [List.getElem?_map, List.getElem?_eq_getElem hin]
    exact pure hnil

/-- **`operator[](size_t)`**: elements that are asked for are made, all or none. -/
theorem indexSize {Q : Addr → List NodeTree → Prop} {index : Nat} (hs : Sound F)
    (hp : IsPlace F (node a n cs) fill rest) (hindex : index < 2 ^ 64) (hmax : M.maxSize < 2 ^ 64)
    (hQ : ∀ ts t, Leaves n.alloc (List.replicate (index + 1 - (kept n cs).length) .jsonNull) ts →
      ¬ OutOfReach M (kept n cs).length index → (kept n cs ++ ts)[index]? = some t →
        Q t.addr (fill (arrayAt a n.alloc (kept n cs ++ ts))))
    (hR : ∀ k, M.fails k = true → R .badAlloc F)
    (hlength : OutOfReach M (kept n cs).length index → R .lengthError F) :
    Leads (Memory.indexSize M a index) F Q R := by
  unfold Memory.indexSize
  refine isArray hp.cell (fun hn => ?_) fun hn => ?_
  · rw [if_pos rfl]
    rw [kept, if_pos hn] at hQ hlength
    exact indexArray (hs.arrayAt hp hn) hindex hmax hQ hR hlength
  · rw [if_neg Bool.false_ne_true]
    rw [kept, if_neg hn] at hQ hlength
    refine load hp.cell (withLocal fun l => bind (emptyArray (bind ?_) hR))
    refine indexArray (root_place (arrayAt l n.alloc []) F) hindex hmax (fun ts t hts hreach ht => ?_)
      (fun k hk => ⟨_, _, _, rfl, hR k hk⟩) fun hout => ⟨_, _, _, rfl, hlength hout⟩
    refine bind (swapRoot hp rfl (pure ⟨_, _, _, rfl, ?_⟩))
    exact hQ ts t hts hreach ht

end Leads

/-- The position an index of either sign asks for. -/
def positionOf (size : Nat) (index : Int) : Option Nat :=
  if 0 ≤ index then some index.toNat
  else if (-index).toNat ≤ size then some (size - (-index).toNat) else none

/-- A negative index counts from the end. -/
theorem fromEnd_eq {index : Int32} (h : index < 0) : fromEnd index = (-index.toInt).toNat := by
  rw [Int32.lt_iff_toInt_lt] at h
  have hlow := Int32.le_toInt index
  have hneg : (-(index + 1)).toInt = -index.toInt - 1 := by
    simp only [Int32.toInt_neg, Int32.toInt_add, Int32.reduceToInt] at *
    rw [Int.bmod_eq_of_le (n := index.toInt + 1)] <;> try rw [Int.bmod_eq_of_le]
    all_goals omega
  simp only [Int32.reduceToInt] at h
  rw [fromEnd, sizeT, hneg, Nat.mod_eq_of_lt] <;> omega

theorem positionOf_neg {size : Nat} {index : Int32} (h : index < 0) :
    positionOf size index.toInt = if fromEnd index ≤ size then some (size - fromEnd index) else none := by
  have hneg := Int32.lt_iff_toInt_lt.mp h
  simp only [Int32.reduceToInt] at hneg
  rw [positionOf, if_neg (by omega), fromEnd_eq h]

theorem positionOf_nonneg {size : Nat} {index : Int32} (h : ¬ index < 0) :
    positionOf size index.toInt = some index.toInt.toNat := by
  rw [Int32.lt_iff_toInt_lt] at h
  simp only [Int32.reduceToInt] at h
  rw [positionOf, if_pos (by omega)]

theorem fromEnd_pos {index : Int32} (h : index < 0) : 0 < fromEnd index := by
  have hneg := Int32.lt_iff_toInt_lt.mp h
  simp only [Int32.reduceToInt] at hneg
  rw [fromEnd_eq h]
  omega

namespace Leads

/-- **`operator[](int)`.** -/
theorem indexInt {Q : Addr → List NodeTree → Prop} {index : Int32} (hs : Sound F)
    (hp : IsPlace F (node a n cs) fill rest) (hmax : M.maxSize < 2 ^ 64)
    (hQ : ∀ position ts t, positionOf (kept n cs).length index.toInt = some position →
      Leaves n.alloc (List.replicate (position + 1 - (kept n cs).length) .jsonNull) ts →
      ¬ OutOfReach M (kept n cs).length position → (kept n cs ++ ts)[position]? = some t →
        Q t.addr (fill (arrayAt a n.alloc (kept n cs ++ ts))))
    (hR : ∀ k, M.fails k = true → R .badAlloc F)
    (hlength : ∀ position, positionOf (kept n cs).length index.toInt = some position →
      OutOfReach M (kept n cs).length position → R .lengthError F)
    (hrange : positionOf (kept n cs).length index.toInt = none → R .outOfRange F) :
    Leads (Memory.indexInt M a index) F Q R := by
  unfold Memory.indexInt
  refine ite (fun hneg => load hp.cell ?_) fun hneg => ?_
  · rw [positionOf_neg hneg] at hQ hrange
    have hpos := fromEnd_pos hneg
    by_cases hn : n.impl.eType = .jsonArray
    · have harray := hs.arrayAt hp hn
      rw [kept, if_pos hn] at hQ hrange
      rw [impl_of_eType (hs.tree hp).ok hn]
      dsimp only
      rw [List.length_map]
      refine ite (fun hlong => throw (hrange (if_neg (Nat.not_le.mpr hlong)))) fun hlong => ?_
      have hlong := Nat.not_lt.mp hlong
      have hin : cs.length - fromEnd index < cs.length := by omega
      have hfound := hQ _ [] cs[cs.length - fromEnd index] (if_pos hlong)
        (by rw [Nat.sub_eq_zero_of_le hin]; exact .nil) (fun hout => by have := hout.1; omega)
        (by rw [List.append_nil, List.getElem?_eq_getElem hin])
      rw [List.append_nil, harray.fill_self] at hfound
      rw [List.getElem?_map, List.getElem?_eq_getElem hin]
      exact pure hfound
    · rw [kept, if_neg hn] at hrange
      have hnone := hrange (if_neg (by rw [List.length_nil]; omega))
      revert hn
      cases n.impl with
      | jsonArray es => exact fun hn => absurd rfl hn
      | _ => exact fun _ => throw hnone
  · rw [positionOf_nonneg hneg] at hQ hlength
    have hlt := Int32.toInt_lt index
    exact indexSize hs hp (by omega) hmax (fun ts t => hQ _ ts t rfl) hR (hlength _ rfl)

/-! ## Lookups -/

/-- **`findIndex`** finds the element, and changes nothing. -/
theorem findIndex {Q : Option Addr → List NodeTree → Prop} {index : Nat} (hs : Sound F)
    (hp : IsPlace F (node a n cs) fill rest) (hQ : Q ((kept n cs)[index]?.map addr) F) :
    Leads (Memory.findIndex a index) F Q R := by
  unfold Memory.findIndex
  refine load hp.cell ?_
  by_cases hn : n.impl.eType = .jsonArray
  · rw [kept, if_pos hn] at hQ
    rw [impl_of_eType (hs.tree hp).ok hn]
    dsimp only
    rw [List.getElem?_map]
    exact pure hQ
  · rw [kept, if_neg hn] at hQ
    revert hn
    cases n.impl with
    | jsonArray es => exact fun hn => absurd rfl hn
    | _ => exact fun _ => pure hQ

/-- **`find(int)`** does so from either end. -/
theorem findInt {Q : Option Addr → List NodeTree → Prop} {index : Int32} (hs : Sound F)
    (hp : IsPlace F (node a n cs) fill rest)
    (hQ : Q (((positionOf (kept n cs).length index.toInt).bind ((kept n cs)[·]?)).map addr) F) :
    Leads (Memory.findInt a index) F Q R := by
  unfold Memory.findInt
  refine load hp.cell ?_
  by_cases hn : n.impl.eType = .jsonArray
  · rw [kept, if_pos hn] at hQ
    rw [impl_of_eType (hs.tree hp).ok hn]
    dsimp only
    rw [List.length_map]
    refine ite (fun hpos => ?_) fun hneg => ?_
    · rw [positionOf_nonneg (Int32.not_lt.mpr hpos), Option.bind_some] at hQ
      refine ite (fun hout => ?_) fun hin => ?_
      · rw [List.getElem?_eq_none hout] at hQ
        exact pure hQ
      · rw [List.getElem?_eq_getElem (Nat.not_le.mp hin)] at hQ
        rw [List.getElem?_map, List.getElem?_eq_getElem (Nat.not_le.mp hin)]
        exact pure hQ
    · have hneg := Int32.not_le.mp hneg
      have hpos := fromEnd_pos hneg
      rw [positionOf_neg hneg] at hQ
      refine ite (fun hout => ?_) fun hin => ?_
      · rw [if_neg (Nat.not_le.mpr hout)] at hQ
        exact pure hQ
      · have hin := Nat.not_lt.mp hin
        have hlt : cs.length - fromEnd index < cs.length := by omega
        rw [if_pos hin, Option.bind_some, List.getElem?_eq_getElem hlt] at hQ
        rw [List.getElem?_map, List.getElem?_eq_getElem hlt]
        exact pure hQ
  · rw [kept, if_neg hn] at hQ
    have hnone : (positionOf ([] : List NodeTree).length index.toInt).bind (([] : List NodeTree)[·]?) = none := by
      cases positionOf ([] : List NodeTree).length index.toInt with
      | none => rfl
      | some position => exact List.getElem?_nil
    rw [hnone] at hQ
    revert hn
    cases n.impl with
    | jsonArray es => exact fun hn => absurd rfl hn
    | _ => exact fun _ => pure hQ

end Leads

end Memory

end ByteDance
