/-
  Assignment and exchange, with any overlap.

  The rules speak of the receiver's tree and of the argument's.  A copy is built beside both and then takes
  the receiver's place.  A move takes what the argument owns first, and the receiver is looked for again in
  what is left; if the receiver is below the argument, or if that cannot be told, the argument is copied.
  An exchange of trees that overlap does not happen.
-/
import Pjson.Memory.Ancestry

namespace ByteDance

open Run Ownership Owned

namespace Memory

variable {M : Machine} {F : List NodeTree} {R : HeapExit → List NodeTree → Prop} {a x : Addr} {n nx : Node}
  {cs xs : List NodeTree} {fill fx : NodeTree → List NodeTree} {rest rx : List (Addr × Node)}

/-- The receiver with what it has been given. -/
structure Gives (t s : NodeTree) (t' : NodeTree) : Prop where
  key : t'.key = t.key
  value : value t' = value s

theorem root_place (t : NodeTree) (F : List NodeTree) :
    IsPlace (t :: F) t (fun t' => t' :: F) (cellsAll F) := by
  have h := (IsPlace.root t).around [] F
  simpa only [List.nil_append, List.singleton_append, cellsAll_nil] using h

namespace Leads

/-- A value that has been built in a local takes the receiver's place. -/
theorem publish {Q : Unit → List NodeTree → Prop} {l : Addr} {t s : NodeTree}
    (hp : IsPlace F (node a n cs) fill rest) (ht : IsCopy s l n.alloc t)
    (hQ : ∀ t', Gives (node a n cs) s t' → Q () (fill t')) :
    Leads (swapStorage a l) (t :: F) (fun v F' => ∃ m ds G, F' = node l m ds :: G ∧ Q v G) R := by
  obtain ⟨l', nl, ls⟩ := t
  obtain ⟨hkey, hvalue⟩ := ht
  rw [key_node, Prod.mk.injEq] at hkey
  obtain ⟨rfl, halloc⟩ := hkey
  refine swapRoot hp halloc ⟨_, _, _, rfl, hQ _ ⟨rfl, ?_⟩⟩
  rw [value_node] at hvalue ⊢
  exact hvalue

/-- **Copy assignment.** -/
theorem copyFrom {Q : Unit → List NodeTree → Prop} {s : NodeTree} (hp : IsPlace F (node a n cs) fill rest)
    (hs : Beside s (cellsAll F)) (hnodup : s.cells.Nodup) (hself : a = s.addr → Q () F)
    (hQ : ∀ t', Gives (node a n cs) s t' → Q () (fill t')) (hR : ∀ k, M.fails k = true → R .badAlloc F) :
    Leads (Memory.copyFrom M a s.addr) F Q R := by
  unfold Memory.copyFrom
  refine ite (fun heq => pure (hself heq)) fun _ => ?_
  refine load (hp.cell) (withLocal fun l => bind ?_)
  refine copyContentsInto (root_place _ F) hs hnodup (fun t ht => publish hp ht hQ) fun k hk => ?_
  exact ⟨_, _, _, rfl, hR k hk⟩

/-- **Move assignment.** -/
theorem assignMove {Q : Unit → List NodeTree → Prop} (hs : Sound F) (hp : IsPlace F (node a n cs) fill rest)
    (hx : IsPlace F (node x nx xs) fx rx) (hself : x = a → Q () F)
    (hcopy : ∀ t', Gives (node a n cs) (node x nx xs) t' → Q () (fill t'))
    (hmove : a ∉ (node x nx xs).addrs → ∃ cs' f r,
      IsPlace (fx (node x { nx with impl := .jsonNull } [])) (node a n cs') f r ∧
        ∀ t', Gives (node a n cs) (node x nx xs) t' → Q () (f t'))
    (hR : ∀ k, M.fails k = true → R .badAlloc F) : Leads (Memory.assignMove M a x) F Q R := by
  have htree := hs.tree hx
  have hnodup := hs.nodup_cells hx
  unfold Memory.assignMove
  refine ite (fun heq => pure (hself heq)) fun hne => ?_
  refine containsNode (t := node x nx xs) htree hnodup (fun _ => ?_) fun hout => ?_
  · rw [if_pos rfl]
    exact copyFrom hp htree hnodup (fun heq => absurd heq.symm hne) hcopy hR
  · rw [if_neg Bool.false_ne_true]
    obtain ⟨cs', f, r, hplace, hmove⟩ := hmove hout
    refine load (hp.cell) ?_
    refine load (hx.cell) ?_
    refine ite (fun halloc => withLocal fun l => bind ?_) fun halloc => withLocal fun l => bind ?_
    · refine rootSwap hx halloc ?_
      refine swapRoot hplace rfl ⟨_, _, _, rfl, hmove _ ⟨rfl, ?_⟩⟩
      rw [value_node, value_node]
    · refine copyContentsInto (root_place _ F) htree hnodup (fun t ht => bind ?_) fun k hk => ?_
      · exact reset (hx.cons t) (publish hplace ht fun t' ht' => hmove t' ⟨ht'.key, ht'.value⟩)
      · exact ⟨_, _, _, rfl, hR k hk⟩

/-- The test of an exchange: yes only for trees of one domain that are apart, and for a node and itself. -/
theorem canSwap {Q : Bool → List NodeTree → Prop} (hs : Sound F) (hp : IsPlace F (node a n cs) fill rest)
    (hx : IsPlace F (node x nx xs) fx rx)
    (hyes : n.alloc = nx.alloc → (a = x ∨ a ∉ (node x nx xs).addrs ∧ x ∉ (node a n cs).addrs) → Q true F)
    (hno : Q false F) : Leads (Memory.canSwap M a x) F Q R := by
  unfold Memory.canSwap
  refine load (hp.cell) ?_
  refine load (hx.cell) ?_
  refine ite (fun halloc => ite (fun heq => pure (hyes halloc (Or.inl heq))) fun _ => ?_) fun _ => pure hno
  refine containsNode (t := node a n cs) (hs.tree hp) (hs.nodup_cells hp) (fun _ => ?_) fun hxa => ?_
  · rw [if_pos rfl]
    exact pure hno
  · rw [if_neg Bool.false_ne_true]
    refine containsNode (t := node x nx xs) (hs.tree hx) (hs.nodup_cells hx) (fun _ => pure hno) fun hax => ?_
    exact pure (hyes halloc (Or.inr ⟨hax, hxa⟩))

/-- Two nodes of trees that are apart exchange their values. -/
theorem swapApart {Q : Unit → List NodeTree → Prop} (hs : Sound F) (hp : IsPlace F (node a n cs) fill rest)
    (hx : IsPlace F (node x nx xs) fx rx) (halloc : n.alloc = nx.alloc) (hax : a ∉ (node x nx xs).addrs)
    (hxa : x ∉ (node a n cs).addrs)
    (hQ : ∀ F', F'.map key = F.map key → Beside (node a { n with impl := nx.impl } xs) (cellsAll F') →
      Beside (node x { nx with impl := n.impl } cs) (cellsAll F') →
      (∀ c ∈ cellsAll F, c.1 ≠ a → c.1 ≠ x → c ∈ cellsAll F') → Q () F') :
    Leads (swapStorage a x) F Q R := fun h hi => by
  have ha : h.nodes a = some n := hi.owns.place_data hp
  have hnx : h.nodes x = some nx := hi.owns.place_data hx
  have hne : x ≠ a := fun heq => hxa (heq ▸ addr_mem_addrs _)
  obtain ⟨F', howns, hkeys⟩ : ∃ F', Owns (Function.update (Function.update h.nodes a
      (some { n with impl := nx.impl })) x (some { nx with impl := n.impl })) F' ∧ F'.map key = F.map key :=
    hi.owns.exchange hp hx hxa hax rfl rfl halloc rfl rfl
      (show Slotted.slots ({ n with impl := .jsonNull } : Node) = [] from rfl) rfl
  rw [ends_swapStorage ha hnx hne]
  refine ⟨⟨le_refl _, fun _ hb => hb⟩, F', hi.swapped ha hnx hne halloc howns, ?_⟩
  -- every other cell is what it was
  have hsame : ∀ c ∈ cellsAll F, c.1 ≠ a → c.1 ≠ x → c ∈ cellsAll F' := fun c hc hca hcx => by
    rw [← howns.holds.iff, Function.update_of_ne hcx, Function.update_of_ne hca]
    exact hi.mem.holds.iff.mpr hc
  have htree : ∀ {b c : Addr} {m k : Node} {ds : List NodeTree}, Beside (node b m ds) (cellsAll F) →
      (∀ y ∈ cellsAll ds, y.1 ≠ a ∧ y.1 ≠ x) → k.impl.children = m.impl.children → k.alloc = m.alloc →
      (c, k) ∈ cellsAll F' → Beside (node c k ds) (cellsAll F') := fun hb hds hslots htag hck => by
    obtain ⟨hok, htags, hdok⟩ := ok_node.mp hb.ok
    refine ⟨ok_node.mpr ⟨hslots.trans hok, fun d hd => (htags d hd).trans htag.symm, hdok⟩, fun y hy => ?_⟩
    rw [cells_node, List.mem_cons] at hy
    rcases hy with rfl | hy
    · exact hck
    · refine hsame y (hb.cells y ?_) (hds y hy).1 (hds y hy).2
      rw [cells_node]
      exact List.mem_cons_of_mem _ hy
  have hbelow : ∀ {b : Addr} {m : Node} {ds : List NodeTree} {fl : NodeTree → List NodeTree}
      {rs : List (Addr × Node)}, IsPlace F (node b m ds) fl rs → ∀ y ∈ cellsAll ds, y.1 ≠ b := fun hpl y hy heq => by
    have hnodup := (hs.owns.place_holds hpl).nodup
    rw [cells_node, List.map_append, List.map_cons] at hnodup
    exact (List.nodup_cons.mp (List.nodup_append.mp hnodup).2.1).1 (List.mem_map.mpr ⟨y, hy, heq⟩)
  have hin : ∀ {b : Addr} {m : Node} {ds : List NodeTree} {y : Addr × Node}, y ∈ cellsAll ds →
      y.1 ∈ (node b m ds).addrs := fun hy => by
    rw [addrs, cells_node, List.map_cons]
    exact List.mem_cons_of_mem _ (List.mem_map_of_mem hy)
  refine hQ F' hkeys (htree (hs.tree hx) (fun y hy => ⟨fun heq => hax (heq ▸ hin hy), hbelow hx y hy⟩) rfl
    halloc ?_) (htree (hs.tree hp) (fun y hy => ⟨hbelow hp y hy, fun heq => hxa (heq ▸ hin hy)⟩) rfl
    halloc.symm ?_) hsame
  · rw [← howns.holds.iff, Function.update_of_ne hne.symm, Function.update_self]
  · rw [← howns.holds.iff, Function.update_self]

/-- **Exchange**: of trees of one domain that are apart, or not at all. -/
theorem swap {Q : Unit → List NodeTree → Prop} (hs : Sound F) (hp : IsPlace F (node a n cs) fill rest)
    (hx : IsPlace F (node x nx xs) fx rx) (hsame : Q () F)
    (hQ : ∀ F', F'.map key = F.map key → Beside (node a { n with impl := nx.impl } xs) (cellsAll F') →
      Beside (node x { nx with impl := n.impl } cs) (cellsAll F') →
      (∀ c ∈ cellsAll F, c.1 ≠ a → c.1 ≠ x → c ∈ cellsAll F') → Q () F') :
    Leads (Memory.swap M a x) F Q R := by
  unfold Memory.swap
  refine ite (fun _ => pure hsame) fun hne => bind (canSwap hs hp hx (fun halloc hor => ?_) ?_)
  · obtain ⟨hax, hxa⟩ := hor.resolve_left hne
    rw [if_pos rfl]
    exact swapApart hs hp hx halloc hax hxa hQ
  · rw [if_neg Bool.false_ne_true]
    exact pure hsame

end Leads

end Memory

end ByteDance
