/-
  Two nodes of one forest.

  A mutator has a receiver and an argument, and either may be anywhere: the same node, one above the other,
  or apart.  `Sound.beside` tells apart trees from trees that overlap, and `Sound.other` finds the receiver
  again after the argument has given up what it owned (`prune`).
-/
import Pjson.Memory.Copy

namespace ByteDance

open Run Ownership Owned

namespace Memory

variable {F : List NodeTree} {s t u : NodeTree} {fs ft : NodeTree → List NodeTree} {rs rt : List (Addr × Node)}

/-! ## Cells -/

theorem mem_cells_root (t : NodeTree) (F : List NodeTree) : (t.addr, t.data) ∈ cellsAll (t :: F) := by
  rw [cellsAll_cons]
  exact List.mem_append_left _ t.root_mem_cells

theorem mem_cells_cons {c : Addr × Node} (t : NodeTree) (hc : c ∈ cellsAll F) : c ∈ cellsAll (t :: F) := by
  rw [cellsAll_cons]
  exact List.mem_append_right _ hc

/-! ## A forest as a map -/

theorem Sound.owns (hs : Sound F) : Owns (fun a => Assoc.find a (cellsAll F)) F :=
  ⟨hs.ok, hs.nodup, ⟨Assoc.mem_of_find, Assoc.find_of_mem hs.nodup⟩⟩

/-- A tree of the forest, as one that stands beside a place. -/
theorem Sound.tree (hs : Sound F) (hp : IsPlace F t ft rt) : Beside t (cellsAll F) :=
  ⟨(hs.owns.stands hp).ok, fun _ hc => hs.owns.holds.iff.mp ((hs.owns.stands hp).cells hc)⟩

theorem Beside.stands (hs : Sound F) (h : Beside t (cellsAll F)) : Stands (fun a => Assoc.find a (cellsAll F)) t :=
  ⟨h.ok, fun hc => hs.owns.holds.iff.mpr (h.cells _ hc)⟩

theorem Sound.nodup_cells (hs : Sound F) (hp : IsPlace F t ft rt) : t.cells.Nodup :=
  (List.nodup_append.mp (hs.owns.place_holds hp).nodup.of_map).2.1

/-- A tree that stands in a forest has a place in it. -/
theorem Sound.place (hs : Sound F) (h : Beside t (cellsAll F)) : ∃ fill rest, IsPlace F t fill rest := by
  obtain ⟨a, n, cs⟩ := t
  have ha := hs.owns.holds.iff.mpr (h.cells (a, n) (root_mem_cells _))
  obtain ⟨cs', fill, rest, hp⟩ := hs.owns.place ha
  have heq := (hs.owns.stands hp).unique (Beside.stands hs h) rfl
  exact ⟨fill, rest, heq ▸ hp⟩

/-! ## A node gives up what it owns -/

/-- A node that stays, without what it owned. -/
theorem Sound.prune {x : Addr} {nx : Node} {xs : List NodeTree} (hs : Sound F)
    (hp : IsPlace F (node x nx xs) fs rs) : Sound (fs (node x { nx with impl := .jsonNull } [])) := by
  have hkey : (node x ({ nx with impl := .jsonNull } : Node) []).key = (node x nx xs).key := rfl
  have hok := (hp.ok rfl hkey (hp.fill_self.symm ▸ hs.ok)).2 (ok_leaf rfl)
  refine ⟨hok, ?_⟩
  have hbefore := hs.owns.place_holds hp
  have hcells := ((hp.cells (node x { nx with impl := .jsonNull } [])).map Prod.fst).nodup_iff
  refine hcells.mpr ?_
  rw [cells_node, cellsAll_nil]
  have hnodup := hbefore.nodup
  rw [cells_node, List.map_append, List.map_cons] at hnodup
  rw [List.map_append, List.map_cons, List.map_nil]
  exact hnodup.sublist ((List.Sublist.refl _).append ((List.nil_sublist _).cons_cons x))

/-- Trees that do not have each other's root are apart. -/
theorem Sound.beside (hs : Sound F) (hpt : IsPlace F t ft rt) (hps : IsPlace F s fs rs) (hts : t.addr ∉ s.addrs)
    (hst : s.addr ∉ t.addrs) : ∀ c ∈ s.cells, c ∈ rt := by
  obtain ⟨a, n, cs⟩ := t
  obtain ⟨x, nx, xs⟩ := s
  have hs₀ := hs.prune hpt
  have hcells : ∀ {b k}, (b, k) ∈ cellsAll (ft (node a { n with impl := .jsonNull } [])) →
      (b, k) ∈ rt ∨ (b = a ∧ k = { n with impl := .jsonNull }) := fun hmem => by
    have hor := (hpt.cells _).mem_iff.mp hmem
    rw [cells_node, cellsAll_nil, List.mem_append, List.mem_singleton, Prod.mk.injEq] at hor
    exact hor
  have hold : ∀ {c}, c ∈ rt → c ∈ cellsAll F := fun hc => hpt.cells_perm.mem_iff.mpr (List.mem_append_left _ hc)
  -- the second tree in the forest without the first
  have hx : (x, nx) ∈ rt := by
    refine (hpt.mem_or ((hs.tree hps).cells _ (root_mem_cells _))).resolve_right fun hmem => ?_
    exact hst (List.mem_map.mpr ⟨_, hmem, rfl⟩)
  obtain ⟨s₀, f₀, r₀, haddr, hp₀⟩ := exists_place (List.mem_map.mpr ⟨_, hpt.mem_rest hx _, rfl⟩)
  have hstands₀ := hs₀.owns.stands hp₀
  have hsubset := (hs.owns.stands hps).addrs_subset hstands₀ haddr fun b _ k hk => by
    rcases hcells (hs₀.owns.holds.iff.mp hk) with hmem | ⟨-, rfl⟩
    · exact Or.inl (hs.owns.holds.iff.mpr (hold hmem))
    · exact Or.inr rfl
  -- it does not have the first below it, so it is the tree it was
  have hrest : ∀ c ∈ s₀.cells, c ∈ rt := fun c hc => by
    obtain ⟨b, k⟩ := c
    refine (hcells ((hs₀.tree hp₀).cells _ hc)).resolve_right fun h => ?_
    exact hts (hsubset a (List.mem_map.mpr ⟨(b, k), hc, h.1⟩))
  have hstands : Stands (fun a => Assoc.find a (cellsAll F)) s₀ :=
    ⟨hstands₀.ok, fun hc => hs.owns.holds.iff.mpr (hold (hrest _ hc))⟩
  rw [← hstands.unique (hs.owns.stands hps) haddr]
  exact hrest

/-- **The other node has a place still**, with the value it had and nothing new below it. -/
theorem Sound.other {x a : Addr} {nx n : Node} {xs cs : List NodeTree} (hs : Sound F)
    (hps : IsPlace F (node x nx xs) fs rs) (hpt : IsPlace F (node a n cs) ft rt)
    (ha : a ∉ (node x nx xs).addrs) : ∃ cs' f r,
      IsPlace (fs (node x { nx with impl := .jsonNull } [])) (node a n cs') f r ∧
      (∀ b ∈ (node a n cs').addrs, b ∈ (node a n cs).addrs) ∧ (x ∉ (node a n cs).addrs → cs' = cs) := by
  have hs₁ := hs.prune hps
  have hcells : ∀ {b k}, (b, k) ∈ cellsAll (fs (node x { nx with impl := .jsonNull } [])) →
      (b, k) ∈ rs ∨ (b = x ∧ k = { nx with impl := .jsonNull }) := fun hmem => by
    have hor := (hps.cells _).mem_iff.mp hmem
    rw [cells_node, cellsAll_nil, List.mem_append, List.mem_singleton, Prod.mk.injEq] at hor
    exact hor
  have hold : ∀ {c}, c ∈ rs → c ∈ cellsAll F := fun hc => hps.cells_perm.mem_iff.mpr (List.mem_append_left _ hc)
  have hmem : (a, n) ∈ rs := by
    refine (hps.mem_or ((hs.tree hpt).cells _ (root_mem_cells _))).resolve_right fun hmem => ?_
    exact ha (List.mem_map.mpr ⟨_, hmem, rfl⟩)
  have hnode : Assoc.find a (cellsAll (fs (node x { nx with impl := .jsonNull } []))) = some n :=
    hs₁.owns.holds.iff.mpr (hps.mem_rest hmem _)
  obtain ⟨cs', f, r, hp⟩ := hs₁.owns.place hnode
  refine ⟨cs', f, r, hp, ?_, fun hx => ?_⟩
  · refine (hs.owns.stands hpt).addrs_subset (hs₁.owns.stands hp) rfl fun b _ k hk => ?_
    rcases hcells (hs₁.owns.holds.iff.mp hk) with hmem | ⟨-, rfl⟩
    · exact Or.inl (hs.owns.holds.iff.mpr (hold hmem))
    · exact Or.inr rfl
  · have hrest := hs.beside hps hpt (t := node x nx xs) (s := node a n cs) hx ha
    have hstands : Stands (fun a => Assoc.find a (cellsAll (fs (node x { nx with impl := .jsonNull } []))))
        (node a n cs) :=
      ⟨(hs.tree hpt).ok, fun hc => hs₁.owns.holds.iff.mpr (hps.mem_rest (hrest _ hc) _)⟩
    have heq := (hs₁.owns.stands hp).unique hstands rfl
    rw [node.injEq] at heq
    exact heq.2.2

end Memory

end ByteDance
