/-
  Heaps of owning pointers.

  A node of the heap has slots, each of which holds the address of a node it owns, and a tag that an
  owner shares with what it owns (an allocator, say).  `Owns m F` says that the heap `m` is the
  forest `F` and nothing else: every live node is a root of `F` or is referred to by exactly one slot of
  one live node, no slot dangles, no node is below itself, and nothing is lost.

  A program changes such a heap in a few ways, and each has its rule: a node written anew, which gives up
  some children and takes some roots (`Owns.write`), a root that exchanges what it owns with a node
  anywhere (`Owns.exchangeRoot`), and two nodes that exchange it (`Owns.exchange`).  To write below a root,
  the forest is seen as a tree in a context (`IsPlace`): the context does not change while the tree in it
  does.  The crux is that it need not be looked at either: what has to be shown of a change is about the
  cells of the one tree.
-/
import Mathlib

namespace Ownership

/-- Nodes with slots for addresses, and a tag. -/
class Slotted (ν : Type) (ι τ : outParam Type) where
  slots : ν → List ι
  tag : ν → τ

open Slotted

variable {ι ν τ : Type}

/-- A node at its address with what it owns. -/
inductive Owned (ι ν : Type) where
  | node (addr : ι) (data : ν) (children : List (Owned ι ν))

namespace Owned

def addr : Owned ι ν → ι
  | node a _ _ => a

def data : Owned ι ν → ν
  | node _ n _ => n

def children : Owned ι ν → List (Owned ι ν)
  | node _ _ cs => cs

@[simp] theorem addr_node (a : ι) (n : ν) (cs : List (Owned ι ν)) : (node a n cs).addr = a := rfl

@[simp] theorem data_node (a : ι) (n : ν) (cs : List (Owned ι ν)) : (node a n cs).data = n := rfl

@[simp] theorem children_node (a : ι) (n : ν) (cs : List (Owned ι ν)) :
    (node a n cs).children = cs := rfl

/-- Induction on a tree: what holds of the children holds of the node. -/
@[elab_as_elim]
theorem induct {motive : Owned ι ν → Prop}
    (node : ∀ a n cs, (∀ c ∈ cs, motive c) → motive (node a n cs)) : ∀ t, motive t
  | .node a n cs => node a n cs fun c hc =>
    have : sizeOf c < sizeOf cs := List.sizeOf_lt_of_mem hc
    induct node c
termination_by t => sizeOf t
decreasing_by simp only [Owned.node.sizeOf_spec]; omega

mutual
/-- The nodes of a tree with their addresses. -/
def cells : Owned ι ν → List (ι × ν)
  | node a n cs => (a, n) :: cellsAll cs
def cellsAll : List (Owned ι ν) → List (ι × ν)
  | [] => []
  | t :: ts => t.cells ++ cellsAll ts
end

/-- The cells of a tree: its root, and those of its children. -/
@[simp] theorem cells_node (a : ι) (n : ν) (cs : List (Owned ι ν)) :
    (node a n cs).cells = (a, n) :: cellsAll cs := by rw [cells]

@[simp] theorem cellsAll_nil : cellsAll ([] : List (Owned ι ν)) = [] := by rw [cellsAll]

@[simp] theorem cellsAll_cons (t : Owned ι ν) (ts : List (Owned ι ν)) :
    cellsAll (t :: ts) = t.cells ++ cellsAll ts := by rw [cellsAll]

/-- The cells of two forests. -/
theorem cellsAll_append (ts ts' : List (Owned ι ν)) :
    cellsAll (ts ++ ts') = cellsAll ts ++ cellsAll ts' := by
  induction ts with
  | nil => simp
  | cons t ts ih => rw [List.cons_append, cellsAll_cons, cellsAll_cons, ih, List.append_assoc]

/-- The same trees in another order have the same cells. -/
theorem cellsAll_perm {ts ts' : List (Owned ι ν)} (h : ts.Perm ts') :
    (cellsAll ts).Perm (cellsAll ts') := by
  induction h with
  | nil => exact List.Perm.refl _
  | cons t _ ih =>
    rw [cellsAll_cons, cellsAll_cons]
    exact ih.append_left _
  | swap t u ts =>
    rw [cellsAll_cons, cellsAll_cons, cellsAll_cons, cellsAll_cons, ← List.append_assoc,
      ← List.append_assoc]
    exact List.perm_append_comm.append_right _
  | trans _ _ ih₁ ih₂ => exact ih₁.trans ih₂

/-- A cell of a forest is one of its trees. -/
theorem mem_cellsAll {x : ι × ν} {ts : List (Owned ι ν)} :
    x ∈ cellsAll ts ↔ ∃ t ∈ ts, x ∈ t.cells := by
  induction ts with
  | nil => simp
  | cons t ts ih => rw [cellsAll_cons, List.mem_append, ih, List.exists_mem_cons_iff]

/-- The root is a cell. -/
theorem root_mem_cells (t : Owned ι ν) : (t.addr, t.data) ∈ t.cells := by
  obtain ⟨a, n, cs⟩ := t
  simp

/-- The addresses in a tree. -/
def addrs (t : Owned ι ν) : List ι := t.cells.map Prod.fst

/-- And its address one of the addresses. -/
theorem addr_mem_addrs (t : Owned ι ν) : t.addr ∈ t.addrs := List.mem_map.mpr ⟨_, t.root_mem_cells, rfl⟩

variable [Slotted ν ι τ]

/-- What an owner knows of a tree: where it is, and its tag. -/
def key (t : Owned ι ν) : ι × τ := (t.addr, tag t.data)

@[simp] theorem key_node (a : ι) (n : ν) (cs : List (Owned ι ν)) : (node a n cs).key = (a, tag n) := rfl

mutual
/-- The slots of every node are the addresses of its children, which share its tag. -/
def Ok : Owned ι ν → Prop
  | node _ n cs => slots n = cs.map addr ∧ (∀ c ∈ cs, tag c.data = tag n) ∧ OkAll cs
def OkAll : List (Owned ι ν) → Prop
  | [] => True
  | t :: ts => t.Ok ∧ OkAll ts
end

/-- A forest is well formed if its trees are. -/
theorem okAll_iff {ts : List (Owned ι ν)} : OkAll ts ↔ ∀ t ∈ ts, t.Ok := by
  induction ts with
  | nil => simp [OkAll]
  | cons t ts ih => rw [OkAll, ih, List.forall_mem_cons]

/-- A tree is well formed if its slots hold its children, which have its tag and are well formed. -/
theorem ok_node {a : ι} {n : ν} {cs : List (Owned ι ν)} :
    (node a n cs).Ok ↔ slots n = cs.map addr ∧ (∀ c ∈ cs, tag c.data = tag n) ∧ ∀ c ∈ cs, c.Ok := by
  rw [Ok, okAll_iff]

/-- Every cell of a tree has the tag of its root. -/
theorem tag_of_mem {t : Owned ι ν} (h : t.Ok) {c : ι × ν} (hc : c ∈ t.cells) :
    tag c.2 = tag t.data := by
  induction t using Owned.induct with
  | node a n cs ih =>
    obtain ⟨-, htags, hcs⟩ := ok_node.mp h
    rw [cells_node, List.mem_cons, mem_cellsAll] at hc
    rcases hc with rfl | ⟨u, hu, hcu⟩
    · rfl
    · exact (ih u hu (hcs u hu) hcu).trans (htags u hu)

/-- A node without slots. -/
theorem ok_leaf {a : ι} {n : ν} (h : slots n = []) : (node a n []).Ok :=
  ok_node.mpr ⟨h, by simp, by simp⟩

end Owned

open Owned

/-! ## A map that is a list of cells -/

/-- The map has the cells of the list and no others. -/
structure Holds (m : ι → Option ν) (cells : List (ι × ν)) : Prop where
  nodup : (cells.map Prod.fst).Nodup
  iff : ∀ {a n}, m a = some n ↔ (a, n) ∈ cells

namespace Holds

variable {m m' : ι → Option ν} {L L' : List (ι × ν)} {a : ι} {n n' : ν}

/-- The order of the cells does not matter to the map. -/
theorem perm (h : Holds m L) (hp : L.Perm L') : Holds m L' :=
  ⟨(hp.map Prod.fst).nodup_iff.mp h.nodup, h.iff.trans hp.mem_iff⟩

/-- The cells determine the map. -/
theorem unique (h : Holds m L) (h' : Holds m' L) : m = m' := by
  funext a
  apply Option.ext
  intro n
  rw [h.iff, h'.iff]

/-- The map determines the cells, up to their order. -/
theorem perm_of (h : Holds m L) (h' : Holds m L') : L.Perm L' := by
  refine (List.perm_ext_iff_of_nodup h.nodup.of_map h'.nodup.of_map).mpr fun c => ?_
  obtain ⟨a, n⟩ := c
  rw [← h.iff, ← h'.iff]

/-- The map has the addresses of the cells and no others. -/
theorem eq_none_iff (h : Holds m L) : m a = none ↔ a ∉ L.map Prod.fst := by
  constructor
  · intro hnone hmem
    obtain ⟨⟨a', n⟩, hin, rfl⟩ := List.mem_map.mp hmem
    rw [h.iff.mpr hin] at hnone
    cases hnone
  · intro hmem
    rw [Option.eq_none_iff_forall_not_mem]
    intro n hn
    exact hmem (List.mem_map.mpr ⟨_, h.iff.mp hn, rfl⟩)

variable [DecidableEq ι]

/-- A cell is taken out. -/
theorem erase (h : Holds m ((a, n) :: L)) : Holds (Function.update m a none) L := by
  have hnodup := List.nodup_cons.mp h.nodup
  refine ⟨hnodup.2, ?_⟩
  intro b k
  by_cases hb : b = a
  · subst hb
    rw [Function.update_self]
    constructor
    · intro hk
      cases hk
    · intro hk
      exact absurd (List.mem_map.mpr ⟨_, hk, rfl⟩) hnodup.1
  · rw [Function.update_of_ne hb, h.iff, List.mem_cons, Prod.mk.injEq]
    exact or_iff_right fun he => hb he.1

/-- A cell is put where there is none. -/
theorem insert (h : Holds m L) (ha : m a = none) : Holds (Function.update m a (some n)) ((a, n) :: L) := by
  refine ⟨List.nodup_cons.mpr ⟨h.eq_none_iff.mp ha, h.nodup⟩, ?_⟩
  intro b k
  by_cases hb : b = a
  · subst hb
    rw [Function.update_self, List.mem_cons, Prod.mk.injEq, Option.some.injEq]
    constructor
    · rintro rfl
      exact Or.inl ⟨rfl, rfl⟩
    · rintro (⟨-, rfl⟩ | hk)
      · rfl
      · exact absurd (List.mem_map.mpr ⟨_, hk, rfl⟩) (h.eq_none_iff.mp ha)
  · rw [Function.update_of_ne hb, h.iff, List.mem_cons, Prod.mk.injEq]
    exact (or_iff_right fun he => hb he.1).symm

/-- A cell is rewritten. -/
theorem replace (h : Holds m ((a, n) :: L)) :
    Holds (Function.update m a (some n')) ((a, n') :: L) := by
  have hnew := h.erase.insert (n := n') (Function.update_self a none m)
  rwa [Function.update_idem] at hnew

end Holds

/-! ## Trees that stand in a map -/

variable [Slotted ν ι τ]

/-- Two lists that a function maps to the same list are the same, if it tells their elements apart. -/
theorem eq_of_map_eq {α β : Type} {f : α → β} : ∀ {l l' : List α}, l.map f = l'.map f →
    (∀ x ∈ l, ∀ y ∈ l', f x = f y → x = y) → l = l'
  | [], [], _, _ => rfl
  | [], _ :: _, h, _ => by simp at h
  | _ :: _, [], h, _ => by simp at h
  | x :: l, y :: l', h, hinj => by
      rw [List.map_cons, List.map_cons, List.cons.injEq] at h
      rw [hinj x (List.mem_cons_self ..) y (List.mem_cons_self ..) h.1]
      rw [eq_of_map_eq h.2 fun u hu v hv =>
        hinj u (List.mem_cons_of_mem _ hu) v (List.mem_cons_of_mem _ hv)]

/-- The tree is part of the map. -/
structure Stands (m : ι → Option ν) (t : Owned ι ν) : Prop where
  ok : t.Ok
  cells : ∀ {a n}, (a, n) ∈ t.cells → m a = some n

namespace Stands

variable {m m' : ι → Option ν} {a : ι} {n : ν} {cs : List (Owned ι ν)} {t t' : Owned ι ν}

/-- A tree stands in a map if its root does and its children do. -/
theorem node_iff : Stands m (node a n cs) ↔
    m a = some n ∧ slots n = cs.map addr ∧ (∀ c ∈ cs, tag c.data = tag n) ∧ ∀ c ∈ cs, Stands m c := by
  constructor
  · intro h
    obtain ⟨hslots, htags, hok⟩ := ok_node.mp h.ok
    refine ⟨h.cells (by simp), hslots, htags, fun c hc => ⟨hok c hc, fun hmem => h.cells ?_⟩⟩
    rw [cells_node]
    exact List.mem_cons_of_mem _ (mem_cellsAll.mpr ⟨c, hc, hmem⟩)
  · rintro ⟨ha, hslots, htags, hcs⟩
    refine ⟨ok_node.mpr ⟨hslots, htags, fun c hc => (hcs c hc).ok⟩, fun hmem => ?_⟩
    rw [cells_node, List.mem_cons, mem_cellsAll] at hmem
    rcases hmem with heq | ⟨c, hc, hmem⟩
    · cases heq
      exact ha
    · exact (hcs c hc).cells hmem

/-- The map determines the tree at an address. -/
theorem unique (h : Stands m t) (h' : Stands m t') (ha : t.addr = t'.addr) : t = t' := by
  induction t using Owned.induct generalizing t' with
  | node a n cs ih =>
    obtain ⟨a', n', cs'⟩ := t'
    obtain ⟨hn, hslots, -, hcs⟩ := node_iff.mp h
    obtain ⟨hn', hslots', -, hcs'⟩ := node_iff.mp h'
    rw [addr_node, addr_node] at ha
    subst ha
    cases hn.symm.trans hn'
    rw [eq_of_map_eq (hslots.symm.trans hslots') fun c hc d hd => ih c hc (hcs c hc) (hcs' d hd)]

/-- A tree loses nodes when some of its nodes lose their slots. -/
theorem addrs_subset (h : Stands m t) (h' : Stands m' t') (ha : t'.addr = t.addr)
    (hm : ∀ b ∈ t.addrs, ∀ k, m' b = some k → m b = some k ∨ slots k = []) : ∀ b ∈ t'.addrs, b ∈ t.addrs := by
  induction t using Owned.induct generalizing t' with
  | node a n cs ih =>
    obtain ⟨a', n', cs'⟩ := t'
    obtain ⟨hn, hslots, -, hcs⟩ := node_iff.mp h
    obtain ⟨hn', hslots', -, hcs'⟩ := node_iff.mp h'
    rw [addr_node, addr_node] at ha
    subst ha
    have hbelow : ∀ c ∈ cs, ∀ b ∈ c.addrs, b ∈ (node a' n cs).addrs := fun c hc b hb => by
      obtain ⟨x, hx, rfl⟩ := List.mem_map.mp hb
      refine List.mem_map.mpr ⟨x, ?_, rfl⟩
      rw [cells_node]
      exact List.mem_cons_of_mem _ (mem_cellsAll.mpr ⟨c, hc, hx⟩)
    intro b hb
    obtain ⟨⟨b', k⟩, hmem, rfl⟩ := List.mem_map.mp hb
    rw [cells_node, List.mem_cons, mem_cellsAll] at hmem
    rcases hmem with heq | ⟨c', hc', hmem⟩
    · cases heq
      exact addr_mem_addrs _
    · rcases hm a' (addr_mem_addrs _) n' hn' with hsame | hleaf
      · cases hn.symm.trans hsame
        have hmap : c'.addr ∈ cs.map addr := hslots.symm.trans hslots' ▸ List.mem_map_of_mem hc'
        obtain ⟨c, hc, haddr⟩ := List.mem_map.mp hmap
        exact hbelow c hc _ (ih c hc (hcs c hc) (hcs' c' hc') haddr.symm
          (fun b' hb' => hm b' (hbelow c hc b' hb')) _ (List.mem_map_of_mem hmem))
      · rw [hleaf] at hslots'
        rw [List.map_eq_nil_iff.mp hslots'.symm] at hc'
        cases hc'

/-- Only its own cells matter to a tree. -/
theorem frame (h : Stands m t) (hm : ∀ a ∈ t.addrs, m' a = m a) : Stands m' t :=
  ⟨h.ok, fun hmem => (hm _ (List.mem_map.mpr ⟨_, hmem, rfl⟩)).trans (h.cells hmem)⟩

end Stands

/-! ## Trees in context -/

/-- The forest is the tree in a context: `fill` puts another tree in its place, and `rest` are the cells
    around it.  A tree with the same key fits. -/
structure IsPlace (F : List (Owned ι ν)) (t : Owned ι ν) (fill : Owned ι ν → List (Owned ι ν))
    (rest : List (ι × ν)) : Prop where
  fill_self : fill t = F
  cells : ∀ t', (cellsAll (fill t')).Perm (rest ++ t'.cells)
  ok : ∀ {t' t''}, t'.key = t.key → t''.key = t.key → OkAll (fill t') →
    t'.Ok ∧ (t''.Ok → OkAll (fill t''))
  keys : ∀ {t'}, t'.key = t.key → (fill t').map key = F.map key

namespace IsPlace

variable {F : List (Owned ι ν)} {t u : Owned ι ν} {fill : Owned ι ν → List (Owned ι ν)}
  {rest : List (ι × ν)}

/-- The cells of a forest are those of the tree at the place and those around it. -/
theorem cells_perm (h : IsPlace F t fill rest) : (cellsAll F).Perm (rest ++ t.cells) := by
  have hp := h.cells t
  rwa [h.fill_self] at hp

/-- The cells around the place are cells of the forest. -/
theorem mem_rest (h : IsPlace F t fill rest) {c : ι × ν} (hc : c ∈ rest) (t' : Owned ι ν) :
    c ∈ cellsAll (fill t') := (h.cells t').mem_iff.mpr (List.mem_append_left _ hc)

/-- So are those of the tree. -/
theorem mem_cells (h : IsPlace F t fill rest) {c : ι × ν} (t' : Owned ι ν) (hc : c ∈ t'.cells) :
    c ∈ cellsAll (fill t') := (h.cells t').mem_iff.mpr (List.mem_append_right _ hc)

/-- The node at the place. -/
theorem cell {a : ι} {n : ν} {cs : List (Owned ι ν)} (h : IsPlace F (node a n cs) fill rest) :
    (a, n) ∈ cellsAll F := h.fill_self ▸ h.mem_cells _ (root_mem_cells _)

/-- A cell of the forest is outside the tree or in it. -/
theorem mem_or (h : IsPlace F t fill rest) {c : ι × ν} (hc : c ∈ cellsAll F) : c ∈ rest ∨ c ∈ t.cells :=
  List.mem_append.mp (h.cells_perm.mem_iff.mp hc)

/-- Another tree in the same place. -/
theorem refill (h : IsPlace F t fill rest) {u : Owned ι ν} (hk : u.key = t.key) :
    IsPlace (fill u) u fill rest :=
  ⟨rfl, h.cells, fun h₁ h₂ => h.ok (h₁.trans hk) (h₂.trans hk), fun h₁ =>
    (h.keys (h₁.trans hk)).trans (h.keys hk).symm⟩

/-- A tree stands in no context. -/
theorem root (t : Owned ι ν) : IsPlace [t] t (fun t' => [t']) [] := by
  refine ⟨rfl, fun t' => by simp, fun _ _ hok => ?_, fun hk => by simp [hk]⟩
  exact ⟨okAll_iff.mp hok _ (List.mem_singleton_self _), fun ht => okAll_iff.mpr (by simpa using ht)⟩

/-- Trees around a forest. -/
theorem around (h : IsPlace F t fill rest) (pre post : List (Owned ι ν)) :
    IsPlace (pre ++ (F ++ post)) t (fun t' => pre ++ (fill t' ++ post))
      (cellsAll pre ++ (rest ++ cellsAll post)) := by
  refine ⟨by rw [h.fill_self], fun t' => ?_, fun h₁ h₂ hok => ?_, fun hk => ?_⟩
  · rw [cellsAll_append, cellsAll_append, List.append_assoc, List.append_assoc]
    refine List.Perm.append_left _ (((h.cells t').append_right _).trans ?_)
    rw [List.append_assoc]
    exact List.perm_append_comm.append_left _
  · rw [okAll_iff, List.forall_mem_append, List.forall_mem_append, ← okAll_iff, ← okAll_iff] at hok
    refine ⟨(h.ok h₁ h₂ hok.2.1).1, fun ht => ?_⟩
    rw [okAll_iff, List.forall_mem_append, List.forall_mem_append, ← okAll_iff, ← okAll_iff]
    exact ⟨hok.1, (h.ok h₁ h₂ hok.2.1).2 ht, hok.2.2⟩
  · rw [List.map_append, List.map_append, h.keys hk, List.map_append, List.map_append]

/-- A place in a forest is one in the forest with a tree more. -/
theorem cons (h : IsPlace F t fill rest) (u : Owned ι ν) :
    IsPlace (u :: F) t (fun t' => u :: fill t') (u.cells ++ rest) := by
  have hp := h.around [u] []
  simpa only [List.singleton_append, List.append_nil, cellsAll_cons, cellsAll_nil] using hp

/-- A place among the children of a node is one below the node. -/
theorem below {a : ι} {n : ν} {cs : List (Owned ι ν)} (h : IsPlace cs t fill rest) :
    IsPlace [node a n cs] t (fun t' => [node a n (fill t')]) ((a, n) :: rest) := by
  refine ⟨by rw [h.fill_self], fun t' => ?_, fun {t' t''} h₁ h₂ hok => ?_, fun _ => rfl⟩
  · rw [cellsAll_cons, cellsAll_nil, List.append_nil, cells_node, List.cons_append]
    exact (h.cells t').cons _
  · obtain ⟨hslots, htags, hcs⟩ := ok_node.mp (okAll_iff.mp hok _ (List.mem_singleton_self _))
    obtain ⟨ht, hfill⟩ := h.ok h₁ h₂ (okAll_iff.mpr hcs)
    refine ⟨ht, fun ht'' => okAll_iff.mpr fun v hv => ?_⟩
    rw [List.mem_singleton.mp hv, ok_node]
    -- the addresses and the tags of the children are the same
    have hkeys : (fill t'').map key = (fill t').map key := (h.keys h₂).trans (h.keys h₁).symm
    have haddrs : (fill t'').map addr = (fill t').map addr := by
      have hfst := congrArg (List.map Prod.fst) hkeys
      rw [List.map_map, List.map_map] at hfst
      exact hfst
    refine ⟨hslots.trans haddrs.symm, fun c hc => ?_, okAll_iff.mp (hfill ht'')⟩
    have hmem : c.key ∈ (fill t').map key := hkeys ▸ List.mem_map.mpr ⟨c, hc, rfl⟩
    obtain ⟨u, hu, hku⟩ := List.mem_map.mp hmem
    have htag : tag u.data = tag c.data := congrArg Prod.snd hku
    rw [← htag]
    exact htags u hu

/-- A place within a place. -/
theorem trans {fill' : Owned ι ν → List (Owned ι ν)} {inner : Owned ι ν → Owned ι ν}
    {rest' : List (ι × ν)} (h : IsPlace F t fill rest) (hu : IsPlace [t] u fill' rest')
    (hinner : ∀ u', fill' u' = [inner u']) :
    IsPlace F u (fun u' => fill (inner u')) (rest ++ rest') := by
  have hself : inner u = t := by
    have := (hinner u).symm.trans hu.fill_self
    simpa using this
  have hkey : ∀ {u'}, u'.key = u.key → (inner u').key = t.key := by
    intro u' hk
    have hkeys := hu.keys hk
    rw [hinner] at hkeys
    simpa using hkeys
  refine ⟨by rw [hself, h.fill_self], fun u' => ?_, fun {u' u''} h₁ h₂ hok => ?_, fun hk => h.keys (hkey hk)⟩
  · have hcells := hu.cells u'
    rw [hinner, cellsAll_cons, cellsAll_nil, List.append_nil] at hcells
    refine (h.cells _).trans ?_
    rw [List.append_assoc]
    exact hcells.append_left _
  · obtain ⟨ht, hfill⟩ := h.ok (hkey h₁) (hkey h₂) hok
    have hone : OkAll (fill' u') := by
      rw [hinner]
      exact okAll_iff.mpr (by simpa using ht)
    obtain ⟨hu', hnext⟩ := hu.ok h₁ h₂ hone
    refine ⟨hu', fun hok' => hfill ?_⟩
    have htwo := hnext hok'
    rw [hinner] at htwo
    exact okAll_iff.mp htwo _ (List.mem_singleton_self _)

/-- The place of a child. -/
theorem child {a : ι} {n : ν} {pre post : List (Owned ι ν)} {c : Owned ι ν}
    (h : IsPlace F (node a n (pre ++ c :: post)) fill rest) :
    IsPlace F c (fun c' => fill (node a n (pre ++ c' :: post)))
      (rest ++ (a, n) :: (cellsAll pre ++ cellsAll post)) := by
  have hc := ((root c).around pre post).below (a := a) (n := n)
  simp only [List.singleton_append, List.nil_append] at hc
  exact h.trans hc fun _ => rfl

end IsPlace

/-- Every address of a tree is that of a tree in a context. -/
theorem exists_place_below (a : ι) (u : Owned ι ν) (h : a ∈ u.addrs) :
    ∃ (t : Owned ι ν) (inner : Owned ι ν → Owned ι ν) (rest : List (ι × ν)),
      t.addr = a ∧ IsPlace [u] t (fun t' => [inner t']) rest := by
  induction u using Owned.induct with
  | node b n cs ih =>
    obtain ⟨⟨a', k⟩, hmem, rfl⟩ := List.mem_map.mp h
    rw [cells_node, List.mem_cons, mem_cellsAll] at hmem
    rcases hmem with heq | ⟨c, hc, hmem⟩
    · cases heq
      exact ⟨_, _, _, rfl, IsPlace.root _⟩
    · obtain ⟨t, inner, rest, ht, hp⟩ := ih c hc (List.mem_map.mpr ⟨_, hmem, rfl⟩)
      obtain ⟨pre, post, rfl⟩ := List.append_of_mem hc
      exact ⟨t, _, _, ht, (hp.around pre post).below⟩

/-- Every address of a forest is that of a tree in a context. -/
theorem exists_place {a : ι} {F : List (Owned ι ν)} (h : a ∈ (cellsAll F).map Prod.fst) :
    ∃ t fill rest, t.addr = a ∧ IsPlace F t fill rest := by
  obtain ⟨⟨a', n⟩, hmem, rfl⟩ := List.mem_map.mp h
  obtain ⟨u, hu, hmem⟩ := mem_cellsAll.mp hmem
  obtain ⟨t, inner, rest, ht, hp⟩ := exists_place_below a' u (List.mem_map.mpr ⟨_, hmem, rfl⟩)
  obtain ⟨pre, post, rfl⟩ := List.append_of_mem hu
  exact ⟨t, _, _, ht, hp.around pre post⟩

/-! ## Owned heaps -/

/-- The heap is the forest. -/
structure Owns (m : ι → Option ν) (F : List (Owned ι ν)) : Prop where
  ok : OkAll F
  holds : Holds m (cellsAll F)

namespace Owns

variable {m : ι → Option ν} {F F' G G' : List (Owned ι ν)} {a : ι} {n n' : ν}
  {cs cs' : List (Owned ι ν)}

/-- The order of the trees does not matter to the map. -/
theorem perm (h : Owns m F) (hp : F.Perm F') : Owns m F' :=
  ⟨okAll_iff.mpr fun t ht => okAll_iff.mp h.ok t (hp.mem_iff.mpr ht), h.holds.perm (cellsAll_perm hp)⟩

/-- A live node is a tree in a context. -/
theorem place (h : Owns m F) (ha : m a = some n) :
    ∃ cs fill rest, IsPlace F (node a n cs) fill rest := by
  have hmem : a ∈ (cellsAll F).map Prod.fst := List.mem_map.mpr ⟨_, h.holds.iff.mp ha, rfl⟩
  obtain ⟨⟨a', n', cs⟩, fill, rest, rfl, hp⟩ := exists_place hmem
  refine ⟨cs, fill, rest, ?_⟩
  have hcell : (a', n') ∈ cellsAll F := by
    rw [← hp.fill_self]
    exact (hp.cells _).mem_iff.mpr (by simp)
  rw [addr_node] at ha
  cases ha.symm.trans (h.holds.iff.mpr hcell)
  exact hp

/-- What the tree at a place says of the heap. -/
theorem place_data (h : Owns m F) {fill : Owned ι ν → List (Owned ι ν)} {rest : List (ι × ν)}
    (hp : IsPlace F (node a n cs) fill rest) : m a = some n := by
  rw [h.holds.iff, ← hp.fill_self]
  exact (hp.cells _).mem_iff.mpr (by simp)

/-- The cells around a place and those in it. -/
theorem place_holds (h : Owns m F) {t : Owned ι ν} {fill : Owned ι ν → List (Owned ι ν)}
    {rest : List (ι × ν)} (hp : IsPlace F t fill rest) : Holds m (rest ++ t.cells) := by
  have hholds := h.holds
  rw [← hp.fill_self] at hholds
  exact hholds.perm (hp.cells t)

/-- The tree at a place. -/
theorem stands (h : Owns m F) {t : Owned ι ν} {fill : Owned ι ν → List (Owned ι ν)}
    {rest : List (ι × ν)} (hp : IsPlace F t fill rest) : Stands m t :=
  ⟨(hp.ok rfl rfl (hp.fill_self.symm ▸ h.ok)).1, fun hmem =>
    (h.place_holds hp).iff.mpr (List.mem_append_right _ hmem)⟩

variable [DecidableEq ι]

/-- **A node is written**: it may give up children and take roots. -/
theorem write {fill : Owned ι ν → List (Owned ι ν)} {rest : List (ι × ν)} {D H : List (Owned ι ν)}
    {k : ν} (h : Owns m (F ++ G))
    (hp : IsPlace F (node a n cs) fill rest) (hperm : (D ++ H).Perm (cs ++ G))
    (hslots : slots k = D.map addr) (htag : tag k = tag n) (htags : ∀ c ∈ D, tag c.data = tag k) :
    Owns (Function.update m a (some k)) (fill (node a k D) ++ H) := by
  obtain ⟨hF, hG⟩ := List.forall_mem_append.mp (okAll_iff.mp h.ok)
  have hkey : (node a k D).key = (node a n cs).key := by rw [key_node, key_node, htag]
  obtain ⟨hnode, hfill⟩ := hp.ok rfl hkey (hp.fill_self.symm ▸ okAll_iff.mpr hF)
  have hcs := (ok_node.mp hnode).2.2
  -- the trees that were below the node or roots
  have hall : ∀ t ∈ D ++ H, t.Ok := fun t ht =>
    List.forall_mem_append.mpr ⟨hcs, hG⟩ t (hperm.mem_iff.mp ht)
  obtain ⟨hD, hH⟩ := List.forall_mem_append.mp hall
  refine ⟨okAll_iff.mpr ?_, ?_⟩
  · refine List.forall_mem_append.mpr ⟨okAll_iff.mp (hfill ?_), hH⟩
    exact ok_node.mpr ⟨hslots, htags, hD⟩
  · have hcells : ∀ (o : ν) (ds E : List (Owned ι ν)), (cellsAll (fill (node a o ds) ++ E)).Perm
        ((a, o) :: (rest ++ cellsAll (ds ++ E))) := by
      intro o ds E
      rw [cellsAll_append, cellsAll_append, ← List.append_assoc]
      refine ((hp.cells _).append_right _).trans ?_
      rw [cells_node]
      exact (List.perm_middle.append_right _)
    have hold := h.holds
    rw [← hp.fill_self] at hold
    have hnew : Holds _ ((a, k) :: _) := (hold.perm (hcells n cs G)).replace
    refine hnew.perm ((List.Perm.cons _ ?_).trans (hcells k D H).symm)
    exact (cellsAll_perm hperm.symm).append_left _

/-- **A root and another node exchange what they own.** -/
theorem exchangeRoot {l : ι} {nl nl' n₀ : ν} {ls : List (Owned ι ν)}
    {fill : Owned ι ν → List (Owned ι ν)} {rest : List (ι × ν)} (h : Owns m (node l nl ls :: F))
    (hp : IsPlace F (node a n cs) fill rest) (hn : slots n' = slots nl) (hl : slots nl' = slots n)
    (ht : tag nl = tag n) (htn : tag n' = tag n) (htl : tag nl' = tag nl) (h₀ : slots n₀ = [])
    (ht₀ : tag n₀ = tag nl) : a ≠ l ∧
    Owns (Function.update (Function.update m a (some n')) l (some nl'))
      (node l nl' cs :: fill (node a n' ls)) := by
  obtain ⟨hroot, hF⟩ := List.forall_mem_cons.mp (okAll_iff.mp h.ok)
  obtain ⟨hslotsl, htagsl, -⟩ := ok_node.mp hroot
  obtain ⟨hslots, htags, -⟩ := ok_node.mp (hp.ok rfl rfl (hp.fill_self.symm ▸ okAll_iff.mpr hF)).1
  have hne : a ≠ l := by
    rintro rfl
    have hnodup := h.holds.nodup
    rw [cellsAll_cons, cells_node, List.cons_append, List.map_cons, List.nodup_cons, List.map_append,
      List.mem_append, not_or] at hnodup
    refine hnodup.1.2 (List.mem_map.mpr ⟨(a, n), ?_, rfl⟩)
    exact hp.cells_perm.mem_iff.mpr (by simp)
  refine ⟨hne, ?_⟩
  -- the root gives its children up, the node takes them for its own, and the root those of the node
  have h₁ := write (F := [node l nl ls]) (G := F) h (IsPlace.root _) (D := []) (H := ls ++ F) (k := n₀)
    (List.Perm.refl _) h₀ ht₀ (by simp)
  have h₂ := write (G := node l n₀ [] :: ls) (D := ls) (H := node l n₀ [] :: cs) (k := n')
    (h₁.perm (by
      rw [List.singleton_append]
      exact (List.perm_append_comm.cons _).trans List.perm_middle.symm)) hp
    (List.perm_middle.trans ((List.perm_append_comm.cons _).trans List.perm_middle.symm))
    (hn.trans hslotsl) htn fun c hc => (htagsl c hc).trans (ht.trans htn.symm)
  have h₃ := write (F := [node l n₀ []]) (G := cs ++ fill (node a n' ls)) (D := cs)
    (H := fill (node a n' ls)) (k := nl') (h₂.perm (by
      rw [List.singleton_append]
      exact List.perm_middle.trans (List.perm_append_comm.cons _))) (IsPlace.root _) (List.Perm.refl _)
    (hl.trans hslots) (htl.trans ht₀.symm) fun c hc => (htags c hc).trans (ht.symm.trans htl.symm)
  rw [List.singleton_append] at h₃
  rwa [Function.update_comm hne.symm, Function.update_idem] at h₃

/-- **Two nodes exchange what they own**, if neither is below the other. -/
theorem exchange {a b : ι} {na nb n₀ : ν} {ca cb : List (Owned ι ν)}
    {fa fb : Owned ι ν → List (Owned ι ν)} {ra rb : List (ι × ν)} {na' nb' : ν} (h : Owns m F)
    (hpa : IsPlace F (node a na ca) fa ra) (hpb : IsPlace F (node b nb cb) fb rb)
    (hab : b ∉ (node a na ca).addrs) (hba : a ∉ (node b nb cb).addrs)
    (hna : slots na' = slots nb) (hnb : slots nb' = slots na) (ht : tag na = tag nb)
    (hta : tag na' = tag na) (htb : tag nb' = tag nb) (h₀ : slots n₀ = []) (ht₀ : tag n₀ = tag na) :
    ∃ F', Owns (Function.update (Function.update m a (some na')) b (some nb')) F' ∧
      F'.map key = F.map key := by
  have hsa := h.stands hpa
  have hsb := h.stands hpb
  obtain ⟨-, hslotsa, htagsa, -⟩ := Stands.node_iff.mp hsa
  obtain ⟨hb, hslotsb, htagsb, -⟩ := Stands.node_iff.mp hsb
  have hne : b ≠ a := by
    rintro rfl
    exact hab (addr_mem_addrs _)
  -- the first node gives up its children
  have h₁ := write (G := []) (D := []) (H := ca) (k := n₀) (F := F) (by rwa [List.append_nil])
    hpa (by simp) (by simpa using h₀) ht₀ (by simp)
  -- the second is still where it was
  have hb₁ : Function.update m a (some n₀) b = some nb := by rwa [Function.update_of_ne hne]
  have hmem : (b, nb) ∈ cellsAll (fa (node a n₀ [])) := by
    have hin := hpa.mem_or (h.holds.iff.mp hb)
    refine hpa.mem_rest (hin.resolve_right fun hin => hab (List.mem_map.mpr ⟨_, hin, rfl⟩)) _
  obtain ⟨t, fb', rb', haddr, hpb'⟩ := exists_place (List.mem_map.mpr ⟨_, hmem, rfl⟩)
  have hpb₁ := (hpb'.around [] ca)
  rw [List.nil_append] at hpb₁
  have hsb₁ : Stands (Function.update m a (some n₀)) (node b nb cb) :=
    hsb.frame fun c hc => Function.update_of_ne (by rintro rfl; exact hba hc) _ _
  have htree : t = node b nb cb := (h₁.stands hpb₁).unique hsb₁ haddr
  rw [htree] at hpb' hpb₁
  -- it takes them for its own
  have h₂ := write (D := ca) (H := cb) h₁ hpb' List.perm_append_comm (hnb.trans hslotsa) htb
    (fun c hc => by rw [htagsa c hc, ht, htb])
  have ha₂ : (a, n₀) ∈ cellsAll (fb' (node b nb' ca)) := by
    have hin := hpb'.mem_or (hpa.mem_cells (node a n₀ []) (by simp : (a, n₀) ∈ _))
    refine hpb'.mem_rest (hin.resolve_right fun hin => hba (List.mem_map.mpr ⟨_, hin, rfl⟩)) _
  obtain ⟨⟨a', n', cs⟩, fa', ra', rfl, hpa'⟩ := exists_place (List.mem_map.mpr ⟨_, ha₂, rfl⟩)
  have hpa₂ := (hpa'.around [] cb)
  rw [List.nil_append] at hpa₂
  rw [addr_node] at *
  have hn : n' = n₀ := by
    have hdata := h₂.place_data hpa₂
    rw [Function.update_of_ne hne.symm, Function.update_self] at hdata
    exact (Option.some.inj hdata).symm
  subst hn
  have hcs : cs = [] := by
    have hslots := (Stands.node_iff.mp (h₂.stands hpa₂)).2.1
    rw [h₀] at hslots
    exact List.map_eq_nil_iff.mp hslots.symm
  subst hcs
  -- and the first those of the second
  have h₃ := write (D := cb) (H := []) (k := na') h₂ hpa' (by simp) (hna.trans hslotsb)
    (by rw [hta, ht₀]) (fun c hc => by rw [htagsb c hc, ← ht, hta])
  rw [List.append_nil] at h₃
  refine ⟨fa' (node a' na' cb), ?_, ?_⟩
  · rwa [Function.update_comm hne, Function.update_idem] at h₃
  · calc (fa' (node a' na' cb)).map key
        = (fb' (node b nb' ca)).map key := hpa'.keys (by rw [key_node, key_node, hta, ht₀])
      _ = (fa (node a' n' [])).map key := hpb'.keys (by rw [key_node, key_node, htb])
      _ = F.map key := hpa.keys (by rw [key_node, key_node, ht₀])

end Owns

end Ownership
