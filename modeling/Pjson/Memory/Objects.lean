/-
  The members of objects.

  `objectAt` is an object with the trees it owns, under their keys.  A new member is built beside the object
  and attached, or attached as null and given a value afterwards; in either case the result is the object
  with its key assigned.  An erased member is destroyed while its slot still refers to it.
-/
import Pjson.Lib.AssocMap
import Pjson.Memory.Growth

namespace ByteDance

open Run Ownership Owned

namespace Memory

/-- The slots of members. -/
def storageOf (fs : List (Bytes × NodeTree)) (hfs : Assoc.UniqueKeys fs) : ObjectStorage :=
  ⟨Assoc.mapVal addr fs, by rw [Assoc.UniqueKeys, Assoc.keys_mapVal]; exact hfs⟩

/-- An object. -/
def objectAt (a : Addr) (alloc : AllocatorId) (fs : List (Bytes × NodeTree)) (hfs : Assoc.UniqueKeys fs) :
    NodeTree := node a ⟨alloc, .jsonObject (storageOf fs hfs)⟩ (fs.map Prod.snd)

/-- The members of a receiver: none, if it is no object. -/
def fields (n : Node) (cs : List NodeTree) : List (Bytes × NodeTree) :=
  match n.impl with
  | .jsonObject o => (Assoc.keys o.members).zip cs
  | _ => []

theorem storage_eq {o o' : ObjectStorage} (h : o.members = o'.members) : o = o' := by
  cases o
  cases o'
  cases h
  rfl

variable {M : Machine} {F : List NodeTree} {R : HeapExit → List NodeTree → Prop} {a x : Addr} {n nx : Node}
  {alloc : AllocatorId} {cs xs : List NodeTree} {fill fx : NodeTree → List NodeTree} {rest rx : List (Addr × Node)}
  {fs : List (Bytes × NodeTree)} {hfs : Assoc.UniqueKeys fs} {aKey : Bytes} {t : NodeTree}

theorem find_storageOf : (storageOf fs hfs).find aKey = (Assoc.find aKey fs).map addr := Assoc.find_mapVal addr fs

theorem children_storageOf : (Impl.jsonObject (storageOf fs hfs)).children = (fs.map Prod.snd).map addr := by
  show (Assoc.mapVal addr fs).map Prod.snd = _
  rw [Assoc.mapVal, List.map_map, List.map_map]
  rfl

theorem value_objectAt : value (objectAt a alloc fs hfs) = .jsonObject (Assoc.mapVal value fs) := by
  rw [objectAt, value_node, Impl.denote, storageOf, Assoc.keys_mapVal, Assoc.keys, List.map_map, List.zip_map']
  rfl

/-- A node that is an object, as one. -/
theorem objectAt_of_eType (hok : (node a n cs).Ok) (hn : n.impl.eType = .jsonObject) :
    ∃ h, node a n cs = objectAt a n.alloc (fields n cs) h := by
  have hslots : n.impl.children = cs.map addr := (ok_node.mp hok).1
  obtain ⟨alloc, impl⟩ := n
  cases impl with
  | jsonObject o =>
    have hslots : o.members.map Prod.snd = cs.map addr := hslots
    have hlen : (Assoc.keys o.members).length = cs.length := by
      have h := congrArg List.length hslots
      rw [List.length_map, List.length_map] at h
      rw [Assoc.keys, List.length_map, h]
    have hkeys : Assoc.keys ((Assoc.keys o.members).zip cs) = Assoc.keys o.members := List.map_fst_zip hlen.le
    show ∃ h, node a ⟨alloc, .jsonObject o⟩ cs = objectAt a alloc ((Assoc.keys o.members).zip cs) h
    refine ⟨by rw [Assoc.UniqueKeys, hkeys]; exact o.unique, ?_⟩
    have hmembers : Assoc.mapVal addr ((Assoc.keys o.members).zip cs) = o.members := by
      have hzip : (Assoc.keys o.members).zip (cs.map addr) = ((Assoc.keys o.members).zip cs).map (Prod.map id addr) :=
        List.zip_map_right
      rw [Assoc.mapVal]
      refine Eq.trans ?_ (hzip.symm.trans ?_)
      · rfl
      · rw [← hslots]
        exact (List.zip_of_prod rfl rfl).symm
    rw [objectAt, List.map_snd_zip hlen.ge, node.injEq]
    refine ⟨rfl, ?_, rfl⟩
    rw [show storageOf ((Assoc.keys o.members).zip cs) _ = o from storage_eq hmembers]
  | _ => cases hn

/-- A new member. -/
theorem objectAt_insert (hkey : Assoc.find aKey fs = none) :
    ∃ h, node a ⟨alloc, .jsonObject ((storageOf fs hfs).insert aKey t.addr)⟩ (fs.map Prod.snd ++ [t]) =
      objectAt a alloc (Assoc.assign aKey t fs) h := by
  refine ⟨hfs.assign, ?_⟩
  have hassign : Assoc.assign aKey t fs = fs ++ [(aKey, t)] :=
    Assoc.assign_of_notMem (Assoc.find_eq_none_iff.mp hkey)
  have hstorage : (storageOf fs hfs).insert aKey t.addr = storageOf (Assoc.assign aKey t fs) hfs.assign :=
    storage_eq (Assoc.assign_mapVal addr fs).symm
  rw [objectAt, hstorage, node.injEq]
  refine ⟨rfl, rfl, ?_⟩
  rw [hassign, List.map_append]
  rfl

theorem children_insert {c : Addr} (hkey : Assoc.find aKey fs = none) :
    (Impl.jsonObject ((storageOf fs hfs).insert aKey c)).children = (fs.map Prod.snd).map addr ++ [c] := by
  show (Assoc.assign aKey c (Assoc.mapVal addr fs)).map Prod.snd = _
  rw [Assoc.assign_of_notMem (by rw [Assoc.keys_mapVal]; exact Assoc.find_eq_none_iff.mp hkey), List.map_append]
  exact congrArg (· ++ [c]) (@children_storageOf fs hfs)

/-- A new member that is gone again. -/
theorem erase_insert {c : Addr} (hkey : Assoc.find aKey fs = none) :
    ((storageOf fs hfs).insert aKey c).erase aKey = storageOf fs hfs := by
  have hnew : aKey ∉ Assoc.keys (Assoc.mapVal addr fs) := by
    rw [Assoc.keys_mapVal]
    exact Assoc.find_eq_none_iff.mp hkey
  refine storage_eq ?_
  show Assoc.drop aKey (Assoc.assign aKey c (Assoc.mapVal addr fs)) = Assoc.mapVal addr fs
  rw [Assoc.assign_of_notMem hnew, Assoc.drop_split hnew, List.append_nil]

/-- A member replaced. -/
theorem objectAt_replace {c t : NodeTree} {pre post : List (Bytes × NodeTree)} (hpre : aKey ∉ Assoc.keys pre)
    (hfs : Assoc.UniqueKeys (pre ++ (aKey, c) :: post)) (ht : t.addr = c.addr) :
    ∃ h, node a ⟨alloc, .jsonObject (storageOf (pre ++ (aKey, c) :: post) hfs)⟩
      (pre.map Prod.snd ++ t :: post.map Prod.snd) =
        objectAt a alloc (Assoc.assign aKey t (pre ++ (aKey, c) :: post)) h := by
  refine ⟨hfs.assign, ?_⟩
  have hstorage : storageOf (pre ++ (aKey, c) :: post) hfs = storageOf (Assoc.assign aKey t (pre ++ (aKey, c) :: post))
      hfs.assign := by
    refine storage_eq ?_
    show Assoc.mapVal addr (pre ++ (aKey, c) :: post) = Assoc.mapVal addr (Assoc.assign aKey t (pre ++ (aKey, c) :: post))
    rw [Assoc.assign_mapVal, Assoc.assign_self]
    rw [Assoc.find_mapVal, Assoc.find_of_mem hfs (List.mem_append_right _ List.mem_cons_self), ht]
    rfl
  rw [objectAt, hstorage, node.injEq]
  refine ⟨rfl, rfl, ?_⟩
  rw [Assoc.assign_split hpre, List.map_append]
  rfl

/-- A member erased. -/
theorem objectAt_erase {c : NodeTree} {pre post : List (Bytes × NodeTree)} (hpre : aKey ∉ Assoc.keys pre)
    (hfs : Assoc.UniqueKeys (pre ++ (aKey, c) :: post)) :
    ∃ h, node a ⟨alloc, .jsonObject ((storageOf (pre ++ (aKey, c) :: post) hfs).erase aKey)⟩
      (pre.map Prod.snd ++ post.map Prod.snd) =
        objectAt a alloc (Assoc.drop aKey (pre ++ (aKey, c) :: post)) h := by
  refine ⟨hfs.drop, ?_⟩
  rw [objectAt, show (storageOf (pre ++ (aKey, c) :: post) hfs).erase aKey =
    storageOf (Assoc.drop aKey (pre ++ (aKey, c) :: post)) hfs.drop from
      storage_eq (Assoc.drop_mapVal addr _).symm, node.injEq]
  refine ⟨rfl, rfl, ?_⟩
  rw [Assoc.drop_split hpre, List.map_append]

/-! ## Two forests -/

/-- The cells and the roots determine a forest. -/
theorem Sound.unique {G : List NodeTree} (hs : Sound F) (hok : OkAll G) (hcells : (cellsAll F).Perm (cellsAll G))
    (hroots : F.map addr = G.map addr) : F = G := by
  have hG : Owns (fun a => Assoc.find a (cellsAll F)) G := ⟨hok, hs.owns.holds.perm hcells⟩
  have hstands : ∀ {H : List NodeTree} {u : NodeTree}, Owns (fun a => Assoc.find a (cellsAll F)) H → u ∈ H →
      Stands (fun a => Assoc.find a (cellsAll F)) u := fun hH hu =>
    ⟨okAll_iff.mp hH.ok _ hu, fun hc => hH.holds.iff.mpr (mem_cellsAll.mpr ⟨_, hu, hc⟩)⟩
  exact eq_of_map_eq hroots fun u hu v hv => (hstands hs.owns hu).unique (hstands hG hv)

/-- A root of a forest is apart from the others. -/
theorem Sound.apart {u : NodeTree} (hs : Sound (u :: F)) {b : Addr} (hb : b ∈ u.addrs) : b ∉ (cellsAll F).map Prod.fst := by
  have hnodup := hs.nodup
  rw [cellsAll_cons, List.map_append] at hnodup
  exact fun hmem => (List.nodup_append.mp hnodup).2.2 b hb b hmem rfl

theorem fields_of_ne (hn : n.impl.eType ≠ .jsonObject) (cs : List NodeTree) : fields n cs = [] := by
  unfold fields
  revert hn
  cases n.impl with
  | jsonObject o => exact fun hn => absurd rfl hn
  | _ => exact fun _ => rfl

theorem impl_of_objectAt (h : node a n cs = objectAt a n.alloc fs hfs) : n.impl = .jsonObject (storageOf fs hfs) := by
  rw [objectAt, node.injEq] at h
  exact congrArg Node.impl h.2.1

namespace Leads

/-! ## Members that are erased -/

/-- A child is destroyed, and then its slot is gone. -/
theorem destroyChild {β : Type} {P : β → List NodeTree → Prop} {f : Unit → HeapM β} {c : NodeTree}
    {pre post : List NodeTree} {impl : Impl} (hp : IsPlace F (node a n (pre ++ c :: post)) fill rest)
    (himpl : impl.children = (pre ++ post).map addr) (hkind : impl.eType = n.impl.eType)
    (hf : Leads (f ()) (fill (node a { n with impl := impl } (pre ++ post))) P R) :
    Leads (do
      Memory.destroyNode c.addr
      Memory.store a impl
      f ()) F P R := fun h hi => by
  obtain ⟨b, m, ds⟩ := c
  have hkey : (node a { n with impl := impl } (pre ++ post)).key = (node a n (pre ++ node b m ds :: post)).key := rfl
  obtain ⟨hok, hfill⟩ := hp.ok rfl hkey (hp.fill_self.symm ▸ hi.ok)
  obtain ⟨-, htags, hall⟩ := ok_node.mp hok
  have hchild := hall (node b m ds) (List.mem_append_right _ List.mem_cons_self)
  have hmem : ∀ u ∈ pre ++ post, u ∈ pre ++ node b m ds :: post := fun u hu => by
    rcases List.mem_append.mp hu with hu | hu
    · exact List.mem_append_left _ hu
    · exact List.mem_append_right _ (List.mem_cons_of_mem _ hu)
  have hm : Still h ((node b m ds).cells ++ ((a, n) :: (rest ++ cellsAll (pre ++ post)))) := by
    refine hi.toStill.perm (hp.cells_perm.trans ?_)
    rw [cells_node a n]
    refine List.perm_middle.trans (((List.Perm.append_left rest ?_).trans
      (List.perm_append_comm_assoc _ _ _)).cons _ |>.trans List.perm_middle.symm)
    rw [← cellsAll_cons]
    exact cellsAll_perm List.perm_middle
  rw [ends_bind]
  refine (destroyNode_ends hchild hm).mono (fun _ h' hq => ?_) fun _ _ hf => hf.elim
  obtain ⟨huse, hm'⟩ := hq
  rw [ends_bind, ends_store (hm'.mem.holds.iff.mpr List.mem_cons_self)]
  have hs : Since h h' := ⟨huse.next.ge, hm.mem.destroyed_of_subset hm'.mem huse.next fun b hb => by
    rw [List.map_append]
    exact List.mem_append_right _ hb⟩
  have hcells : ((a, { n with impl := impl }) :: (rest ++ cellsAll (pre ++ post))).Perm
      (cellsAll (fill (node a { n with impl := impl } (pre ++ post)))) := by
    refine List.Perm.trans ?_ (hp.cells _).symm
    rw [cells_node]
    exact List.perm_middle.symm
  have hstored : Balanced h'.ledger ((a, { n with impl := impl }) :: (rest ++ cellsAll (pre ++ post))) :=
    hm'.balance.store rfl hkind
  exact later ⟨hs.next, hs.destroyed⟩ (hf _ ⟨⟨(hm'.mem.store _).perm hcells, hstored.perm hcells, hm'.links⟩,
    hfill (ok_node.mpr ⟨himpl, fun u hu => htags u (hmem u hu), fun u hu => hall u (hmem u hu)⟩)⟩)

/-! ## Members that are new -/

/-- A copy becomes a member. -/
theorem insertCopy {Q : Unit → List NodeTree → Prop} {s : NodeTree} (hp : IsPlace F (objectAt a alloc fs hfs) fill rest)
    (hs : Beside s (cellsAll F)) (hnodup : s.cells.Nodup) (hkey : Assoc.find aKey fs = none)
    (hQ : ∀ t h, value t = value s → Q () (fill (objectAt a alloc (Assoc.assign aKey t fs) h)))
    (hR : ∀ k, M.fails k = true → R .badAlloc F) :
    Leads (Memory.insertOrAssign.insertCopy M a aKey s.addr) F Q R := by
  have hnone : (storageOf fs hfs).find aKey = none := by rw [find_storageOf, hkey]; rfl
  unfold Memory.insertOrAssign.insertCopy
  refine load hp.cell (withOwned (fun c => bind ?_) hR)
  refine copyContentsInto (root_place _ F) hs hnodup (fun t ht => ?_) fun k hk => ⟨_, _, _, rfl, hR k hk⟩
  obtain ⟨c', m, ds⟩ := t
  obtain ⟨htkey, hvalue⟩ := ht
  rw [key_node, Prod.mk.injEq] at htkey
  obtain ⟨rfl, halloc⟩ := htkey
  refine bind (insertSlot (t := node c' m ds) hp rfl hnone halloc (pure ?_) fun k hk => ⟨_, _, _, rfl, hR k hk⟩)
  obtain ⟨h, heq⟩ := @objectAt_insert a alloc fs hfs aKey (node c' m ds) hkey
  exact heq.symm ▸ hQ _ h hvalue

/-- A null member, attached already, takes what a node that is not above it owns. -/
theorem swapAttached {Q : Unit → List NodeTree → Prop} {c : Addr} {k₀ k : Impl} {cs' : List NodeTree}
    {f : NodeTree → List NodeTree} {r : List (Addr × Node)} (hs : Sound F)
    (hp : IsPlace F (node a ⟨alloc, k₀⟩ cs) fill rest) (hk : k.children = cs.map addr ++ [c])
    (hx : IsPlace F (node x nx xs) fx rx) (halloc : nx.alloc = alloc) (hxa : x ≠ a)
    (hp' : IsPlace (fx (node x { nx with impl := .jsonNull } [])) (node a ⟨alloc, k₀⟩ cs') f r)
    (hQ : Q () (f (node a ⟨alloc, k⟩ (cs' ++ [node c ⟨alloc, nx.impl⟩ xs])))) :
    Leads (swapStorage c x) (fill (node a ⟨alloc, k⟩ (cs ++ [node c ⟨alloc, .jsonNull⟩ []]))) Q R := fun h hi => by
  have hat := hp.refill (u := node a ⟨alloc, k⟩ (cs ++ [node c ⟨alloc, .jsonNull⟩ []])) rfl
  have ha := hi.owns.place_data hat
  have hc := hi.owns.place_data hat.child
  have hslots : k₀.children = cs.map addr := (ok_node.mp (hs.tree hp).ok).1
  obtain ⟨hslots', htags', -⟩ := ok_node.mp ((hs.prune hx).tree hp').ok
  -- the member is taken from its slot, exchanged as a root, and put back
  have hself : Owns h.nodes (fill (node a ⟨alloc, k⟩ (cs ++ [node c ⟨alloc, .jsonNull⟩ []])) ++ []) := by
    rw [List.append_nil]
    exact hi.owns
  have hout := (hself.write hat (D := cs) (H := [node c ⟨alloc, .jsonNull⟩ []]) (k := ⟨alloc, k₀⟩)
    (by rw [List.append_nil]) hslots rfl fun u hu => (ok_node.mp (hs.tree hp).ok).2.1 u hu).perm List.perm_append_comm
  rw [hp.fill_self, List.singleton_append] at hout
  obtain ⟨hxc, hswap⟩ := Memory.swapRoot hout hx halloc.symm
  have hback := (hswap.perm (List.perm_append_singleton _ _).symm).write (k := ⟨alloc, k⟩)
    (D := cs' ++ [node c ⟨alloc, nx.impl⟩ xs]) (H := []) hp' (by rw [List.append_nil])
    (show k.children = _ by
      rw [hk, ← hslots, List.map_append]
      exact congrArg (· ++ [c]) hslots') rfl (fun u hu => by
      rcases List.mem_append.mp hu with hu | hu
      · exact htags' u hu
      · rw [List.mem_singleton.mp hu]
        rfl)
  rw [List.append_nil] at hback
  have hac : a ≠ c := by
    rintro rfl
    rw [ha, Option.some.injEq, Node.mk.injEq] at hc
    rw [hc.2] at hk
    exact List.append_ne_nil_of_right_ne_nil _ (List.cons_ne_nil _ _) hk.symm
  have hxnode : h.nodes x = some nx := by
    have hin := hout.holds.iff.mpr (mem_cells_cons _ hx.cell)
    rwa [Function.update_of_ne hxa] at hin
  -- the slot is the one it was
  have hkept : Function.update h.nodes a (some ⟨alloc, k⟩) = h.nodes := Function.update_eq_self_iff.mpr ha.symm
  rw [Function.update_comm hac.symm, Function.update_comm hxa, Function.update_idem, hkept,
    Function.update_comm hxc] at hback
  rw [ends_swapStorage hc hxnode hxc]
  exact ⟨⟨le_refl _, fun _ hb => hb⟩, _, hi.swapped hc hxnode hxc halloc.symm hback, hQ⟩

/-- An argument becomes a member; from another allocator it is copied into a member attached before, and
    if that fails, the member is gone again. -/
theorem insertMove {Q : Unit → List NodeTree → Prop} {fs' : List (Bytes × NodeTree)} {hfs' : Assoc.UniqueKeys fs'}
    {f : NodeTree → List NodeTree} {r : List (Addr × Node)} (hs : Sound F)
    (hp : IsPlace F (objectAt a alloc fs hfs) fill rest) (hx : IsPlace F (node x nx xs) fx rx)
    (hax : a ∉ (node x nx xs).addrs)
    (hp' : IsPlace (fx (node x { nx with impl := .jsonNull } [])) (objectAt a alloc fs' hfs') f r)
    (hsame : storageOf fs' hfs' = storageOf fs hfs) (hkey : Assoc.find aKey fs = none)
    (hQ : ∀ t h, value t = value (node x nx xs) → Q () (f (objectAt a alloc (Assoc.assign aKey t fs') h)))
    (hR : ∀ k, M.fails k = true → R .badAlloc F) :
    Leads (Memory.insertOrAssign.insertMove M a aKey x) F Q R := by
  have hnone : (storageOf fs hfs).find aKey = none := by rw [find_storageOf, hkey]; rfl
  have hkey' : Assoc.find aKey fs' = none := by
    rw [← hsame, find_storageOf] at hnone
    exact Option.map_eq_none_iff.mp hnone
  have hxa : x ≠ a := fun heq => hax (heq ▸ addr_mem_addrs _)
  -- the argument is outside of the receiver, or below it
  have hside : ∀ {k : Node} {D : List NodeTree}, ∀ y ∈ (node x nx xs).cells,
      y ∈ rest ++ (a, k) :: (cellsAll (fs.map Prod.snd) ++ cellsAll D) := fun {k D} y hy => by
    rcases hp.mem_or ((hs.tree hx).cells y hy) with hin | hin
    · exact List.mem_append_left _ hin
    · rw [objectAt, cells_node, List.mem_cons] at hin
      refine List.mem_append_right _ (List.mem_cons_of_mem _ (List.mem_append_left _ ?_))
      refine hin.resolve_left fun heq => hax (List.mem_map.mpr ⟨y, hy, by rw [heq]⟩)
  unfold Memory.insertOrAssign.insertMove
  refine load hp.cell (bind (withOwned (fun c => bind ?_) hR))
  refine insertSlot (t := node c ⟨alloc, .jsonNull⟩ []) hp rfl hnone rfl (pure ?_) fun k hk => ⟨_, _, _, rfl, hR k hk⟩
  have hat := (hp.refill (u := node a ⟨alloc, .jsonObject ((storageOf fs hfs).insert aKey c)⟩
    (fs.map Prod.snd ++ [node c ⟨alloc, .jsonNull⟩ []])) rfl)
  have hchild : IsPlace _ (node c ⟨alloc, .jsonNull⟩ []) (fun c' => fill (node a
    ⟨alloc, .jsonObject ((storageOf fs hfs).insert aKey c)⟩ (fs.map Prod.snd ++ c' :: []))) _ := hat.child
  have hslots := @children_insert fs hfs aKey c hkey
  refine load hchild.cell (load (hchild.mem_rest (hside _ (root_mem_cells _)) _) (ite (fun halloc => ?_) fun _ => bind ?_))
  · have hp'' : IsPlace (fx (node x { nx with impl := .jsonNull } []))
        (node a ⟨alloc, .jsonObject (storageOf fs hfs)⟩ (fs'.map Prod.snd)) f r := by
      rw [← hsame]
      exact hp'
    refine swapAttached hs hp hslots hx halloc.symm hxa hp'' ?_
    obtain ⟨h, heq⟩ := @objectAt_insert a alloc fs' hfs' aKey (node c ⟨alloc, nx.impl⟩ xs) hkey'
    rw [hsame] at heq
    exact heq.symm ▸ hQ _ h (by rw [value_node, value_node])
  refine catchRethrow (copyContentsInto (s := node x nx xs) hchild ⟨(hs.tree hx).ok, hside⟩ (hs.nodup_cells hx)
    (fun t ht => sound fun hs₂ => ?_) fun k hk => ?_)
  · -- the argument is emptied where it is now
    have hbeside : Beside (node x nx xs) (cellsAll (fill (node a ⟨alloc, .jsonObject ((storageOf fs hfs).insert aKey c)⟩
        (fs.map Prod.snd ++ t :: [])))) := ⟨(hs.tree hx).ok, fun y hy => hchild.mem_rest (hside y hy) t⟩
    obtain ⟨fx₂, rx₂, hx₂⟩ := hs₂.place hbeside
    refine reset hx₂ ?_
    obtain ⟨c', m, ds⟩ := t
    obtain ⟨htkey, hvalue⟩ := ht
    rw [key_node, Prod.mk.injEq] at htkey
    obtain ⟨rfl, halloc⟩ := htkey
    obtain ⟨h, heq⟩ := @objectAt_insert a alloc fs' hfs' aKey (node c' m ds) hkey'
    suffices hforest : fx₂ (node x { nx with impl := .jsonNull } []) =
        f (objectAt a alloc (Assoc.assign aKey (node c' m ds) fs') h) by
      rw [hforest]
      exact hQ _ h hvalue
    have hat₂ := hp.refill (u := node a ⟨alloc, .jsonObject ((storageOf fs hfs).insert aKey c')⟩
      (fs.map Prod.snd ++ node c' m ds :: [])) rfl
    obtain ⟨-, htags', hall'⟩ := ok_node.mp ((hs.prune hx).tree hp').ok
    have hnew : (objectAt a alloc (Assoc.assign aKey (node c' m ds) fs') h).Ok := by
      rw [← heq, ok_node]
      refine ⟨(children_insert hkey').trans (by rw [List.map_append]; rfl), fun u hu => ?_, fun u hu => ?_⟩
      · rcases List.mem_append.mp hu with hu | hu
        · exact htags' u hu
        · rw [List.mem_singleton.mp hu]
          exact halloc
      · rcases List.mem_append.mp hu with hu | hu
        · exact hall' u hu
        · rw [List.mem_singleton.mp hu]
          exact (hs₂.tree hat₂.child).ok
    have hkey₁ : (node x ({ nx with impl := .jsonNull } : Node) []).key = (node x nx xs).key := rfl
    have hkey₂ : (objectAt a alloc (Assoc.assign aKey (node c' m ds) fs') h).key = (objectAt a alloc fs' hfs').key := rfl
    have hkeys : (fx₂ (node x { nx with impl := .jsonNull } [])).map key =
        (f (objectAt a alloc (Assoc.assign aKey (node c' m ds) fs') h)).map key :=
      ((hx₂.keys hkey₁).trans (hp.keys rfl)).trans ((hp'.keys hkey₂).trans (hx.keys hkey₁)).symm
    have hcells' : (objectAt a alloc fs' hfs').cells =
        (a, ⟨alloc, .jsonObject (storageOf fs hfs)⟩) :: cellsAll (fs'.map Prod.snd) := by
      rw [objectAt, hsame, cells_node]
    have hcells₂ : (objectAt a alloc (Assoc.assign aKey (node c' m ds) fs') h).cells =
        (a, ⟨alloc, .jsonObject ((storageOf fs hfs).insert aKey c')⟩) ::
          (cellsAll (fs'.map Prod.snd) ++ (node c' m ds).cells) := by
      rw [← heq, hsame, cells_node, cellsAll_append, cellsAll_cons, cellsAll_nil, List.append_nil]
      rfl
    refine (hs₂.prune hx₂).unique ((hp'.ok rfl hkey₂ (hp'.fill_self.symm ▸ (hs.prune hx).ok)).2 hnew) ?_ ?_
    · classical
      refine List.perm_iff_count.mpr fun y => ?_
      have e₁ := hp.cells_perm.count_eq y
      have e₂ := hx.cells_perm.count_eq y
      have e₃ := hp'.cells_perm.count_eq y
      have e₄ := (hx.cells (node x { nx with impl := .jsonNull } [])).count_eq y
      have e₅ := hat₂.cells_perm.count_eq y
      have e₆ := hx₂.cells_perm.count_eq y
      have e₇ := (hx₂.cells (node x { nx with impl := .jsonNull } [])).count_eq y
      have e₈ := (hp'.cells (objectAt a alloc (Assoc.assign aKey (node c' m ds) fs') h)).count_eq y
      rw [hcells'] at e₃
      rw [hcells₂] at e₈
      rw [objectAt] at e₁
      simp only [cells_node, cellsAll_append, cellsAll_cons, cellsAll_nil, List.append_nil, List.count_append,
        List.count_cons, List.count_nil] at e₁ e₂ e₃ e₄ e₅ e₆ e₇ e₈
      omega
    · have hfst := congrArg (List.map Prod.fst) hkeys
      rw [List.map_map, List.map_map] at hfst
      exact hfst
  · refine members hat.cell rfl ?_
    have hgone : Leads (do
        Memory.destroyNode c
        Memory.store a (.jsonObject (storageOf fs hfs))
        Pure.pure ()) (fill (node a ⟨alloc, .jsonObject ((storageOf fs hfs).insert aKey c)⟩
          (fs.map Prod.snd ++ node c ⟨alloc, .jsonNull⟩ [] :: []))) (fun _ F'' => R .badAlloc F'') fun _ _ => False :=
      destroyChild hat (by rw [List.append_nil]; exact children_storageOf) rfl (pure (by
        rw [List.append_nil]
        exact hp.fill_self.symm ▸ hR k hk))
    rw [erase_insert hkey]
    simpa only [bind_pure_unit] using hgone

/-! ## Insertion -/

/-- A member that is there is assigned. -/
theorem assignMember {Q : Unit → List NodeTree → Prop} {c : NodeTree} {move : Bool} (hs : Sound F)
    (hp : IsPlace F (objectAt a alloc fs hfs) fill rest) (hx : IsPlace F (node x nx xs) fx rx)
    (hfind : Assoc.find aKey fs = some c)
    (hcopy : ∀ t h, value t = value (node x nx xs) → Q () (fill (objectAt a alloc (Assoc.assign aKey t fs) h)))
    (hmove : move = true → ∃ fs' hfs' f r,
      IsPlace (fx (node x { nx with impl := .jsonNull } [])) (objectAt a alloc fs' hfs') f r ∧
        storageOf fs' hfs' = storageOf fs hfs ∧
        ∀ t h, value t = value (node x nx xs) → Q () (f (objectAt a alloc (Assoc.assign aKey t fs') h)))
    (hR : ∀ k, M.fails k = true → R .badAlloc F) :
    Leads (if move then Memory.assignMove M c.addr x else Memory.copyFrom M c.addr x) F Q R := by
  have hstorage := @find_storageOf fs hfs aKey
  obtain ⟨pre, post, rfl, hpre⟩ := Assoc.exists_split hfind
  have hat := hp
  rw [objectAt, List.map_append, List.map_cons] at hat
  have hchild := hat.child
  obtain ⟨b, m, ds⟩ := c
  have hgive : ∀ t', Gives (node b m ds) (node x nx xs) t' → Q () (fill (node a
      ⟨alloc, .jsonObject (storageOf (pre ++ (aKey, node b m ds) :: post) hfs)⟩
        (pre.map Prod.snd ++ t' :: post.map Prod.snd))) := fun t' ht' => by
    obtain ⟨h, heq⟩ := @objectAt_replace a alloc aKey _ t' pre post hpre hfs (congrArg Prod.fst ht'.key)
    rw [heq]
    exact hcopy t' h ht'.value
  have hself : b = x → Q () F := fun heq => by
    subst heq
    have htree := (Beside.stands hs (hs.tree hchild)).unique (Beside.stands hs (hs.tree hx)) rfl
    have hsame := hgive _ ⟨rfl, congrArg value htree⟩
    rwa [hat.fill_self] at hsame
  refine ite (fun hm => ?_) fun _ => ?_
  · refine assignMove hs hchild hx (fun heq => hself heq.symm) hgive (fun hout => ?_) hR
    -- the member is where it was, in what the argument has left
    obtain ⟨fs', hfs', f, r, hp', hsame, hQ'⟩ := hmove hm
    rw [hfind, ← hsame, find_storageOf] at hstorage
    obtain ⟨⟨b', m', ds'⟩, hfind', hb⟩ := Option.map_eq_some_iff.mp hstorage
    rw [addr_node, addr_node] at hb
    subst hb
    obtain ⟨pre', post', rfl, hpre'⟩ := Assoc.exists_split hfind'
    have hat' := hp'
    rw [objectAt, List.map_append, List.map_cons] at hat'
    have hchild' := hat'.child
    have hbx : b' ≠ x := fun heq => hout (heq ▸ addr_mem_addrs (node x nx xs))
    have hm' : m' = m := by
      have hmem := (hx.cells _).mem_iff.mp ((hs.prune hx).tree hchild' |>.cells _ (root_mem_cells _))
      rw [cells_node, cellsAll_nil, List.mem_append, List.mem_singleton] at hmem
      have hin := hmem.resolve_right fun heq => hbx (congrArg Prod.fst heq)
      have hcell := hs.owns.holds.iff.mpr (hx.cells_perm.mem_iff.mpr (List.mem_append_left _ hin))
      exact Option.some.inj (hcell.symm.trans (hs.owns.holds.iff.mpr hchild.cell))
    subst hm'
    refine ⟨ds', _, _, hchild', fun t' ht' => ?_⟩
    obtain ⟨h, heq⟩ := @objectAt_replace a alloc aKey _ t' pre' post' hpre' hfs' (congrArg Prod.fst ht'.key)
    rw [heq]
    exact hQ' t' h ht'.value
  · exact copyFrom (s := node x nx xs) hchild (hs.tree hx) (hs.nodup_cells hx) hself hgive hR

/-- **`insertOrAssign`.**  With memory to spare three calls inside each other are enough; without, the test
    of ancestry may say yes of every snapshot that is made of the argument. -/
theorem insertOrAssign {Q : Unit → List NodeTree → Prop} {move : Bool} (stack : Nat) (hs : Sound F)
    (hp : IsPlace F (node a n cs) fill rest) (hx : IsPlace F (node x nx xs) fx rx)
    (hcopy : ∀ t h, value t = value (node x nx xs) →
      Q () (fill (objectAt a n.alloc (Assoc.assign aKey t (fields n cs)) h)))
    (hmove : move = true → a ∉ (node x nx xs).addrs → ∃ cs' f r,
      IsPlace (fx (node x { nx with impl := .jsonNull } [])) (node a n cs') f r ∧
        ∀ t h, value t = value (node x nx xs) →
          Q () (f (objectAt a n.alloc (Assoc.assign aKey t (fields n cs')) h)))
    (hR : ∀ k, M.fails k = true → R .badAlloc F)
    (hstack : (∃ k, M.fails k = true) ∨ stack < 1 + (if a ∈ (node x nx xs).addrs then 1 else 0) +
      (if n.impl.eType = .jsonObject then 0 else 1) → R .stackOverflow F) :
    Leads (Memory.insertOrAssign M stack move a aKey x) F Q R := by
  induction stack generalizing F move a n cs fill rest x nx xs fx rx Q R with
  | zero =>
    rw [Memory.insertOrAssign]
    exact throw (hstack (Or.inr (by omega)))
  | succ stack ih =>
    have htree := hs.tree hx
    have hnodup := hs.nodup_cells hx
    rw [Memory.insertOrAssign]
    refine containsNode (t := node x nx xs) htree hnodup (fun hor => ?_) fun hout => ?_
    · -- the argument is copied, and the copy is no ancestor of the receiver
      rw [if_pos rfl]
      refine load hp.cell (withLocal fun l => bind ?_)
      refine copyContentsInto (root_place _ F) htree hnodup (fun t ht => sound fun hs' => ?_)
        fun k hk => ⟨_, _, _, rfl, hR k hk⟩
      obtain ⟨l', m, ds⟩ := t
      obtain ⟨htkey, hvalue⟩ := ht
      have hal : a ∉ (node l' m ds).addrs := fun hin => hs'.apart hin (List.mem_map_of_mem hp.cell)
      rw [key_node, Prod.mk.injEq] at htkey
      obtain ⟨rfl, -⟩ := htkey
      refine ih hs' (hp.cons _) (root_place (node l' m ds) F)
        (fun t h hv => ⟨_, _, _, rfl, hcopy t h (hv.trans hvalue)⟩)
        (fun _ _ => ⟨cs, _, _, hp.cons _, fun t h hv => ⟨_, _, _, rfl, hcopy t h (hv.trans hvalue)⟩⟩)
        (fun k hk => ⟨_, _, _, rfl, hR k hk⟩) fun hdeep => ⟨_, _, _, rfl, hstack ?_⟩
      rcases hor with hin | hfails
      · rw [if_neg hal] at hdeep
        rw [if_pos hin]
        exact hdeep.imp_right fun h => by omega
      · exact Or.inl hfails
    rw [if_neg Bool.false_ne_true]
    by_cases hn : n.impl.eType = .jsonObject
    · obtain ⟨hfs, heq⟩ := objectAt_of_eType (hs.tree hp).ok hn
      have hobject : IsPlace F (objectAt a n.alloc (fields n cs) hfs) fill rest := heq ▸ hp
      have hleft : move = true → ∃ fs' hfs' f r,
          IsPlace (fx (node x { nx with impl := .jsonNull } [])) (objectAt a n.alloc fs' hfs') f r ∧
            storageOf fs' hfs' = storageOf (fields n cs) hfs ∧ ∀ t h, value t = value (node x nx xs) →
              Q () (f (objectAt a n.alloc (Assoc.assign aKey t fs') h)) := fun hm => by
        obtain ⟨cs', f, r, hp', hQ'⟩ := hmove hm hout
        obtain ⟨hfs', heq'⟩ := objectAt_of_eType ((hs.prune hx).tree hp').ok hn
        have hsame := (impl_of_objectAt heq').symm.trans (impl_of_objectAt heq)
        rw [Impl.jsonObject.injEq] at hsame
        exact ⟨fields n cs', hfs', f, r, heq' ▸ hp', hsame, hQ'⟩
      refine load hp.cell ?_
      rw [impl_of_objectAt heq]
      dsimp only
      rw [find_storageOf]
      cases hfind : Assoc.find aKey (fields n cs) with
      | some c => exact assignMember hs hobject hx hfind hcopy hleft hR
      | none =>
        refine ite (fun hm => ?_) fun _ => ?_
        · obtain ⟨fs', hfs', f, r, hp', hsame, hQ'⟩ := hleft hm
          exact insertMove hs hobject hx hout hp' hsame hfind hQ' hR
        · exact insertCopy (s := node x nx xs) hobject htree hnodup hfind hcopy hR
    · simp only [fields_of_ne hn] at hcopy hmove
      rw [if_neg hout, if_neg hn] at hstack
      have hpromote : Leads (do
          Memory.withLocal (← Memory.load a).alloc fun replacement => do
            Memory.resetTo M replacement .jsonObject
            Memory.insertOrAssign M stack move replacement aKey x
            swapStorage a replacement) F Q R := by
        refine load hp.cell (withLocal fun l => bind (resetTo (root_place _ F) (sound fun hs' => bind ?_)
          fun k hk => ⟨_, _, _, rfl, hR k hk⟩))
        have hlx : l ∉ (node x nx xs).addrs := fun hin => by
          obtain ⟨y, hy, rfl⟩ := List.mem_map.mp hin
          exact hs'.apart (addr_mem_addrs (node y.1 _ [])) (List.mem_map_of_mem (htree.cells y hy))
        refine ih hs' (root_place (objectAt l n.alloc [] Assoc.uniqueKeys_nil) F) (hx.cons _)
          (fun t h hv => swapRoot hp rfl ⟨_, _, _, rfl, hcopy t h hv⟩) (fun hm _ => ?_)
          (fun k hk => ⟨_, _, _, rfl, hR k hk⟩) fun hdeep => ⟨_, _, _, rfl, hstack ?_⟩
        · obtain ⟨cs', f, r, hp', hQ'⟩ := hmove hm hout
          exact ⟨[], _, _, root_place (objectAt l n.alloc [] Assoc.uniqueKeys_nil) _, fun t h hv =>
            swapRoot hp' rfl ⟨_, _, _, rfl, hQ' t h hv⟩⟩
        · rw [if_neg hlx] at hdeep
          refine hdeep.imp_right fun h => ?_
          have h : stack < 1 + 0 + 0 := h
          omega
      clear hcopy hmove
      refine load hp.cell ?_
      revert hn
      cases n.impl with
      | jsonObject o => exact fun hn => absurd rfl hn
      | _ => exact fun _ => hpromote

/-! ## `operator[]` with a key -/

/-- A null member. -/
theorem vivify {Q : Addr → List NodeTree → Prop} (hp : IsPlace F (objectAt a alloc fs hfs) fill rest)
    (hkey : Assoc.find aKey fs = none)
    (hQ : ∀ c h, Q c (fill (objectAt a alloc (Assoc.assign aKey (leafAt c alloc .jsonNull) fs) h)))
    (hR : ∀ k, M.fails k = true → R .badAlloc F) : Leads (Memory.indexKey.vivify M aKey a) F Q R := by
  have hnone : (storageOf fs hfs).find aKey = none := by rw [find_storageOf, hkey]; rfl
  unfold Memory.indexKey.vivify
  refine load hp.cell (withOwned (fun c => bind ?_) hR)
  refine insertSlot (t := leafAt c alloc .jsonNull) hp rfl hnone rfl (pure ?_) fun k hk => ⟨_, _, _, rfl, hR k hk⟩
  obtain ⟨h, heq⟩ := @objectAt_insert a alloc fs hfs aKey (leafAt c alloc .jsonNull) hkey
  exact heq.symm ▸ hQ c h

/-- **`operator[]` with a key**: a member that is not there is made, and it is null. -/
theorem indexKey {Q : Addr → List NodeTree → Prop} (hs : Sound F) (hp : IsPlace F (node a n cs) fill rest)
    (hfound : ∀ c, Assoc.find aKey (fields n cs) = some c → Q c.addr F)
    (hnew : ∀ c h, Assoc.find aKey (fields n cs) = none →
      Q c (fill (objectAt a n.alloc (Assoc.assign aKey (leafAt c n.alloc .jsonNull) (fields n cs)) h)))
    (hR : ∀ k, M.fails k = true → R .badAlloc F) : Leads (Memory.indexKey M a aKey) F Q R := by
  unfold Memory.indexKey
  by_cases hn : n.impl.eType = .jsonObject
  · obtain ⟨hfs, heq⟩ := objectAt_of_eType (hs.tree hp).ok hn
    refine load hp.cell ?_
    rw [impl_of_objectAt heq]
    dsimp only
    rw [find_storageOf]
    cases hfind : Assoc.find aKey (fields n cs) with
    | some c => exact pure (hfound c hfind)
    | none => exact vivify (heq ▸ hp) hfind (fun c h => hnew c h hfind) hR
  · simp only [fields_of_ne hn] at hnew
    have hpromote : Leads (do
        Memory.withLocal (← Memory.load a).alloc fun replacement => do
          Memory.resetTo M replacement .jsonObject
          let result ← Memory.indexKey.vivify M aKey replacement
          swapStorage a replacement
          Pure.pure result) F Q R := by
      refine load hp.cell (withLocal fun l => bind (resetTo (root_place _ F) (bind ?_) fun k hk =>
        ⟨_, _, _, rfl, hR k hk⟩))
      refine vivify (root_place (objectAt l n.alloc [] Assoc.uniqueKeys_nil) F) rfl (fun c h => ?_)
        fun k hk => ⟨_, _, _, rfl, hR k hk⟩
      exact bind (swapRoot hp rfl (pure ⟨_, _, _, rfl, hnew c h rfl⟩))
    clear hnew hfound
    refine load hp.cell ?_
    revert hn
    cases n.impl with
    | jsonObject o => exact fun hn => absurd rfl hn
    | _ => exact fun _ => hpromote

/-! ## Erasure -/

/-- **`erase` of a key.** -/
theorem eraseKey {Q : Bool → List NodeTree → Prop} (hs : Sound F) (hp : IsPlace F (node a n cs) fill rest)
    (hfound : ∀ c h, Assoc.find aKey (fields n cs) = some c →
      Q true (fill (objectAt a n.alloc (Assoc.drop aKey (fields n cs)) h)))
    (hnone : Assoc.find aKey (fields n cs) = none → Q false F) : Leads (Memory.eraseKey a aKey) F Q R := by
  unfold Memory.eraseKey
  refine load hp.cell ?_
  by_cases hn : n.impl.eType = .jsonObject
  · obtain ⟨hfs, heq⟩ := objectAt_of_eType (hs.tree hp).ok hn
    have hobject : IsPlace F (objectAt a n.alloc (fields n cs) hfs) fill rest := heq ▸ hp
    rw [impl_of_objectAt heq]
    dsimp only
    rw [find_storageOf]
    cases hfind : Assoc.find aKey (fields n cs) with
    | none => exact pure (hnone hfind)
    | some c =>
      have hfound := fun h => hfound c h hfind
      revert hfs hobject hfound
      obtain ⟨pre, post, hsplit, hpre⟩ := Assoc.exists_split hfind
      rw [hsplit]
      intro hfs _ hobject hfound
      rw [objectAt, List.map_append, List.map_cons] at hobject
      obtain ⟨h, heq⟩ := @objectAt_erase a n.alloc aKey c pre post hpre hfs
      have hslots : (Impl.jsonObject ((storageOf (pre ++ (aKey, c) :: post) hfs).erase aKey)).children =
          (pre.map Prod.snd ++ post.map Prod.snd).map addr := by
        have himpl := congrArg Impl.children (impl_of_objectAt (n := ⟨n.alloc, _⟩) heq)
        rw [children_storageOf, Assoc.drop_split hpre, List.map_append] at himpl
        exact himpl
      show Leads (do
        Memory.destroyNode c.addr
        Memory.store a (.jsonObject ((storageOf (pre ++ (aKey, c) :: post) hfs).erase aKey))
        Pure.pure true) F Q R
      refine destroyChild (f := fun _ => Pure.pure true) hobject hslots rfl (pure ?_)
      exact heq.symm ▸ hfound h
  · have hnone := hnone (by rw [fields_of_ne hn]; rfl)
    clear hfound
    revert hn
    cases n.impl with
    | jsonObject o => exact fun hn => absurd rfl hn
    | _ => exact fun _ => pure hnone

/-- **`erase` of an index.** -/
theorem eraseIndex {Q : Bool → List NodeTree → Prop} {index : Nat} (hs : Sound F)
    (hp : IsPlace F (node a n cs) fill rest)
    (hfound : index < (kept n cs).length → Q true (fill (arrayAt a n.alloc ((kept n cs).eraseIdx index))))
    (hnone : (kept n cs).length ≤ index → Q false F) : Leads (Memory.eraseIndex a index) F Q R := by
  unfold Memory.eraseIndex
  refine load hp.cell ?_
  by_cases hn : n.impl.eType = .jsonArray
  · have harray := hs.arrayAt hp hn
    rw [kept, if_pos hn] at hfound hnone
    rw [impl_of_eType (hs.tree hp).ok hn]
    dsimp only
    rw [List.getElem?_map]
    by_cases hin : index < cs.length
    · rw [List.getElem?_eq_getElem hin]
      have hsplit : cs = cs.take index ++ cs[index] :: cs.drop (index + 1) := by
        rw [← List.drop_eq_getElem_cons hin, List.take_append_drop]
      have hfound := hfound hin
      have hslots : (Impl.jsonArray ((cs.map addr).eraseIdx index)).children =
          (cs.take index ++ cs.drop (index + 1)).map addr := by
        rw [Impl.children, List.eraseIdx_map, List.eraseIdx_eq_take_drop_succ]
      have hplace : IsPlace F (node a ⟨n.alloc, .jsonArray (cs.map addr)⟩
          (cs.take index ++ cs[index] :: cs.drop (index + 1))) fill rest := hsplit ▸ harray
      show Leads (do
        Memory.destroyNode cs[index].addr
        Memory.store a (.jsonArray ((cs.map addr).eraseIdx index))
        Pure.pure true) F Q R
      refine destroyChild (f := fun _ => Pure.pure true) hplace hslots rfl (pure ?_)
      rw [← List.eraseIdx_eq_take_drop_succ, List.eraseIdx_map]
      exact hfound
    · rw [List.getElem?_eq_none (Nat.not_lt.mp hin)]
      exact pure (hnone (Nat.not_lt.mp hin))
  · have hnone := hnone (by rw [kept, if_neg hn]; exact Nat.zero_le _)
    clear hfound
    revert hn
    cases n.impl with
    | jsonArray es => exact fun hn => absurd rfl hn
    | _ => exact fun _ => pure hnone

end Leads

end Memory

end ByteDance
