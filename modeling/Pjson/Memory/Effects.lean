/-
  What the mutators do to values.

  The statements are about heaps: the receiver is a tree before and after, its value is computed from the old
  values of the receiver and of the argument, and of the other nodes none changes.  They hold for every
  position of the argument: the receiver itself, above it, below it, or apart, of one allocator or of two.
-/
import Pjson.Memory.Calls

namespace ByteDance

open Run Ownership Owned

namespace Memory

/-- A tree of the heap afterwards, and every live node but some is what it was. -/
structure Becomes (h h' : Heap) (t' : NodeTree) (gone : Addr → Prop) : Prop where
  stands : Stands h'.nodes t'
  frame : ∀ b, h.nodes b ≠ none → ¬ gone b → h'.nodes b = h.nodes b

/-- The same of forests. -/
structure Turns (F F' : List NodeTree) (t' : NodeTree) (gone : Addr → Prop) : Prop where
  place : ∃ fill rest, IsPlace F' t' fill rest
  frame : ∀ c ∈ cellsAll F, ¬ gone c.1 → c ∈ cellsAll F'

variable {M : Machine} {F F' : List NodeTree} {h h' : Heap} {a x : Addr} {n nx : Node} {cs xs : List NodeTree}
  {fill fx : NodeTree → List NodeTree} {rest rx : List (Addr × Node)} {t t' s : NodeTree} {gone : Addr → Prop}

theorem Turns.becomes (ht : Turns F F' t' gone) (hi : Intact h F) (hi' : Intact h' F') : Becomes h h' t' gone := by
  obtain ⟨fill, rest, hp⟩ := ht.place
  refine ⟨hi'.owns.stands hp, fun b hb hgone => ?_⟩
  obtain ⟨n, hn⟩ := Option.ne_none_iff_exists'.mp hb
  rw [hn]
  exact hi'.mem.holds.iff.mpr (ht.frame (b, n) (hi.mem.holds.iff.mp hn) hgone)

theorem Turns.mono {gone' : Addr → Prop} (ht : Turns F F' t' gone) (hsub : ∀ b, gone b → gone' b) :
    Turns F F' t' gone' := ⟨ht.place, fun c hc hgone => ht.frame c hc fun hg => hgone (hsub _ hg)⟩

theorem turns_fill (hp : IsPlace F t fill rest) (hk : t'.key = t.key) : Turns F (fill t') t' (· ∈ t.addrs) := by
  refine ⟨⟨fill, rest, hp.refill hk⟩, fun c hc hgone => hp.mem_rest ?_ _⟩
  exact (hp.mem_or hc).resolve_right fun hin => hgone (List.mem_map_of_mem hin)

/-- Nothing has happened. -/
theorem turns_self (hp : IsPlace F t fill rest) : Turns F F t gone := ⟨⟨fill, rest, hp⟩, fun _ hc _ => hc⟩

/-- An array keeps its elements when it grows; another receiver does not. -/
theorem turns_array (hp : IsPlace F (node a n cs) fill rest) (ts : List NodeTree) :
    Turns F (fill (arrayAt a n.alloc (kept n cs ++ ts))) (arrayAt a n.alloc (kept n cs ++ ts))
      fun b => b = a ∨ n.impl.eType ≠ .jsonArray ∧ b ∈ (node a n cs).addrs := by
  refine ⟨⟨fill, rest, hp.refill rfl⟩, fun c hc hgone => ?_⟩
  rw [not_or, not_and_or, not_not] at hgone
  rcases hp.mem_or hc with hin | hin
  · exact hp.mem_rest hin _
  · have harray := hgone.2.resolve_right fun hout => hout (List.mem_map_of_mem hin)
    rw [cells_node, List.mem_cons] at hin
    have hbelow := hin.resolve_left fun heq => hgone.1 (congrArg Prod.fst heq)
    refine hp.mem_cells _ ?_
    rw [arrayAt, cells_node, kept, if_pos harray, cellsAll_append]
    exact List.mem_cons_of_mem _ (List.mem_append_left _ hbelow)

/-- The receiver in what the argument has left. -/
theorem turns_pruned (hs : Sound F) (hx : IsPlace F (node x nx xs) fx rx) (hp : IsPlace F (node a n cs) fill rest)
    (hout : a ∉ (node x nx xs).addrs) : ∃ cs' f r,
      IsPlace (fx (node x { nx with impl := .jsonNull } [])) (node a n cs') f r ∧ (node a n cs').Ok ∧
      (x ∉ (node a n cs).addrs → cs' = cs) ∧ ∀ t', t'.key = (node a n cs).key →
        Turns F (f t') t' fun b => b ∈ (node a n cs).addrs ∨ b ∈ (node x nx xs).addrs := by
  obtain ⟨cs', f, r, hp', hsub, hsame⟩ := hs.other hx hp hout
  refine ⟨cs', f, r, hp', ((hs.prune hx).tree hp').ok, hsame, fun t' hk => ⟨⟨f, r, hp'.refill hk⟩, fun c hc hgone => ?_⟩⟩
  rw [not_or] at hgone
  have hin := (hx.mem_or hc).resolve_right fun hin => hgone.2 (List.mem_map_of_mem hin)
  exact (turns_fill hp' hk).frame c (hx.mem_rest hin _) fun hb => hgone.1 (hsub _ hb)

/-- Children that have been emptied are as many. -/
theorem length_kept {cs' : List NodeTree} (hok : (node a n cs).Ok) (hok' : (node a n cs').Ok) :
    (kept n cs').length = (kept n cs).length := by
  have hslots : cs'.map addr = cs.map addr := (ok_node.mp hok').1.symm.trans (ok_node.mp hok).1
  have hlen := congrArg List.length hslots
  rw [List.length_map, List.length_map] at hlen
  unfold kept
  split
  · exact hlen
  · rfl

/-- And members have the same keys. -/
theorem keys_fields {cs' : List NodeTree} (hok : (node a n cs).Ok) (hok' : (node a n cs').Ok) :
    Assoc.keys (fields n cs') = Assoc.keys (fields n cs) := by
  by_cases hn : n.impl.eType = .jsonObject
  · obtain ⟨h, heq⟩ := objectAt_of_eType hok hn
    obtain ⟨h', heq'⟩ := objectAt_of_eType hok' hn
    have hsame := (impl_of_objectAt heq').symm.trans (impl_of_objectAt heq)
    rw [Impl.jsonObject.injEq] at hsame
    have hkeys : Assoc.keys (Assoc.mapVal addr (fields n cs')) = Assoc.keys (Assoc.mapVal addr (fields n cs)) :=
      congrArg (fun o => Assoc.keys o.members) hsame
    rwa [Assoc.keys_mapVal, Assoc.keys_mapVal] at hkeys
  · rw [fields_of_ne hn, fields_of_ne hn]

theorem stands_nullTree : Stands (ofForest [nestedTree, nullTree]).nodes nullTree :=
  intact_nestedPair.owns.stands ((IsPlace.root nullTree).cons nestedTree)

theorem stands_nestedTree : Stands (ofForest [nestedTree, nullTree]).nodes nestedTree :=
  intact_nestedPair.owns.stands ((IsPlace.root nestedTree).around [] [nullTree])

/-! ## Assignment -/

/-- **Move assignment**: whatever the overlap, the receiver has the value the argument had; or the call
    throws and every node is what it was. -/
theorem assignMove_exact (hi : Intact h F) (ht : Stands h.nodes t) (hs : Stands h.nodes s) :
    Ends (assignMove M t.addr s.addr) h
      (fun _ h' => ∃ t', t'.key = t.key ∧ value t' = value s ∧
        Becomes h h' t' fun b => b ∈ t.addrs ∨ b ∈ s.addrs)
      fun e h' => Thrown M e ∧ h'.nodes = h.nodes := by
  obtain ⟨fill, rest, hp⟩ := hi.place ht
  obtain ⟨fx, rx, hx⟩ := hi.place hs
  obtain ⟨a, n, cs⟩ := t
  obtain ⟨x, nx, xs⟩ := s
  have hsound : Sound F := ⟨hi.ok, hi.mem.holds.nodup⟩
  have hrun : Leads (assignMove M a x) F (fun _ F' => ∃ t', t'.key = (node a n cs).key ∧
      value t' = value (node x nx xs) ∧
        Turns F F' t' fun b => b ∈ (node a n cs).addrs ∨ b ∈ (node x nx xs).addrs)
      fun e F' => Thrown M e ∧ F' = F := by
    refine Leads.assignMove hsound hp hx (fun heq => ?_) (fun t' ht' => ?_) (fun hout => ?_)
      fun k hk => ⟨thrown_badAlloc M hk, rfl⟩
    · subst heq
      exact ⟨_, rfl, congrArg value (ht.unique hs rfl), turns_self hp⟩
    · exact ⟨t', ht'.key, ht'.value, (turns_fill hp ht'.key).mono fun b hb => Or.inl hb⟩
    · obtain ⟨cs', f, r, hp', -, -, hturns⟩ := turns_pruned hsound hx hp hout
      exact ⟨cs', f, r, hp', fun t' ht' => ⟨t', ht'.key, ht'.value, hturns t' ht'.key⟩⟩
  refine (hrun h hi).mono (fun _ h' hq => ?_) fun e h' he => ?_
  · obtain ⟨-, F', hi', t', hkey, hvalue, hturns⟩ := hq
    exact ⟨t', hkey, hvalue, hturns.becomes hi hi'⟩
  · obtain ⟨-, F', hi', hthrown, rfl⟩ := he
    exact ⟨hthrown, hi.nodes_eq hi'⟩

-- the statement is not to be run
attribute [local irreducible] Ends in
theorem assignMove_exact_nested :
    Ends (assignMove failsOnce nullTree.addr nestedTree.addr) (ofForest [nestedTree, nullTree])
      (fun _ h' => ∃ t', t'.key = nullTree.key ∧ value t' = value nestedTree ∧
        Becomes (ofForest [nestedTree, nullTree]) h' t' fun b => b ∈ nullTree.addrs ∨ b ∈ nestedTree.addrs)
      fun e h' => Thrown failsOnce e ∧ h'.nodes = (ofForest [nestedTree, nullTree]).nodes :=
  assignMove_exact intact_nestedPair stands_nullTree stands_nestedTree

/-! ## Arrays -/

/-- **`pushBack` of an rvalue**: whatever the overlap, the last element is the value the argument had.  The
    elements before it are those of the receiver, if it was an array; where the argument is below the receiver
    it may have been taken from them. -/
theorem pushBackMove_exact (hi : Intact h F) (ht : Stands h.nodes (node a n cs)) (hs : Stands h.nodes s) :
    Ends (pushBackMove M a s.addr) h
      (fun _ h' => ∃ t' vs, t'.key = (a, n.alloc) ∧ value t' = .jsonArray (vs ++ [value s]) ∧
        vs.length = (kept n cs).length ∧ (s.addr ∉ (node a n cs).addrs → vs = (kept n cs).map value) ∧
        Becomes h h' t' fun b => b ∈ (node a n cs).addrs ∨ b ∈ s.addrs)
      fun e h' => Thrown M e ∧ h'.nodes = h.nodes := by
  obtain ⟨fill, rest, hp⟩ := hi.place ht
  obtain ⟨fx, rx, hx⟩ := hi.place hs
  obtain ⟨x, nx, xs⟩ := s
  have hsound : Sound F := ⟨hi.ok, hi.mem.holds.nodup⟩
  have hvalue : ∀ (es : List NodeTree) u, value u = value (node x nx xs) →
      value (arrayAt a n.alloc (es ++ [u])) = .jsonArray (es.map value ++ [value (node x nx xs)]) := fun es u hu => by
    rw [value_arrayAt, List.map_append, List.map_singleton, hu]
  have hrun : Leads (pushBackMove M a x) F (fun _ F' => ∃ t' vs, t'.key = (a, n.alloc) ∧
      value t' = .jsonArray (vs ++ [value (node x nx xs)]) ∧ vs.length = (kept n cs).length ∧
      (x ∉ (node a n cs).addrs → vs = (kept n cs).map value) ∧
        Turns F F' t' fun b => b ∈ (node a n cs).addrs ∨ b ∈ (node x nx xs).addrs)
      fun e F' => Thrown M e ∧ F' = F := by
    refine Leads.pushBackMove hsound hp hx (fun u hu => ?_) (fun hout => ?_)
      (fun k hk => ⟨thrown_badAlloc M hk, rfl⟩) ⟨thrown_of_notMem (by decide), rfl⟩
    · have hkey : (arrayAt a n.alloc (kept n cs ++ [u])).key = (node a n cs).key := rfl
      exact ⟨_, _, rfl, hvalue _ u hu, List.length_map _, fun _ => rfl,
        (turns_fill hp hkey).mono fun b hb => Or.inl hb⟩
    · obtain ⟨cs', f, r, hp', hok', hsame, hturns⟩ := turns_pruned hsound hx hp hout
      refine ⟨cs', f, r, hp', fun u hu => ⟨_, _, rfl, hvalue _ u hu, ?_, fun hout' => ?_, hturns _ rfl⟩⟩
      · rw [List.length_map]
        exact length_kept ht.ok hok'
      · rw [hsame hout']
  refine (hrun h hi).mono (fun _ h' hq => ?_) fun e h' he => ?_
  · obtain ⟨-, F', hi', t', vs, hkey, hvalue, hlen, hsame, hturns⟩ := hq
    exact ⟨t', vs, hkey, hvalue, hlen, hsame, hturns.becomes hi hi'⟩
  · obtain ⟨-, F', hi', hthrown, rfl⟩ := he
    exact ⟨hthrown, hi.nodes_eq hi'⟩

attribute [local irreducible] Ends in
theorem pushBackMove_exact_nested :
    Ends (pushBackMove failsOnce 4 nestedTree.addr) (ofForest [nestedTree, nullTree])
      (fun _ h' => ∃ t' vs, t'.key = (4, 1) ∧ value t' = .jsonArray (vs ++ [value nestedTree]) ∧
        vs.length = (kept ⟨1, .jsonNull⟩ []).length ∧
        (nestedTree.addr ∉ (node 4 (⟨1, .jsonNull⟩ : Node) []).addrs → vs = (kept ⟨1, .jsonNull⟩ []).map value) ∧
        Becomes (ofForest [nestedTree, nullTree]) h' t' fun b =>
          b ∈ (node 4 (⟨1, .jsonNull⟩ : Node) []).addrs ∨ b ∈ nestedTree.addrs)
      fun e h' => Thrown failsOnce e ∧ h'.nodes = (ofForest [nestedTree, nullTree]).nodes :=
  pushBackMove_exact intact_nestedPair stands_nullTree stands_nestedTree

/-! ## Objects -/

/-- **`insertOrAssign`**, both overloads: whatever the overlap, the receiver has become the object it was, or
    an empty one, with the key assigned the value the argument had; where an rvalue is below the receiver it
    may have been taken from the other members.  A call that throws changes nothing, and with memory to spare
    three calls inside each other are enough. -/
theorem insertOrAssign_exact {move : Bool} {aKey : Bytes} (hi : Intact h F) (ht : Stands h.nodes (node a n cs))
    (hs : Stands h.nodes s) :
    Ends (insertOrAssign M M.stack move a aKey s.addr) h
      (fun _ h' => ∃ t' ms, t'.key = (a, n.alloc) ∧ value t' = .jsonObject (Assoc.assign aKey (value s) ms) ∧
        Assoc.keys ms = Assoc.keys (fields n cs) ∧
        (move = false ∨ s.addr ∉ (node a n cs).addrs → ms = Assoc.mapVal value (fields n cs)) ∧
        Becomes h h' t' fun b => b ∈ (node a n cs).addrs ∨ (move = true ∧ b ∈ s.addrs))
      fun e h' => Thrown M e ∧ h'.nodes = h.nodes ∧
        (e = .stackOverflow → (∃ k, M.fails k = true) ∨ M.stack < 3) := by
  obtain ⟨fill, rest, hp⟩ := hi.place ht
  obtain ⟨fx, rx, hx⟩ := hi.place hs
  obtain ⟨x, nx, xs⟩ := s
  have hsound : Sound F := ⟨hi.ok, hi.mem.holds.nodup⟩
  have hvalue : ∀ (fs : List (Bytes × NodeTree)) u h, value u = value (node x nx xs) →
      value (objectAt a n.alloc (Assoc.assign aKey u fs) h) =
        .jsonObject (Assoc.assign aKey (value (node x nx xs)) (Assoc.mapVal value fs)) := fun fs u h hu => by
    rw [value_objectAt, Assoc.assign_mapVal, hu]
  have hrun : Leads (insertOrAssign M M.stack move a aKey x) F (fun _ F' => ∃ t' ms, t'.key = (a, n.alloc) ∧
      value t' = .jsonObject (Assoc.assign aKey (value (node x nx xs)) ms) ∧
        Assoc.keys ms = Assoc.keys (fields n cs) ∧
        (move = false ∨ x ∉ (node a n cs).addrs → ms = Assoc.mapVal value (fields n cs)) ∧
        Turns F F' t' fun b => b ∈ (node a n cs).addrs ∨ (move = true ∧ b ∈ (node x nx xs).addrs))
      fun e F' => Thrown M e ∧ F' = F ∧ (e = .stackOverflow → (∃ k, M.fails k = true) ∨ M.stack < 3) := by
    refine Leads.insertOrAssign M.stack hsound hp hx (fun u h hu => ?_) (fun hm hout => ?_)
      (fun k hk => ⟨thrown_badAlloc M hk, rfl, by rintro ⟨⟩⟩) fun hdeep =>
        ⟨thrown_of_notMem (by decide), rfl, fun _ => hdeep.imp_right fun hlt => ?_⟩
    · have hkey : (objectAt a n.alloc (Assoc.assign aKey u (fields n cs)) h).key = (node a n cs).key := rfl
      exact ⟨_, _, rfl, hvalue _ u h hu, Assoc.keys_mapVal _ _, fun _ => rfl,
        (turns_fill hp hkey).mono fun b hb => Or.inl hb⟩
    -- A moved source may stand inside the target: it is null by then, and its key stays.
    · obtain ⟨cs', f, r, hp', hok', hsame, hturns⟩ := turns_pruned hsound hx hp hout
      refine ⟨cs', f, r, hp', fun u h hu => ⟨_, _, rfl, hvalue _ u h hu, ?_, fun hor => ?_, ?_⟩⟩
      · rw [Assoc.keys_mapVal]
        exact keys_fields ht.ok hok'
      · rw [hsame (hor.resolve_left (by rw [hm]; exact Bool.noConfusion))]
      · have hkey : (objectAt a n.alloc (Assoc.assign aKey u (fields n cs')) h).key = (node a n cs).key := rfl
        exact (hturns _ hkey).mono fun b hb => hb.imp_right fun hb => ⟨hm, hb⟩
    · split_ifs at hlt <;> omega
  refine (hrun h hi).mono (fun _ h' hq => ?_) fun e h' he => ?_
  · obtain ⟨-, F', hi', t', ms, hkey, hvalue, hkeys, hsame, hturns⟩ := hq
    exact ⟨t', ms, hkey, hvalue, hkeys, hsame, hturns.becomes hi hi'⟩
  · obtain ⟨-, F', hi', hthrown, rfl, hdeep⟩ := he
    exact ⟨hthrown, hi.nodes_eq hi', hdeep⟩

attribute [local irreducible] Ends in
theorem insertOrAssign_exact_nested :
    Ends (insertOrAssign failsOnce failsOnce.stack true 4 [0x62] nestedTree.addr) (ofForest [nestedTree, nullTree])
      (fun _ h' => ∃ t' ms, t'.key = (4, 1) ∧ value t' = .jsonObject (Assoc.assign [0x62] (value nestedTree) ms) ∧
        Assoc.keys ms = Assoc.keys (fields ⟨1, .jsonNull⟩ []) ∧
        (true = false ∨ nestedTree.addr ∉ (node 4 (⟨1, .jsonNull⟩ : Node) []).addrs →
          ms = Assoc.mapVal value (fields ⟨1, .jsonNull⟩ [])) ∧
        Becomes (ofForest [nestedTree, nullTree]) h' t' fun b =>
          b ∈ (node 4 (⟨1, .jsonNull⟩ : Node) []).addrs ∨ (true = true ∧ b ∈ nestedTree.addrs))
      fun e h' => Thrown failsOnce e ∧ h'.nodes = (ofForest [nestedTree, nullTree]).nodes ∧
        (e = .stackOverflow → (∃ k, failsOnce.fails k = true) ∨ failsOnce.stack < 3) :=
  insertOrAssign_exact intact_nestedPair stands_nullTree stands_nestedTree

/-! ## Indices -/

/-- **The law of indices**: `v[j]` and `find(j)` mean the same element of the array.  `v[j]` extends it with
    nulls until the element is there, and every element that was there stays; it throws, and changes nothing,
    where a negative index goes too far back or the elements cannot be made. -/
theorem indexInt_exact {j : Int32} (hmax : M.maxSize < 2 ^ 64) (hi : Intact h F) (ht : Stands h.nodes (node a n cs)) :
    Ends (indexInt M a j) h
      (fun r h' => ∃ position ts, positionOf (kept n cs).length j.toInt = some position ∧
        ¬ OutOfReach M (kept n cs).length position ∧
        Leaves n.alloc (List.replicate (position + 1 - (kept n cs).length) .jsonNull) ts ∧
        (kept n cs ++ ts)[position]?.map addr = some r ∧
        Becomes h h' (arrayAt a n.alloc (kept n cs ++ ts)) fun b =>
          b = a ∨ n.impl.eType ≠ .jsonArray ∧ b ∈ (node a n cs).addrs)
      (fun e h' => Thrown M e ∧ h'.nodes = h.nodes ∧
        (e = .lengthError → ∃ position, positionOf (kept n cs).length j.toInt = some position ∧
          OutOfReach M (kept n cs).length position) ∧
        (e = .outOfRange → positionOf (kept n cs).length j.toInt = none)) ∧
    Ends (findInt a j) h (fun r h' => h'.nodes = h.nodes ∧
      r = ((positionOf (kept n cs).length j.toInt).bind ((kept n cs)[·]?)).map addr) fun _ _ => False := by
  obtain ⟨fill, rest, hp⟩ := hi.place ht
  have hsound : Sound F := ⟨hi.ok, hi.mem.holds.nodup⟩
  constructor
  · have hrun : Leads (indexInt M a j) F (fun r F' => ∃ position ts,
        positionOf (kept n cs).length j.toInt = some position ∧ ¬ OutOfReach M (kept n cs).length position ∧
        Leaves n.alloc (List.replicate (position + 1 - (kept n cs).length) .jsonNull) ts ∧
        (kept n cs ++ ts)[position]?.map addr = some r ∧
        Turns F F' (arrayAt a n.alloc (kept n cs ++ ts)) fun b =>
          b = a ∨ n.impl.eType ≠ .jsonArray ∧ b ∈ (node a n cs).addrs)
        fun e F' => Thrown M e ∧ F' = F ∧
          (e = .lengthError → ∃ position, positionOf (kept n cs).length j.toInt = some position ∧
            OutOfReach M (kept n cs).length position) ∧
          (e = .outOfRange → positionOf (kept n cs).length j.toInt = none) := by
      -- The four ways out: an element, a failed allocation, an index too far, no such element.
      refine Leads.indexInt hsound hp hmax (fun position ts t hposition hts hreach hat => ?_) (fun k hk => ?_)
        (fun position hposition hout => ?_) fun hnone => ?_
      · exact ⟨position, ts, hposition, hreach, hts, by rw [hat]; rfl, turns_array hp ts⟩
      · exact ⟨thrown_badAlloc M hk, rfl, by rintro ⟨⟩, by rintro ⟨⟩⟩
      · exact ⟨thrown_of_notMem (by decide), rfl, fun _ => ⟨position, hposition, hout⟩, by rintro ⟨⟩⟩
      · exact ⟨thrown_of_notMem (by decide), rfl, by rintro ⟨⟩, fun _ => hnone⟩
    refine (hrun h hi).mono (fun r h' hq => ?_) fun e h' he => ?_
    · obtain ⟨-, F', hi', position, ts, hposition, hreach, hts, hat, hturns⟩ := hq
      exact ⟨position, ts, hposition, hreach, hts, hat, hturns.becomes hi hi'⟩
    · obtain ⟨-, F', hi', hthrown, rfl, hlength, hrange⟩ := he
      exact ⟨hthrown, hi.nodes_eq hi', hlength, hrange⟩
  · have hrun : Leads (findInt a j) F (fun r F' => F' = F ∧
        r = ((positionOf (kept n cs).length j.toInt).bind ((kept n cs)[·]?)).map addr) fun _ _ => False :=
      Leads.findInt hsound hp ⟨rfl, rfl⟩
    refine (hrun h hi).mono (fun r h' hq => ?_) fun _ _ he => he.2.elim fun _ hf => hf.2
    obtain ⟨-, F', hi', rfl, hr⟩ := hq
    exact ⟨hi.nodes_eq hi', hr⟩

attribute [local irreducible] Ends in
theorem indexInt_exact_null :
    Ends (indexInt failsOnce 4 2) (ofForest [nestedTree, nullTree])
      (fun r h' => ∃ position ts,
        positionOf (kept ⟨1, .jsonNull⟩ []).length (2 : Int32).toInt = some position ∧
        ¬ OutOfReach failsOnce (kept ⟨1, .jsonNull⟩ []).length position ∧
        Leaves 1 (List.replicate (position + 1 - (kept ⟨1, .jsonNull⟩ []).length) .jsonNull) ts ∧
        (kept ⟨1, .jsonNull⟩ [] ++ ts)[position]?.map addr = some r ∧
        Becomes (ofForest [nestedTree, nullTree]) h' (arrayAt 4 1 (kept ⟨1, .jsonNull⟩ [] ++ ts)) fun b =>
          b = 4 ∨ Impl.jsonNull.eType ≠ .jsonArray ∧ b ∈ (node 4 (⟨1, .jsonNull⟩ : Node) []).addrs)
      (fun e h' => Thrown failsOnce e ∧ h'.nodes = (ofForest [nestedTree, nullTree]).nodes ∧
        (e = .lengthError → ∃ position,
          positionOf (kept ⟨1, .jsonNull⟩ []).length (2 : Int32).toInt = some position ∧
            OutOfReach failsOnce (kept ⟨1, .jsonNull⟩ []).length position) ∧
        (e = .outOfRange → positionOf (kept ⟨1, .jsonNull⟩ []).length (2 : Int32).toInt = none)) ∧
    Ends (findInt 4 2) (ofForest [nestedTree, nullTree])
      (fun r h' => h'.nodes = (ofForest [nestedTree, nullTree]).nodes ∧
        r = ((positionOf (kept ⟨1, .jsonNull⟩ []).length (2 : Int32).toInt).bind
          ((kept ⟨1, .jsonNull⟩ [])[·]?)).map addr) fun _ _ => False :=
  indexInt_exact (show 100 < 2 ^ 64 by norm_num) intact_nestedPair stands_nullTree

end Memory

end ByteDance
