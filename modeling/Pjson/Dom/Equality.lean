/-
  Structural equality of two values, and `pjson::operator==`.

  `Same` says when two values are equal: numbers denote the same point of the line, strings agree
  byte by byte, arrays element by element, objects have the same keys and equal members.  Three
  places of the library compare values, each with its own loop over a stack of pairs; here is what
  they share.  `pair_cases` lists the forms a pair can have, `Splits` says that a pair is equal
  exactly if the pairs pushed for it are, `Differs` that it is not, and there is one lemma about
  either for each form.  `operatorEq` is the first of the three loops.
-/
import Pjson.Dom.Compare
import Pjson.Lib.WorkList

namespace ByteDance

open Run

/-- `pjson::jsonType`. -/
inductive JsonType where
  | jsonNull | jsonString | jsonNumberInt | jsonNumberDouble | jsonBoolean | jsonArray | jsonObject
  | jsonNumberUInt
  deriving DecidableEq

/-- `pjson::getType`. -/
def Pjson.getType : Pjson → JsonType
  | .jsonNull => .jsonNull
  | .jsonString _ => .jsonString
  | .jsonNumberInt _ => .jsonNumberInt
  | .jsonNumberDouble _ => .jsonNumberDouble
  | .jsonBoolean _ => .jsonBoolean
  | .jsonArray _ => .jsonArray
  | .jsonObject _ => .jsonObject
  | .jsonNumberUInt _ => .jsonNumberUInt

/-- Structural equality. -/
inductive Same : Pjson → Pjson → Prop
  | null : Same .jsonNull .jsonNull
  | string (s : Bytes) : Same (.jsonString s) (.jsonString s)
  | boolean (b : Bool) : Same (.jsonBoolean b) (.jsonBoolean b)
  | number {l r : Pjson} {x : WithBot (WithTop ℚ)} :
      l.place = some x → r.place = some x → Same l r
  | array {xs ys : List Pjson} : xs.length = ys.length → (∀ p ∈ xs.zip ys, Same p.1 p.2) →
      Same (.jsonArray xs) (.jsonArray ys)
  | object {ms ns : List (Bytes × Pjson)} : (∀ k, k ∈ Assoc.keys ms ↔ k ∈ Assoc.keys ns) →
      (∀ k x y, Assoc.find k ms = some x → Assoc.find k ns = some y → Same x y) →
      Same (.jsonObject ms) (.jsonObject ns)

/-- A pair of values still to be compared. -/
abbrev Pair := Pjson × Pjson

/-! ## The forms of a pair -/

@[elab_as_elim]
theorem pair_cases {motive : Pjson → Pjson → Prop}
    (numbers : ∀ l r, l.isNumber = true → r.isNumber = true → motive l r)
    (types : ∀ l r, (l.isNumber && r.isNumber) = false → l.getType ≠ r.getType → motive l r)
    (null : motive .jsonNull .jsonNull)
    (string : ∀ s t, motive (.jsonString s) (.jsonString t))
    (boolean : ∀ b c, motive (.jsonBoolean b) (.jsonBoolean c))
    (array : ∀ xs ys, motive (.jsonArray xs) (.jsonArray ys))
    (object : ∀ ms ns, motive (.jsonObject ms) (.jsonObject ns)) : ∀ l r, motive l r := by
  intro l r
  by_cases hnum : (l.isNumber && r.isNumber) = true
  · rw [Bool.and_eq_true] at hnum
    exact numbers l r hnum.1 hnum.2
  by_cases htype : l.getType = r.getType
  · cases l <;> cases r <;> try cases htype
    · exact null
    · exact string _ _
    · exact absurd rfl hnum
    · exact absurd rfl hnum
    · exact boolean _ _
    · exact array _ _
    · exact object _ _
    · exact absurd rfl hnum
  · exact types l r (by simpa using hnum) htype

theorem Pjson.place_of_not_isNumber {v : Pjson} (h : v.isNumber = false) : v.place = none := by
  cases v <;> first | rfl | cases h

theorem Pjson.isNumber_of_place {v : Pjson} {x : WithBot (WithTop ℚ)} (h : v.place = some x) :
    v.isNumber = true := by
  by_contra hnot
  rw [place_of_not_isNumber (by simpa using hnot)] at h
  cases h

theorem same_numbers_iff {l r : Pjson} (hl : l.isNumber = true) (hr : r.isNumber = true) :
    Same l r ↔ compareNumbers l r = 0 := by
  rw [compareNumbers_eq_zero_iff hl hr]
  constructor
  · intro h
    cases h with
    | number hx hy => exact ⟨_, hx, hy⟩
    | _ => cases hl
  · rintro ⟨x, hx, hy⟩
    exact .number hx hy

theorem not_same_of_getType_ne {l r : Pjson} (hnum : (l.isNumber && r.isNumber) = false)
    (htype : l.getType ≠ r.getType) : ¬ Same l r := by
  intro h
  cases h with
  | number hx hy =>
    rw [Pjson.isNumber_of_place hx, Pjson.isNumber_of_place hy] at hnum
    cases hnum
  | _ => exact htype rfl

theorem same_string_iff {s t : Bytes} : Same (.jsonString s) (.jsonString t) ↔ s = t := by
  constructor
  · intro h
    cases h with
    | string => rfl
    | number hx => cases hx
  · rintro rfl
    exact .string s

theorem same_boolean_iff {b c : Bool} : Same (.jsonBoolean b) (.jsonBoolean c) ↔ b = c := by
  constructor
  · intro h
    cases h with
    | boolean => rfl
    | number hx => cases hx
  · rintro rfl
    exact .boolean b

theorem same_array_iff {xs ys : List Pjson} : Same (.jsonArray xs) (.jsonArray ys) ↔
    xs.length = ys.length ∧ ∀ p ∈ xs.zip ys, Same p.1 p.2 := by
  constructor
  · intro h
    cases h with
    | array hlen hall => exact ⟨hlen, hall⟩
    | number hx => cases hx
  · rintro ⟨hlen, hall⟩
    exact .array hlen hall

theorem same_object_iff {ms ns : List (Bytes × Pjson)} : Same (.jsonObject ms) (.jsonObject ns) ↔
    (∀ k, k ∈ Assoc.keys ms ↔ k ∈ Assoc.keys ns) ∧
      ∀ k x y, Assoc.find k ms = some x → Assoc.find k ns = some y → Same x y := by
  constructor
  · intro h
    cases h with
    | object hkeys hall => exact ⟨hkeys, hall⟩
    | number hx => cases hx
  · rintro ⟨hkeys, hall⟩
    exact .object hkeys hall

/-- Of two objects with as many members each, it is enough that the second has every member of the
    first. -/
theorem same_object_of_length {ms ns : List (Bytes × Pjson)} (hms : Assoc.UniqueKeys ms) (hlen : ms.length = ns.length) :
    Same (.jsonObject ms) (.jsonObject ns) ↔
      ∀ m ∈ ms, ∃ v, Assoc.find m.1 ns = some v ∧ Same m.2 v := by
  rw [same_object_iff]
  constructor
  · rintro ⟨hkeys, hall⟩ ⟨k, x⟩ hm
    have hk : k ∈ Assoc.keys ns := (hkeys k).mp (List.mem_map.mpr ⟨_, hm, rfl⟩)
    obtain ⟨v, hv⟩ := Option.isSome_iff_exists.mp (Assoc.find_isSome_iff.mpr hk)
    exact ⟨v, hv, hall k x v (Assoc.find_of_mem hms hm) hv⟩
  · intro hall
    have hsub : Assoc.keys ms ⊆ Assoc.keys ns := by
      intro k hk
      obtain ⟨m, hm, rfl⟩ := List.mem_map.mp hk
      obtain ⟨v, hv, -⟩ := hall m hm
      exact Assoc.find_isSome_iff.mp (by rw [hv]; rfl)
    -- the keys of the first are the keys of the second, since they are as many
    have hperm : (Assoc.keys ms).Perm (Assoc.keys ns) := by
      refine (hms.subperm hsub).perm_of_length_le ?_
      unfold Assoc.keys
      rw [List.length_map, List.length_map, hlen]
    refine ⟨fun k => hperm.mem_iff, fun k x y hx hy => ?_⟩
    obtain ⟨v, hv, hsame⟩ := hall (k, x) (Assoc.mem_of_find hx)
    rw [hv] at hy
    cases hy
    exact hsame

/-! ## What a visit of a pair establishes -/

/-- The pairs pushed for a pair are smaller, well formed if it is, and equal exactly if it is. -/
structure Splits (p : Pair) (pushed : List Pair) : Prop where
  smaller : (pushed.map fun q => q.1.nodes).sum < p.1.nodes
  wf : p.1.WF → p.2.WF → ∀ q ∈ pushed, q.1.WF ∧ q.2.WF
  same_iff : p.1.WF → p.2.WF → (Same p.1 p.2 ↔ ∀ q ∈ pushed, Same q.1 q.2)

/-- The two values of a pair are not equal. -/
def Differs (p : Pair) : Prop := p.1.WF → p.2.WF → ¬ Same p.1 p.2

theorem splits_nil {p : Pair} (h : Same p.1 p.2) : Splits p [] where
  smaller := p.1.nodes_pos
  wf _ _ q hq := by cases hq
  same_iff _ _ := iff_of_true h (by simp)

theorem splits_array {xs ys : List Pjson} (hlen : xs.length = ys.length) :
    Splits (.jsonArray xs, .jsonArray ys) (xs.zip ys) where
  smaller := by
    have hsum : ∀ (xs ys : List Pjson),
        ((xs.zip ys).map fun q => q.1.nodes).sum ≤ Pjson.nodesElements xs := by
      intro xs
      induction xs with
      | nil => simp [Pjson.nodesElements]
      | cons x xs ih =>
        intro ys
        cases ys with
        | nil => simp
        | cons y ys =>
          rw [List.zip_cons_cons, List.map_cons, List.sum_cons, Pjson.nodesElements]
          exact Nat.add_le_add_left (ih ys) _
    show _ < 1 + Pjson.nodesElements xs
    exact (hsum xs ys).trans_lt (by omega)
  wf hl hr q hq :=
    ⟨Pjson.wf_array.mp hl _ (List.of_mem_zip hq).1, Pjson.wf_array.mp hr _ (List.of_mem_zip hq).2⟩
  same_iff _ _ := by
    rw [same_array_iff]
    exact and_iff_right hlen

/-- The members of an object `ms` against those of the same keys in `ns`. -/
def Paired (ns ms : List (Bytes × Pjson)) (pushed : List Pair) : Prop :=
  List.Forall₂ (fun m q => q.1 = m.2 ∧ Assoc.find m.1 ns = some q.2) ms pushed

theorem Paired.sum_nodes {ns ms : List (Bytes × Pjson)} {pushed : List Pair}
    (h : Paired ns ms pushed) : (pushed.map fun q => q.1.nodes).sum = Pjson.nodesMembers ms := by
  induction h with
  | nil => rfl
  | cons hq _ ih => rw [List.map_cons, List.sum_cons, ih, Pjson.nodesMembers, hq.1]

theorem Paired.forall_iff {ns ms : List (Bytes × Pjson)} {pushed : List Pair} {P : Pair → Prop}
    (h : Paired ns ms pushed) :
    (∀ q ∈ pushed, P q) ↔ ∀ m ∈ ms, ∃ v, Assoc.find m.1 ns = some v ∧ P (m.2, v) := by
  induction h with
  | nil => simp
  | @cons m q ms pushed hq _ ih =>
    rw [List.forall_mem_cons, List.forall_mem_cons, ih, hq.2, ← hq.1]
    simp

/-- The loop over the left object may see its members in any order. -/
theorem splits_object {ms seen ns : List (Bytes × Pjson)} {pushed : List Pair}
    (hperm : seen.Perm ms) (hlen : ms.length = ns.length) (h : Paired ns seen pushed) :
    Splits (.jsonObject ms, .jsonObject ns) pushed where
  smaller := by
    have hsum : Pjson.nodesMembers seen = Pjson.nodesMembers ms := by
      rw [Pjson.nodesMembers_eq_sum, Pjson.nodesMembers_eq_sum, (hperm.map _).sum_eq]
    rw [h.sum_nodes, hsum]
    show _ < 1 + Pjson.nodesMembers ms
    omega
  wf hl hr := by
    rw [h.forall_iff (P := fun q => q.1.WF ∧ q.2.WF)]
    intro m hm
    obtain ⟨v, hv, -⟩ := (h.forall_iff (P := fun _ => True)).mp (fun _ _ => trivial) m hm
    exact ⟨v, hv, (Pjson.wf_object.mp hl).2 m (hperm.mem_iff.mp hm),
      (Pjson.wf_object.mp hr).2 _ (Assoc.mem_of_find hv)⟩
  same_iff hl _ := by
    rw [same_object_of_length (Pjson.wf_object.mp hl).1 hlen,
      h.forall_iff (P := fun q => Same q.1 q.2)]
    simp only [hperm.mem_iff]

theorem differs_array {xs ys : List Pjson} (hlen : xs.length ≠ ys.length) :
    Differs (.jsonArray xs, .jsonArray ys) := fun _ _ h => hlen (same_array_iff.mp h).1

theorem differs_object_length {ms ns : List (Bytes × Pjson)} (hlen : ms.length ≠ ns.length) :
    Differs (.jsonObject ms, .jsonObject ns) := by
  intro hl hr h
  have hkeys := (same_object_iff.mp h).1
  have hperm : (Assoc.keys ms).Perm (Assoc.keys ns) :=
    (List.perm_ext_iff_of_nodup (Pjson.wf_object.mp hl).1 (Pjson.wf_object.mp hr).1).mpr hkeys
  have hlength := hperm.length_eq
  unfold Assoc.keys at hlength
  rw [List.length_map, List.length_map] at hlength
  exact hlen hlength

theorem differs_object_missing {ms ns : List (Bytes × Pjson)} {m : Bytes × Pjson} (hm : m ∈ ms)
    (hmiss : Assoc.find m.1 ns = none) : Differs (.jsonObject ms, .jsonObject ns) := by
  intro _ _ h
  have hkey := ((same_object_iff.mp h).1 m.1).mp (List.mem_map.mpr ⟨m, hm, rfl⟩)
  exact Assoc.find_eq_none_iff.mp hmiss hkey

/-! ## A loop over pairs -/

/-- A loop whose visits split their pair or exit because it differs decides equality: it ends
    normally on equal values, and an exit in `unequal` is taken on different ones only. -/
theorem compares {ε σ : Type} (unequal : ε → Prop) (V : Visitor ε σ Pair)
    (hvisit : ∀ p s, Ends (V.visit p) s (fun pushed _ => Splits p pushed)
      (fun e _ => unequal e → Differs p))
    {l r : Pjson} (hl : l.WF) (hr : r.WF) (s : σ) :
    Ends (V.drain [(l, r)]) s (fun _ _ => Same l r) (fun e _ => unequal e → ¬ Same l r) := by
  have hroot : ∀ p ∈ [(l, r)], p.1.WF ∧ p.2.WF := by simpa using ⟨hl, hr⟩
  have hloop := V.drain_decides (fun p => p.1.WF ∧ p.2.WF) (fun p => Same p.1 p.2) unequal ?_
    hroot s
  · refine hloop.mono (fun _ _ h => by simpa using h) (fun e _ h he => by simpa using h he)
  · rintro p s ⟨hpl, hpr⟩
    exact (hvisit p s).mono (fun _ _ h => ⟨h.wf hpl hpr, h.same_iff hpl hpr⟩)
      (fun _ _ h he => h he hpl hpr)

/-! ## `operator==` -/

/-- The members of the left object, looked up in the right one; a missing key ends the loop. -/
def pairMembers (r : List (Bytes × Pjson)) : List (Bytes × Pjson) → EStateM Unit Unit (List Pair)
  | [] => pure []
  | (key, value) :: it =>
    match Assoc.find key r with
    | none => throw ()
    | some matching => do
      let rest ← pairMembers r it
      pure ((value, matching) :: rest)

/-- One turn of the loop; `throw` is `return false`. -/
def visitEq (cur : Pair) : EStateM Unit Unit (List Pair) :=
  let (lhs, rhs) := cur
  if lhs.isNumber && rhs.isNumber then
    if compareNumbers lhs rhs ≠ 0 then throw () else pure []
  else if lhs.getType ≠ rhs.getType then throw ()
  else
    match lhs, rhs with
    | .jsonString l, .jsonString r => if l ≠ r then throw () else pure []
    | .jsonBoolean l, .jsonBoolean r => if l ≠ r then throw () else pure []
    -- the cases of the number types are not reached
    | .jsonNumberInt l, .jsonNumberInt r => if l ≠ r then throw () else pure []
    | .jsonNumberUInt l, .jsonNumberUInt r => if l ≠ r then throw () else pure []
    | .jsonNumberDouble l, .jsonNumberDouble r => if !l.eq r then throw () else pure []
    | .jsonArray l, .jsonArray r => if l.length ≠ r.length then throw () else pure (l.zip r)
    | .jsonObject l, .jsonObject r =>
        if l.length ≠ r.length then throw () else pairMembers r l
    | _, _ => pure []

theorem pairMembers_ends (r : List (Bytes × Pjson)) (ms : List (Bytes × Pjson)) (s : Unit) :
    Ends (pairMembers r ms) s (fun pushed _ => Paired r ms pushed)
      (fun _ _ => ∃ m ∈ ms, Assoc.find m.1 r = none) := by
  induction ms with
  | nil => exact List.Forall₂.nil
  | cons m ms ih =>
    obtain ⟨key, value⟩ := m
    unfold pairMembers
    cases hfind : Assoc.find key r with
    | none => exact ⟨(key, value), List.mem_cons_self, hfind⟩
    | some matching =>
      dsimp only
      rw [ends_bind]
      refine ih.mono (fun rest _ hrest => ?_) (fun _ _ h => ?_)
      · exact List.Forall₂.cons ⟨rfl, hfind⟩ hrest
      · obtain ⟨m, hm, hmiss⟩ := h
        exact ⟨m, List.mem_cons_of_mem _ hm, hmiss⟩

theorem visitEq_ends (p : Pair) (s : Unit) :
    Ends (visitEq p) s (fun pushed _ => Splits p pushed) (fun _ _ => Differs p) := by
  obtain ⟨l, r⟩ := p
  unfold visitEq
  induction l, r using pair_cases with
  | numbers l r hl hr =>
    simp only [hl, hr, Bool.and_self, if_true]
    refine ends_ite.mpr ⟨fun h => ?_, fun h => ?_⟩
    · exact fun _ _ hsame => h ((same_numbers_iff hl hr).mp hsame)
    · exact splits_nil ((same_numbers_iff hl hr).mpr (not_not.mp h))
  | types l r hnum htype =>
    simp only [hnum, if_pos htype]
    exact fun _ _ => not_same_of_getType_ne hnum htype
  | null => exact splits_nil .null
  | string x y =>
    show Ends (if x ≠ y then throw () else pure []) s _ _
    refine ends_ite.mpr ⟨fun h => ?_, fun h => ?_⟩
    · exact fun _ _ hsame => h (same_string_iff.mp hsame)
    · exact splits_nil (same_string_iff.mpr (not_not.mp h))
  | boolean b c =>
    show Ends (if b ≠ c then throw () else pure []) s _ _
    refine ends_ite.mpr ⟨fun h => ?_, fun h => ?_⟩
    · exact fun _ _ hsame => h (same_boolean_iff.mp hsame)
    · exact splits_nil (same_boolean_iff.mpr (not_not.mp h))
  | array xs ys =>
    show Ends (if xs.length ≠ ys.length then throw () else pure (xs.zip ys)) s _ _
    exact ends_ite.mpr ⟨differs_array, fun h => splits_array (not_not.mp h)⟩
  | object ms ns =>
    show Ends (if ms.length ≠ ns.length then throw () else pairMembers ns ms) s _ _
    refine ends_ite.mpr ⟨differs_object_length, fun h => ?_⟩
    refine (pairMembers_ends ns ms s).mono (fun _ _ => splits_object (.refl _) (not_not.mp h)) ?_
    rintro _ _ ⟨m, hm, hmiss⟩
    exact differs_object_missing hm hmiss

/-- The loop of `operator==`. -/
def eqVisitor : Visitor Unit Unit Pair where
  visit := visitEq
  size p := p.1.nodes
  shrinks h := ((visitEq_ends _ _).ok h).smaller

/-- `pjson::operator==`. -/
def operatorEq (l r : Pjson) : Bool :=
  match (eqVisitor.drain [(l, r)]).run () with
  | .ok _ _ => true
  | .error _ _ => false

/-- **`operator==` is structural equality.** -/
theorem operatorEq_iff {l r : Pjson} (hl : l.WF) (hr : r.WF) : operatorEq l r = true ↔ Same l r := by
  have hloop := compares (fun _ => True) eqVisitor
    (fun p s => (visitEq_ends p s).mono (fun _ _ h => h) (fun _ _ h _ => h)) hl hr ()
  unfold Ends at hloop
  unfold operatorEq
  cases hrun : (eqVisitor.drain [(l, r)]).run () with
  | ok u t =>
    rw [hrun] at hloop
    exact iff_of_true rfl hloop
  | error e t =>
    rw [hrun] at hloop
    exact iff_of_false (by simp) (hloop trivial)

end ByteDance
