/-
  `applyMergePatch` computes RFC 7396, at a price that can be told beforehand.

  The loop has an item for each object of the patch that is still to be merged.  `Merges` says what the
  document becomes when the items are merged one after the other, as RFC 7396 has it, and what that costs;
  a turn of the loop changes neither, up to what it pays (`visitMerge_step`).  Below the loop the argument
  is about one object: the members are placed first, with an empty object for every one that is to be
  merged, and the pushed objects are merged into their places afterwards, last one first (`merge_placed`).
  The crux is that this order does not matter: the objects have different keys, so their merges commute.
-/
import Pjson.Patch.ApplyContract
import Pjson.Patch.Merge

namespace Assoc

variable {κ α : Type} [DecidableEq κ]

/-! ## Changes at different keys -/

/-- A change at one key and an assignment to another commute. -/
theorem modify_assign_of_ne {k k' : κ} (h : k ≠ k') {f : α → α} {a : α} : ∀ (m : List (κ × α)),
    modify k f (assign k' a m) = assign k' a (modify k f m)
  | [] => by
      show (if k' = k then [(k', f a)] else [(k', a)]) = [(k', a)]
      rw [if_neg (Ne.symm h)]
  | (k₁, a₁) :: t => by
      by_cases h₁ : k₁ = k'
      · subst h₁
        rw [assign, if_pos rfl, modify, if_neg (Ne.symm h), modify, if_neg (Ne.symm h), assign, if_pos rfl]
      · rw [assign, if_neg h₁, modify, modify]
        by_cases h₂ : k₁ = k
        · rw [if_pos h₂, if_pos h₂, assign, if_neg h₁]
        · rw [if_neg h₂, if_neg h₂, assign, if_neg h₁, modify_assign_of_ne h t]

/-- So do a change and a removal. -/
theorem modify_drop_of_ne {k k' : κ} (h : k ≠ k') {f : α → α} : ∀ (m : List (κ × α)),
    modify k f (drop k' m) = drop k' (modify k f m)
  | [] => rfl
  | (k₁, a₁) :: t => by
      by_cases h₁ : k₁ = k'
      · subst h₁
        rw [drop, if_pos rfl, modify, if_neg (Ne.symm h), drop, if_pos rfl]
      · rw [drop, if_neg h₁, modify, modify]
        by_cases h₂ : k₁ = k
        · rw [if_pos h₂, if_pos h₂, drop, if_neg h₁]
        · rw [if_neg h₂, if_neg h₂, drop, if_neg h₁, modify_drop_of_ne h t]

/-- A removal leaves the other keys. -/
theorem find_drop_of_ne {k k' : κ} (h : k ≠ k') : ∀ (m : List (κ × α)), find k (drop k' m) = find k m
  | [] => rfl
  | (k₁, a₁) :: t => by
      by_cases h₁ : k₁ = k'
      · subst h₁
        rw [drop, if_pos rfl, find, if_neg (Ne.symm h)]
      · rw [drop, if_neg h₁, find, find, find_drop_of_ne h t]

/-- Two changes at one key are one. -/
theorem modify_modify {k : κ} {f g : α → α} : ∀ (m : List (κ × α)),
    modify k g (modify k f m) = modify k (g ∘ f) m
  | [] => rfl
  | (k₁, a₁) :: t => by
      by_cases h₁ : k₁ = k
      · subst h₁
        rw [modify, if_pos rfl, modify, if_pos rfl, modify, if_pos rfl]
        rfl
      · rw [modify, if_neg h₁, modify, if_neg h₁, modify, if_neg h₁, modify_modify t]

/-- A change of what has been assigned is an assignment of the change. -/
theorem modify_assign_self {k : κ} {f : α → α} {a : α} : ∀ (m : List (κ × α)),
    modify k f (assign k a m) = assign k (f a) m
  | [] => by rw [assign, modify, if_pos rfl, assign]
  | (k₁, a₁) :: t => by
      by_cases h₁ : k₁ = k
      · rw [assign, if_pos h₁, modify, if_pos h₁, assign, if_pos h₁]
      · rw [assign, if_neg h₁, modify, if_neg h₁, assign, if_neg h₁, modify_assign_self t]

/-- A change of the value at a key is an assignment. -/
theorem modify_eq_assign {k : κ} {f : α → α} {a : α} : ∀ {m : List (κ × α)}, find k m = some a →
    modify k f m = assign k (f a) m
  | (k₁, a₁) :: t, h => by
      by_cases h₁ : k₁ = k
      · rw [find, if_pos h₁] at h
        cases h
        rw [modify, if_pos h₁, assign, if_pos h₁]
      · rw [find, if_neg h₁] at h
        rw [modify, if_neg h₁, assign, if_neg h₁, modify_eq_assign h]

end Assoc

namespace ByteDance

namespace Pjson

/-- Two changes of one child are one. -/
theorem modifyChild_modifyChild (f g : Pjson → Pjson) (step : Step) (v : Pjson) :
    (v.modifyChild f step).modifyChild g step = v.modifyChild (g ∘ f) step := by
  cases step with
  | member key =>
    cases v with
    | jsonObject ms => exact congrArg Pjson.jsonObject (Assoc.modify_modify ms)
    | _ => rfl
  | element index =>
    cases v with
    | jsonArray xs => exact congrArg Pjson.jsonArray (List.modify_modify_eq f g index xs)
    | _ => rfl

/-- And two at one place. -/
theorem modify_modify (f g : Pjson → Pjson) (loc : Location) (v : Pjson) :
    (v.modify f loc).modify g loc = v.modify (g ∘ f) loc := by
  induction loc generalizing v with
  | nil => rfl
  | cons step loc ih =>
    rw [modify_cons, modify_cons, modify_cons, modifyChild_modifyChild]
    exact congrArg (v.modifyChild · step) (funext ih)

/-- A member of an object that has been put somewhere. -/
theorem put_put_member (v w : Pjson) (loc : Location) (ms : List (Bytes × Pjson)) (k : Bytes) :
    (v.put loc (.jsonObject ms)).put (loc ++ [.member k]) w =
      v.put loc (.jsonObject (Assoc.modify k (fun _ => w) ms)) := by
  rw [put, put, modify_append, modify_modify]
  rfl

end Pjson

open Run Rfc7396

namespace Patch

/-! ## One object -/

/-- What a member of a patch does at once. -/
def place (ms : List (Bytes × Pjson)) (it : Bytes × Pjson) : List (Bytes × Pjson) :=
  match it.2 with
  | .jsonNull => Assoc.drop it.1 ms
  | .jsonObject _ =>
    match Assoc.find it.1 ms with
    | some (.jsonObject _) => ms
    | _ => Assoc.assign it.1 (.jsonObject []) ms
  | value => Assoc.assign it.1 value ms

/-- What a member of a patch costs at once. -/
def placeCost (nodeSize : Nat) (ms : List (Bytes × Pjson)) (it : Bytes × Pjson) : Cost :=
  memberPrice it.1 +
    match it.2 with
    | .jsonNull => 0
    | .jsonObject _ =>
        if (Assoc.find it.1 ms).isNone then Cost.of .nodes 1 + Cost.of .bytes nodeSize else 0
    | value => cloneCost nodeSize value

def placesCost (nodeSize : Nat) (ms : List (Bytes × Pjson)) : List (Bytes × Pjson) → Cost
  | [] => 0
  | it :: l => placeCost nodeSize ms it + placesCost nodeSize (place ms it) l

variable {e : Enumeration} {nodeSize : Nat}

/-- A member of the patch is placed, for its price. -/
theorem mergeMember_follows (ms : List (Bytes × Pjson)) (it : Bytes × Pjson) :
    Follows (Patch.mergeMember e nodeSize ms it) (some (place ms it)) (placeCost nodeSize ms it) := by
  obtain ⟨key, value⟩ := it
  have hprice : ∀ {x : AccountM (List (Bytes × Pjson))} {r : Option (List (Bytes × Pjson))} {c : Cost},
      Follows x r c → Follows (do
        chargePatch .operations 1 "JSON Merge Patch operation budget exceeded"
        chargePatch .work 1 "JSON Merge Patch work budget exceeded"
        chargePatch .bytes key.length "JSON Merge Patch cloned-byte budget exceeded"
        x) r (memberPrice key + c) := fun h => by
    rw [memberPrice, add_assoc, add_assoc]
    exact (chargePatch_follows _ _ _).seq ((chargePatch_follows _ _ _).seq ((chargePatch_follows _ _ _).seq h))
  have hclone : Follows (do
      measureClone e nodeSize value
      pure (Assoc.assign key value ms)) (some (Assoc.assign key value ms)) (cloneCost nodeSize value) := by
    rw [← add_zero (cloneCost nodeSize value)]
    exact (measureClone_follows e nodeSize value).seq (.pure _)
  cases value with
  | jsonNull => exact hprice (.pure _)
  | jsonObject patch =>
    refine hprice ?_
    show Follows _ (some (place ms (key, .jsonObject patch))) _
    rw [place]
    dsimp only
    cases Assoc.find key ms with
    | none =>
      show Follows _ _ (Cost.of .nodes 1 + Cost.of .bytes nodeSize)
      rw [← add_zero (Cost.of .bytes nodeSize)]
      exact (chargePatch_follows _ _ _).seq ((chargePatch_follows _ _ _).seq (.pure _))
    | some old => cases old <;> exact .pure _
  | _ => exact hprice hclone

/-- The members, one after the other, and the objects among them that are put off; induction on
    them. -/
theorem mergeMembers_follows (ms l : List (Bytes × Pjson)) :
    Follows (mergeMembers e nodeSize ms l) (some (l.foldl place ms, l.filterMap pending))
      (placesCost nodeSize ms l) := by
  induction l generalizing ms with
  | nil => exact .pure _
  | cons it l ih =>
    rw [mergeMembers, placesCost, List.foldl_cons]
    refine (mergeMember_follows ms it).bind (g := fun object =>
      some (l.foldl place object, (it :: l).filterMap pending)) fun object h => ?_
    cases h
    rw [← add_zero (placesCost nodeSize _ l)]
    refine (ih (place ms it)).bind (g := fun r => some (r.1, (pending it).toList ++ r.2)) ?_ |>.congr ?_
      fun _ => rfl
    · rintro ⟨object, pushed⟩ _
      exact .pure _
    · rw [Option.bind_some, List.filterMap_cons]
      cases pending it <;> rfl

/-! ## The objects that are pushed -/

/-- A pushed object is merged into its place. -/
def mergeKid (e : Enumeration) (ms : List (Bytes × Pjson)) (p : Bytes × List (Bytes × Pjson)) :
    List (Bytes × Pjson) := Assoc.modify p.1 (fun w => mergePatch e w (.jsonObject p.2)) ms

def kidsCost (e : Enumeration) (nodeSize : Nat) : List (Bytes × List (Bytes × Pjson)) →
    List (Bytes × Pjson) → Cost
  | [], _ => 0
  | p :: ks, ms => membersCost nodeSize ((Assoc.find p.1 ms).getD .jsonNull).members p.2 +
      kidsCost e nodeSize ks (mergeKid e ms p)

/-- What is put off is an object under its key. -/
theorem pending_some {it : Bytes × Pjson} {p : Bytes × List (Bytes × Pjson)} (h : pending it = some p) :
    it = (p.1, .jsonObject p.2) := by
  obtain ⟨key, value⟩ := it
  cases value with
  | jsonObject patch =>
    cases h
    rfl
  | _ => cases h

/-- Placing a member leaves the other keys. -/
theorem find_place_of_ne {k : Bytes} {it : Bytes × Pjson} (h : k ≠ it.1) (ms : List (Bytes × Pjson)) :
    Assoc.find k (place ms it) = Assoc.find k ms := by
  obtain ⟨key, value⟩ := it
  have hassign : ∀ a, Assoc.find k (Assoc.assign key a ms) = Assoc.find k ms := fun a => by
    rw [Assoc.find_assign, if_neg h]
  cases value with
  | jsonNull => exact Assoc.find_drop_of_ne h ms
  | jsonObject patch =>
    rw [place]
    dsimp only
    cases Assoc.find key ms with
    | none => exact hassign _
    | some old =>
      cases old with
      | jsonObject => rfl
      | _ => exact hassign _
  | _ => exact hassign _

/-- So does placing all of them. -/
theorem find_foldl_place {k : Bytes} {l : List (Bytes × Pjson)} (h : k ∉ Assoc.keys l)
    (ms : List (Bytes × Pjson)) : Assoc.find k (l.foldl place ms) = Assoc.find k ms := by
  induction l generalizing ms with
  | nil => rfl
  | cons it l ih =>
    rw [Assoc.keys_cons, List.mem_cons, not_or] at h
    rw [List.foldl_cons, ih h.2, find_place_of_ne h.1]

/-- What is in the place of a pushed object: what the target has there, or an object without members. -/
theorem find_place_pending (ms : List (Bytes × Pjson)) (key : Bytes) (patch : List (Bytes × Pjson)) :
    ∃ w, Assoc.find key (place ms (key, .jsonObject patch)) = some (.jsonObject w) ∧
      w = ((Assoc.find key ms).getD .jsonNull).members := by
  have hassign : Assoc.find key (Assoc.assign key (.jsonObject []) ms) = some (.jsonObject []) := by
    rw [Assoc.find_assign, if_pos rfl]
  rw [place]
  dsimp only
  cases hfind : Assoc.find key ms with
  | none => exact ⟨[], hassign, rfl⟩
  | some old =>
    cases old with
    | jsonObject w => exact ⟨w, hfind, rfl⟩
    | _ => exact ⟨[], hassign, rfl⟩

/-- A pushed object has a place. -/
theorem mem_keys_foldl_place {l : List (Bytes × Pjson)} (hl : Assoc.UniqueKeys l)
    {p : Bytes × List (Bytes × Pjson)} (h : p ∈ l.filterMap pending) (ms : List (Bytes × Pjson)) :
    p.1 ∈ Assoc.keys (l.foldl place ms) := by
  induction l generalizing ms with
  | nil => cases h
  | cons it l ih =>
    obtain ⟨hnot, hunique⟩ := Assoc.uniqueKeys_cons.mp hl
    obtain ⟨it', hit', hp⟩ := List.mem_filterMap.mp h
    rw [List.foldl_cons]
    rcases List.mem_cons.mp hit' with rfl | hmem
    · cases pending_some hp
      obtain ⟨w, hw, -⟩ := find_place_pending ms p.1 p.2
      rw [← Assoc.find_isSome_iff, find_foldl_place hnot, hw]
      rfl
    · exact ih hunique (List.mem_filterMap.mpr ⟨it', hmem, hp⟩) _

/-- A change at a key that a patch does not name. -/
theorem modify_foldl_merge {k : Bytes} {f : Pjson → Pjson} {l : List (Bytes × Pjson)} (h : k ∉ Assoc.keys l)
    (ms : List (Bytes × Pjson)) : Assoc.modify k f (l.foldl (Rfc7396.mergeMember e) ms) =
      l.foldl (Rfc7396.mergeMember e) (Assoc.modify k f ms) := by
  induction l generalizing ms with
  | nil => rfl
  | cons it l ih =>
    obtain ⟨key, value⟩ := it
    rw [Assoc.keys_cons, List.mem_cons, not_or] at h
    rw [List.foldl_cons, List.foldl_cons, ih h.2]
    congr 1
    by_cases hnull : value = .jsonNull
    · subst hnull
      exact Assoc.modify_drop_of_ne h.1 ms
    · rw [Rfc7396.mergeMember_of_ne e _ _ hnull, Rfc7396.mergeMember_of_ne e _ _ hnull,
        Assoc.modify_assign_of_ne h.1, Assoc.find_modify, if_neg (Ne.symm h.1)]

/-- A member that is no object is merged at once. -/
theorem mergeMember_of_not_pending {it : Bytes × Pjson} (h : pending it = none) (ms : List (Bytes × Pjson)) :
    Rfc7396.mergeMember e ms it = place ms it := by
  obtain ⟨key, value⟩ := it
  have hnot : ∀ patch, value ≠ .jsonObject patch := by
    rintro patch rfl
    cases h
  have hvalue := mergePatch_of_not_object e ((Assoc.find key ms).getD .jsonNull) hnot
  cases value with
  | jsonNull => rfl
  | jsonObject patch => exact absurd rfl (hnot patch)
  | _ => exact congrArg (Assoc.assign key · ms) hvalue

/-- Of the target only the members matter to an object. -/
theorem mergePatch_members {v w : Pjson} (h : v.members = w.members) (patch : List (Bytes × Pjson)) :
    mergePatch e v (.jsonObject patch) = mergePatch e w (.jsonObject patch) := by
  rw [mergePatch_object, mergePatch_object, h]

/-- A member that is an object has its place first. -/
theorem mergeMember_of_pending {it : Bytes × Pjson} {p : Bytes × List (Bytes × Pjson)} (h : pending it = some p)
    (ms : List (Bytes × Pjson)) : Rfc7396.mergeMember e ms it = mergeKid e (place ms it) p := by
  obtain ⟨key, patch⟩ := p
  obtain rfl : it = (key, .jsonObject patch) := pending_some h
  have hassign : ∀ old : Pjson, old.members = [] →
      Assoc.assign key (mergePatch e old (.jsonObject patch)) ms =
        mergeKid e (Assoc.assign key (.jsonObject []) ms) (key, patch) := fun old hold => by
    rw [mergeKid, Assoc.modify_assign_self, mergePatch_members (v := old) (w := .jsonObject []) hold]
  rw [Rfc7396.mergeMember_of_ne e ms key (show Pjson.jsonObject patch ≠ .jsonNull from nofun), place]
  dsimp only
  cases hfind : Assoc.find key ms with
  | none => exact hassign .jsonNull rfl
  | some old =>
    cases old with
    | jsonObject w =>
      rw [mergeKid, Assoc.modify_eq_assign hfind]
      rfl
    | _ => exact hassign _ rfl

/-- **The members first and the pushed objects afterwards** is a merge. -/
theorem merge_placed {l : List (Bytes × Pjson)} (hl : Assoc.UniqueKeys l) (ms : List (Bytes × Pjson)) :
    (l.filterMap pending).reverse.foldl (mergeKid e) (l.foldl place ms) =
      l.foldl (Rfc7396.mergeMember e) ms := by
  induction l generalizing ms with
  | nil => rfl
  | cons it l ih =>
    obtain ⟨hnot, hunique⟩ := Assoc.uniqueKeys_cons.mp hl
    rw [List.foldl_cons, List.foldl_cons, List.filterMap_cons]
    cases hpending : pending it with
    | none =>
      rw [mergeMember_of_not_pending hpending]
      exact ih hunique _
    | some p =>
      have hkey : p.1 = it.1 := (congrArg Prod.fst (pending_some hpending)).symm
      rw [mergeMember_of_pending hpending, mergeKid, ← modify_foldl_merge (hkey ▸ hnot), ← ih hunique]
      dsimp only
      rw [List.reverse_cons, List.foldl_append, List.foldl_cons, List.foldl_nil, mergeKid]

/-! ## What they cost -/

/-- Merging an object that was put off leaves the other keys. -/
theorem find_mergeKid_of_ne {k : Bytes} {p : Bytes × List (Bytes × Pjson)} (h : k ≠ p.1)
    (ms : List (Bytes × Pjson)) : Assoc.find k (mergeKid e ms p) = Assoc.find k ms := by
  rw [mergeKid, Assoc.find_modify, if_neg h]

/-- Objects at different keys can be paid for in any order. -/
theorem kidsCost_eq_sum {ks : List (Bytes × List (Bytes × Pjson))} (h : (ks.map Prod.fst).Nodup)
    (ms : List (Bytes × Pjson)) : kidsCost e nodeSize ks ms =
      (ks.map fun p => membersCost nodeSize ((Assoc.find p.1 ms).getD .jsonNull).members p.2).sum := by
  induction ks generalizing ms with
  | nil => rfl
  | cons p ks ih =>
    obtain ⟨hnot, hnodup⟩ := List.nodup_cons.mp h
    rw [kidsCost, ih hnodup, List.map_cons, List.sum_cons]
    congr 2
    refine List.map_congr_left fun q hq => ?_
    rw [find_mergeKid_of_ne]
    exact fun heq => hnot (heq ▸ List.mem_map_of_mem hq)

/-- The objects that are put off have keys of the patch, in its order. -/
theorem keys_pending_sublist (l : List (Bytes × Pjson)) :
    ((l.filterMap pending).map Prod.fst).Sublist (Assoc.keys l) := by
  induction l with
  | nil => exact List.Sublist.slnil
  | cons it l ih =>
    rw [List.filterMap_cons, Assoc.keys_cons]
    cases hpending : pending it with
    | none => exact ih.cons _
    | some p =>
      rw [pending_some hpending]
      exact ih.cons_cons _

/-- The price depends on what stands under the keys of the patch. -/
theorem membersCost_congr {ms ms' l : List (Bytes × Pjson)}
    (h : ∀ k ∈ Assoc.keys l, Assoc.find k ms = Assoc.find k ms') :
    membersCost nodeSize ms l = membersCost nodeSize ms' l := by
  rw [membersCost_eq_sum, membersCost_eq_sum]
  refine congrArg List.sum (List.map_congr_left fun m hm => ?_)
  rw [h m.1 (List.mem_map_of_mem hm)]

/-- What a member costs at once, and later. -/
theorem placeCost_add (nodeSize : Nat) (ms : List (Bytes × Pjson)) (it : Bytes × Pjson) :
    placeCost nodeSize ms it + (pending it).elim 0 (fun p =>
      membersCost nodeSize ((Assoc.find p.1 (place ms it)).getD .jsonNull).members p.2) =
      memberPrice it.1 + valueCost nodeSize (Assoc.find it.1 ms) it.2 := by
  obtain ⟨key, value⟩ := it
  cases value with
  | jsonObject patch =>
    obtain ⟨w, hw, hmembers⟩ := find_place_pending ms key patch
    show _ + membersCost nodeSize ((Assoc.find key (place ms (key, .jsonObject patch))).getD .jsonNull).members
      patch = _
    rw [hw, placeCost, valueCost, add_assoc, hmembers]
    rfl
  | _ => exact add_zero _

/-- The price of a patch is that of its places and of the objects put off, in whatever order these
    come. -/
theorem placesCost_add (e : Enumeration) (nodeSize : Nat) {l : List (Bytes × Pjson)} (hl : Assoc.UniqueKeys l) (ms : List (Bytes × Pjson)) :
    placesCost nodeSize ms l + kidsCost e nodeSize (l.filterMap pending).reverse (l.foldl place ms) =
      membersCost nodeSize ms l := by
  have hnodup : ∀ {l : List (Bytes × Pjson)}, Assoc.UniqueKeys l →
      ((l.filterMap pending).reverse.map Prod.fst).Nodup := fun {l} h => by
    rw [List.map_reverse, List.nodup_reverse]
    exact (keys_pending_sublist l).nodup h
  rw [kidsCost_eq_sum (hnodup hl), List.map_reverse, List.sum_reverse]
  induction l generalizing ms with
  | nil => rfl
  | cons it l ih =>
    obtain ⟨hnot, hunique⟩ := Assoc.uniqueKeys_cons.mp hl
    obtain ⟨key, value⟩ := it
    have hrest : membersCost nodeSize (place ms (key, value)) l = membersCost nodeSize ms l :=
      membersCost_congr fun k hk => find_place_of_ne (fun h => hnot (h ▸ hk)) ms
    have hhead := placeCost_add nodeSize ms (key, value)
    rw [placesCost, membersCost, ← hrest, ← ih hunique, ← hhead, List.foldl_cons, List.filterMap_cons]
    cases hpending : pending (key, value) with
    | none =>
      rw [Option.elim_none, add_zero]
      exact add_assoc _ _ _
    | some p =>
      have hkey : p.1 = key := (congrArg Prod.fst (pending_some hpending)).symm
      rw [Option.elim_some, List.map_cons, List.sum_cons, find_foldl_place (hkey ▸ hnot)]
      rw [add_assoc, add_assoc, add_left_comm (placesCost nodeSize _ _)]

/-! ## The loop -/

/-- The items merged one after the other, and what that costs. -/
inductive Merges (e : Enumeration) (nodeSize : Nat) : List MergeItem → Pjson → Pjson → Cost → Prop
  | done (v : Pjson) : Merges e nodeSize [] v v 0
  | turn {item rest v w v' c} : (Pjson.jsonObject item.patch).WF → v.get item.target = some w →
      Merges e nodeSize rest (v.put item.target (mergePatch e w (.jsonObject item.patch))) v' c →
      Merges e nodeSize (item :: rest) v v' (membersCost nodeSize w.members item.patch + c)

/-- With nothing put off there is nothing to do. -/
theorem Merges.eq_of_nil {v v' : Pjson} {c : Cost} (h : Merges e nodeSize [] v v' c) : v' = v ∧ c = 0 := by
  cases h
  exact ⟨rfl, rfl⟩

/-- The pushed objects, merged into an object that has places for them. -/
theorem Merges.kids {loc : Location} {rest : List MergeItem} {u old v' : Pjson} {c : Cost}
    (hloc : u.get loc = some old) {ks : List (Bytes × List (Bytes × Pjson))}
    (hwf : ∀ p ∈ ks, (Pjson.jsonObject p.2).WF) {ms : List (Bytes × Pjson)}
    (hplaces : ∀ p ∈ ks, p.1 ∈ Assoc.keys ms)
    (h : Merges e nodeSize rest (u.put loc (.jsonObject (ks.foldl (mergeKid e) ms))) v' c) :
    Merges e nodeSize (ks.map (fun p => ⟨loc ++ [.member p.1], p.2⟩) ++ rest) (u.put loc (.jsonObject ms)) v'
      (kidsCost e nodeSize ks ms + c) := by
  induction ks generalizing ms with
  | nil =>
    rw [kidsCost, zero_add]
    exact h
  | cons p ks ih =>
    obtain ⟨w, hw⟩ := Option.isSome_iff_exists.mp
      (Assoc.find_isSome_iff.mpr (hplaces p List.mem_cons_self))
    rw [kidsCost, hw, add_assoc]
    refine .turn (hwf p List.mem_cons_self) ?_ ?_
    · rw [Pjson.get_append, Pjson.get_put_self _ hloc, Option.bind_some, Pjson.get_cons]
      show (Assoc.find p.1 ms).bind _ = _
      rw [hw]
      rfl
    · have hkid : Assoc.modify p.1 (fun _ => mergePatch e w (.jsonObject p.2)) ms = mergeKid e ms p := by
        refine Assoc.modify_congr ?_ hw
        rfl
      show Merges e nodeSize (ks.map _ ++ rest)
        ((u.put loc (.jsonObject ms)).put (loc ++ [.member p.1]) (mergePatch e w (.jsonObject p.2))) v' _
      rw [Pjson.put_put_member, hkid]
      refine ih (fun q hq => hwf q (List.mem_cons_of_mem _ hq)) (fun q hq => ?_) h
      rw [mergeKid, Assoc.keys_modify]
      exact hplaces q (List.mem_cons_of_mem _ hq)

/-- **A turn of the loop** changes neither what the items come to nor, together with what it pays, what
    they cost. -/
theorem visitMerge_step {item : MergeItem} {rest : List MergeItem} {s : Merging} {final : Pjson} {d : Cost}
    (hs : s.account.budget.Sound) (h : Merges e nodeSize (item :: rest) s.scratch final d) :
    Ends (visitMerge e nodeSize item) s
      (fun pushed t => ∃ c d', Spent s.account c t.account ∧
        Merges e nodeSize (pushed.reverse ++ rest) t.scratch final d' ∧ d = c + d')
      (fun _ t => Onward s.account t.account ∧ t.account.error.code = .ResourceLimit ∧
        ¬ s.account.budget.Fits d) := by
  cases h with
  | @turn _ _ _ w _ c hwf hget hrest =>
    obtain ⟨hunique, hall⟩ := Pjson.wf_object.mp hwf
    have horder := uniqueKeys_order e hunique
    have hcost := placesCost_add e nodeSize horder w.members
    rw [membersCost_order] at hcost
    unfold visitMerge
    rw [ends_bind, ends_get, ends_bind, ends_onAccount, hget]
    refine (mergeMembers_follows w.members (e.order item.patch) s.account hs).mono ?_ ?_
    · rintro r t ⟨hr, hspent⟩
      cases hr
      refine ⟨_, kidsCost e nodeSize ((e.order item.patch).filterMap pending).reverse
        ((e.order item.patch).foldl place w.members) + c, hspent, ?_, ?_⟩
      · rw [← List.map_reverse]
        refine Merges.kids hget (fun p hp => ?_) (fun p hp => ?_) ?_
        · obtain ⟨it, hit, hp⟩ := List.mem_filterMap.mp (List.mem_reverse.mp hp)
          have := hall it (e.mem_order.mp hit)
          rw [pending_some hp] at this
          exact this
        · exact mem_keys_foldl_place horder (List.mem_reverse.mp hp) _
        · rw [merge_placed horder, ← mergePatch_object]
          exact hrest
      · rw [← add_assoc, hcost]
    · rintro _ t ⟨honward, hlimit⟩
      obtain ⟨hcode, hfit⟩ := hlimit rfl
      refine ⟨honward, hcode, fun hfits => hfit (hfits.mono ?_)⟩
      rw [← hcost, add_assoc]
      exact le_self_add

/-- A step on the account leaves the scratch value. -/
theorem ends_onAccount_follows {x : AccountM Unit} {s : Merging} {c : Cost} (hs : s.account.budget.Sound)
    (h : Follows x (some ()) c) : Ends (onAccount x) s
      (fun _ t => Spent s.account c t.account ∧ t.scratch = s.scratch)
      (fun _ t => Onward s.account t.account ∧ t.account.error.code = .ResourceLimit ∧
        ¬ s.account.budget.Fits c) := by
  rw [ends_onAccount]
  refine (h s.account hs).mono ?_ ?_
  · rintro _ t ⟨-, hspent⟩
    exact ⟨hspent, rfl⟩
  · rintro _ t ⟨honward, hlimit⟩
    exact ⟨honward, hlimit rfl⟩

/-- **The run on the scratch document**: the merge of RFC 7396, if the account can pay for it. -/
theorem applyMergePatchTo_ends (e : Enumeration) (nodeSize : Nat) {aPatch : Pjson} (hpatch : aPatch.WF)
    {s : Merging} (hs : s.account.budget.Sound) : Ends (applyMergePatchTo e nodeSize aPatch) s
      (fun _ t => Spent s.account (mergeCost nodeSize s.scratch aPatch) t.account ∧
        t.scratch = mergePatch e s.scratch aPatch)
      (fun _ t => Onward s.account t.account ∧ t.account.error.code = .ResourceLimit ∧
        ¬ s.account.budget.Fits (mergeCost nodeSize s.scratch aPatch)) := by
  -- A patch that is no object replaces the target: one operation and one copy.
  have hwhole : (∀ ms, aPatch ≠ .jsonObject ms) → Ends (do
      onAccount (do
        chargePatch .operations 1 "JSON Merge Patch operation budget exceeded"
        measureClone e nodeSize aPatch)
      modify fun s => { s with scratch := aPatch }) s
      (fun _ t => Spent s.account (Cost.of .operations 1 + cloneCost nodeSize aPatch) t.account ∧
        t.scratch = mergePatch e s.scratch aPatch)
      (fun _ t => Onward s.account t.account ∧ t.account.error.code = .ResourceLimit ∧
        ¬ s.account.budget.Fits (Cost.of .operations 1 + cloneCost nodeSize aPatch)) := fun hnot => by
    rw [ends_bind]
    refine (ends_onAccount_follows hs ((chargePatch_follows _ _ _).seq (measureClone_follows _ _ _))).mono ?_
      fun _ _ h => h
    rintro _ t ⟨hspent, -⟩
    rw [ends_modify, mergePatch_of_not_object e _ hnot]
    exact ⟨hspent, rfl⟩
  cases aPatch with
  | jsonObject patch =>
    have hroot : Merges e nodeSize [⟨[], patch⟩] s.scratch (mergePatch e s.scratch (.jsonObject patch))
        (membersCost nodeSize s.scratch.members patch + 0) := by
      refine .turn hpatch rfl ?_
      exact .done _
    rw [applyMergePatchTo, mergeCost]
    -- The invariant: what is spent and what the work list will cost make up the whole price.
    have hloop := (mergeVisitor e nodeSize).drain_ends
      (J := fun work t => ∃ c d, Spent s.account c t.account ∧
        Merges e nodeSize work t.scratch (mergePatch e s.scratch (.jsonObject patch)) d ∧
          c + d = membersCost nodeSize s.scratch.members patch)
      (R := fun _ t => Onward s.account t.account ∧ t.account.error.code = .ResourceLimit ∧
        ¬ s.account.budget.Fits (membersCost nodeSize s.scratch.members patch)) ?_
      (s := s) ⟨0, _, .zero hs, hroot, ?_⟩
    · refine hloop.mono ?_ fun _ _ h => h
      rintro _ t ⟨c, d, hspent, hmerges, hc⟩
      obtain ⟨hv, rfl⟩ := hmerges.eq_of_nil
      rw [add_zero] at hc
      exact ⟨hc ▸ hspent, hv.symm⟩
    · rintro item rest t ⟨c, d, hspent, hmerges, hc⟩
      refine (visitMerge_step hspent.sound hmerges).mono ?_ ?_
      · rintro pushed u ⟨c', d', hspent', hmerges', rfl⟩
        exact ⟨c + c', d', hspent.trans hspent', hmerges', by rw [add_assoc, hc]⟩
      · rintro _ u ⟨honward, hcode, hfit⟩
        exact ⟨hspent.toOnward.trans honward, hcode, fun h => hfit (hspent.fits_iff.mpr (hc ▸ h))⟩
    · rw [zero_add, add_zero]
  | _ => exact hwhole (by rintro _ ⟨⟩)

/-- What the merge and the copy of the target cost. -/
def mergePatchCost (nodeSize : Nat) (target aPatch : Pjson) : Cost :=
  cloneCost nodeSize target + mergeCost nodeSize target aPatch

/-- And a loop on the scratch value has the account with it. -/
theorem ends_onScratch {x : MergeM Unit} {v : Pjson} {s : Account} {Q : Pjson → Account → Prop}
    {R : Unit → Account → Prop} (h : Ends x ⟨s, v⟩ (fun _ t => Q t.scratch t.account) fun u t => R u t.account) :
    Ends (onScratch x v) s Q R := by
  unfold Ends EStateM.run at h ⊢
  unfold onScratch
  cases hrun : x ⟨s, v⟩ with
  | ok a t =>
    rw [hrun] at h
    exact h
  | error u t =>
    rw [hrun] at h
    exact h

end Patch

open Patch

/-- What `applyMergePatch` promises. -/
structure MergeContract (e : Enumeration) (nodeSize : Nat) (target aPatch : Pjson) (aOpts : PatchOptions)
    (r : PatchResult) : Prop where
  /-- A merge patch is applied exactly if its price is within the limits. -/
  applied_iff : r.applied = true ↔
    ∀ resource, mergePatchCost nodeSize target aPatch resource ≤ (aOpts.effective resource).toNat
  /-- Then the target is what RFC 7396 has. -/
  merged : r.applied = true → r.target = mergePatch e target aPatch ∧ r.error = {}
  /-- Otherwise it is what it was, and a limit was in the way. -/
  unchanged : r.applied = false → r.target = target ∧ r.error.code = .ResourceLimit

/-- How a merge ends: applied at its price, or not applied for want of it. -/
theorem applyMergePatch_outcome (e : Enumeration) (nodeSize : Nat) (target : Pjson) {aPatch : Pjson}
    (hpatch : aPatch.WF) (aOpts : PatchOptions) :
    ((∀ resource, mergePatchCost nodeSize target aPatch resource ≤ (aOpts.effective resource).toNat) ∧
        target.applyMergePatch e nodeSize aPatch aOpts = ⟨true, mergePatch e target aPatch, {}⟩) ∨
      (¬ ∀ resource, mergePatchCost nodeSize target aPatch resource ≤ (aOpts.effective resource).toNat) ∧
        ∃ error, error.code = .ResourceLimit ∧
          target.applyMergePatch e nodeSize aPatch aOpts = ⟨false, target, error⟩ := by
  have hopened : (opened aOpts).budget.Sound := PatchBudget.sound_ofOptions aOpts
  have hends : Ends (do
      measureClone e nodeSize target
      onScratch (applyMergePatchTo e nodeSize aPatch) target) (opened aOpts)
      (fun v _ => v = mergePatch e target aPatch ∧
        (opened aOpts).budget.Fits (mergePatchCost nodeSize target aPatch))
      (fun _ t => t.error.code = .ResourceLimit ∧
        ¬ (opened aOpts).budget.Fits (mergePatchCost nodeSize target aPatch)) := by
    rw [ends_bind]
    refine (measureClone_follows e nodeSize target (opened aOpts) hopened).mono ?_ ?_
    · rintro _ s ⟨-, hspent⟩
      refine ends_onScratch ((applyMergePatchTo_ends e nodeSize hpatch hspent.sound).mono ?_ ?_)
      · rintro _ t ⟨hspent', hv⟩
        have hall := hspent.trans hspent'
        refine ⟨hv, fun resource => ?_⟩
        have hwithin := hall.sound.within resource
        rw [hall.used, hall.limit] at hwithin
        exact hwithin
      · rintro _ t ⟨-, hcode, hfit⟩
        exact ⟨hcode, fun h => hfit (hspent.fits_iff.mpr h)⟩
    · rintro _ t ⟨-, hlimit⟩
      obtain ⟨hcode, hfit⟩ := hlimit rfl
      exact ⟨hcode, fun h => hfit (h.mono le_self_add)⟩
  rcases publishPatch_of_ends target hends with ⟨v, t, ⟨rfl, hfits⟩, hrun⟩ | ⟨t, ⟨hcode, hfit⟩, hrun⟩
  · exact Or.inl ⟨opened_fits.mp hfits, hrun⟩
  · exact Or.inr ⟨fun h => hfit (opened_fits.mpr h), t.error, hcode, hrun⟩

/-- **`applyMergePatch` is RFC 7396, at its price and atomically.** -/
theorem applyMergePatch_exact (e : Enumeration) (nodeSize : Nat) (target : Pjson) {aPatch : Pjson}
    (hpatch : aPatch.WF) (aOpts : PatchOptions) :
    MergeContract e nodeSize target aPatch aOpts (target.applyMergePatch e nodeSize aPatch aOpts) := by
  rcases applyMergePatch_outcome e nodeSize target hpatch aOpts with ⟨hfits, hrun⟩ |
    ⟨hfits, error, hcode, hrun⟩
  · rw [hrun]
    exact ⟨iff_of_true rfl hfits, fun _ => ⟨rfl, rfl⟩, nofun⟩
  · rw [hrun]
    exact ⟨iff_of_false Bool.false_ne_true hfits, nofun, fun _ => ⟨rfl, hcode⟩⟩

/-- A patch that empties the member `a` of its member `b`. -/
def removeNested : Pjson := .jsonObject [(ascii "a", .jsonObject [(ascii "b", .jsonNull)])]

theorem wf_removeNested : removeNested.WF := by
  refine Pjson.wf_object.mpr ⟨by decide, fun m hm => ?_⟩
  obtain rfl := List.mem_singleton.mp hm
  exact ⟨by decide, trivial, trivial⟩

theorem applyMergePatch_exact_removeNested : MergeContract .asListed 16 removeNested removeNested {}
    (removeNested.applyMergePatch .asListed 16 removeNested {}) :=
  applyMergePatch_exact .asListed 16 removeNested wf_removeNested {}

/-- **The order of members does not matter**: two enumerations agree on whether a merge patch is applied,
    and on the target it leaves but for the order of its members. -/
theorem applyMergePatch_order (e e' : Enumeration) (nodeSize : Nat) {target aPatch : Pjson} (htarget : target.WF)
    (hpatch : aPatch.WF) (aOpts : PatchOptions) :
    (target.applyMergePatch e nodeSize aPatch aOpts).applied =
        (target.applyMergePatch e' nodeSize aPatch aOpts).applied ∧
      Alike (target.applyMergePatch e nodeSize aPatch aOpts).target
        (target.applyMergePatch e' nodeSize aPatch aOpts).target := by
  rcases applyMergePatch_outcome e nodeSize target hpatch aOpts with ⟨hfits, hrun⟩ | ⟨hfits, _, -, hrun⟩
  · rcases applyMergePatch_outcome e' nodeSize target hpatch aOpts with ⟨-, hrun'⟩ | ⟨hfits', -⟩
    · rw [hrun, hrun']
      exact ⟨rfl, mergePatch_alike e e' htarget hpatch⟩
    · exact absurd hfits hfits'
  · rcases applyMergePatch_outcome e' nodeSize target hpatch aOpts with ⟨hfits', -⟩ | ⟨-, _, -, hrun'⟩
    · exact absurd hfits' hfits
    · rw [hrun, hrun']
      exact ⟨rfl, .refl target⟩

theorem applyMergePatch_order_removeNested :
    (removeNested.applyMergePatch .asListed 16 removeNested {}).applied =
        (removeNested.applyMergePatch ⟨List.reverse, List.reverse_perm⟩ 16 removeNested {}).applied ∧
      Alike (removeNested.applyMergePatch .asListed 16 removeNested {}).target
        (removeNested.applyMergePatch ⟨List.reverse, List.reverse_perm⟩ 16 removeNested {}).target :=
  applyMergePatch_order .asListed _ 16 wf_removeNested wf_removeNested {}

end ByteDance
