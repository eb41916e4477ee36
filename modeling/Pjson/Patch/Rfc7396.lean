/-
  JSON Merge Patch, as RFC 7396 has it.

  `mergePatch` is the function of section 2, for a loop that sees the members of the patch in the order of
  an enumeration.  What it returns can be told by lookups (`find_foldl_of_mem`), which name no order, so two
  enumerations give values that are `Alike`: the same but for the order of members.
-/
import Pjson.Dom.Enumeration
import Pjson.Patch.Price

namespace ByteDance

/-- The same value, but for the order of members. -/
inductive Alike : Pjson → Pjson → Prop
  | refl (v : Pjson) : Alike v v
  | array {xs ys : List Pjson} : xs.length = ys.length → (∀ p ∈ xs.zip ys, Alike p.1 p.2) →
      Alike (.jsonArray xs) (.jsonArray ys)
  | object {ms ns : List (Bytes × Pjson)} : (∀ k, Assoc.find k ms = none ↔ Assoc.find k ns = none) →
      (∀ k x y, Assoc.find k ms = some x → Assoc.find k ns = some y → Alike x y) →
      Alike (.jsonObject ms) (.jsonObject ns)

namespace Pjson

/-- The members of a value; one that is no object has none. -/
def members : Pjson → List (Bytes × Pjson)
  | .jsonObject ms => ms
  | _ => []

theorem nodes_lt_of_mem {m : Bytes × Pjson} {ms : List (Bytes × Pjson)} (h : m ∈ ms) :
    m.2.nodes < (jsonObject ms).nodes := by
  have hle := List.single_le_sum (by simp) _ (List.mem_map.mpr ⟨m, h, rfl⟩ :
    m.2.nodes ∈ ms.map fun m => m.2.nodes)
  rw [← nodesMembers_eq_sum] at hle
  exact Nat.lt_one_add_iff.mpr hle

end Pjson

namespace Rfc7396

variable (e : Enumeration)

/-- `MergePatch(Target, Patch)`. -/
def mergePatch (target : Pjson) : Pjson → Pjson
  | .jsonObject patch =>
      .jsonObject ((e.order patch).attach.foldl (fun ms m =>
        match m.1.2 with
        | .jsonNull => Assoc.drop m.1.1 ms
        | _ => Assoc.assign m.1.1 (mergePatch ((Assoc.find m.1.1 ms).getD .jsonNull) m.1.2) ms)
        target.members)
  | patch => patch
termination_by patch => patch.nodes
decreasing_by exact Pjson.nodes_lt_of_mem (e.mem_order.mp m.2)

/-- What one member of a patch does to the members of the target. -/
def mergeMember (ms : List (Bytes × Pjson)) (m : Bytes × Pjson) : List (Bytes × Pjson) :=
  match m.2 with
  | .jsonNull => Assoc.drop m.1 ms
  | _ => Assoc.assign m.1 (mergePatch e ((Assoc.find m.1 ms).getD .jsonNull) m.2) ms

theorem mergePatch_object (target : Pjson) (patch : List (Bytes × Pjson)) :
    mergePatch e target (.jsonObject patch) =
      .jsonObject ((e.order patch).foldl (mergeMember e) target.members) := by
  rw [mergePatch]
  refine congrArg Pjson.jsonObject ?_
  exact List.foldl_attach (f := mergeMember e) (l := e.order patch) (b := target.members)

theorem mergePatch_of_not_object (target : Pjson) {patch : Pjson} (h : ∀ ms, patch ≠ .jsonObject ms) :
    mergePatch e target patch = patch := by
  cases patch with
  | jsonObject ms => exact absurd rfl (h ms)
  | _ => rw [mergePatch]; exact nofun

theorem mergeMember_null (ms : List (Bytes × Pjson)) (k : Bytes) :
    mergeMember e ms (k, .jsonNull) = Assoc.drop k ms := rfl

theorem mergeMember_of_ne (ms : List (Bytes × Pjson)) (k : Bytes) {value : Pjson} (h : value ≠ .jsonNull) :
    mergeMember e ms (k, value) =
      Assoc.assign k (mergePatch e ((Assoc.find k ms).getD .jsonNull) value) ms := by
  cases value with
  | jsonNull => exact absurd rfl h
  | _ => rfl

/-! ## Lookups -/

theorem find_mergeMember_of_ne {ms : List (Bytes × Pjson)} (hms : Assoc.UniqueKeys ms) {m : Bytes × Pjson}
    {k : Bytes} (h : k ≠ m.1) : Assoc.find k (mergeMember e ms m) = Assoc.find k ms := by
  obtain ⟨k', value⟩ := m
  by_cases hnull : value = .jsonNull
  · subst hnull
    rw [mergeMember_null, Assoc.find_drop hms, if_neg h]
  · rw [mergeMember_of_ne e ms k' hnull, Assoc.find_assign, if_neg h]

theorem uniqueKeys_mergeMember {ms : List (Bytes × Pjson)} (hms : Assoc.UniqueKeys ms) (m : Bytes × Pjson) :
    Assoc.UniqueKeys (mergeMember e ms m) := by
  obtain ⟨k, value⟩ := m
  by_cases hnull : value = .jsonNull
  · subst hnull
    exact hms.drop
  · rw [mergeMember_of_ne e ms k hnull]
    exact hms.assign

/-- A member that the patch does not name is left alone. -/
theorem find_foldl_of_notMem {patch ms : List (Bytes × Pjson)} (hms : Assoc.UniqueKeys ms) {k : Bytes}
    (h : k ∉ Assoc.keys patch) : Assoc.find k (patch.foldl (mergeMember e) ms) = Assoc.find k ms := by
  induction patch generalizing ms with
  | nil => rfl
  | cons m patch ih =>
    rw [Assoc.keys_cons, List.mem_cons, not_or] at h
    rw [List.foldl_cons, ih (uniqueKeys_mergeMember e hms m) h.2, find_mergeMember_of_ne e hms h.1]

/-- **A merge, by lookups**: null removes, anything else is merged into what is there. -/
theorem find_foldl_of_mem {patch ms : List (Bytes × Pjson)} (hpatch : Assoc.UniqueKeys patch)
    (hms : Assoc.UniqueKeys ms) {k : Bytes} {value : Pjson} (h : (k, value) ∈ patch) :
    (value = .jsonNull → Assoc.find k (patch.foldl (mergeMember e) ms) = none) ∧
      (value ≠ .jsonNull → Assoc.find k (patch.foldl (mergeMember e) ms) =
        some (mergePatch e ((Assoc.find k ms).getD .jsonNull) value)) := by
  induction patch generalizing ms with
  | nil => cases h
  | cons m patch ih =>
    obtain ⟨hnot, hrest⟩ := Assoc.uniqueKeys_cons.mp hpatch
    rw [List.foldl_cons]
    rcases List.mem_cons.mp h with rfl | h
    · rw [find_foldl_of_notMem e (uniqueKeys_mergeMember e hms _) hnot]
      constructor
      · rintro rfl
        rw [mergeMember_null, Assoc.find_drop hms, if_pos rfl]
      · intro hvalue
        rw [mergeMember_of_ne e ms k hvalue, Assoc.find_assign, if_pos rfl]
    · have hne : k ≠ m.1 := by
        rintro rfl
        exact hnot (List.mem_map.mpr ⟨_, h, rfl⟩)
      rw [← find_mergeMember_of_ne e hms hne]
      exact ih hrest (uniqueKeys_mergeMember e hms m) h

theorem wf_members {v : Pjson} (h : v.WF) : Assoc.UniqueKeys v.members ∧ ∀ m ∈ v.members, m.2.WF := by
  cases v with
  | jsonObject ms => exact Pjson.wf_object.mp h
  | _ => exact ⟨Assoc.uniqueKeys_nil, fun _ hm => by cases hm⟩

theorem uniqueKeys_order {ms : List (Bytes × Pjson)} (h : Assoc.UniqueKeys ms) :
    Assoc.UniqueKeys (e.order ms) := ((e.perm ms).map Prod.fst).nodup_iff.mpr h

/-- What is at a key after a merge, in the order of an enumeration. -/
theorem find_merge_of_notMem {patch ms : List (Bytes × Pjson)} (hms : Assoc.UniqueKeys ms) {k : Bytes}
    (h : k ∉ Assoc.keys patch) :
    Assoc.find k ((e.order patch).foldl (mergeMember e) ms) = Assoc.find k ms :=
  find_foldl_of_notMem e hms fun hk => h (((e.perm patch).map Prod.fst).mem_iff.mp hk)

theorem alike_of_not_object (e e' : Enumeration) (target : Pjson) {patch : Pjson}
    (h : ∀ ms, patch ≠ .jsonObject ms) : Alike (mergePatch e target patch) (mergePatch e' target patch) := by
  rw [mergePatch_of_not_object e target h, mergePatch_of_not_object e' target h]
  exact .refl patch

/-- **Two orders give the same value**, but for the order of its members. -/
theorem mergePatch_alike (e e' : Enumeration) {target patch : Pjson} (htarget : target.WF) (hpatch : patch.WF) :
    Alike (mergePatch e target patch) (mergePatch e' target patch) := by
  induction patch using Pjson.induct generalizing target with
  | jsonObject patch ih =>
    obtain ⟨hunique, hall⟩ := Pjson.wf_object.mp hpatch
    obtain ⟨hms, htargets⟩ := wf_members htarget
    rw [mergePatch_object, mergePatch_object]
    have hmem : ∀ {e : Enumeration} {k : Bytes} {value : Pjson}, (k, value) ∈ patch →
        (value = .jsonNull → Assoc.find k ((e.order patch).foldl (mergeMember e) target.members) = none) ∧
          (value ≠ .jsonNull → Assoc.find k ((e.order patch).foldl (mergeMember e) target.members) =
            some (mergePatch e ((Assoc.find k target.members).getD .jsonNull) value)) := fun {e} _ _ hm =>
      find_foldl_of_mem e (uniqueKeys_order e hunique) hms (e.mem_order.mpr hm)
    refine .object (fun k => ?_) fun k x y hx hy => ?_
    · by_cases hk : k ∈ Assoc.keys patch
      · obtain ⟨m, hm, rfl⟩ := List.mem_map.mp hk
        by_cases hnull : m.2 = .jsonNull
        · exact iff_of_true ((hmem hm).1 hnull) ((hmem hm).1 hnull)
        · rw [(hmem hm).2 hnull, (hmem hm).2 hnull]
          simp
      · rw [find_merge_of_notMem e hms hk, find_merge_of_notMem e' hms hk]
    · by_cases hk : k ∈ Assoc.keys patch
      · obtain ⟨m, hm, rfl⟩ := List.mem_map.mp hk
        by_cases hnull : m.2 = .jsonNull
        · rw [(hmem hm).1 hnull] at hx
          cases hx
        · rw [(hmem hm).2 hnull] at hx hy
          cases hx
          cases hy
          refine ih m hm ?_ (hall m hm)
          cases hfind : Assoc.find m.1 target.members with
          | none => trivial
          | some old => exact htargets _ (Assoc.mem_of_find hfind)
      · rw [find_merge_of_notMem e hms hk] at hx
        rw [find_merge_of_notMem e' hms hk] at hy
        rw [hx] at hy
        cases hy
        exact .refl x
  | _ => exact alike_of_not_object e e' target nofun

/-! ## Prices -/

variable (nodeSize : Nat)

/-- What every member of a patch costs. -/
def memberPrice (key : Bytes) : Cost := Cost.of .operations 1 + (Cost.of .work 1 + Cost.of .bytes key.length)

mutual
/-- What a value of a patch costs where the target has `old`. -/
def valueCost (old : Option Pjson) : Pjson → Cost
  | .jsonNull => 0
  | .jsonObject patch =>
      (if old.isNone then Cost.of .nodes 1 + Cost.of .bytes nodeSize else 0) +
        membersCost (old.getD .jsonNull).members patch
  | value => Patch.cloneCost nodeSize value
/-- What the members of a patch cost on those of a target. -/
def membersCost (ms : List (Bytes × Pjson)) : List (Bytes × Pjson) → Cost
  | [] => 0
  | (key, value) :: patch =>
      memberPrice key + valueCost (Assoc.find key ms) value + membersCost ms patch
end

/-- What a merge costs. -/
def mergeCost (target : Pjson) : Pjson → Cost
  | .jsonObject patch => membersCost nodeSize target.members patch
  | patch => Cost.of .operations 1 + Patch.cloneCost nodeSize patch

theorem membersCost_eq_sum (ms patch : List (Bytes × Pjson)) : membersCost nodeSize ms patch =
    (patch.map fun m => memberPrice m.1 + valueCost nodeSize (Assoc.find m.1 ms) m.2).sum := by
  induction patch with
  | nil => rfl
  | cons m patch ih => rw [membersCost, ih, List.map_cons, List.sum_cons]

theorem membersCost_order (ms patch : List (Bytes × Pjson)) :
    membersCost nodeSize ms (e.order patch) = membersCost nodeSize ms patch := by
  rw [membersCost_eq_sum, membersCost_eq_sum]
  exact ((e.perm patch).map _).sum_eq

end Rfc7396

end ByteDance
