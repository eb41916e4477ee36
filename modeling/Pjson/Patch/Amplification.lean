/-
  No patch makes a document that is larger than its limits allow.

  The operations of a patch can copy what earlier ones have made, so the size of what comes out is not bounded
  by the size of what goes in.  It is bounded by the limits: what a document is worth has been charged by the
  time it exists, and this holds of every document on the way (`applyPatch_bounded`).  For a merge the bound
  follows from the price alone (`cloneCost_mergePatch`).
-/
import Pjson.Patch.MergeExact

namespace ByteDance

open Rfc6902 Rfc7396

namespace Patch

variable {nodeSize : Nat}

/-! ## A merge is worth no more than its price -/

theorem nodeCost_le_cloneCost (v : Pjson) :
    nodeCost nodeSize + (v.members.map (memberCost nodeSize)).sum ≤ cloneCost nodeSize v := by
  have hleaf : nodeCost nodeSize + ([].map (memberCost nodeSize)).sum = nodeCost nodeSize := add_zero _
  cases v with
  | jsonObject ms => exact (cloneCost_members nodeSize ms).ge
  | jsonString s =>
    show nodeCost nodeSize + ([].map (memberCost nodeSize)).sum ≤ _
    rw [hleaf, cloneCost_string]
    exact le_self_add
  | jsonArray xs =>
    show nodeCost nodeSize + ([].map (memberCost nodeSize)).sum ≤ _
    rw [hleaf, cloneCost_array]
    exact le_self_add
  | _ =>
    show nodeCost nodeSize + ([].map (memberCost nodeSize)).sum ≤ _
    rw [hleaf, cloneCost_leaf nodeSize rfl rfl]

/-- A member that is assigned takes the place of the one that was there. -/
theorem memberCost_assign (nodeSize : Nat) (ms : List (Bytes × Pjson)) (k : Bytes) (w : Pjson) :
    ((Assoc.assign k w ms).map (memberCost nodeSize)).sum +
        (Assoc.find k ms).elim 0 (fun old => memberCost nodeSize (k, old)) =
      (ms.map (memberCost nodeSize)).sum + memberCost nodeSize (k, w) := by
  cases hfind : Assoc.find k ms with
  | none =>
    rw [Assoc.assign_of_notMem (Assoc.find_eq_none_iff.mp hfind), List.map_append, List.sum_append,
      List.map_singleton, List.sum_singleton]
    exact add_zero _
  | some old =>
    rw [Assoc.assign_eq_modify (Assoc.find_isSome_iff.mp (by rw [hfind]; rfl))]
    exact Assoc.sum_modify (memberCost nodeSize) hfind

theorem memberCost_drop (ms : List (Bytes × Pjson)) (k : Bytes) :
    ((Assoc.drop k ms).map (memberCost nodeSize)).sum ≤ (ms.map (memberCost nodeSize)).sum := by
  induction ms with
  | nil => exact le_rfl
  | cons m ms ih =>
    rw [Assoc.drop, List.map_cons, List.sum_cons]
    by_cases hk : m.1 = k
    · rw [if_pos hk]
      exact le_add_self
    · rw [if_neg hk, List.map_cons, List.sum_cons]
      exact add_le_add le_rfl ih

/-- What comes to stand at a key is worth no more than what stood there and what the member costs. -/
theorem memberCost_le {e : Enumeration} (key : Bytes) {value : Pjson} (hvalue : value ≠ .jsonNull)
    {old : Option Pjson} (hmerge : cloneCost nodeSize (mergePatch e (old.getD .jsonNull) value) ≤
      cloneCost nodeSize (old.getD .jsonNull) + mergeCost nodeSize (old.getD .jsonNull) value) :
    memberCost nodeSize (key, mergePatch e (old.getD .jsonNull) value) ≤
      old.elim 0 (fun w => memberCost nodeSize (key, w)) + (memberPrice key + valueCost nodeSize old value) := by
  have hprice : Cost.of .bytes key.length ≤ memberPrice key := le_add_self.trans le_add_self
  have hleaf : (∀ patch, value ≠ .jsonObject patch) → valueCost nodeSize old value = cloneCost nodeSize value →
      memberCost nodeSize (key, mergePatch e (old.getD .jsonNull) value) ≤
        old.elim 0 (fun w => memberCost nodeSize (key, w)) +
          (memberPrice key + valueCost nodeSize old value) := by
    intro hnot hcost
    rw [mergePatch_of_not_object e _ hnot, hcost]
    exact (add_le_add hprice le_rfl).trans le_add_self
  cases value with
  | jsonNull => exact absurd rfl hvalue
  | jsonObject patch =>
    rw [mergeCost] at hmerge
    rw [valueCost]
    cases old with
    | none =>
      -- a null that is not there is worth a node, and a node is what the new member is charged for
      have hnode : cloneCost nodeSize .jsonNull =
          Cost.of .work 1 + (Cost.of .nodes 1 + Cost.of .bytes nodeSize) := cloneCost_leaf nodeSize rfl rfl
      rw [Option.getD_none, hnode] at hmerge
      show Cost.of .bytes key.length + cloneCost nodeSize (mergePatch e .jsonNull (.jsonObject patch)) ≤
        0 + (memberPrice key + (Cost.of .nodes 1 + Cost.of .bytes nodeSize +
          membersCost nodeSize (Pjson.members .jsonNull) patch))
      calc Cost.of .bytes key.length + cloneCost nodeSize (mergePatch e .jsonNull (.jsonObject patch))
          ≤ Cost.of .bytes key.length + (Cost.of .work 1 + (Cost.of .nodes 1 + Cost.of .bytes nodeSize) +
              membersCost nodeSize (Pjson.members .jsonNull) patch) := add_le_add le_rfl hmerge
        _ ≤ Cost.of .operations 1 + (Cost.of .bytes key.length + (Cost.of .work 1 +
              (Cost.of .nodes 1 + Cost.of .bytes nodeSize) +
                membersCost nodeSize (Pjson.members .jsonNull) patch)) := le_add_self
        _ = 0 + (memberPrice key + (Cost.of .nodes 1 + Cost.of .bytes nodeSize +
              membersCost nodeSize (Pjson.members .jsonNull) patch)) := by
            rw [memberPrice]
            abel
    | some w =>
      show Cost.of .bytes key.length + cloneCost nodeSize (mergePatch e w (.jsonObject patch)) ≤
        Cost.of .bytes key.length + cloneCost nodeSize w +
          (memberPrice key + (0 + membersCost nodeSize w.members patch))
      rw [zero_add, add_assoc]
      exact add_le_add le_rfl (hmerge.trans (add_le_add le_rfl le_add_self))
  | _ => exact hleaf (by rintro _ ⟨⟩) rfl

theorem sum_mergeMember_le {e : Enumeration} {ms : List (Bytes × Pjson)} {m : Bytes × Pjson}
    (hmerge : cloneCost nodeSize (mergePatch e ((Assoc.find m.1 ms).getD .jsonNull) m.2) ≤
      cloneCost nodeSize ((Assoc.find m.1 ms).getD .jsonNull) +
        mergeCost nodeSize ((Assoc.find m.1 ms).getD .jsonNull) m.2) :
    ((Rfc7396.mergeMember e ms m).map (memberCost nodeSize)).sum ≤
      (ms.map (memberCost nodeSize)).sum +
        (memberPrice m.1 + valueCost nodeSize (Assoc.find m.1 ms) m.2) := by
  obtain ⟨key, value⟩ := m
  by_cases hvalue : value = .jsonNull
  · subst hvalue
    rw [mergeMember_null]
    exact (memberCost_drop ms key).trans le_self_add
  · have hassign := memberCost_assign nodeSize ms key
      (mergePatch e ((Assoc.find key ms).getD .jsonNull) value)
    have hmember := memberCost_le key hvalue hmerge
    rw [mergeMember_of_ne e ms key hvalue]
    refine le_of_add_le_add_right
      (a := (Assoc.find key ms).elim 0 fun old => memberCost nodeSize (key, old)) ?_
    rw [hassign, add_assoc]
    refine add_le_add le_rfl (hmember.trans_eq (add_comm _ _))

/-- **What a merge makes has been paid for**: it is worth no more than the target and the price. -/
theorem cloneCost_mergePatch (e : Enumeration) {target aPatch : Pjson} (htarget : target.WF)
    (hpatch : aPatch.WF) : cloneCost nodeSize (mergePatch e target aPatch) ≤
      cloneCost nodeSize target + mergeCost nodeSize target aPatch := by
  have hleaf : (∀ patch, aPatch ≠ .jsonObject patch) →
      mergeCost nodeSize target aPatch = Cost.of .operations 1 + cloneCost nodeSize aPatch →
      cloneCost nodeSize (mergePatch e target aPatch) ≤
        cloneCost nodeSize target + mergeCost nodeSize target aPatch := by
    intro hnot hcost
    rw [mergePatch_of_not_object e target hnot, hcost]
    exact le_add_self.trans le_add_self
  induction aPatch using Pjson.induct generalizing target with
  | jsonObject patch ih =>
    obtain ⟨hunique, hall⟩ := Pjson.wf_object.mp hpatch
    obtain ⟨hms, htargets⟩ := wf_members htarget
    -- the members in turn: what is at a key that is still to come does not change
    have hmembers : ∀ (l ms : List (Bytes × Pjson)), (∀ m ∈ l, m ∈ patch) → Assoc.UniqueKeys l →
        Assoc.UniqueKeys ms → (∀ m ∈ l, ∀ w, Assoc.find m.1 ms = some w → w.WF) →
        ((l.foldl (Rfc7396.mergeMember e) ms).map (memberCost nodeSize)).sum ≤
          (ms.map (memberCost nodeSize)).sum + membersCost nodeSize ms l := by
      intro l
      induction l with
      | nil => exact fun ms _ _ _ _ => le_self_add
      | cons m l ihl =>
        intro ms hsub hl hms hwf
        obtain ⟨hnot, hl⟩ := Assoc.uniqueKeys_cons.mp hl
        have hfind : ∀ k ∈ Assoc.keys l, Assoc.find k (Rfc7396.mergeMember e ms m) = Assoc.find k ms :=
          fun k hk => find_mergeMember_of_ne e hms fun h => hnot (h ▸ hk)
        have hrest := ihl (Rfc7396.mergeMember e ms m) (fun m' h => hsub m' (List.mem_cons_of_mem _ h)) hl
          (uniqueKeys_mergeMember e hms m) fun m' hm' w hw =>
            hwf m' (List.mem_cons_of_mem _ hm') w (hfind m'.1 (List.mem_map_of_mem hm') ▸ hw)
        have hold : ((Assoc.find m.1 ms).getD .jsonNull).WF := by
          cases hw : Assoc.find m.1 ms with
          | none => trivial
          | some w => exact hwf m List.mem_cons_self w hw
        have hmem := hsub m List.mem_cons_self
        have hhead := sum_mergeMember_le (ih m hmem hold (hall m hmem) fun hnot hcost => by
          rw [mergePatch_of_not_object e _ hnot, hcost]
          exact le_add_self.trans le_add_self)
        rw [membersCost_congr hfind] at hrest
        rw [membersCost, ← add_assoc]
        exact hrest.trans (add_le_add hhead le_rfl)
    have hsum := hmembers (e.order patch) target.members (fun m hm => e.mem_order.mp hm)
      (uniqueKeys_order e hunique) hms fun m _ w hw => htargets _ (Assoc.mem_of_find hw)
    rw [membersCost_order] at hsum
    calc cloneCost nodeSize (mergePatch e target (.jsonObject patch))
        = nodeCost nodeSize +
            (((e.order patch).foldl (Rfc7396.mergeMember e) target.members).map (memberCost nodeSize)).sum := by
          rw [mergePatch_object, cloneCost_members]
      _ ≤ nodeCost nodeSize + ((target.members.map (memberCost nodeSize)).sum +
            membersCost nodeSize target.members patch) := add_le_add le_rfl hsum
      _ ≤ cloneCost nodeSize target + mergeCost nodeSize target (.jsonObject patch) := by
          rw [← add_assoc, mergeCost]
          exact add_le_add (nodeCost_le_cloneCost target) le_rfl
  | _ => exact hleaf (by rintro _ ⟨⟩) rfl

/-! ## The documents of a patch -/

/-- A document within the limits on nodes and bytes. -/
structure Within (nodeSize : Nat) (aOpts : PatchOptions) (v : Pjson) : Prop where
  nodes : v.nodes ≤ (aOpts.effective .nodes).toNat
  bytes : v.nodes * nodeSize + v.textBytes ≤ (aOpts.effective .bytes).toNat

theorem within_of_cloneCost {aOpts : PatchOptions} {v : Pjson}
    (h : ∀ resource, resource ≠ .work → cloneCost nodeSize v resource ≤ (aOpts.effective resource).toNat) :
    Within nodeSize aOpts v := ⟨h .nodes (by decide), h .bytes (by decide)⟩

/-- What an element of a patch adds to a document has been paid for. -/
theorem cloneCost_le_of_bills {element v v' : Pjson} {c : Cost}
    (h : Bills nodeSize v element (some v') c) {r : Resource} (hr : r ≠ .work) :
    cloneCost nodeSize v' r ≤ cloneCost nodeSize v r + c r := by
  generalize hresult : some v' = result at h
  cases h with
  | operation hdenotes => exact Operation.cloneCost_le hresult.symm hr
  | malformed => cases hresult

/-- So has what a row of them adds. -/
theorem cloneCost_le_of_charges {operations : List Pjson} {v v' : Pjson} {c : Cost}
    (h : Charges nodeSize operations v c v') {r : Resource} (hr : r ≠ .work) :
    cloneCost nodeSize v' r ≤ cloneCost nodeSize v r + c r := by
  induction h with
  | nil v => exact Nat.le_add_right _ _
  | cons hbills _ ih =>
    have hstep := cloneCost_le_of_bills hbills hr
    rw [Pi.add_apply]
    omega

/-- A row of operations has a result at every stage, and the price at a stage is a part of the whole. -/
theorem charges_append {done rest : List Pjson} {v v' : Pjson} {c : Cost}
    (h : Charges nodeSize (done ++ rest) v c v') :
    ∃ u c₁ c₂, Charges nodeSize done v c₁ u ∧ Charges nodeSize rest u c₂ v' ∧ c = c₁ + c₂ := by
  induction done generalizing v c with
  | nil => exact ⟨v, 0, c, .nil v, h, (zero_add c).symm⟩
  | cons element done ih =>
    cases h with
    | @cons _ _ _ _ _ c₀ d hbills hrest =>
      obtain ⟨u, c₁, c₂, hdone, hleft, rfl⟩ := ih hrest
      exact ⟨u, c₀ + c₁, c₂, .cons hbills hdone, hleft, (add_assoc _ _ _).symm⟩

end Patch

open Patch

/-- **Every document on the way of a patch is within the limits**, however its operations feed on what earlier
    ones have made. -/
theorem applyPatch_bounded (e : Enumeration) {nodeSize : Nat} (hsize : 2 ≤ nodeSize) {target aPatch : Pjson}
    (htarget : target.WF) (hpatch : aPatch.WF) (hmemory : aPatch.textBytes + 1 < 2 ^ 64)
    {aOpts : PatchOptions} (h : (target.applyPatch e nodeSize aPatch aOpts).applied = true) :
    ∃ operations, aPatch = .jsonArray operations ∧ ∀ done rest, operations = done ++ rest →
      ∃ v, Yields done target v ∧ Within nodeSize aOpts v := by
  rcases applyPatch_outcome e hsize htarget hpatch hmemory aOpts with
    ⟨operations, c, v', rfl, hcharges, hfits, -⟩ | ⟨error, hrun, -⟩
  · refine ⟨operations, rfl, ?_⟩
    rintro done rest rfl
    obtain ⟨v, c₁, c₂, hdone, -, rfl⟩ := charges_append hcharges
    refine ⟨v, Charges.yields hdone, within_of_cloneCost fun resource hresource => ?_⟩
    have hworth := cloneCost_le_of_charges hdone hresource
    have hlimit := hfits resource
    simp only [patchCost, Pi.add_apply] at hlimit
    omega
  · rw [hrun] at h
    cases h

/-- The patch that appends a null is applied. -/
theorem applied_appendNull : ((Pjson.jsonArray []).applyPatch .asListed 16 appendNull {}).applied = true := by
  have hdenotes : Denotes [(ascii "op", .jsonString (ascii "add")), (ascii "path", .jsonString (ascii "/-")),
      (ascii "value", .jsonNull)] (.add [ascii "-"] .jsonNull) := by
    constructor <;> rfl
  have hbills : Bills 16 (.jsonArray []) _ (some (.jsonArray [.jsonNull]))
      (Operation.cost 16 (.add [ascii "-"] .jsonNull) (.jsonArray [])) := .operation hdenotes
  have hcharges := Charges.cons hbills (.nil _)
  rcases applyPatch_outcome .asListed (show 2 ≤ 16 by decide) wf_emptyArray wf_appendNull (by decide) {} with
    ⟨_, _, _, _, _, _, hrun⟩ | ⟨_, _, hunpaid, _⟩
  · rw [hrun]
  · refine absurd ?_ (hunpaid _ _ _ rfl hcharges)
    intro resource
    cases resource <;> decide

theorem applyPatch_bounded_appendNull : ∃ operations, appendNull = .jsonArray operations ∧
    ∀ done rest, operations = done ++ rest → ∃ v, Yields done (.jsonArray []) v ∧ Within 16 {} v :=
  applyPatch_bounded .asListed (show 2 ≤ 16 by decide) wf_emptyArray wf_appendNull (by decide)
    applied_appendNull

/-- **What a merge leaves is within the limits.** -/
theorem applyMergePatch_bounded (e : Enumeration) (nodeSize : Nat) {target aPatch : Pjson} (htarget : target.WF)
    (hpatch : aPatch.WF) {aOpts : PatchOptions}
    (h : (target.applyMergePatch e nodeSize aPatch aOpts).applied = true) :
    Within nodeSize aOpts (target.applyMergePatch e nodeSize aPatch aOpts).target := by
  rcases applyMergePatch_outcome e nodeSize target hpatch aOpts with ⟨hfits, hrun⟩ | ⟨-, error, -, hrun⟩
  · rw [hrun]
    refine within_of_cloneCost fun resource _ => ?_
    exact (cloneCost_mergePatch e htarget hpatch resource).trans (hfits resource)
  · rw [hrun] at h
    cases h

theorem applied_removeNested : (removeNested.applyMergePatch .asListed 16 removeNested {}).applied = true := by
  rcases applyMergePatch_outcome .asListed 16 removeNested wf_removeNested {} with ⟨-, hrun⟩ | ⟨hfits, -⟩
  · rw [hrun]
  · refine absurd ?_ hfits
    intro resource
    cases resource <;> decide

theorem applyMergePatch_bounded_removeNested :
    Within 16 {} (removeNested.applyMergePatch .asListed 16 removeNested {}).target :=
  applyMergePatch_bounded .asListed 16 wf_removeNested wf_removeNested applied_removeNested

end ByteDance
