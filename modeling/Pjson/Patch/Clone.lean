/-
  `measureClone`: what a patch pays for a value before it copies it.

  The loop pays one step of work, one node and the size of a node for every node it pops, and the
  bytes of every string and every key it passes; a container with more children than there is work
  left is refused before they are pushed.  `cloneCost` is the price of a whole value, and
  `measureClone_exact` says that the loop succeeds exactly on the accounts that can pay it: the early
  test refuses nothing that the children would not have been refused.
-/
import Pjson.Dom.Enumeration
import Pjson.Patch.Cost

namespace ByteDance

open Run

namespace Pjson

mutual
/-- The bytes of the strings and keys of a value. -/
def textBytes : Pjson → Nat
  | .jsonString s => s.length
  | .jsonArray xs => textBytesElements xs
  | .jsonObject ms => textBytesMembers ms
  | _ => 0
def textBytesElements : List Pjson → Nat
  | [] => 0
  | x :: xs => textBytes x + textBytesElements xs
def textBytesMembers : List (Bytes × Pjson) → Nat
  | [] => 0
  | (k, x) :: ms => k.length + textBytes x + textBytesMembers ms
end

end Pjson

namespace Patch

def cloneWorkMessage : String := "JSON patch work budget exceeded"

def cloneNodesMessage : String := "JSON patch cloned-node budget exceeded"

def cloneBytesMessage : String := "JSON patch cloned-byte budget exceeded"

/-- The test of a container's child count against the work that is left. -/
def checkRemainingWork (size : Nat) : AccountM Unit := do
  let remainingWork := (← get).budget.left .work
  if size > remainingWork then failPatch .ResourceLimit cloneWorkMessage

/-- The loop over the members of an object: pays for the keys, collects the values. -/
def chargeKeys : List (Bytes × Pjson) → AccountM (List Pjson)
  | [] => pure []
  | (key, value) :: it => do
    chargePatch .bytes key.length cloneBytesMessage
    let rest ← chargeKeys it
    pure (value :: rest)

/-- One turn of the loop of `measureClone`; `nodeSize` is `sizeof(pjson)`. -/
def visitClone (e : Enumeration) (nodeSize : Nat) (current : Pjson) : AccountM (List Pjson) := do
  chargePatch .work 1 cloneWorkMessage
  chargePatch .nodes 1 cloneNodesMessage
  chargePatch .bytes nodeSize cloneBytesMessage
  match current with
  | .jsonString s => do
    chargePatch .bytes s.length cloneBytesMessage
    pure []
  | .jsonArray array => do
    checkRemainingWork array.length
    pure array
  | .jsonObject object => do
    checkRemainingWork object.length
    chargeKeys (e.order object)
  | _ => pure []

/-! ## The price of a value -/

/-- What one node costs. -/
def nodeCost (nodeSize : Nat) : Cost := Cost.of .work 1 + (Cost.of .nodes 1 + Cost.of .bytes nodeSize)

/-- What a value costs: its nodes, as work and as nodes, and the bytes of its nodes and texts. -/
def cloneCost (nodeSize : Nat) (v : Pjson) : Cost
  | .operations => 0
  | .nodes => v.nodes
  | .work => v.nodes
  | .bytes => v.nodes * nodeSize + v.textBytes

variable (nodeSize : Nat)

theorem nodeCost_apply (r : Resource) : nodeCost nodeSize r =
    match r with
    | .operations => 0
    | .nodes => 1
    | .work => 1
    | .bytes => nodeSize := by
  cases r <;> simp [nodeCost, Cost.of]

theorem sum_cloneCost (xs : List Pjson) (r : Resource) : (xs.map (cloneCost nodeSize)).sum r =
    match r with
    | .operations => 0
    | .nodes => Pjson.nodesElements xs
    | .work => Pjson.nodesElements xs
    | .bytes => Pjson.nodesElements xs * nodeSize + Pjson.textBytesElements xs := by
  induction xs with
  | nil => cases r <;> simp [Pjson.nodesElements, Pjson.textBytesElements]
  | cons x xs ih =>
    rw [List.map_cons, List.sum_cons, Pi.add_apply, ih]
    cases r with
    | operations => rfl
    | bytes =>
      show x.nodes * nodeSize + x.textBytes + _ = _
      rw [Pjson.nodesElements, Pjson.textBytesElements]
      ring
    | _ => rfl

theorem sum_cloneCost_members (ms : List (Bytes × Pjson)) (r : Resource) :
    (Cost.of .bytes (ms.map fun m => m.1.length).sum +
        ((ms.map Prod.snd).map (cloneCost nodeSize)).sum) r =
    match r with
    | .operations => 0
    | .nodes => Pjson.nodesMembers ms
    | .work => Pjson.nodesMembers ms
    | .bytes => Pjson.nodesMembers ms * nodeSize + Pjson.textBytesMembers ms := by
  have hnodes : Pjson.nodesElements (ms.map Prod.snd) = Pjson.nodesMembers ms := by
    rw [Pjson.nodesElements_eq_sum, Pjson.nodesMembers_eq_sum, List.map_map]
    rfl
  have htext : (ms.map fun m => m.1.length).sum + Pjson.textBytesElements (ms.map Prod.snd) =
      Pjson.textBytesMembers ms := by
    clear hnodes
    induction ms with
    | nil => rfl
    | cons m ms ih =>
      rw [List.map_cons, List.map_cons, List.sum_cons, Pjson.textBytesElements, Pjson.textBytesMembers,
        ← ih]
      omega
  rw [Pi.add_apply, sum_cloneCost, hnodes, ← htext]
  cases r with
  | bytes =>
    simp only [Cost.of, Pi.single_apply, if_true]
    omega
  | _ => simp [Cost.of]

/-- A node whose value is not text and that has no children. -/
theorem cloneCost_leaf {v : Pjson} (hn : v.nodes = 1) (ht : v.textBytes = 0) :
    cloneCost nodeSize v = nodeCost nodeSize := by
  funext r
  rw [nodeCost_apply]
  cases r <;> simp [cloneCost, hn, ht]

theorem cloneCost_string (s : Bytes) :
    cloneCost nodeSize (.jsonString s) = nodeCost nodeSize + Cost.of .bytes s.length := by
  funext r
  rw [Pi.add_apply, nodeCost_apply]
  cases r <;> simp [cloneCost, Cost.of, Pjson.nodes, Pjson.textBytes]

theorem cloneCost_array (xs : List Pjson) :
    cloneCost nodeSize (.jsonArray xs) = nodeCost nodeSize + (xs.map (cloneCost nodeSize)).sum := by
  funext r
  rw [Pi.add_apply, nodeCost_apply, sum_cloneCost]
  cases r with
  | bytes =>
    simp only [cloneCost, Pjson.nodes, Pjson.textBytes]
    ring
  | _ => simp [cloneCost, Pjson.nodes]

theorem cloneCost_object (ms : List (Bytes × Pjson)) :
    cloneCost nodeSize (.jsonObject ms) = nodeCost nodeSize +
      (Cost.of .bytes (ms.map fun m => m.1.length).sum +
        ((ms.map Prod.snd).map (cloneCost nodeSize)).sum) := by
  funext r
  rw [Pi.add_apply, nodeCost_apply, sum_cloneCost_members]
  cases r with
  | bytes =>
    simp only [cloneCost, Pjson.nodes, Pjson.textBytes]
    ring
  | _ => simp [cloneCost, Pjson.nodes]

/-- Every value costs a step of work. -/
theorem work_le_sum (xs : List Pjson) :
    Cost.of .work xs.length ≤ (xs.map (cloneCost nodeSize)).sum := by
  intro r
  rw [sum_cloneCost]
  have hle : xs.length ≤ Pjson.nodesElements xs := by
    induction xs with
    | nil => exact le_rfl
    | cons x xs ih =>
      have := x.nodes_pos
      rw [List.length_cons, Pjson.nodesElements]
      omega
  cases r <;> simp [Cost.of, hle]

/-! ## What the loop pays -/

/-- The early test refuses only what could not be paid. -/
theorem checkRemainingWork_costs (size : Nat) :
    Costs (fun _ => True) (checkRemainingWork size) (Cost.of .work size) fun _ c => c = 0 := by
  intro s hs
  unfold checkRemainingWork
  rw [ends_bind, ends_get, ends_ite]
  refine ⟨fun hover => ?_, fun _ => ⟨0, .zero hs, rfl⟩⟩
  refine ⟨trivial, ⟨⟨hs, rfl, fun _ => le_rfl, rfl, fun _ hb => Or.inl hb⟩, rfl, rfl⟩, fun hfits => ?_⟩
  have hwork := hfits .work
  rw [hs.left_eq] at hover
  simp only [Cost.of, Pi.single_eq_same] at hwork
  omega

theorem chargeKeys_costs (ms : List (Bytes × Pjson)) :
    Costs (fun _ => True) (chargeKeys ms) (Cost.of .bytes (ms.map fun m => m.1.length).sum)
      fun pushed c => pushed = ms.map Prod.snd ∧ c = Cost.of .bytes (ms.map fun m => m.1.length).sum := by
  induction ms with
  | nil => exact Costs.pure ⟨rfl, by simp [Cost.of]⟩
  | cons m ms ih =>
    obtain ⟨key, value⟩ := m
    rw [chargeKeys, List.map_cons, List.sum_cons,
      show Cost.of .bytes (key.length + _) = Cost.of .bytes key.length + Cost.of .bytes _ from
        Pi.single_add _ _ _]
    refine (chargePatch_costs .bytes key.length cloneBytesMessage).seq fun _ => ?_
    refine ih.bind le_rfl fun pushed c hc => ⟨0, ?_, Costs.pure ?_⟩
    · rw [hc.2, add_zero]
    · rw [hc.1, hc.2, add_zero]
      exact ⟨rfl, rfl⟩

/-- The three charges in front of every turn. -/
theorem nodeCost_seq {k : Unit → AccountM (List Pjson)} {m : Cost} {P : List Pjson → Cost → Prop}
    (hk : ∀ u, Costs (fun _ => True) (k u) m fun pushed d => P pushed (nodeCost nodeSize + d)) :
    Costs (fun _ => True) (do
      chargePatch .work 1 cloneWorkMessage
      chargePatch .nodes 1 cloneNodesMessage
      let u ← chargePatch .bytes nodeSize cloneBytesMessage
      k u) (nodeCost nodeSize + m) P := by
  rw [nodeCost, add_assoc, add_assoc]
  refine (chargePatch_costs .work 1 cloneWorkMessage).seq fun _ => ?_
  refine (chargePatch_costs .nodes 1 cloneNodesMessage).seq fun _ => ?_
  refine (chargePatch_costs .bytes nodeSize cloneBytesMessage).seq fun u => ?_
  refine (hk u).mono le_rfl fun pushed d hP => ?_
  rwa [nodeCost, add_assoc, add_assoc] at hP

/-- **A turn of the loop** pays what the value costs up to what the children it pushes cost. -/
theorem visitClone_costs (e : Enumeration) (v : Pjson) :
    Costs (fun _ => True) (visitClone e nodeSize v) (cloneCost nodeSize v) fun pushed c =>
      c + (pushed.map (cloneCost nodeSize)).sum = cloneCost nodeSize v := by
  have hleaf : ∀ v : Pjson, v.nodes = 1 → v.textBytes = 0 → Costs (fun _ => True) (do
      chargePatch .work 1 cloneWorkMessage
      chargePatch .nodes 1 cloneNodesMessage
      let _ ← chargePatch .bytes nodeSize cloneBytesMessage
      pure []) (cloneCost nodeSize v) fun pushed c =>
        c + (pushed.map (cloneCost nodeSize)).sum = cloneCost nodeSize v := by
    intro v hnodes htext
    rw [cloneCost_leaf nodeSize hnodes htext, ← add_zero (nodeCost nodeSize)]
    refine nodeCost_seq nodeSize fun _ => Costs.pure ?_
    rw [List.map_nil, List.sum_nil, add_zero]
  unfold visitClone
  cases v with
  | jsonString s =>
    rw [cloneCost_string]
    refine nodeCost_seq nodeSize fun _ => ?_
    refine (chargePatch_costs .bytes s.length cloneBytesMessage).bind le_rfl fun _ c hc =>
      ⟨0, by rw [hc, add_zero], Costs.pure ?_⟩
    rw [hc, List.map_nil, List.sum_nil, add_zero, add_zero]
  | jsonArray xs =>
    rw [cloneCost_array]
    refine nodeCost_seq nodeSize fun _ => ?_
    refine (checkRemainingWork_costs xs.length).bind (work_le_sum nodeSize xs) fun _ c hc =>
      ⟨0, by rw [hc, add_zero]; exact bot_le, Costs.pure ?_⟩
    rw [hc, add_zero, add_zero]
  | jsonObject ms =>
    have hperm := e.perm ms
    have hvalues := hperm.map Prod.snd
    have hkeys : ((e.order ms).map fun m => m.1.length).sum = (ms.map fun m => m.1.length).sum :=
      (hperm.map _).sum_eq
    have hsum : (((e.order ms).map Prod.snd).map (cloneCost nodeSize)).sum =
        ((ms.map Prod.snd).map (cloneCost nodeSize)).sum := (hvalues.map _).sum_eq
    have hwork : Cost.of .work ms.length ≤ ((ms.map Prod.snd).map (cloneCost nodeSize)).sum := by
      have hle := work_le_sum nodeSize (ms.map Prod.snd)
      rwa [List.length_map] at hle
    rw [cloneCost_object]
    refine nodeCost_seq nodeSize fun _ => ?_
    refine (checkRemainingWork_costs ms.length).bind (hwork.trans le_add_self) fun _ c hc => ?_
    refine ⟨_, by rw [hc, zero_add], ?_⟩
    rw [← hkeys]
    refine (chargeKeys_costs (e.order ms)).mono le_self_add fun pushed d hd => ?_
    rw [hc, zero_add, hd.1, hd.2, hkeys, hsum, add_assoc]
  | jsonNull => exact hleaf _ rfl rfl
  | jsonNumberInt n => exact hleaf _ rfl rfl
  | jsonNumberDouble d => exact hleaf _ rfl rfl
  | jsonBoolean b => exact hleaf _ rfl rfl
  | jsonNumberUInt n => exact hleaf _ rfl rfl

theorem chargeKeys_ends (ms : List (Bytes × Pjson)) (s : Account) :
    Ends (chargeKeys ms) s (fun pushed _ => pushed = ms.map Prod.snd) fun _ _ => True := by
  induction ms generalizing s with
  | nil => rfl
  | cons m ms ih =>
    rw [chargeKeys, ends_bind]
    refine (ends_true _).mono (fun _ t _ => ?_) fun _ _ h => h
    rw [ends_bind]
    refine (ih t).mono (fun pushed _ hpushed => ?_) fun _ _ h => h
    exact congrArg (m.2 :: ·) hpushed

/-- A turn pushes the children of its node. -/
theorem visitClone_ends (e : Enumeration) (v : Pjson) (s : Account) :
    Ends (visitClone e nodeSize v) s (fun pushed _ => 1 + (pushed.map Pjson.nodes).sum = v.nodes)
      fun _ _ => True := by
  unfold visitClone
  rw [ends_bind]
  refine (ends_true _).mono (fun _ s _ => ?_) fun _ _ h => h
  rw [ends_bind]
  refine (ends_true _).mono (fun _ s _ => ?_) fun _ _ h => h
  rw [ends_bind]
  refine (ends_true _).mono (fun _ s _ => ?_) fun _ _ h => h
  cases v with
  | jsonString text =>
    show Ends (chargePatch .bytes text.length cloneBytesMessage >>= fun _ => pure []) s _ _
    rw [ends_bind]
    exact (ends_true _).mono (fun _ _ _ => rfl) fun _ _ h => h
  | jsonArray xs =>
    show Ends (checkRemainingWork xs.length >>= fun _ => pure xs) s _ _
    rw [ends_bind, Pjson.nodes, Pjson.nodesElements_eq_sum]
    exact (ends_true _).mono (fun _ _ _ => rfl) fun _ _ h => h
  | jsonObject ms =>
    show Ends (checkRemainingWork ms.length >>= fun _ => chargeKeys (e.order ms)) s _ _
    rw [ends_bind, Pjson.nodes, Pjson.nodesMembers_eq_sum]
    refine (ends_true _).mono (fun _ t _ => ?_) fun _ _ h => h
    refine (chargeKeys_ends (e.order ms) t).mono (fun pushed _ hpushed => ?_) fun _ _ h => h
    rw [hpushed, List.map_map, ((e.perm ms).map _).sum_eq]
    rfl
  | jsonNull => rfl
  | jsonNumberInt n => rfl
  | jsonNumberDouble d => rfl
  | jsonBoolean b => rfl
  | jsonNumberUInt n => rfl

/-- The loop of `measureClone`. -/
def cloneVisitor (e : Enumeration) : Visitor Unit Account Pjson where
  visit := visitClone e nodeSize
  size := Pjson.nodes
  shrinks h := by
    have hnodes := (visitClone_ends nodeSize e _ _).ok h
    omega

end Patch

/-- `measureClone`. -/
def measureClone (e : Enumeration) (nodeSize : Nat) (value : Pjson) : AccountM Unit :=
  (Patch.cloneVisitor nodeSize e).drain [value]

/-- The loop costs what the value costs. -/
theorem measureClone_costs (e : Enumeration) (nodeSize : Nat) (value : Pjson) :
    Costs (fun _ => True) (measureClone e nodeSize value) (Patch.cloneCost nodeSize value)
      fun _ c => c = Patch.cloneCost nodeSize value := by
  have hone : ∀ v ∈ [value], True := fun _ _ => trivial
  have hloop := Visitor.drain_costs (Patch.cloneVisitor nodeSize e) (fun _ => True)
    (Patch.cloneCost nodeSize) (fun v _ => (Patch.visitClone_costs nodeSize e v).mono le_rfl
      fun _ _ hc => ⟨fun _ _ => trivial, hc⟩) hone
  rw [List.map_singleton, List.sum_singleton] at hloop
  exact hloop

/-- **Clone measurement is exact**: for every value and every budget within its limits it succeeds
    exactly when the nodes fit what is left of the work and the node budget and the sizes of the nodes
    with the lengths of the texts fit what is left of the byte budget; then it has added these three
    totals and changed no limit. -/
theorem measureClone_exact (e : Enumeration) (nodeSize : Nat) (value : Pjson) (s : Account)
    (hs : s.budget.Sound) :
    ((∃ t, Ok (measureClone e nodeSize value) s () t) ↔
      s.budget.used .work + value.nodes ≤ s.budget.limit .work ∧
      s.budget.used .nodes + value.nodes ≤ s.budget.limit .nodes ∧
      s.budget.used .bytes + (value.nodes * nodeSize + value.textBytes) ≤ s.budget.limit .bytes) ∧
    ∀ t, Ok (measureClone e nodeSize value) s () t →
      t.budget.used .work = s.budget.used .work + value.nodes ∧
      t.budget.used .nodes = s.budget.used .nodes + value.nodes ∧
      t.budget.used .bytes = s.budget.used .bytes + (value.nodes * nodeSize + value.textBytes) ∧
      t.budget.used .operations = s.budget.used .operations ∧
      t.budget.limit = s.budget.limit := by
  have hcosts := measureClone_costs e nodeSize value s hs
  have hused : ∀ t, Ok (measureClone e nodeSize value) s () t →
      s.Paid (Patch.cloneCost nodeSize value) t := by
    intro t ht
    obtain ⟨c, hpaid, rfl⟩ := hcosts.ok ht
    exact hpaid
  refine ⟨⟨?_, ?_⟩, ?_⟩
  · rintro ⟨t, ht⟩
    have hpaid := hused t ht
    have hwithin : ∀ r, s.budget.used r + Patch.cloneCost nodeSize value r ≤ s.budget.limit r := by
      intro r
      have hr := hpaid.sound.within r
      rwa [hpaid.used, hpaid.limit] at hr
    exact ⟨hwithin .work, hwithin .nodes, hwithin .bytes⟩
  · rintro ⟨hwork, hnodes, hbytes⟩
    -- The operations are not touched, so the three bounds are all that has to fit.
    have hfits : s.budget.Fits (Patch.cloneCost nodeSize value) := by
      intro r
      cases r with
      | operations => exact hs.within .operations
      | nodes => exact hnodes
      | bytes => exact hbytes
      | work => exact hwork
    unfold Ends at hcosts
    cases hrun : (measureClone e nodeSize value).run s with
    | ok u t => exact ⟨t, hrun⟩
    | error x t =>
      rw [hrun] at hcosts
      exact absurd hfits hcosts.2.2
  · intro t ht
    have hpaid := hused t ht
    have htotal : ∀ r, t.budget.used r = s.budget.used r + Patch.cloneCost nodeSize value r := fun r =>
      congrFun hpaid.used r
    exact ⟨htotal .work, htotal .nodes, htotal .bytes, htotal .operations, hpaid.limit⟩

/-- An array of a null and a string, on a fresh account. -/
theorem measureClone_exact_pair :
    let s : Account := { budget := .ofOptions {}, error := {} }
    let value := Pjson.jsonArray [.jsonNull, .jsonString [0x61, 0x62]]
    ((∃ t, Ok (measureClone .asListed 16 value) s () t) ↔
      s.budget.used .work + value.nodes ≤ s.budget.limit .work ∧
      s.budget.used .nodes + value.nodes ≤ s.budget.limit .nodes ∧
      s.budget.used .bytes + (value.nodes * 16 + value.textBytes) ≤ s.budget.limit .bytes) ∧
    ∀ t, Ok (measureClone .asListed 16 value) s () t →
      t.budget.used .work = s.budget.used .work + value.nodes ∧
      t.budget.used .nodes = s.budget.used .nodes + value.nodes ∧
      t.budget.used .bytes = s.budget.used .bytes + (value.nodes * 16 + value.textBytes) ∧
      t.budget.used .operations = s.budget.used .operations ∧
      t.budget.limit = s.budget.limit :=
  measureClone_exact .asListed 16 _ _ (PatchBudget.sound_ofOptions {})

end ByteDance
