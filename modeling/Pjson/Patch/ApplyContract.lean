/-
  The loop of `applyPatch`, and what the function promises.

  The scratch document is `Ready`: it is well formed, and what it is worth in nodes and bytes has been
  charged.  An operation keeps that (`Operation.cloneCost_le`), so the documents of a whole patch can be
  counted (`Ready.workable`), and the loop yields what RFC 6902 yields if the account can pay for it
  (`applyOperations_ends`).
-/
import Pjson.Patch.ApplyExact

namespace ByteDance

open Run Rfc6902

namespace Patch

/-! ## Accounts that cover a document -/

theorem Pjson.equalWork_lt (v : Pjson) : v.equalWork < 2 * v.nodes + v.textBytes := by
  induction v using Pjson.induct with
  | jsonArray xs ih =>
    have hsum : ∀ ys : List Pjson, (∀ y ∈ ys, y.equalWork < 2 * y.nodes + y.textBytes) →
        Pjson.equalWorkElements ys ≤ 2 * Pjson.nodesElements ys + Pjson.textBytesElements ys := by
      intro ys hys
      induction ys with
      | nil => exact le_rfl
      | cons y ys ihys =>
        have hy := hys y List.mem_cons_self
        have hrest := ihys fun z hz => hys z (List.mem_cons_of_mem _ hz)
        rw [Pjson.equalWorkElements, Pjson.nodesElements, Pjson.textBytesElements]
        omega
    have := hsum xs ih
    rw [Pjson.equalWork, Pjson.nodes, Pjson.textBytes]
    omega
  | jsonObject ms ih =>
    have hsum : ∀ ns : List (Bytes × Pjson), (∀ m ∈ ns, m.2.equalWork < 2 * m.2.nodes + m.2.textBytes) →
        Pjson.equalWorkMembers ns ≤ 2 * Pjson.nodesMembers ns + Pjson.textBytesMembers ns := by
      intro ns hns
      induction ns with
      | nil => exact le_rfl
      | cons m ns ihns =>
        obtain ⟨k, x⟩ := m
        have hm : x.equalWork < 2 * x.nodes + x.textBytes := hns (k, x) List.mem_cons_self
        have hrest := ihns fun z hz => hns z (List.mem_cons_of_mem _ hz)
        rw [Pjson.equalWorkMembers, Pjson.nodesMembers, Pjson.textBytesMembers]
        omega
    have := hsum ms ih
    rw [Pjson.equalWork, Pjson.nodes, Pjson.textBytes]
    omega
  | jsonString s =>
    show 1 + s.length < 2 * 1 + s.length
    omega
  | _ => exact Nat.lt_of_lt_of_le one_lt_two (Nat.le_add_right 2 _)

/-- The account has been charged for a document. -/
structure Ready (nodeSize : Nat) (s : Account) (v : Pjson) : Prop where
  wf : v.WF
  sound : s.budget.Sound
  nodes : v.nodes ≤ s.budget.used .nodes
  bytes : v.nodes * nodeSize + v.textBytes ≤ s.budget.used .bytes

/-- A document that has been paid for is one that can be counted. -/
theorem Ready.workable {nodeSize : Nat} (hsize : 2 ≤ nodeSize) {s : Account} {v : Pjson}
    (h : Ready nodeSize s v) : Workable v where
  wf := h.wf
  addressable := (h.nodes.trans (h.sound.within .nodes)).trans_lt (h.sound.sizes .nodes)
  equalWork := by
    have hwork := Pjson.equalWork_lt v
    have hscale : v.nodes * 2 ≤ v.nodes * nodeSize := Nat.mul_le_mul_left _ hsize
    have hpaid := (h.bytes.trans (h.sound.within .bytes)).trans_lt (h.sound.sizes .bytes)
    omega

/-- **An operation keeps the document paid for.** -/
theorem Ready.step {nodeSize : Nat} {s t : Account} {v v' : Pjson} {element : Pjson} {c : Cost}
    (h : Ready nodeSize s v) (hwf : element.WF) (hbills : Bills nodeSize v element (some v') c)
    (hsound : t.budget.Sound) (hused : t.budget.used = s.budget.used + c) : Ready nodeSize t v' := by
  obtain ⟨members, operation, hdenotes, rfl, happly, rfl⟩ :
      ∃ members operation, Denotes members operation ∧ element = .jsonObject members ∧
        operation.apply v = some v' ∧ c = operation.cost nodeSize v := by
    generalize hr : some v' = r at hbills
    cases hbills with
    | operation hdenotes => exact ⟨_, _, hdenotes, rfl, rfl, rfl⟩
    | malformed => cases hr
  have hnodes : cloneCost nodeSize v' .nodes ≤ cloneCost nodeSize v .nodes + operation.cost nodeSize v .nodes :=
    Operation.cloneCost_le happly (by decide)
  have hbytes : cloneCost nodeSize v' .bytes ≤ cloneCost nodeSize v .bytes + operation.cost nodeSize v .bytes :=
    Operation.cloneCost_le happly (by decide)
  refine ⟨wf_apply hwf hdenotes h.wf happly, hsound, ?_, ?_⟩
  · rw [hused, Pi.add_apply]
    exact hnodes.trans (Nat.add_le_add_right h.nodes _)
  · rw [hused, Pi.add_apply]
    exact hbytes.trans (Nat.add_le_add_right h.bytes _)

/-! ## The loop -/

/-- The texts of a patch have lengths that can be counted. -/
def MeasurablePatch (operations : List Pjson) : Prop :=
  ∀ element ∈ operations, ∀ members, element = .jsonObject members → Measurable members

/-- The operations up to one that has no result. -/
inductive Stuck : List Pjson → Pjson → Nat → Prop
  | here {element rest v} : (∀ v', ¬ Steps element v v') → Stuck (element :: rest) v 0
  | later {element rest v v' i} : Steps element v v' → Stuck rest v' i → Stuck (element :: rest) v (i + 1)

/-- **The loop** yields what RFC 6902 yields, if the account can pay for it. -/
theorem applyOperations_ends (e : Enumeration) {nodeSize : Nat} (hsize : 2 ≤ nodeSize)
    {operations : List Pjson} (hwf : ∀ element ∈ operations, element.WF) (hm : MeasurablePatch operations)
    (operationIndex : Nat) {v : Pjson} {s : Account} (h : Ready nodeSize s v) :
    Ends (applyOperations e nodeSize operationIndex v operations) s
      (fun v' t => s.Keeps t ∧ Ready nodeSize t v' ∧
        ∃ c, Charges nodeSize operations v c v' ∧ t.budget.used = s.budget.used + c)
      (fun _ t => s.Keeps t ∧ (∀ c v', Charges nodeSize operations v c v' → ¬ s.budget.Fits c) ∧
        (t.error.code = .ResourceLimit ∨
          ∃ i, t.error.opIndex = operationIndex + i ∧ Stuck operations v i)) := by
  induction operations generalizing operationIndex v s with
  | nil => exact ⟨.refl h.sound, h, 0, .nil v, (add_zero _).symm⟩
  | cons element operations ih =>
    have hwf' := hwf element List.mem_cons_self
    obtain ⟨r, c, hbills, hfollows⟩ := applyOperation_follows e nodeSize (h.workable hsize) hwf'
      (hm element List.mem_cons_self)
    rw [applyOperations, ends_bind, setError, ends_modify, ends_bind]
    -- The fields of the error are set afresh for each operation, the index with them.
    have hstep := hfollows { s with error := { s.error with
      opIndex := operationIndex, op := [], path := [], from' := [], tokenIndex := 0, token := [], message := "" } }
      h.sound
    refine hstep.mono ?_ ?_
    · rintro v₁ t ⟨rfl, hspent⟩
      have hkeeps : s.Keeps t := ⟨hspent.sound, hspent.limit, hspent.mono, hspent.wrapped, hspent.ledger⟩
      have hused : t.budget.used = s.budget.used + c := hspent.used
      have hready := h.step hwf' hbills hspent.sound hused
      have hrest := ih (fun x hx => hwf x (List.mem_cons_of_mem _ hx))
        (fun x hx => hm x (List.mem_cons_of_mem _ hx)) (operationIndex + 1) hready
      refine hrest.mono ?_ ?_
      · rintro v' u ⟨hkeeps', hready', d, hcharges, hused'⟩
        exact ⟨hkeeps.trans hkeeps', hready', c + d, .cons hbills hcharges,
          by rw [hused', hused, add_assoc]⟩
      · rintro _ u ⟨hkeeps', hunpaid, hcode⟩
        refine ⟨hkeeps.trans hkeeps', ?_, hcode.imp_right ?_⟩
        · intro c' v' hcharges hfits
          cases hcharges with
          | cons hbills' hrest' =>
            obtain ⟨hv, hc⟩ := Bills.unique hbills hbills'
            cases hv
            cases hc rfl
            -- What the head has used is used; the rest has to fit in what is left.
            refine hunpaid _ _ hrest' fun resource => ?_
            rw [hused, hkeeps.limit, Pi.add_apply, Nat.add_assoc]
            exact hfits resource
        · rintro ⟨i, hindex, hstuck⟩
          exact ⟨i + 1, by rw [hindex]; omega, .later ((Bills.steps_iff hbills).mpr rfl) hstuck⟩
    · rintro _ t ⟨honward, hlimit⟩
      refine ⟨⟨honward.sound, honward.limit, honward.mono, honward.wrapped, honward.ledger⟩, ?_, ?_⟩
      · intro c' v' hcharges hfits
        cases hcharges with
        | cons hbills' _ =>
          obtain ⟨rfl, hc⟩ := Bills.unique hbills hbills'
          cases hc rfl
          exact (hlimit rfl).2 (hfits.mono le_self_add)
      -- Either the operation can be applied, and then only the budget stops it, or it cannot.
      · cases r with
        | none =>
          refine Or.inr ⟨0, honward.opIndex, .here fun v' hsteps => ?_⟩
          cases (Bills.steps_iff hbills).mp hsteps
        | some v₁ => exact Or.inl (hlimit rfl).1

/-! ## The function -/

theorem Charges.yields {nodeSize : Nat} {operations : List Pjson} {v v' : Pjson} {c : Cost}
    (h : Charges nodeSize operations v c v') : Yields operations v v' := by
  induction h with
  | nil v => exact .nil v
  | cons hbills _ ih => exact .cons ((Bills.steps_iff hbills).mpr rfl) ih

theorem Charges.unique {nodeSize : Nat} {operations : List Pjson} {v v' v'' : Pjson} {c d : Cost}
    (h : Charges nodeSize operations v c v') (h' : Charges nodeSize operations v d v'') :
    c = d ∧ v' = v'' := by
  induction h generalizing d v'' with
  | nil v =>
    cases h'
    exact ⟨rfl, rfl⟩
  | cons hbills _ ih =>
    cases h' with
    | cons hbills' hrest' =>
      obtain ⟨hv, hc⟩ := Bills.unique hbills hbills'
      cases hv
      cases hc rfl
      obtain ⟨rfl, rfl⟩ := ih hrest'
      exact ⟨rfl, rfl⟩

/-- What a patch costs whose operations cost `c`: they are counted, and the target is copied. -/
def patchCost (nodeSize : Nat) (target : Pjson) (operations : List Pjson) (c : Cost) : Cost :=
  Cost.of .operations operations.length + (cloneCost nodeSize target + c)

/-- The account at the beginning. -/
def opened (aOpts : PatchOptions) : Account := { budget := .ofOptions aOpts, error := {} }

theorem opened_fits {aOpts : PatchOptions} {c : Cost} :
    (opened aOpts).budget.Fits c ↔ ∀ resource, c resource ≤ (aOpts.effective resource).toNat := by
  unfold PatchBudget.Fits
  refine forall_congr' fun resource => ?_
  show 0 + c resource ≤ _ ↔ _
  rw [Nat.zero_add]
  exact Iff.rfl

/-- A target that has been copied is ready. -/
theorem Ready.of_copied {nodeSize : Nat} {s t : Account} {target : Pjson} {c : Cost} (htarget : target.WF)
    (h : Spent s (c + cloneCost nodeSize target) t) : Ready nodeSize t target := by
  refine ⟨htarget, h.sound, ?_, ?_⟩
  · rw [h.used, Pi.add_apply, Pi.add_apply]
    exact (Nat.le_add_left _ _).trans (Nat.le_add_left _ _)
  · rw [h.used, Pi.add_apply, Pi.add_apply]
    exact (Nat.le_add_left _ _).trans (Nat.le_add_left _ _)

/-- The run up to the publication. -/
theorem applyPatchTo_ends (e : Enumeration) {nodeSize : Nat} (hsize : 2 ≤ nodeSize) {target : Pjson}
    (htarget : target.WF) {operations : List Pjson} (hwf : ∀ element ∈ operations, element.WF)
    (hm : MeasurablePatch operations) (aOpts : PatchOptions) :
    Ends (applyPatchTo e nodeSize target (.jsonArray operations)) (opened aOpts)
      (fun v' t => (opened aOpts).Keeps t ∧ Ready nodeSize t v' ∧ ∃ c, Charges nodeSize operations target c v' ∧
        (opened aOpts).budget.Fits (patchCost nodeSize target operations c))
      (fun _ t => (opened aOpts).Keeps t ∧
        (∀ c v', Charges nodeSize operations target c v' →
          ¬ (opened aOpts).budget.Fits (patchCost nodeSize target operations c)) ∧
        (t.error.code = .ResourceLimit ∨ Stuck operations target t.error.opIndex)) := by
  have hfollows := (chargePatch_follows .operations operations.length
    "JSON Patch operation budget exceeded").seq (f := fun _ => measureClone e nodeSize target)
      (measureClone_follows e nodeSize target)
  rw [applyPatchTo, ← bind_assoc, ends_bind]
  have hopened : (opened aOpts).budget.Sound := PatchBudget.sound_ofOptions aOpts
  refine (hfollows (opened aOpts) hopened).mono ?_ ?_
  · rintro _ s ⟨-, hspent⟩
    have hready := Ready.of_copied htarget hspent
    refine (applyOperations_ends e hsize hwf hm 0 hready).mono ?_ ?_
    · rintro v' t ⟨hkeeps, hready', c, hcharges, hused⟩
      refine ⟨hspent.toKeeps.trans hkeeps, hready', c, hcharges, fun resource => ?_⟩
      have hwithin := hready'.sound.within resource
      rw [hused, hspent.used, hkeeps.limit, hspent.limit, add_assoc, add_assoc] at hwithin
      exact hwithin
    · rintro _ t ⟨hkeeps, hunpaid, hcode⟩
      refine ⟨hspent.toKeeps.trans hkeeps, fun c v' hcharges hfits => ?_, hcode.imp_right ?_⟩
      · refine hunpaid c v' hcharges fun resource => ?_
        rw [hspent.used, hspent.limit, ← Pi.add_apply, add_assoc, add_assoc]
        exact hfits resource
      · rintro ⟨i, hindex, hstuck⟩
        rw [hindex, Nat.zero_add]
        exact hstuck
  · rintro _ t ⟨honward, hlimit⟩
    obtain ⟨hcode, hfit⟩ := hlimit rfl
    refine ⟨honward.toKeeps, fun c v' _ hfits => hfit (hfits.mono ?_), Or.inl hcode⟩
    rw [patchCost, ← add_assoc]
    exact le_self_add

end Patch

open Patch

/-- What `applyPatch` promises. -/
structure PatchContract (nodeSize : Nat) (target aPatch : Pjson) (aOpts : PatchOptions)
    (r : PatchResult) : Prop where
  /-- A patch is applied exactly if its operations have a result and its price is within the limits. -/
  applied_iff : r.applied = true ↔ ∃ operations c v', aPatch = .jsonArray operations ∧
    Charges nodeSize operations target c v' ∧
      ∀ resource, patchCost nodeSize target operations c resource ≤ (aOpts.effective resource).toNat
  /-- Then the target is what RFC 6902 yields. -/
  yields : r.applied = true → ∃ operations, aPatch = .jsonArray operations ∧ Yields operations target r.target
  /-- Otherwise it is what it was. -/
  unchanged : r.applied = false → r.target = target
  /-- Unless a limit is in the way, the report names the first operation without a result. -/
  reported : r.applied = false → r.error.code ≠ .ResourceLimit →
    (∀ operations, aPatch ≠ .jsonArray operations) ∧ r.error.code = .InvalidPatchDocument ∨
      ∃ operations, aPatch = .jsonArray operations ∧ Stuck operations target r.error.opIndex

theorem Pjson.textBytes_le_of_find {name : Bytes} {w : Pjson} {members : List (Bytes × Pjson)}
    (h : Assoc.find name members = some w) : w.textBytes ≤ Pjson.textBytesMembers members := by
  have hmem := Assoc.mem_of_find h
  induction members with
  | nil => cases hmem
  | cons m members ih =>
    obtain ⟨k, x⟩ := m
    rw [Pjson.textBytesMembers]
    rw [Assoc.find] at h
    split_ifs at h with hk
    · cases h
      omega
    · have := ih h (Assoc.mem_of_find h)
      omega

theorem Pjson.textBytes_le_of_mem {x : Pjson} {xs : List Pjson} (h : x ∈ xs) :
    x.textBytes ≤ Pjson.textBytesElements xs := by
  induction xs with
  | nil => cases h
  | cons y xs ih =>
    rw [Pjson.textBytesElements]
    rcases List.mem_cons.mp h with rfl | h
    · omega
    · have := ih h
      omega

theorem measurablePatch_of_textBytes {operations : List Pjson}
    (h : (Pjson.jsonArray operations).textBytes + 1 < 2 ^ 64) : MeasurablePatch operations := by
  rintro _ helement members rfl name s hfind
  have hmember := Pjson.textBytes_le_of_find hfind
  have hall := Pjson.textBytes_le_of_mem helement
  have hpatch : Pjson.textBytesElements operations + 1 < 2 ^ 64 := h
  have hobject : Pjson.textBytesMembers members ≤ Pjson.textBytesElements operations := hall
  have htext : s.length ≤ Pjson.textBytesMembers members := hmember
  omega

/-- A run is published if it ends well. -/
theorem publishPatch_of_ends {aOpts : PatchOptions} (target : Pjson) {run : AccountM Pjson}
    {Q : Pjson → Account → Prop} {R : Unit → Account → Prop} (h : Ends run (opened aOpts) Q R) :
    (∃ v t, Q v t ∧ publishPatch aOpts target run = ⟨true, v, {}⟩) ∨
      ∃ t, R () t ∧ publishPatch aOpts target run = ⟨false, target, t.error⟩ := by
  unfold Ends at h
  unfold publishPatch
  cases hrun : run.run (opened aOpts) with
  | ok v t =>
    rw [hrun] at h
    refine Or.inl ⟨v, t, h, ?_⟩
    rw [show run.run { budget := .ofOptions aOpts, error := {} } = .ok v t from hrun]
  | error _ t =>
    rw [hrun] at h
    refine Or.inr ⟨t, h, ?_⟩
    rw [show run.run { budget := .ofOptions aOpts, error := {} } = .error () t from hrun]

/-- How a patch ends: applied at its price, or not applied and for a reason. -/
theorem applyPatch_outcome (e : Enumeration) {nodeSize : Nat} (hsize : 2 ≤ nodeSize) {target aPatch : Pjson}
    (htarget : target.WF) (hpatch : aPatch.WF) (hmemory : aPatch.textBytes + 1 < 2 ^ 64)
    (aOpts : PatchOptions) :
    (∃ operations c v', aPatch = .jsonArray operations ∧ Charges nodeSize operations target c v' ∧
        (∀ resource, patchCost nodeSize target operations c resource ≤ (aOpts.effective resource).toNat) ∧
        target.applyPatch e nodeSize aPatch aOpts = ⟨true, v', {}⟩) ∨
      ∃ error, target.applyPatch e nodeSize aPatch aOpts = ⟨false, target, error⟩ ∧
        (∀ operations c v', aPatch = .jsonArray operations → Charges nodeSize operations target c v' →
          ¬ ∀ resource, patchCost nodeSize target operations c resource ≤ (aOpts.effective resource).toNat) ∧
        (error.code ≠ .ResourceLimit →
          (∀ operations, aPatch ≠ .jsonArray operations) ∧ error.code = .InvalidPatchDocument ∨
            ∃ operations, aPatch = .jsonArray operations ∧ Stuck operations target error.opIndex) := by
  by_cases harray : ∃ operations, aPatch = .jsonArray operations
  · obtain ⟨operations, rfl⟩ := harray
    have hends := applyPatchTo_ends e hsize htarget (Pjson.wf_array.mp hpatch)
      (measurablePatch_of_textBytes hmemory) aOpts
    rcases publishPatch_of_ends target hends with ⟨v', t, ⟨-, -, c, hcharges, hfits⟩, hrun⟩ |
      ⟨t, ⟨-, hunpaid, hcode⟩, hrun⟩
    · exact Or.inl ⟨operations, c, v', rfl, hcharges, opened_fits.mp hfits, hrun⟩
    · refine Or.inr ⟨t.error, hrun, ?_, fun hne => Or.inr ⟨operations, rfl, hcode.resolve_left hne⟩⟩
      rintro operations' c v' heq hcharges hfits
      cases heq
      exact hunpaid c v' hcharges (opened_fits.mpr hfits)
  · have hnot : ∀ operations, aPatch ≠ .jsonArray operations := fun operations h => harray ⟨operations, h⟩
    refine Or.inr ⟨{ ok := false, code := .InvalidPatchDocument, message := "JSON Patch document must be an array" },
      ?_, fun operations _ _ heq => absurd heq (hnot operations), fun _ => Or.inl ⟨hnot, rfl⟩⟩
    cases aPatch with
    | jsonArray operations => exact absurd rfl (hnot operations)
    | _ => rfl

/-- **`applyPatch` is RFC 6902, at its price and atomically.** -/
theorem applyPatch_exact (e : Enumeration) {nodeSize : Nat} (hsize : 2 ≤ nodeSize) {target aPatch : Pjson}
    (htarget : target.WF) (hpatch : aPatch.WF) (hmemory : aPatch.textBytes + 1 < 2 ^ 64)
    (aOpts : PatchOptions) :
    PatchContract nodeSize target aPatch aOpts (target.applyPatch e nodeSize aPatch aOpts) := by
  rcases applyPatch_outcome e hsize htarget hpatch hmemory aOpts with
    ⟨operations, c, v', rfl, hcharges, hfits, hrun⟩ | ⟨error, hrun, hunpaid, hreported⟩
  · rw [hrun]
    exact ⟨iff_of_true rfl ⟨operations, c, v', rfl, hcharges, hfits⟩,
      fun _ => ⟨operations, rfl, Charges.yields hcharges⟩, nofun, nofun⟩
  · rw [hrun]
    refine ⟨iff_of_false Bool.false_ne_true ?_, nofun, fun _ => rfl, fun _ => hreported⟩
    rintro ⟨operations, c, v', heq, hcharges, hfits⟩
    exact hunpaid operations c v' heq hcharges hfits

/-- A patch that appends a null to an array. -/
def appendNull : Pjson := .jsonArray [.jsonObject
  [(ascii "op", .jsonString (ascii "add")), (ascii "path", .jsonString (ascii "/-")), (ascii "value", .jsonNull)]]

theorem wf_emptyArray : (Pjson.jsonArray []).WF := trivial

theorem wf_appendNull : appendNull.WF := by
  refine Pjson.wf_array.mpr fun x hx => ?_
  obtain rfl := List.mem_singleton.mp hx
  exact ⟨by decide, trivial, trivial, trivial, trivial⟩

theorem applyPatch_exact_appendNull : PatchContract 16 (.jsonArray []) appendNull {}
    ((Pjson.jsonArray []).applyPatch .asListed 16 appendNull {}) :=
  applyPatch_exact .asListed (by decide) wf_emptyArray wf_appendNull (by decide) {}

/-- **The order of members does not matter**: two enumerations agree on whether a patch is applied, and on
    the target it leaves. -/
theorem applyPatch_order (e e' : Enumeration) {nodeSize : Nat} (hsize : 2 ≤ nodeSize) {target aPatch : Pjson}
    (htarget : target.WF) (hpatch : aPatch.WF) (hmemory : aPatch.textBytes + 1 < 2 ^ 64)
    (aOpts : PatchOptions) :
    (target.applyPatch e nodeSize aPatch aOpts).applied = (target.applyPatch e' nodeSize aPatch aOpts).applied ∧
      (target.applyPatch e nodeSize aPatch aOpts).target = (target.applyPatch e' nodeSize aPatch aOpts).target := by
  rcases applyPatch_outcome e hsize htarget hpatch hmemory aOpts with
    ⟨operations, c, v, rfl, hcharges, hfits, hrun⟩ | ⟨error, hrun, hunpaid, -⟩
  · rcases applyPatch_outcome e' hsize htarget hpatch hmemory aOpts with
      ⟨operations', c', v', heq, hcharges', -, hrun'⟩ | ⟨-, -, hunpaid', -⟩
    · cases heq
      obtain ⟨-, rfl⟩ := Charges.unique hcharges hcharges'
      rw [hrun, hrun']
      exact ⟨rfl, rfl⟩
    · exact absurd hfits (hunpaid' operations c v rfl hcharges)
  · rcases applyPatch_outcome e' hsize htarget hpatch hmemory aOpts with
      ⟨operations', c', v', heq, hcharges', hfits', -⟩ | ⟨error', hrun', -, -⟩
    · exact absurd hfits' (hunpaid operations' c' v' heq hcharges')
    · rw [hrun, hrun']
      exact ⟨rfl, rfl⟩

/-- Members in the order of a list, and the other way round. -/
theorem applyPatch_order_appendNull :
    ((Pjson.jsonArray []).applyPatch .asListed 16 appendNull {}).applied =
        ((Pjson.jsonArray []).applyPatch ⟨List.reverse, List.reverse_perm⟩ 16 appendNull {}).applied ∧
      ((Pjson.jsonArray []).applyPatch .asListed 16 appendNull {}).target =
        ((Pjson.jsonArray []).applyPatch ⟨List.reverse, List.reverse_perm⟩ 16 appendNull {}).target :=
  applyPatch_order .asListed _ (by decide) wf_emptyArray wf_appendNull (by decide) {}

end ByteDance
