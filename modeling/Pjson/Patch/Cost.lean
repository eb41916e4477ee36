/-
  Programs with an exact price.

  `Costs x needs Q` says what an account program does to any sound account: either it returns,
  and what it returned and what it paid are related by `Q`, or it refuses with `ResourceLimit`,
  and then the account could not have paid `needs`.  Prices add up along a sequence
  (`Costs.bind`) and over a work list (`Visitor.drain_costs`), so whether a program fits a budget
  is a matter of one sum and not of the order in which it pays.
-/
import Pjson.Lib.WorkList
import Pjson.Patch.Budget

namespace ByteDance

open Run

/-- An amount of each resource. -/
abbrev Cost := Resource → Nat

/-- The cost of a single charge. -/
def Cost.of (r : Resource) (amount : Nat) : Cost := Pi.single r amount

/-- The budget can pay a cost. -/
def PatchBudget.Fits (b : PatchBudget) (c : Cost) : Prop := ∀ r, b.used r + c r ≤ b.limit r

theorem PatchBudget.Fits.mono {b : PatchBudget} {c d : Cost} (h : b.Fits d) (hle : c ≤ d) :
    b.Fits c := fun r => (Nat.add_le_add_left (hle r) _).trans (h r)

/-- The part of the account every program of this file keeps. -/
structure Account.Keeps (s t : Account) : Prop where
  sound : t.budget.Sound
  limit : t.budget.limit = s.budget.limit
  mono : ∀ r, s.budget.used r ≤ t.budget.used r
  wrapped : t.wrapped = s.wrapped
  ledger : ∀ b ∈ t.ledger, b ∈ s.ledger ∨ (b.Sound ∧ b.limit = s.budget.limit)

theorem Account.Keeps.refl {s : Account} (h : s.budget.Sound) : s.Keeps s where
  sound := h
  limit := rfl
  mono _ := le_rfl
  wrapped := rfl
  ledger _ hb := Or.inl hb

theorem Account.Keeps.trans {s t u : Account} (h : s.Keeps t) (h' : t.Keeps u) : s.Keeps u where
  sound := h'.sound
  limit := h'.limit.trans h.limit
  mono r := (h.mono r).trans (h'.mono r)
  wrapped := h'.wrapped.trans h.wrapped
  ledger b hb := by
    rcases h'.ledger b hb with hb | hb
    · exact h.ledger b hb
    · exact Or.inr ⟨hb.1, hb.2.trans h.limit⟩

/-- `t` is `s` after paying `c`. -/
structure Account.Paid (s : Account) (c : Cost) (t : Account) : Prop extends s.Keeps t where
  used : t.budget.used = s.budget.used + c
  error : t.error = s.error

/-- `t` is `s` after a refused payment. -/
structure Account.Refused (s t : Account) : Prop extends s.Keeps t where
  code : t.error.code = .ResourceLimit
  opIndex : t.error.opIndex = s.error.opIndex

theorem Account.Paid.zero {s : Account} (h : s.budget.Sound) : s.Paid 0 s where
  toKeeps := .refl h
  used := (add_zero _).symm
  error := rfl

theorem Account.Paid.trans {s t u : Account} {c d : Cost} (h : s.Paid c t) (h' : t.Paid d u) :
    s.Paid (c + d) u where
  toKeeps := h.toKeeps.trans h'.toKeeps
  used := by rw [h'.used, h.used, add_assoc]
  error := h'.error.trans h.error

theorem Account.Paid.refused {s t u : Account} {c : Cost} (h : s.Paid c t) (h' : t.Refused u) :
    s.Refused u where
  toKeeps := h.toKeeps.trans h'.toKeeps
  code := h'.code
  opIndex := h'.opIndex.trans (congrArg PatchError.opIndex h.error)

/-- What is left after a payment fits exactly if the sum fits. -/
theorem Account.Paid.fits_iff {s t : Account} {c d : Cost} (h : s.Paid c t) :
    t.budget.Fits d ↔ s.budget.Fits (c + d) := by
  unfold PatchBudget.Fits
  rw [h.used, h.limit]
  simp only [Pi.add_apply, Nat.add_assoc]

/-- **The price of a program**: failures in `refusal` are refused payments, and there are no
    others. -/
def Costs {ε α : Type} (refusal : ε → Prop) (x : EStateM ε Account α) (needs : Cost)
    (Q : α → Cost → Prop) : Prop :=
  ∀ s : Account, s.budget.Sound → Ends x s (fun a t => ∃ c, s.Paid c t ∧ Q a c)
    (fun e t => refusal e ∧ s.Refused t ∧ ¬ s.budget.Fits needs)

namespace Costs

variable {ε α β : Type} {refusal : ε → Prop} {needs : Cost}

theorem pure {a : α} {Q : α → Cost → Prop} (h : Q a 0) :
    Costs refusal (pure a : EStateM ε Account α) needs Q :=
  fun _ hs => ⟨0, .zero hs, h⟩

theorem mono {x : EStateM ε Account α} {n : Cost} {Q Q' : α → Cost → Prop}
    (h : Costs refusal x n Q) (hle : n ≤ needs) (hQ : ∀ a c, Q a c → Q' a c) :
    Costs refusal x needs Q' := fun s hs =>
  (h s hs).mono (fun a _ ⟨c, hpaid, hq⟩ => ⟨c, hpaid, hQ a c hq⟩)
    (fun _ _ ⟨hr, href, hfit⟩ => ⟨hr, href, fun hneeds => hfit (hneeds.mono hle)⟩)

/-- One program after the other: each needs its part of the whole. -/
theorem bind {x : EStateM ε Account α} {f : α → EStateM ε Account β} {n : Cost}
    {Q : α → Cost → Prop} {P : β → Cost → Prop} (hx : Costs refusal x n Q) (hle : n ≤ needs)
    (hf : ∀ a c, Q a c → ∃ m, c + m ≤ needs ∧ Costs refusal (f a) m fun b d => P b (c + d)) :
    Costs refusal (x >>= f) needs P := by
  intro s hs
  rw [ends_bind]
  refine (hx s hs).mono ?_ ?_
  · rintro a t ⟨c, hpaid, hq⟩
    obtain ⟨m, hm, hfa⟩ := hf a c hq
    refine (hfa t hpaid.sound).mono ?_ ?_
    · rintro b u ⟨d, hpaid', hp⟩
      exact ⟨c + d, hpaid.trans hpaid', hp⟩
    · rintro e u ⟨hr, href, hfit⟩
      exact ⟨hr, hpaid.refused href, fun hneeds => hfit (hpaid.fits_iff.mpr (hneeds.mono hm))⟩
  · rintro e t ⟨hr, href, hfit⟩
    exact ⟨hr, href, fun hneeds => hfit (hneeds.mono hle)⟩

/-- A program of a fixed price, and what comes after it. -/
theorem seq {x : EStateM ε Account α} {f : α → EStateM ε Account β} {n m : Cost}
    {P : β → Cost → Prop} (hx : Costs refusal x n fun _ c => c = n)
    (hf : ∀ a, Costs refusal (f a) m fun b d => P b (n + d)) :
    Costs refusal (x >>= f) (n + m) P :=
  hx.bind le_self_add fun a c hc => ⟨m, by rw [hc], by rw [hc]; exact hf a⟩

end Costs

theorem chargePatch_costs (r : Resource) (amount : Nat) (message : String) :
    Costs (fun _ => True) (chargePatch r amount message) (Cost.of r amount)
      fun _ c => c = Cost.of r amount := by
  intro s hs
  have hfits : s.budget.Fits (Cost.of r amount) ↔ s.budget.used r + amount ≤ s.budget.limit r := by
    constructor
    · intro h
      simpa [Cost.of] using h r
    · intro h r'
      by_cases he : r' = r
      · subst he
        simpa [Cost.of] using h
      · simpa [Cost.of, he] using hs.within r'
  have hrun := chargePatch_run hs r amount message
  unfold Ends
  by_cases hfit : s.budget.used r + amount ≤ s.budget.limit r
  · rw [hrun, if_pos hfit]
    have hused : Function.update s.budget.used r (s.budget.used r + amount) =
        s.budget.used + Cost.of r amount := by
      funext r'
      by_cases he : r' = r
      · subst he
        simp [Cost.of]
      · simp [Cost.of, he]
    have hsound : PatchBudget.Sound { s.budget with
        used := Function.update s.budget.used r (s.budget.used r + amount) } := by
      refine ⟨fun r' => ?_, hs.sizes⟩
      dsimp only
      rw [hused]
      exact hfits.mpr hfit r'
    refine ⟨_, ⟨⟨hsound, rfl, fun r' => ?_, rfl, ?_⟩, hused, rfl⟩, rfl⟩
    · show s.budget.used r' ≤ Function.update s.budget.used r (s.budget.used r + amount) r'
      rw [hused]
      exact Nat.le_add_right _ _
    · intro b hb
      rcases List.mem_cons.mp hb with rfl | hb
      · exact Or.inr ⟨hsound, rfl⟩
      · exact Or.inl hb
  · rw [hrun, if_neg hfit]
    exact ⟨trivial, ⟨⟨hs, rfl, fun _ => le_rfl, rfl, fun _ hb => Or.inl hb⟩, rfl, rfl⟩,
      fun h => hfit (hfits.mp h)⟩

/-- **The price of a work list** is the sum of the prices of its items, when a visit pays its item
    up to what the items it pushes cost. -/
theorem Visitor.drain_costs {ε α : Type} {refusal : ε → Prop} (V : Visitor ε Account α)
    (Valid : α → Prop) (cost : α → Cost)
    (hvisit : ∀ a, Valid a → Costs refusal (V.visit a) (cost a) fun pushed c =>
      (∀ b ∈ pushed, Valid b) ∧ c + (pushed.map cost).sum = cost a)
    {work : List α} (hvalid : ∀ a ∈ work, Valid a) :
    Costs refusal (V.drain work) (work.map cost).sum fun _ c => c = (work.map cost).sum := by
  intro s hs
  have hloop := V.drain_ends
    (J := fun left t => (∀ a ∈ left, Valid a) ∧
      ∃ c, s.Paid c t ∧ c + (left.map cost).sum = (work.map cost).sum)
    (R := fun e t => refusal e ∧ s.Refused t ∧ ¬ s.budget.Fits (work.map cost).sum) ?_
    (s := s) ⟨hvalid, 0, .zero hs, zero_add _⟩
  · refine hloop.mono ?_ (fun _ _ h => h)
    rintro _ t ⟨-, c, hpaid, hc⟩
    exact ⟨c, hpaid, by simpa using hc⟩
  · rintro a rest t ⟨hleft, c, hpaid, hc⟩
    rw [List.map_cons, List.sum_cons] at hc
    refine (hvisit a (hleft a List.mem_cons_self) t hpaid.sound).mono ?_ ?_
    · rintro pushed u ⟨d, hpaid', hpushed, hd⟩
      refine ⟨fun b hb => ?_, c + d, hpaid.trans hpaid', ?_⟩
      · rcases List.mem_append.mp hb with hb | hb
        · exact hpushed b (List.mem_reverse.mp hb)
        · exact hleft b (List.mem_cons_of_mem _ hb)
      · rw [List.map_append, List.sum_append, List.map_reverse, List.sum_reverse, ← hc, ← hd]
        simp only [add_assoc]
    · rintro e u ⟨hr, href, hfit⟩
      refine ⟨hr, hpaid.refused href, fun hneeds => hfit (hpaid.fits_iff.mpr (hneeds.mono ?_))⟩
      rw [← hc, ← add_assoc]
      exact le_self_add

end ByteDance
