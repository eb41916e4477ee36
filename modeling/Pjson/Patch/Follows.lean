/-
  Programs with a result and a price.

  `Follows x result cost` says what a helper of a patch does to any sound account: if there is a
  result and the account can pay for it, that is what it returns and what it pays; if it fails, there
  is no result or it fails with `ResourceLimit` for want of budget.  The rules follow the syntax of a program, and
  below them stand the helpers that every operation uses.
-/
import Pjson.Patch.Apply
import Pjson.Patch.Cost
import Pjson.Patch.Price

namespace ByteDance

open Run

namespace Patch

/-- What becomes of an account in the course of an operation. -/
structure Onward (s t : Account) : Prop extends s.Keeps t where
  opIndex : t.error.opIndex = s.error.opIndex

/-- `t` is `s` after an operation that cost `c`. -/
structure Spent (s : Account) (c : Cost) (t : Account) : Prop extends Onward s t where
  used : t.budget.used = s.budget.used + c

/-- Nothing spent. -/
theorem Onward.refl {s : Account} (h : s.budget.Sound) : Onward s s where
  toKeeps := .refl h
  opIndex := rfl

/-- One step after the other. -/
theorem Onward.trans {s t u : Account} (h : Onward s t) (h' : Onward t u) : Onward s u where
  toKeeps := h.toKeeps.trans h'.toKeeps
  opIndex := h'.opIndex.trans h.opIndex

/-- Nothing spent, exactly. -/
theorem Spent.zero {s : Account} (h : s.budget.Sound) : Spent s 0 s where
  toOnward := .refl h
  used := (add_zero _).symm

/-- What two steps spend adds up. -/
theorem Spent.trans {s t u : Account} {c d : Cost} (h : Spent s c t) (h' : Spent t d u) :
    Spent s (c + d) u where
  toOnward := h.toOnward.trans h'.toOnward
  used := by rw [h'.used, h.used, add_assoc]

/-- What fits behind a step is what fits together with it before. -/
theorem Spent.fits_iff {s t : Account} {c d : Cost} (h : Spent s c t) :
    t.budget.Fits d ↔ s.budget.Fits (c + d) := by
  unfold PatchBudget.Fits
  rw [h.used, h.limit]
  simp only [Pi.add_apply, Nat.add_assoc]

/-- A charge that has been paid spends its amount. -/
theorem Spent.of_paid {s t : Account} {c : Cost} (h : s.Paid c t) : Spent s c t where
  toKeeps := h.toKeeps
  opIndex := congrArg PatchError.opIndex h.error
  used := h.used

/-- One that has been refused spends nothing that could not be paid. -/
theorem Onward.of_refused {s t : Account} (h : s.Refused t) : Onward s t where
  toKeeps := h.toKeeps
  opIndex := h.opIndex

/-- **The program has this result at this price.** -/
def Follows {α : Type} (x : AccountM α) (result : Option α) (cost : Cost) : Prop :=
  ∀ s : Account, s.budget.Sound → Ends x s (fun a t => result = some a ∧ Spent s cost t)
    fun _ t => Onward s t ∧ (result.isSome → t.error.code = .ResourceLimit ∧ ¬ s.budget.Fits cost)

namespace Follows

variable {α β : Type} {x : AccountM α} {result : Option α} {cost : Cost}

/-- A value costs nothing. -/
theorem pure (a : α) : Follows (pure a : AccountM α) (some a) 0 :=
  fun _ hs => ⟨rfl, .zero hs⟩

/-- One program after the other. -/
theorem bind {f : α → AccountM β} {g : α → Option β} {d : Cost} (hx : Follows x result cost)
    (hf : ∀ a, result = some a → Follows (f a) (g a) d) : Follows (x >>= f) (result.bind g) (cost + d) := by
  intro s hs
  rw [ends_bind]
  refine (hx s hs).mono ?_ ?_
  · rintro a t ⟨rfl, hspent⟩
    refine (hf a rfl t hspent.sound).mono ?_ ?_
    · rintro b u ⟨hb, hspent'⟩
      exact ⟨hb, hspent.trans hspent'⟩
    · rintro _ u ⟨honward, hlimit⟩
      refine ⟨hspent.toOnward.trans honward, fun hsome => ?_⟩
      obtain ⟨hcode, hfit⟩ := hlimit hsome
      exact ⟨hcode, fun h => hfit (hspent.fits_iff.mpr h)⟩
  · rintro _ t ⟨honward, hlimit⟩
    refine ⟨honward, fun hsome => ?_⟩
    have hresult : result.isSome := by
      cases result with
      | none => cases hsome
      | some a => rfl
    obtain ⟨hcode, hfit⟩ := hlimit hresult
    exact ⟨hcode, fun h => hfit (h.mono le_self_add)⟩

/-- A step whose value is not looked at. -/
theorem seq {f : Unit → AccountM β} {x : AccountM Unit} {result : Option β} {d : Cost}
    (hx : Follows x (some ()) cost) (hf : Follows (f ()) result d) : Follows (x >>= f) result (cost + d) :=
  hx.bind (g := fun _ => result) fun _ _ => hf

/-- A step that costs nothing. -/
theorem free {f : α → AccountM β} {a : α} {result : Option β} (hx : Follows x (some a) 0)
    (hf : Follows (f a) result cost) : Follows (x >>= f) result cost := by
  rw [← zero_add cost]
  refine hx.bind (g := fun _ => result) fun b hb => ?_
  cases hb
  exact hf

/-- Without a result there is no price. -/
theorem congr {result' : Option α} {cost' : Cost} (h : Follows x result cost) (hr : result' = result)
    (hc : result.isSome → cost' = cost) : Follows x result' cost' := by
  subst hr
  intro s hs
  refine (h s hs).mono ?_ ?_
  · rintro a t ⟨rfl, hspent⟩
    rw [hc rfl]
    exact ⟨rfl, hspent⟩
  · rintro _ t ⟨honward, hlimit⟩
    refine ⟨honward, fun hsome => ?_⟩
    rw [hc hsome]
    exact hlimit hsome

/-- A program that follows a failure fails, whatever is left in the budget. -/
theorem none_iff : Follows x none cost ↔ ∀ s : Account, s.budget.Sound →
    Ends x s (fun _ _ => False) fun _ t => Onward s t := by
  refine forall₂_congr fun s hs => ⟨fun h => ?_, fun h => ?_⟩
  · refine h.mono ?_ fun _ _ h => h.1
    rintro _ _ ⟨h, -⟩
    cases h
  · exact h.mono (fun _ _ h => h.elim) fun _ _ h => ⟨h, fun hsome => by cases hsome⟩

/-- A program that has no result has it at every price. -/
theorem fails (h : Follows x none cost) (cost' : Cost) : Follows x none cost' := none_iff.mpr (none_iff.mp h)

/-- What comes after such a program does not matter. -/
theorem stop {f : α → AccountM β} (h : Follows x none cost) (cost' : Cost) : Follows (x >>= f) none cost' :=
  (h.bind (g := fun _ => none) (d := 0) fun _ ha => by cases ha).fails cost'

end Follows

/-! ## Steps -/

/-- A failure follows a failure at any price. -/
theorem failPatch_follows {α : Type} (code : PatchError.Code) (message : String) (cost : Cost) :
    Follows (failPatch code message : AccountM α) none cost :=
  Follows.none_iff.mpr fun _ hs => ⟨⟨hs, rfl, fun _ => le_rfl, rfl, fun _ hb => Or.inl hb⟩, rfl⟩

/-- So does one at a token. -/
theorem failPatchAtToken_follows {α : Type} (code : PatchError.Code) (tokenIndex : Nat) (token : Bytes)
    (message : String) (cost : Cost) :
    Follows (failPatchAtToken code tokenIndex token message : AccountM α) none cost :=
  Follows.none_iff.mpr fun _ hs => ⟨⟨hs, rfl, fun _ => le_rfl, rfl, fun _ hb => Or.inl hb⟩, rfl⟩

/-- What is entered into the error beforehand costs nothing. -/
theorem setError_follows {f : PatchError → PatchError} (hf : ∀ e, (f e).opIndex = e.opIndex) :
    Follows (setError f) (some ()) 0 := fun s hs =>
  ⟨rfl, ⟨⟨⟨hs, rfl, fun _ => le_rfl, rfl, fun _ hb => Or.inl hb⟩, hf s.error⟩, (add_zero _).symm⟩⟩

/-- A sum that does not overflow is computed. -/
theorem addSize_follows {a b : Nat} (h : a + b < 2 ^ 64) : Follows (addSize a b) (some (a + b)) 0 := by
  intro s hs
  unfold Ends
  rw [addSize_run h]
  exact ⟨rfl, .zero hs⟩

/-- So is a difference that is not negative. -/
theorem subSize_follows {a b : Nat} (h : b ≤ a) (ha : a < 2 ^ 64) :
    Follows (subSize a b) (some (a - b)) 0 := by
  intro s hs
  unfold Ends
  rw [subSize_run h ha]
  exact ⟨rfl, .zero hs⟩

/-- A program of a fixed price, as a step of an operation. -/
theorem follows_of_costs {x : AccountM Unit} {c : Cost}
    (h : Costs (fun _ => True) x c fun _ d => d = c) : Follows x (some ()) c := by
  intro s hs
  refine (h s hs).mono ?_ ?_
  · rintro _ t ⟨d, hpaid, rfl⟩
    exact ⟨rfl, Spent.of_paid hpaid⟩
  · rintro _ t ⟨-, hrefused, hfit⟩
    exact ⟨Onward.of_refused hrefused, fun _ => ⟨hrefused.code, hfit⟩⟩

/-- A charge costs its amount. -/
theorem chargePatch_follows (r : Resource) (amount : Nat) (message : String) :
    Follows (chargePatch r amount message) (some ()) (Cost.of r amount) :=
  follows_of_costs (chargePatch_costs r amount message)

/-- The measure of a value charges what a clone of it costs. -/
theorem measureClone_follows (e : Enumeration) (nodeSize : Nat) (value : Pjson) :
    Follows (measureClone e nodeSize value) (some ()) (cloneCost nodeSize value) :=
  follows_of_costs (measureClone_costs e nodeSize value)

/-! ## Pointers -/

/-- A text that is decoded: its tokens, if it is a pointer. -/
theorem decodePatchPointer_follows {pointer : Bytes} (h : pointer.length + 1 < 2 ^ 64) (bFrom : Bool) :
    Follows (decodePatchPointer pointer bFrom) (decodePointer pointer).toOption
      (Cost.of .work (pointer.length + 1)) := by
  unfold decodePatchPointer
  refine (addSize_follows h).free ?_
  rw [← add_zero (Cost.of .work _)]
  refine (chargePatch_follows _ _ _).seq ?_
  cases decodePointer pointer with
  | ok tokens => exact .pure tokens
  | error e => exact failPatchAtToken_follows _ _ _ _ _

/-- Tokens that are followed: the place they lead to, if there is one. -/
theorem resolvePatchTokens_follows {root : Pjson} (hroot : root.Addressable) (tokens : List Bytes)
    {count : Nat} (hcount : count + 1 < 2 ^ 64) (pointer : Bytes) :
    Follows (resolvePatchTokens root tokens count pointer) (Rfc6901.locate (tokens.take count) root)
      (resolveCost count) := by
  unfold resolvePatchTokens
  refine (addSize_follows hcount).free ?_
  rw [← add_zero (resolveCost count)]
  refine (chargePatch_follows _ _ _).seq ?_
  cases hresolve : resolvePointerTokens root tokens count pointer with
  | ok loc =>
    rw [(resolvePointerTokens_ok_iff hroot).mp hresolve]
    exact .pure loc
  | error e =>
    have hnone : Rfc6901.locate (tokens.take count) root = none := by
      refine Option.eq_none_iff_forall_ne_some.mpr fun loc hloc => ?_
      rw [(resolvePointerTokens_ok_iff hroot).mpr hloc] at hresolve
      cases hresolve
    rw [hnone]
    exact failPatchAtToken_follows _ _ _ _ _

/-- The place in an array a token stands for: one of its elements, or the place of a new one. -/
def arrayPlace (bAllowAppend : Bool) (length : Nat) (token : Bytes) : Option Nat :=
  if token = ascii "-" then (if bAllowAppend then some length else none)
  else (Rfc6901.arrayIndex token).bind fun index =>
    if index < (if bAllowAppend then length + 1 else length) then some index else none

theorem ascii_append : ascii "-" = [0x2D] := by decide

/-- A token is an index where the specification says so, and of that place. -/
theorem patchArrayIndex_follows {parent : List Pjson} (hparent : parent.length < 2 ^ 64) (token : Bytes)
    (bAllowAppend : Bool) (tokenIndex : Nat) :
    Follows (patchArrayIndex parent token bAllowAppend tokenIndex)
      ((arrayPlace bAllowAppend parent.length token).map fun index => (index, decide (token = ascii "-")))
      0 := by
  unfold patchArrayIndex arrayPlace
  rw [ascii_append]
  by_cases happend : token = [0x2D]
  · rw [if_pos happend, if_pos happend, decide_eq_true happend]
    cases bAllowAppend with
    | true => exact .pure _
    | false => exact failPatchAtToken_follows _ _ _ _ _
  rw [if_neg happend, if_neg happend, decide_eq_false happend]
  -- an index the parser gives up on is out of range, if it is one
  have hnone : (∀ index, parsePointerIndex token ≠ .PointerIndexOk index) →
      (Rfc6901.arrayIndex token).bind (fun index =>
        if index < (if bAllowAppend then parent.length + 1 else parent.length) then some index
        else none) = none := by
    intro hparse
    refine Option.bind_eq_none_iff.mpr fun index hindex => ?_
    have hlarge : 2 ^ 64 ≤ index := by
      by_contra hlt
      exact hparse index (parsePointerIndex_ok_iff.mpr ⟨hindex, not_le.mp hlt⟩)
    refine if_neg (not_lt.mpr ?_)
    cases bAllowAppend with
    | true => exact hparent.trans_le hlarge
    | false => exact (hparent.trans_le hlarge).le
  cases hparse : parsePointerIndex token with
  | PointerIndexInvalid =>
    rw [hnone fun index h => by rw [hparse] at h; cases h]
    exact failPatchAtToken_follows _ _ _ _ _
  | PointerIndexOverflow =>
    rw [hnone fun index h => by rw [hparse] at h; cases h]
    exact failPatchAtToken_follows _ _ _ _ _
  | PointerIndexOk index =>
    rw [(parsePointerIndex_ok_iff.mp hparse).1, Option.bind_some]
    dsimp only
    have hrange : (if bAllowAppend then parent.length < index else parent.length ≤ index) ↔
        ¬ index < (if bAllowAppend then parent.length + 1 else parent.length) := by
      rw [not_lt]
      cases bAllowAppend <;> exact Iff.rfl
    by_cases hlt : index < (if bAllowAppend then parent.length + 1 else parent.length)
    · rw [if_neg fun h => hrange.mp h hlt, if_pos hlt]
      exact .pure _
    · rw [if_pos (hrange.mpr hlt), if_neg hlt]
      exact failPatchAtToken_follows _ _ _ _ _

end Patch

end ByteDance
