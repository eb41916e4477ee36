/-
  What the comparison of a `test` operation costs.

  The loop of `patchEqual` stops at the first difference, and which one that is depends on the order
  of the members.  A comparison of equal values has no such end: it pays `equalWork`, whatever the
  order, or it fails because the account cannot.  One pass over the loop (`visitEqual_tries`) says so
  for a turn, `patchEqual_follows` for the operation.
-/
import Pjson.Patch.Follows

namespace ByteDance

open Run

namespace Patch

/-! ## Comparisons that may end early -/

/-- A comparison pays for what it returns; out of budget, it could not have shown `same` at the price
    of `needs`. -/
def Tries {α : Type} (x : EStateM EqualExit Account α) (same : Prop) (needs : Cost)
    (Q : α → Cost → Prop) : Prop :=
  ∀ s : Account, s.budget.Sound → Ends x s (fun a t => ∃ c, Spent s c t ∧ Q a c) fun exit t =>
    Onward s t ∧ (exit = .unequal → ¬ same) ∧
      (exit = .failed → t.error.code = .ResourceLimit ∧ (same → ¬ s.budget.Fits needs))

namespace Tries

variable {α β : Type} {same : Prop} {needs : Cost}

theorem pure {a : α} {Q : α → Cost → Prop} (h : Q a 0) :
    Tries (pure a : EStateM EqualExit Account α) same needs Q :=
  fun _ hs => ⟨0, .zero hs, h⟩

theorem unequal {Q : α → Cost → Prop} (h : ¬ same) :
    Tries (throw .unequal : EStateM EqualExit Account α) same needs Q :=
  fun _ hs => ⟨.refl hs, fun _ => h, fun hx => by cases hx⟩

/-- A payment in front; the rest is looked at for what the payment leaves. -/
theorem seq {x : AccountM Unit} {f : Unit → EStateM EqualExit Account β} {n m : Cost}
    {P : β → Cost → Prop} (hx : Follows x (some ()) n) (hle : same → n ≤ needs)
    (hm : same → n + m ≤ needs) (hf : Tries (f ()) same m fun b d => P b (n + d)) :
    Tries (budgeted x >>= f) same needs P := by
  intro s hs
  unfold budgeted
  rw [ends_bind, ends_adaptExcept]
  refine (hx s hs).mono ?_ ?_
  · rintro _ t ⟨-, hspent⟩
    refine (hf t hspent.sound).mono ?_ ?_
    · rintro b u ⟨d, hspent', hb⟩
      exact ⟨n + d, hspent.trans hspent', hb⟩
    · rintro exit u ⟨honward, hunequal, hfailed⟩
      refine ⟨hspent.toOnward.trans honward, hunequal, fun hexit => ?_⟩
      obtain ⟨hcode, hfit⟩ := hfailed hexit
      exact ⟨hcode, fun h hneeds => hfit h (hspent.fits_iff.mpr (hneeds.mono (hm h)))⟩
  · rintro _ t ⟨honward, hlimit⟩
    obtain ⟨hcode, hfit⟩ := hlimit rfl
    refine ⟨honward, fun hexit => ?_, fun _ => ⟨hcode, fun h hneeds => hfit (hneeds.mono (hle h))⟩⟩
    cases hexit

theorem mono {x : EStateM EqualExit Account α} {Q Q' : α → Cost → Prop} {same' : Prop} {needs' : Cost}
    (h : Tries x same needs Q) (hsame : same' → same) (hle : same' → needs ≤ needs')
    (hQ : ∀ a c, Q a c → Q' a c) : Tries x same' needs' Q' := fun s hs =>
  (h s hs).mono (fun a _ ⟨c, hspent, hq⟩ => ⟨c, hspent, hQ a c hq⟩)
    fun _ _ ⟨honward, hunequal, hfailed⟩ => ⟨honward, fun hexit h' => hunequal hexit (hsame h'),
      fun hexit => ⟨(hfailed hexit).1, fun h' hneeds =>
        (hfailed hexit).2 (hsame h') (hneeds.mono (hle h'))⟩⟩

end Tries

/-! ## A turn of the loop -/

/-- What a pair of equal values costs. -/
def pairCost (p : Pair) : Cost := Cost.of .work p.1.equalWork

theorem sum_pairCost (pushed : List Pair) :
    (pushed.map pairCost).sum = Cost.of .work (pushed.map fun q => q.1.equalWork).sum := by
  induction pushed with
  | nil => simp [Cost.of]
  | cons q pushed ih =>
    rw [List.map_cons, List.map_cons, List.sum_cons, List.sum_cons, ih]
    exact (Pi.single_add _ _ _).symm

theorem work_add (m n : Nat) : Cost.of .work m + Cost.of .work n = Cost.of .work (m + n) :=
  (Pi.single_add _ _ _).symm

theorem work_le {m n : Nat} (h : m ≤ n) : Cost.of .work m ≤ Cost.of .work n :=
  Pi.single_le_single.mpr h

theorem equalWorkElements_eq_sum : ∀ xs : List Pjson,
    Pjson.equalWorkElements xs = (xs.map Pjson.equalWork).sum
  | [] => rfl
  | x :: xs => by
      rw [Pjson.equalWorkElements, List.map_cons, List.sum_cons, equalWorkElements_eq_sum xs]

/-- What is paid to find the members of one object in another. -/
def lookupWork (ms : List (Bytes × Pjson)) : Nat := (ms.map fun m => m.1.length + 1).sum

theorem equalWorkMembers_eq_sum : ∀ ms : List (Bytes × Pjson),
    Pjson.equalWorkMembers ms = lookupWork ms + (ms.map fun m => m.2.equalWork).sum
  | [] => rfl
  | (k, x) :: ms => by
      rw [Pjson.equalWorkMembers, equalWorkMembers_eq_sum ms, lookupWork, lookupWork, List.map_cons,
        List.map_cons, List.sum_cons, List.sum_cons]
      dsimp only
      omega

theorem Paired.equalWork {ns ms : List (Bytes × Pjson)} {pushed : List Pair} (h : Paired ns ms pushed) :
    (pushed.map fun q => q.1.equalWork).sum = (ms.map fun m => m.2.equalWork).sum := by
  induction h with
  | nil => rfl
  | cons hq _ ih => rw [List.map_cons, List.sum_cons, List.map_cons, List.sum_cons, ih, hq.1]

theorem pairMembers_tries (r ms : List (Bytes × Pjson)) (hms : lookupWork ms < 2 ^ 64) :
    Tries (pairMembers r ms) (∀ m ∈ ms, (Assoc.find m.1 r).isSome) (Cost.of .work (lookupWork ms))
      fun pushed c => Paired r ms pushed ∧ c = Cost.of .work (lookupWork ms) := by
  induction ms with
  | nil => exact Tries.pure ⟨List.Forall₂.nil, by simp [lookupWork, Cost.of]⟩
  | cons m ms ih =>
    obtain ⟨key, value⟩ := m
    have hsum : lookupWork ((key, value) :: ms) = key.length + 1 + lookupWork ms := by
      rw [lookupWork, List.map_cons, List.sum_cons]
      rfl
    rw [hsum] at hms ⊢
    rw [pairMembers]
    have hpay : Follows (do chargePatch .work (← addSize key.length 1) workMessage) (some ())
        (Cost.of .work (key.length + 1)) :=
      (addSize_follows (by omega)).free (chargePatch_follows _ _ _)
    refine Tries.seq (m := Cost.of .work (lookupWork ms)) hpay (fun _ => work_le (by omega))
      (fun _ => (work_add _ _).le) ?_
    cases hfind : Assoc.find key r with
    | none =>
      refine Tries.unequal fun hall => ?_
      have hsome := hall (key, value) List.mem_cons_self
      rw [hfind] at hsome
      cases hsome
    | some matching =>
      intro s hs
      rw [ends_bind]
      have hfewer : (∀ m ∈ (key, value) :: ms, (Assoc.find m.1 r).isSome) →
          ∀ m ∈ ms, (Assoc.find m.1 r).isSome := fun h m hm => h m (List.mem_cons_of_mem _ hm)
      have hrest := (ih (by omega)).mono hfewer (fun _ => le_rfl) (fun _ _ h => h)
      refine (hrest s hs).mono ?_ fun _ _ h => h
      rintro pushed t ⟨c, hspent, hpaired, rfl⟩
      exact ⟨_, hspent, List.Forall₂.cons ⟨rfl, hfind⟩ hpaired, work_add _ _⟩

/-- **A turn of the loop** pays what an equal pair costs, up to what the pairs it pushes cost. -/
theorem visitEqual_tries (e : Enumeration) {p : Pair} (hp : p.1.equalWork < 2 ^ 64) (hl : p.1.WF)
    (hr : p.2.WF) : Tries (visitEqual e p) (Same p.1 p.2) (pairCost p) fun pushed c =>
      c + (pushed.map pairCost).sum = pairCost p := by
  obtain ⟨l, r⟩ := p
  dsimp only at hp hl hr
  have hpos : 1 ≤ l.equalWork := by
    cases l <;> simp only [Pjson.equalWork] <;> omega
  unfold visitEqual
  -- The unit that every visited pair costs is charged before anything is looked at.
  refine Tries.seq (m := Cost.of .work (l.equalWork - 1)) (chargePatch_follows _ _ _)
    (fun _ => work_le hpos) (fun _ => ?_) ?_
  · rw [work_add]
    refine work_le ?_
    show 1 + (l.equalWork - 1) ≤ l.equalWork
    omega
  -- A pair that pushes nothing has cost its unit and no more.
  have hleaf : l.equalWork = 1 → Cost.of .work 1 + 0 + (([] : List Pair).map pairCost).sum = pairCost (l, r) := by
    intro h
    rw [pairCost, h]
    exact add_zero _
  induction l, r using pair_cases with
  | numbers l r hln hrn =>
    simp only [hln, hrn, Bool.and_self, if_true]
    have hone : l.equalWork = 1 := by
      cases l <;> first | rfl | cases hln
    by_cases hcmp : compareNumbers l r = 0
    · rw [if_neg (not_not.mpr hcmp)]
      exact Tries.pure (hleaf hone)
    · rw [if_pos hcmp]
      exact Tries.unequal fun h => hcmp ((same_numbers_iff hln hrn).mp h)
  | types l r hnum htype =>
    simp only [hnum, if_pos htype]
    exact Tries.unequal (not_same_of_getType_ne hnum htype)
  | null => exact Tries.pure (hleaf rfl)
  | string x y =>
    show Tries (budgeted (chargePatch .work (max x.length y.length) workMessage) >>= fun _ =>
      if x ≠ y then throw .unequal else pure []) _ _ _
    by_cases hxy : x = y
    · subst hxy
      -- Equal texts have one length, so the charge is the price of the left one.
      rw [max_self]
      refine Tries.seq (m := 0) (chargePatch_follows _ _ _) (fun _ => ?_) (fun _ => ?_) ?_
      · exact work_le (by rw [Pjson.equalWork]; omega)
      · rw [add_zero]
        exact work_le (by rw [Pjson.equalWork]; omega)
      · rw [if_neg (not_not.mpr rfl)]
        refine Tries.pure ?_
        rw [add_zero, work_add, List.map_nil, List.sum_nil, add_zero]
        rfl
    · have hnot : ¬ Same (.jsonString x) (.jsonString y) := fun h => hxy (same_string_iff.mp h)
      refine Tries.seq (m := 0) (chargePatch_follows _ _ _) (fun h => absurd h hnot)
        (fun h => absurd h hnot) ?_
      rw [if_pos hxy]
      exact Tries.unequal hnot
  | boolean b c =>
    show Tries (if b ≠ c then throw EqualExit.unequal else pure []) _ _ _
    by_cases hbc : b = c
    · rw [if_neg (not_not.mpr hbc)]
      exact Tries.pure (hleaf rfl)
    · rw [if_pos hbc]
      exact Tries.unequal fun h => hbc (same_boolean_iff.mp h)
  | array xs ys =>
    show Tries (if xs.length ≠ ys.length then throw EqualExit.unequal else pure (xs.zip ys)) _ _ _
    by_cases hlen : xs.length = ys.length
    · rw [if_neg (not_not.mpr hlen)]
      refine Tries.pure ?_
      have hfst : (xs.zip ys).map (fun q => q.1.equalWork) = xs.map Pjson.equalWork := by
        rw [show (fun q : Pair => q.1.equalWork) = Pjson.equalWork ∘ Prod.fst from rfl, ← List.map_map,
          List.map_fst_zip hlen.le]
      rw [add_zero, sum_pairCost, hfst, ← equalWorkElements_eq_sum, work_add]
      rfl
    · rw [if_pos hlen]
      exact Tries.unequal fun h => hlen (same_array_iff.mp h).1
  | object ms ns =>
    show Tries (if ms.length ≠ ns.length then throw .unequal else pairMembers ns (e.order ms)) _ _ _
    by_cases hlen : ms.length = ns.length
    · rw [if_neg (not_not.mpr hlen)]
      -- The price is a sum over the members, so their order does not matter.
      have hlookup : lookupWork (e.order ms) = lookupWork ms := ((e.perm ms).map _).sum_eq
      have hchildren : ((e.order ms).map fun m => m.2.equalWork).sum = (ms.map fun m => m.2.equalWork).sum :=
        ((e.perm ms).map _).sum_eq
      have hwork : (Pjson.jsonObject ms).equalWork =
          1 + (lookupWork ms + (ms.map fun m => m.2.equalWork).sum) := by
        rw [Pjson.equalWork, equalWorkMembers_eq_sum]
      refine (pairMembers_tries ns (e.order ms) (by omega)).mono (fun hsame m hm => ?_) (fun _ => ?_) ?_
      · rw [same_object_of_length (Pjson.wf_object.mp hl).1 hlen] at hsame
        obtain ⟨v, hv, -⟩ := hsame m (e.mem_order.mp hm)
        rw [hv]
        rfl
      · exact work_le (by omega)
      · rintro pushed c ⟨hpaired, rfl⟩
        rw [sum_pairCost, Paired.equalWork hpaired, hchildren, hlookup, work_add, work_add, pairCost, hwork,
          Nat.add_assoc]
    · rw [if_pos hlen]
      refine Tries.unequal fun h => hlen ?_
      obtain ⟨hkeys, -⟩ := same_object_iff.mp h
      -- Objects with the same keys, none of them twice, have the same number of members.
      have hperm : (Assoc.keys ms).Perm (Assoc.keys ns) :=
        (List.perm_ext_iff_of_nodup (Pjson.wf_object.mp hl).1 (Pjson.wf_object.mp hr).1).mpr hkeys
      have := hperm.length_eq
      rwa [Assoc.keys, Assoc.keys, List.length_map, List.length_map] at this

/-! ## The loop -/

/-- The loop pays for a pair of equal values, or cannot. -/
theorem drain_tries (e : Enumeration) {l r : Pjson} (hl : l.WF) (hr : r.WF)
    (hwork : l.equalWork < 2 ^ 64) : Tries ((equalVisitor e).drain [(l, r)]) (Same l r) (pairCost (l, r))
      fun _ c => c = pairCost (l, r) := by
  intro s hs
  have hstart : ∃ c, Spent s c s ∧ c + ([(l, r)].map pairCost).sum = pairCost (l, r) ∧
      ∀ p ∈ [(l, r)], p.1.WF ∧ p.2.WF ∧ (Same l r → Same p.1 p.2) := ⟨0, .zero hs, by simp, by simp [hl, hr]⟩
  have hloop := (equalVisitor e).drain_ends
    (J := fun left t => ∃ c, Spent s c t ∧ c + (left.map pairCost).sum = pairCost (l, r) ∧
      ∀ p ∈ left, p.1.WF ∧ p.2.WF ∧ (Same l r → Same p.1 p.2))
    (R := fun exit t => Onward s t ∧ (exit = .unequal → ¬ Same l r) ∧
      (exit = .failed → t.error.code = .ResourceLimit ∧ (Same l r → ¬ s.budget.Fits (pairCost (l, r)))))
    ?_ hstart
  · refine hloop.mono ?_ fun _ _ h => h
    rintro _ t ⟨c, hspent, hc, -⟩
    exact ⟨c, hspent, by simpa using hc⟩
  rintro p rest t ⟨c, hspent, hc, hleft⟩
  obtain ⟨hwfl, hwfr, hsame⟩ := hleft p List.mem_cons_self
  rw [List.map_cons, List.sum_cons] at hc
  have hsmall : p.1.equalWork < 2 ^ 64 := by
    have hle := congrFun hc .work
    simp only [Pi.add_apply, pairCost, Cost.of, Pi.single_eq_same] at hle
    omega
  have hturn := (visitEqual_tries e hsmall hwfl hwfr t hspent.sound).and (visitEqual_ends e p t)
  refine hturn.mono ?_ ?_
  · rintro pushed u ⟨⟨d, hspent', hd⟩, hsplits⟩
    refine ⟨c + d, hspent.trans hspent', ?_, fun q hq => ?_⟩
    · rw [List.map_append, List.sum_append, List.map_reverse, List.sum_reverse, ← hc, ← hd]
      simp only [add_assoc]
    · rcases List.mem_append.mp hq with hq | hq
      · have hq := List.mem_reverse.mp hq
        obtain ⟨hql, hqr⟩ := hsplits.wf hwfl hwfr q hq
        exact ⟨hql, hqr, fun h => (hsplits.same_iff hwfl hwfr).mp (hsame h) q hq⟩
      · exact hleft q (List.mem_cons_of_mem _ hq)
  · rintro exit u ⟨⟨honward, hunequal, hfailed⟩, -⟩
    refine ⟨hspent.toOnward.trans honward, fun hexit h => hunequal hexit (hsame h), fun hexit => ?_⟩
    obtain ⟨hcode, hfit⟩ := hfailed hexit
    refine ⟨hcode, fun h hneeds => hfit (hsame h) (hspent.fits_iff.mpr (hneeds.mono ?_))⟩
    rw [← hc, ← add_assoc]
    exact le_self_add

open Classical in
/-- **The comparison of a test** has a result if the values are equal, and then a price. -/
theorem patchEqual_follows (e : Enumeration) {l r : Pjson} (hl : l.WF) (hr : r.WF)
    (hwork : l.equalWork < 2 ^ 64) (scratch : Pjson) (message : String) :
    Follows (do
      if ← patchEqual e l r then pure scratch else failPatch .TestFailed message)
      (if Same l r then some scratch else none) (Cost.of .work l.equalWork) := by
  intro s hs
  have hloop := drain_tries e hl hr hwork s hs
  rw [ends_bind]
  -- The verdict of the loop: done means equal, a difference means unequal, else a budget.
  have hequal : Ends (patchEqual e l r) s
      (fun equal t => (equal = true ↔ Same l r) ∧ Onward s t ∧
        (equal = true → Spent s (Cost.of .work l.equalWork) t))
      (fun _ t => Onward s t ∧ t.error.code = .ResourceLimit ∧
        (Same l r → ¬ s.budget.Fits (Cost.of .work l.equalWork))) := by
    unfold Ends at hloop ⊢
    cases hrun : ((equalVisitor e).drain [(l, r)]).run s with
    | ok u t =>
      have hok := patchEqual_of_ok hrun
      rw [hrun] at hloop
      obtain ⟨c, hspent, rfl⟩ := hloop
      rw [hok]
      exact ⟨(patchEqual_ends e hl hr s).ok hok, hspent.toOnward, fun _ => hspent⟩
    | error exit t =>
      rw [hrun] at hloop
      obtain ⟨honward, -, hfailed⟩ := hloop
      cases exit with
      | unequal =>
        have hok := patchEqual_of_unequal hrun
        rw [hok]
        exact ⟨(patchEqual_ends e hl hr s).ok hok, honward, fun h => by cases h⟩
      | failed =>
        rw [patchEqual_of_failed hrun]
        exact ⟨honward, hfailed rfl⟩
  refine hequal.mono ?_ ?_
  · rintro equal t ⟨hiff, honward, hspent⟩
    cases equal with
    | true =>
      rw [if_pos (hiff.mp rfl)]
      exact ⟨rfl, hspent rfl⟩
    | false =>
      -- Unequal values fail the test whatever has been spent on finding out.
      have hnot : ¬ Same l r := fun h => by cases hiff.mpr h
      rw [if_neg hnot]
      refine (Follows.none_iff.mp (failPatch_follows (α := Pjson) .TestFailed message 0) t
        honward.sound).mono (fun _ _ h => h.elim) fun _ _ h => ⟨honward.trans h, fun hsome => ?_⟩
      cases hsome
  · rintro _ t ⟨honward, hcode, hfit⟩
    refine ⟨honward, fun hsome => ⟨hcode, hfit ?_⟩⟩
    by_contra hnot
    rw [if_neg hnot] at hsome
    cases hsome

end Patch

end ByteDance
