/-
  `equalWithBudget`, the comparison behind `const`, `enum` and `uniqueItems`, and the agreement of
  the three comparisons of the library.

  The loop pays for every pair it pops, for the longer of two strings and for every key it looks
  up.  As for the patch `test` there are two facts about a turn: what it decides
  (`visitEqual_ends`) and what it may spend (`visitEqual_pays`).

  The agreement (`equalities_agree`) is of answers, so it would be empty of a comparison that gives
  none; the crux is to say when the budgeted ones must answer.  They must whenever the budget admits
  `compareWork` of the two values: an exit without an answer is taken only where it does not.
-/
import Pjson.Patch.Equal
import Pjson.Schema.Context

namespace ByteDance

open Run

namespace Validate

/-- The members of the left object against those of the right one.  A key of the left object finds
    its own value there. -/
def pairMembers (scene : Scene) (r : List (Bytes × Pjson)) :
    List (Bytes × Pjson) → Validate (List Pair)
  | [] => pure []
  | (key, lv) :: lk => do
    charge scene (key.length + 1)
    match Assoc.find key r with
    | none => exit .unequal
    | some rv => do
      let rest ← pairMembers scene r lk
      pure ((lv, rv) :: rest)

/-- What is left to compare of two values; `exit .unequal` is `return true` with `equal` still
    false. -/
def comparePair (e : Enumeration) (scene : Scene) (l r : Pjson) : Validate (List Pair) :=
  if l.isNumber && r.isNumber then
    if l.tryCompareNumber r ≠ some 0 then exit .unequal else pure []
  else if l.getType ≠ r.getType then exit .unequal
  else
    match l, r with
    | .jsonBoolean lb, .jsonBoolean rb => if lb ≠ rb then exit .unequal else pure []
    | .jsonString ls, .jsonString rs => do
      charge scene (max ls.length rs.length)
      if ls ≠ rs then exit .unequal else pure []
    | .jsonArray l, .jsonArray r => if l.length ≠ r.length then exit .unequal else pure (l.zip r)
    | .jsonObject l, .jsonObject r =>
        if l.length ≠ r.length then exit .unequal else pairMembers scene r (e.order l)
    | _, _ => pure []

/-- One turn of the loop. -/
def visitEqual (e : Enumeration) (scene : Scene) (current : Pair) : Validate (List Pair) := do
  charge scene 1
  comparePair e scene current.1 current.2

/-! ## What a charge does -/

/-- The budget is exhausted. -/
def Exhausted (x : Exit) (t : Progress) : Prop := x = .returned ∧ t.now.ctx.aborted = true

theorem require_run {m : Validate Bool} {o : Options} {s t : Progress} {ok : Bool}
    (h : m o s = .ok ok t) :
    (require m o).run s = if ok = true then .ok () t else .error .returned t := by
  show (m o >>= fun ok => (if ok then pure () else exit .returned : Validate Unit) o).run s = _
  rw [EStateM.run_bind, show (m o).run s = .ok ok t from h]
  cases ok <;> rfl

theorem charge_run (scene : Scene) (amount : Nat) (o : Options) (s : Progress) :
    (charge scene amount o).run s =
      if (s.now.charge o scene amount).2 = true then .ok () (s.step (s.now.charge o scene amount).1)
      else .error .returned (s.step (s.now.charge o scene amount).1) :=
  require_run rfl

/-- A payment that does not fit aborts the run. -/
theorem charge_ends (scene : Scene) (amount : Nat) (o : Options) (s : Progress) :
    Ends (charge scene amount o) s (fun _ _ => True) Exhausted := by
  unfold Ends
  rw [charge_run]
  by_cases hok : (s.now.charge o scene amount).2 = true
  · rw [if_pos hok]
    trivial
  · rw [if_neg hok]
    exact ⟨rfl, Moment.charge_aborted (by simpa using hok)⟩

theorem ends_charge_bind {α : Type} (scene : Scene) (amount : Nat) {f : Unit → Validate α}
    {o : Options} {s : Progress} {Q : α → Progress → Prop} {R : Exit → Progress → Prop}
    (hR : ∀ x t, Exhausted x t → R x t) (hf : ∀ t, Ends (f () o) t Q R) :
    Ends ((charge scene amount >>= f) o) s Q R := by
  show Ends (charge scene amount o >>= fun a => f a o) s Q R
  rw [ends_bind]
  exact (charge_ends scene amount o s).mono (fun _ t _ => hf t) hR

/-! ## What a visit establishes -/

theorem pairMembers_ends (scene : Scene) (r ms : List (Bytes × Pjson)) (o : Options) (s : Progress) :
    Ends (pairMembers scene r ms o) s (fun pushed _ => Paired r ms pushed)
      (fun x t => (x = .unequal ∧ ∃ m ∈ ms, Assoc.find m.1 r = none) ∨ Exhausted x t) := by
  induction ms generalizing s with
  | nil => exact List.Forall₂.nil
  | cons m ms ih =>
    obtain ⟨key, lv⟩ := m
    unfold pairMembers
    apply ends_charge_bind scene _ (fun _ _ => Or.inr)
    intro t
    cases hfind : Assoc.find key r with
    | none => exact Or.inl ⟨rfl, (key, lv), List.mem_cons_self, hfind⟩
    | some rv =>
      show Ends (pairMembers scene r ms o >>= fun rest => pure ((lv, rv) :: rest)) t _ _
      rw [ends_bind]
      refine (ih t).mono (fun rest _ hrest => ?_) (fun _ _ h => ?_)
      · exact List.Forall₂.cons ⟨rfl, hfind⟩ hrest
      · refine h.imp_left ?_
        rintro ⟨hx, m, hm, hmiss⟩
        exact ⟨hx, m, List.mem_cons_of_mem _ hm, hmiss⟩

theorem tryCompareNumber_eq_zero_iff {l r : Pjson} (hl : l.isNumber = true)
    (hr : r.isNumber = true) : l.tryCompareNumber r = some 0 ↔ Same l r := by
  rw [same_numbers_iff hl hr, Pjson.tryCompareNumber, hl, hr]
  simp only [Bool.not_true, Bool.or_self, Bool.false_eq_true, if_false]
  by_cases h : compareNumbers l r = unordered
  · rw [if_pos h, h]
    simp [unordered]
  · rw [if_neg h, Option.some.injEq]

theorem comparePair_ends (e : Enumeration) (scene : Scene) (l r : Pjson) (o : Options) (s : Progress) :
    Ends (comparePair e scene l r o) s (fun pushed _ => Splits (l, r) pushed)
      (fun x t => (x = .unequal ∧ Differs (l, r)) ∨ Exhausted x t) := by
  induction l, r using pair_cases with
  | numbers l r hl hr =>
    simp only [comparePair, hl, hr, Bool.and_self, if_true]
    have hiff := tryCompareNumber_eq_zero_iff hl hr
    by_cases h : l.tryCompareNumber r = some 0
    · rw [if_neg (not_not.mpr h)]
      exact splits_nil (hiff.mp h)
    · rw [if_pos h]
      exact Or.inl ⟨rfl, fun _ _ hsame => h (hiff.mpr hsame)⟩
  | types l r hnum htype =>
    unfold comparePair
    rw [if_neg (by rw [hnum]; simp), if_pos htype]
    exact Or.inl ⟨rfl, fun _ _ => not_same_of_getType_ne hnum htype⟩
  | null => exact splits_nil .null
  | string x y =>
    show Ends ((charge scene (max x.length y.length) >>= fun _ =>
      if x ≠ y then exit .unequal else pure []) o) s _ _
    -- The only charge in a leaf: as many units as the longer text has bytes.
    apply ends_charge_bind scene _ (fun _ _ => Or.inr)
    intro t
    by_cases h : x ≠ y
    · rw [if_pos h]
      exact Or.inl ⟨rfl, fun _ _ hsame => h (same_string_iff.mp hsame)⟩
    · rw [if_neg h]
      exact splits_nil (same_string_iff.mpr (not_not.mp h))
  | boolean b c =>
    show Ends ((if b ≠ c then exit .unequal else pure [] : Validate (List Pair)) o) s _ _
    by_cases h : b ≠ c
    · rw [if_pos h]
      exact Or.inl ⟨rfl, fun _ _ hsame => h (same_boolean_iff.mp hsame)⟩
    · rw [if_neg h]
      exact splits_nil (same_boolean_iff.mpr (not_not.mp h))
  | array xs ys =>
    show Ends ((if xs.length ≠ ys.length then exit .unequal else pure (xs.zip ys) :
      Validate (List Pair)) o) s _ _
    by_cases h : xs.length ≠ ys.length
    · rw [if_pos h]
      exact Or.inl ⟨rfl, differs_array h⟩
    · rw [if_neg h]
      exact splits_array (not_not.mp h)
  | object ms ns =>
    show Ends ((if ms.length ≠ ns.length then exit .unequal
      else pairMembers scene ns (e.order ms) : Validate (List Pair)) o) s _ _
    by_cases h : ms.length ≠ ns.length
    · rw [if_pos h]
      exact Or.inl ⟨rfl, differs_object_length h⟩
    · rw [if_neg h]
      -- Equally many members, so a key that is missing on the right already tells them apart.
      refine (pairMembers_ends scene ns (e.order ms) o s).mono
        (fun _ _ => splits_object (e.perm ms) (not_not.mp h)) ?_
      intro x t hx
      refine hx.imp_left ?_
      rintro ⟨hx, m, hm, hnone⟩
      exact ⟨hx, differs_object_missing (e.mem_order.mp hm) hnone⟩

theorem visitEqual_ends (e : Enumeration) (scene : Scene) (p : Pair) (o : Options) (s : Progress) :
    Ends (visitEqual e scene p o) s (fun pushed _ => Splits p pushed)
      (fun x t => (x = .unequal ∧ Differs p) ∨ Exhausted x t) :=
  ends_charge_bind scene _ (fun _ _ => Or.inr) fun t => comparePair_ends e scene p.1 p.2 o t

/-! ## What a visit may spend -/

/-- The work of a validation; a difference that is found has nothing to do with it. -/
def workMeter (o : Options) : Meter Exit Progress where
  used s := s.now.ctx.workUsed
  limit _ := validationWorkLimit o
  early x := x = .unequal
  broke := Exhausted

theorem charge_pays (scene : Scene) (amount : Nat) (o : Options) :
    Pays (workMeter o) (charge scene amount o) amount fun _ => 0 := by
  intro s
  have hcases : ((s.now.charge o scene amount).2 = true ∧
        (s.now.charge o scene amount).1.ctx.workUsed = s.now.ctx.workUsed + amount) ∨
      ((s.now.charge o scene amount).2 = false ∧
        validationWorkLimit o < s.now.ctx.workUsed + amount) := by
    rw [Moment.charge]
    split_ifs with hover
    · exact Or.inr ⟨rfl, by omega⟩
    · exact Or.inl ⟨rfl, rfl⟩
  unfold Ends
  rw [charge_run]
  rcases hcases with ⟨hok, hused⟩ | ⟨hok, hover⟩
  · rw [if_pos hok]
    exact ⟨rfl, hused.le⟩
  · rw [if_neg (by rw [hok]; simp)]
    exact Or.inr ⟨⟨rfl, Moment.charge_aborted hok⟩, hover⟩

theorem pairMembers_pays (scene : Scene) (r ms : List (Bytes × Pjson)) (o : Options) :
    Pays (workMeter o) (pairMembers scene r ms o) (ms.map (memberWork r)).sum
      fun pushed => (pushed.map pairWork).sum := by
  induction ms with
  | nil => exact Pays.pure le_rfl
  | cons m ms ih =>
    obtain ⟨key, lv⟩ := m
    rw [List.map_cons, List.sum_cons, memberWork, pairMembers, Nat.add_assoc (key.length + 1)]
    refine ((charge_pays scene (key.length + 1) o).frame _).bind fun _ => ?_
    cases hfind : Assoc.find key r with
    | none => exact Pays.throw rfl
    | some rv =>
      -- the value found is paid for when its turn comes
      refine ((ih.frame (lv.compareWork rv)).mono (by dsimp only; omega)).bind fun rest => ?_
      refine Pays.pure ?_
      rw [List.map_cons, List.sum_cons, pairWork, Nat.add_comm]

theorem comparePair_pays (e : Enumeration) (scene : Scene) (l r : Pjson) (o : Options) :
    Pays (workMeter o) (comparePair e scene l r o) (l.compareWork r - 1)
      fun pushed => (pushed.map pairWork).sum := by
  -- a form that pushes nothing
  have hleaf : ∀ {c : Prop} [Decidable c] (n : Nat),
      Pays (workMeter o) ((if c then exit .unequal else pure [] : Validate (List Pair)) o) n
        fun pushed => (pushed.map pairWork).sum := by
    intro c _ n
    by_cases hc : c
    · rw [if_pos hc]
      exact Pays.throw rfl
    · rw [if_neg hc]
      exact Pays.pure (Nat.zero_le _)
  induction l, r using pair_cases with
  | numbers l r hl hr =>
    unfold comparePair
    rw [if_pos (by rw [hl, hr]; rfl)]
    exact hleaf _
  | types l r hnum htype =>
    unfold comparePair
    rw [if_neg (by rw [hnum]; simp), if_pos htype]
    exact Pays.throw rfl
  | null => exact Pays.pure (Nat.zero_le _)
  | string x y =>
    show Pays (workMeter o) (charge scene (max x.length y.length) o >>= fun _ =>
      (if x ≠ y then exit .unequal else pure [] : Validate (List Pair)) o) _ _
    rw [Pjson.compareWork, Nat.add_sub_cancel_left]
    exact (charge_pays scene _ o).bind fun _ => hleaf _
  | boolean b c => exact hleaf (c := b ≠ c) _
  | array xs ys =>
    show Pays (workMeter o) ((if xs.length ≠ ys.length then exit .unequal
      else pure (xs.zip ys) : Validate (List Pair)) o) _ _
    rw [compareWork_array, Nat.add_sub_cancel_left]
    by_cases h : xs.length ≠ ys.length
    · rw [if_pos h]
      exact Pays.throw rfl
    · rw [if_neg h]
      exact Pays.pure le_rfl
  | object ms ns =>
    show Pays (workMeter o) ((if ms.length ≠ ns.length then exit .unequal
      else pairMembers scene ns (e.order ms) : Validate (List Pair)) o) _ _
    rw [compareWork_object_perm ns (e.perm ms), Nat.add_sub_cancel_left]
    by_cases h : ms.length ≠ ns.length
    · rw [if_pos h]
      exact Pays.throw rfl
    · rw [if_neg h]
      exact pairMembers_pays scene ns (e.order ms) o

/-- **A visit** spends no more than its pair is worth, and leaves the pairs it pushes to be paid
    for. -/
theorem visitEqual_pays (e : Enumeration) (scene : Scene) (o : Options) (p : Pair) :
    Pays (workMeter o) (visitEqual e scene p o) (pairWork p) fun pushed =>
      (pushed.map pairWork).sum := by
  have hone : 1 + (p.1.compareWork p.2 - 1) ≤ p.1.compareWork p.2 := by
    have := p.1.one_le_compareWork p.2
    omega
  refine (((charge_pays scene 1 o).frame (p.1.compareWork p.2 - 1)).mono hone).bind fun _ => ?_
  rw [Nat.zero_add]
  exact comparePair_pays e scene p.1 p.2 o

/-- The loop of `equalWithBudget`. -/
def equalVisitor (e : Enumeration) (scene : Scene) (o : Options) : Visitor Exit Progress Pair where
  visit p := visitEqual e scene p o
  size p := p.1.nodes
  shrinks h := ((visitEqual_ends e scene _ o _).ok h).smaller

/-- What the loop ended with, as `equal`. -/
def answered : EStateM.Result Exit Progress Unit → EStateM.Result Exit Progress Bool
  | .ok _ t => .ok true t
  | .error .unequal t => .ok false t
  | .error x t => .error x t

/-- `equalWithBudget`: returns `equal`; an exhausted budget is a `return false` of the caller. -/
def equalWithBudget (e : Enumeration) (scene : Scene) (left right : Pjson) : Validate Bool := fun o s =>
  answered ((equalVisitor e scene o).drain [(left, right)] s)

end Validate

open Validate

/-- **The comparison has two ends**: its answer is structural equality, and it aborts the run only
    where the budget does not admit the work on the two values. -/
theorem equalWithBudget_ends (e : Enumeration) (scene : Scene) {l r : Pjson} (hl : l.WF)
    (hr : r.WF) (o : Options) (s : Progress) :
    Ends (equalWithBudget e scene l r o) s (fun equal _ => equal = true ↔ Same l r) fun x t =>
      Exhausted x t ∧ validationWorkLimit o < s.now.ctx.workUsed + l.compareWork r := by
  have hanswer := compares (· = Exit.unequal) (equalVisitor e scene o)
    (fun p s => (visitEqual_ends e scene p o s).mono (fun _ _ h => h) ?_) hl hr s
  · have hspend := Pays.drain (equalVisitor e scene o) pairWork (visitEqual_pays e scene o) [(l, r)] s
    unfold Ends at hanswer hspend ⊢
    rw [show (equalWithBudget e scene l r o).run s =
      answered ((equalVisitor e scene o).drain [(l, r)] s) from rfl]
    cases hrun : (equalVisitor e scene o).drain [(l, r)] s with
    | ok u t =>
      rw [show EStateM.run _ s = .ok u t from hrun] at hanswer
      exact iff_of_true rfl hanswer
    | error x t =>
      rw [show EStateM.run _ s = .error x t from hrun] at hanswer hspend
      rcases hspend with rfl | ⟨hx, hover⟩
      · exact iff_of_false (by simp) (hanswer rfl)
      · rw [List.map_singleton, List.sum_singleton] at hover
        rw [hx.1]
        exact ⟨⟨rfl, hx.2⟩, hover⟩
  · rintro x t (⟨-, h⟩ | h) hx
    · exact h
    · rw [h.1] at hx
      cases hx

/-- **The three equalities agree**: each decides structural equality.  `operator==` always answers;
    the comparison of a patch `test` fails only with `ResourceLimit` on an account that cannot pay
    for the two values, and that of the schema keywords only by exhausting a work budget that does
    not admit them. -/
theorem equalities_agree {l r : Pjson} (hl : l.WF) (hr : r.WF) :
    (operatorEq l r = true ↔ Same l r) ∧
    (∀ (e : Enumeration) (s : Account),
      Ends (patchEqual e l r) s (fun equal _ => equal = true ↔ Same l r) fun _ t =>
        t.error.code = .ResourceLimit ∧
          s.budget.limit .work < s.budget.used .work + l.compareWork r) ∧
    ∀ (e : Enumeration) (scene : Scene) (o : Options) (s : Progress),
      Ends (equalWithBudget e scene l r o) s (fun equal _ => equal = true ↔ Same l r) fun x t =>
        Exhausted x t ∧ validationWorkLimit o < s.now.ctx.workUsed + l.compareWork r :=
  ⟨operatorEq_iff hl hr, fun e => patchEqual_ends e hl hr,
    fun e scene => equalWithBudget_ends e scene hl hr⟩

/-- A run that cannot fail returns. -/
theorem returns_of_ends {ε σ : Type} {x : EStateM ε σ Bool} {s : σ} {P : Prop} {R : ε → σ → Prop}
    (h : Ends x s (fun b _ => b = true ↔ P) R) (hP : P) (hR : ∀ e t, ¬ R e t) :
    ∃ t, Ok x s true t := by
  unfold Ends at h
  cases hrun : x.run s with
  | ok b t =>
    rw [hrun] at h
    rw [h.mpr hP] at hrun
    exact ⟨t, hrun⟩
  | error e t =>
    rw [hrun] at h
    exact absurd h (hR e t)

/-- The number 1 of either integer kind, in an object: the work of the comparison is four, the
    default limits admit it, and all three say that the objects are equal. -/
theorem equalities_agree_one :
    operatorEq (.jsonObject [([0x61], .jsonNumberInt 1)]) (.jsonObject [([0x61], .jsonNumberUInt 1)]) =
      true ∧
    (∃ t, Ok (patchEqual .asListed (.jsonObject [([0x61], .jsonNumberInt 1)])
      (.jsonObject [([0x61], .jsonNumberUInt 1)])) ⟨.ofOptions {}, {}, false, []⟩ true t) ∧
    ∃ t, Ok (equalWithBudget .asListed ⟨⟨.validated, [], .jsonNull⟩, []⟩
      (.jsonObject [([0x61], .jsonNumberInt 1)]) (.jsonObject [([0x61], .jsonNumberUInt 1)]) {})
      ⟨⟨⟨[], 0, 0, 0, 0, 0, 0, false, [], [], []⟩, .ofMode .Public, [], 0, {}⟩, [], []⟩ true t := by
  have hwf : ∀ n : Pjson, n.isNumber = true → (Pjson.jsonObject [([0x61], n)]).WF := by
    intro n hn
    rw [Pjson.wf_object]
    refine ⟨List.nodup_singleton _, fun m hm => ?_⟩
    rw [List.mem_singleton.mp hm]
    cases n <;> trivial
  have hsame : Same (.jsonObject [([0x61], .jsonNumberInt 1)])
      (.jsonObject [([0x61], .jsonNumberUInt 1)]) := by
    refine .object (fun _ => Iff.rfl) ?_
    intro k x y hx hy
    have hx' := List.mem_singleton.mp (Assoc.mem_of_find hx)
    have hy' := List.mem_singleton.mp (Assoc.mem_of_find hy)
    cases hx'
    cases hy'
    exact .number rfl rfl
  have hwork : (Pjson.jsonObject [([0x61], .jsonNumberInt 1)]).compareWork
      (.jsonObject [([0x61], .jsonNumberUInt 1)]) = 4 := rfl
  obtain ⟨heq, hpatch, hschema⟩ := equalities_agree (hwf (.jsonNumberInt 1) rfl)
    (hwf (.jsonNumberUInt 1) rfl)
  refine ⟨heq.mpr hsame, returns_of_ends (hpatch _ _) hsame ?_,
    returns_of_ends (hschema _ _ _ _) hsame ?_⟩
  · rintro - t ⟨-, hover⟩
    rw [hwork] at hover
    exact absurd hover (by decide)
  · rintro x t ⟨-, hover⟩
    rw [hwork] at hover
    exact absurd hover (by decide)

end ByteDance
