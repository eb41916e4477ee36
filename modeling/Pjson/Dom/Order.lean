/-
  The comparison of numbers as an order, and `operator==` as an equivalence.

  `_compareNumbers` returns the order of two points of the line, so its laws are those of the
  line: it is antisymmetric and transitive, whatever kinds of number are mixed.  Structural
  equality inherits them from the numbers up, one constructor at a time.
-/
import Pjson.Dom.Equality

namespace ByteDance

open Binary64

/-- The node holds a NaN. -/
def Pjson.isNaN : Pjson → Bool
  | .jsonNumberDouble d => d.isNaN
  | _ => false

/-- No double in the value is a NaN. -/
def Pjson.NaNFree (v : Pjson) : Prop := ∀ d ∈ v.doubles, d.isNaN = false

/-! ## Numbers -/

theorem Pjson.place_eq_none_iff {v : Pjson} (h : v.isNumber = true) :
    v.place = none ↔ v.isNaN = true := by
  cases v <;> cases h
  · simp [place, isNaN]
  · exact ext_eq_none_iff
  · simp [place, isNaN]

theorem compareNumbers_defined {l r : Pjson} (hl : l.isNumber = true) (hr : r.isNumber = true) :
    evalCompareNumbers l r = some (compareNumbers l r) := by
  cases hx : l.place with
  | none => rw [compareNumbers, evalCompareNumbers_unordered hl hr (Or.inl hx), Option.getD_some]
  | some x =>
    cases hy : r.place with
    | none => rw [compareNumbers, evalCompareNumbers_unordered hl hr (Or.inr hy), Option.getD_some]
    | some y => rw [compareNumbers, evalCompareNumbers_eq hx hy, Option.getD_some]

theorem compareNumbers_unordered_iff {l r : Pjson} (hl : l.isNumber = true)
    (hr : r.isNumber = true) :
    compareNumbers l r = unordered ↔ l.isNaN = true ∨ r.isNaN = true := by
  rw [← Pjson.place_eq_none_iff hl, ← Pjson.place_eq_none_iff hr]
  refine ⟨fun h => ?_, compareNumbers_unordered hl hr⟩
  by_contra hnot
  rw [not_or, ← Ne, ← Ne, Option.ne_none_iff_exists', Option.ne_none_iff_exists'] at hnot
  obtain ⟨⟨x, hx⟩, ⟨y, hy⟩⟩ := hnot
  rw [compareNumbers_eq hx hy] at h
  exact orderOf_ne_unordered h

/-- Numbers that compare have a place. -/
theorem exists_places {l r : Pjson} (hl : l.isNumber = true) (hr : r.isNumber = true)
    (h : compareNumbers l r ≠ unordered) : ∃ x y, l.place = some x ∧ r.place = some y := by
  cases hx : l.place with
  | none => exact absurd (compareNumbers_unordered hl hr (Or.inl hx)) h
  | some x =>
    cases hy : r.place with
    | none => exact absurd (compareNumbers_unordered hl hr (Or.inr hy)) h
    | some y => exact ⟨x, y, rfl, rfl⟩

theorem compareNumbers_antisymm {l r : Pjson} (hl : l.isNumber = true) (hr : r.isNumber = true)
    (h : compareNumbers l r ≠ unordered) : compareNumbers r l = -compareNumbers l r := by
  obtain ⟨x, y, hx, hy⟩ := exists_places hl hr h
  rw [compareNumbers_eq hx hy, compareNumbers_eq hy hx, neg_orderOf]

section Order

variable {α : Type} [LinearOrder α] {x y : α}

theorem orderOf_nonpos_iff : orderOf x y ≤ 0 ↔ x ≤ y := by
  rcases lt_trichotomy x y with h | rfl | h
  · rw [orderOf_lt h]
    exact iff_of_true (by decide) h.le
  · rw [orderOf_self]
    exact iff_of_true le_rfl le_rfl
  · rw [orderOf_gt h]
    exact iff_of_false (by decide) h.not_ge

theorem orderOf_neg_iff : orderOf x y < 0 ↔ x < y := by
  rcases lt_trichotomy x y with h | rfl | h
  · rw [orderOf_lt h]
    exact iff_of_true (by decide) h
  · rw [orderOf_self]
    exact iff_of_false (by decide) (lt_irrefl x)
  · rw [orderOf_gt h]
    exact iff_of_false (by decide) h.not_gt

end Order

theorem compareNumbers_trans {l m r : Pjson} (hl : l.isNumber = true) (hm : m.isNumber = true)
    (hr : r.isNumber = true) (h : compareNumbers l m ≤ 0) (h' : compareNumbers m r ≤ 0) :
    compareNumbers l r ≤ 0 ∧
      (compareNumbers l m < 0 ∨ compareNumbers m r < 0 → compareNumbers l r < 0) := by
  have hordered : ∀ {c : Int}, c ≤ 0 → c ≠ unordered := by
    intro c hc he
    rw [he] at hc
    exact absurd hc (by decide)
  obtain ⟨x, y, hx, hy⟩ := exists_places hl hm (hordered h)
  obtain ⟨y', z, hy', hz⟩ := exists_places hm hr (hordered h')
  rw [hy] at hy'
  cases hy'
  rw [compareNumbers_eq hx hy, orderOf_nonpos_iff] at h
  rw [compareNumbers_eq hy hz, orderOf_nonpos_iff] at h'
  rw [compareNumbers_eq hx hy, compareNumbers_eq hy hz, compareNumbers_eq hx hz]
  simp only [orderOf_nonpos_iff, orderOf_neg_iff]
  exact ⟨h.trans h', fun hstrict => hstrict.elim h'.trans_lt' h.trans_lt⟩

/-! ## Values -/

theorem Pjson.nanFree_array {xs : List Pjson} :
    (jsonArray xs).NaNFree ↔ ∀ x ∈ xs, x.NaNFree := by
  unfold NaNFree
  simp only [doubles, mem_doublesElements_iff]
  exact ⟨fun h x hx d hd => h d ⟨x, hx, hd⟩, fun h d ⟨x, hx, hd⟩ => h x hx d hd⟩

theorem Pjson.nanFree_object {ms : List (Bytes × Pjson)} :
    (jsonObject ms).NaNFree ↔ ∀ m ∈ ms, m.2.NaNFree := by
  unfold NaNFree
  simp only [doubles, mem_doublesMembers_iff]
  exact ⟨fun h m hm d hd => h d ⟨m, hm, hd⟩, fun h d ⟨m, hm, hd⟩ => h m hm d hd⟩

theorem same_array_iff_forall₂ {xs ys : List Pjson} :
    Same (.jsonArray xs) (.jsonArray ys) ↔ List.Forall₂ Same xs ys := by
  rw [same_array_iff, List.forall₂_iff_zip]
  exact and_congr_right fun _ => ⟨fun h _ _ hp => h _ hp, fun h _ hp => h hp⟩

/-- A value without a NaN equals itself. -/
theorem Same.refl {v : Pjson} (hnan : v.NaNFree) : Same v v := by
  induction v using Pjson.induct with
  | jsonNull => exact .null
  | jsonString s => exact .string s
  | jsonBoolean b => exact .boolean b
  | jsonNumberInt n => exact .number rfl rfl
  | jsonNumberUInt n => exact .number rfl rfl
  | jsonNumberDouble d =>
    have hd : d.isNaN = false := hnan d (List.mem_singleton.mpr rfl)
    cases hx : d.ext with
    | none =>
      rw [ext_eq_none_iff, hd] at hx
      cases hx
    | some x => exact .number hx hx
  | jsonArray xs ih =>
    rw [same_array_iff_forall₂, List.forall₂_same]
    exact fun x hx => ih x hx (Pjson.nanFree_array.mp hnan x hx)
  | jsonObject ms ih =>
    refine .object (fun _ => Iff.rfl) ?_
    intro k x y hx hy
    rw [hx] at hy
    cases hy
    have hm := Assoc.mem_of_find hx
    exact ih _ hm (Pjson.nanFree_object.mp hnan _ hm)

theorem Same.symm {l r : Pjson} (h : Same l r) : Same r l := by
  induction h with
  | null => exact .null
  | string s => exact .string s
  | boolean b => exact .boolean b
  | number hx hy => exact .number hy hx
  | @array xs ys hlen _ ih =>
    refine .array hlen.symm ?_
    rintro ⟨y, x⟩ hp
    rw [← List.zip_swap] at hp
    obtain ⟨⟨x', y'⟩, hp', he⟩ := List.mem_map.mp hp
    cases he
    exact ih _ hp'
  | object hkeys _ ih => exact .object (fun k => (hkeys k).symm) fun k x y hx hy => ih k y x hy hx

theorem Same.trans {l m r : Pjson} (h : Same l m) (h' : Same m r) : Same l r := by
  induction h generalizing r with
  | null => exact h'
  | string s => exact h'
  | boolean b => exact h'
  | number hx hy =>
    cases h' with
    | number hy' hz =>
      rw [hy] at hy'
      cases hy'
      exact .number hx hz
    | _ => cases hy
  | @array xs ys hlen _ ih =>
    cases h' with
    | number hy => cases hy
    | @array _ zs hlen' hall =>
      refine .array (hlen.trans hlen') ?_
      rintro ⟨x, z⟩ hp
      obtain ⟨i, hi, he⟩ := List.mem_iff_getElem.mp hp
      rw [List.length_zip] at hi
      have hiy : i < ys.length := by omega
      rw [List.getElem_zip] at he
      cases he
      refine ih (xs[i], ys[i]) ?_ (hall (ys[i], zs[i]) ?_)
      · exact List.mem_iff_getElem.mpr ⟨i, by rw [List.length_zip]; omega, List.getElem_zip⟩
      · exact List.mem_iff_getElem.mpr ⟨i, by rw [List.length_zip]; omega, List.getElem_zip⟩
  | @object ms ns hkeys _ ih =>
    cases h' with
    | number hy => cases hy
    | @object _ os hkeys' hall =>
      refine .object (fun k => (hkeys k).trans (hkeys' k)) ?_
      intro k x z hx hz
      have hk : k ∈ Assoc.keys ns := (hkeys k).mp (Assoc.find_isSome_iff.mp (by rw [hx]; rfl))
      obtain ⟨y, hy⟩ := Option.isSome_iff_exists.mp (Assoc.find_isSome_iff.mpr hk)
      exact ih k x y hx hy (hall k y z hy hz)

/-- The values `operator==` is an equivalence on. -/
abbrev Comparable := { v : Pjson // v.WF ∧ v.NaNFree }

theorem operatorEq_equivalence :
    Equivalence fun l r : Comparable => operatorEq l.1 r.1 = true where
  refl v := (operatorEq_iff v.2.1 v.2.1).mpr (.refl v.2.2)
  symm {l r} h := (operatorEq_iff r.2.1 l.2.1).mpr ((operatorEq_iff l.2.1 r.2.1).mp h).symm
  trans {l m r} h h' := (operatorEq_iff l.2.1 r.2.1).mpr
    (((operatorEq_iff l.2.1 m.2.1).mp h).trans ((operatorEq_iff m.2.1 r.2.1).mp h'))

/-- **Numeric comparison is the exact order.**  Every conversion in `_compareNumbers` is defined;
    it returns `2` exactly if a NaN is involved and else the order of the two places; it is
    antisymmetric and transitive over mixed kinds, and `operator==` is an equivalence. -/
theorem compareNumbers_exact :
    (∀ l r : Pjson, l.isNumber = true → r.isNumber = true →
      evalCompareNumbers l r = some (compareNumbers l r) ∧
      (compareNumbers l r = 2 ↔ l.isNaN = true ∨ r.isNaN = true) ∧
      (∀ x y, l.place = some x → r.place = some y → compareNumbers l r = orderOf x y) ∧
      (compareNumbers l r ≠ 2 → compareNumbers r l = -compareNumbers l r)) ∧
    (∀ l m r : Pjson, l.isNumber = true → m.isNumber = true → r.isNumber = true →
      compareNumbers l m ≤ 0 → compareNumbers m r ≤ 0 → compareNumbers l r ≤ 0 ∧
        (compareNumbers l m < 0 ∨ compareNumbers m r < 0 → compareNumbers l r < 0)) ∧
    Equivalence fun l r : Comparable => operatorEq l.1 r.1 = true := by
  refine ⟨?_, ?_, operatorEq_equivalence⟩
  · intro l r hl hr
    refine ⟨compareNumbers_defined hl hr, compareNumbers_unordered_iff hl hr, ?_,
      compareNumbers_antisymm hl hr⟩
    exact fun x y => compareNumbers_eq
  · exact fun l m r => compareNumbers_trans

end ByteDance
