/-
  The exact comparison of stored numbers, `pjsonImpl::_compareNumbers`.

  `Pjson.place` is the number a node denotes, as a point of the extended rational line: a signed
  or unsigned integer is itself, a double is where it lies, and a NaN (or a node that is no
  number) lies nowhere.  `compareNumbers` follows the source branch by branch: integers are
  compared without ever rounding one to binary64, an integer and a double by truncating the
  double and looking at the fraction only when the integer parts agree.  `compareNumbers_eq`
  says that what it returns is the order of the two places.
-/
import Pjson.Dom.Value

namespace ByteDance

open Binary64

/-- `-1`, `0` or `1`: how `x` and `y` are ordered. -/
def orderOf {α : Type} [LinearOrder α] (x y : α) : Int :=
  if x < y then -1 else if y < x then 1 else 0

/-- The result of `_compareNumbers` when a NaN makes the comparison unordered. -/
def unordered : Int := 2

/-- One signed, one unsigned: a negative signed value is always smaller. -/
def compareSignedUnsigned (s : Int64) (u : UInt64) : Int :=
  if s < 0 then -1
  else
    let su := s.toUInt64
    if su < u then -1 else if u < su then 1 else 0

/-- Both doubles. -/
def compareDoubles (left right : Binary64) : Int :=
  if left.isNaN || right.isNaN then unordered
  else if left.lt right then -1
  else if right.lt left then 1 else 0

/-- An integer against a double that is not a NaN.  The integer's type holds the values from
    `lowest` up to but not including `beyond`; `none` is a conversion of a double that the type
    does not hold. -/
def compareIntegral (lowest beyond : Int) (integer : Int) (floating : Binary64) : Option Int :=
  if (ofInt beyond).le floating then some (-1)
  else if floating.lt (ofInt lowest) then some 1
  else do
    let truncated ← floating.castTo lowest beyond
    if integer ≠ truncated then some (if integer < truncated then -1 else 1)
    else
      let integralPart := ofInt truncated
      some (if !floating.eq integralPart then if integralPart.lt floating then -1 else 1 else 0)

/-- An unsigned integer against a double; the bounds are `0.0` and `2 ^ 64`. -/
def compareUnsignedDouble (integer : UInt64) (floating : Binary64) : Option Int :=
  compareIntegral 0 (2 ^ 64) integer.toNat floating

/-- A signed integer against a double; the bounds are `-2 ^ 63` and `2 ^ 63`. -/
def compareSignedDouble (integer : Int64) (floating : Binary64) : Option Int :=
  compareIntegral (-2 ^ 63) (2 ^ 63) integer.toInt floating

/-- `pjsonImpl::_compareNumbers`, or `none` for a conversion that is undefined.  Its callers pass
    numbers only. -/
def evalCompareNumbers : Pjson → Pjson → Option Int
  | .jsonNumberInt l, .jsonNumberInt r => some (if l < r then -1 else if r < l then 1 else 0)
  | .jsonNumberUInt l, .jsonNumberUInt r => some (if l < r then -1 else if r < l then 1 else 0)
  | .jsonNumberInt s, .jsonNumberUInt u => some (compareSignedUnsigned s u)
  | .jsonNumberUInt u, .jsonNumberInt s => some (-compareSignedUnsigned s u)
  | .jsonNumberDouble left, .jsonNumberDouble right => some (compareDoubles left right)
  | .jsonNumberUInt integer, .jsonNumberDouble floating =>
      if floating.isNaN then some unordered else compareUnsignedDouble integer floating
  | .jsonNumberDouble floating, .jsonNumberUInt integer =>
      if floating.isNaN then some unordered else (compareUnsignedDouble integer floating).map (- ·)
  | .jsonNumberInt integer, .jsonNumberDouble floating =>
      if floating.isNaN then some unordered else compareSignedDouble integer floating
  | .jsonNumberDouble floating, .jsonNumberInt integer =>
      if floating.isNaN then some unordered else (compareSignedDouble integer floating).map (- ·)
  | _, _ => some unordered

/-- What `_compareNumbers` returns; it is defined on all numbers (`evalCompareNumbers_eq`). -/
def compareNumbers (l r : Pjson) : Int := (evalCompareNumbers l r).getD unordered

/-- `pjson::tryCompareNumber`: the order, where the two nodes have one. -/
def Pjson.tryCompareNumber (l r : Pjson) : Option Int :=
  if !l.isNumber || !r.isNumber then none
  else
    let order := compareNumbers l r
    if order = unordered then none else some order

/-- The point of the extended line a number node denotes. -/
def Pjson.place : Pjson → Option (WithBot (WithTop ℚ))
  | .jsonNumberInt n => some (((n.toInt : ℚ) : WithTop ℚ) : WithBot (WithTop ℚ))
  | .jsonNumberUInt n => some (((n.toNat : ℚ) : WithTop ℚ) : WithBot (WithTop ℚ))
  | .jsonNumberDouble d => d.ext
  | _ => none

/-! ## The order of two points -/

section Order

variable {α : Type} [LinearOrder α] {x y : α}

theorem orderOf_lt (h : x < y) : orderOf x y = -1 := if_pos h

theorem orderOf_gt (h : y < x) : orderOf x y = 1 := by
  unfold orderOf
  rw [if_neg h.not_gt, if_pos h]

theorem orderOf_self : orderOf x x = 0 := by
  unfold orderOf
  rw [if_neg (lt_irrefl x), if_neg (lt_irrefl x)]

theorem orderOf_eq_zero_iff : orderOf x y = 0 ↔ x = y := by
  rcases lt_trichotomy x y with h | rfl | h
  · rw [orderOf_lt h]
    exact iff_of_false (by decide) h.ne
  · rw [orderOf_self]
    exact ⟨fun _ => rfl, fun _ => rfl⟩
  · rw [orderOf_gt h]
    exact iff_of_false (by decide) h.ne'

/-- The order read from the other side. -/
theorem neg_orderOf : -orderOf x y = orderOf y x := by
  rcases lt_trichotomy x y with h | rfl | h
  · rw [orderOf_lt h, orderOf_gt h]
    rfl
  · rw [orderOf_self]
    rfl
  · rw [orderOf_gt h, orderOf_lt h]

/-- An order is never `unordered`. -/
theorem orderOf_ne_unordered : orderOf x y ≠ unordered := by
  unfold orderOf unordered
  split_ifs <;> decide

/-- An order-preserving reading of both operands keeps the order. -/
theorem orderOf_congr {β : Type} [LinearOrder β] {a b : β} (hlt : a < b ↔ x < y)
    (hgt : b < a ↔ y < x) : orderOf a b = orderOf x y := by
  unfold orderOf
  simp only [hlt, hgt]

end Order

/-! ## What the comparisons return -/

theorem onLine_lt {p q : ℚ} : ((p : WithTop ℚ) : WithBot (WithTop ℚ)) < (q : WithTop ℚ) ↔ p < q := by
  rw [WithBot.coe_lt_coe, WithTop.coe_lt_coe]

theorem onLine_le {p q : ℚ} : ((p : WithTop ℚ) : WithBot (WithTop ℚ)) ≤ (q : WithTop ℚ) ↔ p ≤ q := by
  rw [WithBot.coe_le_coe, WithTop.coe_le_coe]

theorem onLine_inj {p q : ℚ} : ((p : WithTop ℚ) : WithBot (WithTop ℚ)) = (q : WithTop ℚ) ↔ p = q := by
  rw [WithBot.coe_inj, WithTop.coe_inj]

/-- Numbers are ordered on the line as they are. -/
theorem orderOf_onLine {p q : ℚ} :
    orderOf ((p : WithTop ℚ) : WithBot (WithTop ℚ)) (q : WithTop ℚ) = orderOf p q :=
  orderOf_congr onLine_lt onLine_lt

theorem orderOf_intCast {m n : Int} : orderOf (m : ℚ) (n : ℚ) = orderOf m n :=
  orderOf_congr Int.cast_lt Int.cast_lt

theorem compareSignedUnsigned_eq (s : Int64) (u : UInt64) :
    compareSignedUnsigned s u = orderOf s.toInt (u.toNat : Int) := by
  have hs : s < 0 ↔ s.toInt < 0 := Int64.lt_iff_toInt_lt
  unfold compareSignedUnsigned
  by_cases hneg : s < 0
  · rw [if_pos hneg, orderOf_lt]
    have := hs.mp hneg
    omega
  · rw [if_neg hneg]
    have hcast : (s.toUInt64.toNat : Int) = s.toInt := by
      have h0 : 0 ≤ s := Int64.not_lt.mp hneg
      rw [Int64.toNat_toUInt64_of_le h0]
      exact Int.toNat_of_nonneg (not_lt.mp fun h => hneg (hs.mpr h))
    unfold orderOf
    simp only [UInt64.lt_iff_toNat_lt, ← hcast, Nat.cast_lt]

theorem compareDoubles_eq {left right : Binary64} {x y : WithBot (WithTop ℚ)}
    (hx : left.ext = some x) (hy : right.ext = some y) : compareDoubles left right = orderOf x y := by
  have hleft : left.isNaN = false := by
    rw [← Bool.not_eq_true, ← ext_eq_none_iff, hx]
    simp
  have hright : right.isNaN = false := by
    rw [← Bool.not_eq_true, ← ext_eq_none_iff, hy]
    simp
  unfold compareDoubles Binary64.lt orderOf
  rw [hleft, hright, hx, hy]
  simp

/-- **The integer against the double**: the range tests, the truncation and the fraction together
    give the order of the two numbers. -/
theorem compareIntegral_eq {floating : Binary64} {lo hi z : Int} {y : WithBot (WithTop ℚ)}
    (hlo : (ofInt lo).isFinite ∧ (ofInt lo).toRat = lo)
    (hhi : (ofInt hi).isFinite ∧ (ofInt hi).toRat = hi) (hpos : 0 < hi) (hz : lo ≤ z ∧ z < hi)
    (hy : floating.ext = some y) :
    compareIntegral lo hi z floating =
      some (orderOf (((z : ℚ) : WithTop ℚ) : WithBot (WithTop ℚ)) y) := by
  have hlo' := ext_of_isFinite hlo.1
  have hhi' := ext_of_isFinite hhi.1
  rw [hlo.2] at hlo'
  rw [hhi.2] at hhi'
  have hzlo : (((lo : ℚ) : WithTop ℚ) : WithBot (WithTop ℚ)) ≤ ((z : ℚ) : WithTop ℚ) :=
    onLine_le.mpr (by exact_mod_cast hz.1)
  have hzhi : (((z : ℚ) : WithTop ℚ) : WithBot (WithTop ℚ)) < ((hi : ℚ) : WithTop ℚ) :=
    onLine_lt.mpr (by exact_mod_cast hz.2)
  unfold compareIntegral Binary64.le Binary64.lt Binary64.eq
  rw [hlo', hhi', hy]
  dsimp only
  by_cases hbeyond : (((hi : ℚ) : WithTop ℚ) : WithBot (WithTop ℚ)) ≤ y
  · rw [if_pos (decide_eq_true hbeyond), orderOf_lt (hzhi.trans_le hbeyond)]
  rw [if_neg (by simpa using hbeyond)]
  by_cases hbelow : y < (((lo : ℚ) : WithTop ℚ) : WithBot (WithTop ℚ))
  · rw [if_pos (decide_eq_true hbelow), orderOf_gt (hbelow.trans_le hzlo)]
  rw [if_neg (by simpa using hbelow)]
  -- between the bounds the double is finite
  have hfin : floating.isFinite = true := by
    by_contra hnot
    have hnan : floating.isNaN = false := by
      rw [← Bool.not_eq_true, ← ext_eq_none_iff, hy]
      simp
    rcases ext_of_not_isFinite (Bool.not_eq_true _ ▸ hnot) hnan with hbot | htop
    · rw [hy] at hbot
      cases hbot
      exact hbelow (WithBot.bot_lt_coe _)
    · rw [hy] at htop
      cases htop
      exact hbeyond (WithBot.coe_le_coe.mpr le_top)
  rw [ext_of_isFinite hfin] at hy
  cases hy
  rw [onLine_le, not_le] at hbeyond
  rw [onLine_lt, not_lt] at hbelow
  -- and within the range of the integer's type
  rw [castTo_of_mem hfin hpos hbelow hbeyond, orderOf_onLine]
  dsimp only [Option.bind_eq_bind, Option.bind_some]
  by_cases hne : z = floating.trunc
  · -- the integer parts agree: the fraction decides
    obtain ⟨hfin', hval⟩ := ofInt_trunc hfin
    rw [if_neg (not_not.mpr hne), ext_of_isFinite hfin', hval, ← hne]
    simp only [onLine_lt, onLine_inj]
    rcases lt_trichotomy (z : ℚ) floating.toRat with h | h | h
    · rw [orderOf_lt h]
      simp [h.ne', h]
    · rw [h, orderOf_self]
      simp
    · rw [orderOf_gt h]
      simp [h.ne, h.le]
  · rw [if_pos hne]
    rcases lt_or_gt_of_ne hne with hlt | hgt
    · rw [if_pos hlt, orderOf_lt ((lt_toRat_iff hne).mpr hlt)]
    · rw [if_neg hgt.not_gt, orderOf_gt ((toRat_lt_iff hne).mpr hgt)]

theorem compareUnsignedDouble_eq {n : UInt64} {d : Binary64} {y : WithBot (WithTop ℚ)}
    (hy : d.ext = some y) : compareUnsignedDouble n d =
      some (orderOf (((n.toNat : ℚ) : WithTop ℚ) : WithBot (WithTop ℚ)) y) := by
  have hzero : (ofInt 0).isFinite ∧ (ofInt 0).toRat = (0 : Int) :=
    ofInt_exact (m := 0) (k := 0) (by simp) (by norm_num) (by norm_num)
      (by simp only [Int.cast_zero, abs_zero]; positivity)
  have hbeyond : (ofInt (2 ^ 64)).isFinite ∧ (ofInt (2 ^ 64)).toRat = ((2 ^ 64 : Int) : ℚ) := by
    have := (ofInt_two_pow (n := 64) (by norm_num)).1
    exact ⟨this.1, by rw [this.2]; norm_num⟩
  have hlt := n.toNat_lt
  have := compareIntegral_eq (z := n.toNat) hzero hbeyond (by norm_num) ⟨by omega, by omega⟩ hy
  rwa [Int.cast_natCast] at this

theorem compareSignedDouble_eq {n : Int64} {d : Binary64} {y : WithBot (WithTop ℚ)}
    (hy : d.ext = some y) : compareSignedDouble n d =
      some (orderOf (((n.toInt : ℚ) : WithTop ℚ) : WithBot (WithTop ℚ)) y) := by
  obtain ⟨hpos, hneg⟩ := ofInt_two_pow (n := 63) (by norm_num)
  have hlowest : (ofInt (-2 ^ 63)).isFinite ∧ (ofInt (-2 ^ 63)).toRat = ((-2 ^ 63 : Int) : ℚ) :=
    ⟨hneg.1, by rw [hneg.2]; norm_num⟩
  have hbeyond : (ofInt (2 ^ 63)).isFinite ∧ (ofInt (2 ^ 63)).toRat = ((2 ^ 63 : Int) : ℚ) :=
    ⟨hpos.1, by rw [hpos.2]; norm_num⟩
  exact compareIntegral_eq hlowest hbeyond (by norm_num) ⟨n.le_toInt, n.toInt_lt⟩ hy

/-- **Numbers are compared exactly**: what two number nodes with a place compare to is the order
    of the places. -/
theorem evalCompareNumbers_eq {l r : Pjson} {x y : WithBot (WithTop ℚ)} (hx : l.place = some x)
    (hy : r.place = some y) : evalCompareNumbers l r = some (orderOf x y) := by
  have hnan : ∀ {d : Binary64} {z : WithBot (WithTop ℚ)}, d.ext = some z → d.isNaN = false := by
    intro d z hd
    rw [← Bool.not_eq_true, ← ext_eq_none_iff, hd]
    simp
  cases l with
  | jsonNumberInt m =>
    cases hx
    cases r with
    | jsonNumberInt n =>
      cases hy
      rw [orderOf_onLine, orderOf_intCast]
      simp only [evalCompareNumbers, orderOf, Int64.lt_iff_toInt_lt]
    | jsonNumberUInt n =>
      cases hy
      rw [orderOf_onLine, ← Int.cast_natCast, orderOf_intCast]
      exact congrArg some (compareSignedUnsigned_eq m n)
    | jsonNumberDouble d =>
      rw [evalCompareNumbers, hnan hy, if_neg (by simp)]
      exact compareSignedDouble_eq hy
    | _ => cases hy
  | jsonNumberUInt m =>
    cases hx
    cases r with
    | jsonNumberInt n =>
      cases hy
      -- The mixed cases are the mirrored comparison with its sign turned.
      rw [evalCompareNumbers, orderOf_onLine, ← Int.cast_natCast, orderOf_intCast,
        compareSignedUnsigned_eq, neg_orderOf]
    | jsonNumberUInt n =>
      cases hy
      rw [orderOf_onLine]
      simp only [evalCompareNumbers, orderOf, UInt64.lt_iff_toNat_lt, Nat.cast_lt]
    | jsonNumberDouble d =>
      rw [evalCompareNumbers, hnan hy, if_neg (by simp)]
      exact compareUnsignedDouble_eq hy
    | _ => cases hy
  | jsonNumberDouble d =>
    cases r with
    | jsonNumberInt n =>
      cases hy
      rw [evalCompareNumbers, hnan hx, if_neg (by simp), compareSignedDouble_eq hx, Option.map_some,
        neg_orderOf]
    | jsonNumberUInt n =>
      cases hy
      rw [evalCompareNumbers, hnan hx, if_neg (by simp), compareUnsignedDouble_eq hx, Option.map_some,
        neg_orderOf]
    | jsonNumberDouble e => exact congrArg some (compareDoubles_eq hx hy)
    | _ => cases hy
  | _ => cases hx

/-- A number node without a place holds a NaN; a comparison with it is unordered. -/
theorem evalCompareNumbers_unordered {l r : Pjson} (hl : l.isNumber = true) (hr : r.isNumber = true)
    (h : l.place = none ∨ r.place = none) : evalCompareNumbers l r = some unordered := by
  cases l <;> cases hl <;> cases r <;> cases hr <;>
    simp_all [Pjson.place, ext_eq_none_iff, evalCompareNumbers, compareDoubles]

theorem compareNumbers_eq {l r : Pjson} {x y : WithBot (WithTop ℚ)} (hx : l.place = some x)
    (hy : r.place = some y) : compareNumbers l r = orderOf x y := by
  rw [compareNumbers, evalCompareNumbers_eq hx hy, Option.getD_some]

theorem compareNumbers_unordered {l r : Pjson} (hl : l.isNumber = true) (hr : r.isNumber = true)
    (h : l.place = none ∨ r.place = none) : compareNumbers l r = unordered := by
  rw [compareNumbers, evalCompareNumbers_unordered hl hr h, Option.getD_some]

/-- **`_compareNumbers` returns zero** exactly on two numbers of one value. -/
theorem compareNumbers_eq_zero_iff {l r : Pjson} (hl : l.isNumber = true) (hr : r.isNumber = true) :
    compareNumbers l r = 0 ↔ ∃ x, l.place = some x ∧ r.place = some x := by
  cases hx : l.place with
  | none =>
    rw [compareNumbers_unordered hl hr (Or.inl hx)]
    simp [unordered]
  | some x =>
    cases hy : r.place with
    | none =>
      rw [compareNumbers_unordered hl hr (Or.inr hy)]
      simp [unordered]
    | some y =>
      rw [compareNumbers_eq hx hy, orderOf_eq_zero_iff]
      simp [eq_comm]

end ByteDance
