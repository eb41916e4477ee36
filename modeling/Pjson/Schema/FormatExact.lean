/-
  What the scanners of the formats accept, and which faults they avoid.

  `ok_bind` takes a scanner that accepts apart into its steps, `avoids_bind` one that has no fault.  A
  position in a string stands for the suffix behind it: what a loop has read is what lies between two
  suffixes.  So a scanner by index is compared with a grammar by taking suffixes apart, and the
  bounds of an index are those of a suffix that is not empty.

  What is accepted is the grammar throughout (`ok_validDate`, `ok_validTime`, `ok_validDateTime`,
  `ok_validIPv4`, `ok_validIPv6`): an address that is accepted has so few groups that counting them
  has had no fault.  That the scanners have no fault at all is shown for every one but `validIPv6`,
  which never leaves its string, but may count too far.
-/
import Pjson.Schema.Format

namespace ByteDance

open Decimal Rfc3339 IpAddress

namespace Format

variable {α β : Type} {value : Bytes} {bad : FormatFault}

/-! ## Steps -/

/-- A check in two steps passes if both do. -/
theorem ok_bind {x : FormatM α} {f : α → FormatM β} {b : β} :
    (x >>= f) = .ok b ↔ ∃ a, x = .ok a ∧ f a = .ok b := by
  cases x with
  | ok a => exact ⟨fun h => ⟨a, rfl, h⟩, fun ⟨_, ha, h⟩ => (Except.ok.inj ha) ▸ h⟩
  | error e => exact ⟨fun h => (by cases h), fun ⟨_, ha, _⟩ => (by cases ha)⟩

/-- A sequence fails as its first part or, behind it, as the second. -/
theorem error_bind {x : FormatM α} {f : α → FormatM β} {e : FormatExit} :
    (x >>= f) = .error e ↔ x = .error e ∨ ∃ a, x = .ok a ∧ f a = .error e := by
  cases x with
  | ok a =>
    constructor
    · exact fun h => Or.inr ⟨a, rfl, h⟩
    · rintro (h | ⟨_, ha, h⟩)
      · cases h
      · cases ha
        exact h
  | error e' =>
    constructor
    · exact fun h => Or.inl (congrArg _ (Except.error.inj h))
    · rintro (h | ⟨_, ha, -⟩)
      · exact congrArg _ (Except.error.inj h)
      · cases ha

theorem ok_pure {a b : α} : (pure a : FormatM α) = .ok b ↔ b = a :=
  ⟨fun h => (Except.ok.inj h).symm, fun h => congrArg Except.ok h.symm⟩

/-- A condition passes if it holds. -/
@[simp] theorem ok_require {c : Prop} [Decidable c] {u : Unit} : require c = .ok u ↔ c := by
  unfold require
  split <;> simp [*]

/-- An index passes if it is one of the array, and gives the element there. -/
@[simp] theorem ok_access {array : List α} {i : Nat} {x : α} :
    access array i = .ok x ↔ array[i]? = some x := by
  unfold access
  split <;> simp [*]

/-- A byte passes if it is the one that is wanted. -/
@[simp] theorem ok_expect {i : Nat} {ch : UInt8} {u : Unit} :
    expect value i ch = .ok u ↔ value[i]? = some ch := by
  unfold expect
  rw [ok_bind]
  simp

/-- `substr` throws behind the end of the string, and only there. -/
@[simp] theorem ok_substr {pos count : Nat} {s : Bytes} :
    substr value pos count = .ok s ↔ pos ≤ value.length ∧ (value.drop pos).take count = s := by
  unfold substr
  split <;> simp [*]

/-- The scanner has no such fault. -/
def Avoids (bad : FormatFault) (x : FormatM α) : Prop := x ≠ .error (.fault bad)

theorem avoids_ok (a : α) : Avoids bad (.ok a : FormatM α) := by simp [Avoids]

theorem avoids_reject : Avoids bad (.error .reject : FormatM α) := by simp [Avoids]

/-- A check does not end so if neither of its steps does; the second runs on what the first returns. -/
theorem avoids_bind {x : FormatM α} {f : α → FormatM β} (hx : Avoids bad x)
    (hf : ∀ a, x = .ok a → Avoids bad (f a)) : Avoids bad (x >>= f) := by
  cases x with
  | ok a => exact hf a rfl
  | error e =>
    cases e with
    | reject => exact avoids_reject
    | fault fault =>
      intro h
      have hfault : fault = bad := FormatExit.fault.inj (Except.error.inj h)
      exact hx (by rw [hfault])

theorem avoids_require {c : Prop} [Decidable c] : Avoids bad (require c) := by
  unfold require
  split
  · exact avoids_ok _
  · exact avoids_reject

/-- A condition holds behind its check. -/
theorem avoids_check {c : Prop} [Decidable c] {f : Unit → FormatM β} (hf : c → Avoids bad (f ())) :
    Avoids bad (require c >>= f) :=
  avoids_bind avoids_require fun _ h => hf (ok_require.mp h)

/-- An index within the bounds is not out of bounds. -/
theorem avoids_access {array : List α} {i : Nat} (h : i < array.length) :
    Avoids bad (access array i) := by
  unfold access
  rw [List.getElem?_eq_getElem h]
  exact avoids_ok _

/-- Nor is a byte that is looked at within them. -/
theorem avoids_expect {i : Nat} (h : i < value.length) (ch : UInt8) : Avoids bad (expect value i ch) :=
  avoids_bind (avoids_access h) fun _ _ => avoids_require

/-- Nor a substring that starts within them. -/
theorem avoids_substr {pos count : Nat} (h : pos ≤ value.length) : Avoids bad (substr value pos count) := by
  unfold substr
  rw [if_pos h]
  exact avoids_ok _

/-- A check by cases, each of which may use its condition. -/
theorem avoids_ite {c : Prop} [Decidable c] {x y : FormatM α} (hx : c → Avoids bad x)
    (hy : ¬ c → Avoids bad y) : Avoids bad (if c then x else y) := by
  split
  · exact hx ‹_›
  · exact hy ‹_›

/-- A byte of a string and the suffixes around it. -/
theorem drop_eq_cons_iff {i : Nat} {ch : UInt8} :
    value[i]? = some ch ↔ value.drop i = ch :: value.drop (i + 1) := by
  constructor
  · intro h
    obtain ⟨hi, rfl⟩ := List.getElem?_eq_some_iff.mp h
    exact List.drop_eq_getElem_cons hi
  · intro h
    rw [← List.head?_drop, h, List.head?_cons]

/-- The source compares with the two ends of the range. -/
theorem isAsciiDigit_iff {ch : UInt8} : isAsciiDigit ch = true ↔ IsDigit ch := by
  unfold isAsciiDigit IsDigit
  rw [Bool.and_eq_true, decide_eq_true_eq, decide_eq_true_eq]

/-! ## Digits -/

/-- The bytes `parseFixedDigits` reads. -/
def slice (value : Bytes) (offset count : Nat) : Bytes := (value.drop offset).take count

/-- The loop reads exactly so many digits, and their decimal value comes on top of what has been read. -/
theorem ok_fixedDigitsFrom {count i result n : Nat} : fixedDigitsFrom value count i result = .ok n ↔
    (slice value i count).length = count ∧ AllDigits (slice value i count) ∧
      n = (slice value i count).foldl (fun v d => v * 10 + digitVal d) result := by
  induction count generalizing i result with
  | zero =>
    rw [fixedDigitsFrom, slice, List.take_zero]
    simp [AllDigits, eq_comm]
  | succ count ih =>
    rw [fixedDigitsFrom, ok_bind]
    cases hi : value[i]? with
    | none =>
      rw [slice, List.drop_eq_nil_of_le (List.getElem?_eq_none_iff.mp hi)]
      simp [hi]
    | some ch =>
      rw [slice, drop_eq_cons_iff.mp hi, List.take_succ_cons, allDigits_cons, List.length_cons,
        List.foldl_cons, Nat.add_right_cancel_iff]
      simp only [ok_access, hi, Option.some.injEq, ok_bind, ok_require, isAsciiDigit_iff]
      constructor
      · rintro ⟨_, rfl, _, hd, h⟩
        obtain ⟨hlen, hall, hn⟩ := ih.mp h
        exact ⟨hlen, ⟨hd, hall⟩, hn⟩
      · rintro ⟨hlen, ⟨hd, hall⟩, hn⟩
        exact ⟨ch, rfl, (), hd, ih.mpr ⟨hlen, hall, hn⟩⟩

/-- The loop stays within the string if its digits do. -/
theorem avoids_fixedDigitsFrom {count i result : Nat} (h : i + count ≤ value.length) :
    Avoids bad (fixedDigitsFrom value count i result) := by
  induction count generalizing i result with
  | zero => exact avoids_ok _
  | succ count ih =>
    rw [fixedDigitsFrom]
    exact avoids_bind (avoids_access (by omega)) fun _ _ => avoids_check fun _ => ih (by omega)

/-- `parseFixedDigits` reads so many digits. -/
theorem ok_parseFixedDigits {offset count n : Nat} (hpos : 0 < count) :
    parseFixedDigits value offset count = .ok n ↔
      (slice value offset count).length = count ∧ AllDigits (slice value offset count) ∧
        n = Decimal.value (slice value offset count) := by
  unfold parseFixedDigits
  rw [ok_bind]
  simp only [ok_require, ok_fixedDigitsFrom]
  constructor
  · rintro ⟨_, -, h⟩
    exact h
  · rintro ⟨hlen, h⟩
    have hcount := hlen
    rw [slice, List.length_take, List.length_drop] at hcount
    exact ⟨(), by omega, hlen, h⟩

/-- The bounds are checked before the loop, so it stays within them. -/
theorem avoids_parseFixedDigits (offset count : Nat) : Avoids bad (parseFixedDigits value offset count) :=
  avoids_check fun h => avoids_fixedDigitsFrom (by omega)

/-- The loop over digits stops at the first byte that is none, or at the end. -/
theorem skipDigits_eq (pos : Nat) :
    skipDigits value pos = .ok (pos + ((value.drop pos).takeWhile fun ch => decide (IsDigit ch)).length) := by
  induction hn : value.length - pos generalizing pos with
  | zero =>
    unfold skipDigits
    rw [if_neg (by omega), List.drop_eq_nil_of_le (by omega)]
    rfl
  | succ n ih =>
    have hlt : pos < value.length := by omega
    have hchar : access value pos = .ok value[pos] := ok_access.mpr (List.getElem?_eq_getElem hlt)
    unfold skipDigits
    rw [if_pos hlt, hchar, List.drop_eq_getElem_cons hlt, List.takeWhile_cons]
    show (if isAsciiDigit value[pos] = true then skipDigits value (pos + 1) else Except.ok pos) = _
    by_cases hd : IsDigit value[pos]
    · rw [if_pos (isAsciiDigit_iff.mpr hd), ih (pos + 1) (by omega)]
      simp only [hd, decide_true, if_true, List.length_cons]
      rw [Nat.add_assoc, Nat.add_comm 1]
    · rw [if_neg (fun h => hd (isAsciiDigit_iff.mp h))]
      simp [hd]

/-! ## Dates -/

/-- The test of the source is the rule of the Gregorian calendar. -/
theorem isLeapYear_iff {year : Nat} : isLeapYear year = true ↔ LeapYear year := by
  simp [isLeapYear, LeapYear]

/-- The table of the source is that of the standard. -/
theorem days_eq (year : Nat) {month : Nat} (h1 : 1 ≤ month) (h12 : month ≤ 12) :
    ∃ maxDay, days[month - 1]? = some maxDay ∧
      (if month = 2 ∧ isLeapYear year then 29 else maxDay) = daysInMonth year month := by
  by_cases hleap : LeapYear year <;> interval_cases month <;>
    simp [days, daysInMonth, hleap, isLeapYear_iff]

/-- A string of ten bytes, byte by byte. -/
theorem exists_ten {s : Bytes} (h : s.length = 10) :
    ∃ a b c d e f g i j k, s = [a, b, c, d, e, f, g, i, j, k] := by
  rcases s with _ | ⟨a, _ | ⟨b, _ | ⟨c, _ | ⟨d, _ | ⟨e, _ | ⟨f, _ | ⟨g, _ | ⟨i, _ | ⟨j, _ | ⟨k, _ | ⟨l, t⟩⟩⟩⟩⟩⟩⟩⟩⟩⟩⟩ <;>
    first
      | exact ⟨a, b, c, d, e, f, g, i, j, k, rfl⟩
      | simp at h

/-- **`validDate`** accepts what `full-date` of RFC 3339 derives, with days that the month has. -/
theorem ok_validDate {u : Unit} : validDate value = .ok u ↔ FullDate value := by
  unfold validDate
  simp only [ok_bind, ok_require, ok_expect, ok_access]
  constructor
  · rintro ⟨_, hlen, _, h4, _, h7, year, hyear, month, hmonth, day, hday, _, hrange, maxDay, hmax, hle⟩
    obtain ⟨a, b, c, d, e, f, g, i, j, k, rfl⟩ := exists_ten hlen
    obtain ⟨-, hy, rfl⟩ := (ok_parseFixedDigits (by decide)).mp hyear
    obtain ⟨-, hm, rfl⟩ := (ok_parseFixedDigits (by decide)).mp hmonth
    obtain ⟨-, hd, rfl⟩ := (ok_parseFixedDigits (by decide)).mp hday
    cases h4
    cases h7
    change AllDigits [a, b, c, d] at hy
    change AllDigits [f, g] at hm
    change AllDigits [j, k] at hd
    change ¬ (Decimal.value [f, g] < 1 ∨ Decimal.value [f, g] > 12 ∨ Decimal.value [j, k] < 1) at hrange
    change days[Decimal.value [f, g] - 1]? = some maxDay at hmax
    change Decimal.value [j, k] ≤ if Decimal.value [f, g] = 2 ∧
      isLeapYear (Decimal.value [a, b, c, d]) then 29 else maxDay at hle
    obtain ⟨maxDay', hmax', hdays⟩ := days_eq (Decimal.value [a, b, c, d])
      (show 1 ≤ Decimal.value [f, g] by omega) (by omega)
    -- The table and the leap day together are the length of the month.
    cases hmax.symm.trans hmax'
    obtain ⟨hy9, hyear4⟩ := fourDigits_value hy
    obtain ⟨-, hmonth2⟩ := twoDigits_value hm
    obtain ⟨-, hday2⟩ := twoDigits_value hd
    have hdate := FullDate.mk hy9 (by omega) (by omega) (by omega) (hdays ▸ hle)
    rw [hyear4, hmonth2, hday2] at hdate
    exact hdate
  · rintro ⟨hy, h1, h12, hd1, hd⟩
    rename_i year month day
    -- Two digits hold every day there is.
    have hday31 : day ≤ 99 := hd.trans (by
      unfold daysInMonth
      split_ifs <;> omega)
    obtain ⟨maxDay, hmax, hdays⟩ := days_eq year h1 h12
    have hpy : parseFixedDigits (fourDigits year ++ 0x2D :: (twoDigits month ++ 0x2D :: twoDigits day)) 0 4 =
        .ok year := (ok_parseFixedDigits (by decide)).mpr
      ⟨rfl, allDigits_fourDigits hy, (value_fourDigits hy).symm⟩
    have hpm : parseFixedDigits (fourDigits year ++ 0x2D :: (twoDigits month ++ 0x2D :: twoDigits day)) 5 2 =
        .ok month := (ok_parseFixedDigits (by decide)).mpr
      ⟨rfl, allDigits_twoDigits (by omega), (value_twoDigits (by omega)).symm⟩
    have hpd : parseFixedDigits (fourDigits year ++ 0x2D :: (twoDigits month ++ 0x2D :: twoDigits day)) 8 2 =
        .ok day := (ok_parseFixedDigits (by decide)).mpr
      ⟨rfl, allDigits_twoDigits (by omega), (value_twoDigits (by omega)).symm⟩
    exact ⟨(), rfl, (), rfl, (), rfl, year, hpy, month, hpm, day, hpd, (), by omega, maxDay, hmax,
      hdays.symm ▸ hd⟩

/-- A date has ten bytes, and all that is looked at is among them. -/
theorem avoids_validDate : Avoids bad (validDate value) := by
  unfold validDate
  refine avoids_check fun hlen => ?_
  refine avoids_bind (avoids_expect (by omega) _) fun _ _ => ?_
  refine avoids_bind (avoids_expect (by omega) _) fun _ _ => ?_
  refine avoids_bind (avoids_parseFixedDigits _ _) fun year _ => ?_
  refine avoids_bind (avoids_parseFixedDigits _ _) fun month _ => ?_
  refine avoids_bind (avoids_parseFixedDigits _ _) fun day _ => avoids_check fun hrange => ?_
  refine avoids_bind (avoids_access ?_) fun _ _ => avoids_require
  show month - 1 < 12
  omega

/-! ## Times -/

/-- What is skipped is a fraction, or nothing. -/
theorem skipFraction_sound {pos p : Nat} (h : skipFraction value pos = .ok p) :
    ∃ frac, SecFrac frac ∧ value.drop pos = frac ++ value.drop p ∧ p = pos + frac.length := by
  have hnone : ∃ frac, SecFrac frac ∧ value.drop pos = frac ++ value.drop pos ∧ pos = pos + frac.length :=
    ⟨[], .none, rfl, rfl⟩
  unfold skipFraction at h
  by_cases hlt : pos < value.length
  · rw [if_pos hlt, ok_bind] at h
    obtain ⟨ch, hch, h⟩ := h
    rw [ok_access, drop_eq_cons_iff] at hch
    by_cases hdot : ch = 0x2E
    · rw [if_pos hdot, ok_bind] at h
      obtain ⟨last, hlast, h⟩ := h
      obtain ⟨_, hne, h⟩ := ok_bind.mp h
      rw [ok_require] at hne
      rw [ok_pure] at h
      subst h
      rw [skipDigits_eq] at hlast
      have hlen := Except.ok.inj hlast
      have hsplit := List.takeWhile_append_dropWhile (p := fun ch => decide (IsDigit ch))
        (l := value.drop (pos + 1))
      have hdrop : value.drop p = (value.drop (pos + 1)).dropWhile fun ch => decide (IsDigit ch) := by
        rw [← hlen, ← List.drop_drop]
        have hleft := @List.drop_left _ ((value.drop (pos + 1)).takeWhile fun ch => decide (IsDigit ch))
          ((value.drop (pos + 1)).dropWhile fun ch => decide (IsDigit ch))
        rwa [hsplit] at hleft
      refine ⟨0x2E :: _, .some ?_ (allDigits_takeWhile (value.drop (pos + 1))), ?_, ?_⟩
      · intro hnil
        rw [hnil] at hlen
        exact hne hlen.symm
      · rw [hch, hdot, hdrop, List.cons_append, hsplit]
      · rw [List.length_cons]
        omega
    · rw [if_neg hdot, ok_pure] at h
      subst h
      exact hnone
  · rw [if_neg hlt, ok_pure] at h
    subst h
    exact hnone

/-- A fraction is skipped as a whole, up to the byte of the zone. -/
theorem skipFraction_complete {pos : Nat} {frac zone : Bytes} {b : UInt8} (hfrac : SecFrac frac)
    (hdrop : value.drop pos = frac ++ b :: zone) (hdigit : ¬ IsDigit b) (hdot : b ≠ 0x2E) :
    skipFraction value pos = .ok (pos + frac.length) := by
  have hlt : pos < value.length := by
    by_contra hge
    rw [List.drop_eq_nil_of_le (by omega)] at hdrop
    simp at hdrop
  unfold skipFraction
  rw [if_pos hlt, ok_bind]
  cases hfrac with
  | none =>
    have hch := drop_eq_cons_iff.mpr (show value.drop pos = b :: value.drop (pos + 1) by
      rw [← List.tail_drop, hdrop]
      rfl)
    refine ⟨b, ok_access.mpr hch, ?_⟩
    rw [if_neg hdot]
    rfl
  | some hne hall =>
    rename_i ds
    have htail : value.drop (pos + 1) = ds ++ b :: zone := by
      rw [← List.tail_drop, hdrop]
      rfl
    have hch := drop_eq_cons_iff.mpr (show value.drop pos = 0x2E :: value.drop (pos + 1) by
      rw [htail, hdrop]
      rfl)
    refine ⟨0x2E, ok_access.mpr hch, ?_⟩
    have htake : (ds ++ b :: zone).takeWhile (fun ch => decide (IsDigit ch)) = ds :=
      (takeWhile_digits hall (fun c hc => by
      rw [List.head?_cons, Option.some.injEq] at hc
      rwa [← hc])).1
    rw [if_pos rfl, skipDigits_eq, htail, htake, ok_bind]
    refine ⟨_, rfl, ok_bind.mpr ⟨(), ok_require.mpr ?_, ?_⟩⟩
    · have := List.length_pos_iff.mpr hne
      omega
    · rw [List.length_cons, ok_pure]
      omega

theorem avoids_skipFraction (pos : Nat) : Avoids bad (skipFraction value pos) := by
  unfold skipFraction
  refine avoids_ite (fun h => avoids_bind (avoids_access h) fun ch _ => ?_) fun _ => avoids_ok _
  refine avoids_ite (fun _ => ?_) fun _ => avoids_ok _
  rw [skipDigits_eq]
  exact avoids_bind (avoids_ok _) fun _ _ => avoids_check fun _ => avoids_ok _

/-- A string of six bytes, byte by byte. -/
theorem exists_six {s : Bytes} (h : s.length = 6) : ∃ a b c d e f, s = [a, b, c, d, e, f] := by
  rcases s with _ | ⟨a, _ | ⟨b, _ | ⟨c, _ | ⟨d, _ | ⟨e, _ | ⟨f, _ | ⟨g, t⟩⟩⟩⟩⟩⟩⟩ <;>
    first
      | exact ⟨a, b, c, d, e, f, rfl⟩
      | simp at h

/-- A slice behind a position is a slice of what stands behind it. -/
theorem slice_of_drop {pos k count : Nat} {s : Bytes} (h : value.drop pos = s) :
    slice value (pos + k) count = slice s k count := by
  rw [slice, slice, ← h, List.drop_drop]

/-- A byte behind a position is a byte of what stands behind it. -/
theorem getElem?_of_drop {pos k : Nat} {s : Bytes} (h : value.drop pos = s) :
    value[pos + k]? = s[k]? := by
  rw [← h, List.getElem?_drop]

/-- If the zone is `Z`, one byte is left. -/
theorem atZulu_true {pos : Nat} (h : atZulu value pos = .ok true) :
    ∃ ch, (ch = 0x5A ∨ ch = 0x7A) ∧ value.drop pos = ch :: value.drop (pos + 1) := by
  unfold atZulu at h
  by_cases hlt : pos < value.length
  · rw [if_pos hlt, ok_bind] at h
    obtain ⟨ch, hch, h⟩ := h
    rw [ok_pure] at h
    exact ⟨ch, of_decide_eq_true h.symm, drop_eq_cons_iff.mp (ok_access.mp hch)⟩
  · rw [if_neg hlt] at h
    cases h

/-- The test sees one byte only. -/
theorem atZulu_of {pos : Nat} {ch : UInt8} (h : value[pos]? = some ch) :
    atZulu value pos = .ok (decide (ch = 0x5A ∨ ch = 0x7A)) := by
  obtain ⟨hlt, -⟩ := List.getElem?_eq_some_iff.mp h
  unfold atZulu
  rw [if_pos hlt, ok_access.mpr h]
  rfl

theorem avoids_atZulu (pos : Nat) : Avoids bad (atZulu value pos) := by
  unfold atZulu
  exact avoids_ite (fun h => avoids_bind (avoids_access h) fun _ _ => avoids_ok _)
    fun _ => avoids_ok _

/-- What is read as an offset, up to the end of the string, is one, of that many minutes. -/
theorem timeOffset_sound {pos p : Nat} {offset : Int} (h : timeOffset value pos = .ok (offset, p))
    (hp : p = value.length) : TimeOffset offset (value.drop pos) := by
  unfold timeOffset at h
  obtain ⟨zulu, hz, h⟩ := ok_bind.mp h
  cases zulu with
  | true =>
    cases h
    obtain ⟨ch, hch, hdrop⟩ := atZulu_true hz
    rw [hdrop, List.drop_eq_nil_of_le (by omega)]
    rcases hch with rfl | rfl
    · exact .utc
    · exact .utcLower
  | false =>
    simp only [Bool.false_eq_true, if_false, ok_bind, ok_require, ok_access, ok_expect, ok_pure,
      Prod.mk.injEq] at h
    obtain ⟨_, hlen, sign, hsign, _, hpm, _, hcolon, hour, hh, minute, hm, _, hrange, hoffset, -⟩ := h
    have hsix : (value.drop pos).length = 6 := by rw [List.length_drop]; omega
    obtain ⟨a, b, c, d, e, f, hdrop⟩ := exists_six hsix
    have hslice1 : slice value (pos + 1) 2 = [b, c] := slice_of_drop hdrop
    have hslice4 : slice value (pos + 4) 2 = [e, f] := slice_of_drop hdrop
    rw [ok_parseFixedDigits (by decide), hslice1] at hh
    rw [ok_parseFixedDigits (by decide), hslice4] at hm
    obtain ⟨-, hbc, rfl⟩ := hh
    obtain ⟨-, hef, rfl⟩ := hm
    have ha : value[pos + 0]? = some a := getElem?_of_drop hdrop
    have hd : value[pos + 3]? = some d := getElem?_of_drop hdrop
    cases hsign.symm.trans ha
    cases hcolon.symm.trans hd
    obtain ⟨-, hbc2⟩ := twoDigits_value hbc
    obtain ⟨-, hef2⟩ := twoDigits_value hef
    rw [hoffset, hdrop]
    rcases hpm with rfl | rfl
    · have hzone := @TimeOffset.ahead (Decimal.value [b, c]) (Decimal.value [e, f])
        (by omega) (by omega)
      rw [hbc2, hef2] at hzone
      exact hzone
    · have hzone := @TimeOffset.behind (Decimal.value [b, c]) (Decimal.value [e, f])
        (by omega) (by omega)
      rw [hbc2, hef2] at hzone
      exact hzone

/-- A numeric offset of the standard. -/
theorem timeOffset_numeric {pos hour minute : Nat} {sign : UInt8} (hh : hour ≤ 23) (hm : minute ≤ 59)
    (hsign : sign = 0x2B ∨ sign = 0x2D)
    (hdrop : value.drop pos = sign :: (twoDigits hour ++ 0x3A :: twoDigits minute)) :
    timeOffset value pos =
      .ok (if sign = 0x2D then -(hour * 60 + minute : Int) else (hour * 60 + minute : Int), value.length) := by
  have hlen : pos + 6 = value.length := by
    have hsix := congrArg List.length hdrop
    rw [List.length_drop] at hsix
    simp only [twoDigits, List.length_cons, List.length_append, List.length_nil] at hsix
    omega
  have h0 : value[pos]? = some sign := getElem?_of_drop (k := 0) hdrop
  have h3 : value[pos + 3]? = some 0x3A := getElem?_of_drop hdrop
  have hslice1 : slice value (pos + 1) 2 = twoDigits hour := slice_of_drop hdrop
  have hslice4 : slice value (pos + 4) 2 = twoDigits minute := slice_of_drop hdrop
  have hhour : parseFixedDigits value (pos + 1) 2 = .ok hour := by
    rw [ok_parseFixedDigits (by decide), hslice1]
    exact ⟨rfl, allDigits_twoDigits (by omega), (value_twoDigits (by omega)).symm⟩
  have hminute : parseFixedDigits value (pos + 4) 2 = .ok minute := by
    rw [ok_parseFixedDigits (by decide), hslice4]
    exact ⟨rfl, allDigits_twoDigits (by omega), (value_twoDigits (by omega)).symm⟩
  have hzulu : atZulu value pos = .ok false := by
    rw [atZulu_of h0]
    rcases hsign with rfl | rfl <;> rfl
  unfold timeOffset
  refine ok_bind.mpr ⟨false, hzulu, ?_⟩
  simp only [Bool.false_eq_true, if_false, ok_bind, ok_require, ok_access, ok_expect, ok_pure, Prod.mk.injEq]
  exact ⟨(), hlen, sign, h0, (), hsign, (), h3, hour, hhour, minute, hminute, (), by omega, rfl, hlen.symm⟩

/-- An offset that ends the string is read, and nothing is left. -/
theorem timeOffset_complete {pos : Nat} {offset : Int} (h : TimeOffset offset (value.drop pos)) :
    timeOffset value pos = .ok (offset, value.length) := by
  generalize hzone : value.drop pos = zone at h
  have hzulu : ∀ ch, (ch = 0x5A ∨ ch = 0x7A) → value.drop pos = [ch] →
      timeOffset value pos = .ok (0, value.length) := by
    intro ch hch hdrop
    have hone := congrArg List.length hdrop
    rw [List.length_drop, List.length_singleton] at hone
    have h0 : value[pos]? = some ch := getElem?_of_drop (k := 0) hdrop
    unfold timeOffset
    refine ok_bind.mpr ⟨true, ?_, ?_⟩
    · rw [atZulu_of h0, decide_eq_true hch]
    · rw [if_pos rfl, show pos + 1 = value.length by omega]
      rfl
  cases h with
  | utc => exact hzulu _ (Or.inl rfl) hzone
  | utcLower => exact hzulu _ (Or.inr rfl) hzone
  | ahead hh hm => exact timeOffset_numeric hh hm (Or.inl rfl) hzone
  | behind hh hm => exact timeOffset_numeric hh hm (Or.inr rfl) hzone

/-- The length is checked before the digits of an offset are looked at. -/
theorem avoids_timeOffset (pos : Nat) : Avoids bad (timeOffset value pos) := by
  unfold timeOffset
  refine avoids_bind (avoids_atZulu pos) fun zulu _ => avoids_ite (fun _ => avoids_ok _) fun _ => ?_
  refine avoids_check fun hlen => avoids_bind (avoids_access (by omega)) fun _ _ => ?_
  refine avoids_check fun _ => avoids_bind (avoids_expect (by omega) _) fun _ _ => ?_
  refine avoids_bind (avoids_parseFixedDigits _ _) fun _ _ => ?_
  exact avoids_bind (avoids_parseFixedDigits _ _) fun _ _ => avoids_check fun _ => avoids_ok _

/-- The two steps of the source are a remainder that is not negative. -/
theorem utcMinute_eq (hour minute : Nat) (offset : Int) :
    utcMinute hour minute offset = (hour * 60 + minute - offset) % 1440 := by
  unfold utcMinute
  generalize (hour * 60 + minute - offset : Int) = t
  show (if t.tmod 1440 < 0 then t.tmod 1440 + 1440 else t.tmod 1440) = t % 1440
  rcases Int.le_total 0 t with h | h
  · rw [Int.tmod_eq_emod_of_nonneg h, if_neg (by omega)]
  · have hneg : t.tmod 1440 = -((-t) % 1440) := by
      rw [← Int.tmod_eq_emod_of_nonneg (by omega), Int.neg_tmod, Int.neg_neg]
    rw [hneg]
    split <;> omega

/-- A string of nine bytes or more, with the eight of a time in front. -/
theorem exists_eight {s : Bytes} (h : ¬ s.length < 9) :
    ∃ a b c d e f g i t, s = a :: b :: c :: d :: e :: f :: g :: i :: t := by
  rcases s with _ | ⟨a, _ | ⟨b, _ | ⟨c, _ | ⟨d, _ | ⟨e, _ | ⟨f, _ | ⟨g, _ | ⟨i, t⟩⟩⟩⟩⟩⟩⟩⟩ <;>
    first
      | exact ⟨a, b, c, d, e, f, g, i, t, rfl⟩
      | simp at h

/-- **`validTime`** accepts what `full-time` derives: a second of 60 only at the last minute of a day of
    UTC. -/
theorem ok_validTime {u : Unit} : validTime value = .ok u ↔ FullTime value := by
  unfold validTime
  simp only [ok_bind, ok_require, ok_expect]
  constructor
  · rintro ⟨_, hlen, _, h2, _, h5, hour, hh, minute, hm, second, hs, _, hrange, pos, hpos, ⟨offset, p⟩, hoff,
      _, hp, hleap⟩
    change p = value.length at hp
    -- The fraction and the zone first: what is left is eight bytes of fixed shape.
    obtain ⟨frac, hfrac, hdrop, -⟩ := skipFraction_sound hpos
    have hzone := timeOffset_sound hoff hp
    obtain ⟨a, b, c, d, e, f, g, i, t, rfl⟩ := exists_eight hlen
    cases h2
    cases h5
    obtain ⟨-, hab, rfl⟩ := (ok_parseFixedDigits (by decide)).mp hh
    obtain ⟨-, hde, rfl⟩ := (ok_parseFixedDigits (by decide)).mp hm
    obtain ⟨-, hgi, rfl⟩ := (ok_parseFixedDigits (by decide)).mp hs
    change AllDigits [a, b] at hab
    change AllDigits [d, e] at hde
    change AllDigits [g, i] at hgi
    change ¬ (Decimal.value [a, b] > 23 ∨ Decimal.value [d, e] > 59 ∨ Decimal.value [g, i] > 60) at hrange
    change (if Decimal.value [g, i] = 60 then
      require (utcMinute (Decimal.value [a, b]) (Decimal.value [d, e]) offset = 23 * 60 + 59)
      else pure ()) = Except.ok _ at hleap
    -- A leap second is taken only as the last of a day in UTC.
    have hsixty : Decimal.value [g, i] = 60 →
        ((Decimal.value [a, b] : Int) * 60 + (Decimal.value [d, e] : Int) - offset) % 1440 = 1439 := by
      intro h60
      rw [if_pos h60, ok_require, utcMinute_eq] at hleap
      exact hleap
    obtain ⟨-, hab2⟩ := twoDigits_value hab
    obtain ⟨-, hde2⟩ := twoDigits_value hde
    obtain ⟨-, hgi2⟩ := twoDigits_value hgi
    have htime := FullTime.mk (by omega) (by omega) (by omega) hfrac hzone hsixty
    rw [hab2, hde2, hgi2, ← hdrop] at htime
    exact htime
  · rintro ⟨hh, hm, hs, hfrac, hzone, hsixty⟩
    rename_i hour minute second offset frac zone
    obtain ⟨b, rest, hb, hdigit, hdot⟩ := hzone.head
    subst hb
    -- The other way: the zone begins with no digit and no dot, so the fraction ends there.
    have hfraction : skipFraction (twoDigits hour ++ 0x3A :: (twoDigits minute ++ 0x3A ::
        (twoDigits second ++ (frac ++ b :: rest)))) 8 = .ok (8 + frac.length) :=
      skipFraction_complete hfrac rfl hdigit hdot
    have hdrop : (twoDigits hour ++ 0x3A :: (twoDigits minute ++ 0x3A ::
        (twoDigits second ++ (frac ++ b :: rest)))).drop (8 + frac.length) = b :: rest := by
      rw [← List.drop_drop]
      exact List.drop_left
    have hoffset := timeOffset_complete (hdrop.symm ▸ hzone)
    refine ⟨(), ?_, (), rfl, (), rfl, hour, ?_, minute, ?_, second, ?_, (), by omega, _, hfraction, _, hoffset,
      (), rfl, ?_⟩
    · simp only [twoDigits, List.length_append, List.length_cons, List.length_nil]
      omega
    · exact (ok_parseFixedDigits (by decide)).mpr
        ⟨rfl, allDigits_twoDigits (by omega), (value_twoDigits (by omega)).symm⟩
    · exact (ok_parseFixedDigits (by decide)).mpr
        ⟨rfl, allDigits_twoDigits (by omega), (value_twoDigits (by omega)).symm⟩
    · exact (ok_parseFixedDigits (by decide)).mpr
        ⟨rfl, allDigits_twoDigits (by omega), (value_twoDigits (by omega)).symm⟩
    · show (if second = 60 then require (utcMinute hour minute offset = 23 * 60 + 59) else pure ()) = _
      by_cases h60 : second = 60
      · rw [if_pos h60, ok_require, utcMinute_eq]
        exact hsixty h60
      · rw [if_neg h60]
        rfl

/-- The length is checked before the fields of a time are looked at. -/
theorem avoids_validTime : Avoids bad (validTime value) := by
  unfold validTime
  refine avoids_check fun hlen => ?_
  refine avoids_bind (avoids_expect (by omega) _) fun _ _ => ?_
  refine avoids_bind (avoids_expect (by omega) _) fun _ _ => ?_
  refine avoids_bind (avoids_parseFixedDigits _ _) fun hour _ => ?_
  refine avoids_bind (avoids_parseFixedDigits _ _) fun minute _ => ?_
  refine avoids_bind (avoids_parseFixedDigits _ _) fun second _ => avoids_check fun _ => ?_
  refine avoids_bind (avoids_skipFraction _) fun pos _ => ?_
  refine avoids_bind (avoids_timeOffset _) fun r _ => avoids_check fun _ => ?_
  exact avoids_ite (fun _ => avoids_require) fun _ => avoids_ok _

theorem FullDate.length {s : Bytes} (h : FullDate s) : s.length = 10 := by
  cases h
  rfl

/-- **`validDateTime`** accepts a date, `T` or `t`, and a time. -/
theorem ok_validDateTime {u : Unit} : validDateTime value = .ok u ↔ DateTime value := by
  unfold validDateTime
  simp only [ok_bind, ok_require, ok_access, ok_substr, ok_validDate, ok_validTime]
  constructor
  · rintro ⟨_, hlen, sep, hsep, _, htt, date, ⟨-, rfl⟩, _, hdate, time, ⟨-, rfl⟩, htime⟩
    rw [List.take_of_length_le (by rw [List.length_drop]; omega)] at htime
    have hsplit : value = value.take 10 ++ sep :: value.drop 11 := by
      rw [← drop_eq_cons_iff.mp hsep, List.take_append_drop]
    rw [hsplit]
    exact .mk hdate htime htt
  · rintro ⟨hdate, htime, hsep⟩
    rename_i date time sep
    have hdate10 := FullDate.length hdate
    have hdrop : (date ++ sep :: time).drop 10 = sep :: time := by
      rw [← hdate10, List.drop_left]
    have hdrop11 : (date ++ sep :: time).drop 11 = time := by
      rw [← List.tail_drop, hdrop]
      rfl
    have htake : (date ++ sep :: time).take 10 = date := by rw [← hdate10, List.take_left]
    have hlong : 0 < time.length := by
      cases htime
      simp only [twoDigits, List.length_append, List.length_cons]
      omega
    have hlen : (date ++ sep :: time).length = 11 + time.length := by
      rw [List.length_append, List.length_cons]
      omega
    refine ⟨(), by omega, sep, ?_, (), hsep, date, ⟨by omega, htake⟩, (), hdate, time, ⟨by omega, ?_⟩, htime⟩
    · rw [← List.head?_drop, hdrop]
      rfl
    · rw [hdrop11]
      exact List.take_of_length_le (by omega)

/-- What is split off as a date and a time is within the string. -/
theorem avoids_validDateTime : Avoids bad (validDateTime value) := by
  unfold validDateTime
  refine avoids_check fun hlen => avoids_bind (avoids_access (by omega)) fun _ _ => ?_
  refine avoids_check fun _ => avoids_bind (avoids_substr (by omega)) fun _ _ => ?_
  refine avoids_bind avoids_validDate fun _ _ => ?_
  exact avoids_bind (avoids_substr (by omega)) fun _ _ => avoids_validTime

/-! ## IPv4 -/

/-- The digits at a position. -/
def digitsAt (value : Bytes) (pos : Nat) : Bytes := (value.drop pos).takeWhile fun ch => decide (IsDigit ch)

/-- A decimal value does not fall when digits are added. -/
theorem foldl_le (ds : Bytes) (v : Nat) : v ≤ ds.foldl (fun v d => v * 10 + digitVal d) v := by
  induction ds generalizing v with
  | nil => exact le_refl v
  | cons d ds ih =>
    rw [List.foldl_cons]
    exact le_trans (by omega) (ih _)

/-- The loop takes the digits, unless they exceed an octet. -/
theorem ok_octetLoop {pos octet e : Nat} (h : octet ≤ 255) : octetLoop value pos octet = .ok e ↔
    e = pos + (digitsAt value pos).length ∧
      (digitsAt value pos).foldl (fun v d => v * 10 + digitVal d) octet ≤ 255 := by
  induction hn : value.length - pos generalizing pos octet with
  | zero =>
    unfold octetLoop digitsAt
    rw [if_neg (by omega), List.drop_eq_nil_of_le (by omega)]
    simp [ok_pure, h]
  | succ n ih =>
    have hlt : pos < value.length := by omega
    unfold octetLoop digitsAt
    rw [if_pos hlt, ok_bind, List.drop_eq_getElem_cons hlt, List.takeWhile_cons]
    simp only [ok_access, List.getElem?_eq_getElem hlt, Option.some.injEq, exists_eq_left',
      isAsciiDigit_iff]
    by_cases hd : IsDigit value[pos]
    · simp only [hd, decide_true, if_true, List.length_cons, List.foldl_cons]
      show (if octet * 10 + digitVal value[pos] > 255 then Except.error .reject
        else octetLoop value (pos + 1) (octet * 10 + digitVal value[pos])) = _ ↔ _
      by_cases hbig : octet * 10 + digitVal value[pos] > 255
      · rw [if_pos hbig]
        have hle := foldl_le ((value.drop (pos + 1)).takeWhile fun ch => decide (IsDigit ch))
          (octet * 10 + digitVal value[pos])
        exact ⟨fun hx => (by cases hx), fun hx => absurd (hle.trans hx.2) (by omega)⟩
      · rw [if_neg hbig, ih (by omega) (by omega), digitsAt]
        exact and_congr_left fun _ => by omega
    · simp [hd, ok_pure, h]

/-- The loop over the digits of an octet stops at the end of the string. -/
theorem avoids_octetLoop (pos octet : Nat) : Avoids bad (octetLoop value pos octet) := by
  induction hn : value.length - pos generalizing pos octet with
  | zero =>
    unfold octetLoop
    rw [if_neg (by omega)]
    exact avoids_ok _
  | succ n ih =>
    unfold octetLoop
    refine avoids_ite (fun h => avoids_bind (avoids_access h) fun ch _ => ?_) fun _ => avoids_ok _
    exact avoids_ite (fun _ => avoids_ite (fun _ => avoids_reject) fun _ => ih _ _ (by omega))
      fun _ => avoids_ok _

/-- What follows the digits is no digit. -/
theorem digitsAt_split (pos : Nat) : value.drop pos =
      digitsAt value pos ++ value.drop (pos + (digitsAt value pos).length) ∧
    ∀ b, (value.drop (pos + (digitsAt value pos).length)).head? = some b → ¬ IsDigit b := by
  have hsplit := List.takeWhile_append_dropWhile (p := fun ch => decide (IsDigit ch)) (l := value.drop pos)
  have hdrop : value.drop (pos + (digitsAt value pos).length) =
      (value.drop pos).dropWhile fun ch => decide (IsDigit ch) := by
    rw [← List.drop_drop]
    have hleft := @List.drop_left _ ((value.drop pos).takeWhile fun ch => decide (IsDigit ch))
      ((value.drop pos).dropWhile fun ch => decide (IsDigit ch))
    rwa [hsplit] at hleft
  rw [hdrop]
  refine ⟨hsplit.symm, fun b hb => ?_⟩
  have hno := List.head?_dropWhile_not (fun ch => decide (IsDigit ch)) (value.drop pos)
  rw [hb] at hno
  simpa using hno

/-- A round reads an octet of the grammar. -/
theorem ok_octetAt {begin e : Nat} : octetAt value begin = .ok e ↔
    digitsAt value begin ∈ decOctet ∧ e = begin + (digitsAt value begin).length := by
  have hall : AllDigits (digitsAt value begin) := allDigits_takeWhile _
  have hhead : ∀ ch, value[begin]? = some ch → 1 < (digitsAt value begin).length →
      (digitsAt value begin).head? = some ch := by
    intro ch hch hlong
    have hsplit := (@digitsAt_split value begin).1
    have hfirst := congrArg List.head? hsplit
    rw [List.head?_drop, hch, List.head?_append_of_ne_nil _ (List.ne_nil_of_length_pos (by omega))] at hfirst
    exact hfirst.symm
  unfold octetAt
  rw [mem_decOctet_iff]
  simp only [ok_bind, ok_octetLoop (Nat.zero_le 255), ok_require]
  constructor
  · rintro ⟨pos, ⟨rfl, hval⟩, _, hdigits, h⟩
    rw [Nat.add_sub_cancel_left] at hdigits h
    have hne : digitsAt value begin ≠ [] := fun hnil => hdigits (Or.inl (by rw [hnil]; rfl))
    by_cases hlong : (digitsAt value begin).length > 1
    · rw [if_pos hlong] at h
      simp only [ok_bind, ok_access, ok_require, ok_pure] at h
      obtain ⟨ch, hch, _, hzero, rfl⟩ := h
      refine ⟨⟨hall, hne, by omega, fun _ => ?_, hval⟩, rfl⟩
      rw [hhead ch hch hlong]
      simpa using hzero
    · rw [if_neg hlong, ok_pure] at h
      exact ⟨⟨hall, hne, by omega, fun hl => absurd hl hlong, hval⟩, h⟩
  · rintro ⟨⟨-, hne, hlen, hzero, hval⟩, rfl⟩
    have hpos := List.length_pos_iff.mpr hne
    refine ⟨_, ⟨rfl, hval⟩, (), by omega, ?_⟩
    rw [Nat.add_sub_cancel_left]
    by_cases hlong : (digitsAt value begin).length > 1
    · rw [if_pos hlong]
      have hlt : begin < value.length := by
        by_contra hge
        rw [digitsAt, List.drop_eq_nil_of_le (by omega)] at hpos
        simp at hpos
      have hch := List.getElem?_eq_getElem hlt
      simp only [ok_bind, ok_access, ok_require, ok_pure]
      refine ⟨_, hch, (), fun h30 => hzero hlong ?_, trivial⟩
      rw [hhead _ hch hlong, h30]
    · rw [if_neg hlong]
      rfl

theorem avoids_octetAt (begin : Nat) : Avoids bad (octetAt value begin) := by
  unfold octetAt
  refine avoids_bind (avoids_octetLoop _ _) fun pos hpos => avoids_check fun hdigits => ?_
  refine avoids_ite (fun hlong => ?_) fun _ => avoids_ok _
  have hlt : begin < value.length := by
    by_contra hge
    rw [ok_octetLoop (Nat.zero_le 255), digitsAt, List.drop_eq_nil_of_le (by omega)] at hpos
    have := hpos.1
    simp at this
    omega
  exact avoids_bind (avoids_access hlt) fun _ _ => avoids_check fun _ => avoids_ok _

/-- An octet with what is behind it. -/
theorem octetAt_of_split {begin : Nat} {o t : Bytes} (ho : o ∈ decOctet) (hdrop : value.drop begin = o ++ t)
    (ht : ∀ b, t.head? = some b → ¬ IsDigit b) :
    octetAt value begin = .ok (begin + o.length) ∧ value.drop (begin + o.length) = t := by
  have hdigits : digitsAt value begin = o := by
    rw [digitsAt, hdrop]
    exact (takeWhile_digits (mem_decOctet_iff.mp ho).1 ht).1
  constructor
  · rw [ok_octetAt, hdigits]
    exact ⟨ho, rfl⟩
  · rw [← List.drop_drop, hdrop, List.drop_left]

/-- What is read as an octet is one, without leading zeros and at most 255. -/
theorem octetAt_sound {begin e : Nat} (h : octetAt value begin = .ok e) :
    ∃ o ∈ decOctet, value.drop begin = o ++ value.drop e := by
  rw [ok_octetAt] at h
  obtain ⟨ho, rfl⟩ := h
  exact ⟨_, ho, (digitsAt_split begin).1⟩

/-- The rounds before the last read an octet and a dot. -/
theorem ipv4Part_sound {begin part e : Nat} (hpart : part ≠ 3) (h : ipv4Part value begin part = .ok e) :
    ∃ o ∈ decOctet, value.drop begin = o ++ 0x2E :: value.drop e := by
  unfold ipv4Part at h
  obtain ⟨pos, hpos, h⟩ := ok_bind.mp h
  rw [if_pos hpart] at h
  simp only [ok_bind, ok_require, ok_expect, ok_pure] at h
  obtain ⟨_, -, _, hdot, rfl⟩ := h
  obtain ⟨o, ho, hdrop⟩ := octetAt_sound hpos
  exact ⟨o, ho, by rw [hdrop, drop_eq_cons_iff.mp hdot]⟩

/-- An octet that is not the last is read with the dot behind it. -/
theorem ipv4Part_complete {begin part : Nat} {o t : Bytes} (hpart : part ≠ 3) (ho : o ∈ decOctet)
    (hdrop : value.drop begin = o ++ 0x2E :: t) :
    ipv4Part value begin part = .ok (begin + o.length + 1) ∧ value.drop (begin + o.length + 1) = t := by
  obtain ⟨hpos, hrest⟩ := octetAt_of_split ho hdrop (by
    intro b hb
    cases hb
    decide)
  have htail : value.drop (begin + o.length + 1) = t := by
    rw [← List.tail_drop, hrest]
    rfl
  have hdot : value[begin + o.length]? = some 0x2E := by rw [drop_eq_cons_iff, hrest, htail]
  obtain ⟨hlt, -⟩ := List.getElem?_eq_some_iff.mp hdot
  refine ⟨?_, htail⟩
  unfold ipv4Part
  refine ok_bind.mpr ⟨_, hpos, ?_⟩
  rw [if_pos hpart]
  simp only [ok_bind, ok_require, ok_expect, ok_pure]
  exact ⟨(), hlt, (), hdot, trivial⟩

theorem avoids_ipv4Part (begin part : Nat) : Avoids bad (ipv4Part value begin part) := by
  unfold ipv4Part
  refine avoids_bind (avoids_octetAt begin) fun pos _ => avoids_ite (fun _ => ?_) fun _ => avoids_ok _
  exact avoids_check fun hlt => avoids_bind (avoids_expect hlt _) fun _ _ => avoids_ok _

/-- **`validIPv4`** accepts four octets with dots between them. -/
theorem ok_validIPv4 {u : Unit} : validIPv4 value = .ok u ↔ value ∈ ipv4Address := by
  unfold validIPv4 ipv4Address
  simp only [List.foldlM_cons, List.foldlM_nil, ok_bind, ok_pure, ok_require, mem_mul_byte_mul]
  constructor
  · rintro ⟨e, ⟨p, hp, q, hq, r, hr, s, hs, rfl⟩, hend⟩
    obtain ⟨o₁, ho₁, h₁⟩ := ipv4Part_sound (by decide) hp
    obtain ⟨o₂, ho₂, h₂⟩ := ipv4Part_sound (by decide) hq
    obtain ⟨o₃, ho₃, h₃⟩ := ipv4Part_sound (by decide) hr
    obtain ⟨pos, hpos, hlast⟩ := ok_bind.mp hs
    cases hlast
    obtain ⟨o₄, ho₄, h₄⟩ := octetAt_sound hpos
    rw [hend, List.drop_length, List.append_nil] at h₄
    refine ⟨o₁, ho₁, _, ⟨o₂, ho₂, _, ⟨o₃, ho₃, o₄, ho₄, rfl⟩, rfl⟩, ?_⟩
    rw [← h₄, ← h₃, ← h₂]
    exact h₁
  · rintro ⟨o₁, ho₁, _, ⟨o₂, ho₂, _, ⟨o₃, ho₃, o₄, ho₄, rfl⟩, rfl⟩, hvalue⟩
    have hdrop : value.drop 0 = o₁ ++ 0x2E :: (o₂ ++ 0x2E :: (o₃ ++ 0x2E :: o₄)) := hvalue
    obtain ⟨hp, hp'⟩ := ipv4Part_complete (show 0 ≠ 3 by decide) ho₁ hdrop
    obtain ⟨hq, hq'⟩ := ipv4Part_complete (show 1 ≠ 3 by decide) ho₂ hp'
    obtain ⟨hr, hr'⟩ := ipv4Part_complete (show 2 ≠ 3 by decide) ho₃ hq'
    obtain ⟨hs, -⟩ := octetAt_of_split ho₄ (hr'.trans (List.append_nil o₄).symm) (by simp)
    refine ⟨_, ⟨_, hp, _, hq, _, hr, _, ok_bind.mpr ⟨_, hs, rfl⟩, rfl⟩, ?_⟩
    have hpos := List.length_pos_iff.mpr (mem_decOctet_iff.mp ho₄).2.1
    have hlen := congrArg List.length hr'
    rw [List.length_drop] at hlen
    omega

theorem avoids_validIPv4 : Avoids bad (validIPv4 value) := by
  unfold validIPv4
  simp only [List.foldlM_cons, List.foldlM_nil]
  refine avoids_bind ?_ fun _ _ => avoids_require
  refine avoids_bind (avoids_ipv4Part _ _) fun _ _ => avoids_bind (avoids_ipv4Part _ _) fun _ _ => ?_
  refine avoids_bind (avoids_ipv4Part _ _) fun _ _ => avoids_bind (avoids_ipv4Part _ _) fun _ _ => ?_
  exact avoids_ok _

/-! ## Searching -/

/-- `find` returns `npos` if the pattern stands nowhere behind the start. -/
theorem find_eq_none_iff {pattern : Bytes} {start : Nat} : find value pattern start = none ↔
    ∀ j, start ≤ j → j ≤ value.length → ¬ pattern <+: value.drop j := by
  unfold find
  rw [List.find?_eq_none]
  simp only [List.mem_range, Bool.and_eq_true, decide_eq_true_eq, List.isPrefixOf_iff_prefix, not_and,
    Nat.lt_succ_iff]
  exact ⟨fun h j hs hl => h j hl hs, fun h j hl hs => h j hs hl⟩

/-- And otherwise the first place where it stands. -/
theorem find_eq_some_iff {pattern : Bytes} {start i : Nat} : find value pattern start = some i ↔
    start ≤ i ∧ i ≤ value.length ∧ pattern <+: value.drop i ∧
      ∀ j, start ≤ j → j < i → ¬ pattern <+: value.drop j := by
  unfold find
  rw [List.find?_range_eq_some]
  simp only [Bool.and_eq_true, decide_eq_true_eq, List.isPrefixOf_iff_prefix, List.mem_range, Bool.not_eq_true',
    Nat.lt_succ_iff, Bool.and_eq_false_iff, decide_eq_false_iff_not]
  constructor
  · rintro ⟨⟨hs, hp⟩, hl, hfirst⟩
    refine ⟨hs, hl, hp, fun j hsj hji hpj => ?_⟩
    rcases hfirst j hji with h | h
    · exact h hsj
    · rw [← List.isPrefixOf_iff_prefix, h] at hpj
      cases hpj
  · rintro ⟨hs, hl, hp, hfirst⟩
    refine ⟨⟨hs, hp⟩, hl, fun j hji => ?_⟩
    by_cases hsj : start ≤ j
    · refine Or.inr (Bool.eq_false_iff.mpr fun h => hfirst j hsj hji ?_)
      rwa [List.isPrefixOf_iff_prefix] at h
    · exact Or.inl hsj

/-- A pattern of one byte stands where the byte does. -/
theorem singleton_prefix_iff {c : UInt8} {j : Nat} : [c] <+: value.drop j ↔ value[j]? = some c := by
  rw [← List.head?_drop]
  cases value.drop j with
  | nil => simp
  | cons b t => simp [List.cons_prefix_cons, eq_comm]

/-- A pattern of one byte twice stands where the byte does, twice. -/
theorem pair_prefix_iff {c : UInt8} {j : Nat} :
    [c, c] <+: value.drop j ↔ value[j]? = some c ∧ value[j + 1]? = some c := by
  rw [← List.head?_drop, ← List.head?_drop, ← List.tail_drop]
  rcases value.drop j with _ | ⟨a, _ | ⟨b, t⟩⟩
  · simp
  · simp
  · simp [List.cons_prefix_cons, eq_comm]

/-- A byte is not found where it does not occur. -/
theorem find_byte_none_iff {c : UInt8} {start : Nat} :
    find value [c] start = none ↔ c ∉ value.drop start := by
  rw [find_eq_none_iff, List.mem_iff_getElem?]
  simp only [singleton_prefix_iff, List.getElem?_drop, not_exists]
  constructor
  · intro h k hk
    obtain ⟨hlt, -⟩ := List.getElem?_eq_some_iff.mp hk
    exact h _ (Nat.le_add_right _ _) hlt.le hk
  · intro h j hs _ hj
    obtain ⟨k, rfl⟩ := Nat.exists_eq_add_of_le hs
    exact h k hj

/-- A byte is found behind what does not contain it. -/
theorem find_byte_some {c : UInt8} {start i : Nat} (h : find value [c] start = some i) :
    ∃ token, c ∉ token ∧ value.drop start = token ++ c :: value.drop (i + 1) ∧ i = start + token.length := by
  obtain ⟨hs, -, hp, hfirst⟩ := find_eq_some_iff.mp h
  obtain ⟨k, rfl⟩ := Nat.exists_eq_add_of_le hs
  rw [singleton_prefix_iff] at hp
  obtain ⟨hlt, -⟩ := List.getElem?_eq_some_iff.mp hp
  have htoken : ((value.drop start).take k).length = k := by
    rw [List.length_take, List.length_drop]
    omega
  refine ⟨(value.drop start).take k, fun hmem => ?_, ?_, by rw [htoken]⟩
  · obtain ⟨j, hj⟩ := List.mem_iff_getElem?.mp hmem
    obtain ⟨hjk, -⟩ := List.getElem?_eq_some_iff.mp hj
    rw [htoken] at hjk
    rw [List.getElem?_take_of_lt hjk, List.getElem?_drop] at hj
    exact hfirst (start + j) (Nat.le_add_right _ _) (by omega) (singleton_prefix_iff.mpr hj)
  · rw [← drop_eq_cons_iff.mp hp, ← List.drop_drop, List.take_append_drop]

/-! ## IPv6 -/

/-- The three ranges of the source are the hexadecimal digits. -/
theorem isAsciiHex_iff {ch : UInt8} : isAsciiHex ch = true ↔ IsHexDigit ch := by
  unfold isAsciiHex IsHexDigit
  rw [Bool.or_eq_true, Bool.or_eq_true, isAsciiDigit_iff, IsDigit]
  simp only [Bool.and_eq_true, decide_eq_true_eq, or_assoc]

/-- The bytes of an address without colons. -/
theorem ipv4Address_bytes {s : Bytes} (h : s ∈ ipv4Address) :
    s ≠ [] ∧ 0x2E ∈ s ∧ 0x3A ∉ s := by
  have hoctet : ∀ o ∈ decOctet, 0x3A ∉ o := fun o ho hmem =>
    absurd ((mem_decOctet_iff.mp ho).1 _ hmem) (by decide)
  unfold ipv4Address at h
  simp only [mem_mul_byte_mul] at h
  obtain ⟨o₁, ho₁, _, ⟨o₂, ho₂, _, ⟨o₃, ho₃, o₄, ho₄, rfl⟩, rfl⟩, rfl⟩ := h
  have h₁ := hoctet o₁ ho₁
  have h₂ := hoctet o₂ ho₂
  have h₃ := hoctet o₃ ho₃
  have h₄ := hoctet o₄ ho₄
  simp [h₁, h₂, h₃, h₄]

/-- A group has neither a dot nor a colon, so the separators around it are found. -/
theorem h16_bytes {s : Bytes} (h : s ∈ h16) : s ≠ [] ∧ 0x2E ∉ s ∧ 0x3A ∉ s :=
  ⟨h.1, fun hmem => absurd (h.2.2 _ hmem) (by decide), fun hmem => absurd (h.2.2 _ hmem) (by decide)⟩

/-- What a token without colons counts for. -/
theorem ok_tokenUnits {token : Bytes} {may isLast : Bool} {k : Nat} (hne : token ≠ []) :
    tokenUnits token may isLast = .ok k ↔
      (token ∈ ipv4Address ∧ may = true ∧ isLast = true ∧ k = 2) ∨ (token ∈ h16 ∧ k = 1) := by
  unfold tokenUnits
  by_cases hdot : 0x2E ∈ token
  · rw [if_pos (fun hnone => find_byte_none_iff.mp hnone hdot)]
    simp only [ok_bind, ok_require, ok_validIPv4, ok_pure]
    constructor
    · rintro ⟨_, hmay, _, hlast, _, hip, rfl⟩
      exact Or.inl ⟨hip, hmay, hlast, rfl⟩
    · rintro (⟨hip, hmay, hlast, rfl⟩ | ⟨hhex, -⟩)
      · exact ⟨(), hmay, (), hlast, (), hip, rfl⟩
      · exact absurd hdot (h16_bytes hhex).2.1
  · rw [if_neg (not_not.mpr (find_byte_none_iff.mpr hdot))]
    simp only [ok_bind, ok_require, ok_pure, isAsciiHex_iff]
    constructor
    · rintro ⟨_, hlen, _, hhex, rfl⟩
      exact Or.inr ⟨⟨hne, by omega, hhex⟩, rfl⟩
    · rintro (⟨hip, -⟩ | ⟨hhex, rfl⟩)
      · exact absurd (ipv4Address_bytes hip).2.1 hdot
      · have hlen := hhex.2.1
        exact ⟨(), by omega, (), hhex.2.2, rfl⟩

/-- No check of a token reads outside of it. -/
theorem avoids_tokenUnits (token : Bytes) (may isLast : Bool) : Avoids bad (tokenUnits token may isLast) := by
  unfold tokenUnits
  refine avoids_ite (fun _ => avoids_check fun _ => avoids_check fun _ => ?_)
    fun _ => avoids_check fun _ => avoids_check fun _ => avoids_ok _
  exact avoids_bind avoids_validIPv4 fun _ _ => avoids_ok _

theorem groups_ne_nil {quad : Bool} {n : Nat} {s : Bytes} (h : Groups quad n s) : s ≠ [] := by
  cases h with
  | last hg => exact (h16_bytes hg).1
  | ipv4 _ hq => exact (ipv4Address_bytes hq).1
  | cons hg _ => simp

/-- Groups without a colon are one token. -/
theorem groups_token {quad : Bool} {n : Nat} {s : Bytes} (h : 0x3A ∉ s) : Groups quad n s ↔
    (s ∈ ipv4Address ∧ quad = true ∧ n = 2) ∨ (s ∈ h16 ∧ n = 1) := by
  constructor
  · intro hg
    cases hg with
    | last hg => exact Or.inr ⟨hg, rfl⟩
    | ipv4 hquad hq => exact Or.inl ⟨hq, hquad, rfl⟩
    | cons hg hs => simp at h
  · rintro (⟨hq, hquad, rfl⟩ | ⟨hg, rfl⟩)
    · exact .ipv4 hquad hq
    · exact .last hg

/-- A text has one first colon. -/
theorem cut_at_colon {a b s t : Bytes} (ha : 0x3A ∉ a) (hb : 0x3A ∉ b)
    (h : a ++ 0x3A :: s = b ++ 0x3A :: t) : a = b ∧ s = t := by
  have hcut := congrArg (List.takeWhile (· ≠ 0x3A)) h
  have hrest := congrArg (List.dropWhile (· ≠ 0x3A)) h
  have hfirst : ∀ c ∈ a, (decide (c ≠ 0x3A)) = true := fun c hc =>
    decide_eq_true fun heq => ha (heq ▸ hc)
  have hsecond : ∀ c ∈ b, (decide (c ≠ 0x3A)) = true := fun c hc =>
    decide_eq_true fun heq => hb (heq ▸ hc)
  rw [List.takeWhile_append_of_pos hfirst, List.takeWhile_append_of_pos hsecond] at hcut
  rw [List.dropWhile_append_of_pos hfirst, List.dropWhile_append_of_pos hsecond] at hrest
  simp at hcut hrest
  exact ⟨hcut, hrest⟩

/-- Groups with a colon are a token and more groups. -/
theorem groups_split {quad : Bool} {n : Nat} {token s : Bytes} (h : 0x3A ∉ token) :
    Groups quad n (token ++ 0x3A :: s) ↔ token ∈ h16 ∧ ∃ m, n = m + 1 ∧ Groups quad m s := by
  constructor
  · intro hg
    generalize hall : token ++ 0x3A :: s = all at hg
    cases hg with
    | last hg =>
      subst hall
      exact absurd (by simp : 0x3A ∈ token ++ 0x3A :: s) (h16_bytes hg).2.2
    | ipv4 _ hq =>
      subst hall
      exact absurd (by simp : 0x3A ∈ token ++ 0x3A :: s) (ipv4Address_bytes hq).2.2
    | @cons g s' m hg hs =>
      obtain ⟨rfl, rfl⟩ := cut_at_colon h (h16_bytes hg).2.2 hall
      exact ⟨hg, m, rfl, hs⟩
  · rintro ⟨hg, m, rfl, hs⟩
    exact .cons hg hs

/-- The groups are counted in an `int`: a count of 2^31 or more has no value. -/
@[simp] theorem ok_addUnits {units n u : Nat} :
    addUnits units n = .ok u ↔ u = units + n ∧ u < 2 ^ 31 := by
  unfold addUnits
  split_ifs with h
  · rw [Except.ok.injEq]
    exact ⟨fun heq => ⟨heq.symm, heq ▸ h⟩, fun heq => heq.1.symm⟩
  · refine iff_of_false (fun heq => by cases heq) ?_
    rintro ⟨rfl, hlt⟩
    exact h hlt

/-- A count that has no value is not an index that is out of bounds. -/
theorem avoids_addUnits (units n : Nat) : Avoids .outOfBounds (addUnits units n) := by
  unfold addUnits
  split_ifs <;> simp [Avoids]

variable {side : Bytes} {may : Bool}

/-- The loop reads groups and adds up their number, as long as it can. -/
theorem ok_sideLoop {start units u : Nat} (h : start ≤ side.length) :
    sideLoop side may start units = .ok u ↔
      ∃ n, u = units + n ∧ u < 2 ^ 31 ∧ Groups may n (side.drop start) := by
  induction hn : side.length - start using Nat.strong_induction_on generalizing start units with
  | _ k ih =>
    subst hn
    rw [sideLoop, if_pos h]
    split
    · -- the last token
      rename_i hnone
      have hcolon := find_byte_none_iff.mp hnone
      have htake : (side.drop start).take (side.length - start) = side.drop start :=
        List.take_of_length_le (by rw [List.length_drop])
      simp only [ok_bind, ok_require, ok_substr, htake, ok_addUnits]
      simp only [groups_token hcolon]
      constructor
      · rintro ⟨_, hne, _, ⟨-, rfl⟩, k, hk, rfl, hsmall⟩
        have hnil : side.drop start ≠ [] := by
          rw [Ne, List.drop_eq_nil_iff]
          omega
        refine ⟨k, rfl, hsmall, ((ok_tokenUnits hnil).mp hk).imp ?_ id⟩
        exact fun h => ⟨h.1, h.2.1, h.2.2.2⟩
      · rintro ⟨n, rfl, hsmall, hgroups⟩
        have hnil : side.drop start ≠ [] := by
          rcases hgroups with h | h
          · exact (ipv4Address_bytes h.1).1
          · exact (h16_bytes h.1).1
        have hne : side.length ≠ start := fun heq => hnil (List.drop_eq_nil_iff.mpr (by omega))
        refine ⟨(), hne, _, ⟨h, rfl⟩, n, (ok_tokenUnits hnil).mpr (hgroups.imp ?_ id), rfl, hsmall⟩
        exact fun h => ⟨h.1, h.2.1, rfl, h.2.2⟩
    · -- a token and a colon
      rename_i colon hsome
      obtain ⟨token, hcolon, hdrop, rfl⟩ := find_byte_some hsome
      have hlen := congrArg List.length hdrop
      rw [List.length_drop, List.length_append, List.length_cons, List.length_drop] at hlen
      have hle : start + token.length + 1 ≤ side.length := by
        obtain ⟨-, hb⟩ := find_bounds hsome
        rwa [List.length_singleton] at hb
      have htake : (side.drop start).take (start + token.length - start) = token := by
        rw [hdrop, Nat.add_sub_cancel_left, List.take_left]
      have hnotLast : decide (start + token.length = side.length) = false := decide_eq_false (by omega)
      simp only [ok_bind, ok_require, ok_substr, htake, hnotLast, ok_addUnits]
      rw [hdrop]
      simp only [groups_split hcolon]
      constructor
      · rintro ⟨_, hne, _, ⟨-, rfl⟩, k, hk, _, ⟨rfl, -⟩, hrest⟩
        have hnil : token ≠ [] := fun hnil => hne (by rw [hnil]; rfl)
        by_cases hlast : start + token.length + 1 = side.length
        · rw [if_pos hlast] at hrest
          cases hrest
        · rw [if_neg hlast] at hrest
          obtain ⟨n, rfl, hsmall, hgroups⟩ := (ih _ (by omega) hle rfl).mp hrest
          rcases (ok_tokenUnits hnil).mp hk with ⟨-, -, hbad, -⟩ | ⟨hhex, rfl⟩
          · cases hbad
          · exact ⟨n + 1, by omega, hsmall, hhex, n, rfl, hgroups⟩
      · rintro ⟨_, rfl, hsmall, hhex, n, rfl, hgroups⟩
        have hnil := (h16_bytes hhex).1
        have hpos := List.length_pos_iff.mpr hnil
        have hlast : start + token.length + 1 ≠ side.length := fun heq =>
          groups_ne_nil hgroups (List.drop_eq_nil_iff.mpr (by omega))
        refine ⟨(), by omega, _, ⟨h, rfl⟩, 1, (ok_tokenUnits hnil).mpr (Or.inr ⟨hhex, rfl⟩), _,
          ⟨rfl, by omega⟩, ?_⟩
        rw [if_neg hlast]
        exact (ih _ (by omega) hle rfl).mpr ⟨n, by omega, hsmall, hgroups⟩

/-- The loop over the tokens of a side cuts them off within the side. -/
theorem avoids_sideLoop (start units : Nat) : Avoids .outOfBounds (sideLoop side may start units) := by
  induction hn : side.length - start using Nat.strong_induction_on generalizing start units with
  | _ k ih =>
    subst hn
    rw [sideLoop]
    refine avoids_ite (fun hle => ?_) fun _ => avoids_ok _
    split
    · refine avoids_check fun _ => avoids_bind (avoids_substr hle) fun _ _ => ?_
      exact avoids_bind (avoids_tokenUnits _ _ _) fun _ _ => avoids_addUnits _ _
    · rename_i colon hsome
      obtain ⟨hge, hb⟩ := find_bounds hsome
      rw [List.length_singleton] at hb
      refine avoids_check fun _ => avoids_bind (avoids_substr hle) fun _ _ => ?_
      refine avoids_bind (avoids_tokenUnits _ _ _) fun _ _ => avoids_bind (avoids_addUnits _ _) fun _ _ => ?_
      exact avoids_ite (fun _ => avoids_reject) fun _ => ih _ (by omega) _ _ rfl

/-- **A side** is empty or groups with colons between them. -/
theorem ok_parseIPv6Side {units u : Nat} (hunits : units < 2 ^ 31) :
    parseIPv6Side side may units = .ok u ↔ ∃ n, u = units + n ∧ u < 2 ^ 31 ∧ Side may n side := by
  unfold parseIPv6Side Side
  by_cases hnil : side = []
  · rw [if_pos hnil, Except.ok.injEq]
    constructor
    · rintro rfl
      exact ⟨0, rfl, hunits, Or.inl ⟨hnil, rfl⟩⟩
    · rintro ⟨n, rfl, -, ⟨-, rfl⟩ | h⟩
      · rfl
      · exact absurd hnil (groups_ne_nil h)
  · rw [if_neg hnil, ok_sideLoop (Nat.zero_le _)]
    simp only [hnil, false_and, false_or, List.drop_zero]

theorem avoids_parseIPv6Side (units : Nat) : Avoids .outOfBounds (parseIPv6Side side may units) := by
  unfold parseIPv6Side
  exact avoids_ite (fun _ => avoids_ok _) fun _ => avoids_sideLoop _ _

/-- Behind every colon stands something else. -/
def LoneColons (s : Bytes) : Prop := ∀ j : Nat, s[j]? = some 0x3A → ∃ b : UInt8, s[j + 1]? = some b ∧ b ≠ 0x3A

/-- Without colons there are no two next to each other. -/
theorem loneColons_of_notMem {s : Bytes} (h : 0x3A ∉ s) : s.head? ≠ some 0x3A ∧ LoneColons s :=
  ⟨fun hh => h (List.mem_of_head? hh), fun _ hj => absurd (List.mem_of_getElem? hj) h⟩

/-- Between groups the colons stand alone, and none stands in front. -/
theorem groups_colon {quad : Bool} {n : Nat} {s : Bytes} (h : Groups quad n s) :
    s.head? ≠ some 0x3A ∧ LoneColons s := by
  induction h with
  | last hg => exact loneColons_of_notMem (h16_bytes hg).2.2
  | ipv4 _ hq => exact loneColons_of_notMem (ipv4Address_bytes hq).2.2
  | cons hg hs ih =>
    rename_i g s n
    obtain ⟨hne, -, hcolon⟩ := h16_bytes hg
    constructor
    · rw [List.head?_append_of_ne_nil _ hne]
      exact (loneColons_of_notMem hcolon).1
    · intro j hj
      rcases Nat.lt_trichotomy j g.length with hlt | heq | hgt
      · rw [List.getElem?_append_left hlt] at hj
        exact absurd (List.mem_of_getElem? hj) hcolon
      · obtain ⟨b, t, rfl⟩ := List.exists_cons_of_ne_nil (groups_ne_nil hs)
        refine ⟨b, ?_, fun hb => ih.1 (by rw [hb]; rfl)⟩
        rw [heq, List.getElem?_append_right (by omega), Nat.add_sub_cancel_left]
        rfl
      · obtain ⟨k, rfl⟩ := Nat.exists_eq_add_of_lt hgt
        rw [List.getElem?_append_right (by omega), show g.length + k + 1 - g.length = k + 1 by omega] at hj
        rw [List.getElem?_append_right (by omega),
          show g.length + k + 1 + 1 - g.length = k + 1 + 1 by omega]
        exact ih.2 k hj

/-- Nor are there two next to each other on a side. -/
theorem side_colon {quad : Bool} {n : Nat} {s : Bytes} (h : Side quad n s) : LoneColons s := by
  rcases h with ⟨rfl, -⟩ | h
  · exact (loneColons_of_notMem (by simp)).2
  · exact (groups_colon h).2

/-- There is no `::` among groups. -/
theorem find_pair_none {start : Nat} {s : Bytes} (hdrop : value.drop start = s) (h : LoneColons s) :
    find value [0x3A, 0x3A] start = none := by
  rw [find_eq_none_iff]
  intro j hs _ hp
  obtain ⟨k, rfl⟩ := Nat.exists_eq_add_of_le hs
  rw [pair_prefix_iff, getElem?_of_drop hdrop, Nat.add_assoc, getElem?_of_drop hdrop] at hp
  obtain ⟨b, hb, hne⟩ := h k hp.1
  rw [hp.2] at hb
  exact hne (Option.some.inj hb).symm

/-- The first `::` is the one between two sides. -/
theorem find_pair_some {l r : Bytes} (h : LoneColons l) :
    find (l ++ 0x3A :: 0x3A :: r) [0x3A, 0x3A] 0 = some l.length := by
  rw [find_eq_some_iff]
  refine ⟨Nat.zero_le _, by simp, ?_, fun j _ hj hp => ?_⟩
  · rw [List.drop_left]
    exact ⟨r, rfl⟩
  · rw [pair_prefix_iff, List.getElem?_append_left hj] at hp
    obtain ⟨b, hb, hne⟩ := h j hp.1
    obtain ⟨hlt, -⟩ := List.getElem?_eq_some_iff.mp hb
    rw [List.getElem?_append_left hlt, hb] at hp
    exact hne (Option.some.inj hp.2)

/-- **`validIPv6`** accepts IPv6 addresses only, and all of them. -/
theorem ok_validIPv6 {u : Unit} : validIPv6 value = .ok u ↔ value ∈ ipv6Address := by
  rw [mem_ipv6Address_iff]
  unfold validIPv6
  constructor
  · intro h
    obtain ⟨_, hne, h⟩ := ok_bind.mp h
    rw [ok_require] at hne
    -- Whether there is a double colon: without one, eight groups; with one, fewer.
    split at h
    · simp only [ok_bind, ok_require, ok_parseIPv6Side (Nat.two_pow_pos 31)] at h
      obtain ⟨_, ⟨n, rfl, -, hside⟩, hn⟩ := h
      rw [Nat.zero_add] at hn
      subst hn
      exact Or.inl (hside.resolve_left fun hs => hne hs.1)
    · rename_i compression hsome
      obtain ⟨-, -, hp, -⟩ := find_eq_some_iff.mp hsome
      obtain ⟨hfirst, hsecond⟩ := pair_prefix_iff.mp hp
      simp only [ok_bind, ok_require, ok_substr, ok_parseIPv6Side (Nat.two_pow_pos 31)] at h
      obtain ⟨_, -, left, ⟨-, rfl⟩, right, ⟨-, rfl⟩, _, ⟨n, rfl, hsmall, hl⟩, _, hright, hlt⟩ := h
      obtain ⟨m, rfl, -, hr⟩ := (ok_parseIPv6Side hsmall).mp hright
      rw [List.take_of_length_le (by rw [List.length_drop]; omega)] at hr
      refine Or.inr ⟨_, _, n, m, by omega, hl, hr, ?_⟩
      rw [← drop_eq_cons_iff.mp hsecond, ← drop_eq_cons_iff.mp hfirst, List.drop_zero, List.take_append_drop]
  · rintro (h | ⟨l, r, n, m, hle, hl, hr, rfl⟩)
    · have hnone := find_pair_none (List.drop_zero (l := value)) (groups_colon h).2
      refine ok_bind.mpr ⟨(), ok_require.mpr (groups_ne_nil h), ?_⟩
      rw [hnone]
      have hside := (ok_parseIPv6Side (Nat.two_pow_pos 31)).mpr ⟨8, rfl, by decide, Or.inr h⟩
      exact ok_bind.mpr ⟨8, hside, ok_require.mpr rfl⟩
    · have hsome := find_pair_some (r := r) (side_colon hl)
      have hdrop : (l ++ 0x3A :: 0x3A :: r).drop (l.length + 2) = r := by
        rw [← List.drop_drop, List.drop_left]
        rfl
      have hnone := find_pair_none hdrop (side_colon hr)
      have hlen : (l ++ 0x3A :: 0x3A :: r).length = l.length + 2 + r.length := by
        rw [List.length_append, List.length_cons, List.length_cons]
        omega
      refine ok_bind.mpr ⟨(), ok_require.mpr (by simp), ?_⟩
      rw [hsome]
      simp only [ok_bind, ok_require, ok_substr]
      -- At most seven groups in all, so the counter is far from its end.
      have hside : parseIPv6Side l false 0 = .ok n :=
        (ok_parseIPv6Side (Nat.two_pow_pos 31)).mpr ⟨n, by omega, by omega, hl⟩
      have hside' : parseIPv6Side r true n = .ok (n + m) :=
        (ok_parseIPv6Side (by omega)).mpr ⟨m, rfl, by omega, hr⟩
      refine ⟨(), hnone, l, ⟨by omega, ?_⟩, r, ⟨by omega, ?_⟩, n, hside, n + m, hside', by omega⟩
      · rw [List.drop_zero, List.take_left]
      · rw [hdrop]
        exact List.take_of_length_le (by omega)

/-- The two sides of `::` are cut off within the string. -/
theorem avoids_validIPv6 : Avoids .outOfBounds (validIPv6 value) := by
  unfold validIPv6
  refine avoids_check fun _ => ?_
  split
  · exact avoids_bind (avoids_parseIPv6Side _) fun _ _ => avoids_require
  · rename_i compression hsome
    obtain ⟨-, hb⟩ := find_bounds hsome
    change compression + 2 ≤ value.length at hb
    refine avoids_check fun _ => avoids_bind (avoids_substr (Nat.zero_le _)) fun _ _ => ?_
    refine avoids_bind (avoids_substr hb) fun _ _ => ?_
    refine avoids_bind (avoids_parseIPv6Side _) fun _ _ => ?_
    exact avoids_bind (avoids_parseIPv6Side _) fun _ _ => avoids_require

/-! ## The last format -/

theorem avoids_validUuid : Avoids bad (validUuid value) := by
  unfold validUuid
  refine avoids_check fun hlen => ?_
  refine avoids_bind (avoids_expect (by omega) _) fun _ _ => ?_
  refine avoids_bind (avoids_expect (by omega) _) fun _ _ => ?_
  refine avoids_bind (avoids_expect (by omega) _) fun _ _ => ?_
  refine avoids_bind (avoids_expect (by omega) _) fun _ _ => ?_
  have hloop : ∀ is : List Nat, (∀ i ∈ is, i < value.length) → Avoids bad (is.forM fun i => do
      if i = 8 ∨ i = 13 ∨ i = 18 ∨ i = 23 then return ()
      else require (isAsciiHex (← access value i) = true)) := by
    intro is hall
    induction is with
    | nil => exact avoids_ok _
    | cons i is ih =>
      rw [List.forall_mem_cons] at hall
      refine avoids_bind (avoids_ite (fun _ => avoids_ok _) fun _ => ?_) fun _ _ => ih hall.2
      exact avoids_bind (avoids_access hall.1) fun _ _ => avoids_require
  exact hloop _ fun i hi => List.mem_range.mp hi

end Format

end ByteDance
