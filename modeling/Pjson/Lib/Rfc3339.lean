/-
  RFC 3339, section 5.6: full-date, full-time and date-time.

  A text is what its fields are written out as, and the fields are in the ranges of section 5.7: a day is
  one of its month, and second 60 is the last of a day in UTC, whatever the offset.
-/
import Pjson.Lib.Decimal

namespace Rfc3339

open Decimal

/-- `2DIGIT`. -/
def twoDigits (n : Nat) : List UInt8 := [digit (n / 10), digit (n % 10)]

/-- `4DIGIT`. -/
def fourDigits (n : Nat) : List UInt8 := twoDigits (n / 100) ++ twoDigits (n % 100)

/-- Appendix C. -/
def LeapYear (year : Nat) : Prop := year % 4 = 0 ∧ (year % 100 ≠ 0 ∨ year % 400 = 0)

instance (year : Nat) : Decidable (LeapYear year) := inferInstanceAs (Decidable (_ ∧ _))

/-- The table of section 5.7. -/
def daysInMonth (year month : Nat) : Nat :=
  if month = 2 then if LeapYear year then 29 else 28
  else if month = 4 ∨ month = 6 ∨ month = 9 ∨ month = 11 then 30 else 31

/-- `full-date`. -/
inductive FullDate : List UInt8 → Prop
  | mk {year month day : Nat} : year ≤ 9999 → 1 ≤ month → month ≤ 12 → 1 ≤ day →
      day ≤ daysInMonth year month →
      FullDate (fourDigits year ++ 0x2D :: (twoDigits month ++ 0x2D :: twoDigits day))

/-- `time-secfrac`, which may be absent. -/
inductive SecFrac : List UInt8 → Prop
  | none : SecFrac []
  | some {ds : List UInt8} : ds ≠ [] → AllDigits ds → SecFrac (0x2E :: ds)

/-- `time-offset`, with its minutes; the `Z` may be of either case. -/
inductive TimeOffset : Int → List UInt8 → Prop
  | utc : TimeOffset 0 [0x5A]
  | utcLower : TimeOffset 0 [0x7A]
  | ahead {hour minute : Nat} : hour ≤ 23 → minute ≤ 59 →
      TimeOffset (hour * 60 + minute) (0x2B :: (twoDigits hour ++ 0x3A :: twoDigits minute))
  | behind {hour minute : Nat} : hour ≤ 23 → minute ≤ 59 →
      TimeOffset (-(hour * 60 + minute)) (0x2D :: (twoDigits hour ++ 0x3A :: twoDigits minute))

/-- `full-time`; second 60 is at 23:59 UTC. -/
inductive FullTime : List UInt8 → Prop
  | mk {hour minute second : Nat} {offset : Int} {frac zone : List UInt8} :
      hour ≤ 23 → minute ≤ 59 → second ≤ 60 → SecFrac frac → TimeOffset offset zone →
      (second = 60 → (hour * 60 + minute - offset) % 1440 = 1439) →
      FullTime (twoDigits hour ++ 0x3A :: (twoDigits minute ++ 0x3A :: (twoDigits second ++ (frac ++ zone))))

/-- `date-time`; the `T` may be of either case. -/
inductive DateTime : List UInt8 → Prop
  | mk {date time : List UInt8} {sep : UInt8} : FullDate date → FullTime time → sep = 0x54 ∨ sep = 0x74 →
      DateTime (date ++ sep :: time)

/-! ## Two digits -/

theorem allDigits_twoDigits {n : Nat} (h : n < 100) : AllDigits (twoDigits n) := by
  have h1 : IsDigit (digit (n / 10)) := isDigit_digit (by omega)
  have h2 : IsDigit (digit (n % 10)) := isDigit_digit (by omega)
  simp [twoDigits, AllDigits, h1, h2]

theorem value_twoDigits {n : Nat} (h : n < 100) : value (twoDigits n) = n := by
  have h1 : digitVal (digit (n / 10)) = n / 10 := digitVal_digit (by omega)
  have h2 : digitVal (digit (n % 10)) = n % 10 := digitVal_digit (by omega)
  simp only [twoDigits, value, List.foldl_cons, List.foldl_nil, h1, h2]
  omega

/-- Two digits are a number below a hundred. -/
theorem twoDigits_value {a b : UInt8} (h : AllDigits [a, b]) :
    value [a, b] < 100 ∧ twoDigits (value [a, b]) = [a, b] := by
  have ha := h a (by simp)
  have hb := h b (by simp)
  have h1 := digitVal_lt ha
  have h2 := digitVal_lt hb
  have hv : value [a, b] = digitVal a * 10 + digitVal b := by simp [value]
  have hhigh : value [a, b] / 10 = digitVal a := by omega
  have hlow : value [a, b] % 10 = digitVal b := by omega
  refine ⟨by omega, ?_⟩
  rw [twoDigits, hhigh, hlow, digit_digitVal ha, digit_digitVal hb]

theorem allDigits_fourDigits {n : Nat} (h : n ≤ 9999) : AllDigits (fourDigits n) :=
  allDigits_append.mpr ⟨allDigits_twoDigits (by omega), allDigits_twoDigits (by omega)⟩

theorem value_fourDigits {n : Nat} (h : n ≤ 9999) : value (fourDigits n) = n := by
  rw [fourDigits, value_append, value_twoDigits (by omega), value_twoDigits (by omega)]
  simp only [twoDigits, List.length_cons, List.length_nil]
  omega

/-- Four digits are a number below ten thousand. -/
theorem fourDigits_value {a b c d : UInt8} (h : AllDigits [a, b, c, d]) :
    value [a, b, c, d] ≤ 9999 ∧ fourDigits (value [a, b, c, d]) = [a, b, c, d] := by
  rw [show [a, b, c, d] = [a, b] ++ [c, d] from rfl, allDigits_append] at h
  obtain ⟨h1, hab⟩ := twoDigits_value h.1
  obtain ⟨h2, hcd⟩ := twoDigits_value h.2
  have hv : value [a, b, c, d] = value [a, b] * 100 + value [c, d] := by
    rw [show [a, b, c, d] = [a, b] ++ [c, d] from rfl, value_append]
    rfl
  have hhigh : value [a, b, c, d] / 100 = value [a, b] := by omega
  have hlow : value [a, b, c, d] % 100 = value [c, d] := by omega
  refine ⟨by omega, ?_⟩
  rw [fourDigits, hhigh, hlow, hab, hcd]
  rfl

/-- An offset begins with no digit and no dot. -/
theorem TimeOffset.head {offset : Int} {zone : List UInt8} (h : TimeOffset offset zone) :
    ∃ b rest, zone = b :: rest ∧ ¬ IsDigit b ∧ b ≠ 0x2E := by
  cases h with
  | utc => exact ⟨_, _, rfl, by decide, by decide⟩
  | utcLower => exact ⟨_, _, rfl, by decide, by decide⟩
  | ahead => exact ⟨_, _, rfl, by decide, by decide⟩
  | behind => exact ⟨_, _, rfl, by decide, by decide⟩

end Rfc3339
