/-
  The known formats.

  A scanner that returns `false` leaves by `reject`, and a step that has no meaning by a fault: an
  access outside its string, or an `int` that overflows.  Scanners read their string by index, as the
  source does; `access` is the only way to do so.  An `int` is the integer it stands for: all but one
  are bounded by the digits read.  The exception is `units`, which counts the groups of an IPv6
  address: nothing stops the loop when there are too many for an address, so a text of gigabytes can
  count past the largest `int`, and `addUnits` checks that it does not.

  Each scanner has two facts: what it accepts (`ok_…`), and the faults it avoids (`avoids_…`).
  Together with the grammars of the library they say that the formats are exact, as far as the count
  goes.
-/
import Pjson.Schema.Regex
import Pjson.Lib.Rfc3339
import Pjson.Lib.IpAddress

namespace ByteDance

/-- What has no meaning. -/
inductive FormatFault where
  /-- An access outside a string or a table. -/
  | outOfBounds
  /-- A signed sum outside its type. -/
  | overflow
  deriving DecidableEq

/-- The ways a scanner ends other than by `return true`. -/
inductive FormatExit where
  | reject
  | fault (fault : FormatFault)
  deriving DecidableEq

abbrev FormatM := Except FormatExit

namespace Format

/-! ## Strings -/

/-- `if (!c) return false`. -/
def require (c : Prop) [Decidable c] : FormatM Unit := if c then .ok () else .error .reject

/-- `array[i]`, of a string or of a table. -/
def access {α : Type} (array : List α) (i : Nat) : FormatM α :=
  match array[i]? with
  | some x => .ok x
  | none => .error (.fault .outOfBounds)

/-- `if (value[i] != ch) return false`. -/
def expect (value : Bytes) (i : Nat) (ch : UInt8) : FormatM Unit := do
  require ((← access value i) = ch)

/-- `value.find(pattern, start)`. -/
def find (value pattern : Bytes) (start : Nat) : Option Nat :=
  (List.range (value.length + 1)).find? fun i => decide (start ≤ i) && pattern.isPrefixOf (value.drop i)

/-- `value.substr(pos, count)`, which throws outside the string. -/
def substr (value : Bytes) (pos count : Nat) : FormatM Bytes :=
  if pos ≤ value.length then .ok ((value.drop pos).take count) else .error (.fault .outOfBounds)

/-! ## Dates and times -/

/-- The loop of `parseFixedDigits`. -/
def fixedDigitsFrom (value : Bytes) : Nat → Nat → Nat → FormatM Nat
  | 0, _, result => .ok result
  | count + 1, i, result => do
    let ch ← access value i
    require (isAsciiDigit ch = true)
    fixedDigitsFrom value count (i + 1) (result * 10 + (ch.toNat - 0x30))

/-- `parseFixedDigits`. -/
def parseFixedDigits (value : Bytes) (offset count : Nat) : FormatM Nat := do
  require (¬ (offset > value.length ∨ count > value.length - offset))
  fixedDigitsFrom value count offset 0

/-- `isLeapYear`. -/
def isLeapYear (year : Nat) : Bool := year % 4 == 0 && (year % 100 != 0 || year % 400 == 0)

/-- `days`. -/
def days : List Nat := [31, 28, 31, 30, 31, 30, 31, 31, 30, 31, 30, 31]

/-- `validDate`. -/
def validDate (value : Bytes) : FormatM Unit := do
  require (value.length = 10)
  expect value 4 0x2D
  expect value 7 0x2D
  let year ← parseFixedDigits value 0 4
  let month ← parseFixedDigits value 5 2
  let day ← parseFixedDigits value 8 2
  require (¬ (month < 1 ∨ month > 12 ∨ day < 1))
  let maxDay ← access days (month - 1)
  require (day ≤ if month = 2 ∧ isLeapYear year then 29 else maxDay)

/-- `while (pos < value.size() && isAsciiDigit(value[pos])) ++pos`. -/
def skipDigits (value : Bytes) (pos : Nat) : FormatM Nat := do
  if pos < value.length then
    if isAsciiDigit (← access value pos) then skipDigits value (pos + 1) else return pos
  else return pos
termination_by value.length - pos

/-- The fraction of `validTime`. -/
def skipFraction (value : Bytes) (pos : Nat) : FormatM Nat := do
  if pos < value.length then
    if (← access value pos) = 0x2E then
      let last ← skipDigits value (pos + 1)
      require (last ≠ pos + 1)
      return last
    else return pos
  else return pos

/-- Whether `value[pos]` is a `Z`. -/
def atZulu (value : Bytes) (pos : Nat) : FormatM Bool := do
  if pos < value.length then
    let ch ← access value pos
    return decide (ch = 0x5A ∨ ch = 0x7A)
  else return false

/-- The offset of `validTime`: `offsetMinutes`, and `pos` behind it. -/
def timeOffset (value : Bytes) (pos : Nat) : FormatM (Int × Nat) := do
  if ← atZulu value pos then return (0, pos + 1)
  else
    require (pos + 6 = value.length)
    let sign ← access value pos
    require (sign = 0x2B ∨ sign = 0x2D)
    expect value (pos + 3) 0x3A
    let offsetHour ← parseFixedDigits value (pos + 1) 2
    let offsetMinute ← parseFixedDigits value (pos + 4) 2
    require (¬ (offsetHour > 23 ∨ offsetMinute > 59))
    let offsetMinutes : Int := offsetHour * 60 + offsetMinute
    return (if sign = 0x2D then -offsetMinutes else offsetMinutes, pos + 6)

/-- `utcMinute`. -/
def utcMinute (hour minute : Nat) (offsetMinutes : Int) : Int :=
  let utcMinute := (hour * 60 + minute - offsetMinutes).tmod (24 * 60)
  if utcMinute < 0 then utcMinute + 24 * 60 else utcMinute

/-- `validTime`. -/
def validTime (value : Bytes) : FormatM Unit := do
  require (¬ value.length < 9)
  expect value 2 0x3A
  expect value 5 0x3A
  let hour ← parseFixedDigits value 0 2
  let minute ← parseFixedDigits value 3 2
  let second ← parseFixedDigits value 6 2
  require (¬ (hour > 23 ∨ minute > 59 ∨ second > 60))
  let pos ← skipFraction value 8
  let (offsetMinutes, pos) ← timeOffset value pos
  require (pos = value.length)
  if second = 60 then require (utcMinute hour minute offsetMinutes = 23 * 60 + 59) else return ()

/-- The date and the time of a `date-time`. -/
def validDateTime (value : Bytes) : FormatM Unit := do
  require (value.length > 11)
  let sep ← access value 10
  require (sep = 0x54 ∨ sep = 0x74)
  validDate (← substr value 0 10)
  validTime (← substr value 11 value.length)

/-! ## Addresses -/

/-- The digits of an octet; the result is the position behind them. -/
def octetLoop (value : Bytes) (pos octet : Nat) : FormatM Nat := do
  if pos < value.length then
    let ch ← access value pos
    if isAsciiDigit ch then
      if octet * 10 + (ch.toNat - 0x30) > 255 then throw .reject
      else octetLoop value (pos + 1) (octet * 10 + (ch.toNat - 0x30))
    else return pos
  else return pos
termination_by value.length - pos

/-- The octet of a round of `validIPv4`; the result is the position behind it. -/
def octetAt (value : Bytes) (begin : Nat) : FormatM Nat := do
  let pos ← octetLoop value begin 0
  let digits := pos - begin
  require (¬ (digits = 0 ∨ digits > 3))
  if digits > 1 then
    require ((← access value begin) ≠ 0x30)
    return pos
  else return pos

/-- A round of `validIPv4`: an octet, and a dot behind all but the last. -/
def ipv4Part (value : Bytes) (begin part : Nat) : FormatM Nat := do
  let pos ← octetAt value begin
  if part ≠ 3 then
    require (pos < value.length)
    expect value pos 0x2E
    return pos + 1
  else return pos

/-- `validIPv4`. -/
def validIPv4 (value : Bytes) : FormatM Unit := do
  let pos ← [0, 1, 2, 3].foldlM (ipv4Part value) 0
  require (pos = value.length)

/-- What a token of `parseIPv6Side` adds to `units`. -/
def tokenUnits (token : Bytes) (mayContainIPv4 isLast : Bool) : FormatM Nat := do
  if find token [0x2E] 0 ≠ none then
    require (mayContainIPv4 = true)
    require (isLast = true)
    validIPv4 token
    return 2
  else
    require (¬ token.length > 4)
    require (∀ ch ∈ token, isAsciiHex ch = true)
    return 1

theorem find_bounds {value pattern : Bytes} {start i : Nat} (h : find value pattern start = some i) :
    start ≤ i ∧ i + pattern.length ≤ value.length := by
  have hsome := List.find?_some h
  have hmem := List.mem_of_find?_eq_some h
  rw [Bool.and_eq_true, decide_eq_true_eq, List.isPrefixOf_iff_prefix] at hsome
  have hlen := hsome.2.length_le
  rw [List.length_drop] at hlen
  rw [List.mem_range] at hmem
  omega

/-- `units += n`, of an `int` that starts at zero. -/
def addUnits (units n : Nat) : FormatM Nat :=
  if units + n < 2 ^ 31 then .ok (units + n) else .error (.fault .overflow)

/-- The loop of `parseIPv6Side`. -/
def sideLoop (side : Bytes) (mayContainIPv4 : Bool) (start units : Nat) : FormatM Nat := do
  if start ≤ side.length then
    match h : find side [0x3A] start with
    | none =>
      require (side.length ≠ start)
      let token ← substr side start (side.length - start)
      addUnits units (← tokenUnits token mayContainIPv4 true)
    | some colon =>
      require (colon ≠ start)
      let token ← substr side start (colon - start)
      let units ← addUnits units (← tokenUnits token mayContainIPv4 (decide (colon = side.length)))
      if colon + 1 = side.length then throw .reject
      else sideLoop side mayContainIPv4 (colon + 1) units
  else return units
termination_by side.length - start
decreasing_by
  have hb := find_bounds h
  rw [List.length_singleton] at hb
  omega

/-- `parseIPv6Side`, which adds to `units`. -/
def parseIPv6Side (side : Bytes) (mayContainIPv4 : Bool) (units : Nat) : FormatM Nat :=
  if side = [] then .ok units else sideLoop side mayContainIPv4 0 units

/-- `validIPv6`. -/
def validIPv6 (value : Bytes) : FormatM Unit := do
  require (value ≠ [])
  match find value [0x3A, 0x3A] 0 with
  | none =>
    let units ← parseIPv6Side value true 0
    require (units = 8)
  | some compression =>
    require (find value [0x3A, 0x3A] (compression + 2) = none)
    let left ← substr value 0 compression
    let right ← substr value (compression + 2) value.length
    let units ← parseIPv6Side left false 0
    let units ← parseIPv6Side right true units
    require (units < 8)

/-- `validUuid`. -/
def validUuid (value : Bytes) : FormatM Unit := do
  require (value.length = 36)
  expect value 8 0x2D
  expect value 13 0x2D
  expect value 18 0x2D
  expect value 23 0x2D
  (List.range value.length).forM fun i => do
    if i = 8 ∨ i = 13 ∨ i = 18 ∨ i = 23 then return ()
    else require (isAsciiHex (← access value i) = true)

/-- What a scanner returns. -/
def returned : FormatM Unit → FormatM Bool
  | .ok () => .ok true
  | .error .reject => .ok false
  | .error (.fault fault) => .error (.fault fault)

end Format

open Format in
/-- `knownFormatValid`; `none` for a format that is not known. -/
def knownFormatValid (engine : EcmaRegex.Engine) (format value : Bytes) : FormatM (Option Bool) :=
  if format = ascii "date" then some <$> returned (validDate value)
  else if format = ascii "time" then some <$> returned (validTime value)
  else if format = ascii "date-time" then some <$> returned (validDateTime value)
  else if format = ascii "ipv4" then some <$> returned (validIPv4 value)
  else if format = ascii "ipv6" then some <$> returned (validIPv6 value)
  else if format = ascii "uuid" then some <$> returned (validUuid value)
  else if format = ascii "regex" then .ok (some (EcmaRegex.compile engine value))
  else .ok none

end ByteDance
