/-
  Number tokens in the parsers: the scanner both of them share, and the conversion.

  `scanJsonNumber` is a template over a cursor with `peek` and `take`; here it is a program over a
  `NumberCursor`, so that the DOM parser's local adapter and the SAX parser's byte-budgeted one
  run the same code.  A `take` that fails ends the scan without a text of its own, as in the
  source, where the caller tells the two cases apart by a null message.

  `convertNumberToken` goes through the C library: `strtoll` and `strtoull` with their `ERANGE`,
  and extraction of a `double` from a classic-locale stream.  The extraction is correctly rounded,
  stores the largest finite value and sets `failbit` on overflow, and on a result below the
  normal range may or may not set `failbit`: which, is up to the library and is the parameter
  `NumericLibrary`.
-/
import Pjson.Grammar.Number
import Pjson.Lib.Run

namespace ByteDance

open Decimal

/-! ## Exits of a parser -/

/-- The ways a parser function ends other than by returning `true`: `return false` after `fail`;
    the SAX cancellation exception; an exception of the handler, `std::bad_alloc` or another; a
    number scan that stopped, with its message if it has one; and two that no run reaches, an
    out-of-range read of the source buffer and the exhaustion of a loop bound. -/
inductive ParseExit where
  | failed
  | cancelled
  | handlerThrew (badAlloc : Bool)
  | scan (errorMessage : Option String)
  | outOfBounds
  | fuel
  deriving DecidableEq

/-- A parser function over a state of type `σ`. -/
abbrev ParseM (σ : Type) := EStateM ParseExit σ

/-! ## `scanJsonNumber` -/

/-- What `scanJsonNumber` asks of its cursor. -/
structure NumberCursor (σ : Type) where
  peek : ParseM σ (Option UInt8)
  take : ParseM σ (Option UInt8)

section Scan

variable {σ : Type} (cursor : NumberCursor σ)

/-- `if (!cursor.take(ch)) return false; text.push_back(ch);` -/
def scanTake (text : Bytes) : ParseM σ Bytes := do
  match ← cursor.take with
  | some ch => return text ++ [ch]
  | none => throw (.scan none)

/-- `do { take; push_back } while (peek is a digit)`. -/
def scanDigits : Nat → Bytes → ParseM σ Bytes
  | 0, _ => throw .fuel
  | fuel + 1, text => do
    let text ← scanTake cursor text
    match ← cursor.peek with
    | some ch => if IsDigit ch then scanDigits fuel text else return text
    | none => return text

/-- The optional sign; the digits must follow. -/
def scanSign : ParseM σ Bytes := do
  match ← cursor.peek with
  | none => throw (.scan (some "unexpected end of input; expected a value"))
  | some ch =>
    if ch = 0x2D then
      let text ← scanTake cursor []
      match ← cursor.peek with
      | none => throw (.scan (some "invalid number: expected digit"))
      | some _ => return text
    else return []

/-- The integer part: a single zero, or digits that do not start with one. -/
def scanInt (fuel : Nat) (text : Bytes) : ParseM σ Bytes := do
  match ← cursor.peek with
  | none => throw (.scan (some "invalid number: expected digit"))
  | some ch =>
    if ch = 0x30 then scanTake cursor text
    else if 0x31 ≤ ch ∧ ch ≤ 0x39 then scanDigits cursor fuel text
    else throw (.scan (some "invalid number: expected digit"))

/-- Digits that have to be there. -/
def scanSomeDigits (fuel : Nat) (text : Bytes) (errorMessage : String) : ParseM σ Bytes := do
  match ← cursor.peek with
  | none => throw (.scan (some errorMessage))
  | some ch =>
    if IsDigit ch then scanDigits cursor fuel text else throw (.scan (some errorMessage))

/-- The optional fraction, and whether there was one. -/
def scanFrac (fuel : Nat) (text : Bytes) : ParseM σ (Bytes × Bool) := do
  match ← cursor.peek with
  | none => return (text, false)
  | some ch =>
    if ch = 0x2E then
      let text ← scanTake cursor text
      let text ← scanSomeDigits cursor fuel text "invalid number: '.' must be followed by a digit"
      return (text, true)
    else return (text, false)

/-- The optional sign of an exponent. -/
def scanExpSign (text : Bytes) : ParseM σ Bytes := do
  match ← cursor.peek with
  | none => return text
  | some ch => if ch = 0x2B ∨ ch = 0x2D then scanTake cursor text else return text

/-- The optional exponent, and whether there was one. -/
def scanExp (fuel : Nat) (text : Bytes) : ParseM σ (Bytes × Bool) := do
  match ← cursor.peek with
  | none => return (text, false)
  | some ch =>
    if ch = 0x65 ∨ ch = 0x45 then
      let text ← scanTake cursor text
      let text ← scanExpSign cursor text
      let text ← scanSomeDigits cursor fuel text "invalid number: exponent must have a digit"
      return (text, true)
    else return (text, false)

/-- `scanJsonNumber`: the token's text, and whether it has a fraction or an exponent.  `fuel`
    bounds the digit loops. -/
def scanJsonNumber (fuel : Nat) : ParseM σ (Bytes × Bool) := do
  let text ← scanSign cursor
  let text ← scanInt cursor fuel text
  let (text, hasFrac) ← scanFrac cursor fuel text
  let (text, hasExp) ← scanExp cursor fuel text
  return (text, hasFrac || hasExp)

end Scan

section Invariants

open Run

variable {σ : Type} {c : NumberCursor σ} {I : σ → Prop} (hpeek : Keeps I c.peek) (htake : Keeps I c.take)
include htake

theorem scanTake_keeps (text : Bytes) : Keeps I (scanTake c text) :=
  htake.bindOption (Keeps.throw _) fun _ => Keeps.pure _

include hpeek

theorem scanDigits_keeps (fuel : Nat) (text : Bytes) : Keeps I (scanDigits c fuel text) := by
  induction fuel generalizing text with
  | zero => exact Keeps.throw _
  | succ fuel ih =>
    refine (scanTake_keeps htake _).bind fun text => ?_
    refine hpeek.bindOption (Keeps.pure _) fun ch => ?_
    apply Keeps.ite
    · exact ih _
    · exact Keeps.pure _

theorem scanSomeDigits_keeps (fuel : Nat) (text : Bytes) (message : String) :
    Keeps I (scanSomeDigits c fuel text message) := by
  refine hpeek.bindOption (Keeps.throw _) fun ch => ?_
  apply Keeps.ite
  · exact scanDigits_keeps hpeek htake _ _
  · exact Keeps.throw _

theorem scanSign_keeps : Keeps I (scanSign c) := by
  refine hpeek.bindOption (Keeps.throw _) fun ch => ?_
  apply Keeps.ite
  · refine (scanTake_keeps htake _).bind fun text => ?_
    exact hpeek.bindOption (Keeps.throw _) fun _ => Keeps.pure _
  · exact Keeps.pure _

theorem scanInt_keeps (fuel : Nat) (text : Bytes) : Keeps I (scanInt c fuel text) := by
  refine hpeek.bindOption (Keeps.throw _) fun ch => ?_
  apply Keeps.ite
  · exact scanTake_keeps htake _
  apply Keeps.ite
  · exact scanDigits_keeps hpeek htake _ _
  · exact Keeps.throw _

theorem scanFrac_keeps (fuel : Nat) (text : Bytes) : Keeps I (scanFrac c fuel text) := by
  refine hpeek.bindOption (Keeps.pure _) fun ch => ?_
  apply Keeps.ite
  · refine (scanTake_keeps htake _).bind fun text => ?_
    refine (scanSomeDigits_keeps hpeek htake _ _ _).bind fun text => ?_
    exact Keeps.pure _
  · exact Keeps.pure _

theorem scanExpSign_keeps (text : Bytes) : Keeps I (scanExpSign c text) := by
  refine hpeek.bindOption (Keeps.pure _) fun ch => ?_
  apply Keeps.ite
  · exact scanTake_keeps htake _
  · exact Keeps.pure _

theorem scanExp_keeps (fuel : Nat) (text : Bytes) : Keeps I (scanExp c fuel text) := by
  refine hpeek.bindOption (Keeps.pure _) fun ch => ?_
  apply Keeps.ite
  · refine (scanTake_keeps htake _).bind fun text => ?_
    refine (scanExpSign_keeps hpeek htake _).bind fun text => ?_
    refine (scanSomeDigits_keeps hpeek htake _ _ _).bind fun text => ?_
    exact Keeps.pure _
  · exact Keeps.pure _

/-- The scanner keeps what its cursor keeps. -/
theorem scanJsonNumber_keeps (fuel : Nat) : Keeps I (scanJsonNumber c fuel) := by
  refine (scanSign_keeps hpeek htake).bind fun text => ?_
  refine (scanInt_keeps hpeek htake fuel text).bind fun text => ?_
  refine (scanFrac_keeps hpeek htake fuel text).bind fun frac => ?_
  refine (scanExp_keeps hpeek htake fuel _).bind fun exp => ?_
  exact Keeps.pure _

end Invariants

/-! ## The C library's conversions -/

/-- `strtoll(text, nullptr, 10)` and whether it sets `errno` to `ERANGE`; a number token starts
    with its sign or a digit. -/
def strtoll (text : Bytes) : Int64 × Bool :=
  let negative := text.head? == some 0x2D
  let digits := (if negative then text.tail else text).takeWhile fun b => decide (IsDigit b)
  let n : Int := if negative then -(Decimal.value digits : Int) else Decimal.value digits
  if n < -2 ^ 63 then (Int64.minValue, true)
  else if 2 ^ 63 ≤ n then (Int64.maxValue, true)
  else (Int64.ofInt n, false)

/-- `strtoull(text, nullptr, 10)` of a text without a sign. -/
def strtoull (text : Bytes) : UInt64 × Bool :=
  let n := Decimal.value (text.takeWhile fun b => decide (IsDigit b))
  if 2 ^ 64 ≤ n then (UInt64.ofNat (2 ^ 64 - 1), true) else (UInt64.ofNat n, false)

/-- The decimal floating literal `text`, as a sign and an exact absolute value. -/
def readDecimal (text : Bytes) : Option (Bool × ℚ) :=
  let negative := text.head? == some 0x2D
  let s := if negative then text.tail else text
  let int := s.takeWhile fun b => decide (IsDigit b)
  let s := s.dropWhile fun b => decide (IsDigit b)
  let frac := if s.head? = some 0x2E then s.tail.takeWhile fun b => decide (IsDigit b) else []
  let s := if s.head? = some 0x2E then s.tail.dropWhile fun b => decide (IsDigit b) else s
  if int ++ frac = [] then none
  else
    match s with
    | [] => some (negative, Decimal.value (int ++ frac) * (10 : ℚ) ^ (-(frac.length : Int)))
    | mark :: s =>
      let negativeExp := s.head? == some 0x2D
      let ds := if negativeExp || s.head? == some 0x2B then s.tail else s
      let e : Int := if negativeExp then -(Decimal.value ds : Int) else Decimal.value ds
      if (mark = 0x65 ∨ mark = 0x45) ∧ ds ≠ [] ∧ AllDigits ds then
        some (negative, Decimal.value (int ++ frac) * (10 : ℚ) ^ (e - frac.length))
      else none

/-- What the standard leaves open about extraction: whether `failbit` is set on a nonzero value
    below the normal range. -/
structure NumericLibrary where
  underflowFails : Bool → ℚ → Bool

/-- The stream after `in >> std::noskipws >> value`. -/
structure Extraction where
  value : Binary64
  fail : Bool
  eof : Bool

/-- Extraction of a double from a classic-locale stream over `text`. -/
def extractDouble (lib : NumericLibrary) (text : Bytes) : Extraction :=
  match readDecimal text with
  | none => { value := Binary64.zero, fail := true, eof := false }
  | some (negative, mag) =>
    let d := Binary64.ofRat negative mag
    if d.isFinite = false then
      let limit := if negative then Binary64.maxFinite.neg else Binary64.maxFinite
      { value := limit, fail := true, eof := true }
    else
      let subnormal := decide (mag ≠ 0 ∧ mag < (2 : ℚ) ^ (-1022 : Int))
      { value := d, fail := subnormal && lib.underflowFails negative mag, eof := true }

/-! ## `parseDouble` and `convertNumberToken` -/

/-- `kExponentCap`. -/
def kExponentCap : Nat := 1000000000

/-- The loop over the significand: the ordinal of the first nonzero digit, the point left out. -/
def firstNonzeroFrom : Nat → Option Nat → Bytes → Option Nat
  | _, firstNonzero, [] => firstNonzero
  | digitOrdinal, firstNonzero, ch :: rest =>
    if ch = 0x2E then firstNonzeroFrom digitOrdinal firstNonzero rest
    else
      let firstNonzero :=
        if firstNonzero = none ∧ ch ≠ 0x30 then some digitOrdinal else firstNonzero
      firstNonzeroFrom (digitOrdinal + 1) firstNonzero rest

/-- The loop over the exponent digits; it stops at the cap. -/
def explicitExponentFrom : Nat → Bytes → Nat
  | explicitExponent, [] => explicitExponent
  | explicitExponent, ch :: rest =>
    let digit := ch.toNat - 0x30
    if explicitExponent > (kExponentCap - digit) / 10 then kExponentCap
    else explicitExponentFrom (explicitExponent * 10 + digit) rest

/-- The capped exponent of a token whose exponent part starts at `mark`. -/
def explicitExponent (text : Bytes) (exponentMark : Option Nat) : Int :=
  match exponentMark with
  | none => 0
  | some mark =>
    let s := text.drop (mark + 1)
    let negative := s.head? == some 0x2D
    let s := if negative || s.head? == some 0x2B then s.tail else s
    let e : Int := explicitExponentFrom 0 s
    if negative then -e else e

/-- The sum of the capped exponent and the place of the leading digit, kept within the cap. -/
def effectiveExponent (explicitExponent baseExponent : Int) : Int :=
  if explicitExponent > kExponentCap - baseExponent then kExponentCap
  else if explicitExponent < -kExponentCap - baseExponent then -kExponentCap
  else explicitExponent + baseExponent

/-- `parseDouble`: the value and whether a nonzero token became zero; `none` where the source
    returns `false`. -/
def parseDouble (lib : NumericLibrary) (text : Bytes) : Option (Binary64 × Bool) :=
  let stream := extractDouble lib text
  let cleanParse := !stream.fail && stream.eof
  if !cleanParse && (!stream.eof || !stream.value.isFinite) then none
  else
    let signOffset := if text.head? = some 0x2D then 1 else 0
    let exponentMark := text.findIdx? fun b => b == 0x65 || b == 0x45
    let significandEnd := exponentMark.getD text.length
    let significand := (text.take significandEnd).drop signOffset
    -- the search for the point starts after the sign and is void beyond the significand
    let point := significand.findIdx? fun b => b == 0x2E
    let digitsBeforePoint := point.getD significand.length
    match firstNonzeroFrom 0 none significand with
    | none => some (stream.value, false) -- exact zero cannot overflow
    | some firstNonzero =>
      if cleanParse then some (stream.value, stream.value.isZero)
      else
        let baseExponent : Int := digitsBeforePoint - firstNonzero - 1
        if effectiveExponent (explicitExponent text exponentMark) baseExponent ≥ 0 then none
        else some (stream.value, stream.value.isZero)

/-- The last part of `convertNumberToken`, for a token that is to be stored as a double. -/
def convertToDouble (lib : NumericLibrary) (text : Bytes) (allowLossy : Bool) :
    Except String ParsedNumber :=
  match parseDouble lib text with
  | none => .error "number out of range"
  | some (floatingValue, underflowToZero) =>
    if floatingValue.isFinite = false then .error "number out of range"
    else if underflowToZero && !allowLossy then
      .error "number underflows to zero; enable AllowLossyNumbers to permit rounding"
    else .ok (.FloatingPoint floatingValue)

/-- `convertNumberToken`: storage kind and value of a grammar-checked token, or the message. -/
def convertNumberToken (lib : NumericLibrary) (text : Bytes) (isFloat : Bool)
    (policy : NumberPolicy) : Except String ParsedNumber :=
  let allowLossy := policy == .AllowLossyNumbers
  if isFloat then convertToDouble lib text allowLossy
  else if (strtoll text).2 = false then .ok (.SignedInteger (strtoll text).1)
  else if text.head? ≠ some 0x2D ∧ (strtoull text).2 = false then
    .ok (.UnsignedInteger (strtoull text).1)
  else if allowLossy = false then
    .error "integer out of range; enable AllowLossyNumbers to store as double"
  else convertToDouble lib text allowLossy

end ByteDance
