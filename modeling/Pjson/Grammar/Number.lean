/-
  The number token of RFC 8259 and what it denotes.

  `NumberToken` is a token taken apart along the grammar

      -? ( 0 | [1-9][0-9]* ) ( . [0-9]+ )? ( [eE] [+-]? [0-9]+ )?

  with the shape of each part as a field, so that no other string can be built; `text` is its
  spelling and `mag` the absolute value it denotes, an exact rational.  `NumberToken.denote` is
  what a number policy makes of a token: the exact integer where a 64-bit integer kind holds it,
  else the nearest double, unless the policy forbids the rounding or the value overflows.
-/
import Pjson.Parser.Error
import Pjson.Lib.Decimal

namespace ByteDance

open Decimal

/-- The exponent part of a number token. -/
structure Exponent where
  mark : UInt8
  sign : Option UInt8
  digits : Bytes
  mark_shape : mark = 0x65 ∨ mark = 0x45
  sign_shape : ∀ b, sign = some b → b = 0x2B ∨ b = 0x2D
  digits_shape : AllDigits digits ∧ digits ≠ []

namespace Exponent

/-- The small mark is one. -/
theorem small_mark : (0x65 : UInt8) = 0x65 ∨ (0x65 : UInt8) = 0x45 := Or.inl rfl

def text (e : Exponent) : Bytes := e.mark :: (e.sign.toList ++ e.digits)

/-- The exponent as a number. -/
def value (e : Exponent) : Int :=
  if e.sign = some 0x2D then -(Decimal.value e.digits : Int) else Decimal.value e.digits

end Exponent

/-- A number token. -/
structure NumberToken where
  negative : Bool
  int : Bytes
  frac : Option Bytes
  exp : Option Exponent
  int_digits : AllDigits int
  int_shape : int = [0x30] ∨ ∃ d ds, int = d :: ds ∧ d ≠ 0x30
  frac_shape : ∀ ds, frac = some ds → AllDigits ds ∧ ds ≠ []

namespace NumberToken

/-- The spelling of the fraction part. -/
def fracText (frac : Option Bytes) : Bytes :=
  match frac with
  | none => []
  | some ds => 0x2E :: ds

/-- The spelling of the exponent part. -/
def expText (exp : Option Exponent) : Bytes :=
  match exp with
  | none => []
  | some e => e.text

/-- The spelling of the sign. -/
def signText (negative : Bool) : Bytes := if negative then [0x2D] else []

/-- The spelling of the token. -/
def text (t : NumberToken) : Bytes :=
  signText t.negative ++ (t.int ++ (fracText t.frac ++ expText t.exp))

/-- Whether the token has a fraction or an exponent. -/
def isFloat (t : NumberToken) : Bool := t.frac.isSome || t.exp.isSome

/-- The digits of the significand, the point left out. -/
def digits (t : NumberToken) : Bytes := t.int ++ t.frac.getD []

/-- The exponent as a number, 0 when there is none. -/
def expValue (t : NumberToken) : Int := (t.exp.map Exponent.value).getD 0

/-- The absolute value the token denotes. -/
def mag (t : NumberToken) : ℚ :=
  Decimal.value t.digits * (10 : ℚ) ^ (t.expValue - (t.frac.getD []).length)

/-- The integer that the integer part, with its sign, denotes. -/
def intValue (t : NumberToken) : Int :=
  if t.negative then -(Decimal.value t.int : Int) else Decimal.value t.int

/-- The token of an integer. -/
def ofInt (n : Int) : NumberToken where
  negative := decide (n < 0)
  int := Decimal.numeral n.natAbs
  frac := none
  exp := none
  int_digits := Decimal.numeral_allDigits _
  int_shape := Decimal.numeral_shape _
  frac_shape := fun _ h => by cases h

end NumberToken

/-- A converted number: `pJsonParserImpl::ParsedNumber`. -/
inductive ParsedNumber where
  | SignedInteger (signedValue : Int64)
  | UnsignedInteger (unsignedValue : UInt64)
  | FloatingPoint (floatingValue : Binary64)
  deriving DecidableEq

/-- The node a converted number is stored in. -/
def ParsedNumber.toPjson : ParsedNumber → Pjson
  | .SignedInteger n => .jsonNumberInt n
  | .UnsignedInteger n => .jsonNumberUInt n
  | .FloatingPoint d => .jsonNumberDouble d

/-- The exact integer kind for a value: signed where it fits, else unsigned where it fits. -/
def exactInteger (z : Int) : Option ParsedNumber :=
  if -2 ^ 63 ≤ z ∧ z < 2 ^ 63 then some (.SignedInteger (Int64.ofInt z))
  else if 0 ≤ z ∧ z < 2 ^ 64 then some (.UnsignedInteger (UInt64.ofNat z.toNat))
  else none

theorem exactInteger_signed {z : Int} (h : -2 ^ 63 ≤ z) (h' : z < 2 ^ 63) :
    exactInteger z = some (.SignedInteger (Int64.ofInt z)) := if_pos ⟨h, h'⟩

theorem exactInteger_unsigned {z : Int} (h : 2 ^ 63 ≤ z) (h' : z < 2 ^ 64) :
    exactInteger z = some (.UnsignedInteger (UInt64.ofNat z.toNat)) := by
  unfold exactInteger
  rw [if_neg (by omega : ¬ (-2 ^ 63 ≤ z ∧ z < 2 ^ 63)), if_pos ⟨by omega, h'⟩]

theorem exactInteger_none {z : Int} (h : z < -2 ^ 63 ∨ 2 ^ 64 ≤ z) : exactInteger z = none := by
  unfold exactInteger
  rw [if_neg (by omega : ¬ (-2 ^ 63 ≤ z ∧ z < 2 ^ 63)),
    if_neg (by omega : ¬ (0 ≤ z ∧ z < 2 ^ 64))]

/-- The nearest double, unless it overflows, or is a zero that stands for a nonzero value under a
    policy that is not lossy. -/
def nearestDouble (lossy : Bool) (negative : Bool) (mag : ℚ) : Option ParsedNumber :=
  let d := Binary64.ofRat negative mag
  if d.isFinite = false then none
  else if d.isZero = true ∧ mag ≠ 0 ∧ lossy = false then none
  else some (.FloatingPoint d)

/-- **What a token denotes** under a number policy, `none` when the policy cannot represent it. -/
def NumberToken.denote (policy : NumberPolicy) (t : NumberToken) : Option ParsedNumber :=
  let lossy := policy == .AllowLossyNumbers
  if t.isFloat then nearestDouble lossy t.negative t.mag
  else
    match exactInteger t.intValue with
    | some n => some n
    | none => if lossy then nearestDouble lossy t.negative t.mag else none

end ByteDance
