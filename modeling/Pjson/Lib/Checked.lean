/-
  Machine arithmetic that notices an overflow.

  The result of an operation on `w` bits is computed exactly and then checked; `none` is an
  overflow.  A computation written with these checks returns a value exactly if no step of it
  overflows, and then the value is the exact one.
-/
import Mathlib

namespace Checked

/-- A result of signed arithmetic on `w` bits. -/
def signed (w : Nat) (z : Int) : Option Int := if -2 ^ (w - 1) ≤ z ∧ z < 2 ^ (w - 1) then some z else none

/-- A result of unsigned arithmetic on `w` bits. -/
def unsigned (w n : Nat) : Option Nat := if n < 2 ^ w then some n else none

theorem signed_eq {w : Nat} {z : Int} (hlo : -2 ^ (w - 1) ≤ z) (hhi : z < 2 ^ (w - 1)) :
    signed w z = some z := if_pos ⟨hlo, hhi⟩

theorem signed_64 {z : Int} (hlo : -9223372036854775808 ≤ z) (hhi : z < 9223372036854775808) :
    signed 64 z = some z := signed_eq (by norm_num; exact hlo) (by norm_num; exact hhi)

theorem signed_32 {z : Int} (hlo : -2147483648 ≤ z) (hhi : z < 2147483648) :
    signed 32 z = some z := signed_eq (by norm_num; exact hlo) (by norm_num; exact hhi)

theorem unsigned_eq {w n : Nat} (h : n < 2 ^ w) : unsigned w n = some n := if_pos h

end Checked
