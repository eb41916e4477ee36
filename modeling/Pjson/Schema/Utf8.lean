/-
  The UTF-8 scanner of the schema code, a copy of `pjsonImpl::_utf8Len` of its own.

  It makes its three final checks in one condition.  `utf8Len_eq` says that the copies agree.
-/
import Pjson.Dom.Utf8Len

namespace ByteDance

namespace SchemaDetail

/-- The checks of `utf8Len` after the lead byte has announced a sequence of `count` bytes. -/
def utf8Finish (count codePoint minimum : Nat) (rest : Bytes) : Nat :=
  if 1 + rest.length < count then 0
  else
    match utf8Tail (count - 1) codePoint rest with
    | none => 0
    | some codePoint =>
      if codePoint < minimum ∨ codePoint > 0x10FFFF ∨ (codePoint ≥ 0xD800 ∧ codePoint ≤ 0xDFFF) then 0
      else count

/-- `utf8Len` of the schema code, on the bytes from `position` to `end`. -/
def utf8Len : Bytes → Nat
  | [] => 0
  | c0 :: rest =>
    if c0 < 0x80 then 1
    else if c0 &&& 0xE0 = 0xC0 then utf8Finish 2 (c0 &&& 0x1F).toNat 0x80 rest
    else if c0 &&& 0xF0 = 0xE0 then utf8Finish 3 (c0 &&& 0x0F).toNat 0x800 rest
    else if c0 &&& 0xF8 = 0xF0 then utf8Finish 4 (c0 &&& 0x07).toNat 0x10000 rest
    else 0

theorem utf8Finish_eq (count codePoint minimum : Nat) (rest : Bytes) :
    utf8Finish count codePoint minimum rest = ByteDance.utf8Finish count codePoint minimum rest := by
  rw [utf8Finish, ByteDance.utf8Finish, Nat.add_comm]
  cases utf8Tail (count - 1) codePoint rest with
  | none => rfl
  | some cp =>
    -- one condition here, three in a row there
    by_cases h : cp < minimum ∨ cp > 0x10FFFF ∨ (cp ≥ 0xD800 ∧ cp ≤ 0xDFFF)
    · simp only [if_pos h]
      split_ifs <;> first | rfl | omega
    · simp only [if_neg h]
      rw [if_neg (show ¬ cp < minimum by omega), if_neg (show ¬ cp > 0x10FFFF by omega),
        if_neg (show ¬ (cp ≥ 0xD800 ∧ cp ≤ 0xDFFF) by omega)]

/-- **The copy** measures what the original does. -/
theorem utf8Len_eq (s : Bytes) : utf8Len s = ByteDance.utf8Len s := by
  cases s with
  | nil => rfl
  | cons c0 rest => simp only [utf8Len, ByteDance.utf8Len, utf8Finish_eq]

end SchemaDetail

end ByteDance
