/-
  Lines and columns of the offsets of a text.

  A text has two bytes that end lines, a carriage return and a line feed; a line feed right behind a
  carriage return belongs to the ending that the carriage return has begun.  The line of an offset
  counts the endings before it and the column the bytes behind the last of them, both from one, so
  that an offset between the two bytes of a pair is at the start of the next line, as is the offset
  behind the pair.

  `line_succ` and `column_succ` say what one more byte does; every scanner of a text is proved against
  them.
-/
import Mathlib

namespace Lines

variable {α : Type} [DecidableEq α] (cr lf : α)

/-- A line ending begins at the offset. -/
def EndsAt (text : List α) (i : Nat) : Prop :=
  text[i]? = some cr ∨ (text[i]? = some lf ∧ ∀ j, i = j + 1 → text[j]? ≠ some cr)

/-- The byte is one of an ending. -/
def IsEnd (b : α) : Prop := b = cr ∨ b = lf

instance (b : α) : Decidable (IsEnd cr lf b) := inferInstanceAs (Decidable (_ ∨ _))

instance (text : List α) (i : Nat) : Decidable (EndsAt cr lf text i) :=
  match i with
  | 0 => decidable_of_iff (text[0]? = some cr ∨ text[0]? = some lf) <| by simp [EndsAt]
  | j + 1 =>
    decidable_of_iff (text[j + 1]? = some cr ∨ (text[j + 1]? = some lf ∧ text[j]? ≠ some cr)) <| by
      simp [EndsAt]

/-- The line of an offset. -/
def line (text : List α) (n : Nat) : Nat :=
  1 + (List.range n).countP fun i => decide (EndsAt cr lf text i)

/-- The column of an offset. -/
def column (text : List α) (n : Nat) : Nat :=
  1 + ((text.take n).reverse.takeWhile fun b => decide (¬ IsEnd cr lf b)).length

variable {cr lf} {text : List α} {n : Nat} {b : α}

@[simp] theorem line_zero : line cr lf text 0 = 1 := rfl

@[simp] theorem column_zero : column cr lf text 0 = 1 := rfl

/-- **One more byte**: the line. -/
theorem line_succ : line cr lf text (n + 1) =
    line cr lf text n + if EndsAt cr lf text n then 1 else 0 := by
  rw [line, line, List.range_succ, List.countP_append, List.countP_singleton, Nat.add_assoc]
  simp only [decide_eq_true_eq]

/-- **One more byte**: the column. -/
theorem column_succ (hb : text[n]? = some b) : column cr lf text (n + 1) =
    if IsEnd cr lf b then 1 else column cr lf text n + 1 := by
  have htake : (text.take (n + 1)).reverse = b :: (text.take n).reverse := by
    rw [List.take_add_one, hb, List.reverse_append]
    rfl
  rw [column, column, htake, List.takeWhile_cons]
  by_cases h : IsEnd cr lf b
  · rw [if_neg (by simpa using h), if_pos h]
    rfl
  · rw [if_pos (by simpa using h), if_neg h, List.length_cons]
    omega

omit [DecidableEq α] in
/-- A text behind the offset does not count. -/
theorem endsAt_append {rest : List α} {i : Nat} (h : i < text.length) :
    EndsAt cr lf (text ++ rest) i ↔ EndsAt cr lf text i := by
  have hbefore : ∀ j ≤ i, (text ++ rest)[j]? = text[j]? := fun j hj =>
    List.getElem?_append_left (by omega)
  unfold EndsAt
  rw [hbefore i (le_refl i)]
  refine or_congr Iff.rfl (and_congr Iff.rfl (forall₂_congr fun j hj => ?_))
  rw [hbefore j (by omega)]

theorem line_append {rest : List α} (h : n ≤ text.length) :
    line cr lf (text ++ rest) n = line cr lf text n := by
  induction n with
  | zero => rfl
  | succ n ih =>
    rw [line_succ, line_succ, ih (by omega)]
    simp only [endsAt_append (show n < text.length by omega)]

theorem column_append {rest : List α} (h : n ≤ text.length) :
    column cr lf (text ++ rest) n = column cr lf text n := by
  rw [column, column, List.take_append_of_le_length h]

end Lines
