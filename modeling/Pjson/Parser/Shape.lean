/-
  Small facts about the grammar that every parser proof needs: how a value's spelling starts, what
  may follow a number, what the loop of a container has still to read, and when a meaning exists.

  `Tail Items expect any xs t` is the language of a container's loop in the state of its two flags:
  after a comma an item must follow, at the start there may be none, and after an item either the
  container ends or a comma comes first.
-/
import Pjson.Parser.NumberScan
import Pjson.Parser.Text

namespace ByteDance

open Decimal

/-! ## First bytes -/

/-- The bytes a value can start with. -/
def ValueStart (b : UInt8) : Prop :=
  b = 0x22 ∨ b = 0x7B ∨ b = 0x5B ∨ b = 0x2D ∨ IsDigit b ∨ b = 0x6E ∨ b = 0x74 ∨ b = 0x66

instance (b : UInt8) : Decidable (ValueStart b) := by unfold ValueStart; infer_instance

theorem NumberToken.text_start (t : NumberToken) :
    ∃ b r, t.text = b :: r ∧ (b = 0x2D ∨ IsDigit b) := by
  obtain ⟨d, ds, hint, hd⟩ : ∃ d ds, t.int = d :: ds ∧ IsDigit d := by
    rcases t.int_shape with h | ⟨d, ds, h, -⟩
    · exact ⟨0x30, [], h, by decide⟩
    · exact ⟨d, ds, h, (allDigits_cons.mp (h ▸ t.int_digits)).1⟩
  unfold NumberToken.text
  rw [hint]
  cases t.negative with
  | true => exact ⟨0x2D, _, rfl, Or.inl rfl⟩
  | false => exact ⟨d, _, rfl, Or.inr hd⟩

theorem Value.start {x : Json} {t : Bytes} (h : Value x t) : ∃ b r, t = b :: r ∧ ValueStart b := by
  cases h with
  | number t =>
    obtain ⟨b, r, hr, hb⟩ := t.text_start
    refine ⟨b, r, hr, ?_⟩
    unfold ValueStart
    rcases hb with hb | hb
    · simp [hb]
    · simp [hb]
  | null => exact ⟨_, _, rfl, by decide⟩
  | true => exact ⟨_, _, rfl, by decide⟩
  | false => exact ⟨_, _, rfl, by decide⟩
  | string _ => exact ⟨_, _, rfl, by decide⟩
  | emptyArray _ => exact ⟨_, _, rfl, by decide⟩
  | array _ => exact ⟨_, _, rfl, by decide⟩
  | emptyObject _ => exact ⟨_, _, rfl, by decide⟩
  | object _ => exact ⟨_, _, rfl, by decide⟩

theorem Value.ne_nil {x : Json} {t : Bytes} (h : Value x t) : t ≠ [] := by
  obtain ⟨b, r, rfl, -⟩ := h.start
  simp

/-- The first byte of a value is neither white space nor a separator nor a closing bracket. -/
theorem valueStart_ne {b : UInt8} (h : ValueStart b) :
    isWhitespace b = false ∧ b ≠ 0x2C ∧ b ≠ 0x5D ∧ b ≠ 0x7D ∧ b ≠ 0x3A := by
  rcases h with rfl | rfl | rfl | rfl | h | rfl | rfl | rfl
  case inr.inr.inr.inr.inl =>
    refine ⟨?_, h.ne (by decide), h.ne (by decide), h.ne (by decide), h.ne (by decide)⟩
    rw [← Bool.not_eq_true, isWhitespace_iff, not_or, not_or, not_or]
    exact ⟨h.ne (by decide), h.ne (by decide), h.ne (by decide), h.ne (by decide)⟩
  all_goals decide

/-- A number begins like no string, object or array. -/
theorem numberStart_ne {b : UInt8} (h : b = 0x2D ∨ IsDigit b) : b ≠ 0x22 ∧ b ≠ 0x7B ∧ b ≠ 0x5B := by
  rcases h with rfl | h
  · decide
  · exact ⟨h.ne (by decide), h.ne (by decide), h.ne (by decide)⟩

/-- White space, or a byte that is no part of a number, ends a number. -/
theorem endsNumber_ws {w : Bytes} {b : UInt8} {out : Bytes} (hw : Ws w)
    (hb : ¬ IsDigit b ∧ b ≠ 0x2E ∧ b ≠ 0x65 ∧ b ≠ 0x45) : EndsNumber (w ++ b :: out) := by
  intro c hc
  cases w with
  | nil =>
    cases hc
    exact hb
  | cons d w =>
    have hd := hw d (List.mem_cons_self ..)
    cases hc
    rcases hd with rfl | rfl | rfl | rfl <;> decide

theorem endsNumber_ws_end {w : Bytes} (hw : Ws w) : EndsNumber w := by
  intro c hc
  cases w with
  | nil => cases hc
  | cons d w =>
    have hd := hw d (List.mem_cons_self ..)
    cases hc
    rcases hd with rfl | rfl | rfl | rfl <;> decide

/-- After white space, a byte that is none is the head. -/
theorem head_not_ws {b : UInt8} {out : Bytes} (h : isWhitespace b = false) :
    ∀ c, (b :: out).head? = some c → isWhitespace c = false := by
  rintro c ⟨⟩
  exact h

/-! ## The loop of a container -/

/-- What is left to read before the closing bracket, by the flags of the loop. -/
def Tail {α : Type} (Items : List α → Bytes → Prop) (expect any : Bool) (xs : List α) (t : Bytes) :
    Prop :=
  if expect then Items xs t
  else if any then
    (xs = [] ∧ Ws t) ∨ ∃ w r, Ws w ∧ t = w ++ 0x2C :: r ∧ Items xs r
  else (xs = [] ∧ Ws t) ∨ Items xs t

/-- An element in front of what the loop reads after it. -/
theorem Tail.elements {x : Json} {xs : List Json} {w t r : Bytes} (hw : Ws w) (hx : Value x t)
    (h : Tail Elements false true xs r) : Elements (x :: xs) (w ++ (t ++ r)) := by
  rcases h with ⟨rfl, hr⟩ | ⟨w', r', hw', rfl, hr⟩
  · exact Elements.one hw hx hr
  · exact Elements.cons hw hx hw' hr

/-- A member in front of what the loop reads after it. -/
theorem Tail.members {k kt : Bytes} {x : Json} {ms : List (Bytes × Json)} {w w₁ w₂ t r : Bytes}
    (hw : Ws w) (hk : StringBody kt k) (hw₁ : Ws w₁) (hw₂ : Ws w₂) (hx : Value x t)
    (h : Tail Members false true ms r) :
    Members ((k, x) :: ms) (w ++ 0x22 :: (kt ++ 0x22 :: (w₁ ++ 0x3A :: (w₂ ++ (t ++ r))))) := by
  rcases h with ⟨rfl, hr⟩ | ⟨w', r', hw', rfl, hr⟩
  · exact Members.one hw hk hw₁ hw₂ hx hr
  · exact Members.cons hw hk hw₁ hw₂ hx hw' hr

/-- Elements begin with one, and the loop goes on behind it. -/
theorem Elements.split {xs : List Json} {t : Bytes} (h : Elements xs t) :
    ∃ x ys w s r, xs = x :: ys ∧ t = w ++ (s ++ r) ∧ Ws w ∧ Value x s ∧
      Tail Elements false true ys r := by
  cases h with
  | one hw hx hw' => exact ⟨_, [], _, _, _, rfl, rfl, hw, hx, Or.inl ⟨rfl, hw'⟩⟩
  | cons hw hx hw' hr => exact ⟨_, _, _, _, _, rfl, rfl, hw, hx, Or.inr ⟨_, _, hw', rfl, hr⟩⟩

/-- Members begin with one, and the loop goes on behind it. -/
theorem Members.split {ms : List (Bytes × Json)} {t : Bytes} (h : Members ms t) :
    ∃ k kt x ns w w₁ w₂ s r, ms = (k, x) :: ns ∧
      t = w ++ 0x22 :: (kt ++ 0x22 :: (w₁ ++ 0x3A :: (w₂ ++ (s ++ r)))) ∧ Ws w ∧
      StringBody kt k ∧ Ws w₁ ∧ Ws w₂ ∧ Value x s ∧ Tail Members false true ns r := by
  cases h with
  | one hw hk hw₁ hw₂ hx hw' =>
    exact ⟨_, _, _, [], _, _, _, _, _, rfl, rfl, hw, hk, hw₁, hw₂, hx, Or.inl ⟨rfl, hw'⟩⟩
  | cons hw hk hw₁ hw₂ hx hw' hr =>
    exact ⟨_, _, _, _, _, _, _, _, _, rfl, rfl, hw, hk, hw₁, hw₂, hx, Or.inr ⟨_, _, hw', rfl, hr⟩⟩

/-- An array is a bracket, the loop from its start, and a bracket. -/
theorem value_array_iff {xs : List Json} {t : Bytes} : Value (.array xs) t ↔
    ∃ s, t = 0x5B :: (s ++ [0x5D]) ∧ Tail Elements false false xs s := by
  constructor
  · intro h
    cases h with
    | emptyArray hw => exact ⟨_, rfl, Or.inl ⟨rfl, hw⟩⟩
    | array h => exact ⟨_, rfl, Or.inr h⟩
  · rintro ⟨s, rfl, ⟨rfl, hw⟩ | h⟩
    · exact Value.emptyArray hw
    · exact Value.array h

/-- An object is a brace, the loop from its start, and a brace. -/
theorem value_object_iff {ms : List (Bytes × Json)} {t : Bytes} : Value (.object ms) t ↔
    ∃ s, t = 0x7B :: (s ++ [0x7D]) ∧ Tail Members false false ms s := by
  constructor
  · intro h
    cases h with
    | emptyObject hw => exact ⟨_, rfl, Or.inl ⟨rfl, hw⟩⟩
    | object h => exact ⟨_, rfl, Or.inr h⟩
  · rintro ⟨s, rfl, ⟨rfl, hw⟩ | h⟩
    · exact Value.emptyObject hw
    · exact Value.object h

/-! ## Meanings -/

namespace Json

variable {convert : NumberToken → Option ParsedNumber} {policy : DuplicateKeyPolicy}

theorem denoteElements_cons {x : Json} {xs : List Json} {v : Pjson} {vs : List Pjson}
    (h : denote convert policy x = some v) (hs : denoteElements convert policy xs = some vs) :
    denoteElements convert policy (x :: xs) = some (v :: vs) := by
  simp [denoteElements, h, hs]

theorem denoteElements_cons_iff {x : Json} {xs : List Json} {ws : List Pjson} :
    denoteElements convert policy (x :: xs) = some ws ↔ ∃ v vs, ws = v :: vs ∧
      denote convert policy x = some v ∧ denoteElements convert policy xs = some vs := by
  simp only [denoteElements, Option.pure_def, Option.bind_eq_bind, Option.bind_eq_some_iff,
    Option.some.injEq]
  constructor
  · rintro ⟨v, hv, vs, hvs, rfl⟩
    exact ⟨v, vs, rfl, hv, hvs⟩
  · rintro ⟨v, vs, rfl, hv, hvs⟩
    exact ⟨v, hv, vs, hvs, rfl⟩

theorem denoteMembers_cons_iff {k : Bytes} {x : Json} {ms : List (Bytes × Json)}
    {members members' : List (Bytes × Pjson)} :
    denoteMembers convert policy members ((k, x) :: ms) = some members' ↔ ∃ v members₁,
      denote convert policy x = some v ∧ addMember policy k v members = some members₁ ∧
      denoteMembers convert policy members₁ ms = some members' := by
  simp only [denoteMembers, Option.bind_eq_bind, Option.bind_eq_some_iff]
  constructor
  · rintro ⟨v, hv, m₁, hm₁, h⟩
    exact ⟨v, m₁, hv, hm₁, h⟩
  · rintro ⟨v, m₁, hv, hm₁, h⟩
    exact ⟨v, hv, m₁, hm₁, h⟩

/-- The names of an object after a member that the policy has not refused. -/
theorem mem_keys_addMember {k k' : Bytes} {v : Pjson} {members members' : List (Bytes × Pjson)}
    (h : addMember policy k v members = some members') :
    k' ∈ Assoc.keys members' ↔ k' = k ∨ k' ∈ Assoc.keys members := by
  unfold addMember at h
  by_cases hk : k ∈ Assoc.keys members
  · rw [if_pos hk] at h
    have hor : k' = k ∨ k' ∈ Assoc.keys members ↔ k' ∈ Assoc.keys members :=
      or_iff_right_of_imp fun heq => heq ▸ hk
    cases policy with
    | RejectDuplicateKeys => cases h
    | KeepFirstDuplicate =>
      cases h
      exact hor.symm
    | KeepLastDuplicate =>
      cases h
      exact Assoc.mem_keys_assign
  · rw [if_neg hk] at h
    cases h
    simp [Assoc.keys, or_comm]

end Json

end ByteDance
