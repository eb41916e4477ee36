/-
  The sinks of the serializer.

  The traversal is written once against a small protocol: put a byte, write a range, repeat a byte,
  and three ways to refuse.  `CountingSink` runs it without keeping the bytes, `StringSink` appends
  to a string and reports every failure by an exception.  `LawfulSink` says what the traversal may
  rely on, in terms of what a sink has room for; both sinks are lawful.
-/
import Pjson.Dom.Value
import Pjson.Lib.Emit

namespace ByteDance

/-- `std::numeric_limits<size_t>::max()` on the 64-bit platforms. -/
def sizeMax : Nat := 2 ^ 64 - 1

/-- `std::string::max_size()`. -/
def stringMaxSize : Nat := 2 ^ 62 - 1

/-- The standard exceptions that leave the serializer, with their `what()`. -/
inductive StdException where
  | invalid_argument (what : String)
  | length_error (what : String)
  | failure (what : String)
  deriving DecidableEq, Repr

/-- A computation on a sink. -/
abbrev SinkM (σ : Type) := EStateM StdException σ

/-- The protocol between the traversal and a sink; `good` is the conversion to `bool`. -/
class Sink (σ : Type) where
  put : UInt8 → SinkM σ Unit
  write : Bytes → SinkM σ Unit
  «repeat» : UInt8 → Nat → SinkM σ Bool
  fail : SinkM σ Bool
  invalidUtf8 : SinkM σ Bool
  invalidNumber : SinkM σ Bool
  good : σ → Bool

/-- What the traversal may rely on: a sink may refuse long writes and long indentations, but no short
    write. -/
structure LawfulSink (σ : Type) [Sink σ] extends Destination σ where
  /-- The lengths of writes that are not refused. -/
  writable : Nat → Prop
  /-- The lengths of indentations that are not refused. -/
  admits : Nat → Bool
  good_eq : good = Sink.good
  writable_short : ∀ n ≤ 64, writable n
  admits_le : ∀ n, admits n = true → n ≤ sizeMax
  put_emits : ∀ b, toDestination.Emits (fun _ => True) (Sink.put b : SinkM σ Unit) () (some [b])
  write_emits : ∀ bs, writable bs.length →
    toDestination.Emits (fun _ => True) (Sink.write bs : SinkM σ Unit) () (some bs)
  repeat_emits : ∀ b n, n ≤ sizeMax → toDestination.Emits (· = false)
    (Sink.«repeat» b n : SinkM σ Bool) true (if admits n then some (List.replicate n b) else none)
  fail_emits : toDestination.Emits (· = false) (Sink.fail : SinkM σ Bool) true none
  invalidUtf8_emits : toDestination.Emits (· = false) (Sink.invalidUtf8 : SinkM σ Bool) true none
  invalidNumber_emits : toDestination.Emits (· = false) (Sink.invalidNumber : SinkM σ Bool) true none

/-- The lengths that a `size_t` holds. -/
def inSizeRange (n : Nat) : Bool := decide (n ≤ sizeMax)

/-- The part of a byte budget that is left. -/
def budgetLeft (limit written : Nat) : Nat := limit - min written limit

/-- `amount` is within what is left of the budget; a limit of zero is none. -/
def WithinBudget (limit written amount : Nat) : Prop :=
  limit = 0 ∨ amount ≤ budgetLeft limit written

instance (limit written amount : Nat) : Decidable (WithinBudget limit written amount) := by
  unfold WithinBudget
  infer_instance

theorem withinBudget_zero (limit written : Nat) : WithinBudget limit written 0 :=
  Or.inr (Nat.zero_le _)

theorem withinBudget_add (limit written a b : Nat) : WithinBudget limit written (a + b) ↔
    WithinBudget limit written a ∧ WithinBudget limit (written + a) b := by
  unfold WithinBudget budgetLeft
  omega

/-! ## Counting -/

/-- `CountingSink`. -/
structure CountingSink where
  limit : Nat
  written : Nat := 0
  valid : Bool := true
  invalidUtf8 : Bool := false
  invalidNumber : Bool := false

namespace CountingSink

def account (amount : Nat) : SinkM CountingSink Bool := do
  let s ← get
  if !s.valid then return false
  if amount > sizeMax - s.written ∨ ¬ WithinBudget s.limit s.written amount then
    set { s with valid := false }
    return false
  set { s with written := s.written + amount }
  return true

def fail : SinkM CountingSink Bool := do
  modify fun s => { s with valid := false }
  return false

instance : Sink CountingSink where
  put _ := do
    let _ ← account 1
  write bs := do
    let _ ← account bs.length
  «repeat» _ n := account n
  fail := fail
  invalidUtf8 := do
    modify fun s => { s with invalidUtf8 := true }
    fail
  invalidNumber := do
    modify fun s => { s with invalidNumber := true }
    fail
  good s := s.valid

/-- Counting as writing to a destination. -/
def destination : Destination CountingSink where
  good s := s.valid
  fits s n := n ≤ sizeMax - s.written ∧ WithinBudget s.limit s.written n
  advance s bs := { s with written := s.written + bs.length }
  fits_zero s := ⟨Nat.zero_le _, withinBudget_zero _ _⟩
  fits_add s bs n := by
    simp only [withinBudget_add]
    constructor
    · rintro ⟨h, h₁, h₂⟩
      exact ⟨⟨by omega, h₁⟩, by omega, h₂⟩
    · rintro ⟨⟨h, h₁⟩, h', h₂⟩
      exact ⟨by omega, h₁, h₂⟩
  advance_nil s := rfl
  advance_append s a b := by simp [Nat.add_assoc]
  le _ _ := True
  good_advance s bs h := h
  le_refl _ := trivial
  le_trans _ _ := trivial
  le_advance _ _ _ := trivial

/-- Accounting for the length of a string is writing it. -/
theorem account_emits {n : Nat} {bs : Bytes} (h : bs.length = n) :
    destination.Emits (· = false) (account n) true (some bs) where
  done s bs' heq hgood hfit := by
    cases heq
    rw [h] at hfit
    have hno : ¬ (n > sizeMax - s.written ∨ ¬ WithinBudget s.limit s.written n) := by
      rintro (h | h)
      · exact absurd hfit.1 (not_le.mpr h)
      · exact h hfit.2
    have hv : ¬ (!s.valid) = true := by
      rw [show s.valid = true from hgood]
      simp
    show (if (!s.valid) = true then _ else _ : SinkM CountingSink Bool).run s = _
    rw [if_neg hv, if_neg hno]
    subst h
    rfl
  failed s hbad := by
    show destination.Failed _ _ ((if (!s.valid) = true then _ else _ : SinkM CountingSink Bool).run s)
    cases hv : s.valid with
    | false => exact ⟨rfl, hv, trivial⟩
    | true =>
      have hno := hbad.resolve_left (by
        show ¬ s.valid = false
        rw [hv]
        simp) bs rfl
      rw [h] at hno
      rw [if_neg (by simp), if_pos (by
        by_contra hc
        rw [not_or, not_lt, not_not] at hc
        exact hno hc)]
      exact ⟨rfl, rfl, trivial⟩

/-- Dropping the result of a writer. -/
theorem discard_emits {n : Nat} {bs : Bytes} (h : bs.length = n) :
    destination.Emits (fun _ => True) (do let _ ← account n : SinkM CountingSink Unit) ()
      (some bs) where
  done s bs' heq hgood hfit := by
    rw [EStateM.run_bind, (account_emits h).done s bs' heq hgood hfit]
    rfl
  failed s hbad := by
    rw [EStateM.run_bind]
    have hf := (account_emits h).failed s hbad
    cases hr : (account n).run s with
    | ok b t =>
      rw [hr] at hf
      exact ⟨trivial, hf.2⟩
    | error e t => trivial

/-- `CountingSink` is lawful. -/
def lawful : LawfulSink CountingSink where
  toDestination := destination
  writable _ := True
  admits := inSizeRange
  good_eq := rfl
  writable_short _ _ := trivial
  admits_le _ h := of_decide_eq_true h
  put_emits _ := discard_emits rfl
  write_emits _ _ := discard_emits rfl
  repeat_emits _ n hn := by
    rw [inSizeRange, decide_eq_true hn]
    exact account_emits (List.length_replicate ..)
  fail_emits := Destination.emits_none fun _ => ⟨rfl, rfl, trivial⟩
  invalidUtf8_emits := Destination.emits_none fun _ => ⟨rfl, rfl, trivial⟩
  invalidNumber_emits := Destination.emits_none fun _ => ⟨rfl, rfl, trivial⟩

end CountingSink

/-! ## Appending to a string -/

/-- `StringSink`, with the string it is bound to. -/
structure StringSink where
  out : Bytes
  limit : Nat
  written : Nat := 0

namespace StringSink

def account (amount : Nat) : SinkM StringSink Unit := do
  let s ← get
  if ¬ WithinBudget s.limit s.written amount then
    throw (.length_error "JSON output exceeds maxOutputBytes")
  else set { s with written := s.written + amount }

/-- `std::string::append`. -/
def append (bs : Bytes) : SinkM StringSink Unit := do
  let s ← get
  if stringMaxSize - s.out.length < bs.length then throw (.length_error "basic_string::append")
  else set { s with out := s.out ++ bs }

def write (bs : Bytes) : SinkM StringSink Unit := do
  account bs.length
  append bs

instance : Sink StringSink where
  put b := write [b]
  write := write
  «repeat» b n := do
    write (List.replicate n b)
    return true
  fail := throw (.length_error "JSON indentation exceeds string limits")
  invalidUtf8 := throw (.invalid_argument "JSON string contains invalid UTF-8")
  invalidNumber := throw (.invalid_argument "JSON number is not finite")
  good _ := true

/-- Appending as writing to a destination. -/
def destination : Destination StringSink where
  good _ := true
  fits s n := n ≤ stringMaxSize - s.out.length ∧ WithinBudget s.limit s.written n
  advance s bs := { s with out := s.out ++ bs, written := s.written + bs.length }
  fits_zero s := ⟨Nat.zero_le _, withinBudget_zero _ _⟩
  fits_add s bs n := by
    simp only [withinBudget_add, List.length_append]
    constructor
    · rintro ⟨h, h₁, h₂⟩
      exact ⟨⟨by omega, h₁⟩, by omega, h₂⟩
    · rintro ⟨⟨h, h₁⟩, h', h₂⟩
      exact ⟨by omega, h₁, h₂⟩
  advance_nil s := by simp
  advance_append s a b := by simp [Nat.add_assoc]
  le _ _ := True
  good_advance s bs h := h
  le_refl _ := trivial
  le_trans _ _ := trivial
  le_advance _ _ _ := trivial

/-- A checked append is a write. -/
theorem write_emits (bs : Bytes) : destination.Emits (fun _ => True) (write bs) () (some bs) where
  done s bs' heq _ hfit := by
    cases heq
    show (do
      (if ¬ WithinBudget s.limit s.written bs.length then throw _ else set _ : SinkM StringSink Unit)
      append bs).run s = _
    rw [if_neg (not_not_intro hfit.2)]
    show (if stringMaxSize - s.out.length < bs.length then throw _ else set _ :
      SinkM StringSink Unit).run _ = _
    rw [if_neg (not_lt.mpr hfit.1)]
    rfl
  failed s hbad := by
    have hno : ¬ (bs.length ≤ stringMaxSize - s.out.length ∧ WithinBudget s.limit s.written bs.length) :=
      hbad.resolve_left (fun h => by cases h) bs rfl
    show destination.Failed _ _ ((do
      (if ¬ WithinBudget s.limit s.written bs.length then throw _ else set _ : SinkM StringSink Unit)
      append bs).run s)
    by_cases hb : WithinBudget s.limit s.written bs.length
    · rw [if_neg (not_not_intro hb)]
      show destination.Failed _ _ ((if stringMaxSize - s.out.length < bs.length then throw _ else set _ :
        SinkM StringSink Unit).run _)
      rw [if_pos (not_le.mp fun h => hno ⟨h, hb⟩)]
      trivial
    · rw [if_pos hb]
      trivial

/-- A string sink fails by exception only, so that success can be reported without a look. -/
theorem write_true_emits (bs : Bytes) :
    destination.Emits (· = false) (do write bs; return true : SinkM StringSink Bool) true
      (some bs) where
  done s bs' heq hgood hfit := by
    rw [EStateM.run_bind, (write_emits bs).done s bs' heq hgood hfit]
    rfl
  failed s hbad := by
    have hf := (write_emits bs).failed s hbad
    rw [EStateM.run_bind]
    cases hr : (write bs).run s with
    | ok u t =>
      rw [hr] at hf
      cases hf.2.1
    | error e t => trivial

/-- `StringSink` is lawful. -/
def lawful : LawfulSink StringSink where
  toDestination := destination
  writable _ := True
  admits := inSizeRange
  good_eq := rfl
  writable_short _ _ := trivial
  admits_le _ h := of_decide_eq_true h
  put_emits b := write_emits [b]
  write_emits bs _ := write_emits bs
  repeat_emits b n hn := by
    rw [inSizeRange, decide_eq_true hn]
    exact write_true_emits (List.replicate n b)
  fail_emits := Destination.emits_none fun _ => trivial
  invalidUtf8_emits := Destination.emits_none fun _ => trivial
  invalidNumber_emits := Destination.emits_none fun _ => trivial

end StringSink

end ByteDance
