/-
  What the leaf functions of the SAX parser do: cursor, strings, keywords, numbers, events.

  `Moved p s t k es s'` says that `s'` is the state `s` with the bytes `t` consumed, `k` values
  charged and the events `es` delivered, and the error record untouched.  As for the DOM parser, each
  function has a soundness lemma and a completeness lemma; here the latter is stated with
  `Does p x s t k es a`: from `s`, `x` returns `a` and moves over `t`.  `Does.bind` runs two such
  steps in sequence.

  Soundness needs a cursor that does not fail, completeness (`Ready`) also that the unread bytes fit
  the byte limit.
-/
import Pjson.Parser.DomSpec
import Pjson.Parser.SaxTrace

namespace ByteDance

open Run

variable {κ : Type} [SaxCursor κ] [LawfulSaxCursor κ]

/-- The bytes that have not been consumed. -/
def SaxState.rest (s : SaxState κ) : Bytes := LawfulSaxCursor.rest s.cur

/-- How many bytes have been consumed. -/
def SaxState.position (s : SaxState κ) : Nat := SaxCursor.position s.cur

/-- The cursor has not failed. -/
def SaxState.Good (s : SaxState κ) : Prop := LawfulSaxCursor.Good s.cur

/-- `s'` is `s` with `t` consumed, `k` values charged and `es` delivered. -/
structure SaxState.Moved (p : SaxParser) (s : SaxState κ) (t : Bytes) (k : Nat) (es : List SaxEvent)
    (s' : SaxState κ) : Prop where
  good : s.Good → s'.Good
  rest : s.rest = t ++ s'.rest
  position : s'.position = s.position + t.length
  within : p.opts.maxInputBytes = 0 ∨ t = [] ∨ s'.position ≤ p.opts.maxInputBytes
  nodeCount : s'.nodeCount = s.nodeCount + k
  delivered : s'.delivered = s.delivered ++ es
  err : s'.err = s.err

/-- There is room for `k` more values in the budget. -/
def SaxState.Room (p : SaxParser) (s : SaxState κ) (k : Nat) : Prop :=
  k = 0 ∨ p.opts.maxNodes = 0 ∨ s.nodeCount + k ≤ p.opts.maxNodes

/-- No byte is left beyond the byte limit. -/
def SaxState.Fits (p : SaxParser) (s : SaxState κ) : Prop :=
  p.opts.maxInputBytes = 0 ∨ s.position + s.rest.length ≤ p.opts.maxInputBytes

/-- The cursor has not failed, and what it has left fits. -/
structure SaxState.Ready (p : SaxParser) (s : SaxState κ) : Prop where
  good : s.Good
  fits : s.Fits p

namespace SaxState.Moved

variable {p : SaxParser} {s s' s'' : SaxState κ} {t t' out : Bytes} {k k' : Nat}
  {es es' : List SaxEvent}

/-- What two runs read, charge and tell is read, charged and told by both together. -/
theorem trans (h : s.Moved p t k es s') (h' : s'.Moved p t' k' es' s'') :
    s.Moved p (t ++ t') (k + k') (es ++ es') s'' where
  good hg := h'.good (h.good hg)
  rest := by rw [h.rest, h'.rest, List.append_assoc]
  position := by rw [h'.position, h.position, List.length_append, Nat.add_assoc]
  within := by
    rcases h'.within with h₁ | rfl | h₁
    · exact Or.inl h₁
    · have : s''.position = s'.position := by rw [h'.position]; rfl
      rw [List.append_nil, this]
      exact h.within
    · exact Or.inr (Or.inr h₁)
  nodeCount := by rw [h'.nodeCount, h.nodeCount, Nat.add_assoc]
  delivered := by rw [h'.delivered, h.delivered, List.append_assoc]
  err := h'.err.trans h.err

/-- A run that does nothing. -/
theorem refl (s : SaxState κ) : s.Moved p [] 0 [] s :=
  ⟨id, rfl, rfl, Or.inr (Or.inl rfl), rfl, (List.append_nil _).symm, rfl⟩

/-- What is left after moving over the front of the unread bytes. -/
theorem rest_eq (h : s.Moved p t k es s') (hr : s.rest = t ++ out) : s'.rest = out := by
  rw [h.rest] at hr
  exact List.append_cancel_left hr

/-- The limits hold where a run ends if they held where it started. -/
theorem fits (h : s.Moved p t k es s') (hs : s.Fits p) : s'.Fits p := by
  refine hs.imp_right fun hf => ?_
  rw [h.rest, List.length_append] at hf
  rw [h.position]
  omega

/-- A cursor that could go on can go on. -/
theorem ready (h : s.Moved p t k es s') (hs : s.Ready p) : s'.Ready p :=
  ⟨h.good hs.good, h.fits hs.fits⟩

/-- There is room for two runs if there is room for the first, and then for the second. -/
theorem room_add (h : s.Moved p t k es s') : s.Room p (k + k') ↔ s.Room p k ∧ s'.Room p k' := by
  unfold SaxState.Room
  rw [h.nodeCount]
  omega

/-- A step that charges nothing leaves the room. -/
theorem room (h : s.Moved p t 0 es s') : s'.Room p k ↔ s.Room p k := by
  unfold SaxState.Room
  rw [h.nodeCount, Nat.add_zero]

end SaxState.Moved

namespace Sax

variable {p : SaxParser}

/-- From `s`, `x` returns `a`, having consumed `t`, charged `k` values and delivered `es`. -/
def Does {α : Type} (p : SaxParser) (x : SaxM κ α) (s : SaxState κ) (t : Bytes) (k : Nat)
    (es : List SaxEvent) (a : α) : Prop :=
  ∃ s', Ok x s a s' ∧ s.Moved p t k es s'

theorem Does.pure {α : Type} (s : SaxState κ) (a : α) :
    Does p (Pure.pure a : SaxM κ α) s [] 0 [] a := ⟨s, ok_pure.mpr ⟨rfl, rfl⟩, .refl s⟩

/-- Two steps in sequence. -/
theorem Does.bind {α β : Type} {x : SaxM κ α} {f : α → SaxM κ β} {s : SaxState κ} {t t' : Bytes}
    {k k' : Nat} {es es' : List SaxEvent} {a : α} {b : β} (h : Does p x s t k es a)
    (h' : ∀ s', s.Moved p t k es s' → Does p (f a) s' t' k' es' b) :
    Does p (x >>= f) s (t ++ t') (k + k') (es ++ es') b := by
  obtain ⟨u, hx, hm⟩ := h
  obtain ⟨s', hf, hm'⟩ := h' u hm
  exact ⟨s', Ok.bind hx hf, hm.trans hm'⟩

/-- The first step only reads. -/
theorem Does.read {α β : Type} {x : SaxM κ α} {f : α → SaxM κ β} {s : SaxState κ} {t u : Bytes}
    {k : Nat} {es : List SaxEvent} {a : α} {b : β} (h : Does p x s t 0 [] a)
    (h' : ∀ s', s.Moved p t 0 [] s' → Does p (f a) s' u k es b) :
    Does p (x >>= f) s (t ++ u) k es b := by
  have := h.bind h'
  rwa [Nat.zero_add, List.nil_append] at this

/-- The first step only charges a value. -/
theorem Does.charge {α β : Type} {x : SaxM κ α} {f : α → SaxM κ β} {s : SaxState κ} {t : Bytes}
    {k : Nat} {es : List SaxEvent} {a : α} {b : β} (h : Does p x s [] 1 [] a)
    (h' : ∀ s', s.Moved p [] 1 [] s' → Does p (f a) s' t k es b) :
    Does p (x >>= f) s t (1 + k) es b := h.bind h'

/-- The second step does nothing but compute. -/
theorem Does.last {α β : Type} {x : SaxM κ α} {f : α → SaxM κ β} {s : SaxState κ} {t : Bytes}
    {k : Nat} {es : List SaxEvent} {a : α} {b : β} (h : Does p x s t k es a)
    (h' : ∀ s', Does p (f a) s' [] 0 [] b) : Does p (x >>= f) s t k es b := by
  have := h.bind fun s' _ => h' s'
  rwa [List.append_nil, List.append_nil] at this

/-! ## Reading and charging -/

section Leaves

variable {s s' : SaxState κ}

/-- A look at the next byte, which is not read. -/
theorem peekChar_spec (hg : s.Good) :
    ∃ s', Ok peekChar s s.rest.head? s' ∧ s.Moved p [] 0 [] s' := by
  obtain ⟨h₁, h₂, h₃, h₄⟩ := LawfulSaxCursor.peek_eq hg
  refine ⟨{ s with cur := (SaxCursor.peek s.cur).2 }, ?_, fun _ => h₂, h₃.symm, h₄,
    Or.inr (Or.inl rfl), rfl, (List.append_nil _).symm, rfl⟩
  unfold peekChar
  rw [ok_bind_get, ok_bind_set, ok_pure]
  exact ⟨h₁.symm, rfl⟩

/-- What is seen is the next byte. -/
theorem peekChar_sound {o : Option UInt8} (hg : s.Good) (h : Ok peekChar s o s') :
    o = s.rest.head? ∧ s.Moved p [] 0 [] s' := by
  obtain ⟨u, hu, hm⟩ := peekChar_spec (p := p) hg
  obtain ⟨rfl, rfl⟩ := h.unique hu
  exact ⟨rfl, hm⟩

/-- And the next byte is seen. -/
theorem peekChar_does (hg : s.Good) : Does p peekChar s [] 0 [] s.rest.head? := peekChar_spec hg

/-- The byte that is read is the next one. -/
theorem getChar_sound {b : UInt8} (hg : s.Good) (h : Ok (getChar p) s (some b) s') :
    s.Moved p [b] 0 [] s' := by
  unfold getChar at h
  rw [ok_bind_get] at h
  split at h
  · obtain ⟨_, _, -, h⟩ := ok_bind.mp h
    rw [ok_pure] at h
    cases h.1
  · rename_i hlimit
    rw [ok_bind_set, ok_pure] at h
    obtain ⟨hb, rfl⟩ := h
    cases hr : s.rest with
    | nil =>
      rw [LawfulSaxCursor.get_nil hg hr] at hb
      cases hb
    | cons c r =>
      obtain ⟨h₁, h₂, h₃, h₄⟩ := LawfulSaxCursor.get_cons hg hr
      rw [h₁] at hb
      cases hb
      refine ⟨fun _ => h₂, ?_, h₄, ?_, rfl, (List.append_nil _).symm, rfl⟩
      · show s.rest = [b] ++ LawfulSaxCursor.rest _
        rw [hr, h₃]
        rfl
      · show _ ∨ _ ∨ SaxCursor.position _ ≤ _
        rw [h₄]
        omega

/-- The next byte is read, if the limit of the input allows it. -/
theorem getChar_does {b : UInt8} {out : Bytes} (hs : s.Ready p) (hr : s.rest = b :: out) :
    Does p (getChar p) s [b] 0 [] (some b) := by
  suffices h : ∃ s', Ok (getChar p) s (some b) s' by
    obtain ⟨s', h⟩ := h
    exact ⟨s', h, getChar_sound hs.good h⟩
  have hf := hs.fits
  unfold SaxState.Fits at hf
  rw [hr, List.length_cons] at hf
  obtain ⟨h₁, -⟩ := LawfulSaxCursor.get_cons hs.good hr
  refine ⟨{ s with cur := (SaxCursor.get s.cur).2 }, ?_⟩
  unfold getChar
  rw [ok_bind_get, if_neg (by unfold SaxState.position at hf; omega), ok_bind_set, ok_pure, h₁]
  exact ⟨rfl, rfl⟩

/-- A byte that has to be there, read. -/
theorem getCharOr_sound {b : UInt8} {message : String} (hg : s.Good)
    (h : Ok (getCharOr p message) s b s') : s.Moved p [b] 0 [] s' := by
  obtain ⟨o, u, ho, h⟩ := ok_bind.mp h
  cases o with
  | none => exact absurd h not_ok_fail
  | some ch =>
    obtain ⟨rfl, rfl⟩ := ok_pure.mp h
    exact getChar_sound hg ho

/-- It is read if it is there. -/
theorem getCharOr_does {b : UInt8} {out : Bytes} (hs : s.Ready p) (hr : s.rest = b :: out)
    (message : String) : Does p (getCharOr p message) s [b] 0 [] b :=
  (getChar_does hs hr).last fun s' => Does.pure s' b

/-- A byte that has been seen, skipped. -/
theorem skipChar_sound {u : Unit} {b : UInt8} {out : Bytes} (hg : s.Good) (hr : s.rest = b :: out)
    (h : Ok (skipChar p) s u s') : s.Moved p [b] 0 [] s' := by
  obtain ⟨o, u, ho, h⟩ := ok_bind.mp h
  cases o with
  | none => exact absurd h not_ok_throw
  | some ch =>
    obtain ⟨-, rfl⟩ := ok_pure.mp h
    have hm := getChar_sound hg ho
    have heq : b :: out = ch :: s'.rest := hr.symm.trans hm.rest
    cases heq
    exact hm

/-- It is skipped if the limit of the input allows it. -/
theorem skipChar_does {b : UInt8} {out : Bytes} (hs : s.Ready p) (hr : s.rest = b :: out) :
    Does p (skipChar p) s [b] 0 [] () :=
  (getChar_does hs hr).last fun s' => Does.pure s' ()

/-- A byte that has to be a certain one, read. -/
theorem expectChar_sound {want : UInt8} {message : String} {u : Unit} (hg : s.Good)
    (h : Ok (expectChar p want message) s u s') : s.Moved p [want] 0 [] s' := by
  obtain ⟨o, u, ho, h⟩ := ok_bind.mp h
  cases o with
  | none => exact absurd h not_ok_fail
  | some ch =>
    by_cases hc : ch = want
    · simp only [hc, if_true] at h
      obtain ⟨-, rfl⟩ := ok_pure.mp h
      exact getChar_sound hg (hc ▸ ho)
    · simp only [hc, if_false] at h
      exact absurd h not_ok_fail

/-- It is read if it is that one. -/
theorem expectChar_does {want : UInt8} {out : Bytes} (hs : s.Ready p) (hr : s.rest = want :: out)
    (message : String) : Does p (expectChar p want message) s [want] 0 [] () := by
  refine (getChar_does hs hr).last fun s' => ?_
  simp only [if_true]
  exact Does.pure s' ()

/-- A node that has been charged for had room. -/
theorem reserveNode_sound {u : Unit} (h : Ok (reserveNode p) s u s') :
    s.Room p 1 ∧ s.Moved p [] 1 [] s' := by
  unfold reserveNode at h
  rw [ok_bind_get] at h
  split at h
  · exact absurd h not_ok_fail
  · rename_i hroom
    rw [ok_set] at h
    subst h
    refine ⟨?_, id, rfl, rfl, Or.inr (Or.inl rfl), rfl, (List.append_nil _).symm, rfl⟩
    unfold SaxState.Room
    omega

/-- And one that has room is charged for. -/
theorem reserveNode_does (h : s.Room p 1) : Does p (reserveNode p) s [] 1 [] () := by
  refine ⟨{ s with nodeCount := s.nodeCount + 1 }, ?_, id, rfl, rfl, Or.inr (Or.inl rfl), rfl,
    (List.append_nil _).symm, rfl⟩
  unfold reserveNode
  unfold SaxState.Room at h
  rw [ok_bind_get, if_neg (by omega), ok_set]

/-- What a call of `dispatch` adds to the events. -/
def emitted (emit : Bool) (es : List SaxEvent) : List SaxEvent := if emit then es else []

/-- Suppressed or not, events are told one after the other. -/
theorem emitted_append (emit : Bool) (es fs : List SaxEvent) :
    emitted emit es ++ emitted emit fs = emitted emit (es ++ fs) := by
  cases emit <;> rfl

/-- An event has been told if it was to be, and the handler returned true. -/
theorem dispatch_sound {emit : Bool} {event : SaxEvent} {u : Unit}
    (h : Ok (dispatch p emit event) s u s') : s.Moved p [] 0 (emitted emit [event]) s' := by
  cases emit with
  | false =>
    obtain ⟨-, rfl⟩ := ok_pure.mp h
    exact .refl s'
  | true =>
    unfold dispatch at h
    rw [if_pos rfl, ok_bind_modify, ok_bind_get] at h
    dsimp only at h
    split at h
    · obtain ⟨-, rfl⟩ := ok_pure.mp h
      exact ⟨id, rfl, rfl, Or.inr (Or.inl rfl), rfl, rfl, rfl⟩
    · exact absurd h not_ok_throw
    · exact absurd h not_ok_throw


/-- It is told, if the handler accepts everything. -/
theorem dispatch_does (hh : p.handler.Accepting) (emit : Bool) (event : SaxEvent) :
    Does p (dispatch p emit event) s [] 0 (emitted emit [event]) () := by
  cases emit with
  | false => exact Does.pure s ()
  | true =>
    refine ⟨{ s with delivered := s.delivered ++ [event] }, ?_, id, rfl, rfl, Or.inr (Or.inl rfl),
      rfl, rfl, rfl⟩
    unfold dispatch
    rw [if_pos rfl, ok_bind_modify, ok_bind_get]
    dsimp only
    rw [hh]
    exact ok_pure.mpr ⟨rfl, rfl⟩

/-- The number of bytes unread bounds a loop. -/
theorem ok_bind_unread {β : Type} {b : β} {f : Nat → SaxM κ β} :
    Ok (unread >>= f) s b s' ↔ Ok (f s.rest.length) s b s' := by
  unfold unread
  rw [bind_assoc, ok_bind_get, pure_bind, LawfulSaxCursor.unread_eq]
  rfl

/-! ## White space -/

/-- What the loop skips is white space. -/
theorem skipWhitespaceLoop_sound {fuel : Nat} {u : Unit} (hg : s.Good)
    (h : Ok (skipWhitespaceLoop p fuel) s u s') :
    ∃ w, Ws w ∧ s.Moved p w 0 [] s' := by
  induction fuel generalizing s with
  | zero => exact absurd h not_ok_throw
  | succ fuel ih =>
    unfold skipWhitespaceLoop at h
    obtain ⟨o, d, hp, h⟩ := ok_bind.mp h
    obtain ⟨ho, hm⟩ := peekChar_sound (p := p) hg hp
    have hdone : Ok (pure () : SaxM κ Unit) d u s' → ∃ w, Ws w ∧ s.Moved p w 0 [] s' := by
      intro h
      obtain ⟨-, rfl⟩ := ok_pure.mp h
      exact ⟨[], ws_nil, hm⟩
    cases o with
    | none => exact hdone h
    | some ch =>
      by_cases hw : isWhitespace ch = true
      · simp only [hw, if_true] at h
        obtain ⟨_, e, hc, h⟩ := ok_bind.mp h
        cases hr : s.rest with
        | nil => rw [hr] at ho; cases ho
        | cons b out =>
          rw [hr] at ho
          cases ho
          have hm₂ := skipChar_sound (hm.good hg) (hm.rest_eq hr) hc
          obtain ⟨w, hws, hm₃⟩ := ih (hm₂.good (hm.good hg)) h
          exact ⟨ch :: w, ws_cons.mpr ⟨hw, hws⟩, hm.trans (hm₂.trans hm₃)⟩
      · simp only [hw] at h
        exact hdone h

/-- It skips all of it, if the fuel exceeds its length. -/
theorem skipWhitespaceLoop_does {fuel : Nat} {w out : Bytes} (hs : s.Ready p) (hw : Ws w)
    (hout : ∀ b, out.head? = some b → isWhitespace b = false) (hr : s.rest = w ++ out)
    (hfuel : w.length < fuel) : Does p (skipWhitespaceLoop p fuel) s w 0 [] () := by
  induction fuel generalizing s w with
  | zero => omega
  | succ fuel ih =>
    unfold skipWhitespaceLoop
    refine (peekChar_does hs.good).read (u := w) fun d hm => ?_
    rw [hr]
    cases w with
    | nil =>
      rw [List.nil_append]
      cases ho : out.head? with
      | none => exact Does.pure d ()
      | some b =>
        simp only [hout b ho]
        exact Does.pure d ()
    | cons b w =>
      obtain ⟨hb, hw⟩ := ws_cons.mp hw
      simp only [List.cons_append, List.head?_cons, hb, if_true]
      have hr' := hm.rest_eq hr
      refine (skipChar_does (hm.ready hs) hr').read fun e hm₂ => ?_
      exact ih (hm₂.ready (hm.ready hs)) hw (hm₂.rest_eq hr') (by simpa using hfuel)

/-- White space is skipped. -/
theorem skipWhitespace_sound {u : Unit} (hg : s.Good) (h : Ok (skipWhitespace p) s u s') :
    ∃ w, Ws w ∧ s.Moved p w 0 [] s' := by
  unfold skipWhitespace at h
  rw [ok_bind_unread] at h
  obtain ⟨_, d, hl, h⟩ := ok_bind.mp h
  obtain ⟨w, hw, hm⟩ := skipWhitespaceLoop_sound hg hl
  rw [ok_bind_get, LawfulSaxCursor.not_failed (hm.good hg)] at h
  obtain ⟨-, rfl⟩ := ok_pure.mp h
  exact ⟨w, hw, hm⟩

/-- All of it is, up to the first byte that is none. -/
theorem skipWhitespace_does {w out : Bytes} (hs : s.Ready p) (hw : Ws w)
    (hout : ∀ b, out.head? = some b → isWhitespace b = false) (hr : s.rest = w ++ out) :
    Does p (skipWhitespace p) s w 0 [] () := by
  have hfuel : w.length < s.rest.length + 1 := by
    rw [hr, List.length_append]
    omega
  obtain ⟨d, hl, hm⟩ := skipWhitespaceLoop_does hs hw hout hr hfuel
  refine ⟨d, ?_, hm⟩
  unfold skipWhitespace
  rw [ok_bind_unread]
  refine Ok.bind hl ?_
  rw [ok_bind_get, LawfulSaxCursor.not_failed (hm.good hs.good)]
  exact ok_pure.mpr ⟨rfl, rfl⟩

end Leaves

/-! ## Strings -/

section Strings

variable {s s' : SaxState κ}

omit [LawfulSaxCursor κ] in
/-- One round of `readHex4`, by the digit's value. -/
theorem readHex4Loop_succ (n out : Nat) : (readHex4Loop p (n + 1) out : SaxM κ Nat) =
    getCharOr p "invalid \\u escape" >>= fun ch =>
      match hexVal ch with
      | some v => readHex4Loop p n (out * 16 + v)
      | none => fail "invalid \\u escape" := by
  have hor : ∀ {v : Nat}, v < 16 → out <<< 4 ||| v = out * 16 + v := by
    intro v hv
    rw [← Nat.shiftLeft_add_eq_or_of_lt (by omega : v < 2 ^ 4), Nat.shiftLeft_eq]
  have hswap : ∀ ch k : Nat, k ≤ ch → 10 + ch - k = ch - k + 10 := by
    intro ch k hk
    omega
  rw [readHex4Loop]
  congr 1
  funext ch
  cases hv : hexVal ch with
  | none =>
    unfold hexVal at hv
    split_ifs at hv with h₁ h₂ h₃
    simp only [h₁, h₂, h₃, if_false]
  | some v =>
    have hlt := hexVal_lt hv
    unfold hexVal at hv
    split_ifs at hv ⊢ with h₁ h₂ h₃
    · cases hv
      exact congrArg _ (hor hlt)
    · cases hv
      dsimp only
      rw [hswap _ 97 (UInt8.le_iff_toNat_le.mp h₂.1), ← hor hlt]
    · cases hv
      dsimp only
      rw [hswap _ 65 (UInt8.le_iff_toNat_le.mp h₃.1), ← hor hlt]

/-- So many hexadecimal digits have been read, and the value is theirs. -/
theorem readHex4Loop_sound {n out v : Nat} (hg : s.Good) (h : Ok (readHex4Loop p n out) s v s') :
    ∃ q, q.length = n ∧ hexDigits out q = some v ∧ s.Moved p q 0 [] s' := by
  induction n generalizing s out with
  | zero =>
    obtain ⟨rfl, rfl⟩ := ok_pure.mp h
    exact ⟨[], rfl, rfl, .refl s'⟩
  | succ n ih =>
    rw [readHex4Loop_succ] at h
    obtain ⟨ch, d, hc, h⟩ := ok_bind.mp h
    have hm := getCharOr_sound hg hc
    cases hv : hexVal ch with
    | none =>
      rw [hv] at h
      exact absurd h not_ok_fail
    | some x =>
      rw [hv] at h
      obtain ⟨q, hq, hd, hm'⟩ := ih (hm.good hg) h
      exact ⟨ch :: q, by rw [List.length_cons, hq], by rw [hexDigits_cons, hv]; exact hd,
        hm.trans hm'⟩

/-- They are read if they are there. -/
theorem readHex4Loop_does {q r : Bytes} {v : Nat} (out : Nat) (hs : s.Ready p) (hr : s.rest = q ++ r)
    (hq : hexDigits out q = some v) : Does p (readHex4Loop p q.length out) s q 0 [] v := by
  induction q generalizing s out with
  | nil =>
    cases hq
    exact Does.pure s _
  | cons ch q ih =>
    rw [hexDigits_cons] at hq
    obtain ⟨x, hx, hq⟩ := Option.bind_eq_some_iff.mp hq
    rw [List.length_cons, readHex4Loop_succ]
    refine (getCharOr_does hs hr _).read fun d hm => ?_
    rw [hx]
    exact ih _ (hm.ready hs) (hm.rest_eq (t := [ch]) hr) hq

/-- If none was missing, so many bytes have been read. -/
theorem collectHex_sound {n : Nat} {hex hex' : Bytes} (hg : s.Good)
    (h : Ok (collectHex p n hex) s hex' s') (hlen : hex'.length = hex.length + n) :
    ∃ q, hex' = hex ++ q ∧ s.Moved p q 0 [] s' := by
  induction n generalizing s hex with
  | zero =>
    obtain ⟨rfl, rfl⟩ := ok_pure.mp h
    exact ⟨[], (List.append_nil _).symm, .refl s'⟩
  | succ n ih =>
    obtain ⟨o, d, ho, h⟩ := ok_bind.mp h
    cases o with
    | none =>
      obtain ⟨rfl, -⟩ := ok_pure.mp h
      omega
    | some hx =>
      have hm := getChar_sound hg ho
      obtain ⟨q, rfl, hm'⟩ := ih (hm.good hg) h (by simp; omega)
      exact ⟨hx :: q, by simp, hm.trans hm'⟩

/-- They are read if they are there, digits or not. -/
theorem collectHex_does {q r : Bytes} (hex : Bytes) (hs : s.Ready p) (hr : s.rest = q ++ r) :
    Does p (collectHex p q.length hex) s q 0 [] (hex ++ q) := by
  induction q generalizing s hex with
  | nil =>
    rw [List.append_nil]
    exact Does.pure s hex
  | cons ch q ih =>
    refine (getChar_does hs hr).read fun d hm => ?_
    have := ih (hex ++ [ch]) (hm.ready hs) (hm.rest_eq (t := [ch]) hr)
    rwa [List.append_assoc] at this

/-- A second half has been read: a backslash, a `u` and four digits in its range. -/
theorem lowSurrogate_sound {low : Nat} {out : Bytes} (hg : s.Good) (hr : s.rest = 0x5C :: out)
    (h : Ok (lowSurrogate p) s low s') :
    ∃ r, HexQuad r low ∧ 0xDC00 ≤ low ∧ low ≤ 0xDFFF ∧
      s.Moved p (0x5C :: 0x75 :: r) 0 [] s' := by
  obtain ⟨b, d, hb, h⟩ := ok_bind.mp h
  have hm := getCharOr_sound hg hb
  have hbs : b = 0x5C := by
    have : 0x5C :: out = b :: d.rest := hr.symm.trans hm.rest
    cases this
    rfl
  obtain ⟨u, e, hu, h⟩ := ok_bind.mp h
  have hm₂ := getCharOr_sound (hm.good hg) hu
  by_cases huu : u = 0x75
  · rw [if_pos huu] at h
    obtain ⟨hex, f, hh, h⟩ := ok_bind.mp h
    by_cases hlen : hex.length = 4
    · rw [if_pos hlen] at h
      obtain ⟨q, hq, hm₃⟩ := collectHex_sound (hm₂.good (hm.good hg)) hh (by simpa using hlen)
      rw [List.nil_append] at hq
      subst hq
      cases hv : hexDigits 0 hex with
      | none =>
        rw [hv] at h
        exact absurd h not_ok_fail
      | some v =>
        rw [hv] at h
        dsimp only at h
        split at h
        · rename_i hrange
          obtain ⟨rfl, rfl⟩ := ok_pure.mp h
          refine ⟨hex, hexQuad_of_hexDigits hlen hv, hrange.1, hrange.2, ?_⟩
          have := hm.trans (hm₂.trans hm₃)
          rwa [hbs, huu] at this
        · exact absurd h not_ok_fail
    · rw [if_neg hlen] at h
      exact absurd h not_ok_fail
  · rw [if_neg huu] at h
    exact absurd h not_ok_fail

/-- It is read if it is there. -/
theorem lowSurrogate_does {r out : Bytes} {low : Nat} (hs : s.Ready p)
    (hr : s.rest = 0x5C :: 0x75 :: (r ++ out)) (hq : HexQuad r low) (h₁ : 0xDC00 ≤ low)
    (h₂ : low ≤ 0xDFFF) : Does p (lowSurrogate p) s (0x5C :: 0x75 :: r) 0 [] low := by
  refine (getCharOr_does hs hr _).read fun d hm => ?_
  have hr₁ : d.rest = 0x75 :: (r ++ out) := hm.rest_eq (t := [0x5C]) hr
  refine (getCharOr_does (hm.ready hs) hr₁ _).read fun e hm₂ => ?_
  rw [if_pos rfl]
  have hc := collectHex_does [] (hm₂.ready (hm.ready hs)) (hm₂.rest_eq (t := [0x75]) hr₁)
  rw [hq.length, List.nil_append] at hc
  refine hc.last fun f => ?_
  rw [if_pos hq.length, hq.hexDigits_eq]
  dsimp only
  rw [if_pos ⟨h₁, h₂⟩]
  exact Does.pure f low

/-- What follows the `u` has been read as one escape, or as two that make a pair. -/
theorem unicodeEscape_sound {b : Bytes} (hg : s.Good) (h : Ok (unicodeEscape p) s b s') :
    ∃ t, StringChar (0x5C :: 0x75 :: t) b ∧ s.Moved p t 0 [] s' := by
  obtain ⟨cp, d, hcp, h⟩ := ok_bind.mp h
  obtain ⟨q, hq, hv, hm⟩ := readHex4Loop_sound hg hcp
  have hquad := hexQuad_of_hexDigits hq hv
  have hlt := hquad.lt
  by_cases hhi : 0xD800 ≤ cp ∧ cp ≤ 0xDBFF
  · rw [if_pos hhi] at h
    obtain ⟨o, e, ho, h⟩ := ok_bind.mp h
    obtain ⟨hhead, hm₂⟩ := peekChar_sound (p := p) (hm.good hg) ho
    cases o with
    | none => exact absurd h not_ok_fail
    | some slash =>
      by_cases hsl : slash = 0x5C
      · simp only [hsl, if_true] at h
        obtain ⟨low, f, hl, h⟩ := ok_bind.mp h
        rw [ok_pure] at h
        rw [h.1, h.2]
        obtain ⟨out, hr⟩ : ∃ out, e.rest = 0x5C :: out := by
          rw [hm₂.rest, List.nil_append, hsl] at hhead
          exact List.head?_eq_some_iff.mp hhead.symm
        obtain ⟨r, hquad', h₁, h₂, hm₃⟩ := lowSurrogate_sound (hm₂.good (hm.good hg)) hr hl
        refine ⟨q ++ 0x5C :: 0x75 :: r, ?_, hm.trans (hm₂.trans hm₃)⟩
        rw [appendUtf8_pair hhi.1 hhi.2 h₁ h₂]
        exact StringChar.surrogates hquad hquad' hhi.1 hhi.2 h₁ h₂
      · simp only [hsl, if_false] at h
        exact absurd h not_ok_fail
  · rw [if_neg hhi] at h
    by_cases hlo : 0xDC00 ≤ cp ∧ cp ≤ 0xDFFF
    · rw [if_pos hlo] at h
      exact absurd h not_ok_fail
    · rw [if_neg hlo] at h
      obtain ⟨rfl, rfl⟩ := ok_pure.mp h
      refine ⟨q, ?_, hm⟩
      rw [appendUtf8_eq (by omega)]
      exact StringChar.unicode hquad (by unfold Utf8.IsScalar; omega)

/-- Four digits are read. -/
theorem readHex4_does {q out : Bytes} {cp : Nat} (hs : s.Ready p) (hr : s.rest = q ++ out)
    (hq : HexQuad q cp) : Does p (readHex4 p) s q 0 [] cp := by
  have h := readHex4Loop_does 0 hs hr hq.hexDigits_eq
  rwa [hq.length] at h

/-- An escape that is no half of a pair appends its code point. -/
theorem unicodeEscape_does {q out : Bytes} {cp : Nat} (hs : s.Ready p) (hr : s.rest = q ++ out)
    (hq : HexQuad q cp) (hsc : Utf8.IsScalar cp) :
    Does p (unicodeEscape p) s q 0 [] (Utf8.encode cp) := by
  refine (readHex4_does hs hr hq).last fun d => ?_
  have hhi : ¬ (0xD800 ≤ cp ∧ cp ≤ 0xDBFF) := by rcases hsc with h | h <;> omega
  have hlo : ¬ (0xDC00 ≤ cp ∧ cp ≤ 0xDFFF) := by rcases hsc with h | h <;> omega
  have hmax : cp ≤ 0x10FFFF := by rcases hsc with h | h <;> omega
  rw [if_neg hhi, if_neg hlo, appendUtf8_eq hmax]
  exact Does.pure d _

/-- Two halves append the code point they make together. -/
theorem unicodeEscape_does_pair {q r out : Bytes} {hi lo : Nat} (hs : s.Ready p)
    (hr : s.rest = q ++ 0x5C :: 0x75 :: (r ++ out)) (hq : HexQuad q hi) (hq' : HexQuad r lo)
    (h₁ : 0xD800 ≤ hi) (h₂ : hi ≤ 0xDBFF) (h₃ : 0xDC00 ≤ lo) (h₄ : lo ≤ 0xDFFF) :
    Does p (unicodeEscape p) s (q ++ 0x5C :: 0x75 :: r) 0 [] (Utf8.encode (surrogatePair hi lo)) := by
  refine (readHex4_does hs hr hq).read fun d hm => ?_
  have hr₁ := hm.rest_eq hr
  rw [if_pos ⟨h₁, h₂⟩]
  refine (peekChar_does (hm.good hs.good)).read (u := 0x5C :: 0x75 :: r) fun e hm₂ => ?_
  simp only [hr₁, List.head?_cons, if_true]
  refine (lowSurrogate_does (hm₂.ready (hm.ready hs)) (hm₂.rest_eq hr₁) hq' h₃ h₄).last
    fun f => ?_
  rw [appendUtf8_pair h₁ h₂ h₃ h₄]
  exact Does.pure f _

/-- What has been read behind the backslash makes an escape. -/
theorem escapeBody_sound {b : Bytes} (hg : s.Good) (h : Ok (escapeBody p) s b s') :
    ∃ t, StringChar (0x5C :: t) b ∧ s.Moved p t 0 [] s' := by
  obtain ⟨e, d, he, h⟩ := ok_bind.mp h
  have hm := getCharOr_sound hg he
  rw [escape_switch] at h
  cases hs : simpleEscape e with
  | some c =>
    rw [hs] at h
    obtain ⟨rfl, rfl⟩ := ok_pure.mp h
    exact ⟨[e], StringChar.escape hs, hm⟩
  | none =>
    rw [hs] at h
    by_cases hu : e = 0x75
    · rw [if_pos hu] at h
      obtain ⟨t, hc, hm'⟩ := unicodeEscape_sound (hm.good hg) h
      exact ⟨0x75 :: t, hc, hu ▸ hm.trans hm'⟩
    · rw [if_neg hu] at h
      exact absurd h not_ok_fail

/-- Every escape of the grammar is read. -/
theorem escapeBody_does {t b out : Bytes} (hs : s.Ready p) (hc : StringChar (0x5C :: t) b)
    (hr : s.rest = t ++ out) : Does p (escapeBody p) s t 0 [] b := by
  -- the switch, once the byte after the backslash has been consumed
  have hswitch : ∀ {e : UInt8} {r : Bytes}, t = e :: r →
      (∀ d, s.Moved p [e] 0 [] d → Does p ((simpleEscape e).elim
        (if e = 0x75 then unicodeEscape p else fail "invalid escape sequence")
        fun d => pure [d]) d r 0 [] b) →
      Does p (escapeBody p) s t 0 [] b := by
    rintro e r rfl h
    refine (getCharOr_does hs hr _).read fun d hm => ?_
    rw [escape_switch]
    exact h d hm
  generalize ht : (0x5C :: t : Bytes) = full at hc
  cases hc with
  | raw hsc _ _ hbs => exact absurd ht.symm (encode_ne_backslash hsc hbs)
  | escape he =>
    cases ht
    refine hswitch rfl fun d _ => ?_
    rw [he]
    exact Does.pure d _
  | unicode hq hsc =>
    cases ht
    exact hswitch rfl fun d hm =>
      unicodeEscape_does (hm.ready hs) (hm.rest_eq (t := [0x75]) hr) hq hsc
  | surrogates hq hq' h₁ h₂ h₃ h₄ =>
    cases ht
    exact hswitch rfl fun d hm => unicodeEscape_does_pair (hm.ready hs)
      (by simpa using hm.rest_eq (t := [0x75]) hr) hq hq' h₁ h₂ h₃ h₄

/-! The UTF-8 check is that of `_utf8Len`, split into a lead byte and its tail. -/

/-- The continuation bytes have been read, with the code point they give. -/
theorem utf8TailLoop_sound {need code : Nat} {out : Bytes} {r : Nat × Bytes} (hg : s.Good)
    (h : Ok (utf8TailLoop p need code out) s r s') :
    ∃ bs, bs.length = need ∧ utf8Tail need code bs = some r.1 ∧ r.2 = out ++ bs ∧
      s.Moved p bs 0 [] s' := by
  induction need generalizing s code out with
  | zero =>
    obtain ⟨rfl, rfl⟩ := ok_pure.mp h
    exact ⟨[], rfl, rfl, (List.append_nil _).symm, .refl s'⟩
  | succ need ih =>
    obtain ⟨byte, d, hb, h⟩ := ok_bind.mp h
    have hm := getCharOr_sound hg hb
    by_cases hc : byte &&& 0xC0 ≠ 0x80
    · rw [if_pos hc] at h
      exact absurd h not_ok_fail
    · rw [if_neg hc] at h
      obtain ⟨bs, hlen, ht, hr, hm'⟩ := ih (hm.good hg) h
      refine ⟨byte :: bs, by rw [List.length_cons, hlen], ?_, by simpa using hr, hm.trans hm'⟩
      rw [utf8Tail, if_neg hc]
      exact ht

/-- They are read if they are there. -/
theorem utf8TailLoop_does {need code cp : Nat} {bs r : Bytes} (out : Bytes) (hs : s.Ready p)
    (hr : s.rest = bs ++ r) (hlen : bs.length = need) (ht : utf8Tail need code bs = some cp) :
    Does p (utf8TailLoop p need code out) s bs 0 [] (cp, out ++ bs) := by
  induction need generalizing s code bs out with
  | zero =>
    obtain rfl := List.length_eq_zero_iff.mp hlen
    cases ht
    rw [List.append_nil]
    exact Does.pure s _
  | succ need ih =>
    cases bs with
    | nil => cases hlen
    | cons byte bs =>
      refine (getCharOr_does hs hr _).read fun d hm => ?_
      rw [utf8Tail] at ht
      split at ht
      · cases ht
      · rename_i hc
        rw [if_neg hc]
        have := ih (out ++ [byte]) (hm.ready hs) (hm.rest_eq (t := [byte]) hr)
          (by simpa using hlen) ht
        rwa [List.append_assoc] at this

/-- The checks behind the loop, for the least code point `lo` that needs so many bytes. -/
theorem finishUtf8Tail_check {need code lo : Nat}
    (hlo : (need = 1 ∧ lo = 0x80) ∨ (need = 2 ∧ lo = 0x800) ∨ (need = 3 ∧ lo = 0x10000)) :
    ((need = 1 ∧ code < 0x80) ∨ (need = 2 ∧ code < 0x800) ∨ (need = 3 ∧ code < 0x10000) ∨
      code > 0x10FFFF ∨ (code ≥ 0xD800 ∧ code ≤ 0xDFFF)) ↔
      ¬ (lo ≤ code ∧ Utf8.IsScalar code) := by
  unfold Utf8.IsScalar
  omega

/-- The tail of a sequence of this length has been read: not overlong, no surrogate, not beyond the last
    code point. -/
theorem finishUtf8Tail_sound {need code lo : Nat} {bs : Bytes}
    (hlo : (need = 1 ∧ lo = 0x80) ∨ (need = 2 ∧ lo = 0x800) ∨ (need = 3 ∧ lo = 0x10000))
    (hg : s.Good) (h : Ok (finishUtf8Tail p need code) s bs s') :
    utf8Finish (need + 1) code lo bs = bs.length + 1 ∧ s.Moved p bs 0 [] s' := by
  obtain ⟨⟨cp, out⟩, d, hl, h⟩ := ok_bind.mp h
  obtain ⟨bs', hlen, ht, hout, hm⟩ := utf8TailLoop_sound hg hl
  rw [List.nil_append] at hout
  dsimp only at hout ht h
  subst hout
  by_cases hc : (need = 1 ∧ cp < 0x80) ∨ (need = 2 ∧ cp < 0x800) ∨ (need = 3 ∧ cp < 0x10000) ∨
      cp > 0x10FFFF ∨ (cp ≥ 0xD800 ∧ cp ≤ 0xDFFF)
  · rw [if_pos hc] at h
    exact absurd h not_ok_fail
  · rw [if_neg hc, ok_pure] at h
    rw [h.1, h.2]
    obtain ⟨h₁, h₂⟩ := not_not.mp (mt (finishUtf8Tail_check hlo).mpr hc)
    refine ⟨?_, hm⟩
    rw [utf8Finish_eq (n := need + 1) (by omega) ht h₁ h₂, hlen]

/-- Such a tail is read. -/
theorem finishUtf8Tail_does {need code lo : Nat} {bs r : Bytes}
    (hlo : (need = 1 ∧ lo = 0x80) ∨ (need = 2 ∧ lo = 0x800) ∨ (need = 3 ∧ lo = 0x10000))
    (hs : s.Ready p) (hr : s.rest = bs ++ r)
    (h : utf8Finish (need + 1) code lo bs = bs.length + 1) :
    Does p (finishUtf8Tail p need code) s bs 0 [] bs := by
  obtain ⟨hn, cp, ht, h₁, h₂⟩ := exists_of_utf8Finish
    (show utf8Finish (need + 1) code lo bs ≠ 0 by rw [h]; omega)
  have hlen : bs.length = need := by omega
  refine (utf8TailLoop_does [] hs hr hlen ht).last fun d => ?_
  have hc := mt (finishUtf8Tail_check hlo).mp (not_not.mpr ⟨h₁, h₂⟩)
  dsimp only
  rw [if_neg hc]
  exact Does.pure d bs

/-- The bytes behind a lead complete the sequence that `_utf8Len` measures. -/
theorem consumeUtf8Tail_sound {lead : UInt8} {bs : Bytes} (hlead : ¬ lead < 0x80) (hg : s.Good)
    (h : Ok (consumeUtf8Tail p lead) s bs s') :
    utf8Len (lead :: bs) = bs.length + 1 ∧ s.Moved p bs 0 [] s' := by
  rw [utf8Len, if_neg hlead]
  unfold consumeUtf8Tail at h
  split_ifs at h ⊢
  · exact finishUtf8Tail_sound (by decide) hg h
  · exact finishUtf8Tail_sound (by decide) hg h
  · exact finishUtf8Tail_sound (by decide) hg h
  · exact absurd h not_ok_fail

/-- A sequence that it measures is read to its end. -/
theorem consumeUtf8Tail_does {lead : UInt8} {bs r : Bytes} (hlead : ¬ lead < 0x80)
    (hs : s.Ready p) (hr : s.rest = bs ++ r) (h : utf8Len (lead :: bs) = bs.length + 1) :
    Does p (consumeUtf8Tail p lead) s bs 0 [] bs := by
  rw [utf8Len, if_neg hlead] at h
  unfold consumeUtf8Tail
  split_ifs at h ⊢
  · exact finishUtf8Tail_does (by decide) hs hr h
  · exact finishUtf8Tail_does (by decide) hs hr h
  · exact finishUtf8Tail_does (by decide) hs hr h

/-- A character of a string has been read, with the bytes it stands for. -/
theorem decodeChar_sound {ch : UInt8} {b : Bytes} (hg : s.Good) (hne : ch ≠ 0x22)
    (h : Ok (decodeChar p ch) s b s') : ∃ t, StringChar (ch :: t) b ∧ s.Moved p t 0 [] s' := by
  unfold decodeChar at h
  by_cases hbs : ch = 0x5C
  · rw [if_pos hbs] at h
    obtain ⟨t, hc, hm⟩ := escapeBody_sound hg h
    exact ⟨t, hbs ▸ hc, hm⟩
  rw [if_neg hbs] at h
  by_cases hctl : ch < 0x20
  · rw [if_pos hctl] at h
    exact absurd h not_ok_fail
  rw [if_neg hctl] at h
  by_cases hhi : 0x80 ≤ ch
  · rw [if_pos hhi] at h
    obtain ⟨tail, d, ht, h⟩ := ok_bind.mp h
    rw [ok_pure] at h
    rw [h.1, h.2]
    obtain ⟨hlen, hm⟩ := consumeUtf8Tail_sound (UInt8.not_lt.mpr hhi) hg ht
    refine ⟨tail, ?_, hm⟩
    -- the lead and its tail are one encoded scalar value, and nothing more
    obtain ⟨cp, r, hs, he, hl⟩ := exists_of_utf8Len
      (show utf8Len (ch :: tail) ≠ 0 by rw [hlen]; omega)
    have hr : r = [] := by
      have := congrArg List.length he
      rw [List.length_cons, List.length_append] at this
      exact List.length_eq_zero_iff.mp (by omega)
    rw [hr, List.append_nil] at he
    have hbig : 0x80 ≤ cp := by
      by_contra hlt
      rw [Utf8.encode, if_pos (by omega)] at he
      have h1 := congrArg UInt8.toNat (List.cons.inj he).1
      rw [UInt8.toNat_ofNat', Nat.mod_eq_of_lt (by omega)] at h1
      have h2 : 128 ≤ ch.toNat := UInt8.le_iff_toNat_le.mp hhi
      omega
    rw [he]
    exact StringChar.raw hs (by omega) (by omega) (by omega)
  · rw [if_neg hhi, ok_pure] at h
    rw [h.1, h.2]
    refine ⟨[], ?_, .refl s⟩
    have h1 : ch.toNat < 128 := by
      by_contra hc
      exact hhi (UInt8.le_iff_toNat_le.mpr (show 128 ≤ ch.toNat by omega))
    have h2 : 32 ≤ ch.toNat := by
      by_contra hc
      exact hctl (UInt8.lt_iff_toNat_lt.mpr (show ch.toNat < 32 by omega))
    have h := StringChar.raw (show Utf8.IsScalar ch.toNat from Or.inl (by omega)) h2
      (fun hc => hne (UInt8.toNat_inj.mp hc)) (fun hc => hbs (UInt8.toNat_inj.mp hc))
    rwa [Utf8.encode_one h1] at h

/-- Every character of the grammar starts with a byte that is no quote, and the rest of it is read. -/
theorem decodeChar_does {t b : Bytes} (hc : StringChar t b) :
    ∃ ch r, t = ch :: r ∧ ch ≠ 0x22 ∧ ∀ {s : SaxState κ} {out : Bytes}, s.Ready p →
      s.rest = r ++ out → Does p (decodeChar p ch) s r 0 [] b := by
  -- an escape is handed on after its backslash
  have hescape : ∀ {t' : Bytes}, t = 0x5C :: t' →
      ∃ ch r, t = ch :: r ∧ ch ≠ 0x22 ∧ ∀ {s : SaxState κ} {out : Bytes}, s.Ready p →
        s.rest = r ++ out → Does p (decodeChar p ch) s r 0 [] b := by
    rintro t' rfl
    refine ⟨0x5C, t', rfl, by decide, fun hs hr => ?_⟩
    unfold decodeChar
    rw [if_pos rfl]
    exact escapeBody_does hs hc hr
  cases hc with
  | escape he => exact hescape rfl
  | unicode hq hs => exact hescape rfl
  | surrogates hq hq' h₁ h₂ h₃ h₄ => exact hescape rfl
  | @raw cp hsc hctl hq hbs =>
    rcases Nat.lt_or_ge cp 0x80 with hlt | hge
    · have he : Utf8.encode cp = [UInt8.ofNat cp] := by rw [Utf8.encode, if_pos hlt]
      have hnat : (UInt8.ofNat cp).toNat = cp := by
        rw [UInt8.toNat_ofNat', Nat.mod_eq_of_lt (by omega)]
      refine ⟨UInt8.ofNat cp, [], he, fun h => hq (by rw [← hnat, h]; rfl), fun hs hr => ?_⟩
      unfold decodeChar
      rw [if_neg (fun h => hbs (by rw [← hnat, h]; rfl)),
        if_neg (by rw [UInt8.lt_iff_toNat_lt, hnat]; show ¬ cp < 32; omega),
        if_neg (by rw [UInt8.le_iff_toNat_le, hnat]; show ¬ 128 ≤ cp; omega), he]
      exact Does.pure _ _
    · -- the lead byte of a longer sequence is at least `0xC0`
      have hlead : ∃ b r, Utf8.encode cp = b :: r ∧ 0xC0 ≤ b.toNat := by
        rcases Utf8.encode_cases hsc with ⟨hlt, -⟩ | ⟨b, _, he, hb, -⟩ | ⟨b, _, _, he, hb, -⟩ |
            ⟨b, _, _, _, he, hb, -⟩
        · omega
        all_goals exact ⟨b, _, he, by omega⟩
      obtain ⟨b, r, he, hb⟩ := hlead
      have hne : ∀ x : UInt8, x.toNat < 0xC0 → b ≠ x := by
        rintro x hx rfl
        omega
      have h80 : 0x80 ≤ b := UInt8.le_iff_toNat_le.mpr (show 128 ≤ b.toNat by omega)
      refine ⟨b, r, he, hne _ (by decide), fun hs hr => ?_⟩
      have hlen : utf8Len (b :: r) = r.length + 1 := by
        have := utf8Len_encode hsc []
        rwa [List.append_nil, he] at this
      unfold decodeChar
      rw [if_neg (hne _ (by decide)),
        if_neg (by rw [UInt8.lt_iff_toNat_lt]; show ¬ b.toNat < 32; omega), if_pos h80, he]
      exact (consumeUtf8Tail_does (UInt8.not_lt.mpr h80) hs hr hlen).last fun d => Does.pure d (b :: r)

/-- The body of a string has been read, and the quote behind it. -/
theorem stringLoop_sound {fuel : Nat} {acc b : Bytes} (hg : s.Good)
    (h : Ok (stringLoop p fuel acc) s b s') :
    ∃ t body, StringBody t body ∧ b = acc ++ body ∧ s.Moved p (t ++ [0x22]) 0 [] s' := by
  induction fuel generalizing s acc with
  | zero => exact absurd h not_ok_throw
  | succ fuel ih =>
    obtain ⟨o, d, ho, h⟩ := ok_bind.mp h
    cases o with
    | none => exact absurd h not_ok_failAtEnd
    | some ch =>
      have hm := getChar_sound hg ho
      by_cases hq : ch = 0x22
      · simp only [hq, if_true] at h
        rw [ok_pure] at h
        rw [h.1, h.2]
        exact ⟨[], [], StringBody.nil, by simp, hq ▸ hm⟩
      · simp only [hq, if_false] at h
        obtain ⟨b₁, e, hd, h⟩ := ok_bind.mp h
        obtain ⟨t, hc, hm₂⟩ := decodeChar_sound (hm.good hg) hq hd
        obtain ⟨t', body, hb, hs, hm₃⟩ := ih (hm₂.good (hm.good hg)) h
        refine ⟨ch :: t ++ t', b₁ ++ body, StringBody.cons hc hb,
          by rw [hs, List.append_assoc], ?_⟩
        simpa using hm.trans (hm₂.trans hm₃)

/-- A body and its quote are read, if the fuel exceeds the length of the body. -/
theorem stringLoop_does (fuel : Nat) {t body out : Bytes} (acc : Bytes) (hs : s.Ready p)
    (hb : StringBody t body) (hr : s.rest = t ++ 0x22 :: out) (hfuel : t.length < fuel) :
    Does p (stringLoop p fuel acc) s (t ++ [0x22]) 0 [] (acc ++ body) := by
  induction fuel generalizing s t body acc with
  | zero => omega
  | succ fuel ih =>
    unfold stringLoop
    cases hb with
    | nil =>
      refine (getChar_does hs hr).last fun d => ?_
      simp only [if_true, List.append_nil]
      exact Does.pure d acc
    | @cons t b t' b' hc hb' =>
      obtain ⟨ch, r, rfl, hq, hdoes⟩ := decodeChar_does (κ := κ) (p := p) hc
      have hr₁ : s.rest = ch :: (r ++ (t' ++ 0x22 :: out)) := by simpa using hr
      rw [List.append_assoc]
      refine (getChar_does hs hr₁).read (u := r ++ (t' ++ [0x22])) fun d hm => ?_
      simp only [hq, if_false]
      have hr₂ := hm.rest_eq (t := [ch]) hr₁
      refine (hdoes (hm.ready hs) hr₂).read fun e hm₂ => ?_
      have := ih (acc ++ b) (hm₂.ready (hm.ready hs)) hb' (hm₂.rest_eq hr₂)
        (by simp only [List.length_append, List.length_cons] at hfuel; omega)
      rwa [List.append_assoc] at this

/-- **A quoted string**, from its first quote to its last. -/
theorem parseStringRaw_sound {b : Bytes} (hg : s.Good) (h : Ok (parseStringRaw p) s b s') :
    ∃ t, StringBody t b ∧ s.Moved p (0x22 :: (t ++ [0x22])) 0 [] s' := by
  obtain ⟨_, d, hq, h⟩ := ok_bind.mp h
  have hm := expectChar_sound hg hq
  rw [ok_bind_unread] at h
  obtain ⟨t, body, hb, hs, hm'⟩ := stringLoop_sound (hm.good hg) h
  rw [List.nil_append] at hs
  exact ⟨t, hs ▸ hb, hm.trans hm'⟩

/-- A string is read from quote to quote. -/
theorem parseStringRaw_does {t b out : Bytes} (hs : s.Ready p) (hb : StringBody t b)
    (hr : s.rest = 0x22 :: (t ++ 0x22 :: out)) :
    Does p (parseStringRaw p) s (0x22 :: (t ++ [0x22])) 0 [] b := by
  refine (expectChar_does hs hr _).read fun d hm => ?_
  have hr' : d.rest = t ++ 0x22 :: out := hm.rest_eq (t := [0x22]) hr
  obtain ⟨s', h, hm'⟩ := stringLoop_does (d.rest.length + 1) [] (hm.ready hs) hb hr'
    (by rw [hr', List.length_append]; omega)
  exact ⟨s', ok_bind_unread.mpr h, hm'⟩

end Strings

/-! ## Scalars -/

section Scalars

variable {s s' : SaxState κ}

/-- The letters of a literal have been read. -/
theorem matchLiteral_sound {lit : Bytes} {u : Unit} (hg : s.Good)
    (h : Ok (matchLiteral p lit) s u s') : s.Moved p lit 0 [] s' := by
  induction lit generalizing s with
  | nil =>
    obtain ⟨-, rfl⟩ := ok_pure.mp h
    exact .refl s'
  | cons want lit ih =>
    obtain ⟨_, d, he, h⟩ := ok_bind.mp h
    have hm := expectChar_sound hg he
    exact hm.trans (ih (hm.good hg) h)

/-- They are read if they are there. -/
theorem matchLiteral_does {lit out : Bytes} (hs : s.Ready p) (hr : s.rest = lit ++ out) :
    Does p (matchLiteral p lit) s lit 0 [] () := by
  induction lit generalizing s with
  | nil => exact Does.pure s ()
  | cons want lit ih =>
    exact (expectChar_does hs hr _).read fun d hm =>
      ih (hm.ready hs) (hm.rest_eq (t := [want]) hr)

/-- A keyword has been read, charged for and told. -/
theorem keyword_sound {emit : Bool} {lit : Bytes} {event : SaxEvent} {u : Unit} (hg : s.Good)
    (h : Ok (keyword p emit lit event) s u s') :
    s.Moved p lit 1 (emitted emit [event]) s' ∧ s.Room p 1 := by
  obtain ⟨_, d, hl, h⟩ := ok_bind.mp h
  have hm := matchLiteral_sound hg hl
  obtain ⟨_, e, hn, h⟩ := ok_bind.mp h
  obtain ⟨hroom, hm₂⟩ := reserveNode_sound hn
  have hm₃ := dispatch_sound h
  exact ⟨by simpa using hm.trans (hm₂.trans hm₃), hm.room.mp hroom⟩

/-- It is, if there is room for a node. -/
theorem keyword_does (hh : p.handler.Accepting) (emit : Bool) {lit out : Bytes} (event : SaxEvent)
    (hs : s.Ready p) (hr : s.rest = lit ++ out) (hroom : s.Room p 1) :
    Does p (keyword p emit lit event) s lit 1 (emitted emit [event]) () := by
  have h : Does p (keyword p emit lit event) s (lit ++ []) 1 (emitted emit [event]) () :=
    (matchLiteral_does hs hr).read fun d hm =>
      (reserveNode_does (hm.room.mpr hroom)).charge (k := 0) fun _ _ => dispatch_does hh emit event
  rwa [List.append_nil] at h

/-- The number scanner runs on the parser itself, whose byte limit may refuse it a byte. -/
def adapterView (p : SaxParser) : CursorView (adapter p : NumberCursor (SaxState κ)) where
  rest := SaxState.rest
  Good := SaxState.Good
  Moved := fun s b t => s.Moved p b 0 [] t
  Room := fun s _ => s.Fits p
  moved_refl := .refl
  moved_trans := fun h h' => h.trans h'
  moved_rest := fun h => h.rest
  moved_good := fun h hg => h.good hg
  moved_room := fun h hr => h.fits hr
  peek_ok := fun hg => peekChar_spec hg
  take_moved := fun hg h => getChar_sound hg h
  take_ok := by
    intro s b r n hg hr hroom
    obtain ⟨s', h, -⟩ := getChar_does ⟨hg, hroom⟩ hr
    exact ⟨s', h⟩

/-- The scan of a number is the one both parsers share; its errors only get a place. -/
theorem ok_scanNumber {r : Bytes × Bool} :
    Ok (scanNumber p) s r s' ↔ Ok (scanJsonNumber (adapter p) (s.rest.length + 1)) s r s' := by
  unfold scanNumber
  rw [ok_tryCatch, ok_bind_unread]
  -- the handler always ends in an exit
  intro e u h
  split at h
  · exact not_ok_fail h
  · exact not_ok_throw h
  · exact not_ok_throw h

/-- A number token has been read that converts, and its event has been told. -/
theorem parseNumberValue_sound {lib : NumericLibrary} {emit : Bool} {u : Unit} (hg : s.Good)
    (h : Ok (parseNumberValue p lib emit) s u s') :
    ∃ (t : NumberToken) (n : ParsedNumber), t.convert lib p.opts.numberPolicy = some n ∧
      s.Moved p t.text 1 (emitted emit [n.event]) s' ∧ s.Room p 1 := by
  obtain ⟨r, d, hr, h⟩ := ok_bind.mp h
  obtain ⟨t, rfl, hm, -⟩ := (adapterView p).scanJsonNumber_sound hg (ok_scanNumber.mp hr)
  have hm : s.Moved p t.text 0 [] d := hm
  obtain ⟨_, e, hn, h⟩ := ok_bind.mp h
  obtain ⟨hroom, hm₂⟩ := reserveNode_sound hn
  cases hconv : convertNumberToken lib t.text t.isFloat p.opts.numberPolicy with
  | error message =>
    rw [hconv] at h
    exact absurd h not_ok_fail
  | ok n =>
    rw [hconv] at h
    have hm₃ := dispatch_sound h
    exact ⟨t, n, by rw [NumberToken.convert, hconv]; rfl, by simpa using hm.trans (hm₂.trans hm₃),
      hm.room.mp hroom⟩

/-- A token that converts is read to the byte that ends it. -/
theorem parseNumberValue_does (hh : p.handler.Accepting) {lib : NumericLibrary} (emit : Bool)
    {t : NumberToken} {n : ParsedNumber} {out : Bytes}
    (hconv : t.convert lib p.opts.numberPolicy = some n) (hs : s.Ready p)
    (hr : s.rest = t.text ++ out) (hout : EndsNumber out) (hroom : s.Room p 1) :
    Does p (parseNumberValue p lib emit) s t.text 1 (emitted emit [n.event]) () := by
  have hat : (adapterView p).At s (t.text ++ out) (t.text.length + 0) := ⟨hs.good, hr, hs.fits⟩
  obtain ⟨d, hscan, hm, -⟩ := CursorView.scanJsonNumber_complete (s.rest.length + 1) hat
    (by rw [hr, List.length_append]; omega) hout
  have hm : s.Moved p t.text 0 [] d := hm
  have hconv' : convertNumberToken lib t.text t.isFloat p.opts.numberPolicy = .ok n := by
    unfold NumberToken.convert at hconv
    cases h : convertNumberToken lib t.text t.isFloat p.opts.numberPolicy with
    | error m => rw [h] at hconv; cases hconv
    | ok n' => rw [h] at hconv; cases hconv; rfl
  have h : Does p (parseNumberValue p lib emit) s (t.text ++ []) 1 (emitted emit [n.event]) () := by
    refine Does.read ⟨d, ok_scanNumber.mpr hscan, hm⟩ fun d hm => ?_
    refine (reserveNode_does (hm.room.mpr hroom)).charge (k := 0) fun e _ => ?_
    rw [hconv']
    exact dispatch_does hh emit n.event
  rwa [List.append_nil] at h

/-- A string has been read as a value, charged for and told. -/
theorem parseStringValue_sound {emit : Bool} {u : Unit} (hg : s.Good)
    (h : Ok (parseStringValue p emit) s u s') :
    ∃ t b, StringBody t b ∧
      s.Moved p (0x22 :: (t ++ [0x22])) 1 (emitted emit [.onString b]) s' ∧ s.Room p 1 := by
  obtain ⟨_, d, hn, h⟩ := ok_bind.mp h
  obtain ⟨hroom, hm⟩ := reserveNode_sound hn
  obtain ⟨b, e, hb, h⟩ := ok_bind.mp h
  obtain ⟨t, hbody, hm₂⟩ := parseStringRaw_sound (hm.good hg) hb
  have hm₃ := dispatch_sound h
  exact ⟨t, b, hbody, by simpa using hm.trans (hm₂.trans hm₃), hroom⟩

/-- It is, if there is room for a node. -/
theorem parseStringValue_does (hh : p.handler.Accepting) (emit : Bool) {t b out : Bytes}
    (hs : s.Ready p) (hb : StringBody t b) (hr : s.rest = 0x22 :: (t ++ 0x22 :: out))
    (hroom : s.Room p 1) :
    Does p (parseStringValue p emit) s (0x22 :: (t ++ [0x22])) 1 (emitted emit [.onString b]) () := by
  refine (reserveNode_does hroom).charge (k := 0) fun d hm => ?_
  have h := (parseStringRaw_does (hm.ready hs) hb (hm.rest_eq (t := []) hr)).read (u := [])
    (f := fun value => dispatch p emit (.onString value)) fun e _ => dispatch_does hh emit _
  rwa [List.append_nil] at h

end Scalars

end Sax

end ByteDance
