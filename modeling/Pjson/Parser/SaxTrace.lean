/-
  Which functions of the SAX parser do not look at what the handler has been told.

  `Alike x y` says that `y`, started like `x` but with other events delivered, ends like `x` with
  these events still the only ones.  The leaf functions are alike under any two parsers with the
  same limits, whatever their handlers and duplicate policies: between two calls of `dispatch` the
  parser runs the same course.  In particular a leaf function delivers nothing on any exit.
-/
import Pjson.Parser.Sax

namespace ByteDance

open Run

variable {κ : Type} {α β : Type}

/-- `s` with other events delivered. -/
def SaxState.tell (s : SaxState κ) (log : List SaxEvent) : SaxState κ := { s with delivered := log }

@[simp] theorem SaxState.tell_cur (s : SaxState κ) (log : List SaxEvent) : (s.tell log).cur = s.cur :=
  rfl

@[simp] theorem SaxState.tell_delivered (s : SaxState κ) (log : List SaxEvent) :
    (s.tell log).delivered = log := rfl

/-- What has been delivered is one of the things that may have been. -/
theorem SaxState.tell_self (s : SaxState κ) : s.tell s.delivered = s := rfl

@[simp] theorem SaxState.tell_tell (s : SaxState κ) (log log' : List SaxEvent) :
    (s.tell log).tell log' = s.tell log' := rfl

namespace Sax

/-- How a run has ended. -/
abbrev Ending (κ α : Type) := EStateM.Result ParseExit (SaxState κ) α

/-- The state a run ends in. -/
def Ending.state : Ending κ α → SaxState κ
  | .ok _ s => s
  | .error _ s => s

/-- The same end with other events delivered. -/
def Ending.tell (log : List SaxEvent) : Ending κ α → Ending κ α
  | .ok a s => .ok a (s.tell log)
  | .error e s => .error e (s.tell log)

/-- `y` runs like `x`, and neither depends on what has been delivered nor delivers anything. -/
def Alike (x y : SaxM κ α) : Prop :=
  ∀ s log, y.run (s.tell log) = Ending.tell log (x.run s)

namespace Alike

/-- A function that is like another one delivers nothing. -/
theorem quiet {x y : SaxM κ α} (h : Alike x y) (s : SaxState κ) :
    (Ending.state (y.run s)).delivered = s.delivered := by
  have hs := h s s.delivered
  rw [SaxState.tell_self] at hs
  rw [hs]
  cases x.run s <;> rfl

/-- In front of the same state the two are the same. -/
theorem run_eq {x y : SaxM κ α} (hx : Alike x x) (h : Alike x y) (s : SaxState κ) :
    y.run s = x.run s := by
  rw [← SaxState.tell_self s, h s s.delivered, hx s s.delivered]

/-- A value. -/
theorem pure (a : α) : Alike (Pure.pure a : SaxM κ α) (Pure.pure a) := fun _ _ => rfl

/-- An exit carries no events. -/
theorem throw (e : ParseExit) : Alike (MonadExcept.throw e : SaxM κ α) (MonadExcept.throw e) :=
  fun _ _ => rfl

/-- Two programs after two programs. -/
theorem bind {x y : SaxM κ α} {f g : α → SaxM κ β} (h : Alike x y) (hf : ∀ a, Alike (f a) (g a)) :
    Alike (x >>= f) (y >>= g) := by
  intro s log
  rw [EStateM.run_bind, EStateM.run_bind, h s log]
  cases x.run s with
  | ok a t => exact hf a t log
  | error e t => rfl

/-- A program that reads the state, but not the events. -/
theorem get_bind {f g : SaxState κ → SaxM κ β} (hg : ∀ s log, g (s.tell log) = g s)
    (h : ∀ s, Alike (f s) (g s)) : Alike (get >>= f) (get >>= g) := by
  intro s log
  show (g (s.tell log)).run (s.tell log) = Ending.tell log ((f s).run s)
  rw [hg]
  exact h s s log

/-- The two look at the same condition. -/
theorem ite {c : Prop} [Decidable c] {x x' y y' : SaxM κ α} (hx : Alike x x') (hy : Alike y y') :
    Alike (if c then x else y) (if c then x' else y') := by
  split
  · exact hx
  · exact hy

/-- A program that goes on by whether there is a byte. -/
theorem bindOption {x y : SaxM κ (Option α)} {f g : Option α → SaxM κ β} (h : Alike x y)
    (hnone : Alike (f none) (g none)) (hsome : ∀ a, Alike (f (some a)) (g (some a))) :
    Alike (x >>= f) (y >>= g) := by
  refine h.bind fun o => ?_
  cases o with
  | none => exact hnone
  | some a => exact hsome a

/-- A handler starts where the failure has left the state. -/
theorem tryCatch {x y : SaxM κ α} {f g : ParseExit → SaxM κ α} (h : Alike x y)
    (hf : ∀ e, Alike (f e) (g e)) :
    Alike (MonadExcept.tryCatch x f) (MonadExcept.tryCatch y g) := by
  intro s log
  show EStateM.tryCatch y g (s.tell log) = Ending.tell log (EStateM.tryCatch x f s)
  have hs := h s log
  unfold EStateM.run at hs
  unfold EStateM.tryCatch
  rw [hs]
  cases x s with
  | ok a t => rfl
  | error e t => exact hf e t log

end Alike

variable [SaxCursor κ]

/-- The two parsers have the same limits. -/
structure SameLimits (p q : SaxParser) : Prop where
  maxInputBytes : q.opts.maxInputBytes = p.opts.maxInputBytes
  maxNodes : q.opts.maxNodes = p.opts.maxNodes
  maxDepth : q.opts.maxDepth = p.opts.maxDepth
  numberPolicy : q.opts.numberPolicy = p.opts.numberPolicy

variable {p q : SaxParser}

/-- `fail` does not return. -/
theorem not_ok_fail {message : String} {a : α} {s s' : SaxState κ} : ¬ Ok (fail message) s a s' := by
  intro h
  unfold fail at h
  rw [ok_bind_get] at h
  obtain ⟨_, _, -, h⟩ := ok_bind.mp h
  exact not_ok_throw h

/-- Nor does it where the stream decides on the message. -/
theorem not_ok_failAtEnd {message : String} {a : α} {s s' : SaxState κ} :
    ¬ Ok (failAtEnd message) s a s' := by
  intro h
  unfold failAtEnd at h
  rw [ok_bind_get] at h
  split at h
  · exact not_ok_fail h
  · exact not_ok_fail h

/-- A parser and itself. -/
theorem sameLimits_refl (p : SaxParser) : SameLimits p p := ⟨rfl, rfl, rfl, rfl⟩

/-! ## Reading and charging -/

omit [SaxCursor κ] in
/-- An error is recorded in the state, and apart from the events. -/
theorem failAt_alike (offset line column : Nat) (message : String) :
    Alike (failAt offset line column message : SaxM κ Unit) (failAt offset line column message) :=
  fun _ _ => rfl

/-- A failure takes its place from the cursor. -/
theorem fail_alike (message : String) : Alike (fail message : SaxM κ α) (fail message) :=
  Alike.get_bind (fun _ _ => rfl) fun _ =>
    (failAt_alike _ _ _ _).bind fun _ => Alike.throw _

/-- A look at the cursor. -/
theorem peekChar_alike : Alike (peekChar : SaxM κ _) peekChar := fun _ _ => rfl

/-- A read is refused by the limit on the input only, which the two have in common. -/
theorem getChar_alike (h : SameLimits p q) : Alike (getChar p : SaxM κ _) (getChar q) := by
  intro s log
  unfold getChar
  rw [h.maxInputBytes]
  show EStateM.run (if p.opts.maxInputBytes ≠ 0 ∧
      SaxCursor.position s.cur ≥ p.opts.maxInputBytes then _ else _) (s.tell log) =
    Ending.tell log (EStateM.run (if p.opts.maxInputBytes ≠ 0 ∧
      SaxCursor.position s.cur ≥ p.opts.maxInputBytes then _ else _) s)
  split <;> rfl

/-- A byte that has to be there. -/
theorem getCharOr_alike (h : SameLimits p q) (message : String) :
    Alike (getCharOr p message : SaxM κ _) (getCharOr q message) :=
  (getChar_alike h).bindOption (fail_alike _) fun _ => Alike.pure _

/-- A byte that has been seen. -/
theorem skipChar_alike (h : SameLimits p q) : Alike (skipChar p : SaxM κ _) (skipChar q) :=
  (getChar_alike h).bindOption (Alike.throw _) fun _ => Alike.pure _

/-- A byte that has to be a certain one. -/
theorem expectChar_alike (h : SameLimits p q) (want : UInt8) (message : String) :
    Alike (expectChar p want message : SaxM κ _) (expectChar q want message) :=
  (getChar_alike h).bindOption (fail_alike _) fun _ => Alike.ite (Alike.pure _) (fail_alike _)

/-- Whether the stream has failed is a matter of the cursor. -/
theorem failAtEnd_alike (message : String) :
    Alike (failAtEnd message : SaxM κ α) (failAtEnd message) :=
  Alike.get_bind (fun _ _ => rfl) fun _ => Alike.ite (fail_alike _) (fail_alike _)

/-- A node is refused by the limit on nodes only, which the two have in common. -/
theorem reserveNode_alike (h : SameLimits p q) :
    Alike (reserveNode p : SaxM κ _) (reserveNode q) := by
  intro s log
  unfold reserveNode
  rw [h.maxNodes]
  show EStateM.run (if p.opts.maxNodes ≠ 0 ∧ s.nodeCount ≥ p.opts.maxNodes then _ else _)
      (s.tell log) =
    Ending.tell log (EStateM.run (if p.opts.maxNodes ≠ 0 ∧ s.nodeCount ≥ p.opts.maxNodes then _
      else _) s)
  split <;> rfl

/-- What is unread bounds the loops of both. -/
theorem unread_alike : Alike (unread : SaxM κ _) unread := fun _ _ => rfl

/-- Whether the stream has failed, once more, where nothing else is amiss. -/
theorem failedCheck_alike :
    Alike (do if SaxCursor.failed (← get).cur then fail "stream read failed" else return () :
      SaxM κ Unit) (do if SaxCursor.failed (← get).cur then fail "stream read failed" else return ()) :=
  Alike.get_bind (fun _ _ => rfl) fun _ => Alike.ite (fail_alike _) (Alike.pure _)

/-- The loop over white space; induction on its bound. -/
theorem skipWhitespaceLoop_alike (h : SameLimits p q) (fuel : Nat) :
    Alike (skipWhitespaceLoop p fuel : SaxM κ _) (skipWhitespaceLoop q fuel) := by
  induction fuel with
  | zero => exact Alike.throw _
  | succ fuel ih =>
    exact peekChar_alike.bindOption (Alike.pure _) fun _ =>
      Alike.ite ((skipChar_alike h).bind fun _ => ih) (Alike.pure _)

/-- White space, with the check of the stream behind it. -/
theorem skipWhitespace_alike (h : SameLimits p q) :
    Alike (skipWhitespace p : SaxM κ _) (skipWhitespace q) :=
  unread_alike.bind fun _ => (skipWhitespaceLoop_alike h _).bind fun _ => failedCheck_alike

/-! ## Strings -/

/-- The loop over the digits of an escape. -/
theorem readHex4Loop_alike (h : SameLimits p q) (n out : Nat) :
    Alike (readHex4Loop p n out : SaxM κ _) (readHex4Loop q n out) := by
  induction n generalizing out with
  | zero => exact Alike.pure _
  | succ n ih =>
    refine (getCharOr_alike h _).bind fun ch => ?_
    -- a decimal digit, a small letter, a capital letter, or none of these
    apply Alike.ite
    · exact ih _
    apply Alike.ite
    · exact ih _
    apply Alike.ite
    · exact ih _
    · exact fail_alike _

/-- The digits of a second half are collected before they are judged. -/
theorem collectHex_alike (h : SameLimits p q) (n : Nat) (hex : Bytes) :
    Alike (collectHex p n hex : SaxM κ _) (collectHex q n hex) := by
  induction n generalizing hex with
  | zero => exact Alike.pure _
  | succ n ih => exact (getChar_alike h).bindOption (Alike.pure _) fun _ => ih _

/-- The second half of a pair. -/
theorem lowSurrogate_alike (h : SameLimits p q) :
    Alike (lowSurrogate p : SaxM κ _) (lowSurrogate q) := by
  refine (getCharOr_alike h _).bind fun _ => ?_
  refine (getCharOr_alike h _).bind fun u => ?_
  apply Alike.ite
  · refine (collectHex_alike h _ _).bind fun hex => ?_
    split
    · apply Alike.ite
      · exact Alike.pure _
      · exact fail_alike _
    · exact fail_alike _
  · exact fail_alike _

/-- One escape, or the two of a pair. -/
theorem unicodeEscape_alike (h : SameLimits p q) :
    Alike (unicodeEscape p : SaxM κ _) (unicodeEscape q) := by
  refine (readHex4Loop_alike h _ _).bind fun cp => ?_
  apply Alike.ite
  · -- the first half of a pair: a backslash has to follow
    refine peekChar_alike.bindOption (fail_alike _) fun slash => ?_
    apply Alike.ite
    · refine (lowSurrogate_alike h).bind fun low => ?_
      exact Alike.pure _
    · exact fail_alike _
  · apply Alike.ite
    · exact fail_alike _
    · exact Alike.pure _

/-- An escape of one letter is a matter of the table. -/
theorem escapeBody_alike (h : SameLimits p q) :
    Alike (escapeBody p : SaxM κ _) (escapeBody q) := by
  refine (getCharOr_alike h _).bind fun e => ?_
  rw [escape_switch, escape_switch]
  cases simpleEscape e with
  | none => exact Alike.ite (unicodeEscape_alike h) (fail_alike _)
  | some d => exact Alike.pure _

/-- The loop over the continuation bytes. -/
theorem utf8TailLoop_alike (h : SameLimits p q) (need code : Nat) (out : Bytes) :
    Alike (utf8TailLoop p need code out : SaxM κ _) (utf8TailLoop q need code out) := by
  induction need generalizing code out with
  | zero => exact Alike.pure _
  | succ need ih =>
    exact (getCharOr_alike h _).bind fun _ => Alike.ite (fail_alike _) (ih _ _)

/-- What they give is judged when they have been read. -/
theorem finishUtf8Tail_alike (h : SameLimits p q) (need code : Nat) :
    Alike (finishUtf8Tail p need code : SaxM κ _) (finishUtf8Tail q need code) :=
  (utf8TailLoop_alike h _ _ _).bind fun _ => Alike.ite (fail_alike _) (Alike.pure _)

/-- The lead decides how many there are. -/
theorem consumeUtf8Tail_alike (h : SameLimits p q) (lead : UInt8) :
    Alike (consumeUtf8Tail p lead : SaxM κ _) (consumeUtf8Tail q lead) := by
  -- a lead of two, three or four bytes, or no lead
  apply Alike.ite
  · exact finishUtf8Tail_alike h _ _
  apply Alike.ite
  · exact finishUtf8Tail_alike h _ _
  apply Alike.ite
  · exact finishUtf8Tail_alike h _ _
  · exact fail_alike _

/-- A character of a string. -/
theorem decodeChar_alike (h : SameLimits p q) (ch : UInt8) :
    Alike (decodeChar p ch : SaxM κ _) (decodeChar q ch) := by
  apply Alike.ite
  · exact escapeBody_alike h
  apply Alike.ite
  · exact fail_alike _
  apply Alike.ite
  · refine (consumeUtf8Tail_alike h _).bind fun tail => ?_
    exact Alike.pure _
  · exact Alike.pure _

/-- The loop over a string; induction on its bound. -/
theorem stringLoop_alike (h : SameLimits p q) (fuel : Nat) (out : Bytes) :
    Alike (stringLoop p fuel out : SaxM κ _) (stringLoop q fuel out) := by
  induction fuel generalizing out with
  | zero => exact Alike.throw _
  | succ fuel ih =>
    refine (getChar_alike h).bindOption (failAtEnd_alike _) fun ch => ?_
    apply Alike.ite
    · exact Alike.pure _
    · refine (decodeChar_alike h _).bind fun decoded => ?_
      exact ih _

/-- A string from quote to quote delivers nothing: its event comes afterwards. -/
theorem parseStringRaw_alike (h : SameLimits p q) :
    Alike (parseStringRaw p : SaxM κ _) (parseStringRaw q) :=
  (expectChar_alike h _ _).bind fun _ => unread_alike.bind fun _ => stringLoop_alike h _ _

/-- The letters of a literal, one after the other. -/
theorem matchLiteral_alike (h : SameLimits p q) (lit : Bytes) :
    Alike (matchLiteral p lit : SaxM κ _) (matchLiteral q lit) := by
  induction lit with
  | nil => exact Alike.pure _
  | cons want lit ih => exact (expectChar_alike h _ _).bind fun _ => ih

/-! ## Numbers -/

section Scan

variable {c d : NumberCursor (SaxState κ)} (hpeek : Alike c.peek d.peek) (htake : Alike c.take d.take)
include hpeek htake

omit [SaxCursor κ] hpeek in
/-- A part of a number is taken from the cursor. -/
theorem scanTake_alike (text : Bytes) : Alike (scanTake c text) (scanTake d text) :=
  htake.bindOption (Alike.throw _) fun _ => Alike.pure _

omit [SaxCursor κ]

/-- The loop over digits; induction on its bound. -/
theorem scanDigits_alike (fuel : Nat) (text : Bytes) :
    Alike (scanDigits c fuel text) (scanDigits d fuel text) := by
  induction fuel generalizing text with
  | zero => exact Alike.throw _
  | succ fuel ih =>
    refine (scanTake_alike htake _).bind fun text => ?_
    refine hpeek.bindOption (Alike.pure _) fun ch => ?_
    apply Alike.ite
    · exact ih _
    · exact Alike.pure _

/-- Digits of which there has to be one. -/
theorem scanSomeDigits_alike (fuel : Nat) (text : Bytes) (message : String) :
    Alike (scanSomeDigits c fuel text message) (scanSomeDigits d fuel text message) := by
  refine hpeek.bindOption (Alike.throw _) fun ch => ?_
  apply Alike.ite
  · exact scanDigits_alike hpeek htake _ _
  · exact Alike.throw _

/-- The minus, and the byte that has to follow it. -/
theorem scanSign_alike : Alike (scanSign c) (scanSign d) := by
  refine hpeek.bindOption (Alike.throw _) fun ch => ?_
  apply Alike.ite
  · refine (scanTake_alike htake _).bind fun text => ?_
    exact hpeek.bindOption (Alike.throw _) fun _ => Alike.pure _
  · exact Alike.pure _

/-- A zero on its own, or digits. -/
theorem scanInt_alike (fuel : Nat) (text : Bytes) : Alike (scanInt c fuel text) (scanInt d fuel text) := by
  refine hpeek.bindOption (Alike.throw _) fun ch => ?_
  apply Alike.ite
  · exact scanTake_alike htake _
  apply Alike.ite
  · exact scanDigits_alike hpeek htake _ _
  · exact Alike.throw _

/-- A dot with digits behind it, or nothing. -/
theorem scanFrac_alike (fuel : Nat) (text : Bytes) : Alike (scanFrac c fuel text) (scanFrac d fuel text) := by
  refine hpeek.bindOption (Alike.pure _) fun ch => ?_
  apply Alike.ite
  · refine (scanTake_alike htake _).bind fun text => ?_
    refine (scanSomeDigits_alike hpeek htake _ _ _).bind fun text => ?_
    exact Alike.pure _
  · exact Alike.pure _

/-- The sign of an exponent, if there is one. -/
theorem scanExpSign_alike (text : Bytes) : Alike (scanExpSign c text) (scanExpSign d text) := by
  refine hpeek.bindOption (Alike.pure _) fun ch => ?_
  apply Alike.ite
  · exact scanTake_alike htake _
  · exact Alike.pure _

/-- An exponent, or nothing. -/
theorem scanExp_alike (fuel : Nat) (text : Bytes) : Alike (scanExp c fuel text) (scanExp d fuel text) := by
  refine hpeek.bindOption (Alike.pure _) fun ch => ?_
  apply Alike.ite
  · refine (scanTake_alike htake _).bind fun text => ?_
    refine (scanExpSign_alike hpeek htake _).bind fun text => ?_
    refine (scanSomeDigits_alike hpeek htake _ _ _).bind fun text => ?_
    exact Alike.pure _
  · exact Alike.pure _

/-- The scan asks its cursor for nothing else. -/
theorem scanJsonNumber_alike (fuel : Nat) :
    Alike (scanJsonNumber c fuel) (scanJsonNumber d fuel) := by
  refine (scanSign_alike hpeek htake).bind fun text => ?_
  refine (scanInt_alike hpeek htake fuel text).bind fun text => ?_
  refine (scanFrac_alike hpeek htake fuel text).bind fun frac => ?_
  refine (scanExp_alike hpeek htake fuel _).bind fun exp => ?_
  exact Alike.pure _

end Scan

/-- The scan of a number, with its errors put in their place. -/
theorem scanNumber_alike (h : SameLimits p q) :
    Alike (scanNumber p : SaxM κ _) (scanNumber q) := by
  refine Alike.tryCatch (unread_alike.bind fun _ =>
    scanJsonNumber_alike peekChar_alike (getChar_alike h) _) fun e => ?_
  split
  · exact fail_alike _
  · exact Alike.throw _
  · exact Alike.throw _

/-! ## The end of a document -/

theorem finishDocument_alike (h : SameLimits p q) :
    Alike (finishDocument p : SaxM κ _) (finishDocument q) := by
  refine Alike.get_bind (fun _ _ => rfl) fun s => ?_
  rw [h.maxInputBytes]
  refine Alike.ite (peekChar_alike.bindOption failedCheck_alike fun _ => ?_)
    (peekChar_alike.bindOption failedCheck_alike fun _ => ?_)
  · exact Alike.get_bind (fun _ _ => rfl) fun _ => (failAt_alike _ _ _ _).bind fun _ =>
      (Alike.throw _).bind fun _ => failedCheck_alike
  · exact (fail_alike _).bind fun _ => failedCheck_alike

/-! ## Values the handler is not told -/

/-- The two parsers differ at most in their handlers. -/
structure SameOptions (p q : SaxParser) : Prop extends SameLimits p q where
  duplicateKeys : q.opts.duplicateKeys = p.opts.duplicateKeys

/-- A parser has its own options. -/
theorem sameOptions_refl (p : SaxParser) : SameOptions p p := ⟨sameLimits_refl p, rfl⟩

omit [SaxCursor κ] in
/-- A key that is there twice is refused by the policy, whatever the handler has been told. -/
theorem checkKey_alike (h : SameOptions p q) (key : Bytes) (seenKeys : List Bytes)
    (offset line column : Nat) :
    Alike (checkKey p key seenKeys offset line column : SaxM κ _)
      (checkKey q key seenKeys offset line column) := by
  unfold checkKey
  rw [h.duplicateKeys]
  exact Alike.ite ((failAt_alike _ _ _ _).bind fun _ => Alike.throw _) (Alike.pure _)

end Sax

end ByteDance
