/-
  What the SAX parser does to its state, all of it: it peeks, takes a byte below the limit, records a
  failure at a cursor it has or had or at the limit, charges a value and tells the handler.

  An `Invariant` survives each of these steps; then every function of the parser keeps it on every
  exit, down to `document_keeps`.  `K` is what is known of the cursors the parser has had: a saved one
  is reported for a repeated name.
-/
import Pjson.Parser.Coordinates
import Pjson.Parser.Sax

namespace ByteDance

open Run

namespace Sax

variable {κ : Type} [SaxCursor κ] {α : Type}

/-- The cursor is at the byte limit. -/
def AtLimit (p : SaxParser) (cur : κ) : Prop :=
  p.opts.maxInputBytes ≠ 0 ∧ SaxCursor.position cur ≥ p.opts.maxInputBytes

/-- The record of a failure at a cursor. -/
def errorAt (cur : κ) (message : String) : ParseError :=
  { ok := false, code := classifyParseMessage message, offset := SaxCursor.position cur
    line := SaxCursor.line cur, column := SaxCursor.column cur, message := message }

/-- The record of a byte refused at the limit. -/
def limitError (p : SaxParser) (cur : κ) : ParseError :=
  { ok := false, code := classifyParseMessage "input exceeds maxInputBytes"
    offset := p.opts.maxInputBytes, line := SaxCursor.line cur, column := SaxCursor.column cur
    message := "input exceeds maxInputBytes" }

/-- `I` survives each thing the parser does to its state, and `K` holds of each of its cursors. -/
structure Invariant (p : SaxParser) (I : SaxState κ → Prop) (K : κ → Prop) : Prop where
  known : ∀ {s}, I s → K s.cur
  peek : ∀ {s}, I s → I { s with cur := (SaxCursor.peek s.cur).2 }
  get : ∀ {s}, I s → ¬ AtLimit p s.cur → I { s with cur := (SaxCursor.get s.cur).2 }
  fail : ∀ {s c}, I s → K c → ∀ message, I { s with err := errorAt c message }
  refuse : ∀ {s}, I s → AtLimit p s.cur → I { s with err := limitError p s.cur }
  charge : ∀ {s}, I s → ∀ n, I { s with nodeCount := n }
  tell : ∀ {s}, I s → ∀ es, I { s with delivered := es }

variable {p : SaxParser} {I : SaxState κ → Prop} {K : κ → Prop}

/-! ## Reading and charging -/

/-- An error is recorded at a cursor the parser has had. -/
theorem failAt_keeps (h : Invariant p I K) {c : κ} (hc : K c) (message : String) :
    Keeps I (failAt (SaxCursor.position c) (SaxCursor.line c) (SaxCursor.column c) message) :=
  Keeps.modify fun _ hs => h.fail hs hc message

/-- Or at the one it has. -/
theorem fail_keeps (h : Invariant p I K) (message : String) :
    Keeps I (fail message : SaxM κ α) :=
  Keeps.get_bind fun _ hs => (failAt_keeps h (h.known hs) message).bind fun _ => Keeps.throw _

/-- The message depends on the stream, the place does not. -/
theorem failAtEnd_keeps (h : Invariant p I K) (message : String) :
    Keeps I (failAtEnd message : SaxM κ α) :=
  Keeps.get_bind fun _ _ => Keeps.ite (fail_keeps h _) (fail_keeps h _)

/-- A look may fetch a chunk, so it is a step of its own. -/
theorem peekChar_keeps (h : Invariant p I K) : Keeps I (peekChar : SaxM κ _) := fun _ hs => h.peek hs

/-- What is unread is only counted. -/
theorem unread_keeps : Keeps I (unread : SaxM κ _) := Keeps.get_bind fun _ _ => Keeps.pure _

/-- A byte is taken below the limit, or refused at it. -/
theorem getChar_keeps (h : Invariant p I K) : Keeps I (getChar p) := by
  intro s hs
  unfold getChar
  rw [ends_bind, ends_get, ends_ite]
  exact ⟨fun hlimit => h.refuse hs hlimit, fun hlimit => h.get hs hlimit⟩

/-- A byte that has to be there. -/
theorem getCharOr_keeps (h : Invariant p I K) (message : String) : Keeps I (getCharOr p message) :=
  (getChar_keeps h).bindOption (fail_keeps h _) fun _ => Keeps.pure _

/-- A byte that has been seen. -/
theorem skipChar_keeps (h : Invariant p I K) : Keeps I (skipChar p) :=
  (getChar_keeps h).bindOption (Keeps.throw _) fun _ => Keeps.pure _

/-- A byte that has to be a certain one. -/
theorem expectChar_keeps (h : Invariant p I K) (want : UInt8) (message : String) :
    Keeps I (expectChar p want message) :=
  (getChar_keeps h).bindOption (fail_keeps h _) fun _ => Keeps.ite (Keeps.pure _) (fail_keeps h _)

/-- A value is charged, or refused where the cursor is. -/
theorem reserveNode_keeps (h : Invariant p I K) : Keeps I (reserveNode p) := by
  intro s hs
  unfold reserveNode
  rw [ends_bind, ends_get, ends_ite]
  exact ⟨fun _ => fail_keeps h _ s hs, fun _ => h.charge hs _⟩

/-- The handler is told, or not; if it declines, that is an exit without a record. -/
theorem dispatch_keeps (h : Invariant p I K) (emit : Bool) (event : SaxEvent) :
    Keeps I (dispatch p emit event) := by
  refine Keeps.ite ?_ (Keeps.pure _)
  refine (Keeps.modify fun s hs => h.tell hs _).bind fun _ => Keeps.get_bind fun s _ => ?_
  split
  · exact Keeps.pure _
  · exact Keeps.throw _
  · exact Keeps.throw _

/-- A stream that has failed is an error where the cursor is. -/
theorem failedCheck_keeps (h : Invariant p I K) :
    Keeps I (do if SaxCursor.failed (← get).cur then fail "stream read failed" else return () :
      SaxM κ Unit) :=
  Keeps.get_bind fun _ _ => Keeps.ite (fail_keeps h _) (Keeps.pure _)

/-- The loop over white space; induction on its bound. -/
theorem skipWhitespaceLoop_keeps (h : Invariant p I K) (fuel : Nat) :
    Keeps I (skipWhitespaceLoop p fuel) := by
  induction fuel with
  | zero => exact Keeps.throw _
  | succ fuel ih =>
    exact (peekChar_keeps h).bindOption (Keeps.pure _) fun _ =>
      Keeps.ite ((skipChar_keeps h).bind fun _ => ih) (Keeps.pure _)

/-- White space, and the check of the stream behind it. -/
theorem skipWhitespace_keeps (h : Invariant p I K) : Keeps I (skipWhitespace p) :=
  unread_keeps.bind fun _ => (skipWhitespaceLoop_keeps h _).bind fun _ => failedCheck_keeps h

/-! ## Strings -/

/-- The loop over the digits of an escape. -/
theorem readHex4Loop_keeps (h : Invariant p I K) (n out : Nat) :
    Keeps I (readHex4Loop p n out) := by
  induction n generalizing out with
  | zero => exact Keeps.pure _
  | succ n ih =>
    refine (getCharOr_keeps h _).bind fun ch => ?_
    -- a decimal digit, a small letter, a capital letter, or none of these
    apply Keeps.ite
    · exact ih _
    apply Keeps.ite
    · exact ih _
    apply Keeps.ite
    · exact ih _
    · exact fail_keeps h _

/-- The digits of a second half, collected. -/
theorem collectHex_keeps (h : Invariant p I K) (n : Nat) (hex : Bytes) :
    Keeps I (collectHex p n hex) := by
  induction n generalizing hex with
  | zero => exact Keeps.pure _
  | succ n ih => exact (getChar_keeps h).bindOption (Keeps.pure _) fun _ => ih _

/-- The second half of a pair. -/
theorem lowSurrogate_keeps (h : Invariant p I K) : Keeps I (lowSurrogate p) := by
  refine (getCharOr_keeps h _).bind fun _ => ?_
  refine (getCharOr_keeps h _).bind fun u => ?_
  apply Keeps.ite
  · refine (collectHex_keeps h _ _).bind fun hex => ?_
    split
    · apply Keeps.ite
      · exact Keeps.pure _
      · exact fail_keeps h _
    · exact fail_keeps h _
  · exact fail_keeps h _

/-- One escape, or the two of a pair. -/
theorem unicodeEscape_keeps (h : Invariant p I K) : Keeps I (unicodeEscape p) := by
  refine (readHex4Loop_keeps h _ _).bind fun cp => ?_
  apply Keeps.ite
  · -- the first half of a pair: a backslash has to follow
    refine (peekChar_keeps h).bindOption (fail_keeps h _) fun slash => ?_
    apply Keeps.ite
    · refine (lowSurrogate_keeps h).bind fun low => ?_
      exact Keeps.pure _
    · exact fail_keeps h _
  · apply Keeps.ite
    · exact fail_keeps h _
    · exact Keeps.pure _

/-- What follows a backslash. -/
theorem escapeBody_keeps (h : Invariant p I K) : Keeps I (escapeBody p) := by
  refine (getCharOr_keeps h _).bind fun e => ?_
  rw [escape_switch]
  cases simpleEscape e with
  | none => exact Keeps.ite (unicodeEscape_keeps h) (fail_keeps h _)
  | some d => exact Keeps.pure _

/-- The loop over the continuation bytes. -/
theorem utf8TailLoop_keeps (h : Invariant p I K) (need code : Nat) (out : Bytes) :
    Keeps I (utf8TailLoop p need code out) := by
  induction need generalizing code out with
  | zero => exact Keeps.pure _
  | succ need ih =>
    exact (getCharOr_keeps h _).bind fun _ => Keeps.ite (fail_keeps h _) (ih _ _)

/-- The tail of a sequence, and the judgement on it. -/
theorem finishUtf8Tail_keeps (h : Invariant p I K) (need code : Nat) :
    Keeps I (finishUtf8Tail p need code) :=
  (utf8TailLoop_keeps h _ _ _).bind fun _ => Keeps.ite (fail_keeps h _) (Keeps.pure _)

/-- The tail that a lead byte asks for. -/
theorem consumeUtf8Tail_keeps (h : Invariant p I K) (lead : UInt8) :
    Keeps I (consumeUtf8Tail p lead) := by
  -- a lead of two, three or four bytes, or no lead
  apply Keeps.ite
  · exact finishUtf8Tail_keeps h _ _
  apply Keeps.ite
  · exact finishUtf8Tail_keeps h _ _
  apply Keeps.ite
  · exact finishUtf8Tail_keeps h _ _
  · exact fail_keeps h _

/-- A character of a string. -/
theorem decodeChar_keeps (h : Invariant p I K) (ch : UInt8) : Keeps I (decodeChar p ch) := by
  apply Keeps.ite
  · exact escapeBody_keeps h
  apply Keeps.ite
  · exact fail_keeps h _
  apply Keeps.ite
  · refine (consumeUtf8Tail_keeps h _).bind fun tail => ?_
    exact Keeps.pure _
  · exact Keeps.pure _

/-- The loop over a string; induction on its bound. -/
theorem stringLoop_keeps (h : Invariant p I K) (fuel : Nat) (out : Bytes) :
    Keeps I (stringLoop p fuel out) := by
  induction fuel generalizing out with
  | zero => exact Keeps.throw _
  | succ fuel ih =>
    refine (getChar_keeps h).bindOption (failAtEnd_keeps h _) fun ch => ?_
    apply Keeps.ite
    · exact Keeps.pure _
    · refine (decodeChar_keeps h _).bind fun decoded => ?_
      exact ih _

/-- A string from quote to quote. -/
theorem parseStringRaw_keeps (h : Invariant p I K) : Keeps I (parseStringRaw p) :=
  (expectChar_keeps h _ _).bind fun _ => unread_keeps.bind fun _ => stringLoop_keeps h _ _

/-- A string as a value: the charge, the string, the event. -/
theorem parseStringValue_keeps (h : Invariant p I K) (emit : Bool) :
    Keeps I (parseStringValue p emit) :=
  (reserveNode_keeps h).bind fun _ => (parseStringRaw_keeps h).bind fun _ => dispatch_keeps h _ _

/-! ## Keywords and numbers -/

/-- The letters of a literal. -/
theorem matchLiteral_keeps (h : Invariant p I K) (lit : Bytes) : Keeps I (matchLiteral p lit) := by
  induction lit with
  | nil => exact Keeps.pure _
  | cons want lit ih => exact (expectChar_keeps h _ _).bind fun _ => ih

/-- A keyword: the letters, the charge, the event. -/
theorem keyword_keeps (h : Invariant p I K) (emit : Bool) (lit : Bytes) (event : SaxEvent) :
    Keeps I (keyword p emit lit event) :=
  (matchLiteral_keeps h _).bind fun _ => (reserveNode_keeps h).bind fun _ => dispatch_keeps h _ _

/-- The three keywords, and the failure where none starts. -/
theorem parseKeywordValue_keeps (h : Invariant p I K) (emit : Bool) :
    Keeps I (parseKeywordValue p emit) := by
  refine (peekChar_keeps h).bindOption (fail_keeps h _) fun ch => ?_
  -- `null`, `true`, `false`, or no value
  apply Keeps.ite
  · exact keyword_keeps h _ _ _
  apply Keeps.ite
  · exact keyword_keeps h _ _ _
  apply Keeps.ite
  · exact keyword_keeps h _ _ _
  · exact fail_keeps h _

/-- The scan both parsers share, over this cursor. -/
theorem scanNumber_keeps (h : Invariant p I K) : Keeps I (scanNumber p) := by
  refine Keeps.tryCatch (unread_keeps.bind fun _ =>
    scanJsonNumber_keeps (peekChar_keeps h) (getChar_keeps h) _) fun e => ?_
  split
  · exact fail_keeps h _
  · exact Keeps.throw _
  · exact Keeps.throw _

/-- A number; the failure of its conversion is recorded behind it. -/
theorem parseNumberValue_keeps (h : Invariant p I K) (lib : NumericLibrary) (emit : Bool) :
    Keeps I (parseNumberValue p lib emit) := by
  refine (scanNumber_keeps h).bind fun r => (reserveNode_keeps h).bind fun _ => ?_
  split
  · exact fail_keeps h _
  · exact dispatch_keeps h _ _

/-! ## Containers, values and documents -/

/-- The loop over the elements; induction on its bound. -/
theorem arrayLoop_keeps (h : Invariant p I K) {value : SaxM κ Unit} (hvalue : Keeps I value)
    (fuel : Nat) (expectValue any : Bool) : Keeps I (arrayLoop p value fuel expectValue any) := by
  induction fuel generalizing expectValue any with
  | zero => exact Keeps.throw _
  | succ fuel ih =>
    refine (skipWhitespace_keeps h).bind fun _ => ?_
    refine (peekChar_keeps h).bindOption (failAtEnd_keeps h _) fun ch => ?_
    apply Keeps.ite
    · -- the closing bracket
      exact Keeps.ite (fail_keeps h _) (skipChar_keeps h)
    apply Keeps.ite
    · -- a comma
      apply Keeps.ite
      · exact fail_keeps h _
      · exact (skipChar_keeps h).bind fun _ => ih _ _
    · -- an element
      apply Keeps.ite
      · exact fail_keeps h _
      · exact hvalue.bind fun _ => ih _ _

/-- A repeated name is recorded at the cursor in front of it, which has been saved. -/
theorem checkKey_keeps (h : Invariant p I K) (key : Bytes) (seenKeys : List Bytes) {c : κ}
    (hc : K c) : Keeps I (checkKey p key seenKeys (SaxCursor.position c) (SaxCursor.line c)
      (SaxCursor.column c)) :=
  Keeps.ite ((failAt_keeps h hc _).bind fun _ => Keeps.throw _) (Keeps.pure _)

/-- The loop over the members; induction on its bound. -/
theorem objectLoop_keeps (h : Invariant p I K) {value : Bool → SaxM κ Unit}
    (hvalue : ∀ emit, Keeps I (value emit)) (emit : Bool) (fuel : Nat) (expectMember any : Bool)
    (seenKeys : List Bytes) :
    Keeps I (objectLoop p value emit fuel expectMember any seenKeys) := by
  induction fuel generalizing expectMember any seenKeys with
  | zero => exact Keeps.throw _
  | succ fuel ih =>
    refine (skipWhitespace_keeps h).bind fun _ => ?_
    refine (peekChar_keeps h).bindOption (failAtEnd_keeps h _) fun ch => ?_
    apply Keeps.ite
    · -- the closing brace
      exact Keeps.ite (fail_keeps h _) (skipChar_keeps h)
    apply Keeps.ite
    · -- a comma
      apply Keeps.ite
      · exact fail_keeps h _
      · exact (skipChar_keeps h).bind fun _ => ih _ _ _
    apply Keeps.ite
    · exact fail_keeps h _
    apply Keeps.ite
    · exact fail_keeps h _
    · -- a member, whose name stands where the cursor is now
      refine Keeps.get_bind fun s hs => ?_
      refine (parseStringRaw_keeps h).bind fun key => ?_
      refine (skipWhitespace_keeps h).bind fun _ => ?_
      refine (expectChar_keeps h _ _).bind fun _ => ?_
      refine (checkKey_keeps h _ _ (h.known hs)).bind fun duplicate => ?_
      refine (dispatch_keeps h _ _).bind fun _ => ?_
      exact (hvalue _).bind fun _ => ih _ _ _

/-- A container of either kind, with its brackets and its events. -/
theorem container_keeps (h : Invariant p I K) (depth : Nat) (emit : Bool) (bracket : UInt8)
    (start close : SaxEvent) {loop : Nat → SaxM κ Unit} (hloop : ∀ fuel, Keeps I (loop fuel)) :
    Keeps I (container p depth emit bracket start close loop) := by
  apply Keeps.ite
  · exact fail_keeps h _
  · refine (reserveNode_keeps h).bind fun _ => ?_
    refine (expectChar_keeps h _ _).bind fun _ => ?_
    refine (dispatch_keeps h _ _).bind fun _ => ?_
    refine unread_keeps.bind fun fuel => ?_
    exact (hloop _).bind fun _ => dispatch_keeps h _ _

/-- A value; induction on the levels of nesting that are left. -/
theorem parseValue_keeps (h : Invariant p I K) (lib : NumericLibrary) (level depth : Nat)
    (emit : Bool) : Keeps I (parseValue p lib level depth emit) := by
  induction level generalizing depth emit with
  | zero => exact Keeps.throw _
  | succ level ih =>
    refine (skipWhitespace_keeps h).bind fun _ => ?_
    refine (peekChar_keeps h).bindOption (failAtEnd_keeps h _) fun ch => ?_
    apply Keeps.ite
    · exact parseStringValue_keeps h _
    apply Keeps.ite
    · -- an object, whose members may be suppressed
      refine container_keeps h _ _ _ _ _ fun fuel => ?_
      exact objectLoop_keeps h (fun _ => ih _ _) _ _ _ _ _
    apply Keeps.ite
    · refine container_keeps h _ _ _ _ _ fun fuel => ?_
      exact arrayLoop_keeps h (ih _ _) _ _ _
    apply Keeps.ite
    · exact parseNumberValue_keeps h lib _
    · exact parseKeywordValue_keeps h _

/-- Bytes behind the document, or a text beyond the limit, are recorded at a cursor of the run. -/
theorem finishDocument_keeps [CountingCursor κ] (h : Invariant p I K) :
    Keeps I (finishDocument p) := by
  intro s hs
  unfold finishDocument
  rw [ends_bind, ends_get]
  show Ends (if p.opts.maxInputBytes ≠ 0 ∧ SaxCursor.position s.cur ≥ p.opts.maxInputBytes then _
    else _) s _ _
  rw [ends_ite]
  refine ⟨fun hlimit => ?_, fun _ => ?_⟩
  · -- the byte is looked at, which does not move the cursor off the limit
    have hpeek : Ends (peekChar : SaxM κ (Option UInt8)) s
        (fun _ t => I t ∧ SaxCursor.position t.cur = SaxCursor.position s.cur) fun _ t => I t :=
      ⟨h.peek hs, CountingCursor.peek_position s.cur⟩
    rw [ends_bind]
    refine hpeek.mono (fun o t ht => ?_) fun _ _ ht => ht
    cases o with
    | none => exact failedCheck_keeps h t ht.1
    | some ch => exact h.refuse ht.1 (by rw [AtLimit, ht.2]; exact hlimit)
  · exact ((peekChar_keeps h).bindOption (failedCheck_keeps h) fun _ =>
      (fail_keeps h _).bind fun _ => failedCheck_keeps h) s hs

/-- **Every function of the parser keeps an invariant** of its steps. -/
theorem document_keeps [CountingCursor κ] (h : Invariant p I K) (lib : NumericLibrary) :
    Keeps I (document p lib) :=
  (parseValue_keeps h lib _ _ _).bind fun _ => (skipWhitespace_keeps h).bind fun _ =>
    finishDocument_keeps h

end Sax

end ByteDance
