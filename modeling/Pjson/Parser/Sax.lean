/-
  The SAX parser: `SaxParser<Cursor>` and its two entry points `parseSax` and `parseSaxStream`.

  The parser consumes its cursor byte by byte through `getChar`, which is where the byte limit is
  enforced; it hands events to a handler as soon as they are complete and keeps no tree.  A
  `return fail(...)` is an exit that has written the error record, and a later `fail` overwrites an
  earlier one, so a function that calls `getChar` and then fails itself reports its own message.

  The handler answers each event by what has been delivered so far, so it may keep a state of its
  own; it may also throw.  `emit = false` parses and charges a value without telling the handler.
-/
import Pjson.Parser.SaxCursor

namespace ByteDance

/-- A callback of `pJsonParser::SaxHandler` with its argument. -/
inductive SaxEvent where
  | onNull
  | onBool (value : Bool)
  | onInt (value : Int64)
  | onUInt (value : UInt64)
  | onDouble (value : Binary64)
  | onString (value : Bytes)
  | onStartObject
  | onKey (key : Bytes)
  | onEndObject
  | onStartArray
  | onEndArray
  deriving DecidableEq

/-- How a callback ends: its return value, or an exception. -/
inductive HandlerReply where
  | returned (ok : Bool)
  | threw (badAlloc : Bool)
  deriving DecidableEq

/-- `pJsonParser::SaxHandler`: the reply to the last of the events delivered so far. -/
abbrev SaxHandler := List SaxEvent → HandlerReply

/-- The handler returns true whatever it is told. -/
def SaxHandler.Accepting (handler : SaxHandler) : Prop := ∀ es, handler es = .returned true

/-- The members of `SaxParser` that do not change. -/
structure SaxParser where
  handler : SaxHandler
  opts : ParserOptions

/-- The members of `SaxParser` that change, and the events the handler has seen. -/
structure SaxState (κ : Type) where
  cur : κ
  err : ParseError := {}
  nodeCount : Nat := 0
  delivered : List SaxEvent := []

/-- A function of the SAX parser. -/
abbrev SaxM (κ : Type) := ParseM (SaxState κ)

/-- The callback for a number. -/
def ParsedNumber.event : ParsedNumber → SaxEvent
  | .SignedInteger value => .onInt value
  | .UnsignedInteger value => .onUInt value
  | .FloatingPoint value => .onDouble value

namespace Sax

variable {κ : Type} [SaxCursor κ] (p : SaxParser)

/-! ## Failing, reading and emitting -/

/-- `failAt`, up to its `return false`. -/
def failAt (offset line column : Nat) (message : String) : SaxM κ Unit :=
  modify fun s => { s with err :=
    { ok := false, code := classifyParseMessage message, offset := offset, line := line
      column := column, message := message } }

/-- `fail`. -/
def fail {α : Type} (message : String) : SaxM κ α := do
  let cur := (← get).cur
  failAt (SaxCursor.position cur) (SaxCursor.line cur) (SaxCursor.column cur) message
  throw .failed

/-- `cur.peek`. -/
def peekChar : SaxM κ (Option UInt8) := do
  let s ← get
  set { s with cur := (SaxCursor.peek s.cur).2 }
  return (SaxCursor.peek s.cur).1

/-- `getChar`: no byte is consumed at the limit. -/
def getChar : SaxM κ (Option UInt8) := do
  let s ← get
  if p.opts.maxInputBytes ≠ 0 ∧ SaxCursor.position s.cur ≥ p.opts.maxInputBytes then
    failAt p.opts.maxInputBytes (SaxCursor.line s.cur) (SaxCursor.column s.cur)
      "input exceeds maxInputBytes"
    return none
  else
    set { s with cur := (SaxCursor.get s.cur).2 }
    return (SaxCursor.get s.cur).1

/-- `if (!getChar(ch)) return fail(message)`. -/
def getCharOr (message : String) : SaxM κ UInt8 := do
  match ← getChar p with
  | some ch => return ch
  | none => fail message

/-- `if (!getChar(ch)) return false`. -/
def skipChar : SaxM κ Unit := do
  match ← getChar p with
  | some _ => return ()
  | none => throw .failed

/-- `if (!getChar(ch) || ch != want) return fail(message)`. -/
def expectChar (want : UInt8) (message : String) : SaxM κ Unit := do
  match ← getChar p with
  | some ch => if ch = want then return () else fail message
  | none => fail message

/-- `if (cur.failed()) return fail("stream read failed"); return fail(message)`. -/
def failAtEnd {α : Type} (message : String) : SaxM κ α := do
  if SaxCursor.failed (← get).cur then fail "stream read failed" else fail message

/-- `reserveNode`. -/
def reserveNode : SaxM κ Unit := do
  let s ← get
  if p.opts.maxNodes ≠ 0 ∧ s.nodeCount ≥ p.opts.maxNodes then
    fail "document too large (node budget exceeded)"
  else set { s with nodeCount := s.nodeCount + 1 }

/-- `emit` and then `dispatch(handler.on...)`. -/
def dispatch (emit : Bool) (event : SaxEvent) : SaxM κ Unit := do
  if emit then
    modify fun s => { s with delivered := s.delivered ++ [event] }
    match p.handler (← get).delivered with
    | .returned true => return ()
    | .returned false => throw .cancelled
    | .threw badAlloc => throw (.handlerThrew badAlloc)
  else return ()

/-- How many bytes the cursor can still deliver: more than a loop can consume. -/
def unread : SaxM κ Nat := return SaxCursor.unread (← get).cur

/-- The loop of `skipWhitespace`. -/
def skipWhitespaceLoop : Nat → SaxM κ Unit
  | 0 => throw .fuel
  | fuel + 1 => do
    match ← peekChar with
    | some ch =>
      if isWhitespace ch then
        skipChar p
        skipWhitespaceLoop fuel
      else return ()
    | none => return ()

/-- `skipWhitespace`. -/
def skipWhitespace : SaxM κ Unit := do
  skipWhitespaceLoop p ((← unread) + 1)
  if SaxCursor.failed (← get).cur then fail "stream read failed" else return ()

/-! ## Strings -/

/-- The loop of `readHex4`, with the digits still to come. -/
def readHex4Loop : Nat → Nat → SaxM κ Nat
  | 0, out => return out
  | n + 1, out => do
    let ch ← getCharOr p "invalid \\u escape"
    let out := out <<< 4
    if 0x30 ≤ ch ∧ ch ≤ 0x39 then readHex4Loop n (out ||| (ch.toNat - 0x30))
    else if 0x61 ≤ ch ∧ ch ≤ 0x66 then readHex4Loop n (out ||| (10 + ch.toNat - 0x61))
    else if 0x41 ≤ ch ∧ ch ≤ 0x46 then readHex4Loop n (out ||| (10 + ch.toNat - 0x41))
    else fail "invalid \\u escape"

/-- `readHex4`. -/
def readHex4 : SaxM κ Nat := readHex4Loop p 4 0

/-- The loop that collects the digits of a low surrogate; it ends early where no byte comes. -/
def collectHex : Nat → Bytes → SaxM κ Bytes
  | 0, hex => return hex
  | n + 1, hex => do
    match ← getChar p with
    | some hx => collectHex n (hex ++ [hx])
    | none => return hex

/-- The second half of a surrogate pair, after its backslash has been seen. -/
def lowSurrogate : SaxM κ Nat := do
  let _ ← getCharOr p "invalid \\u escape"
  let u ← getCharOr p "invalid \\u escape"
  if u = 0x75 then
    let hex ← collectHex p 4 []
    match if hex.length = 4 then hexDigits 0 hex else none with
    | some low =>
      if 0xDC00 ≤ low ∧ low ≤ 0xDFFF then return low else fail "unpaired high surrogate"
    | none => fail "unpaired high surrogate"
  else fail "unpaired high surrogate"

/-- The case `'u'` of an escape: the bytes of the code point. -/
def unicodeEscape : SaxM κ Bytes := do
  let cp ← readHex4 p
  if 0xD800 ≤ cp ∧ cp ≤ 0xDBFF then
    match ← peekChar with
    | some slash =>
      if slash = 0x5C then
        let low ← lowSurrogate p
        return appendUtf8 (0x10000 + (cp - 0xD800) <<< 10 + (low - 0xDC00))
      else fail "unpaired high surrogate"
    | none => fail "unpaired high surrogate"
  else if 0xDC00 ≤ cp ∧ cp ≤ 0xDFFF then fail "unpaired low surrogate"
  else return appendUtf8 cp

/-- What an escape appends, after the backslash has been consumed. -/
def escapeBody : SaxM κ Bytes := do
  let ch ← getCharOr p "dangling escape at end of input"
  if ch = 0x22 then return [0x22]
  else if ch = 0x5C then return [0x5C]
  else if ch = 0x2F then return [0x2F]
  else if ch = 0x62 then return [0x08]
  else if ch = 0x66 then return [0x0C]
  else if ch = 0x6E then return [0x0A]
  else if ch = 0x72 then return [0x0D]
  else if ch = 0x74 then return [0x09]
  else if ch = 0x75 then unicodeEscape p
  else fail "invalid escape sequence"

/-- The loop of `consumeUtf8Tail`: the code point and the bytes of `need` continuation bytes. -/
def utf8TailLoop : Nat → Nat → Bytes → SaxM κ (Nat × Bytes)
  | 0, code, out => return (code, out)
  | need + 1, code, out => do
    let byte ← getCharOr p "invalid UTF-8 sequence"
    if byte &&& 0xC0 ≠ 0x80 then fail "invalid UTF-8 sequence"
    else utf8TailLoop need (code <<< 6 ||| (byte &&& 0x3F).toNat) (out ++ [byte])

/-- The checks of `consumeUtf8Tail` behind the loop. -/
def finishUtf8Tail (need code : Nat) : SaxM κ Bytes := do
  let (code, out) ← utf8TailLoop p need code []
  if (need = 1 ∧ code < 0x80) ∨ (need = 2 ∧ code < 0x800) ∨ (need = 3 ∧ code < 0x10000) ∨
      code > 0x10FFFF ∨ (code ≥ 0xD800 ∧ code ≤ 0xDFFF) then fail "invalid UTF-8 sequence"
  else return out

/-- `consumeUtf8Tail`: the continuation bytes that belong to `lead`. -/
def consumeUtf8Tail (lead : UInt8) : SaxM κ Bytes :=
  if lead &&& 0xE0 = 0xC0 then finishUtf8Tail p 1 (lead &&& 0x1F).toNat
  else if lead &&& 0xF0 = 0xE0 then finishUtf8Tail p 2 (lead &&& 0x0F).toNat
  else if lead &&& 0xF8 = 0xF0 then finishUtf8Tail p 3 (lead &&& 0x07).toNat
  else fail "invalid UTF-8 sequence"

/-- One round of `parseStringRaw` on a byte that does not end the string: what it appends. -/
def decodeChar (ch : UInt8) : SaxM κ Bytes := do
  if ch = 0x5C then escapeBody p
  else if ch < 0x20 then fail "unescaped control character in string"
  else if 0x80 ≤ ch then
    let tail ← consumeUtf8Tail p ch
    return ch :: tail
  else return [ch]

/-- The loop of `parseStringRaw`. -/
def stringLoop : Nat → Bytes → SaxM κ Bytes
  | 0, _ => throw .fuel
  | fuel + 1, out => do
    match ← getChar p with
    | none => failAtEnd "unterminated string"
    | some ch =>
      if ch = 0x22 then return out
      else
        let decoded ← decodeChar p ch
        stringLoop fuel (out ++ decoded)

/-- `parseStringRaw`. -/
def parseStringRaw : SaxM κ Bytes := do
  expectChar p 0x22 "expected '\"' to start a string"
  stringLoop p ((← unread) + 1) []

/-- `parseStringValue`. -/
def parseStringValue (emit : Bool) : SaxM κ Unit := do
  reserveNode p
  let value ← parseStringRaw p
  dispatch p emit (.onString value)

/-! ## Keywords and numbers -/

/-- `matchLiteral`. -/
def matchLiteral : Bytes → SaxM κ Unit
  | [] => return ()
  | want :: lit => do
    expectChar p want "invalid JSON value"
    matchLiteral lit

/-- One branch of `parseKeywordValue`. -/
def keyword (emit : Bool) (lit : Bytes) (event : SaxEvent) : SaxM κ Unit := do
  matchLiteral p lit
  reserveNode p
  dispatch p emit event

/-- `parseKeywordValue`. -/
def parseKeywordValue (emit : Bool) : SaxM κ Unit := do
  match ← peekChar with
  | none => fail "unexpected end of input; expected a value"
  | some ch =>
    if ch = 0x6E then keyword p emit nullText .onNull
    else if ch = 0x74 then keyword p emit trueText (.onBool true)
    else if ch = 0x66 then keyword p emit falseText (.onBool false)
    else fail "invalid JSON value"

/-- The adapter of `parseNumberValue`: the parser's own byte limit applies. -/
def adapter : NumberCursor (SaxState κ) where
  peek := peekChar
  take := getChar p

/-- `parseNumberValue`, up to the conversion; a scan that a `take` has stopped has its message. -/
def scanNumber : SaxM κ (Bytes × Bool) := do
  try scanJsonNumber (adapter p) ((← unread) + 1)
  catch
    | .scan (some message) => fail message
    | .scan none => throw .failed
    | e => throw e

/-- `parseNumberValue`. -/
def parseNumberValue (lib : NumericLibrary) (emit : Bool) : SaxM κ Unit := do
  let (text, isFloat) ← scanNumber p
  reserveNode p
  match convertNumberToken lib text isFloat p.opts.numberPolicy with
  | .error message => fail message
  | .ok number => dispatch p emit number.event

/-! ## Containers -/

/-- The element loop of `parseArray`, up to the closing bracket. -/
def arrayLoop (value : SaxM κ Unit) : Nat → Bool → Bool → SaxM κ Unit
  | 0, _, _ => throw .fuel
  | fuel + 1, expectValue, any => do
    skipWhitespace p
    match ← peekChar with
    | none => failAtEnd "unterminated array"
    | some ch =>
      if ch = 0x5D then
        if expectValue then fail "trailing comma in array" else skipChar p
      else if ch = 0x2C then
        if !any || expectValue then fail "unexpected ',' in array"
        else
          skipChar p
          arrayLoop value fuel true any
      else if any && !expectValue then fail "missing ',' between array elements"
      else
        value
        arrayLoop value fuel false true

/-- `parseObject`, from the key on: whether the name is a repeated one, unless that is refused. -/
def checkKey (key : Bytes) (seenKeys : List Bytes) (offset line column : Nat) : SaxM κ Bool := do
  let duplicate := decide (p.opts.duplicateKeys ≠ .KeepLastDuplicate ∧ key ∈ seenKeys)
  if duplicate ∧ p.opts.duplicateKeys = .RejectDuplicateKeys then
    failAt offset line column "duplicate object key"
    throw .failed
  else return duplicate

/-- The member loop of `parseObject`, up to the closing brace, with the names seen so far. -/
def objectLoop (value : Bool → SaxM κ Unit) (emit : Bool) :
    Nat → Bool → Bool → List Bytes → SaxM κ Unit
  | 0, _, _, _ => throw .fuel
  | fuel + 1, expectMember, any, seenKeys => do
    skipWhitespace p
    match ← peekChar with
    | none => failAtEnd "unterminated object"
    | some ch =>
      if ch = 0x7D then
        if expectMember then fail "trailing comma in object" else skipChar p
      else if ch = 0x2C then
        if !any || expectMember then fail "unexpected ',' in object"
        else
          skipChar p
          objectLoop value emit fuel true any seenKeys
      else if ch ≠ 0x22 then fail "expected '\"' to start an object key"
      else if any && !expectMember then fail "missing ',' between object members"
      else
        let cur := (← get).cur
        let key ← parseStringRaw p
        skipWhitespace p
        expectChar p 0x3A "expected ':' after object key"
        let duplicate ← checkKey p key seenKeys (SaxCursor.position cur) (SaxCursor.line cur)
          (SaxCursor.column cur)
        let seenKeys :=
          if !duplicate && decide (p.opts.duplicateKeys ≠ .KeepLastDuplicate) then key :: seenKeys
          else seenKeys
        let emitValue :=
          emit && !(duplicate && decide (p.opts.duplicateKeys = .KeepFirstDuplicate))
        dispatch p emitValue (.onKey key)
        value emitValue
        objectLoop value emit fuel false true seenKeys

/-- What `parseArray` and `parseObject` share: the depth check, the charge, the bracket and the
    start and end events around the loop. -/
def container (depth : Nat) (emit : Bool) (bracket : UInt8) (start close : SaxEvent)
    (loop : Nat → SaxM κ Unit) : SaxM κ Unit := do
  if depth > clampParseDepth p.opts.maxDepth then fail "maximum nesting depth exceeded"
  else
    reserveNode p
    expectChar p bracket "unexpected end of input; expected a value"
    dispatch p emit start
    loop ((← unread) + 1)
    dispatch p emit close

/-- `parseArray`, with the parser of its elements. -/
def parseArray (value : SaxM κ Unit) (depth : Nat) (emit : Bool) : SaxM κ Unit :=
  container p depth emit 0x5B .onStartArray .onEndArray fun fuel => arrayLoop p value fuel false false

/-- `parseObject`, with the parser of its members' values. -/
def parseObject (value : Bool → SaxM κ Unit) (depth : Nat) (emit : Bool) : SaxM κ Unit :=
  container p depth emit 0x7B .onStartObject .onEndObject fun fuel =>
    objectLoop p value emit fuel false false []

/-! ## Values and documents -/

/-- `parseValue`, for `level` levels of nesting below. -/
def parseValue (lib : NumericLibrary) : Nat → Nat → Bool → SaxM κ Unit
  | 0, _, _ => throw .fuel
  | level + 1, depth, emit => do
    skipWhitespace p
    match ← peekChar with
    | none => failAtEnd "unexpected end of input; expected a value"
    | some ch =>
      if ch = 0x22 then parseStringValue p emit
      else if ch = 0x7B then
        parseObject p (fun emit => parseValue lib level (depth + 1) emit) (depth + 1) emit
      else if ch = 0x5B then
        parseArray p (parseValue lib level (depth + 1) emit) (depth + 1) emit
      else if ch = 0x2D ∨ (0x30 ≤ ch ∧ ch ≤ 0x39) then parseNumberValue p lib emit
      else parseKeywordValue p emit

/-- The end of `parseDocument`: nothing may follow the value and its white space. -/
def finishDocument : SaxM κ Unit := do
  let cur := (← get).cur
  if p.opts.maxInputBytes ≠ 0 ∧ SaxCursor.position cur ≥ p.opts.maxInputBytes then
    match ← peekChar with
    | some _ =>
      let cur := (← get).cur
      failAt p.opts.maxInputBytes (SaxCursor.line cur) (SaxCursor.column cur)
        "input exceeds maxInputBytes"
      throw .failed
    | none => pure ()
  else
    match ← peekChar with
    | some _ => fail "trailing characters after JSON value"
    | none => pure ()
  if SaxCursor.failed (← get).cur then fail "stream read failed" else return ()

/-- The body of `parseDocument`. -/
def document (lib : NumericLibrary) : SaxM κ Unit := do
  parseValue p lib (clampParseDepth p.opts.maxDepth + 1) 0 true
  skipWhitespace p
  finishDocument p

/-- What a SAX parse returns, reports and has delivered. -/
structure Outcome where
  ok : Bool
  error : ParseError
  events : List SaxEvent

/-- `failNoThrow`. -/
def failNoThrow (s : SaxState κ) (message : String) (code : ParseErrorCode) : Outcome where
  ok := false
  error :=
    { ok := false, code := code, offset := SaxCursor.position s.cur, line := SaxCursor.line s.cur
      column := SaxCursor.column s.cur, message := message }
  events := s.delivered

/-- `parseDocument`: the body, with its exceptions caught. -/
def parseDocument (lib : NumericLibrary) (cur : κ) : Outcome :=
  match (document p lib).run { cur := cur } with
  | .ok _ s => { ok := true, error := s.err, events := s.delivered }
  | .error .cancelled s => failNoThrow s "SAX parse aborted" .CallbackError
  | .error (.handlerThrew true) s => failNoThrow s "SAX parse ran out of memory" .AllocationFailure
  | .error (.handlerThrew false) s => failNoThrow s "SAX parse or handler exception" .CallbackError
  | .error _ s => { ok := false, error := s.err, events := s.delivered }

end Sax

/-- `pJsonParser::parseSax`, the overload that reports its error: `parseSaxTop`. -/
def parseSax (lib : NumericLibrary) (opts : ParserOptions) (handler : SaxHandler) (src : Bytes) :
    Sax.Outcome :=
  if opts.maxInputBytes ≠ 0 ∧ src.length > opts.maxInputBytes then
    { ok := false, error := setParseError src opts.maxInputBytes "input exceeds maxInputBytes"
      events := [] }
  else Sax.parseDocument ⟨handler, opts⟩ lib { rest := src : BufferSaxCursor }

/-- `pJsonParser::parseSaxStream`, the overload that reports its error. -/
def parseSaxStream (lib : NumericLibrary) (opts : ParserOptions) (handler : SaxHandler)
    (aIn : IStream) : Sax.Outcome :=
  Sax.parseDocument ⟨handler, opts⟩ lib { rdbuf := aIn.rdbuf, bad := aIn.badbit : StreamSaxCursor }

end ByteDance
