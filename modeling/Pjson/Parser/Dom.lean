/-
  The DOM parser: `pJsonParserImpl::parseTop` and the recursive descent below it.

  `ParseCtx` is the source's context with the buffer shown from the cursor on: `rest` is
  `src[pos..end)`.  A read of `src` goes through `readAt`, which ends the run with `outOfBounds`
  if the index is not in the buffer; the tests that keep it there are those of the source.
  `return fail(...)` is an exit that records the first error, and every `--c.depth` before a
  `return false` is an `onError` around the part that may fail.

  `parseArray` and `parseObject` take the parser of their element values as a parameter;
  `parseValue` closes the recursion, once for each level of nesting: the source's own depth check
  ends it, and the bound `maxDepth + 1` on the number of levels is never the reason.  The loops run
  on the number of unread bytes.
-/
import Pjson.Parser.Number
import Pjson.Parser.Text
import Pjson.Dom.Utf8Len

namespace ByteDance

open Run

/-- `pJsonParserImpl::ParseCtx`. -/
structure ParseCtx where
  pos : Nat
  rest : Bytes
  duplicateKeys : DuplicateKeyPolicy
  numberPolicy : NumberPolicy
  depth : Nat
  maxDepth : Nat
  nodeCount : Nat
  maxNodes : Nat
  failed : Bool
  errPos : Nat
  errMsg : String

/-- A function of the DOM parser. -/
abbrev DomM := ParseM ParseCtx

namespace Dom

/-! ## The cursor -/

/-- `src[pos + k]`. -/
def readAt (k : Nat) : DomM UInt8 := do
  match (← get).rest[k]? with
  | some ch => return ch
  | none => throw .outOfBounds

/-- `c.pos += n`. -/
def advance (n : Nat) : DomM Unit :=
  modify fun c => { c with pos := c.pos + n, rest := c.rest.drop n }

/-- `c.pos + n <= c.end`. -/
def remains (n : Nat) : DomM Bool := return decide (n ≤ (← get).rest.length)

/-- `c.pos`. -/
def position : DomM Nat := return (← get).pos

/-- `fail`: only the first error is kept. -/
def fail {α : Type} (pos : Nat) (msg : String) : DomM α := do
  modify fun c => if c.failed then c else { c with failed := true, errPos := pos, errMsg := msg }
  throw .failed

/-- `--c.depth`. -/
def leave (c : ParseCtx) : ParseCtx := { c with depth := c.depth - 1 }

/-- `newNode`, up to the allocation itself: charges one value. -/
def newNode : DomM Unit := do
  let c ← get
  if c.maxNodes ≠ 0 ∧ c.nodeCount ≥ c.maxNodes then
    fail c.pos "document too large (node budget exceeded)"
  else set { c with nodeCount := c.nodeCount + 1 }

/-- The loop of `peek`: how many whitespace bytes the buffer starts with. -/
def whitespace : Bytes → Nat
  | [] => 0
  | ch :: rest => if isWhitespace ch then whitespace rest + 1 else 0

/-- `peek`: skips white space and shows the next byte. -/
def peek : DomM (Option UInt8) := do
  advance (whitespace (← get).rest)
  return (← get).rest.head?

/-- The loop of `skipColon` over the unread bytes. -/
def skipColonLoop : Nat → DomM Unit
  | 0 => throw .fuel
  | fuel + 1 => do
    if ← remains 1 then
      let ch ← readAt 0
      advance 1
      if ch = 0x3A then return ()
      else if isWhitespace ch then skipColonLoop fuel
      else fail ((← position) - 1) "expected ':' after object key"
    else fail (← position) "expected ':' after object key"

/-- `skipColon`. -/
def skipColon : DomM Unit := do skipColonLoop ((← get).rest.length + 1)

/-! ## Strings -/

/-- `hex4` at `c.pos + start`. -/
def hex4 (start : Nat) : DomM (Option Nat) := do
  let a ← readAt start
  let b ← readAt (start + 1)
  let c ← readAt (start + 2)
  let d ← readAt (start + 3)
  return hexDigits 0 [a, b, c, d]

/-- The second half of a surrogate pair, if `c.pos` is at one. -/
def lowSurrogate : DomM (Option Nat) := do
  if ← remains 6 then
    if (← readAt 0) = 0x5C then
      if (← readAt 1) = 0x75 then
        match ← hex4 2 with
        | some low => return if 0xDC00 ≤ low ∧ low ≤ 0xDFFF then some low else none
        | none => return none
      else return none
    else return none
  else return none

/-- The case `'u'` of an escape: the bytes of the code point. -/
def unicodeEscape : DomM Bytes := do
  if ← remains 4 then
    match ← hex4 0 with
    | none => fail (← position) "invalid \\u escape"
    | some cp =>
      advance 4
      if 0xD800 ≤ cp ∧ cp ≤ 0xDBFF then
        -- high surrogate: a low surrogate must follow
        match ← lowSurrogate with
        | some low =>
          advance 6
          return appendUtf8 (0x10000 + (cp - 0xD800) <<< 10 + (low - 0xDC00))
        | none => fail (← position) "unpaired high surrogate"
      else if 0xDC00 ≤ cp ∧ cp ≤ 0xDFFF then fail (← position) "unpaired low surrogate"
      else return appendUtf8 cp
  else fail (← position) "invalid \\u escape"

/-- What an escape appends, after the backslash has been consumed. -/
def escapeBody : DomM Bytes := do
  if ← remains 1 then
    let e ← readAt 0
    advance 1
    if e = 0x22 then return [0x22]
    else if e = 0x5C then return [0x5C]
    else if e = 0x2F then return [0x2F]
    else if e = 0x62 then return [0x08]
    else if e = 0x66 then return [0x0C]
    else if e = 0x6E then return [0x0A]
    else if e = 0x72 then return [0x0D]
    else if e = 0x74 then return [0x09]
    else if e = 0x75 then unicodeEscape
    else fail ((← position) - 1) "invalid escape sequence"
  else fail (← position) "dangling escape at end of input"

/-- One round of `decodeStringBody` on a byte that does not end the string: what it appends. -/
def decodeChar (ch : UInt8) : DomM Bytes := do
  if ch = 0x5C then
    advance 1
    escapeBody
  else if ch < 0x20 then fail (← position) "unescaped control character in string"
  else if 0x80 ≤ ch then
    let rest := (← get).rest
    let n := utf8Len rest
    if n = 0 then fail (← position) "invalid UTF-8 sequence"
    else
      advance n
      return rest.take n
  else
    advance 1
    return [ch]

/-- `decodeStringBody`: decodes from the cursor on; with `stopAtQuote` up to, and over, the first
    unescaped quote, else to the end of the buffer. -/
def decodeStringBody (stopAtQuote : Bool) : Nat → Bytes → DomM Bytes
  | 0, _ => throw .fuel
  | fuel + 1, out => do
    if ← remains 1 then
      let ch ← readAt 0
      if stopAtQuote ∧ ch = 0x22 then
        advance 1
        return out
      else
        let decoded ← decodeChar ch
        decodeStringBody stopAtQuote fuel (out ++ decoded)
    else if stopAtQuote then fail (← position) "unterminated string"
    else return out

/-- `extractString`: a quoted string from the cursor on. -/
def extractString : DomM Bytes := do
  match (← get).rest.head? with
  | some ch =>
    if ch ≠ 0x22 then fail (← position) "expected '\"' to start a string"
    else
      advance 1
      decodeStringBody true ((← get).rest.length + 1) []
  | none => fail (← position) "expected '\"' to start a string"

/-- `parseString`. -/
def parseString : DomM Pjson := do
  let s ← extractString
  newNode
  return .jsonString s

/-! ## Keywords and numbers -/

/-- The table of `parseKeyword`. -/
def keywords : List (Bytes × Pjson) :=
  [(nullText, .jsonNull), (trueText, .jsonBoolean true), (falseText, .jsonBoolean false)]

/-- The comparison of `parseKeyword`, from the `k`-th byte on. -/
def matchWord : Nat → Bytes → DomM Bool
  | _, [] => return true
  | k, b :: word => do if (← readAt k) = b then matchWord (k + 1) word else return false

/-- Whether the unread bytes start with `word`. -/
def startsWith (word : Bytes) : DomM Bool := do
  if ← remains word.length then matchWord 0 word else return false

/-- The loop of `parseKeyword` over the table. -/
def parseKeywordFrom : List (Bytes × Pjson) → DomM Pjson
  | [] => do fail (← position) "invalid JSON value"
  | (word, value) :: kws => do
    if ← startsWith word then
      advance word.length
      newNode
      return value
    else parseKeywordFrom kws

/-- `parseKeyword`. -/
def parseKeyword : DomM Pjson := parseKeywordFrom keywords

/-- The adapter of `parseNumber`: a position of its own over the same buffer. -/
structure Span where
  pos : Nat
  rest : Bytes

/-- The cursor the number scanner runs on. -/
def spanCursor : NumberCursor Span where
  peek := return (← get).rest.head?
  take := do
    let s ← get
    match s.rest with
    | [] => return none
    | ch :: rest =>
      set { s with pos := s.pos + 1, rest := rest }
      return some ch

/-- `parseNumber`. -/
def parseNumber (lib : NumericLibrary) : DomM Pjson := do
  let c ← get
  match (scanJsonNumber spanCursor (c.rest.length + 1)).run ⟨c.pos, c.rest⟩ with
  | .error (.scan message) scan => fail scan.pos (message.getD "invalid number")
  | .error e _ => throw e
  | .ok (text, isFloat) scan =>
    match convertNumberToken lib text isFloat c.numberPolicy with
    | .error message => fail c.pos message
    | .ok number =>
      newNode
      modify fun c => { c with pos := scan.pos, rest := scan.rest }
      return number.toPjson

/-! ## Containers -/

/-- The element loop of `parseArray`, with what has been parsed. -/
def arrayLoop (value : DomM Pjson) : Nat → Bool → Bool → List Pjson → DomM Pjson
  | 0, _, _, _ => throw .fuel
  | fuel + 1, expectValue, any, arr => do
    match ← peek with
    | none => fail (← position) "unterminated array"
    | some ch =>
      if ch = 0x5D then
        if expectValue then fail (← position) "trailing comma in array"
        else
          advance 1
          return .jsonArray arr
      else if ch = 0x2C then
        if !any || expectValue then fail (← position) "unexpected ',' in array"
        else
          advance 1
          arrayLoop value fuel true any arr
      else if any && !expectValue then
        fail (← position) "missing ',' between array elements"
      else
        let elem ← value
        arrayLoop value fuel false true (arr ++ [elem])

/-- The member loop of `parseObject`, with what has been parsed. -/
def objectLoop (value : DomM Pjson) :
    Nat → Bool → Bool → List (Bytes × Pjson) → DomM Pjson
  | 0, _, _, _ => throw .fuel
  | fuel + 1, expectMember, any, obj => do
    match ← peek with
    | none => fail (← position) "unterminated object"
    | some ch =>
      if ch = 0x7D then
        if expectMember then fail (← position) "trailing comma in object"
        else
          advance 1
          return .jsonObject obj
      else if ch = 0x2C then
        if !any || expectMember then fail (← position) "unexpected ',' in object"
        else
          advance 1
          objectLoop value fuel true any obj
      else if ch = 0x22 then
        if any && !expectMember then
          fail (← position) "missing ',' between object members"
        else
          let keyOffset ← position
          let mkey ← extractString
          let duplicate := (Assoc.find mkey obj).isSome
          let policy := (← get).duplicateKeys
          if duplicate ∧ policy = .RejectDuplicateKeys then fail keyOffset "duplicate object key"
          else
            skipColon
            let val ← value
            if duplicate then
              if policy = .KeepLastDuplicate then
                objectLoop value fuel false true (Assoc.assign mkey val obj)
              else objectLoop value fuel false true obj
            else objectLoop value fuel false true (Assoc.assign mkey val obj)
      else fail (← position) "expected '\"' to start an object key"

/-- What `parseArray` and `parseObject` share: one level of nesting, charged on entry and given
    back on every return, around a container that costs one value and starts at a bracket. -/
def container (body : DomM Pjson) : DomM Pjson := do
  modify fun c => { c with depth := c.depth + 1 }
  let v ← onError (do
    let c ← get
    if c.depth > c.maxDepth then fail c.pos "maximum nesting depth exceeded"
    else
      newNode
      advance 1
      body) leave
  modify leave
  return v

/-- `parseArray`. -/
def parseArray (value : DomM Pjson) : DomM Pjson :=
  container do arrayLoop value ((← get).rest.length + 1) false false []

/-- `parseObject`. -/
def parseObject (value : DomM Pjson) : DomM Pjson :=
  container do objectLoop value ((← get).rest.length + 1) false false []

/-! ## Values and documents -/

/-- `parseValue`, for `level` levels of nesting below. -/
def parseValue (lib : NumericLibrary) : Nat → DomM Pjson
  | 0 => throw .fuel
  | level + 1 => do
    match ← peek with
    | none => fail (← position) "unexpected end of input; expected a value"
    | some ch =>
      if ch = 0x22 then parseString
      else if ch = 0x7B then parseObject (parseValue lib level)
      else if ch = 0x5B then parseArray (parseValue lib level)
      else if ch = 0x2D ∨ (0x30 ≤ ch ∧ ch ≤ 0x39) then parseNumber lib
      else parseKeyword

/-- The context `parseTop` starts with. -/
def initial (opts : ParserOptions) (src : Bytes) : ParseCtx :=
  { pos := 0, rest := src, duplicateKeys := opts.duplicateKeys, numberPolicy := opts.numberPolicy
    depth := 0, maxDepth := clampParseDepth opts.maxDepth, nodeCount := 0
    maxNodes := opts.maxNodes, failed := false, errPos := 0, errMsg := "" }

/-- `parseTop`: the parsed value, null on failure, and the error record. -/
def parseTop (lib : NumericLibrary) (opts : ParserOptions) (src : Bytes) : Pjson × ParseError :=
  if opts.maxInputBytes ≠ 0 ∧ src.length > opts.maxInputBytes then
    (.jsonNull,
      setParseError src opts.maxInputBytes "input exceeds maxInputBytes" .InputLimit)
  else
    let start := initial opts src
    match (parseValue lib (start.maxDepth + 1)).run start with
    | .error _ c =>
      (.jsonNull,
        setParseError src c.errPos (if c.errMsg = "" then "parse error" else c.errMsg))
    | .ok v c =>
      match peek.run c with
      | .ok (some _) c =>
        (.jsonNull, setParseError src c.pos "trailing characters after JSON value" .Syntax)
      | _ => (v, {})

end Dom

/-- `pJsonParser::parse`, the overload that reports its error. -/
def parse (lib : NumericLibrary) (opts : ParserOptions) (src : Bytes) : Pjson × ParseError :=
  Dom.parseTop lib opts src

end ByteDance
