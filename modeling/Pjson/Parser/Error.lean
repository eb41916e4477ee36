/-
  What the four parser entry points share around the grammar: the options with their defaults,
  the error record with its code, offset and source coordinates, and the classification of a
  diagnostic text into a code.

  Every diagnostic of the parsers is one of the texts that occur literally in this project, as
  it is in the source; the code of most failures is not passed along but read off the text by
  `classifyParseMessage`, so the texts are data of the program and not decoration.
-/
import Pjson.Dom.Value

namespace ByteDance

/-- `pJsonParser::Options::DuplicateKeyPolicy`. -/
inductive DuplicateKeyPolicy where
  | RejectDuplicateKeys
  | KeepFirstDuplicate
  | KeepLastDuplicate
  deriving DecidableEq, Repr

/-- `pJsonParser::Options::NumberPolicy`. -/
inductive NumberPolicy where
  | RejectUnrepresentableNumbers
  | AllowLossyNumbers
  deriving DecidableEq, Repr

/-- `pJsonParser::Options`; zero lifts the node and the byte limit. -/
structure ParserOptions where
  maxDepth : Int := 512
  maxNodes : Nat := 1000000
  maxInputBytes : Nat := 64 * 1024 * 1024
  duplicateKeys : DuplicateKeyPolicy := .RejectDuplicateKeys
  numberPolicy : NumberPolicy := .RejectUnrepresentableNumbers

/-- `pJsonParserImpl::DepthHardLimit`. -/
def depthHardLimit : Nat := 1024

/-- `clampParseDepth`: the configured depth, brought into `1..1024`. -/
def clampParseDepth (configured : Int) : Nat :=
  if configured ≤ 0 then 1
  else if configured < depthHardLimit then configured.toNat else depthHardLimit

theorem clampParseDepth_eq (configured : Int) :
    clampParseDepth configured = (max 1 (min configured 1024)).toNat := by
  unfold clampParseDepth depthHardLimit
  split_ifs <;> omega

/-- `pJsonParser::Error::Code`. -/
inductive ParseErrorCode where
  | None
  | Syntax
  | InvalidEncoding
  | NumberRange
  | DuplicateKey
  | DepthLimit
  | InputLimit
  | NodeLimit
  | AllocationFailure
  | StreamError
  | CallbackError
  | InvalidArgument
  deriving DecidableEq, Repr

/-- `pJsonParser::Error`, as its constructor leaves it: success at the start of the input. -/
structure ParseError where
  ok : Bool := true
  code : ParseErrorCode := .None
  offset : Nat := 0
  line : Nat := 1
  column : Nat := 1
  message : String := ""
  deriving DecidableEq, Repr

/-- `message.find(phrase) != npos`. -/
def mentions (message phrase : String) : Bool := phrase.toList <:+: message.toList

/-- `classifyParseMessage`: the code that goes with a diagnostic text. -/
def classifyParseMessage (message : String) : ParseErrorCode :=
  if mentions message "UTF-8" || mentions message "surrogate" || mentions message "escape" ||
      mentions message "\\u" then .InvalidEncoding
  else if mentions message "duplicate object key" then .DuplicateKey
  else if mentions message "out of range" || mentions message "number" then .NumberRange
  else if mentions message "nesting depth" then .DepthLimit
  else if mentions message "maxInputBytes" then .InputLimit
  else if mentions message "maxNodes" || mentions message "node budget" then .NodeLimit
  else if mentions message "out of memory" then .AllocationFailure
  else if mentions message "stream read" then .StreamError
  else .Syntax

/-- The loop of `lineAndColumn` over the bytes before the offset. -/
def lineAndColumnFrom : Nat → Nat → Bytes → Nat × Nat
  | line, column, [] => (line, column)
  | line, _, [0x0D] => (line + 1, 1)
  | line, _, 0x0D :: ch :: rest =>
    if ch = 0x0A then lineAndColumnFrom (line + 1) 1 rest
    else lineAndColumnFrom (line + 1) 1 (ch :: rest)
  | line, column, ch :: rest =>
    if ch = 0x0A then lineAndColumnFrom (line + 1) 1 rest
    else lineAndColumnFrom line (column + 1) rest

/-- `lineAndColumn`: one-based coordinates of a byte offset.  CR LF counts as one line ending, a
    lone CR or LF as one each. -/
def lineAndColumn (src : Bytes) (offset : Nat) : Nat × Nat :=
  lineAndColumnFrom 1 1 (src.take offset)

/-- `setParseError`: a failure at a byte offset of `src`; the code is read off the message unless
    one is given. -/
def setParseError (src : Bytes) (offset : Nat) (message : String)
    (code : ParseErrorCode := .None) : ParseError :=
  { ok := false
    code := if code = .None then classifyParseMessage message else code
    offset := offset
    line := (lineAndColumn src offset).1
    column := (lineAndColumn src offset).2
    message := message }

end ByteDance
