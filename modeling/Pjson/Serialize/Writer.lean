/-
  The serializer: `writeIndent`, `writeUnicodeEscape`, `pjsonImpl::_writeEscapedTo`, `_openOrEmit`,
  `_writeValueTo` over any sink, and `pjson::toString`.

  The traversal keeps a stack of frames, one for every container that is open, each with a cursor
  at its next child.  A cursor is the list of the children it has still to reach.  The loop has
  fuel; `writeValueTo` gives it one round for every time a child is opened or a container is closed.
-/
import Pjson.Serialize.Sink
import Pjson.Serialize.FormatDouble
import Pjson.Dom.Utf8Len
import Pjson.Grammar.Syntax

namespace ByteDance

/-- `pjson::SerializeOptions::NonFinitePolicy`. -/
inductive NonFinitePolicy where
  | RejectNonFinite
  | NonFiniteToNull
  | NonFiniteToString
  deriving DecidableEq, Repr

/-- `pjson::SerializeOptions`; a limit of zero is none. -/
structure SerializeOptions where
  pretty : Bool := false
  indentWidth : Nat := 2
  indentCharacter : UInt8 := 0x20
  escapeNonAscii : Bool := false
  nonFinite : NonFinitePolicy := .RejectNonFinite
  maxOutputBytes : Nat := 64 * 1024 * 1024

/-- `SerializeOptions::prettyPrinted`. -/
def SerializeOptions.prettyPrinted : SerializeOptions := { pretty := true }

/-- `pjsonImpl::SerializeFrame`: `array` and `object` are what the cursor has still to reach. -/
structure SerializeFrame where
  isObject : Bool
  depth : Nat
  first : Bool
  array : List Pjson
  object : List (Bytes × Pjson)

namespace Serialize

variable {σ : Type} [Sink σ]

/-- `depth * indentWidth` indentation characters, unless the product overflows. -/
def writeIndent (depth : Nat) (opts : SerializeOptions) : SinkM σ Bool :=
  let indent : UInt8 := if opts.indentCharacter = 0x09 then 0x09 else 0x20
  if opts.indentWidth ≠ 0 ∧ depth > sizeMax / opts.indentWidth then Sink.fail
  else Sink.«repeat» indent (depth * opts.indentWidth)

/-- The table `0123456789abcdef`. -/
def hex (n : Nat) : UInt8 := if n < 10 then UInt8.ofNat (0x30 + n) else UInt8.ofNat (0x61 + (n - 10))

/-- One UTF-16 code unit as `\uXXXX`. -/
def unicodeEscape (value : Nat) : Bytes :=
  [0x5C, 0x75, hex ((value >>> 12) &&& 0x0F), hex ((value >>> 8) &&& 0x0F),
    hex ((value >>> 4) &&& 0x0F), hex (value &&& 0x0F)]

def writeUnicodeEscape (value : Nat) : SinkM σ Bool := do
  Sink.write (unicodeEscape value)
  return Sink.good (← get)

/-- The escapes of two characters. -/
def shortEscape (ch : UInt8) : Option Bytes :=
  if ch = 0x22 then some [0x5C, 0x22]
  else if ch = 0x5C then some [0x5C, 0x5C]
  else if ch = 0x08 then some [0x5C, 0x62]
  else if ch = 0x0C then some [0x5C, 0x66]
  else if ch = 0x0A then some [0x5C, 0x6E]
  else if ch = 0x0D then some [0x5C, 0x72]
  else if ch = 0x09 then some [0x5C, 0x74]
  else none

/-- The code point of the sequence of `byteCount` bytes that `ch` leads and `rest` goes on with. -/
def sequenceCodePoint (byteCount : Nat) (ch : UInt8) (rest : Bytes) : Nat :=
  let mask : UInt8 := if byteCount = 2 then 0x1F else if byteCount = 3 then 0x0F else 0x07
  (rest.take (byteCount - 1)).foldl (fun codePoint b => codePoint <<< 6 ||| (b &&& 0x3F).toNat)
    (ch &&& mask).toNat

/-- `_writeEscapedTo`, on the bytes from the index on. -/
def writeEscapedTo (bEscapeNonAscii : Bool) : Bytes → SinkM σ Bool
  | [] => do return Sink.good (← get)
  | ch :: rest =>
    match shortEscape ch with
    | some escape => do
      Sink.write escape
      if !(Sink.good (← get)) then return false
      else writeEscapedTo bEscapeNonAscii rest
    | none =>
      if ch < 0x20 then do
        if !(← writeUnicodeEscape ch.toNat) then return false
        else writeEscapedTo bEscapeNonAscii rest
      else if ch < 0x80 then do
        Sink.put ch
        if !(Sink.good (← get)) then return false
        else writeEscapedTo bEscapeNonAscii rest
      else
        let byteCount := utf8Len (ch :: rest)
        let next := rest.drop (byteCount - 1)
        if byteCount = 0 then Sink.invalidUtf8
        else if bEscapeNonAscii = false then do
          Sink.write ((ch :: rest).take byteCount)
          if !(Sink.good (← get)) then return false
          else writeEscapedTo bEscapeNonAscii next
        else
          let codePoint := sequenceCodePoint byteCount ch rest
          if codePoint ≤ 0xFFFF then do
            if !(← writeUnicodeEscape codePoint) then return false
            else writeEscapedTo bEscapeNonAscii next
          else
            let high := 0xD800 + ((codePoint - 0x10000) >>> 10)
            let low := 0xDC00 + ((codePoint - 0x10000) &&& 0x3FF)
            do
              if !(← writeUnicodeEscape high) then return false
              else if !(← writeUnicodeEscape low) then return false
              else writeEscapedTo bEscapeNonAscii next
termination_by s => s.length
decreasing_by all_goals simp only [List.length_cons, List.length_drop]; omega

/-- A quoted string. -/
def writeString (opts : SerializeOptions) (s : Bytes) : SinkM σ Bool := do
  Sink.put 0x22
  if !(Sink.good (← get)) then return false
  else if !(← writeEscapedTo opts.escapeNonAscii s) then return false
  else
    Sink.put 0x22
    return Sink.good (← get)

/-- A text that is written as it is. -/
def writeText (text : Bytes) : SinkM σ Bool := do
  Sink.write text
  return Sink.good (← get)

/-- `std::to_string`. -/
def toDecimal (n : Int) : Bytes :=
  if n < 0 then 0x2D :: Decimal.numeral n.natAbs else Decimal.numeral n.toNat

/-- `"NaN"`, `"-Infinity"` or `"Infinity"`, with the quotes. -/
def nonFiniteText (d : Binary64) : Bytes :=
  if d.isNaN then [0x22, 0x4E, 0x61, 0x4E, 0x22]
  else
    let infinity : Bytes := [0x49, 0x6E, 0x66, 0x69, 0x6E, 0x69, 0x74, 0x79, 0x22]
    if d.negative then 0x22 :: 0x2D :: infinity else 0x22 :: infinity

def writeDouble (d2s : Binary64 → Bytes) (opts : SerializeOptions) (d : Binary64) :
    SinkM σ Bool :=
  if d.isFinite = false then
    match opts.nonFinite with
    | .RejectNonFinite => Sink.invalidNumber
    | .NonFiniteToNull => writeText nullText
    | .NonFiniteToString => writeText (nonFiniteText d)
  else writeText (formatDouble d2s d)

/-- A scalar, or a container without children; the other containers are left to the caller. -/
def writeLeaf (d2s : Binary64 → Bytes) (opts : SerializeOptions) : Pjson → SinkM σ Bool
  | .jsonNull => writeText nullText
  | .jsonString s => writeString opts s
  | .jsonNumberInt n => writeText (toDecimal n.toInt)
  | .jsonNumberUInt n => writeText (toDecimal n.toNat)
  | .jsonNumberDouble d => writeDouble d2s opts d
  | .jsonBoolean b => writeText (if b then trueText else falseText)
  | .jsonArray _ => writeText [0x5B, 0x5D]
  | .jsonObject _ => writeText [0x7B, 0x7D]

/-- The frame of a container with children. -/
def frameOf (aDepth : Nat) : Pjson → Option SerializeFrame
  | .jsonArray (x :: xs) =>
    some { isObject := false, depth := aDepth, first := true, array := x :: xs, object := [] }
  | .jsonObject (m :: ms) =>
    some { isObject := true, depth := aDepth, first := true, array := [], object := m :: ms }
  | _ => none

/-- `_openOrEmit`: the stack of frames behind the value, or `none` where it returns false. -/
def openOrEmit (d2s : Binary64 → Bytes) (opts : SerializeOptions) (aValue : Pjson) (aDepth : Nat)
    (aFrames : List SerializeFrame) : SinkM σ (Option (List SerializeFrame)) :=
  match frameOf aDepth aValue with
  | none => do return if ← writeLeaf d2s opts aValue then some aFrames else none
  | some frame => do
    Sink.put (if frame.isObject then 0x7B else 0x5B)
    return if Sink.good (← get) then some (frame :: aFrames) else none

/-- The child the cursor is at, with its key in an object, and the frame with the cursor moved on. -/
def nextChild (frame : SerializeFrame) : Option (Option Bytes × Pjson × SerializeFrame) :=
  if frame.isObject then
    match frame.object with
    | [] => none
    | (key, child) :: rest => some (some key, child, { frame with first := false, object := rest })
  else
    match frame.array with
    | [] => none
    | child :: rest => some (none, child, { frame with first := false, array := rest })

/-- The comma in front of every child but the first. -/
def writeComma (first : Bool) : SinkM σ Unit := if first then pure () else Sink.put 0x2C

/-- `k` behind a new line, when printing prettily. -/
def onNewLine (opts : SerializeOptions) (depth : Nat) (k : SinkM σ Bool) : SinkM σ Bool :=
  if opts.pretty then do
    Sink.put 0x0A
    if !(← writeIndent depth opts) then return false
    else k
  else k

/-- `k` behind the key of a member. -/
def afterKey (opts : SerializeOptions) (key : Option Bytes) (k : SinkM σ Bool) : SinkM σ Bool :=
  match key with
  | none => k
  | some key => do
    Sink.put 0x22
    if !(Sink.good (← get)) then return false
    else if !(← writeEscapedTo opts.escapeNonAscii key) then return false
    else
      Sink.write (if opts.pretty then [0x22, 0x3A, 0x20] else [0x22, 0x3A])
      k

/-- The loop of `_writeValueTo`. -/
def writeFrames (d2s : Binary64 → Bytes) (opts : SerializeOptions) :
    Nat → List SerializeFrame → SinkM σ Bool
  | _, [] => do return Sink.good (← get)
  | 0, _ :: _ => return false
  | fuel + 1, frame :: stack =>
    match nextChild frame with
    | some (key, child, rest) => do
      writeComma frame.first
      onNewLine opts (frame.depth + 1) <| afterKey opts key <| do
        if !(Sink.good (← get)) then return false
        else
          match ← openOrEmit d2s opts child (frame.depth + 1) (rest :: stack) with
          | none => return false
          | some stack => writeFrames d2s opts fuel stack
    | none =>
      onNewLine opts frame.depth <| do
        Sink.put (if frame.isObject then 0x7D else 0x5D)
        if !(Sink.good (← get)) then return false
        else writeFrames d2s opts fuel stack

/-- `_writeValueTo`. -/
def writeValueTo (d2s : Binary64 → Bytes) (opts : SerializeOptions) (aValue : Pjson) :
    SinkM σ Bool := do
  match ← openOrEmit d2s opts aValue 0 [] with
  | none => return false
  | some stack => writeFrames d2s opts (2 * aValue.nodes) stack

/-- `pjson::toString`: a run that counts, and a run that writes. -/
def toString (d2s : Binary64 → Bytes) (opts : SerializeOptions) (aValue : Pjson) :
    Except StdException Bytes :=
  match (writeValueTo d2s opts aValue).run ({ limit := opts.maxOutputBytes } : CountingSink) with
  | .error e _ => .error e
  | .ok false count =>
    if count.invalidUtf8 then .error (.invalid_argument "JSON string contains invalid UTF-8")
    else if count.invalidNumber then .error (.invalid_argument "JSON number is not finite")
    else .error (.length_error "JSON output exceeds maxOutputBytes or contains invalid data")
  | .ok true count =>
    if count.written > stringMaxSize then .error (.length_error "basic_string::reserve")
    else
      match (writeValueTo d2s opts aValue).run
          ({ out := [], limit := opts.maxOutputBytes } : StringSink) with
      | .error e _ => .error e
      | .ok _ result => .ok result.out

end Serialize

end ByteDance
