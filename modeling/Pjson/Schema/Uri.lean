/-
  The URI functions of the schema code.

  References are resolved as byte strings: `resolveUri` puts a reference behind a base,
  `splitReference` cuts the result at its first `#`, and `percentDecodeFragment` reads what is
  behind it.
-/
import Pjson.Dom.Value

namespace ByteDance

/-- The bytes of a C string literal. -/
def ascii (s : String) : Bytes := s.toList.map fun c => UInt8.ofNat c.toNat

def isAsciiDigit (ch : UInt8) : Bool := 0x30 ≤ ch && ch ≤ 0x39

def isAsciiLetter (ch : UInt8) : Bool := (0x61 ≤ ch && ch ≤ 0x7A) || (0x41 ≤ ch && ch ≤ 0x5A)

def isAsciiHex (ch : UInt8) : Bool :=
  isAsciiDigit ch || (0x61 ≤ ch && ch ≤ 0x66) || (0x41 ≤ ch && ch ≤ 0x46)

/-- The value of a hexadecimal digit. -/
def hexValue (ch : UInt8) : UInt8 :=
  if isAsciiDigit ch then ch - 0x30 else if 0x61 ≤ ch then ch - 0x61 + 10 else ch - 0x41 + 10

/-- `percentDecodeFragment`; `none` is `return false`. -/
def percentDecodeFragment : Bytes → Option Bytes
  | [] => some []
  | ch :: rest =>
    if ch ≠ 0x25 then (percentDecodeFragment rest).map (ch :: ·)
    else
      match rest with
      | hi :: lo :: rest =>
        if !isAsciiHex hi || !isAsciiHex lo then none
        else (percentDecodeFragment rest).map (((hexValue hi <<< 4) ||| hexValue lo) :: ·)
      | _ => none

/-- The loop of `uriHasScheme`, behind the first letter. -/
def schemeFrom : Bytes → Bool
  | [] => false
  | c :: rest =>
    if c = 0x3A then true
    else if !(isAsciiLetter c || isAsciiDigit c || c == 0x2B || c == 0x2D || c == 0x2E) then false
    else schemeFrom rest

/-- `uriHasScheme`. -/
def uriHasScheme : Bytes → Bool
  | [] => false
  | c :: rest => isAsciiLetter c && schemeFrom rest

/-- `stripFragment`. -/
def stripFragment (uri : Bytes) : Bytes := uri.takeWhile (· ≠ 0x23)

/-- `splitReference`: the document and the fragment. -/
def splitReference (uri : Bytes) : Bytes × Bytes :=
  (uri.takeWhile (· ≠ 0x23), (uri.dropWhile (· ≠ 0x23)).tail)

/-- `splitPathSuffix`: the path, and the query and fragment behind it. -/
def splitPathSuffix (value : Bytes) : Bytes × Bytes :=
  (value.takeWhile fun c => c ≠ 0x3F && c ≠ 0x23, value.dropWhile fun c => c ≠ 0x3F && c ≠ 0x23)

/-- One turn of the loop of `normalizePath` over the segments. -/
def normalizeSegment (segments : List Bytes) (segment : Bytes) : List Bytes :=
  if segment = [] ∨ segment = [0x2E] then segments
  else if segment = [0x2E, 0x2E] then segments.dropLast
  else segments ++ [segment]

/-- Appends a segment, behind a slash where there is none. -/
def joinSegment (result segment : Bytes) : Bytes :=
  if result ≠ [] ∧ result.getLast? ≠ some 0x2F then result ++ 0x2F :: segment else result ++ segment

/-- `normalizePath`. -/
def normalizePath (path : Bytes) : Bytes :=
  let segments := (path.splitOn 0x2F).foldl normalizeSegment []
  let start : Bytes := if path.head? = some 0x2F then [0x2F] else []
  let result := segments.foldl joinSegment start
  if path.getLast? = some 0x2F ∧ result.getLast? ≠ some 0x2F then result ++ [0x2F] else result

/-- The path up to its last slash. -/
def directoryOf (path : Bytes) : Bytes := (path.reverse.dropWhile (· ≠ 0x2F)).reverse

/-- The end of `resolveUri`, which every kind of base comes to: what stands before the path, the
    path of the base and the reference. -/
def resolveAgainst (front basePath reference : Bytes) : Bytes :=
  let (referencePath, referenceSuffix) := splitPathSuffix reference
  if reference.head? = some 0x3F then front ++ basePath ++ reference
  else if referencePath.head? = some 0x2F then front ++ normalizePath referencePath ++ referenceSuffix
  else front ++ normalizePath (directoryOf basePath ++ referencePath) ++ referenceSuffix

/-- `resolveUri`. -/
def resolveUri (baseWithFragment reference : Bytes) : Bytes :=
  let base := stripFragment baseWithFragment
  if reference = [] then base
  else if uriHasScheme reference then reference
  else if reference.head? = some 0x23 then base ++ reference
  else if (0x3A : UInt8) ∉ base then resolveAgainst [] (splitPathSuffix base).1 reference
  else
    let scheme := base.takeWhile (· ≠ 0x3A) ++ [0x3A]
    let remainder := (base.dropWhile (· ≠ 0x3A)).tail
    if remainder.take 2 ≠ [0x2F, 0x2F] then
      resolveAgainst scheme (splitPathSuffix remainder).1 reference
    else if reference.take 2 = [0x2F, 0x2F] then scheme ++ reference
    else
      let authority := remainder.take 2 ++ (remainder.drop 2).takeWhile (· ≠ 0x2F)
      let behind := (remainder.drop 2).dropWhile (· ≠ 0x2F)
      let basePath := if behind = [] then [0x2F] else behind
      resolveAgainst (scheme ++ authority) (splitPathSuffix basePath).1 reference

/-- `absoluteSchemaLocation`. -/
def absoluteSchemaLocation (documentUri pointer : Bytes) : Bytes :=
  if documentUri = [] then pointer else stripFragment documentUri ++ 0x23 :: pointer

/-! ## Fragments -/

@[simp] theorem percentDecodeFragment_nil : percentDecodeFragment [] = some [] := rfl

end ByteDance
