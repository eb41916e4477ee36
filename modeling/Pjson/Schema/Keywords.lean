/-
  The assertions of the evaluator: the keywords that look at one value and call nobody.

  Families of the source that differ in a bound and a message are one definition here, applied to
  the member's own values under the source's names.
-/
import Pjson.Schema.Equal
import Pjson.Schema.Utf8

namespace ByteDance

open Decimal Validate

/-! ## Values -/

/-- `strOf`. -/
def strOf : Pjson → Bytes
  | .jsonString s => s
  | _ => []

/-- `boolOf`. -/
def boolOf : Pjson → Bool
  | .jsonBoolean b => b
  | _ => false

namespace Pjson

def isString : Pjson → Bool
  | .jsonString _ => true
  | _ => false

def isBool : Pjson → Bool
  | .jsonBoolean _ => true
  | _ => false

def isArray : Pjson → Bool
  | .jsonArray _ => true
  | _ => false

def isObject : Pjson → Bool
  | .jsonObject _ => true
  | _ => false

/-- The elements of an array; `findIndex` reaches them by number. -/
def elements : Pjson → List Pjson
  | .jsonArray xs => xs
  | _ => []

/-- `pjson::keys`. -/
def keys (e : Enumeration) : Pjson → List Bytes
  | .jsonObject ms => Assoc.keys (e.order ms)
  | _ => []

/-- `pjson::size` of a container. -/
def size : Pjson → Nat
  | .jsonArray xs => xs.length
  | .jsonObject ms => ms.length
  | _ => 0

/-- `pjson::hasKey`. -/
def hasKey (v : Pjson) (key : Bytes) : Bool := (v.child (.member key)).isSome

end Pjson

/-- `typeName`. -/
def typeName : Pjson → Bytes
  | .jsonNull => ascii "null"
  | .jsonString _ => ascii "string"
  | .jsonNumberInt _ | .jsonNumberUInt _ => ascii "integer"
  | .jsonNumberDouble _ => ascii "number"
  | .jsonBoolean _ => ascii "boolean"
  | .jsonArray _ => ascii "array"
  | .jsonObject _ => ascii "object"

/-- `std::isfinite(number) && std::floor(number) == number`. -/
def isIntegral (d : Binary64) : Bool := d.isFinite && d.toRat.isInt

/-- `typeMatches`. -/
def typeMatches (node : Pjson) (type : Bytes) : Bool :=
  if type = ascii "null" then node matches .jsonNull
  else if type = ascii "string" then node.isString
  else if type = ascii "boolean" then node.isBool
  else if type = ascii "array" then node.isArray
  else if type = ascii "object" then node.isObject
  else if type = ascii "number" then node.isNumber
  else if type = ascii "integer" then
    match node with
    | .jsonNumberInt _ | .jsonNumberUInt _ => true
    | .jsonNumberDouble number => isIntegral number
    | _ => false
  else false

/-- What `schemaSize` makes of the value of a size keyword. -/
inductive SchemaSize where
  | aboveRange
  | bound (n : Nat)

/-- `schemaSize`; `none` is `return false`. -/
def schemaSize : Pjson → Option SchemaSize
  | .jsonNumberUInt n => some (.bound n.toNat)
  | .jsonNumberInt n => if n.toInt < 0 then none else some (.bound n.toInt.toNat)
  | .jsonNumberDouble number =>
    if !isIntegral number || number.lt Binary64.zero then none
    else if 2 ^ 64 ≤ number.toRat then some .aboveRange
    else some (.bound number.trunc.toNat)
  | _ => none

/-- `aboveRange || size < bound`. -/
def SchemaSize.exceeds (size : Nat) : SchemaSize → Bool
  | .aboveRange => true
  | .bound n => size < n

/-- `!aboveRange && size > bound`. -/
def SchemaSize.isBelow (size : Nat) : SchemaSize → Bool
  | .aboveRange => false
  | .bound n => n < size

/-- `isSupportedSchemaKeyword`. -/
def supportedSchemaKeywords : List Bytes :=
  ["type", "enum", "const", "$ref", "properties", "patternProperties", "propertyNames", "required",
    "dependentRequired", "dependencies", "dependentSchemas", "additionalProperties",
    "minProperties", "maxProperties", "items", "prefixItems", "contains", "minContains",
    "maxContains", "minItems", "maxItems", "uniqueItems", "minimum", "maximum", "exclusiveMinimum",
    "exclusiveMaximum", "multipleOf", "minLength", "maxLength", "pattern", "format", "allOf",
    "anyOf", "oneOf", "not", "if", "then", "else", "$schema", "$id", "$anchor", "$dynamicAnchor",
    "$dynamicRef", "$vocabulary", "$defs", "$comment", "definitions", "title", "description",
    "default", "examples", "deprecated", "readOnly", "writeOnly", "unevaluatedItems",
    "unevaluatedProperties"].map ascii

/-- `isStandardSchemaKeyword`. -/
def standardUnsupportedKeywords : List Bytes :=
  ["$recursiveRef", "$recursiveAnchor", "additionalItems", "contentEncoding", "contentMediaType",
    "contentSchema"].map ascii

/-! ## The call in progress -/

/-- What the keywords of a call share: the node with its path, the schema and its dialect. -/
structure Current where
  scene : Scene
  schema : NodePtr
  policy : DialectPolicy

namespace Current

variable (c : Current)

/-- The instance value. -/
def value : Pjson := c.scene.node.value

def keyword (vocabulary : Vocabulary) (name : String) : Option NodePtr :=
  if hasVocabulary c.policy vocabulary then c.schema.find (ascii name) else none

def validationKeyword (name : String) : Option NodePtr := c.keyword .VValidation name

def applicatorKeyword (name : String) : Option NodePtr := c.keyword .VApplicator name

def unevaluatedKeyword (name : String) : Option NodePtr := c.keyword .VUnevaluated name

end Current

/-- A child of the node, with its path. -/
def Scene.childAt (scene : Scene) (token : Bytes) (child : NodePtr) : Scene :=
  ⟨child, pointerAppend scene.path token⟩

/-- `schemaLocationFor`. -/
def Session.schemaLocationFor (S : Session) (schema : NodePtr) (keyword : Bytes) : Bytes :=
  let base := ((Assoc.find schema.address S.compiled.nodeTargets).map SchemaTarget.location).getD []
  if keyword = [] then base else pointerAppend base keyword

/-- `validationError`. -/
def Session.validationError (S : Session) (schema : NodePtr) (code : SchemaError.Code) (scene : Scene)
    (keyword message : Bytes) : SchemaError where
  code := code
  instanceLocation := scene.path
  schemaLocation := S.schemaLocationFor schema keyword
  keyword := keyword
  message := message
  subject := scene.node.address

namespace Validate

variable (S : Session)

/-- `errors.push_back(validationError(…))`, and `addSchemaError`, whose result nobody reads. -/
def report (schema : NodePtr) (code : SchemaError.Code) (scene : Scene) (keyword : String)
    (message : Bytes) : Validate Unit :=
  push_back (S.validationError schema code scene (ascii keyword) message)

/-- `formatNumber`. -/
def formatNumber (v : Pjson) : Validate Bytes := lift (numberText S.d2s v)

/-! ## Patterns -/

/-- What a pattern looks like to the limits and the engine. -/
def classifyPattern (o : Options) (pattern : Bytes) : RegexState :=
  if o.maxRegexPatternBytes ≠ 0 ∧ o.maxRegexPatternBytes.toNat < pattern.length then .PatternTooLarge
  else if !o.allowUnsafeRegex && !isSafeRegex pattern then .UnsafePattern
  else if EcmaRegex.compile S.engine pattern then .Ready
  else .InvalidPattern

/-- The cache entry of a pattern, classified on its first use; `none` when the budget is
    exhausted. -/
def cachedState (scene : Scene) (pattern : Bytes) : Validate (Option RegexState) := do
  let found ← inspect fun _ m => Assoc.find pattern m.ctx.regexCache
  match found with
  | some state => pure (some state)
  | none => do
    let paid ← chargeValidationWork scene (pattern.length + 1)
    if !paid then pure none
    else do
      let state ← option fun o => classifyPattern S o pattern
      update fun _ m =>
        { m with ctx := { m.ctx with regexCache := Assoc.assign pattern state m.ctx.regexCache } }
      pure (some state)

/-- The subject is longer than the options admit. -/
def subjectTooLong (o : Options) (subject : Bytes) : Bool :=
  o.maxRegexSubjectBytes ≠ 0 && o.maxRegexSubjectBytes.toNat < subject.length

/-- The search with a pattern the engine accepts; `none` is `return false`. -/
def searchPattern (subject pattern : Bytes) (scene : Scene) (schema : NodePtr) (keyword : String) :
    Validate (Option Bool) := do
  let paid ← chargeValidationWork scene (subject.length + 1)
  if !paid then pure none
  else
    match S.engine.search pattern subject with
    | .WorkLimit => do
      report S schema .ResourceLimit scene keyword (ascii "schema regex work limit exceeded")
      pure none
    | .Invalid => do
      report S schema .RegexFailure scene keyword (ascii "schema regex evaluation failed")
      pure none
    | .Match => pure (some true)
    | .NoMatch => pure (some false)

/-- The message of a pattern that is not searched with. -/
def refusal : RegexState → Option Bytes
  | .PatternTooLarge => some (ascii "schema regex pattern exceeds safety limit")
  | .UnsafePattern => some (ascii "schema regex pattern rejected by safety policy")
  | .InvalidPattern => some (ascii "schema has an invalid regex pattern")
  | .Ready => none

/-- `evaluateRegex`: whether the subject matches, or `none` for `return false`. -/
def evaluateRegex (subject pattern : Bytes) (scene : Scene) (schema : NodePtr) (keyword : String) :
    Validate (Option Bool) := do
  let limit ← option Options.maxRegexSubjectBytes
  let tooLong ← option fun o => subjectTooLong o subject
  if tooLong then do
    report S schema .ResourceLimit scene keyword
      (ascii "string exceeds regex safety limit (" ++ numeral subject.length ++ ascii " bytes, limit " ++
        numeral limit.toNat ++ ascii ")")
    pure none
  else do
    let state ← cachedState S scene pattern
    match state with
    | none => pure none
    | some state =>
      match refusal state with
      | some message => do
        report S schema .RegexFailure scene keyword message
        pure none
      | none => searchPattern S subject pattern scene schema keyword

/-! ## Any value -/

variable (c : Current)

/-- The strict, fail-closed subset check. -/
def checkStrictSubset : Validate Unit := do
  let strict ← option Options.strictSubset
  onlyIf (strict = true) do
    forEach (c.schema.value.keys S.enumeration) fun key => do
      charge c.scene 1
      onlyIf (key ∉ supportedSchemaKeywords ∧ key ∈ standardUnsupportedKeywords)
        (push_back (S.validationError c.schema .UnsupportedKeyword c.scene key
          (ascii "strict schema mode: unsupported standard keyword \"" ++ key ++ ascii "\"")))
    unlessAborted

/-- The loop of `type` over an array of names; `none` when one matches, else the names. -/
def typeAmong (names : Bytes) : List Pjson → Validate (Option Bytes)
  | [] => pure (some names)
  | e :: es => do
    charge c.scene 1
    if e.isString then
      let names := (if names = [] then names else names ++ ascii ", ") ++ strOf e
      if typeMatches c.value (strOf e) then pure none else typeAmong names es
    else typeAmong names es

/-- `type`. -/
def checkType : Validate Unit :=
  withNode (c.validationKeyword "type") fun t =>
    match t.value with
    | .jsonString name =>
        onlyIf (typeMatches c.value name = false)
          (report S c.schema .TypeMismatch c.scene "type"
            (ascii "expected type " ++ name ++ ascii ", got " ++ typeName c.value))
    | .jsonArray names => do
      let failed ← typeAmong c [] names
      match failed with
      | none => pure ()
      | some names =>
          report S c.schema .TypeMismatch c.scene "type"
            (ascii "expected one of type [" ++ names ++ ascii "], got " ++ typeName c.value)
    | _ => pure ()

/-- `const`. -/
def checkConst : Validate Unit :=
  withNode (c.validationKeyword "const") fun cst => do
    let equal ← equalWithBudget S.enumeration c.scene c.value cst.value
    onlyIf (equal = false)
      (report S c.schema .ConstMismatch c.scene "const" (ascii "value does not equal the required const"))

/-- Whether a value equals one of a list. -/
def equalsAny (scene : Scene) (v : Pjson) : List Pjson → Validate Bool
  | [] => pure false
  | x :: xs => do
    let equal ← equalWithBudget S.enumeration scene v x
    if equal then pure true else equalsAny scene v xs

/-- `enum`. -/
def checkEnum : Validate Unit :=
  withNode (c.validationKeyword "enum") fun en =>
    match en.value with
    | .jsonArray allowed => do
      let found ← equalsAny S c.scene c.value allowed
      onlyIf (found = false)
        (report S c.schema .EnumMismatch c.scene "enum" (ascii "value is not in the allowed enum"))
    | _ => pure ()

/-! ## Numbers -/

/-- A bound on a number: the orders that break it, and the text between the two numbers. -/
def checkBound (keyword : String) (breaks : Int → Bool) (relation : String) : Validate Unit :=
  withNode (c.validationKeyword keyword) fun m =>
    match c.value.tryCompareNumber m.value with
    | none => pure ()
    | some order => onlyIf (breaks order = true) do
        let value ← formatNumber S c.value
        let bound ← formatNumber S m.value
        report S c.schema .NumericConstraint c.scene keyword
          (ascii "value " ++ value ++ ascii relation ++ bound)

def checkMinimum : Validate Unit := checkBound S c "minimum" (· < 0) " is below minimum "

def checkMaximum : Validate Unit := checkBound S c "maximum" (0 < ·) " is above maximum "

def checkExclusiveMinimum : Validate Unit :=
  checkBound S c "exclusiveMinimum" (· ≤ 0) " is not greater than exclusiveMinimum "

def checkExclusiveMaximum : Validate Unit :=
  checkBound S c "exclusiveMaximum" (0 ≤ ·) " is not less than exclusiveMaximum "

/-- `multipleOf`. -/
def checkMultipleOf : Validate Unit :=
  withNode (c.validationKeyword "multipleOf") fun m =>
    onlyIf (m.value.isNumber = true) do
      let multiple ← lift (isExactMultiple S.d2s c.value m.value)
      onlyIf (multiple = false) do
        let value ← formatNumber S c.value
        let divisor ← formatNumber S m.value
        report S c.schema .NumericConstraint c.scene "multipleOf"
          (ascii "value " ++ value ++ ascii " is not a multiple of " ++ divisor)

def checkNumber : Validate Unit :=
  onlyIf (c.value.isNumber = true) do
    checkMinimum S c
    checkMaximum S c
    checkExclusiveMinimum S c
    checkExclusiveMaximum S c
    checkMultipleOf S c

/-! ## Sizes -/

/-- A bound on a size: what breaks it, and the texts around the size. -/
def checkSize (keyword : String) (code : SchemaError.Code) (size : Nat)
    (breaks : Nat → SchemaSize → Bool) (front back : String) : Validate Unit :=
  withNode (c.validationKeyword keyword) fun m =>
    onlyIf (((schemaSize m.value).map (breaks size)).getD false = true) do
      let bound ← formatNumber S m.value
      report S c.schema code c.scene keyword (ascii front ++ numeral size ++ ascii back ++ bound)

def checkMinLength (length : Nat) : Validate Unit :=
  checkSize S c "minLength" .StringConstraint length SchemaSize.exceeds "string length "
    " is below minLength "

def checkMaxLength (length : Nat) : Validate Unit :=
  checkSize S c "maxLength" .StringConstraint length SchemaSize.isBelow "string length "
    " is above maxLength "

def checkMinItems : Validate Unit :=
  checkSize S c "minItems" .ArrayConstraint c.value.size SchemaSize.exceeds "array has "
    " items, below minItems "

def checkMaxItems : Validate Unit :=
  checkSize S c "maxItems" .ArrayConstraint c.value.size SchemaSize.isBelow "array has "
    " items, above maxItems "

def checkMinProperties : Validate Unit :=
  checkSize S c "minProperties" .ObjectConstraint c.value.size SchemaSize.exceeds "object has "
    " properties, below minProperties "

def checkMaxProperties : Validate Unit :=
  checkSize S c "maxProperties" .ObjectConstraint c.value.size SchemaSize.isBelow "object has "
    " properties, above maxProperties "

/-! ## Strings -/

/-- The loop of `unicodeLength`, with the bytes of the current character still to skip. -/
def unicodeLengthFrom (scene : Scene) : Nat → Nat → Bytes → Validate Nat
  | _, count, [] => pure count
  | skip + 1, count, _ :: rest => unicodeLengthFrom scene skip count rest
  | 0, count, b :: rest => do
    let consumed := max 1 (SchemaDetail.utf8Len (b :: rest))
    charge scene consumed
    unicodeLengthFrom scene (consumed - 1) (count + 1) rest

/-- `unicodeLength`. -/
def unicodeLength (scene : Scene) (value : Bytes) : Validate Nat := unicodeLengthFrom scene 0 0 value

/-- `pattern`. -/
def checkPattern (s : Bytes) : Validate Unit :=
  withNode (c.validationKeyword "pattern") fun p =>
    match p.value with
    | .jsonString pattern => do
      let found ← evaluateRegex S s pattern c.scene c.schema "pattern"
      onlyIf (found = some false)
        (report S c.schema .StringConstraint c.scene "pattern"
          (ascii "string does not match pattern /" ++ pattern ++ ascii "/"))
    | _ => pure ()

/-- `format`. -/
def checkFormat (s : Bytes) : Validate Unit :=
  onlyIf (c.policy.assertFormats = true)
    (withNode (c.schema.find (ascii "format")) fun format =>
      match format.value with
      | .jsonString name =>
          onlyIf (S.formats name s = some false)
            (report S c.schema .FormatMismatch c.scene "format"
              (ascii "string is not a valid " ++ name ++ ascii " format"))
      | _ => pure ())

def checkString : Validate Unit :=
  match c.value with
  | .jsonString s => do
    let length ← unicodeLength c.scene s
    checkMinLength S c length
    checkMaxLength S c length
    checkPattern S c s
    checkFormat S c s
  | _ => pure ()

/-! ## Arrays and objects -/

/-- Whether two of the items are equal. -/
def hasDuplicate (scene : Scene) : List Pjson → Validate Bool
  | [] => pure false
  | x :: xs => do
    let dup ← equalsAny S scene x xs
    if dup then pure true else hasDuplicate scene xs

/-- `uniqueItems`. -/
def checkUniqueItems : Validate Unit :=
  withNode (c.validationKeyword "uniqueItems") fun u =>
    onlyIf (u.value.isBool = true ∧ boolOf u.value = true) do
      let dup ← hasDuplicate S c.scene c.value.elements
      onlyIf (dup = true)
        (report S c.schema .ArrayConstraint c.scene "uniqueItems" (ascii "array items are not unique"))

/-- One required key, of `required` and of the two kinds of dependency. -/
def requireKey (keyword : String) (message : Bytes → Bytes) (k : Pjson) : Validate Unit := do
  charge c.scene 1
  onlyIf (k.isString = true ∧ c.value.hasKey (strOf k) = false)
    (report S c.schema .ObjectConstraint c.scene keyword (message (strOf k)))

/-- `required`. -/
def checkRequired : Validate Unit :=
  withNode (c.validationKeyword "required") fun req =>
    match req.value with
    | .jsonArray keys =>
        forEach keys (requireKey S c "required" fun k =>
          ascii "missing required property \"" ++ k ++ ascii "\"")
    | _ => pure ()

/-- The message of a dependency. -/
def dependencyMessage (key required : Bytes) : Bytes :=
  ascii "property \"" ++ key ++ ascii "\" requires property \"" ++ required ++ ascii "\""

/-- `dependentRequired`. -/
def checkDependentRequired : Validate Unit :=
  withNode (c.validationKeyword "dependentRequired") fun dependentRequired =>
    onlyIf (dependentRequired.value.isObject = true)
      (forEach (dependentRequired.value.keys S.enumeration) fun key => do
        charge c.scene 1
        match dependentRequired.find key with
        | some ⟨_, _, .jsonArray list⟩ =>
            onlyIf (c.value.hasKey key = true)
              (forEach list (requireKey S c "dependentRequired" (dependencyMessage key)))
        | _ => pure ())

end Validate

end ByteDance
