/-
  The compiled index of a schema, and the two functions that look a reference up in it.

  The validator compares nodes by address, so a `const pjson*` is a `NodePtr`: the tree it points
  into, the place there, and the value found at that place.  `resolveCompiledTarget` resolves a
  reference while the schema is compiled, `resolveSchemaReference` while an instance is validated.
  They are written separately; `resolve_agree` says that they find the same targets.
-/
import Pjson.Pointer.Find
import Pjson.Schema.Uri

namespace ByteDance

/-! ## Nodes -/

/-- The trees a validator reads. -/
inductive Tree where
  /-- The instance. -/
  | validated
  /-- The value that `propertyNames` makes of the key of a member of the object at `owner`. -/
  | propertyName (owner : Location) (key : Bytes)
  /-- The schema the validator is built from. -/
  | schema
  /-- A document of `CompiledSchemaIndex::documents`. -/
  | document (index : Nat)
  /-- A document of `CompiledSchemaIndex::dialectDocuments`. -/
  | dialectDocument (index : Nat)
  deriving DecidableEq

/-- What two pointers are compared by. -/
abbrev Address := Tree × Location

/-- `const pjson*`. -/
structure NodePtr where
  tree : Tree
  place : Location
  value : Pjson

namespace NodePtr

def address (p : NodePtr) : Address := (p.tree, p.place)

/-- The child a step leads to. -/
def child (p : NodePtr) (step : Step) : Option NodePtr :=
  (p.value.child step).map fun value => ⟨p.tree, p.place ++ [step], value⟩

/-- `pjson::find`. -/
def find (p : NodePtr) (key : Bytes) : Option NodePtr := p.child (.member key)

/-- `pjson::findIndex`. -/
def findIndex (p : NodePtr) (index : Nat) : Option NodePtr := p.child (.element index)

end NodePtr

/-! ## Options, dialects and diagnostics -/

/-- `pJsonSchemaValidator::Options`, without the resolver and its context. -/
structure Options where
  maxRegexPatternBytes : UInt64 := 256
  maxRegexSubjectBytes : UInt64 := 4096
  allowUnsafeRegex : Bool := false
  maxValidationDepth : UInt64 := 32
  maxRefResolutions : UInt64 := 1024
  maxValidationWork : UInt64 := 1000000
  maxErrors : UInt64 := 100
  stopAfterFirstError : Bool := false
  collectNestedCauses : Bool := false
  validateFormats : Bool := true
  strictSubset : Bool := false
  refSiblings : Bool := false

/-- `Vocabulary`. -/
inductive Vocabulary where
  | VCore | VApplicator | VUnevaluated | VValidation | VMetadata | VFormatAnnotation
  | VFormatAssertion | VContent

namespace Vocabulary

def mask : Vocabulary → UInt32
  | VCore => 1
  | VApplicator => 2
  | VUnevaluated => 4
  | VValidation => 8
  | VMetadata => 16
  | VFormatAnnotation => 32
  | VFormatAssertion => 64
  | VContent => 128

end Vocabulary

/-- `DialectPolicy`. -/
structure DialectPolicy where
  vocabularies : UInt32 := 0
  refSiblings : Bool := false
  assertFormats : Bool := false

/-- `hasVocabulary`. -/
def hasVocabulary (policy : DialectPolicy) (vocabulary : Vocabulary) : Bool :=
  policy.vocabularies &&& vocabulary.mask ≠ 0

/-- `subsetPolicy`. -/
def subsetPolicy (options : Options) : DialectPolicy where
  vocabularies := 255
  refSiblings := options.refSiblings
  assertFormats := options.validateFormats

inductive SchemaError.Code where
  | None | FalseSchema | TypeMismatch | ConstMismatch | EnumMismatch | NumericConstraint
  | StringConstraint | ArrayConstraint | ObjectConstraint | FormatMismatch | CombinatorMismatch
  | ReferenceFailure | ReferenceCycle | RegexFailure | UnsupportedKeyword | InvalidSchema
  | UnsupportedDialect | UnsupportedVocabulary | ResolverFailure | ResourceLimit
  | AllocationFailure | InternalError
  deriving DecidableEq

inductive SchemaError.Category where
  | SchemaCompilation | InstanceValidation
  deriving DecidableEq

/-- `pJsonSchemaValidator::Error`.  The source has no `subject`: it records the node that the error
    is about, beside the path that names it. -/
structure SchemaError where
  code : SchemaError.Code
  category : SchemaError.Category := .InstanceValidation
  instanceLocation : Bytes
  schemaLocation : Bytes
  keyword : Bytes
  message : Bytes
  causes : List SchemaError := []
  subject : Address

/-! ## The index -/

/-- `SchemaResource`. -/
structure SchemaResource where
  root : NodePtr
  baseUri : Bytes
  policy : DialectPolicy

/-- `SchemaTarget`. -/
structure SchemaTarget where
  schema : NodePtr
  resourceRoot : NodePtr
  baseUri : Bytes
  location : Bytes
  policy : DialectPolicy

/-- What validation reads of `CompiledSchemaIndex`. -/
structure CompiledSchemaIndex where
  resources : List (Bytes × SchemaResource)
  anchors : List (Bytes × SchemaTarget)
  dynamicAnchors : List (Bytes × SchemaTarget)
  nodeTargets : List (Address × SchemaTarget)

/-- The target at a node: the compiled one, or the node in the resource it was found through. -/
def CompiledSchemaIndex.targetAt (index : CompiledSchemaIndex) (resource : SchemaResource)
    (document fragment : Bytes) (selected : NodePtr) : SchemaTarget :=
  (Assoc.find selected.address index.nodeTargets).getD
    { schema := selected, resourceRoot := resource.root, baseUri := resource.baseUri,
      location := absoluteSchemaLocation document fragment, policy := resource.policy }

/-- `root->findPointer`, as a pointer. -/
def NodePtr.findPointer (root : NodePtr) (pointer : Bytes) : Option NodePtr :=
  match root.value.findPointer pointer with
  | .ok loc => (root.value.get loc).map fun value => ⟨root.tree, root.place ++ loc, value⟩
  | .error _ => none

/-- The document part of a reference, or that of its base. -/
def documentOr (baseUri document : Bytes) : Bytes :=
  if document = [] then stripFragment baseUri else document

/-- `resolveCompiledTarget`; `none` is `return false`. -/
def resolveCompiledTarget (reference baseUri : Bytes) (index : CompiledSchemaIndex) :
    Option SchemaTarget :=
  let (document, fragment) := splitReference (resolveUri baseUri reference)
  let document := documentOr baseUri document
  match Assoc.find document index.resources with
  | none => none
  | some resource =>
    if fragment = [] then
      some ⟨resource.root, resource.root, resource.baseUri, absoluteSchemaLocation document [],
        resource.policy⟩
    else
      match percentDecodeFragment fragment with
      | none => none
      | some decoded =>
        if decoded.head? ≠ some 0x2F then Assoc.find (document ++ 0x23 :: decoded) index.anchors
        else
          match resource.root.findPointer decoded with
          | none => none
          | some selected => some (index.targetAt resource document decoded selected)

/-- `resolveSchemaReference`: the target, or the message of the failure. -/
def resolveSchemaReference (reference baseUri : Bytes) (index : CompiledSchemaIndex) :
    Except Bytes SchemaTarget :=
  let absolute := resolveUri baseUri reference
  let (document, fragment) := splitReference absolute
  match percentDecodeFragment fragment with
  | none => .error (ascii "malformed schema reference: " ++ reference)
  | some decodedFragment =>
    let document := documentOr baseUri document
    match Assoc.find document index.resources with
    | none => .error (ascii "unresolved compiled schema resource: " ++ document)
    | some resource =>
      if fragment = [] then
        .ok ⟨resource.root, resource.root, resource.baseUri, absoluteSchemaLocation document [],
          resource.policy⟩
      else if decodedFragment.head? ≠ some 0x2F then
        match Assoc.find (document ++ 0x23 :: decodedFragment) index.anchors with
        | none => .error (ascii "unresolved schema anchor: " ++ absolute)
        | some found => .ok found
      else
        match resource.root.findPointer decodedFragment with
        | none => .error (ascii "unresolved schema reference: " ++ reference)
        | some selected => .ok (index.targetAt resource document decodedFragment selected)

/-- **The two resolvers agree.** -/
theorem resolve_agree (reference baseUri : Bytes) (index : CompiledSchemaIndex) :
    (resolveSchemaReference reference baseUri index).toOption =
      resolveCompiledTarget reference baseUri index := by
  rw [resolveSchemaReference, resolveCompiledTarget]
  dsimp only
  by_cases hempty : (splitReference (resolveUri baseUri reference)).2 = []
  · rw [hempty, percentDecodeFragment_nil]
    dsimp only
    cases Assoc.find (documentOr baseUri (splitReference (resolveUri baseUri reference)).1)
      index.resources <;> rfl
  cases hdecode : percentDecodeFragment (splitReference (resolveUri baseUri reference)).2 with
  | none =>
    cases Assoc.find (documentOr baseUri (splitReference (resolveUri baseUri reference)).1)
      index.resources with
    | none => rfl
    | some resource =>
      dsimp only
      rw [if_neg hempty]
      rfl
  | some decoded =>
    dsimp only
    cases Assoc.find (documentOr baseUri (splitReference (resolveUri baseUri reference)).1)
      index.resources with
    | none => rfl
    | some resource =>
      dsimp only
      rw [if_neg hempty, if_neg hempty]
      by_cases hpointer : decoded.head? ≠ some 0x2F
      · rw [if_pos hpointer, if_pos hpointer]
        cases Assoc.find (documentOr baseUri (splitReference (resolveUri baseUri reference)).1 ++
          0x23 :: decoded) index.anchors <;> rfl
      · rw [if_neg hpointer, if_neg hpointer]
        cases resource.root.findPointer decoded <;> rfl

end ByteDance
