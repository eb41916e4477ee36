/-
  `validateCtx`: references, applicators and the recursion of the evaluator.

  The source is one function; here each keyword is one, in the order in which the source has them,
  and `validateCtx` runs them.  They take the recursive call as an argument.  Every call and every
  hop along a reference adds a level of depth, so a bound on the recursion that exceeds the depth
  limit is never reached.
-/
import Pjson.Schema.Keywords

namespace ByteDance

open Decimal Validate

/-- A call of `validateCtx`: the node with its path, a schema, and the resource it is in where the
    caller names one. -/
abbrev Recurse :=
  Scene → NodePtr → Option NodePtr → Bytes → Validate (Bool × SchemaAnnotations)

/-- The schema a call has reached, with its resource and its dialect. -/
structure Site where
  schema : NodePtr
  resourceRoot : NodePtr
  baseUri : Bytes
  policy : DialectPolicy

/-- The site of a target. -/
def SchemaTarget.site (t : SchemaTarget) : Site := ⟨t.schema, t.resourceRoot, t.baseUri, t.policy⟩

/-- The state a run starts in, with the errors the caller's vector holds. -/
def Moment.initial (publicErrors : List SchemaError) : Moment where
  ctx := { publicErrors, publicErrorStart := publicErrors.length }
  errors := .ofMode .Public

namespace Validate

variable (S : Session)

/-! ## References -/

/-- `if (ctx.refResolutions >= validationRefLimit(ctx.options)) …; ++ctx.refResolutions;`. -/
def countReference (scene : Scene) (message : Bytes) : Validate Unit := do
  let full ← inspect fun o m => decide (validationRefLimit o ≤ m.ctx.refResolutions)
  if full then do
    failValidationBudget scene message
    exit .returned
  else update fun _ m => { m with ctx := { m.ctx with refResolutions := m.ctx.refResolutions + 1 } }

/-- Fails unless there is room for one more level. -/
def checkDepth (scene : Scene) : Validate Unit := do
  let full ← inspect fun o m => decide (validationDepthLimit o ≤ m.ctx.depth)
  if full then do
    failValidationBudget scene (ascii "schema validation depth budget exceeded")
    exit .returned
  else pure ()

/-- Resolves a reference, or reports why it cannot. -/
def resolveReference (scene : Scene) (site : Site) (keyword : String) (reference : Bytes) :
    Validate SchemaTarget :=
  match resolveSchemaReference reference site.baseUri S.compiled with
  | .ok target => pure target
  | .error message => do
    report S site.schema .ReferenceFailure scene keyword message
    exit .returned

/-- Puts the node and the referenced schema on the stack of active references, unless they are on
    it already. -/
def activate (scene : Scene) (site : Site) (keyword : String) (target : SchemaTarget)
    (message : Bytes) : Validate Unit := do
  let active := (scene.node.address, target.schema.address)
  let cycle ← inspect fun _ m => decide (active ∈ m.ctx.activeRefs)
  if cycle then do
    report S site.schema .ReferenceCycle scene keyword message
    exit .returned
  else update fun _ m => { m with ctx := { m.ctx with activeRefs := m.ctx.activeRefs ++ [active] } }

/-- The text of a reference or anchor keyword, where it is a string. -/
def referenceText (schema : NodePtr) (keyword : String) : Option Bytes :=
  match schema.find (ascii keyword) with
  | some ⟨_, _, .jsonString text⟩ => some text
  | _ => none

/-- What `$ref` and `$dynamicRef` have in common: the resolution is counted, the reference resolved,
    and the target, as `select` settles it, put on the stack of active references. -/
def enterReference (scene : Scene) (site : Site) (keyword : String) (text : Bytes)
    (select : SchemaTarget → Validate SchemaTarget) (cycle : String) : Validate SchemaTarget := do
  countReference scene (ascii "schema " ++ ascii keyword ++ ascii " resolution budget exceeded")
  let resolved ← resolveReference S scene site keyword text
  let target ← select resolved
  activate S scene site keyword target (ascii cycle ++ text)
  pure target

/-- The loop over consecutive static references; `none` is `return true`. -/
def followReferences (scene : Scene) : Nat → Site → Validate (Option Site)
  | 0, _ => exit .outOfFuel
  | fuel + 1, site =>
    match site.schema.value with
    | .jsonBoolean true => pure none
    | .jsonBoolean false => do
      report S site.schema .FalseSchema scene "" (ascii "schema is false; no value is valid here")
      exit .returned
    | .jsonObject _ =>
      match referenceText site.schema "$ref" with
      | none => pure (some site)
      | some refText =>
        if site.policy.refSiblings then pure (some site)
        else do
          let resolved ← enterReference S scene site "$ref" refText pure
            "schema reference cycle detected: "
          charge scene 1
          checkDepth scene
          update fun _ => Moment.descend
          followReferences scene fuel resolved.site
    | _ => pure none

/-- Evaluates the target of a reference, and takes over its annotations. -/
def applyReference (rec : Recurse) (scene : Scene) (target : SchemaTarget) : Validate Unit := do
  let result ← rec scene target.schema (some target.resourceRoot) target.baseUri
  annotateIf result
  unlessAborted

/-- `$ref` beside other keywords. -/
def evaluateRef (rec : Recurse) (scene : Scene) (site : Site) : Validate Unit :=
  match (if site.policy.refSiblings then referenceText site.schema "$ref" else none) with
  | none => pure ()
  | some refText => do
    let target ← enterReference S scene site "$ref" refText pure "schema reference cycle detected: "
    applyReference rec scene target

/-- The target of a dynamic reference: the outermost resource of the dynamic scope that declares
    the anchor replaces a static target that declares it. -/
def dynamicTarget (fragment : Bytes) (resolved : SchemaTarget) (scope : List SchemaTarget) :
    SchemaTarget :=
  if fragment ≠ [] ∧ fragment.head? ≠ some 0x2F ∧
      referenceText resolved.schema "$dynamicAnchor" = some fragment then
    (scope.findSome? fun s => Assoc.find (s.baseUri ++ 0x23 :: fragment) S.compiled.dynamicAnchors).getD
      resolved
  else resolved

/-- `$dynamicRef`. -/
def evaluateDynamicRef (rec : Recurse) (scene : Scene) (site : Site) : Validate Unit :=
  match referenceText site.schema "$dynamicRef" with
  | none => pure ()
  | some refText => do
    let fragment := (splitReference (resolveUri site.baseUri refText)).2
    let target ← enterReference S scene site "$dynamicRef" refText
      (fun resolved => inspect fun _ m => dynamicTarget S fragment resolved m.ctx.dynamicScope)
      "schema dynamic-reference cycle detected: "
    applyReference rec scene target

/-! ## Items -/

variable (rec : Recurse) (c : Current)

/-- A schema applied where the caller names no resource. -/
def apply (scene : Scene) (schema : NodePtr) : Validate (Bool × SchemaAnnotations) :=
  rec scene schema none []

/-- Applies a schema to an item. -/
def applyToItem (i : Nat) (schema : NodePtr) (elem : NodePtr) : Validate (Bool × SchemaAnnotations) :=
  apply rec (c.scene.childAt (numeral i) elem) schema

/-- Applies a schema to a member. -/
def applyToMember (key : Bytes) (schema : NodePtr) (member : NodePtr) :
    Validate (Bool × SchemaAnnotations) := apply rec (c.scene.childAt key member) schema

/-- A loop that stops when the run is aborted. -/
def forEachLive {β : Type} : List β → (β → Validate Unit) → Validate Unit
  | [], _ => pure ()
  | b :: bs, m => do
    let stop ← aborted
    if stop then pure ()
    else do
      m b
      forEachLive bs m

/-- The item of `items` or `prefixItems` at an index, against the schema there. -/
def evaluateItem (schemaAt : Nat → Option NodePtr) (i : Nat) : Validate Unit := do
  charge c.scene 1
  withNode (c.scene.node.findIndex i) fun elem =>
    withNode (schemaAt i) fun sub => do
      annotateItem i
      let _ ← applyToItem rec c i sub elem

/-- How many items `prefixItems` speaks for. -/
def prefixCount (prefixItems : Option NodePtr) : Nat :=
  match prefixItems with
  | some ⟨_, _, .jsonArray subs⟩ => min c.value.size subs.length
  | _ => 0

/-- `prefixItems` and `items`, the latter also in its tuple form. -/
def evaluateItems : Validate Unit := do
  let items := c.applicatorKeyword "items"
  let prefixItems := c.applicatorKeyword "prefixItems"
  let count := prefixCount c prefixItems
  withNode prefixItems fun prefixItems =>
    forEachLive (List.range count) (evaluateItem rec c prefixItems.findIndex)
  withNode items fun items =>
    match items.value, prefixItems with
    | .jsonArray subs, none =>
        forEachLive (List.range (min c.value.size subs.length)) (evaluateItem rec c items.findIndex)
    | _, _ =>
        forEachLive (List.range' count (c.value.size - count)) (evaluateItem rec c fun _ => some items)

/-- The loop of `contains`: how many items match. -/
def countMatches (contains : NodePtr) (matched : Nat) : List Nat → Validate Nat
  | [] => pure matched
  | i :: is => do
    charge c.scene 1
    match c.scene.node.findIndex i with
    | none => countMatches contains matched is
    | some elem => do
      let result ← discarding (applyToItem rec c i contains elem)
      onlyIf (result.1 = true) (annotateItem i)
      unlessAborted
      countMatches contains (if result.1 then matched + 1 else matched) is

/-- The number `minContains` asks for. -/
def minContainsOf (minContains : Option NodePtr) : Nat :=
  match minContains.bind fun m => schemaSize m.value with
  | none => 1
  | some .aboveRange => 2 ^ 64 - 1
  | some (.bound n) => n

/-- `contains`, `minContains` and `maxContains`. -/
def evaluateContains : Validate Unit :=
  withNode (c.applicatorKeyword "contains") fun contains => do
    let stop ← aborted
    let matched ← countMatches rec c contains 0 (if stop then [] else List.range c.value.size)
    let minContains := minContainsOf (c.validationKeyword "minContains")
    onlyIf (matched < minContains)
      (report S c.schema .ArrayConstraint c.scene "contains"
        (ascii "array has " ++ numeral matched ++ ascii " items matching \"contains\", below minContains " ++
          numeral minContains))
    match (c.validationKeyword "maxContains").bind fun m => schemaSize m.value with
    | some (.bound bound) =>
        onlyIf (bound < matched)
          (report S c.schema .ArrayConstraint c.scene "contains"
            (ascii "array has " ++ numeral matched ++
              ascii " items matching \"contains\", above maxContains " ++ numeral bound))
    | _ => pure ()

/-- The constraints on an array. -/
def evaluateArray : Validate Unit :=
  onlyIf (c.value.isArray = true) do
    checkMinItems S c
    checkMaxItems S c
    checkUniqueItems S c
    evaluateItems rec c
    evaluateContains S rec c

/-! ## Members -/

/-- `properties`. -/
def evaluateProperties : Validate Unit :=
  withNode (c.applicatorKeyword "properties") fun props =>
    onlyIf (props.value.isObject = true)
      (forEach (props.value.keys S.enumeration) fun key => do
        charge c.scene 1
        withNode (c.scene.node.find key) fun member =>
          withNode (props.find key) fun sub => do
            annotateProperty key
            let _ ← applyToMember rec c key sub member
        unlessAborted)

/-- One key against one pattern of `patternProperties`; whether it matches. -/
def evaluatePatternKey (pattern : Bytes) (sub : Option NodePtr) (key : Bytes) : Validate Bool := do
  charge c.scene 1
  match c.scene.node.find key with
  | none => pure false
  | some member => do
    let found ← evaluateRegex S key pattern (c.scene.childAt key member) c.schema "patternProperties"
    onlyIf (found = some true) do
      annotateProperty key
      withNode sub fun sub => do
        let _ ← applyToMember rec c key sub member
    unlessAborted
    pure (found = some true)

/-- The keys of a list that match a pattern. -/
def matchedKeys (pattern : Bytes) (sub : Option NodePtr) (matched : List Bytes) :
    List Bytes → Validate (List Bytes)
  | [] => pure matched
  | key :: keys => do
    let found ← evaluatePatternKey S rec c pattern sub key
    matchedKeys pattern sub (if found then key :: matched else matched) keys

/-- The loop of `patternProperties` over its patterns. -/
def matchedByPatterns (patternProps : NodePtr) (matched : List Bytes) :
    List Bytes → Validate (List Bytes)
  | [] => pure matched
  | pattern :: patterns => do
    let matched ← matchedKeys S rec c pattern (patternProps.find pattern) matched
      (c.value.keys S.enumeration)
    matchedByPatterns patternProps matched patterns

/-- `patternProperties`: the keys that match a pattern. -/
def evaluatePatternProperties : Validate (List Bytes) :=
  match c.applicatorKeyword "patternProperties" with
  | none => pure []
  | some patternProps =>
    if patternProps.value.isObject then
      matchedByPatterns S rec c patternProps [] (patternProps.value.keys S.enumeration)
    else pure []

/-- The string `propertyNames` looks at: a node of its own, at the path of the member. -/
def nameScene (scene : Scene) (key : Bytes) : Scene :=
  ⟨⟨.propertyName scene.node.place key, [], .jsonString key⟩, pointerAppend scene.path key⟩

/-- `propertyNames`. -/
def evaluatePropertyNames : Validate Unit :=
  withNode (c.applicatorKeyword "propertyNames") fun propertyNames =>
    forEach (c.value.keys S.enumeration) fun key => do
      charge c.scene 1
      let _ ← apply rec (nameScene c.scene key) propertyNames
      unlessAborted

/-- A schema that applies to the whole node, with its annotations if it accepts. -/
def applyHere (schema : NodePtr) : Validate Bool := do
  let result ← apply rec c.scene schema
  annotateIf result
  unlessAborted
  pure result.1

/-- `dependencies`. -/
def evaluateDependencies : Validate Unit :=
  withNode (c.applicatorKeyword "dependencies") fun dependencies =>
    onlyIf (dependencies.value.isObject = true)
      (forEach (dependencies.value.keys S.enumeration) fun key => do
        charge c.scene 1
        onlyIf (c.value.hasKey key = true)
          (withNode (dependencies.find key) fun dep =>
            match dep.value with
            | .jsonArray list => forEach list (requireKey S c "dependencies" (dependencyMessage key))
            | _ => do let _ ← applyHere rec c dep))

/-- A member that neither `properties` nor a pattern speaks for. -/
def evaluateAdditional (addl : NodePtr) (key : Bytes) (member : NodePtr) : Validate Unit := do
  annotateProperty key
  match addl.value with
  | .jsonBoolean true => pure ()
  | .jsonBoolean false =>
      report S c.schema .ObjectConstraint (c.scene.childAt key member) "additionalProperties"
        (ascii "additional property \"" ++ key ++ ascii "\" is not allowed")
  | _ => do let _ ← applyToMember rec c key addl member
  unlessAborted

/-- `additionalProperties`. -/
def evaluateAdditionalProperties (patternMatched : List Bytes) : Validate Unit :=
  withNode (c.applicatorKeyword "additionalProperties") fun addl =>
    forEach (c.value.keys S.enumeration) fun key => do
      charge c.scene 1
      let declared := ((c.applicatorKeyword "properties").map fun props => props.value.hasKey key).getD false
      onlyIf (declared = false ∧ key ∉ patternMatched)
        (withNode (c.scene.node.find key) (evaluateAdditional S rec c addl key))

/-- `dependentSchemas`. -/
def evaluateDependentSchemas : Validate Unit :=
  withNode (c.applicatorKeyword "dependentSchemas") fun dependentSchemas =>
    onlyIf (dependentSchemas.value.isObject = true)
      (forEach (dependentSchemas.value.keys S.enumeration) fun key => do
        charge c.scene 1
        onlyIf (c.value.hasKey key = true)
          (withNode (dependentSchemas.find key) fun dep => do let _ ← applyHere rec c dep))

/-- The constraints on an object. -/
def evaluateObject : Validate Unit :=
  onlyIf (c.value.isObject = true) do
    checkRequired S c
    checkMinProperties S c
    checkMaxProperties S c
    evaluateProperties S rec c
    let patternMatched ← evaluatePatternProperties S rec c
    evaluatePropertyNames S rec c
    checkDependentRequired S c
    evaluateDependencies S rec c
    evaluateAdditionalProperties S rec c patternMatched
    evaluateDependentSchemas S rec c

/-! ## Combinators -/

/-- `if`, `then` and `else`. -/
def evaluateIf : Validate Unit :=
  withNode (c.applicatorKeyword "if") fun ifSchema => do
    let conditional ← discarding (apply rec c.scene ifSchema)
    unlessAborted
    annotateIf conditional
    withNode (c.applicatorKeyword (if conditional.1 then "then" else "else")) fun branch => do
      let _ ← applyHere rec c branch

/-- `allOf`. -/
def evaluateAllOf : Validate Unit :=
  withNode (c.applicatorKeyword "allOf") fun allOf =>
    forEach (List.range allOf.value.elements.length) fun i => do
      charge c.scene 1
      withNode (allOf.findIndex i) fun sub => do let _ ← applyHere rec c sub

/-- The branches of a group. -/
def branchesOf (combinator : NodePtr) : List NodePtr :=
  (List.range combinator.value.elements.length).filterMap combinator.findIndex

/-- The error of a group that fails. -/
def combinatorError (keyword : String) (message : Bytes) : SchemaError :=
  S.validationError c.schema .CombinatorMismatch c.scene (ascii keyword) message

/-- How `anyOf` is settled. -/
def settleAnyOf (collect : Bool) (results : List (Bool × SchemaAnnotations)) : Settlement :=
  if results.any Prod.fst then ⟨none, .givenBack⟩
  else
    ⟨some (combinatorError S c "anyOf" (ascii "value does not match any schema in anyOf")),
      if collect then .kept else .dropped⟩

/-- `anyOf`. -/
def evaluateAnyOf : Validate Unit :=
  withNode (c.applicatorKeyword "anyOf") fun anyOf =>
    onlyIf (anyOf.value.isArray = true) do
      let _ ← group (charge c.scene 1)
        ((branchesOf anyOf).map fun sub => do
          let result ← apply rec c.scene sub
          annotateIf result
          pure result)
        (settleAnyOf S c)

/-- How `oneOf` is settled. -/
def settleOneOf (collect : Bool) (results : List (Bool × SchemaAnnotations)) : Settlement :=
  let matched := results.countP Prod.fst
  if matched = 1 then ⟨none, .givenBack⟩
  else
    ⟨some (combinatorError S c "oneOf" (ascii "value matched " ++ numeral matched ++
      ascii " schemas in oneOf (exactly 1 required)")),
      if collect && matched == 0 then .kept else .givenBack⟩

/-- `oneOf`. -/
def evaluateOneOf : Validate Unit :=
  withNode (c.applicatorKeyword "oneOf") fun oneOf =>
    onlyIf (oneOf.value.isArray = true) do
      let results ← group (charge c.scene 1) ((branchesOf oneOf).map (apply rec c.scene))
        (settleOneOf S c)
      match results.filter Prod.fst with
      | [matching] => annotate fun a => a.merge matching.2
      | _ => pure ()

/-- `not`. -/
def evaluateNot : Validate Unit :=
  withNode (c.applicatorKeyword "not") fun nots =>
    onlyIf (nots.value.isBool = true ∨ nots.value.isObject = true) do
      let result ← discarding (apply rec c.scene nots)
      onlyIf (result.1 = true)
        (report S c.schema .CombinatorMismatch c.scene "not"
          (ascii "value must not match the \"not\" schema"))
      unlessAborted

/-! ## What is left over -/

/-- A member or an item that no keyword has evaluated. -/
def evaluateLeftOver (unevaluated : NodePtr) (code : SchemaError.Code) (keyword : String)
    (message : String) (scene : Scene) : Validate Unit :=
  match unevaluated.value with
  | .jsonBoolean false => report S c.schema code scene keyword (ascii message)
  | _ => do let _ ← apply rec scene unevaluated

/-- `unevaluatedProperties`. -/
def evaluateUnevaluatedProperties : Validate Unit :=
  onlyIf (c.value.isObject = true)
    (withNode (c.unevaluatedKeyword "unevaluatedProperties") fun unevaluated =>
      forEach (c.value.keys S.enumeration) fun key => do
        let seen ← inspect fun _ m => decide (key ∈ m.evaluated.properties)
        onlyIf (seen = false) do
          charge c.scene 1
          withNode (c.scene.node.find key) fun member =>
            evaluateLeftOver S rec c unevaluated .ObjectConstraint "unevaluatedProperties"
              "unevaluated property is not allowed" (c.scene.childAt key member)
          annotateProperty key
          unlessAborted)

/-- `unevaluatedItems`. -/
def evaluateUnevaluatedItems : Validate Unit :=
  onlyIf (c.value.isArray = true)
    (withNode (c.unevaluatedKeyword "unevaluatedItems") fun unevaluated =>
      forEach (List.range c.value.size) fun i => do
        let seen ← inspect fun _ m => decide (i ∈ m.evaluated.items)
        onlyIf (seen = false) do
          charge c.scene 1
          withNode (c.scene.node.findIndex i) fun item =>
            evaluateLeftOver S rec c unevaluated .ArrayConstraint "unevaluatedItems"
              "unevaluated item is not allowed" (c.scene.childAt (numeral i) item)
          annotateItem i
          unlessAborted)

/-! ## The evaluator -/

/-- The keywords of a schema object, in the order in which they are evaluated. -/
def evaluateKeywords : Validate Unit := do
  checkStrictSubset S c
  checkType S c
  checkConst S c
  checkEnum S c
  checkNumber S c
  checkString S c
  evaluateArray S rec c
  evaluateObject S rec c
  evaluateIf rec c
  evaluateAllOf rec c
  evaluateAnyOf S rec c
  evaluateOneOf S rec c
  evaluateNot S rec c
  evaluateUnevaluatedProperties S rec c
  evaluateUnevaluatedItems S rec c

/-- The site a call begins at. -/
def initialSite (o : Options) (schema : NodePtr) (resourceRoot : Option NodePtr) (baseUri : Bytes) :
    Site :=
  match Assoc.find schema.address S.compiled.nodeTargets with
  | some target => ⟨schema, target.resourceRoot, target.baseUri, target.policy⟩
  | none =>
    ⟨schema, resourceRoot.getD S.rootSchema, baseUri,
      match Assoc.find (stripFragment baseUri) S.compiled.resources with
      | some resource => resource.policy
      | none => subsetPolicy o⟩

/-- A site with what the index knows about its schema. -/
def indexedSite (site : Site) : Site :=
  match Assoc.find site.schema.address S.compiled.nodeTargets with
  | some target => ⟨site.schema, target.resourceRoot, target.baseUri, target.policy⟩
  | none => site

/-- `DynamicScopeGuard::pushResource`. -/
def pushResource (site : Site) : Validate Unit := update fun _ m =>
  let target : SchemaTarget := ⟨site.resourceRoot, site.resourceRoot, site.baseUri, [], site.policy⟩
  let isLast := m.ctx.dynamicScope.getLast?.any fun last =>
    last.baseUri = target.baseUri && last.resourceRoot.address = target.resourceRoot.address
  if isLast then m
  else { m with ctx := { m.ctx with dynamicScope := m.ctx.dynamicScope ++ [target] } }

/-- The rest of a call, from behind the loop over static references. -/
def evaluateSite (scene : Scene) (site : Site) : Validate Bool := do
  let before ← inspect fun _ m => m.errors.failures
  pushResource site
  evaluateRef S rec scene site
  evaluateDynamicRef S rec scene site
  evaluateKeywords S rec ⟨scene, site.schema, site.policy⟩
  inspect fun _ m => !m.ctx.aborted && m.errors.failures == before

/-- The body of a call, between its guards. -/
def evaluateSchema (fuel : Nat) (scene : Scene) (schema : NodePtr) (resourceRoot : Option NodePtr)
    (baseUri : Bytes) : Validate Bool := do
  let site ← option fun o => initialSite S o schema resourceRoot baseUri
  let reached ← followReferences S scene fuel site
  match reached with
  | none => pure true
  | some site => evaluateSite S rec scene (indexedSite S site)

/-- `validateCtx`. -/
def validateCtx : Nat → Recurse
  | 0 => fun _ _ _ _ => exit .outOfFuel
  | fuel + 1 => fun scene schema resourceRoot baseUri => call do
    unlessAborted
    charge scene 1
    checkDepth scene
    guarded (evaluateSchema S (validateCtx fuel) fuel scene schema resourceRoot baseUri)

/-- A recursion bound beyond every depth. -/
def validationFuel : Nat := kSchemaValidationDepthHardLimit + 1

/-- The instance as a whole. -/
def rootScene (instance' : Pjson) : Scene := ⟨⟨.validated, [], instance'⟩, []⟩

/-- The run of `runValidation`, up to its handlers. -/
def run (o : Options) (instance' : Pjson) (publicErrors : List SchemaError) :
    EStateM.Result Exit Progress (Bool × SchemaAnnotations) :=
  validateCtx S validationFuel (rootScene instance') S.rootSchema none [] o { now := .initial publicErrors }

end Validate

/-- The diagnostic of an exception that is contained. -/
def internalError : SchemaError where
  code := .InternalError
  instanceLocation := []
  schemaLocation := []
  keyword := []
  message := ascii "schema validation failed with an internal exception"
  subject := (.validated, [])

/-- `runValidation`: the verdict and the errors; `none` where the behaviour is undefined. -/
def runValidation (S : Session) (o : Options) (instance' : Pjson) (publicErrors : List SchemaError) :
    Option (Bool × List SchemaError) :=
  match Validate.run S o instance' publicErrors with
  | .ok (valid, _) t => some (valid, t.now.ctx.publicErrors)
  | .error .budgetExceeded t => some (false, t.now.ctx.publicErrors)
  | .error (.stopped (.threw _)) t => some (false, t.now.ctx.publicErrors ++ [internalError])
  | .error _ _ => none

/-- The session of a schema without references, patterns and formats. -/
def Session.ofSchema (schema : Pjson) : Session where
  compiled := ⟨[], [], [], []⟩
  rootSchema := ⟨.schema, [], schema⟩
  enumeration := .asListed
  engine := ⟨fun _ => false, fun _ _ => .NoMatch⟩
  d2s _ := []
  formats _ _ := none

end ByteDance
