/-
  The evaluator is made of steps.

  One lemma for each keyword, in the order of `Keywords` and `Evaluator`; the induction is on the
  recursion bound, and the calls a keyword makes are steps by its hypothesis.
-/
import Pjson.Schema.Steps

namespace ByteDance

open Decimal Validate

/-- A key of the node is the key of a member. -/
theorem exists_member {e : Enumeration} {node : NodePtr} {key : Bytes}
    (h : key ∈ node.value.keys e) : ∃ member, node.find key = some member := by
  cases hv : node.value with
  | jsonObject ms =>
    rw [hv, Pjson.keys, Assoc.keys, List.mem_map] at h
    obtain ⟨m, hm, rfl⟩ := h
    have hkey : m.1 ∈ Assoc.keys ms := List.mem_map.mpr ⟨m, e.mem_order.mp hm, rfl⟩
    obtain ⟨value, hvalue⟩ := Option.isSome_iff_exists.mp (Assoc.find_isSome_iff.mpr hkey)
    refine ⟨⟨node.tree, node.place ++ [.member m.1], value⟩, ?_⟩
    rw [NodePtr.find, NodePtr.child, hv]
    show (Assoc.find m.1 ms).map _ = _
    rw [hvalue]
    rfl
  | _ =>
    rw [hv] at h
    cases h

/-- The site a call begins at depends on the dialect alone. -/
theorem initialSite_congr {S : Session} {o o' : Options} (h : o.SameDialect o') (schema : NodePtr)
    (resourceRoot : Option NodePtr) (baseUri : Bytes) :
    initialSite S o schema resourceRoot baseUri = initialSite S o' schema resourceRoot baseUri := by
  have hpolicy : subsetPolicy o = subsetPolicy o' := by
    rw [subsetPolicy, subsetPolicy, h.refSiblings, h.validateFormats]
  rw [initialSite, initialSite, hpolicy]

namespace Steps

variable {A : Scene → (α : Type) → Validate α → Prop} {d : Bool} {n : Nat}

/-! ## Assertions -/

section Assertions

variable (S : Session) (c : Current)

/-- The text of a number is a value: no budget is charged for it, and no error comes of it. -/
theorem formatNumber {scene : Scene} (v : Pjson) : Steps A d n scene Bytes (Validate.formatNumber S v) :=
  lift _

/-- One charge for each key of the schema; a standard keyword outside the subset is reported under
    its own name. -/
theorem checkStrictSubset : Steps A d n c.scene Unit (Validate.checkStrictSubset S c) := by
  refine seq (.read fun o o' h => h.strictSubset) fun strict => onlyIf fun _ => ?_
  refine seq (forEach _ fun key _ => ?_) fun _ => unlessAborted
  exact seq (charge 1) fun _ => onlyIf fun _ => .push (about_validationError ..)

/-- The loop over the names of `type` is charged for each, and ends at the first that fits. -/
theorem typeAmong (names : Bytes) (es : List Pjson) :
    Steps A d n c.scene (Option Bytes) (Validate.typeAmong c names es) := by
  induction es generalizing names with
  | nil => exact .pure _
  | cons e es ih =>
    refine seq (charge 1) fun _ => ?_
    by_cases he : e.isString = true
    · rw [if_pos he]
      dsimp only
      by_cases hmatch : typeMatches c.value (strOf e) = true
      · rw [if_pos hmatch]
        exact .pure _
      · rw [if_neg hmatch]
        exact ih _
    · rw [if_neg he]
      exact ih _

/-- One error at most, for a single name as for a list that none of fits. -/
theorem checkType : Steps A d n c.scene Unit (Validate.checkType S c) := by
  refine withNode fun t _ => ?_
  cases t.value with
  | jsonString name => exact onlyIf fun _ => report ..
  | jsonArray names =>
    refine seq (typeAmong c [] names) fun failed => ?_
    cases failed with
    | none => exact .pure _
    | some names => exact report ..
  | _ => exact .pure _

/-- The comparison brings its own charges. -/
theorem checkConst : Steps A d n c.scene Unit (Validate.checkConst S c) :=
  withNode fun _ _ => seq (equalWithBudget ..) fun _ => onlyIf fun _ => report ..

/-- The loop over a list of values ends at the first that is equal. -/
theorem equalsAny {scene : Scene} (v : Pjson) (xs : List Pjson) :
    Steps A d n scene Bool (Validate.equalsAny S scene v xs) := by
  induction xs with
  | nil => exact .pure _
  | cons x xs ih =>
    refine seq (equalWithBudget ..) fun equal => ?_
    cases equal with
    | true => exact .pure _
    | false => exact ih

/-- `enum` compares until a value is equal. -/
theorem checkEnum : Steps A d n c.scene Unit (Validate.checkEnum S c) := by
  refine withNode fun en _ => ?_
  cases en.value with
  | jsonArray allowed => exact seq (equalsAny ..) fun _ => onlyIf fun _ => report ..
  | _ => exact .pure _

/-- One lemma for the four bounds of a number: a value that cannot be compared breaks none. -/
theorem checkBound (keyword : String) (breaks : Int → Bool) (relation : String) :
    Steps A d n c.scene Unit (Validate.checkBound S c keyword breaks relation) := by
  refine withNode fun m _ => ?_
  cases c.value.tryCompareNumber m.value with
  | none => exact .pure _
  | some order =>
    refine onlyIf fun _ => ?_
    exact seq (formatNumber ..) fun _ => seq (formatNumber ..) fun _ => report ..

/-- Whether a number is a multiple is a value too; only a number that is none is reported. -/
theorem checkMultipleOf : Steps A d n c.scene Unit (Validate.checkMultipleOf S c) := by
  refine withNode fun m _ => onlyIf fun _ => seq (lift _) fun _ => onlyIf fun _ => ?_
  exact seq (formatNumber ..) fun _ => seq (formatNumber ..) fun _ => report ..

theorem checkNumber : Steps A d n c.scene Unit (Validate.checkNumber S c) := by
  refine onlyIf fun _ => ?_
  refine seq (checkBound ..) fun _ => ?_
  refine seq (checkBound ..) fun _ => ?_
  refine seq (checkBound ..) fun _ => ?_
  exact seq (checkBound ..) fun _ => checkMultipleOf ..

/-- One lemma for the six bounds of a size. -/
theorem checkSize (keyword : String) (code : SchemaError.Code) (size : Nat)
    (breaks : Nat → SchemaSize → Bool) (front back : String) :
    Steps A d n c.scene Unit (Validate.checkSize S c keyword code size breaks front back) :=
  withNode fun _ _ => onlyIf fun _ => seq (formatNumber ..) fun _ => report ..

/-- Each code point is charged with its bytes, when the loop comes to its first; induction on what
    is left of the string. -/
theorem unicodeLengthFrom {scene : Scene} (skip count : Nat) (bytes : Bytes) :
    Steps A d n scene Nat (Validate.unicodeLengthFrom scene skip count bytes) := by
  induction bytes generalizing skip count with
  | nil =>
    rw [Validate.unicodeLengthFrom.eq_def]
    exact .pure _
  | cons b rest ih =>
    cases skip with
    | zero => exact seq (charge _) fun _ => ih _ _
    | succ skip => exact ih _ _

/-- Patterns are evaluated in steps. -/
def EvaluatesPatterns (A : Scene → (α : Type) → Validate α → Prop) (S : Session) : Prop :=
  ∀ (d : Bool) (n : Nat) (subject pattern : Bytes) (scene : Scene) (schema : NodePtr) (keyword : String),
    Steps A d n scene (Option Bool) (Validate.evaluateRegex S subject pattern scene schema keyword)

variable {S}

/-- What the search did not decide is not reported as a mismatch. -/
theorem checkPattern (hregex : EvaluatesPatterns A S) (s : Bytes) :
    Steps A d n c.scene Unit (Validate.checkPattern S c s) := by
  refine withNode fun p _ => ?_
  cases p.value with
  | jsonString pattern => exact seq (hregex ..) fun _ => onlyIf fun _ => report ..
  | _ => exact .pure _

variable (S)

theorem checkFormat (s : Bytes) : Steps A d n c.scene Unit (Validate.checkFormat S c s) := by
  refine onlyIf fun _ => withNode fun format _ => ?_
  cases format.value with
  | jsonString name => exact onlyIf fun _ => report ..
  | _ => exact .pure _

variable {S}

/-- The keywords of strings, in the order of the source. -/
theorem checkString (hregex : EvaluatesPatterns A S) :
    Steps A d n c.scene Unit (Validate.checkString S c) := by
  rw [Validate.checkString]
  cases c.value with
  | jsonString s =>
    refine seq (unicodeLengthFrom 0 0 s) fun length => ?_
    refine seq (checkSize ..) fun _ => ?_
    refine seq (checkSize ..) fun _ => ?_
    exact seq (checkPattern c hregex s) fun _ => checkFormat S c s
  | _ => exact .pure _

variable (S)

/-- Each element is compared with those behind it, up to the first that is equal. -/
theorem hasDuplicate {scene : Scene} (xs : List Pjson) :
    Steps A d n scene Bool (Validate.hasDuplicate S scene xs) := by
  induction xs with
  | nil => exact .pure _
  | cons x xs ih =>
    refine seq (equalsAny ..) fun dup => ?_
    cases dup with
    | true => exact .pure _
    | false => exact ih

theorem checkUniqueItems : Steps A d n c.scene Unit (Validate.checkUniqueItems S c) :=
  withNode fun _ _ => onlyIf fun _ => seq (hasDuplicate ..) fun _ => onlyIf fun _ => report ..

/-- A required key is charged for, and reported at the object it is missing from. -/
theorem requireKey (keyword : String) (message : Bytes → Bytes) (k : Pjson) :
    Steps A d n c.scene Unit (Validate.requireKey S c keyword message k) :=
  seq (charge 1) fun _ => onlyIf fun _ => report ..

theorem checkRequired : Steps A d n c.scene Unit (Validate.checkRequired S c) := by
  refine withNode fun req _ => ?_
  cases req.value with
  | jsonArray keys => exact forEach _ fun k _ => requireKey ..
  | _ => exact .pure _

/-- A dependency is charged for whether or not its key is there. -/
theorem checkDependentRequired : Steps A d n c.scene Unit (Validate.checkDependentRequired S c) := by
  refine withNode fun dependentRequired _ => onlyIf fun _ => forEach _ fun key _ => ?_
  refine seq (charge 1) fun _ => ?_
  split
  · exact onlyIf fun _ => forEach _ fun k _ => requireKey ..
  · exact .pure _

end Assertions

/-! ## References -/

section References

variable (S : Session) {scene : Scene}

/-- A reference is resolved, or the failure reported and the call left. -/
theorem resolveReference (site : Site) (keyword : String) (reference : Bytes) :
    Steps A d n scene SchemaTarget (Validate.resolveReference S scene site keyword reference) := by
  rw [Validate.resolveReference]
  cases resolveSchemaReference reference site.baseUri S.compiled with
  | ok target => exact .pure _
  | error message => exact seq (report ..) fun _ => .exit trivial

/-- The count, the resolution and the entry on the stack of active references, for `$ref` and
    `$dynamicRef` alike. -/
theorem enterReference (site : Site) (keyword : String) (text : Bytes)
    {select : SchemaTarget → Validate SchemaTarget} (cycle : String)
    (hselect : ∀ t, Steps A d n scene SchemaTarget (select t)) :
    Steps A d n scene SchemaTarget (Validate.enterReference S scene site keyword text select cycle) := by
  refine seq (.count _) fun _ => ?_
  refine seq (resolveReference ..) fun resolved => ?_
  refine seq (hselect resolved) fun target => ?_
  exact seq (.activate ..) fun _ => .pure _

/-- Every hop adds a level of depth and takes one off the fuel, so the induction is on the fuel. -/
theorem followReferences (fuel : Nat) (site : Site) :
    Steps A d fuel scene (Option Site) (Validate.followReferences S scene fuel site) := by
  induction fuel generalizing site with
  | zero => exact .outOfFuel
  | succ fuel ih =>
    rw [Validate.followReferences]
    cases site.schema.value with
    | jsonBoolean b =>
      cases b with
      | true => exact .pure _
      | false => exact seq (report ..) fun _ => .exit trivial
    | jsonObject _ =>
      cases referenceText site.schema "$ref" with
      | none => exact .pure _
      | some refText =>
        dsimp only
        by_cases hsiblings : site.policy.refSiblings = true
        · rw [if_pos hsiblings]
          exact .pure _
        · rw [if_neg hsiblings]
          refine seq (enterReference S site _ _ _ fun t => .pure t) fun resolved => ?_
          exact seq (charge 1) fun _ => .descend (ih resolved.site)
    | _ => exact .pure _

variable {S} {rec : Recurse}

/-- The recursive calls are steps. -/
def Calls (A : Scene → (α : Type) → Validate α → Prop) (n : Nat) (rec : Recurse) : Prop :=
  ∀ d scene schema resourceRoot baseUri,
    Steps A d n scene (Bool × SchemaAnnotations) (rec scene schema resourceRoot baseUri)

/-- The target of a reference is evaluated at the very node. -/
theorem applyReference (hrec : Calls A n rec) (target : SchemaTarget) :
    Steps A d n scene Unit (Validate.applyReference rec scene target) :=
  seq (hrec ..) fun _ => seq (annotateIf _) fun _ => unlessAborted

theorem evaluateRef (hrec : Calls A n rec) (site : Site) :
    Steps A d n scene Unit (Validate.evaluateRef S rec scene site) := by
  rw [Validate.evaluateRef]
  cases if site.policy.refSiblings then referenceText site.schema "$ref" else none with
  | none => exact .pure _
  | some refText =>
    exact seq (enterReference S site _ _ _ fun t => .pure t) fun target => applyReference hrec target

/-- The dynamic scope is only looked at; the target is entered as one of `$ref` is. -/
theorem evaluateDynamicRef (hrec : Calls A n rec) (site : Site) :
    Steps A d n scene Unit (Validate.evaluateDynamicRef S rec scene site) := by
  rw [Validate.evaluateDynamicRef]
  cases referenceText site.schema "$dynamicRef" with
  | none => exact .pure _
  | some refText =>
    refine seq (enterReference S site _ _ _ fun t => ?_) fun target => applyReference hrec target
    exact .look fun v => dynamicTarget S _ t v.dynamicScope

end References

/-! ## Applicators -/

section Applicators

variable {S : Session} {rec : Recurse} (hrec : Calls A n rec) (c : Current)

include hrec

/-- A recursive call that names no resource. -/
theorem apply {scene : Scene} (schema : NodePtr) :
    Steps A d n scene (Bool × SchemaAnnotations) (Validate.apply rec scene schema) := hrec ..

/-- An element is one token below the node, and what is reported there is about the node or below.
    -/
theorem applyToItem {i : Nat} (schema : NodePtr) {elem : NodePtr}
    (h : c.scene.node.findIndex i = some elem) :
    Steps A d n c.scene (Bool × SchemaAnnotations) (Validate.applyToItem rec c i schema elem) :=
  child (.element i) h (apply hrec schema)

/-- So is a member. -/
theorem applyToMember {key : Bytes} (schema : NodePtr) {member : NodePtr}
    (h : c.scene.node.find key = some member) :
    Steps A d n c.scene (Bool × SchemaAnnotations) (Validate.applyToMember rec c key schema member) :=
  child (.member key) h (apply hrec schema)

/-- The item is annotated before it is evaluated. -/
theorem evaluateItem (schemaAt : Nat → Option NodePtr) (i : Nat) :
    Steps A d n c.scene Unit (Validate.evaluateItem rec c schemaAt i) := by
  refine seq (charge 1) fun _ => withNode fun elem helem => withNode fun sub _ => ?_
  exact seq (.annotate _) fun _ => seq (applyToItem hrec c sub helem) fun _ => .pure _

/-- Three loops, over the items of `prefixItems`, of the tuple form and of the rest. -/
theorem evaluateItems : Steps A d n c.scene Unit (Validate.evaluateItems rec c) := by
  refine seq (withNode fun _ _ => forEachLive _ fun i _ => evaluateItem hrec c _ i) fun _ => ?_
  refine withNode fun items _ => ?_
  split
  · exact forEachLive _ fun i _ => evaluateItem hrec c _ i
  · exact forEachLive _ fun i _ => evaluateItem hrec c _ i

/-- The errors of an item that does not match are discarded, and the loop goes on. -/
theorem countMatches (contains : NodePtr) (matched : Nat) (is : List Nat) :
    Steps A d n c.scene Nat (Validate.countMatches rec c contains matched is) := by
  induction is generalizing matched with
  | nil => exact .pure _
  | cons i is ih =>
    refine seq (charge 1) fun _ => ?_
    cases helem : c.scene.node.findIndex i with
    | none => exact ih _
    | some elem =>
      refine seq (.discard (applyToItem hrec c contains helem)) fun result => ?_
      refine seq (onlyIf fun _ => .annotate _) fun _ => ?_
      exact seq unlessAborted fun _ => ih _

/-- Both ends of the count report at the array. -/
theorem evaluateContains : Steps A d n c.scene Unit (Validate.evaluateContains S rec c) := by
  refine withNode fun contains _ => seq aborted fun stop => ?_
  refine seq (countMatches hrec c contains 0 _) fun matched => ?_
  refine seq (onlyIf fun _ => report ..) fun _ => ?_
  split
  · exact onlyIf fun _ => report ..
  · exact .pure _

/-- The keywords of arrays, in the order of the source. -/
theorem evaluateArray : Steps A d n c.scene Unit (Validate.evaluateArray S rec c) := by
  refine onlyIf fun _ => ?_
  refine seq (checkSize ..) fun _ => ?_
  refine seq (checkSize ..) fun _ => ?_
  refine seq (checkUniqueItems ..) fun _ => ?_
  exact seq (evaluateItems hrec c) fun _ => evaluateContains hrec c

/-- Every declared key is charged for, and the members that are there are evaluated. -/
theorem evaluateProperties : Steps A d n c.scene Unit (Validate.evaluateProperties S rec c) := by
  refine withNode fun props _ => onlyIf fun _ => forEach _ fun key _ => ?_
  refine seq (charge 1) fun _ => seq ?_ fun _ => unlessAborted
  refine withNode fun member hmember => withNode fun sub _ => ?_
  exact seq (.annotate _) fun _ => seq (applyToMember hrec c sub hmember) fun _ => .pure _

/-- The search and the evaluation of a key are both at its member. -/
theorem evaluatePatternKey (hregex : EvaluatesPatterns A S) (pattern : Bytes) (sub : Option NodePtr)
    (key : Bytes) : Steps A d n c.scene Bool (Validate.evaluatePatternKey S rec c pattern sub key) := by
  refine seq (charge 1) fun _ => ?_
  cases hmember : c.scene.node.find key with
  | none => exact .pure _
  | some member =>
    refine seq (child (.member key) hmember (hregex ..)) fun found => ?_
    refine seq (onlyIf fun _ => ?_) fun _ => seq unlessAborted fun _ => .pure _
    refine seq (.annotate _) fun _ => withNode fun sub _ => ?_
    exact seq (applyToMember hrec c sub hmember) fun _ => .pure _

/-- The inner loop of `patternProperties`, over the keys. -/
theorem matchedKeys (hregex : EvaluatesPatterns A S) (pattern : Bytes) (sub : Option NodePtr)
    (matched keys : List Bytes) :
    Steps A d n c.scene (List Bytes) (Validate.matchedKeys S rec c pattern sub matched keys) := by
  induction keys generalizing matched with
  | nil => exact .pure _
  | cons key keys ih => exact seq (evaluatePatternKey hrec c hregex pattern sub key) fun _ => ih _

/-- The outer loop, over the patterns. -/
theorem matchedByPatterns (hregex : EvaluatesPatterns A S) (patternProps : NodePtr)
    (matched patterns : List Bytes) : Steps A d n c.scene (List Bytes)
      (Validate.matchedByPatterns S rec c patternProps matched patterns) := by
  induction patterns generalizing matched with
  | nil => exact .pure _
  | cons pattern patterns ih => exact seq (matchedKeys hrec c hregex pattern _ _ _) fun _ => ih _

/-- The keys that have matched are handed to `additionalProperties`. -/
theorem evaluatePatternProperties (hregex : EvaluatesPatterns A S) :
    Steps A d n c.scene (List Bytes) (Validate.evaluatePatternProperties S rec c) := by
  rw [Validate.evaluatePatternProperties]
  cases c.applicatorKeyword "patternProperties" with
  | none => exact .pure _
  | some patternProps =>
    dsimp only
    split_ifs
    · exact matchedByPatterns hrec c hregex patternProps _ _
    · exact .pure _

/-- A key is validated as a node of its own, under the path of its member. -/
theorem evaluatePropertyNames : Steps A d n c.scene Unit (Validate.evaluatePropertyNames S rec c) := by
  refine withNode fun propertyNames _ => forEach _ fun key hkey => ?_
  refine seq (charge 1) fun _ => seq ?_ fun _ => unlessAborted
  obtain ⟨member, hmember⟩ := exists_member hkey
  exact .lead (.name hmember) (apply hrec propertyNames)

/-- A schema at the node itself; its annotations count if it accepts. -/
theorem applyHere (schema : NodePtr) : Steps A d n c.scene Bool (Validate.applyHere rec c schema) :=
  seq (apply hrec schema) fun _ => seq (annotateIf _) fun _ => seq unlessAborted fun _ => .pure _

/-- A dependency is a list of keys or a schema. -/
theorem evaluateDependencies : Steps A d n c.scene Unit (Validate.evaluateDependencies S rec c) := by
  refine withNode fun dependencies _ => onlyIf fun _ => forEach _ fun key _ => ?_
  refine seq (charge 1) fun _ => onlyIf fun _ => withNode fun dep _ => ?_
  split
  · exact forEach _ fun k _ => requireKey ..
  · exact seq (applyHere hrec c dep) fun _ => .pure _

/-- A member that is not allowed is reported at its own path. -/
theorem evaluateAdditional (addl : NodePtr) (key : Bytes) {member : NodePtr}
    (h : c.scene.node.find key = some member) :
    Steps A d n c.scene Unit (Validate.evaluateAdditional S rec c addl key member) := by
  refine seq (.annotate _) fun _ => ?_
  split
  · exact unlessAborted
  · exact seq (child (.member key) h (report ..)) fun _ => unlessAborted
  · exact seq (applyToMember hrec c addl h) fun _ => unlessAborted

/-- Every key of the object is charged for, declared or not. -/
theorem evaluateAdditionalProperties (patternMatched : List Bytes) :
    Steps A d n c.scene Unit (Validate.evaluateAdditionalProperties S rec c patternMatched) := by
  refine withNode fun addl _ => forEach _ fun key _ => seq (charge 1) fun _ => ?_
  exact onlyIf fun _ => withNode fun member h => evaluateAdditional hrec c addl key h

/-- A dependent schema applies to the object, not to the member. -/
theorem evaluateDependentSchemas :
    Steps A d n c.scene Unit (Validate.evaluateDependentSchemas S rec c) := by
  refine withNode fun dependentSchemas _ => onlyIf fun _ => forEach _ fun key _ => ?_
  refine seq (charge 1) fun _ => onlyIf fun _ => withNode fun dep _ => ?_
  exact seq (applyHere hrec c dep) fun _ => .pure _

/-- The keywords of objects, in the order of the source. -/
theorem evaluateObject (hregex : EvaluatesPatterns A S) :
    Steps A d n c.scene Unit (Validate.evaluateObject S rec c) := by
  refine onlyIf fun _ => ?_
  refine seq (checkRequired ..) fun _ => ?_
  refine seq (checkSize ..) fun _ => ?_
  refine seq (checkSize ..) fun _ => ?_
  refine seq (evaluateProperties hrec c) fun _ => ?_
  refine seq (evaluatePatternProperties hrec c hregex) fun patternMatched => ?_
  refine seq (evaluatePropertyNames hrec c) fun _ => ?_
  refine seq (checkDependentRequired ..) fun _ => ?_
  refine seq (evaluateDependencies hrec c) fun _ => ?_
  exact seq (evaluateAdditionalProperties hrec c patternMatched) fun _ =>
    evaluateDependentSchemas hrec c

/-- The errors of the condition are discarded; those of the branch it chooses count. -/
theorem evaluateIf : Steps A d n c.scene Unit (Validate.evaluateIf rec c) := by
  refine withNode fun ifSchema _ => ?_
  refine seq (.discard (apply hrec ifSchema)) fun conditional => ?_
  refine seq unlessAborted fun _ => seq (annotateIf _) fun _ => withNode fun branch _ => ?_
  exact seq (applyHere hrec c branch) fun _ => .pure _

/-- Every subschema reports for itself; there is no error of the combinator. -/
theorem evaluateAllOf : Steps A d n c.scene Unit (Validate.evaluateAllOf rec c) := by
  refine withNode fun allOf _ => forEach _ fun i _ => seq (charge 1) fun _ => ?_
  exact withNode fun sub _ => seq (applyHere hrec c sub) fun _ => .pure _

omit hrec in
/-- The error of a combinator is about the node the combinator stands at. -/
theorem about_combinatorError (S : Session) (keyword : String) (message : Bytes) :
    (Validate.combinatorError S c keyword message).About c.scene := about_validationError ..

/-- A group that passes gives its diagnostics back; one that fails keeps its causes if they are
    collected. -/
theorem evaluateAnyOf : Steps A d n c.scene Unit (Validate.evaluateAnyOf S rec c) := by
  refine withNode fun anyOf _ => onlyIf fun _ => seq (.group 1 ?_ ?_) fun _ => .pure _
  · intro m hm
    obtain ⟨sub, -, rfl⟩ := List.mem_map.mp hm
    exact seq (apply hrec sub) fun _ => seq (annotateIf _) fun _ => .pure _
  · intro collect bs
    have about : ∀ e ∈ some (Validate.combinatorError S c "anyOf"
        (ascii "value does not match any schema in anyOf")), e.About c.scene := by
      rintro e ⟨⟩
      exact about_combinatorError c S ..
    rw [settleAnyOf]
    split_ifs with hany hcollect
    · exact .givenBack
    · exact ⟨about, nofun, fun _ => hcollect, nofun⟩
    · exact ⟨about, nofun, nofun, fun _ => Bool.not_eq_true _ ▸ hcollect⟩

/-- `oneOf` keeps causes only if nothing matched, since what matched has none to show. -/
theorem evaluateOneOf : Steps A d n c.scene Unit (Validate.evaluateOneOf S rec c) := by
  refine withNode fun oneOf _ => onlyIf fun _ => seq (.group 1 ?_ ?_) fun results => ?_
  · intro m hm
    obtain ⟨sub, -, rfl⟩ := List.mem_map.mp hm
    exact apply hrec sub
  · intro collect bs
    rw [settleOneOf]
    split_ifs with hone hkeep
    · exact .givenBack
    · refine ⟨fun e he => ?_, nofun, fun _ => (Bool.and_eq_true_iff.mp hkeep).1, nofun⟩
      cases he
      exact about_combinatorError c S ..
    · refine ⟨fun e he => ?_, nofun, nofun, nofun⟩
      cases he
      exact about_combinatorError c S ..
  · split
    · exact .annotate _
    · exact .pure _

/-- The errors of the subschema are discarded; that it accepts is the error. -/
theorem evaluateNot : Steps A d n c.scene Unit (Validate.evaluateNot S rec c) := by
  refine withNode fun nots _ => onlyIf fun _ => ?_
  refine seq (.discard (apply hrec nots)) fun result => ?_
  exact seq (onlyIf fun _ => report ..) fun _ => unlessAborted

/-- A schema that is false reports at the node itself, without a call. -/
theorem evaluateLeftOver {scene : Scene} (unevaluated : NodePtr) (code : SchemaError.Code)
    (keyword message : String) : Steps A d n scene Unit
      (Validate.evaluateLeftOver S rec c unevaluated code keyword message scene) := by
  rw [Validate.evaluateLeftOver]
  split
  · exact report ..
  · exact seq (apply hrec unevaluated) fun _ => .pure _

/-- Only a member without an annotation is charged for, and it has one afterwards. -/
theorem evaluateUnevaluatedProperties :
    Steps A d n c.scene Unit (Validate.evaluateUnevaluatedProperties S rec c) := by
  refine onlyIf fun _ => withNode fun unevaluated _ => forEach _ fun key _ => ?_
  refine seq (.look fun v => decide (key ∈ v.evaluated.properties)) fun seen => onlyIf fun _ => ?_
  refine seq (charge 1) fun _ => seq ?_ fun _ => seq (.annotate _) fun _ => unlessAborted
  exact withNode fun member h => child (.member key) h (evaluateLeftOver hrec c _ _ _ _)

/-- And so with the items. -/
theorem evaluateUnevaluatedItems :
    Steps A d n c.scene Unit (Validate.evaluateUnevaluatedItems S rec c) := by
  refine onlyIf fun _ => withNode fun unevaluated _ => forEach _ fun i _ => ?_
  refine seq (.look fun v => decide (i ∈ v.evaluated.items)) fun seen => onlyIf fun _ => ?_
  refine seq (charge 1) fun _ => seq ?_ fun _ => seq (.annotate _) fun _ => unlessAborted
  exact withNode fun item h => child (.element i) h (evaluateLeftOver hrec c _ _ _ _)

/-- The keywords of a schema object, in the order of the source. -/
theorem evaluateKeywords (hregex : EvaluatesPatterns A S) :
    Steps A d n c.scene Unit (Validate.evaluateKeywords S rec c) := by
  refine seq (checkStrictSubset ..) fun _ => ?_
  refine seq (checkType ..) fun _ => ?_
  refine seq (checkConst ..) fun _ => ?_
  refine seq (checkEnum ..) fun _ => ?_
  refine seq (checkNumber ..) fun _ => ?_
  refine seq (checkString c hregex) fun _ => ?_
  refine seq (evaluateArray hrec c) fun _ => ?_
  refine seq (evaluateObject hrec c hregex) fun _ => ?_
  refine seq (evaluateIf hrec c) fun _ => ?_
  refine seq (evaluateAllOf hrec c) fun _ => ?_
  refine seq (evaluateAnyOf hrec c) fun _ => ?_
  refine seq (evaluateOneOf hrec c) fun _ => ?_
  refine seq (evaluateNot hrec c) fun _ => ?_
  refine seq (evaluateUnevaluatedProperties hrec c) fun _ => ?_
  exact evaluateUnevaluatedItems hrec c

/-- The verdict of a site is that nothing has been reported since it was entered. -/
theorem evaluateSite (hregex : EvaluatesPatterns A S) (scene : Scene) (site : Site) :
    Steps A d n scene Bool (Validate.evaluateSite S rec scene site) := by
  refine seq (.look Observed.failures) fun before => ?_
  refine seq (.enterResource site) fun _ => ?_
  refine seq (evaluateRef hrec site) fun _ => ?_
  refine seq (evaluateDynamicRef hrec site) fun _ => ?_
  refine seq (evaluateKeywords hrec ⟨scene, site.schema, site.policy⟩ hregex) fun _ => ?_
  exact .look fun v => !v.aborted && v.failures == before

/-- **One level of the evaluator**, between the guards of `validateCtx`. -/
theorem evaluateSchema (hregex : EvaluatesPatterns A S) (scene : Scene) (schema : NodePtr)
    (resourceRoot : Option NodePtr) (baseUri : Bytes) :
    Steps A d n scene Bool (Validate.evaluateSchema S rec n scene schema resourceRoot baseUri) := by
  refine seq (.read fun o o' h => initialSite_congr h ..) fun site => ?_
  refine seq (followReferences S n site) fun reached => ?_
  cases reached with
  | none => exact .pure _
  | some site => exact evaluateSite hrec hregex scene _

end Applicators

/-- **The evaluator is made of steps.** -/
theorem validateCtx {S : Session} (hregex : EvaluatesPatterns A S) (fuel : Nat) :
    Calls A fuel (Validate.validateCtx S fuel) := by
  induction fuel with
  | zero => exact fun _ _ _ _ _ => .outOfFuel
  | succ fuel ih => exact fun _ _ _ _ _ => .call (evaluateSchema ih hregex ..)

/-! ## Patterns as steps -/

end Steps

/-- The options say the same about patterns. -/
structure Options.SamePatterns (o o' : Options) : Prop where
  allowUnsafeRegex : o.allowUnsafeRegex = o'.allowUnsafeRegex
  maxRegexPatternBytes : o.maxRegexPatternBytes = o'.maxRegexPatternBytes
  maxRegexSubjectBytes : o.maxRegexSubjectBytes = o'.maxRegexSubjectBytes

/-- A read of the options that are about patterns. -/
inductive ReadsPatternOptions : Scene → (α : Type) → Validate α → Prop
  | read {scene : Scene} {α : Type} {f : Options → α} :
      (∀ o o', Options.SamePatterns o o' → f o = f o') →
      ReadsPatternOptions scene α (Validate.option f)

namespace Steps

/-- What a pattern is taken for depends on the options for patterns only. -/
theorem classifyPattern_congr (S : Session) {o o' : Options} (h : o.SamePatterns o')
    (pattern : Bytes) : Validate.classifyPattern S o pattern = Validate.classifyPattern S o' pattern := by
  rw [Validate.classifyPattern, Validate.classifyPattern, h.allowUnsafeRegex, h.maxRegexPatternBytes]

/-- So does the bound on what it is searched in. -/
theorem subjectTooLong_congr {o o' : Options} (h : o.SamePatterns o') (subject : Bytes) :
    Validate.subjectTooLong o subject = Validate.subjectTooLong o' subject := by
  rw [Validate.subjectTooLong, Validate.subjectTooLong, h.maxRegexSubjectBytes]

section Patterns

variable {d : Bool} {n : Nat} {scene : Scene} (S : Session)

/-- A pattern is paid for and classified on its first use, and looked up afterwards. -/
theorem cachedState (pattern : Bytes) : Steps ReadsPatternOptions d n scene (Option RegexState)
    (Validate.cachedState S scene pattern) := by
  refine seq (.look fun v => Assoc.find pattern v.regexCache) fun found => ?_
  cases found with
  | some state => exact .pure _
  | none =>
    refine seq (.pay _) fun paid => ?_
    cases paid with
    | false => exact .pure _
    | true =>
      refine seq (.more (.read fun o o' h => classifyPattern_congr S h pattern)) fun state => ?_
      exact seq (.cache _) fun _ => .pure _

/-- A search is paid for first, and not made if the budget does not admit it. -/
theorem searchPattern (subject pattern : Bytes) (schema : NodePtr) (keyword : String) :
    Steps ReadsPatternOptions d n scene (Option Bool)
      (Validate.searchPattern S subject pattern scene schema keyword) := by
  refine seq (.pay _) fun paid => ?_
  cases paid with
  | false => exact .pure _
  | true =>
    cases S.engine.search pattern subject with
    | WorkLimit => exact seq (report ..) fun _ => .pure _
    | Invalid => exact seq (report ..) fun _ => .pure _
    | Match => exact .pure _
    | NoMatch => exact .pure _

/-- **Patterns are steps** that read the options for patterns and no others. -/
theorem evaluateRegex : EvaluatesPatterns ReadsPatternOptions S := by
  intro d n subject pattern scene schema keyword
  refine seq (.more (.read fun o o' h => h.maxRegexSubjectBytes)) fun limit => ?_
  refine seq (.more (.read fun o o' h => subjectTooLong_congr h subject)) fun tooLong => ?_
  cases tooLong with
  | true => exact seq (report ..) fun _ => .pure _
  | false =>
    refine seq (cachedState S pattern) fun state => ?_
    cases state with
    | none => exact .pure _
    | some state =>
      dsimp only
      cases Validate.refusal state with
      | some message => exact seq (report ..) fun _ => .pure _
      | none => exact searchPattern S subject pattern schema keyword

end Patterns

end Steps

end ByteDance
