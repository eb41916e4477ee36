/-
  `pjson::applyPatch`: the operations of a JSON Patch on a scratch document.

  The document under work is a value here: a helper that changes it returns the changed one, and a helper
  that fails after an earlier change needs no undoing, as the source drops the scratch document too.
  Every failure is a `return false` after `failPatch`; allocations succeed.  `nodeSize` is
  `sizeof(pjson)`.
-/
import Pjson.Dom.Location
import Pjson.Patch.Clone
import Pjson.Patch.Equal
import Pjson.Patch.Pointer
import Pjson.Schema.Uri

namespace ByteDance

open Run

namespace Patch

/-! ## The three edits -/

/-- `addOwnedAtPointer`. -/
def addOwnedAtPointer (aRoot : Pjson) (aTokens : List Bytes) (aPointer : Bytes) (aValue : Pjson) :
    AccountM Pjson :=
  match aTokens.getLast? with
  | none => pure aValue
  | some token => do
    let finalIndex := aTokens.length - 1
    let parent ← resolvePatchTokens aRoot aTokens finalIndex aPointer
    match aRoot.get parent with
    | some (.jsonObject object) => do
      if (Assoc.find token object).isNone then
        chargePatch .bytes token.length "JSON Patch cloned-byte budget exceeded"
      pure (aRoot.put parent (.jsonObject (Assoc.assign token aValue object)))
    | some (.jsonArray array) => do
      let (index, _) ← patchArrayIndex array token true finalIndex
      chargePatch .work (← subSize array.length index) workMessage
      pure (aRoot.put parent (.jsonArray (array.insertIdx index aValue)))
    | _ =>
      failPatchAtToken .TargetMissing finalIndex token "add destination parent is not a container"

/-- `replaceAtPointer`. -/
def replaceAtPointer (aRoot : Pjson) (aTokens : List Bytes) (aPointer : Bytes) (aValue : Pjson) :
    AccountM Pjson :=
  match aTokens.getLast? with
  | none => pure aValue
  | some token => do
    let finalIndex := aTokens.length - 1
    let parent ← resolvePatchTokens aRoot aTokens finalIndex aPointer
    match aRoot.get parent with
    | some (.jsonObject object) =>
      if (Assoc.find token object).isNone then
        failPatchAtToken .TargetMissing finalIndex token "replace target does not exist"
      else pure (aRoot.put parent (.jsonObject (Assoc.assign token aValue object)))
    | some (.jsonArray array) => do
      let (index, _) ← patchArrayIndex array token false finalIndex
      pure (aRoot.put parent (.jsonArray (array.set index aValue)))
    | _ =>
      failPatchAtToken .TargetMissing finalIndex token "replace target parent is not a container"

/-- `detachAtPointer`: what is left, and what has been taken out. -/
def detachAtPointer (nodeSize : Nat) (aRoot : Pjson) (aTokens : List Bytes) (aPointer : Bytes) :
    AccountM (Pjson × Pjson) :=
  match aTokens.getLast? with
  | none => do
    chargePatch .nodes 1 "JSON Patch cloned-node budget exceeded"
    chargePatch .bytes nodeSize "JSON Patch cloned-byte budget exceeded"
    pure (.jsonNull, aRoot)
  | some token => do
    let finalIndex := aTokens.length - 1
    let parent ← resolvePatchTokens aRoot aTokens finalIndex aPointer
    match aRoot.get parent with
    | some (.jsonObject object) =>
      match Assoc.find token object with
      | none => failPatchAtToken .TargetMissing finalIndex token "remove source does not exist"
      | some existing => pure (aRoot.put parent (.jsonObject (Assoc.drop token object)), existing)
    | some (.jsonArray array) => do
      let (index, _) ← patchArrayIndex array token false finalIndex
      chargePatch .work (← subSize (← subSize array.length index) 1) workMessage
      pure (aRoot.put parent (.jsonArray (array.eraseIdx index)), array.getD index .jsonNull)
    | _ =>
      failPatchAtToken .TargetMissing finalIndex token "remove source parent is not a container"

/-! ## One operation -/

/-- An assignment to the error record. -/
def setError (f : PatchError → PatchError) : AccountM Unit := modify fun s => { s with error := f s.error }

/-- A member of an operation that has to be a string. -/
def stringMember (operation : List (Bytes × Pjson)) (name : Bytes) (code : PatchError.Code)
    (message : String) : AccountM Bytes :=
  match Assoc.find name operation with
  | some (.jsonString s) => pure s
  | _ => failPatch code message

/-- The member `value` of an operation that needs one. -/
def valueMember (operation : List (Bytes × Pjson)) : AccountM Pjson :=
  match Assoc.find (ascii "value") operation with
  | some valueNode => pure valueNode
  | none => failPatch .MissingValue "add, replace, and test require member 'value'"

/-- The member `from` of an operation that needs one, and its tokens. -/
def fromMember (operation : List (Bytes × Pjson)) : AccountM (Bytes × List Bytes) := do
  let pointer ← stringMember operation (ascii "from") .MissingFrom
    "move and copy require string member 'from'"
  setError fun aError => { aError with from' := pointer }
  return (pointer, ← decodePatchPointer pointer true)

/-- `aError.op == "add" || ...`. -/
def knownOperations : List Bytes :=
  [ascii "add", ascii "remove", ascii "replace", ascii "move", ascii "copy", ascii "test"]

/-- The end of `copy` and `move`, once the source is known to be there. -/
def transfer (e : Enumeration) (nodeSize : Nat) (scratch source : Pjson) (copies : Bool) (path : Bytes)
    (pathTokens : List Bytes) (from' : Bytes) (fromTokens : List Bytes) : AccountM Pjson := do
  if copies then do
    measureClone e nodeSize source
    addOwnedAtPointer scratch pathTokens path source
  else if fromTokens = pathTokens then pure scratch
  else if fromTokens = [] then
    failPatch .MoveRootNotAllowed "cannot move the document root below itself"
  else if fromTokens.length < pathTokens.length ∧ fromTokens <+: pathTokens then
    failPatch .MoveIntoDescendant "cannot move a value into one of its descendants"
  else do
    let (scratch, moved) ← detachAtPointer nodeSize scratch fromTokens from'
    addOwnedAtPointer scratch pathTokens path moved

/-- What an operation does, its name and its path being known. -/
def perform (e : Enumeration) (nodeSize : Nat) (scratch : Pjson) (operation : List (Bytes × Pjson))
    (op path : Bytes) (pathTokens : List Bytes) : AccountM Pjson := do
  if op = ascii "move" ∨ op = ascii "copy" then
    let (from', fromTokens) ← fromMember operation
    let loc ← resolvePatchTokens scratch fromTokens fromTokens.length from'
    match scratch.get loc with
    | none => failPatch .InternalError ""
    | some source =>
      transfer e nodeSize scratch source (decide (op = ascii "copy")) path pathTokens from' fromTokens
  else if op = ascii "add" then
    let value ← valueMember operation
    measureClone e nodeSize value
    addOwnedAtPointer scratch pathTokens path value
  else if op = ascii "remove" then
    let (scratch, _) ← detachAtPointer nodeSize scratch pathTokens path
    pure scratch
  else if op = ascii "replace" then
    let value ← valueMember operation
    measureClone e nodeSize value
    replaceAtPointer scratch pathTokens path value
  else
    let value ← valueMember operation
    let loc ← resolvePatchTokens scratch pathTokens pathTokens.length path
    match scratch.get loc with
    | none => failPatch .InternalError ""
    | some target =>
      if ← patchEqual e target value then pure scratch
      else failPatch .TestFailed "JSON Patch test value does not match target"

/-- The body of the loop of `applyPatch`. -/
def applyOperation (e : Enumeration) (nodeSize : Nat) (scratch : Pjson) : Pjson → AccountM Pjson
  | .jsonObject operation => do
    let op ← stringMember operation (ascii "op") .MissingOp
      "JSON Patch operation requires string member 'op'"
    setError fun aError => { aError with op }
    if op ∉ knownOperations then
      failPatch .InvalidOp "JSON Patch operation name is not supported"
    else
      let path ← stringMember operation (ascii "path") .MissingPath
        "JSON Patch operation requires string member 'path'"
      setError fun aError => { aError with path }
      let pathTokens ← decodePatchPointer path false
      perform e nodeSize scratch operation op path pathTokens
  | _ => failPatch .OperationNotObject "JSON Patch operation must be an object"

/-- The loop of `applyPatch`, at operation number `operationIndex`. -/
def applyOperations (e : Enumeration) (nodeSize : Nat) (operationIndex : Nat) (scratch : Pjson) :
    List Pjson → AccountM Pjson
  | [] => pure scratch
  | operation :: operations => do
    setError fun aError => { aError with
      opIndex := operationIndex, op := [], path := [], from' := [], tokenIndex := 0, token := [], message := "" }
    let scratch ← applyOperation e nodeSize scratch operation
    applyOperations e nodeSize (operationIndex + 1) scratch operations

/-- `applyPatch` up to the publication of the scratch document. -/
def applyPatchTo (e : Enumeration) (nodeSize : Nat) (target : Pjson) : Pjson → AccountM Pjson
  | .jsonArray operations => do
    chargePatch .operations operations.length "JSON Patch operation budget exceeded"
    measureClone e nodeSize target
    applyOperations e nodeSize 0 target operations
  | _ => failPatch .InvalidPatchDocument "JSON Patch document must be an array"

end Patch

/-- What a patch function returns, the target it leaves and the error it reports. -/
structure PatchResult where
  applied : Bool
  target : Pjson
  error : PatchError

/-- The publication: the scratch document takes the place of the target if it is complete. -/
def publishPatch (aOpts : PatchOptions) (target : Pjson) (run : AccountM Pjson) : PatchResult :=
  match run.run { budget := .ofOptions aOpts, error := {} } with
  | .ok scratch _ => ⟨true, scratch, {}⟩
  | .error _ s => ⟨false, target, s.error⟩

/-- `pjson::applyPatch`. -/
def Pjson.applyPatch (e : Enumeration) (nodeSize : Nat) (target aPatch : Pjson) (aOpts : PatchOptions) : PatchResult :=
  publishPatch aOpts target (Patch.applyPatchTo e nodeSize target aPatch)

end ByteDance
