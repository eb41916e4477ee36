/-
  The mutators of the DOM: assignment, exchange, growth and promotion.

  Receivers and arguments are addresses, so an argument may be the receiver, one of its ancestors or
  one of its descendants.  A mutator that turns another kind of value into a container builds the
  container in a local and exchanges storage with it; the exception is `reserve`.  The two
  overloads of `insertOrAssign` call each other on snapshots and run on the depth of the stack.
-/
import Pjson.Memory.Heap

namespace ByteDance

namespace Memory

variable (M : Machine)

/-! ## Assignment and exchange -/

/-- `copyFrom`, which is also `operator=(const pjson&)`. -/
def copyFrom (this source : Addr) : HeapM Unit := do
  if this = source then return ()
  else
    withLocal (← load this).alloc fun replacement => do
      copyContentsInto M replacement source
      swapStorage this replacement

/-- `operator=(pjson&&)`. -/
def assignMove (this source : Addr) : HeapM Unit := do
  if source = this then return ()
  else if ← containsNode M source this then copyFrom M this source
  else
    let alloc := (← load this).alloc
    if alloc = (← load source).alloc then
      withLocal alloc fun snapshot => do
        swapStorage snapshot source
        swapStorage this snapshot
    else
      withLocal alloc fun tmp => do
        copyContentsInto M tmp source
        reset source
        swapStorage this tmp

/-- `canSwap`. -/
def canSwap (this other : Addr) : HeapM Bool := do
  if (← load this).alloc = (← load other).alloc then
    if this = other then return true
    else if ← containsNode M this other then return false
    else return !(← containsNode M other this)
  else return false

/-- `swap`. -/
def swap (this other : Addr) : HeapM Unit := do
  if this = other then return ()
  else if ← canSwap M this other then swapStorage this other
  else return ()

/-! ## Arrays -/

/-- `isArray()`. -/
def isArray (this : Addr) : HeapM Bool := return decide ((← load this).impl.eType = .jsonArray)

/-- Undoes appends, down to the original size: each child is popped and then destroyed. -/
def rollback (this : Addr) : Nat → HeapM Unit
  | 0 => return ()
  | n + 1 => do
    let es ← elements this
    match es.getLast? with
    | none => throw .fault
    | some back =>
      store this (.jsonArray es.dropLast)
      destroyNode back
      rollback this n

/-- `while (array.size() > originalSize)`. -/
def rollbackTo (this : Addr) (originalSize : Nat) : HeapM Unit := do
  rollback this ((← elements this).length - originalSize)

/-- `pushBack(const pjson&)` on an array. -/
def appendCopy (this value : Addr) : HeapM Unit := do
  withOwned M (← load this).alloc fun child => do
    copyContentsInto M child value
    pushGrowing M this child

/-- `pushBack(const pjson&)`. -/
def pushBackCopy (this value : Addr) : HeapM Unit := do
  if ← isArray this then appendCopy M this value
  else
    withLocal (← load this).alloc fun replacement => do
      resetTo M replacement .jsonArray
      appendCopy M replacement value
      swapStorage this replacement

/-- `pushBack(pjson&&)` on an array: capacity is reserved before the value is consumed. -/
def appendMove (this value : Addr) : HeapM Unit := do
  withOwned M (← load this).alloc fun child => do
    if (← elements this).length = M.maxSize then throw .lengthError
    else
      allocate M
      if (← load child).alloc = (← load value).alloc then
        swapStorage child value
        reset value
        pushReserved this child
      else
        copyContentsInto M child value
        reset value
        pushReserved this child

/-- `pushBack(pjson&&)`, with `pushBack` of the replacement as its own call. -/
def pushBackMove (this value : Addr) : HeapM Unit := do
  if ← containsNode M value this then pushBackCopy M this value
  else if ← isArray this then appendMove M this value
  else
    withLocal (← load this).alloc fun replacement => do
      resetTo M replacement .jsonArray
      if ← containsNode M value replacement then appendCopy M replacement value
      else appendMove M replacement value
      swapStorage this replacement

/-- `reserve`: a value of another kind is replaced by an empty array first. -/
def reserve (this : Addr) (aCount : Nat) : HeapM Unit := do
  if !(← isArray this) then resetTo M this .jsonArray
  if aCount > M.maxSize then throw .lengthError else allocate M

/-! ### Appending values of other types -/

/-- `*child = aValue`. -/
def assignScalar (this : Addr) (value : Impl) : HeapM Unit := do
  resetIfNeeded M this value.eType
  assignValue M this value

/-- `appendDomValue` on an array. -/
def appendScalar (target : Addr) (value : Impl) : HeapM Unit := do
  withOwned M (← load target).alloc fun child => do
    assignScalar M child value
    pushGrowing M target child

/-- `appendDomValue`. -/
def appendDomValue (target : Addr) (value : Impl) : HeapM Unit := do
  if ← isArray target then appendScalar M target value
  else
    withLocal (← load target).alloc fun replacement => do
      resetTo M replacement .jsonArray
      appendScalar M replacement value
      swapStorage target replacement

/-- `for (const auto& value : aValues) appendDomValue(aTarget, value)`. -/
def appendAll (target : Addr) : List Impl → HeapM Unit
  | [] => return ()
  | value :: values => do
    appendDomValue M target value
    appendAll target values

/-- `appendDomArray`. -/
def appendDomArray (target : Addr) (values : List Impl) : HeapM Unit := do
  if ← isArray target then
    let originalSize := (← elements target).length
    catchRethrow (appendAll M target values) (rollbackTo target originalSize)
  else
    withLocal (← load target).alloc fun replacement => do
      resetTo M replacement .jsonArray
      appendAll M replacement values
      swapStorage target replacement

/-- `assignDomArray`. -/
def assignDomArray (target : Addr) (values : List Impl) : HeapM Unit := do
  withLocal (← load target).alloc fun replacement => do
    resetTo M replacement .jsonArray
    appendAll M replacement values
    swapStorage target replacement

/-! ### Elements -/

/-- `size_t` arithmetic. -/
def sizeT (n : Nat) : Nat := n % 2 ^ 64

/-- `kMaxAutoGrowth`. -/
def kMaxAutoGrowth : Nat := 1000000

/-- The loop that appends null nodes. -/
def growLoop (this : Addr) : Nat → HeapM Unit
  | 0 => return ()
  | n + 1 => do
    withOwned M (← load this).alloc fun child => pushReserved this child
    growLoop this n

/-- `operator[](size_t)` on an array. -/
def indexArray (this : Addr) (position : Nat) : HeapM Addr := do
  let array ← elements this
  if position ≥ array.length then
    let growth := sizeT (position - array.length + 1)
    if growth > kMaxAutoGrowth then throw .lengthError
    else if position = 2 ^ 64 - 1 ∨ sizeT (position + 1) > M.maxSize then throw .lengthError
    else
      let requiredSize := sizeT (position + 1)
      catchRethrow (do
        allocate M
        growLoop M this (requiredSize - array.length)) (rollbackTo this array.length)
      match (← elements this)[position]? with
      | some element => return element
      | none => throw .fault
  else
    match array[position]? with
    | some element => return element
    | none => throw .fault

/-- `operator[](size_t)`. -/
def indexSize (this : Addr) (index : Nat) : HeapM Addr := do
  if ← isArray this then indexArray M this index
  else
    withLocal (← load this).alloc fun replacement => do
      resetTo M replacement .jsonArray
      let result ← indexArray M replacement index
      swapStorage this replacement
      return result

/-- `static_cast<size_t>(-(index + 1)) + size_t(1)`, for a negative index. -/
def fromEnd (index : Int32) : Nat := sizeT ((-(index + 1)).toInt.toNat + 1)

/-- `operator[](int)`. -/
def indexInt (this : Addr) (index : Int32) : HeapM Addr := do
  if index < 0 then
    match (← load this).impl with
    | .jsonArray array =>
      if fromEnd index > array.length then throw .outOfRange
      else
        match array[array.length - fromEnd index]? with
        | some element => return element
        | none => throw .fault
    | _ => throw .outOfRange
  else indexSize M this index.toInt.toNat

/-- `find(int)`. -/
def findInt (this : Addr) (aIndex : Int32) : HeapM (Option Addr) := do
  match (← load this).impl with
  | .jsonArray values =>
    if 0 ≤ aIndex then
      if aIndex.toInt.toNat ≥ values.length then return none
      else
        match values[aIndex.toInt.toNat]? with
        | some element => return some element
        | none => throw .fault
    else if fromEnd aIndex > values.length then return none
    else
      match values[values.length - fromEnd aIndex]? with
      | some element => return some element
      | none => throw .fault
  | _ => return none

/-- `findIndex`. -/
def findIndex (this : Addr) (aIndex : Nat) : HeapM (Option Addr) := do
  match (← load this).impl with
  | .jsonArray values => return values[aIndex]?
  | _ => return none

/-! ## Objects -/

/-- `insertOrAssign`, both overloads: `move` is the one that takes an rvalue. -/
def insertOrAssign : Nat → Bool → Addr → Bytes → Addr → HeapM Unit
  | 0, _, _, _, _ => throw .stackOverflow
  | stack + 1, move, this, aKey, aValue => do
    if ← containsNode M aValue this then
      withLocal (← load this).alloc fun sourceCopy => do
        copyContentsInto M sourceCopy aValue
        insertOrAssign stack true this aKey sourceCopy
    else
      match (← load this).impl with
      | .jsonObject object =>
        match object.find aKey with
        | some existing => if move then assignMove M existing aValue else copyFrom M existing aValue
        | none => if move then insertMove this aKey aValue else insertCopy this aKey aValue
      | _ =>
        withLocal (← load this).alloc fun replacement => do
          resetTo M replacement .jsonObject
          insertOrAssign stack move replacement aKey aValue
          swapStorage this replacement
where
  /-- A new member with a copy. -/
  insertCopy (this : Addr) (aKey : Bytes) (aValue : Addr) : HeapM Unit := do
    withOwned M (← load this).alloc fun child => do
      copyContentsInto M child aValue
      match ← insertSlot M this aKey child with
      | none => return ()
      | some existing =>
        copyFrom M existing aValue
        destroyNode child
  /-- A new member that takes the value, or a copy of it from another allocator. -/
  insertMove (this : Addr) (aKey : Bytes) (aValue : Addr) : HeapM Unit := do
    let attached ← withOwned M (← load this).alloc fun child => do
      match ← insertSlot M this aKey child with
      | none => return some child
      | some existing =>
        assignMove M existing aValue
        destroyNode child
        return none
    match attached with
    | none => return ()
    | some attached =>
      if (← load attached).alloc = (← load aValue).alloc then swapStorage attached aValue
      else
        catchRethrow (copyContentsInto M attached aValue) (do
          let object ← members this
          destroyNode attached
          store this (.jsonObject (object.erase aKey)))
        reset aValue

/-- `operator[](const std::string&)`. -/
def indexKey (this : Addr) (aString : Bytes) : HeapM Addr := do
  match (← load this).impl with
  | .jsonObject object =>
    match object.find aString with
    | some existing => return existing
    | none => vivify this
  | _ =>
    withLocal (← load this).alloc fun replacement => do
      resetTo M replacement .jsonObject
      let result ← vivify replacement
      swapStorage this replacement
      return result
where
  /-- A new null member. -/
  vivify (this : Addr) : HeapM Addr := do
    withOwned M (← load this).alloc fun child => do
      match ← insertSlot M this aString child with
      | none => return child
      | some existing =>
        destroyNode child
        return existing

/-! ## Removal -/

/-- `erase(const std::string&)`. -/
def eraseKey (this : Addr) (aKey : Bytes) : HeapM Bool := do
  match (← load this).impl with
  | .jsonObject object =>
    match object.find aKey with
    | some child =>
      destroyNode child
      store this (.jsonObject (object.erase aKey))
      return true
    | none => return false
  | _ => return false

/-- `erase(size_t)`. -/
def eraseIndex (this : Addr) (aIndex : Nat) : HeapM Bool := do
  match (← load this).impl with
  | .jsonArray array =>
    match array[aIndex]? with
    | some child =>
      destroyNode child
      store this (.jsonArray (array.eraseIdx aIndex))
      return true
    | none => return false
  | _ => return false

/-- `clear`. -/
def clear (this : Addr) : HeapM Unit := do
  if (← load this).impl.isContainer then disposeChildren this else reset this

end Memory

end ByteDance
