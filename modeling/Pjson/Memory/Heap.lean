/-
  The mutable DOM in memory: nodes, allocation, teardown, storage exchange and the deep copy.

  A `pjson` is a node at an address with its allocator and the implementation it points at; an array
  or an object refers to its children by address.  The shared implementation of every null value is
  `Impl.jsonNull`.  A read or write through an address that is not live, or one that takes an
  implementation for another kind, ends the run with `fault`; nothing else about memory is assumed.

  The intrusive link of teardown, `_disposeNext`, is kept beside the nodes: an implementation belongs to
  one node, and the shared one of the nulls has no link to write.

  Every allocation a call makes may throw: `Machine.fails` says which ones do.  A local `pjson` is a
  node as well, torn down however its scope is left (`withLocal`); a node held by an `OwnedNode` is
  destroyed if its scope is left by an exception (`withOwned`).  Loops, and destructors inside destructors,
  run on the number of addresses ever used.

  Behind a node that is not null stand blocks of its allocator: the implementation, and the wrapper object
  of a string, an array or an object.  `resetTo` allocates them one after the other, and gives the first
  back if there is no second; `reset` gives both back.  What the wrapper objects allocate themselves (the
  bytes of a string, the buckets of a map) is theirs and goes with them.

  Two fields of the heap are not in the source.  `destroyed` remembers which nodes have been destroyed, in
  turn.  `ledger` lists the blocks that the allocators have handed out and not got back; to give back a
  block that is not in it is a `fault`, so a run without one releases no block twice.
-/
import Pjson.Dom.Equality

namespace ByteDance

/-- `pjson*`. -/
abbrev Addr := Nat

/-- `pjson::Allocator*`. -/
abbrev AllocatorId := Nat

/-- `pjsonImpl::ObjectStorage`: a map, so no key occurs twice. -/
structure ObjectStorage where
  members : List (Bytes × Addr)
  unique : Assoc.UniqueKeys members

namespace ObjectStorage

def empty : ObjectStorage := ⟨[], Assoc.uniqueKeys_nil⟩

def find (o : ObjectStorage) (key : Bytes) : Option Addr := Assoc.find key o.members

/-- `insert` of a key that is not there. -/
def insert (o : ObjectStorage) (key : Bytes) (child : Addr) : ObjectStorage :=
  ⟨Assoc.assign key child o.members, o.unique.assign⟩

def erase (o : ObjectStorage) (key : Bytes) : ObjectStorage := ⟨Assoc.drop key o.members, o.unique.drop⟩

end ObjectStorage

/-- `pjsonImpl`, with the wrapper object of a string, an array or an object. -/
inductive Impl where
  | jsonNull
  | jsonString (value : Bytes)
  | jsonNumberInt (value : Int64)
  | jsonNumberDouble (value : Binary64)
  | jsonBoolean (value : Bool)
  | jsonArray (elements : List Addr)
  | jsonObject (members : ObjectStorage)
  | jsonNumberUInt (value : UInt64)

namespace Impl

/-- `_eType`. -/
def eType : Impl → JsonType
  | .jsonNull => .jsonNull
  | .jsonString _ => .jsonString
  | .jsonNumberInt _ => .jsonNumberInt
  | .jsonNumberDouble _ => .jsonNumberDouble
  | .jsonBoolean _ => .jsonBoolean
  | .jsonArray _ => .jsonArray
  | .jsonObject _ => .jsonObject
  | .jsonNumberUInt _ => .jsonNumberUInt

/-- The addresses an implementation refers to. -/
def children : Impl → List Addr
  | .jsonArray elements => elements
  | .jsonObject object => object.members.map Prod.snd
  | _ => []

/-- Whether the node is an array or an object. -/
def isContainer : Impl → Bool
  | .jsonArray _ | .jsonObject _ => true
  | _ => false

/-- The container after `clear()`. -/
def cleared : Impl → Impl
  | .jsonArray _ => .jsonArray []
  | .jsonObject _ => .jsonObject .empty
  | impl => impl

end Impl

/-- The value `resetTo` leaves. -/
def JsonType.initial : JsonType → Impl
  | .jsonNull => .jsonNull
  | .jsonString => .jsonString []
  | .jsonNumberInt => .jsonNumberInt 0
  | .jsonNumberDouble => .jsonNumberDouble Binary64.zero
  | .jsonBoolean => .jsonBoolean false
  | .jsonArray => .jsonArray []
  | .jsonObject => .jsonObject .empty
  | .jsonNumberUInt => .jsonNumberUInt 0

/-- A `pjson`: its allocator, which never changes, and what it points at. -/
structure Node where
  alloc : AllocatorId
  impl : Impl

/-- `pjson::Allocator::AllocationKind`, of the blocks behind a node. -/
inductive AllocationKind where
  | StringAllocation
  | ArrayAllocation
  | ObjectAllocation
  | ImplementationAllocation
  deriving DecidableEq

/-- A block, by the allocator that has handed it out and what for. -/
abbrev Block := AllocatorId × AllocationKind

/-- The wrapper object of a string, an array or an object. -/
def JsonType.wrapper : JsonType → Option AllocationKind
  | .jsonString => some .StringAllocation
  | .jsonArray => some .ArrayAllocation
  | .jsonObject => some .ObjectAllocation
  | _ => none

/-- The blocks behind a node; the implementation of the nulls is static. -/
def Node.blocks (n : Node) : List Block :=
  if n.impl.eType = .jsonNull then []
  else n.impl.eType.wrapper.toList.map (n.alloc, ·) ++ [(n.alloc, .ImplementationAllocation)]

/-- What a run depends on beside its heap: which of its allocations throw, how many elements a
    container can hold, and how deep calls may nest. -/
structure Machine where
  fails : Nat → Bool
  maxSize : Nat
  stack : Nat

/-- The heap: the live nodes, the links between nodes pending destruction, how many addresses and
    allocations have been used, the nodes destroyed, and the blocks handed out. -/
structure Heap where
  nodes : Addr → Option Node
  links : Addr → Option Addr
  next : Nat
  allocations : Nat
  destroyed : List Addr
  ledger : List Block

/-- The ways a call ends other than by returning: an exception; the end of the stack; and two that no
    run on an intact heap reaches, undefined behaviour and the exhaustion of a loop bound. -/
inductive HeapExit where
  | badAlloc
  | lengthError
  | outOfRange
  | logicError
  | stackOverflow
  | fault
  | fuel
  deriving DecidableEq

/-- A member function of the DOM. -/
abbrev HeapM := EStateM HeapExit Heap

namespace Memory

variable (M : Machine)

/-! ## Nodes -/

/-- `*a`. -/
def load (a : Addr) : HeapM Node := do
  match (← get).nodes a with
  | some n => return n
  | none => throw .fault

/-- `a->_pImpl = impl`. -/
def store (a : Addr) (impl : Impl) : HeapM Unit := do
  let n ← load a
  modify fun h => { h with nodes := Function.update h.nodes a (some { n with impl := impl }) }

/-- One allocation. -/
def allocate : HeapM Unit := do
  let h ← get
  set { h with allocations := h.allocations + 1 }
  if M.fails h.allocations then throw .badAlloc else return ()

/-- Constructs a null node at a new address. -/
def construct (alloc : AllocatorId) : HeapM Addr := do
  let h ← get
  set { h with nodes := Function.update h.nodes h.next (some { alloc := alloc, impl := .jsonNull })
               next := h.next + 1 }
  return h.next

/-- Ends the life of a node that owns nothing. -/
def release (a : Addr) : HeapM Unit := do
  let _ ← load a
  modify fun h =>
    { h with nodes := Function.update h.nodes a none, destroyed := a :: h.destroyed }

/-- `a->_pImpl->_disposeNext`. -/
def getLink (a : Addr) : HeapM (Option Addr) := do
  let _ ← load a
  return (← get).links a

/-- `a->_pImpl->_disposeNext = next`: a write to the implementation, which no null may see. -/
def setLink (a : Addr) (next : Option Addr) : HeapM Unit := do
  match (← load a).impl with
  | .jsonNull => throw .fault
  | _ => modify fun h => { h with links := Function.update h.links a next }

/-- `catch (...) { cleanup; throw; }`. -/
def catchRethrow {α : Type} (x : HeapM α) (cleanup : HeapM Unit) : HeapM α :=
  tryCatch x fun e => do
    cleanup
    throw e

/-! ## Blocks -/

/-- `deallocate`, after the destructor: of a block that is not outstanding it is undefined. -/
def deallocate (alloc : AllocatorId) (kind : AllocationKind) : HeapM Unit := do
  if (alloc, kind) ∈ (← get).ledger then
    modify fun h => { h with ledger := h.ledger.erase (alloc, kind) }
  else throw .fault

/-- `allocateDomObject`: of the constructors only that of the map may allocate, and so throw. -/
def allocateDomObject (alloc : AllocatorId) (kind : AllocationKind) : HeapM Unit := do
  allocate M
  modify fun h => { h with ledger := (alloc, kind) :: h.ledger }
  if kind = .ObjectAllocation then catchRethrow (allocate M) (deallocate alloc kind) else return ()

/-- The wrapper object that goes with the type, if there is one. -/
def allocateWrapper (alloc : AllocatorId) (type : JsonType) : HeapM Unit :=
  match type.wrapper with
  | some kind => allocateDomObject M alloc kind
  | none => return ()

/-- `destroyDomObject` of the wrapper object, if there is one. -/
def destroyWrapper (alloc : AllocatorId) (type : JsonType) : HeapM Unit :=
  match type.wrapper with
  | some kind => deallocate alloc kind
  | none => return ()

/-- The end of `reset`: the node is null before its implementation is destroyed. -/
def dropStorage (this : Addr) (n : Node) : HeapM Unit := do
  destroyWrapper n.alloc n.impl.eType
  store this .jsonNull
  deallocate n.alloc .ImplementationAllocation

/-! ## Teardown -/

section

-- `_destroyNode`, whose destructor may come back to the functions below
variable (destroy : Addr → HeapM Unit)

/-- The inner loops of `_disposeChildren`: null children are destroyed, the others become pending. -/
def enqueue : List Addr → Option Addr → HeapM (Option Addr)
  | [], pending => return pending
  | c :: cs, pending => do
    match (← load c).impl with
    | .jsonNull =>
      destroy c
      enqueue cs pending
    | _ =>
      setLink c pending
      enqueue cs (some c)

/-- The children of a container become pending, and it is cleared. -/
def detach (node : Addr) (pending : Option Addr) : HeapM (Option Addr) := do
  let n ← load node
  if n.impl.isContainer then
    let pending ← enqueue destroy n.impl.children pending
    store node n.impl.cleared
    return pending
  else return pending

/-- The loop of `_disposeChildren` over the pending list; `p` has been emptied when it is destroyed. -/
def disposeLoop : Nat → Option Addr → HeapM Unit
  | _, none => return ()
  | 0, some _ => throw .fuel
  | fuel + 1, some p => do
    let pending ← getLink p
    setLink p none
    let pending ← detach destroy p pending
    destroy p
    disposeLoop fuel pending

/-- `_disposeChildren`. -/
def disposeChildrenWith (node : Addr) : HeapM Unit := do
  if (← load node).impl.isContainer then
    let pending ← detach destroy node none
    disposeLoop destroy (← get).next pending
  else return ()

/-- `reset`. -/
def resetWith (this : Addr) : HeapM Unit := do
  let n ← load this
  match n.impl with
  | .jsonNull => return ()
  | .jsonArray _ | .jsonObject _ =>
    disposeChildrenWith destroy this
    dropStorage this n
  | _ => dropStorage this n

end

/-- `_destroyNode`, the destructor and the end of the storage, with at most so many destructors
    running inside each other. -/
def destroyNodeAt : Nat → Addr → HeapM Unit
  | 0, _ => throw .fuel
  | depth + 1, a => do
    resetWith (destroyNodeAt depth) a
    release a

/-- `_disposeChildren`. -/
def disposeChildren (node : Addr) : HeapM Unit := do
  disposeChildrenWith (destroyNodeAt (← get).next) node

/-- `reset`. -/
def reset (this : Addr) : HeapM Unit := do
  resetWith (destroyNodeAt (← get).next) this

/-- `_destroyNode`, or a local that goes out of scope. -/
def destroyNode (a : Addr) : HeapM Unit := do
  reset a
  release a

/-- A local `pjson` and the block it lives in. -/
def withLocal {α : Type} (alloc : AllocatorId) (body : Addr → HeapM α) : HeapM α := do
  let a ← construct alloc
  let v ← catchRethrow (body a) (destroyNode a)
  destroyNode a
  return v

/-- `_makeNode`, and the block up to the `release()` of its `OwnedNode`. -/
def withOwned {α : Type} (alloc : AllocatorId) (body : Addr → HeapM α) : HeapM α := do
  allocate M
  let a ← construct alloc
  catchRethrow (body a) (destroyNode a)

/-! ## Storage -/

/-- `_swapStorage`. -/
def swapStorage (left right : Addr) : HeapM Unit := do
  let l ← load left
  let r ← load right
  store left r.impl
  store right l.impl

/-- `resetTo`; a value outside the enumeration is not one of `JsonType`. -/
def resetTo (this : Addr) (type : JsonType) : HeapM Unit := do
  if type = .jsonNull then reset this
  else
    let alloc := (← load this).alloc
    withLocal alloc fun replacement => do
      allocateDomObject M alloc .ImplementationAllocation
      catchRethrow (allocateWrapper M alloc type) (deallocate alloc .ImplementationAllocation)
      store replacement type.initial
      swapStorage this replacement

/-- `resetIfNeeded`. -/
def resetIfNeeded (this : Addr) (type : JsonType) : HeapM Unit := do
  if (← load this).impl.eType = type then return () else resetTo M this type

/-- An assignment through `_pImpl`, to the member that goes with the value's kind; a string may
    allocate.  A null has none. -/
def assignValue (this : Addr) (value : Impl) : HeapM Unit := do
  let n ← load this
  if n.impl.eType ≠ value.eType then throw .fault
  else
    match value with
    | .jsonNull => return ()
    | .jsonString _ => do
      allocate M
      store this value
    | _ => store this value

/-- `_pValueArray`. -/
def elements (this : Addr) : HeapM (List Addr) := do
  match (← load this).impl with
  | .jsonArray es => return es
  | _ => throw .fault

/-- `_pValueMap`. -/
def members (this : Addr) : HeapM ObjectStorage := do
  match (← load this).impl with
  | .jsonObject object => return object
  | _ => throw .fault

/-- `push_back` within the capacity that has been reserved. -/
def pushReserved (this child : Addr) : HeapM Unit := do
  let es ← elements this
  store this (.jsonArray (es ++ [child]))

/-- `push_back` of a null slot, which may have to grow the array, and the child put into it. -/
def pushGrowing (this child : Addr) : HeapM Unit := do
  let es ← elements this
  if es.length ≥ M.maxSize then throw .lengthError
  else
    allocate M
    store this (.jsonArray (es ++ [child]))

/-- `insert` of a key, and the child put into its slot: the pair copies the key, and the map allocates
    its entry.  If the key is there, the result is the member it has. -/
def insertSlot (this : Addr) (key : Bytes) (child : Addr) : HeapM (Option Addr) := do
  let object ← members this
  allocate M
  allocate M
  match object.find key with
  | some existing => return some existing
  | none =>
    store this (.jsonObject (object.insert key child))
    return none

/-! ## The deep copy -/

/-- `_copyContentsInto` from a value that is not a container. -/
def copyScalarInto (dst source : Addr) : HeapM Unit :=
  catchRethrow (do
    let src ← load source
    resetTo M dst src.impl.eType
    assignValue M dst src.impl) (reset dst)

/-- The end of a round: a container is queued, any other child copied at once. -/
def copyChild (elem attached : Addr) (work : List (Addr × Addr)) : HeapM (List (Addr × Addr)) := do
  if (← load elem).impl.isContainer then
    allocate M
    return (elem, attached) :: work
  else
    copyScalarInto M attached elem
    return work

/-- The element loop of `_copyContentsInto`, with the work list that it extends at the front. -/
def copyElements (dst : Addr) : List Addr → List (Addr × Addr) → HeapM (List (Addr × Addr))
  | [], work => return work
  | elem :: rest, work => do
    let attached ← withOwned M (← load dst).alloc fun child => do
      resetTo M child (← load elem).impl.eType
      pushReserved dst child
      return child
    let work ← copyChild M elem attached work
    copyElements dst rest work

/-- The member loop of `_copyContentsInto`. -/
def copyMembers (dst : Addr) :
    List (Bytes × Addr) → List (Addr × Addr) → HeapM (List (Addr × Addr))
  | [], work => return work
  | (key, elem) :: rest, work => do
    let attached ← withOwned M (← load dst).alloc fun child => do
      resetTo M child (← load elem).impl.eType
      match ← insertSlot M dst key child with
      | none => return child
      | some _ => throw .logicError
    let work ← copyChild M elem attached work
    copyMembers dst rest work

/-- The loop of `_copyContentsInto` over pairs of a source and a destination. -/
def copyLoop : Nat → List (Addr × Addr) → HeapM Unit
  | _, [] => return ()
  | 0, _ :: _ => throw .fuel
  | fuel + 1, (src, dst) :: work => do
    match (← load src).impl with
    | .jsonArray es =>
      allocate M
      let work ← copyElements M dst es work
      copyLoop fuel work
    | .jsonObject object =>
      let work ← copyMembers M dst object.members work
      copyLoop fuel work
    | _ => throw .fault

/-- `_copyContentsInto`. -/
def copyContentsInto (dst source : Addr) : HeapM Unit :=
  catchRethrow (do
    let src ← load source
    resetTo M dst src.impl.eType
    if src.impl.isContainer then
      allocate M
      copyLoop M (← get).next [(source, dst)]
    else assignValue M dst src.impl) (reset dst)

/-! ## Ancestry -/

/-- The pushes of one round of `_containsNode`. -/
def pushAll : List Addr → List Addr → HeapM (List Addr)
  | [], work => return work
  | c :: cs, work => do
    allocate M
    pushAll cs (c :: work)

/-- The loop of `_containsNode`. -/
def containsLoop (node : Addr) : Nat → List Addr → HeapM Bool
  | _, [] => return false
  | 0, _ :: _ => throw .fuel
  | fuel + 1, cur :: work => do
    if cur = node then return true
    else
      let work ← pushAll M (← load cur).impl.children work
      containsLoop node fuel work

/-- `_containsNode`: an allocation failure counts as overlap. -/
def containsNode (root node : Addr) : HeapM Bool :=
  tryCatch (do
    allocate M
    containsLoop M node (← get).next [root]) fun e =>
      if e = .badAlloc then return true else throw e

end Memory

end ByteDance
