/-
  Places inside a value.

  A `Location` is the way from a root to one of its nodes, member by member and element by
  element; it stands for a `pjson*` into the tree of that root.  `Pjson.get` follows a location,
  `Pjson.modify` changes the node there and nothing else.
-/
import Pjson.Dom.Value

namespace ByteDance

/-- From a container to one of its children. -/
inductive Step where
  | member (key : Bytes)
  | element (index : Nat)
  deriving DecidableEq

abbrev Location := List Step

namespace Pjson

/-- The child a step leads to. -/
def child : Step → Pjson → Option Pjson
  | .member key, .jsonObject members => Assoc.find key members
  | .element index, .jsonArray elements => elements[index]?
  | _, _ => none

/-- Changes the child a step leads to, if there is one. -/
def modifyChild (f : Pjson → Pjson) : Step → Pjson → Pjson
  | .member key, .jsonObject members => .jsonObject (Assoc.modify key f members)
  | .element index, .jsonArray elements => .jsonArray (elements.modify index f)
  | _, v => v

/-- The node at a location. -/
def get : Location → Pjson → Option Pjson
  | [], v => some v
  | step :: loc, v => (v.child step).bind (get loc)

/-- Changes the node at a location, if there is one. -/
def modify (f : Pjson → Pjson) : Location → Pjson → Pjson
  | [], v => f v
  | step :: loc, v => v.modifyChild (modify f loc) step

/-- Replaces the node at a location. -/
def put (v : Pjson) (loc : Location) (w : Pjson) : Pjson := v.modify (fun _ => w) loc

@[simp] theorem get_nil (v : Pjson) : v.get [] = some v := rfl

@[simp] theorem get_cons (step : Step) (loc : Location) (v : Pjson) :
    v.get (step :: loc) = (v.child step).bind (get loc) := rfl

@[simp] theorem modify_cons (f : Pjson → Pjson) (step : Step) (loc : Location) (v : Pjson) :
    v.modify f (step :: loc) = v.modifyChild (modify f loc) step := rfl

theorem get_append (loc loc' : Location) (v : Pjson) :
    v.get (loc ++ loc') = (v.get loc).bind (get loc') := by
  induction loc generalizing v with
  | nil => rfl
  | cons step loc ih =>
    rw [List.cons_append, get_cons, get_cons]
    cases v.child step with
    | none => rfl
    | some c => exact ih c

theorem modify_append (f : Pjson → Pjson) (loc loc' : Location) (v : Pjson) :
    v.modify f (loc ++ loc') = v.modify (modify f loc') loc := by
  induction loc generalizing v with
  | nil => rfl
  | cons step loc ih =>
    rw [List.cons_append, modify_cons, modify_cons]
    congr 1
    funext c
    exact ih c

/-! ## One step -/

theorem child_modifyChild_self (f : Pjson → Pjson) (step : Step) (v : Pjson) :
    (v.modifyChild f step).child step = (v.child step).map f := by
  cases step with
  | member key =>
    cases v with
    | jsonObject ms =>
      show Assoc.find key (Assoc.modify key f ms) = (Assoc.find key ms).map f
      rw [Assoc.find_modify, if_pos rfl]
    | _ => rfl
  | element index =>
    cases v with
    | jsonArray xs =>
      show (xs.modify index f)[index]? = xs[index]?.map f
      rw [List.getElem?_modify_eq, Option.map_eq_map]
    | _ => rfl

/-! ## Reading after writing -/

theorem get_modify_self (f : Pjson → Pjson) (loc : Location) (v : Pjson) :
    (v.modify f loc).get loc = (v.get loc).map f := by
  induction loc generalizing v with
  | nil => rfl
  | cons step loc ih =>
    rw [modify_cons, get_cons, get_cons, child_modifyChild_self]
    cases v.child step with
    | none => rfl
    | some c => exact ih c

theorem get_put_self {loc : Location} {v old : Pjson} (w : Pjson) (h : v.get loc = some old) :
    (v.put loc w).get loc = some w := by
  rw [put, get_modify_self, h]
  rfl

end Pjson

end ByteDance
