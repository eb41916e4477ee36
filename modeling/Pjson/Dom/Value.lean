/-
  The value a `pjson` node denotes.

  `Pjson` has one constructor for each enumerator of `pjson::jsonType`.  Strings and keys are
  byte strings (`std::string` promises nothing about their encoding), the three number kinds
  keep their own machine type, arrays are lists, and an object is the list of its members in
  the order its hash map enumerates them.  That order is an accident of the container: nothing
  may depend on it, and a lookup (`Assoc.find`) does not.  `Pjson.WF` is what the map gives for
  free: no object repeats a key, at any depth.

  Recursions over a value come with a companion over its element list and one over its member
  list; inductions use `Pjson.induct`, whose container cases hand over the hypothesis for every
  element or member value.
-/
import Pjson.Lib.Utf8
import Pjson.Lib.Assoc
import Pjson.Lib.Binary64

namespace ByteDance

/-- `std::string`. -/
abbrev Bytes := List UInt8

/-- A document node by value; the constructors are the enumerators of `pjson::jsonType`. -/
inductive Pjson where
  | jsonNull
  | jsonString (value : Bytes)
  | jsonNumberInt (value : Int64)
  | jsonNumberDouble (value : Binary64)
  | jsonBoolean (value : Bool)
  | jsonArray (elements : List Pjson)
  | jsonObject (members : List (Bytes × Pjson))
  | jsonNumberUInt (value : UInt64)

instance : Inhabited Pjson := ⟨.jsonNull⟩

namespace Pjson

/-- Induction on a value: a container's case may assume every child. -/
@[elab_as_elim]
theorem induct {motive : Pjson → Prop} (jsonNull : motive .jsonNull)
    (jsonString : ∀ s, motive (.jsonString s)) (jsonNumberInt : ∀ n, motive (.jsonNumberInt n))
    (jsonNumberDouble : ∀ d, motive (.jsonNumberDouble d))
    (jsonBoolean : ∀ b, motive (.jsonBoolean b))
    (jsonArray : ∀ xs, (∀ x ∈ xs, motive x) → motive (.jsonArray xs))
    (jsonObject : ∀ ms, (∀ m ∈ ms, motive m.2) → motive (.jsonObject ms))
    (jsonNumberUInt : ∀ n, motive (.jsonNumberUInt n)) : ∀ v, motive v
  | .jsonNull => jsonNull
  | .jsonString s => jsonString s
  | .jsonNumberInt n => jsonNumberInt n
  | .jsonNumberDouble d => jsonNumberDouble d
  | .jsonBoolean b => jsonBoolean b
  | .jsonArray xs => jsonArray xs fun x hx =>
      have : sizeOf x < sizeOf xs := List.sizeOf_lt_of_mem hx
      induct jsonNull jsonString jsonNumberInt jsonNumberDouble jsonBoolean jsonArray jsonObject
        jsonNumberUInt x
  | .jsonObject ms => jsonObject ms fun m hm =>
      have h₁ : sizeOf m < sizeOf ms := List.sizeOf_lt_of_mem hm
      have h₂ : sizeOf m.2 < sizeOf m := by cases m; simp
      induct jsonNull jsonString jsonNumberInt jsonNumberDouble jsonBoolean jsonArray jsonObject
        jsonNumberUInt m.2
  | .jsonNumberUInt n => jsonNumberUInt n
termination_by v => sizeOf v
decreasing_by all_goals simp only [Pjson.jsonArray.sizeOf_spec, Pjson.jsonObject.sizeOf_spec]; omega

/-- Whether the node holds one of the three number kinds. -/
def isNumber : Pjson → Bool
  | .jsonNumberInt _ | .jsonNumberDouble _ | .jsonNumberUInt _ => true
  | _ => false

mutual
/-- The number of nodes of a value, itself included; keys are not nodes. -/
def nodes : Pjson → Nat
  | .jsonArray xs => 1 + nodesElements xs
  | .jsonObject ms => 1 + nodesMembers ms
  | _ => 1
def nodesElements : List Pjson → Nat
  | [] => 0
  | x :: xs => nodes x + nodesElements xs
def nodesMembers : List (Bytes × Pjson) → Nat
  | [] => 0
  | (_, v) :: ms => nodes v + nodesMembers ms
end

mutual
/-- How many containers deep a value nests: a scalar is at depth 0. -/
def depth : Pjson → Nat
  | .jsonArray xs => 1 + depthElements xs
  | .jsonObject ms => 1 + depthMembers ms
  | _ => 0
def depthElements : List Pjson → Nat
  | [] => 0
  | x :: xs => max (depth x) (depthElements xs)
def depthMembers : List (Bytes × Pjson) → Nat
  | [] => 0
  | (_, v) :: ms => max (depth v) (depthMembers ms)
end

mutual
/-- No object of the value repeats a key. -/
def WF : Pjson → Prop
  | .jsonArray xs => WFElements xs
  | .jsonObject ms => Assoc.UniqueKeys ms ∧ WFMembers ms
  | _ => True
def WFElements : List Pjson → Prop
  | [] => True
  | x :: xs => WF x ∧ WFElements xs
def WFMembers : List (Bytes × Pjson) → Prop
  | [] => True
  | (_, v) :: ms => WF v ∧ WFMembers ms
end

theorem wfElements_iff : ∀ {xs : List Pjson}, WFElements xs ↔ ∀ x ∈ xs, x.WF
  | [] => by simp [WFElements]
  | x :: xs => by simp [WFElements, wfElements_iff]

theorem wfMembers_iff : ∀ {ms : List (Bytes × Pjson)}, WFMembers ms ↔ ∀ m ∈ ms, m.2.WF
  | [] => by simp [WFMembers]
  | (k, v) :: ms => by simp [WFMembers, wfMembers_iff]

theorem wf_array {xs : List Pjson} : (jsonArray xs).WF ↔ ∀ x ∈ xs, x.WF := by
  rw [WF, wfElements_iff]

theorem wf_object {ms : List (Bytes × Pjson)} :
    (jsonObject ms).WF ↔ Assoc.UniqueKeys ms ∧ ∀ m ∈ ms, m.2.WF := by
  rw [WF, wfMembers_iff]

theorem nodesElements_eq_sum : ∀ xs : List Pjson, nodesElements xs = (xs.map nodes).sum
  | [] => rfl
  | x :: xs => by
      rw [nodesElements, List.map_cons, List.sum_cons, nodesElements_eq_sum xs]

theorem nodesMembers_eq_sum : ∀ ms : List (Bytes × Pjson),
    nodesMembers ms = (ms.map fun m => m.2.nodes).sum
  | [] => rfl
  | (k, v) :: ms => by
      rw [nodesMembers, List.map_cons, List.sum_cons, nodesMembers_eq_sum ms]

theorem nodes_pos (v : Pjson) : 0 < v.nodes := by
  cases v <;> simp only [nodes] <;> omega

mutual
/-- The doubles in a value. -/
def doubles : Pjson → List Binary64
  | .jsonNumberDouble d => [d]
  | .jsonArray xs => doublesElements xs
  | .jsonObject ms => doublesMembers ms
  | _ => []
def doublesElements : List Pjson → List Binary64
  | [] => []
  | x :: xs => doubles x ++ doublesElements xs
def doublesMembers : List (Bytes × Pjson) → List Binary64
  | [] => []
  | (_, x) :: ms => doubles x ++ doublesMembers ms
end

theorem mem_doublesElements_iff {d : Binary64} : ∀ {xs : List Pjson},
    d ∈ doublesElements xs ↔ ∃ x ∈ xs, d ∈ x.doubles
  | [] => by simp [doublesElements]
  | x :: xs => by simp [doublesElements, mem_doublesElements_iff]

theorem mem_doublesMembers_iff {d : Binary64} : ∀ {ms : List (Bytes × Pjson)},
    d ∈ doublesMembers ms ↔ ∃ m ∈ ms, d ∈ m.2.doubles
  | [] => by simp [doublesMembers]
  | (k, x) :: ms => by simp [doublesMembers, mem_doublesMembers_iff]

end Pjson

end ByteDance
