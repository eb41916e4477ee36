/-
  What the operations of a JSON Patch cost.

  The prices are functions of an operation and of the document it meets: they name no order of members
  and no way of counting.  `cloneCost` adds up over a document, so an edit changes the price of the
  whole by the prices of what came and went (`cloneCost_put`), and `Operation.cloneCost_le` follows:
  what an operation adds to a document has been paid for.
-/
import Pjson.Patch.Clone
import Pjson.Patch.Rfc6902

namespace Assoc

variable {κ α M : Type} [DecidableEq κ] [AddCommMonoid M] (g : κ × α → M)

/-! ## Sums over the entries of a map -/

theorem sum_modify {k : κ} {a : α} {f : α → α} : ∀ {m : List (κ × α)}, find k m = some a →
    ((modify k f m).map g).sum + g (k, a) = (m.map g).sum + g (k, f a)
  | (k₁, a₁) :: t, h => by
      by_cases h₁ : k₁ = k
      · subst h₁
        rw [find, if_pos rfl] at h
        cases h
        rw [modify, if_pos rfl, List.map_cons, List.sum_cons, List.map_cons, List.sum_cons]
        rw [add_comm (g (k₁, f a)), add_right_comm, add_comm (g (k₁, a))]
      · rw [find, if_neg h₁] at h
        rw [modify, if_neg h₁, List.map_cons, List.sum_cons, List.map_cons, List.sum_cons, add_assoc,
          sum_modify h, add_assoc]

theorem sum_drop {k : κ} {a : α} : ∀ {m : List (κ × α)}, find k m = some a →
    ((drop k m).map g).sum + g (k, a) = (m.map g).sum
  | (k₁, a₁) :: t, h => by
      by_cases h₁ : k₁ = k
      · subst h₁
        rw [find, if_pos rfl] at h
        cases h
        rw [drop, if_pos rfl, List.map_cons, List.sum_cons, add_comm]
      · rw [find, if_neg h₁] at h
        rw [drop, if_neg h₁, List.map_cons, List.sum_cons, List.map_cons, List.sum_cons, add_assoc,
          sum_drop h]

/-- An assignment to a key that is there. -/
theorem assign_eq_modify {k : κ} {a : α} : ∀ {m : List (κ × α)}, k ∈ keys m →
    assign k a m = modify k (fun _ => a) m
  | (k₁, a₁) :: t, h => by
      by_cases h₁ : k₁ = k
      · rw [assign, if_pos h₁, modify, if_pos h₁]
      · rw [assign, if_neg h₁, modify, if_neg h₁,
          assign_eq_modify ((List.mem_cons.mp h).resolve_left (Ne.symm h₁))]

end Assoc

namespace ByteDance

namespace Patch

variable (nodeSize : Nat)

/-! ## The price of an edited document -/

/-- What a member costs. -/
def memberCost (m : Bytes × Pjson) : Cost := Cost.of .bytes m.1.length + cloneCost nodeSize m.2

theorem cloneCost_members (ms : List (Bytes × Pjson)) :
    cloneCost nodeSize (.jsonObject ms) = nodeCost nodeSize + (ms.map (memberCost nodeSize)).sum := by
  rw [cloneCost_object]
  congr 1
  induction ms with
  | nil => simp [Cost.of]
  | cons m ms ih =>
    have hkey : Cost.of .bytes (m.1.length + (ms.map fun m => m.1.length).sum) =
        Cost.of .bytes m.1.length + Cost.of .bytes (ms.map fun m => m.1.length).sum := Pi.single_add _ _ _
    rw [List.map_cons, List.map_cons, List.map_cons, List.map_cons, List.sum_cons, List.sum_cons,
      List.sum_cons, ← ih, hkey, memberCost]
    exact add_add_add_comm _ _ _ _

theorem sum_modify_elements (f : Pjson → Pjson) {xs : List Pjson} {i : Nat} {c : Pjson}
    (h : xs[i]? = some c) : ((xs.modify i f).map (cloneCost nodeSize)).sum + cloneCost nodeSize c =
      (xs.map (cloneCost nodeSize)).sum + cloneCost nodeSize (f c) := by
  induction xs generalizing i with
  | nil => cases h
  | cons x xs ih =>
    cases i with
    | zero =>
      obtain rfl : x = c := Option.some.inj h
      rw [List.modify_zero_cons, List.map_cons, List.sum_cons, List.map_cons, List.sum_cons,
        add_comm (cloneCost nodeSize (f x)), add_comm (cloneCost nodeSize x), add_right_comm]
    | succ i =>
      rw [List.modify_succ_cons, List.map_cons, List.sum_cons, List.map_cons, List.sum_cons, add_assoc,
        ih (i := i) h, add_assoc]

theorem cloneCost_modifyChild (f : Pjson → Pjson) {v c : Pjson} {step : Step} (h : v.child step = some c) :
    cloneCost nodeSize (v.modifyChild f step) + cloneCost nodeSize c =
      cloneCost nodeSize v + cloneCost nodeSize (f c) := by
  cases step with
  | member key =>
    cases v with
    | jsonObject ms =>
      have hsum := Assoc.sum_modify (memberCost nodeSize) (f := f)
        (show Assoc.find key ms = some c from h)
      rw [memberCost, memberCost, add_left_comm, add_left_comm _ (Cost.of _ _)] at hsum
      show cloneCost nodeSize (.jsonObject (Assoc.modify key f ms)) + _ = _
      rw [cloneCost_members, cloneCost_members, add_assoc, add_left_cancel hsum, add_assoc]
    | _ => cases h
  | element index =>
    cases v with
    | jsonArray xs =>
      show cloneCost nodeSize (.jsonArray (xs.modify index f)) + _ = _
      rw [cloneCost_array, cloneCost_array, add_assoc, sum_modify_elements nodeSize f h, add_assoc]
    | _ => cases h

/-- **An edit changes the price** by what came and what went. -/
theorem cloneCost_put {v old : Pjson} {loc : Location} (h : v.get loc = some old) (w : Pjson) :
    cloneCost nodeSize (v.put loc w) + cloneCost nodeSize old = cloneCost nodeSize v + cloneCost nodeSize w := by
  induction loc generalizing v with
  | nil =>
    cases h
    exact add_comm _ _
  | cons step loc ih =>
    rw [Pjson.get_cons] at h
    obtain ⟨c, hc, hget⟩ := Option.bind_eq_some_iff.mp h
    have hstep := cloneCost_modifyChild nodeSize (Pjson.modify (fun _ => w) loc) hc
    have hrec := ih hget
    rw [Pjson.put] at hrec ⊢
    rw [Pjson.modify_cons]
    refine add_right_cancel (b := cloneCost nodeSize c) ?_
    rw [add_right_comm, hstep, add_assoc, hrec, add_assoc, add_comm (cloneCost nodeSize c)]

/-! ## The prices -/

/-- The price of decoding the text of a pointer. -/
def decodeCost (tokens : List Bytes) : Cost := Cost.of .work ((pointerText tokens).length + 1)

/-- The price of following the first `count` tokens of a pointer. -/
def resolveCost (count : Nat) : Cost := Cost.of .work (count + 1)

/-- The price of a change to the container that holds what a pointer refers to; `whole` is the case of
    the document itself. -/
def parentCost (whole : Cost) (f : Bytes → Pjson → Cost) (path : List Bytes) (v : Pjson) : Cost :=
  path.getLast?.elim whole fun token =>
    resolveCost path.dropLast.length + (Rfc6901.evaluate path.dropLast v).elim 0 (f token)

/-- A new key is copied, and the elements behind a new one are moved. -/
def insertCost (token : Bytes) : Pjson → Cost
  | .jsonObject members => if token ∈ Assoc.keys members then 0 else Cost.of .bytes token.length
  | .jsonArray elements =>
      (Rfc6901.arrayIndex token).elim 0 fun index => Cost.of .work (elements.length - index)
  | _ => 0

/-- The elements behind a removed one are moved. -/
def removeChildCost (token : Bytes) : Pjson → Cost
  | .jsonArray elements =>
      (Rfc6901.arrayIndex token).elim 0 fun index => Cost.of .work (elements.length - index - 1)
  | _ => 0

def addCost (path : List Bytes) (v : Pjson) : Cost := parentCost 0 insertCost path v

/-- A null takes the place of a document that is removed. -/
def removeCost (path : List Bytes) (v : Pjson) : Cost :=
  parentCost (Cost.of .nodes 1 + Cost.of .bytes nodeSize) removeChildCost path v

def replaceCost (path : List Bytes) (v : Pjson) : Cost := parentCost 0 (fun _ _ => 0) path v

end Patch

namespace Pjson

mutual
/-- The steps of a comparison of a value with an equal one. -/
def equalWork : Pjson → Nat
  | .jsonString s => 1 + s.length
  | .jsonArray xs => 1 + equalWorkElements xs
  | .jsonObject ms => 1 + equalWorkMembers ms
  | _ => 1
def equalWorkElements : List Pjson → Nat
  | [] => 0
  | x :: xs => equalWork x + equalWorkElements xs
def equalWorkMembers : List (Bytes × Pjson) → Nat
  | [] => 0
  | (k, x) :: ms => k.length + 1 + equalWork x + equalWorkMembers ms
end

end Pjson

namespace Rfc6902

open Patch

/-- What an operation costs on a document where it has a result. -/
def Operation.cost (nodeSize : Nat) : Operation → Pjson → Cost
  | .add path value, v => decodeCost path + (cloneCost nodeSize value + addCost path v)
  | .remove path, v => decodeCost path + removeCost nodeSize path v
  | .replace path value, v => decodeCost path + (cloneCost nodeSize value + replaceCost path v)
  | .move source path, v => decodeCost path + (decodeCost source + (resolveCost source.length +
      if source = path then 0
      else removeCost nodeSize source v + (Rfc6902.remove source v).elim 0 (addCost path)))
  | .copy source path, v => decodeCost path + (decodeCost source + (resolveCost source.length +
      ((Rfc6901.evaluate source v).elim 0 (cloneCost nodeSize) + addCost path v)))
  | .test path _, v => decodeCost path + (resolveCost path.length +
      (Rfc6901.evaluate path v).elim 0 fun w => Cost.of .work w.equalWork)

/-- What an element of a patch yields on a document, and at what price. -/
inductive Bills (nodeSize : Nat) (v : Pjson) : Pjson → Option Pjson → Cost → Prop
  | operation {members operation} : Denotes members operation →
      Bills nodeSize v (.jsonObject members) (operation.apply v) (operation.cost nodeSize v)
  | malformed {element} (c : Cost) :
      (∀ members operation, element = .jsonObject members → ¬ Denotes members operation) →
      Bills nodeSize v element none c

/-- The operations one after the other, with what they cost together. -/
inductive Charges (nodeSize : Nat) : List Pjson → Pjson → Cost → Pjson → Prop
  | nil (v : Pjson) : Charges nodeSize [] v 0 v
  | cons {element rest v v' v'' c d} : Bills nodeSize v element (some v') c →
      Charges nodeSize rest v' d v'' → Charges nodeSize (element :: rest) v (c + d) v''

end Rfc6902

namespace Patch

variable (nodeSize : Nat)

/-! ## What an operation adds -/

theorem cloneCost_insertChild {token : Bytes} {value w w' : Pjson}
    (h : Rfc6902.insertChild token value w = some w') :
    cloneCost nodeSize w' ≤ cloneCost nodeSize w + (cloneCost nodeSize value + insertCost token w) := by
  cases w with
  | jsonObject members =>
    rw [Rfc6902.insertChild] at h
    cases h
    rw [cloneCost_members, cloneCost_members, insertCost]
    by_cases hkey : token ∈ Assoc.keys members
    · obtain ⟨old, hold⟩ := Option.isSome_iff_exists.mp (Assoc.find_isSome_iff.mpr hkey)
      have hsum := Assoc.sum_modify (memberCost nodeSize) (f := fun _ => value) hold
      rw [memberCost, memberCost, add_left_comm, add_left_comm _ (Cost.of _ _)] at hsum
      have hsum := add_left_cancel hsum
      rw [if_pos hkey, Assoc.assign_eq_modify hkey, add_zero, add_assoc, ← hsum]
      exact add_le_add le_rfl le_self_add
    · rw [if_neg hkey, Assoc.assign_of_notMem hkey, List.map_append, List.sum_append, List.map_singleton,
        List.sum_singleton, memberCost, add_assoc, add_comm (Cost.of _ _)]
  | jsonArray elements =>
    have hinsert : ∀ index, index ≤ elements.length →
        cloneCost nodeSize (.jsonArray (elements.insertIdx index value)) ≤
          cloneCost nodeSize (.jsonArray elements) +
            (cloneCost nodeSize value + insertCost token (.jsonArray elements)) := by
      intro index hindex
      rw [cloneCost_array, cloneCost_array, ((List.perm_insertIdx value elements hindex).map _).sum_eq,
        List.map_cons, List.sum_cons, add_assoc, add_comm (cloneCost nodeSize value)]
      exact add_le_add le_rfl (add_le_add le_rfl le_self_add)
    rw [Rfc6902.insertChild] at h
    split_ifs at h with happend
    · cases h
      have := hinsert elements.length le_rfl
      rwa [List.insertIdx_length_self] at this
    · obtain ⟨index, -, h⟩ := Option.bind_eq_some_iff.mp h
      split_ifs at h with hindex
      cases h
      exact hinsert index hindex
  | _ => cases h

/-- What is left and what has been taken out. -/
theorem cloneCost_removeChild {token : Bytes} {w w' c : Pjson} {step : Step}
    (h : Rfc6902.removeChild token w = some w') (hstep : Rfc6901.reference token w = some step)
    (hc : w.child step = some c) : cloneCost nodeSize w' + cloneCost nodeSize c ≤ cloneCost nodeSize w := by
  cases w with
  | jsonObject members =>
    rw [Rfc6901.reference] at hstep
    rw [Rfc6902.removeChild] at h
    split_ifs at h with hkey
    rw [if_pos hkey] at hstep
    cases hstep
    cases h
    have hsum := Assoc.sum_drop (memberCost nodeSize) (show Assoc.find token members = some c from hc)
    rw [cloneCost_members, cloneCost_members, ← hsum, add_assoc]
    exact add_le_add le_rfl (add_le_add le_rfl le_add_self)
  | jsonArray elements =>
    rw [Rfc6901.reference] at hstep
    rw [Rfc6902.removeChild] at h
    obtain ⟨index, hindex, h⟩ := Option.bind_eq_some_iff.mp h
    split_ifs at h with hlt
    cases h
    rw [hindex] at hstep
    dsimp only at hstep
    rw [if_pos hlt] at hstep
    cases hstep
    have hget : elements[index] = c := by
      have hc' : elements[index]? = some c := hc
      rw [List.getElem?_eq_getElem hlt] at hc'
      exact Option.some.inj hc'
    have hsum := ((List.getElem_cons_eraseIdx_perm hlt).map (cloneCost nodeSize)).sum_eq
    rw [List.map_cons, List.sum_cons, hget] at hsum
    rw [cloneCost_array, cloneCost_array, ← hsum, add_assoc, add_comm (cloneCost nodeSize c)]
  | _ => cases h

/-- An edit adds to a document what it adds to the node it changes. -/
theorem cloneCost_edit {f : Pjson → Option Pjson} {tokens : List Bytes} {v v' : Pjson} {d : Cost} {c : Pjson → Cost}
    (hf : ∀ w w', Rfc6901.evaluate tokens v = some w → f w = some w' →
      cloneCost nodeSize w' + d ≤ cloneCost nodeSize w + c w)
    (h : Rfc6902.edit f tokens v = some v') :
    cloneCost nodeSize v' + d ≤ cloneCost nodeSize v + (Rfc6901.evaluate tokens v).elim 0 c := by
  obtain ⟨loc, hloc, h⟩ := Option.bind_eq_some_iff.mp h
  obtain ⟨w', hw', rfl⟩ := Option.map_eq_some_iff.mp h
  obtain ⟨w, hw, hf'⟩ := Option.bind_eq_some_iff.mp hw'
  have heval : Rfc6901.evaluate tokens v = some w := by
    rw [Rfc6901.evaluate, hloc, Option.bind_some, hw]
  have hput := cloneCost_put nodeSize hw w'
  have hle := hf w w' heval hf'
  rw [heval, Option.elim_some]
  refine le_of_add_le_add_right (a := cloneCost nodeSize w) ?_
  calc cloneCost nodeSize (v.put loc w') + d + cloneCost nodeSize w
      = cloneCost nodeSize v + (cloneCost nodeSize w' + d) := by rw [add_right_comm, hput, add_assoc]
    _ ≤ cloneCost nodeSize v + (cloneCost nodeSize w + c w) := add_le_add le_rfl hle
    _ = cloneCost nodeSize v + c w + cloneCost nodeSize w := by rw [add_comm (cloneCost nodeSize w), add_assoc]

theorem cloneCost_add {path : List Bytes} {value v v' : Pjson} (h : Rfc6902.add path value v = some v') :
    cloneCost nodeSize v' ≤ cloneCost nodeSize v + (cloneCost nodeSize value + addCost path v) := by
  rw [Rfc6902.add, Rfc6902.editParent] at h
  rw [addCost, parentCost]
  cases hlast : path.getLast? with
  | none =>
    rw [hlast] at h
    cases h
    rw [Option.elim_none, add_zero]
    exact le_add_self
  | some token =>
    rw [hlast] at h
    have hedit := cloneCost_edit nodeSize (d := 0) (c := fun w => cloneCost nodeSize value + insertCost token w)
      (fun w w' _ hw' => by rw [add_zero]; exact cloneCost_insertChild nodeSize hw') h
    rw [add_zero] at hedit
    refine hedit.trans (add_le_add le_rfl ?_)
    rw [Option.elim_some]
    cases Rfc6901.evaluate path.dropLast v with
    | none => exact bot_le
    | some w => exact add_le_add le_rfl le_add_self

theorem dropLast_concat_getLast? {α : Type} {xs : List α} {x : α} (h : xs.getLast? = some x) :
    xs.dropLast ++ [x] = xs := by
  obtain ⟨ys, rfl⟩ := List.getLast?_eq_some_iff.mp h
  rw [List.dropLast_concat]

theorem cloneCost_replace {path : List Bytes} {value v v' : Pjson}
    (h : Rfc6902.replace path value v = some v') :
    cloneCost nodeSize v' ≤ cloneCost nodeSize v + cloneCost nodeSize value := by
  have hedit := cloneCost_edit nodeSize (d := 0) (c := fun _ => cloneCost nodeSize value) ?_ h
  · rw [add_zero] at hedit
    refine hedit.trans (add_le_add le_rfl ?_)
    cases Rfc6901.evaluate path v with
    | none => exact bot_le
    | some w => exact le_rfl
  · intro w w' _ hw'
    cases hw'
    rw [add_zero]
    exact le_add_self

/-- A child that can be removed is there. -/
theorem child_of_removeChild {token : Bytes} {w w' : Pjson} (h : Rfc6902.removeChild token w = some w') :
    ∃ step c, Rfc6901.reference token w = some step ∧ w.child step = some c := by
  have hstep : ∃ step, Rfc6901.reference token w = some step := by
    cases w with
    | jsonObject members =>
      rw [Rfc6902.removeChild] at h
      split_ifs at h with hkey
      exact ⟨_, by rw [Rfc6901.reference, if_pos hkey]⟩
    | jsonArray elements =>
      rw [Rfc6902.removeChild] at h
      obtain ⟨index, hindex, h⟩ := Option.bind_eq_some_iff.mp h
      split_ifs at h with hlt
      refine ⟨.element index, ?_⟩
      rw [Rfc6901.reference, hindex]
      dsimp only
      rw [if_pos hlt]
    | _ => cases h
  obtain ⟨step, hstep⟩ := hstep
  obtain ⟨c, hc⟩ := Rfc6901.exists_child_of_reference hstep
  exact ⟨step, c, hstep, hc⟩

/-- A value that can be removed is there. -/
theorem evaluate_of_remove {path : List Bytes} {v left : Pjson} (h : Rfc6902.remove path v = some left) :
    ∃ removed, Rfc6901.evaluate path v = some removed := by
  rw [Rfc6902.remove, Rfc6902.editParent] at h
  cases hlast : path.getLast? with
  | none =>
    rw [List.getLast?_eq_none_iff.mp hlast]
    exact ⟨v, rfl⟩
  | some token =>
    rw [hlast] at h
    obtain ⟨loc, hloc, h⟩ := Option.bind_eq_some_iff.mp h
    obtain ⟨w', hw', -⟩ := Option.map_eq_some_iff.mp h
    obtain ⟨w, hw, hremove⟩ := Option.bind_eq_some_iff.mp hw'
    obtain ⟨step, c, hstep, hc⟩ := child_of_removeChild hremove
    refine ⟨c, ?_⟩
    rw [← dropLast_concat_getLast? hlast, Rfc6901.evaluate_concat, Rfc6901.evaluate, hloc,
      Option.bind_some, hw, Option.bind_some, hstep, Option.bind_some, hc]

/-- What is left of a container's document and what has been taken out of it. -/
theorem cloneCost_remove_child {path : List Bytes} {token : Bytes} {v left removed : Pjson}
    (hlast : path.getLast? = some token) (h : Rfc6902.remove path v = some left)
    (heval : Rfc6901.evaluate path v = some removed) :
    cloneCost nodeSize left + cloneCost nodeSize removed ≤ cloneCost nodeSize v := by
  rw [Rfc6902.remove, Rfc6902.editParent, hlast] at h
  rw [← dropLast_concat_getLast? hlast, Rfc6901.evaluate_concat] at heval
  have hedit := cloneCost_edit nodeSize (d := cloneCost nodeSize removed) (c := fun _ => 0) ?_ h
  · refine hedit.trans ?_
    cases Rfc6901.evaluate path.dropLast v <;> exact (add_zero _).le
  · intro w w' hw hw'
    rw [hw, Option.bind_some] at heval
    obtain ⟨step, hstep, hc⟩ := Option.bind_eq_some_iff.mp heval
    rw [add_zero]
    exact cloneCost_removeChild nodeSize hw' hstep hc

/-- What a removal leaves and what it takes out, together, are worth no more than the document and the
    null in its place. -/
theorem cloneCost_remove {path : List Bytes} {v left removed : Pjson}
    (h : Rfc6902.remove path v = some left) (heval : Rfc6901.evaluate path v = some removed) {r : Resource}
    (hr : r ≠ .work) : cloneCost nodeSize left r + cloneCost nodeSize removed r ≤
      cloneCost nodeSize v r + removeCost nodeSize path v r := by
  cases hlast : path.getLast? with
  | none =>
    rw [Rfc6902.remove, Rfc6902.editParent, hlast] at h
    cases h
    rw [List.getLast?_eq_none_iff.mp hlast] at heval
    cases heval
    rw [removeCost, parentCost, hlast, cloneCost_leaf nodeSize rfl rfl, nodeCost_apply, Option.elim_none,
      Pi.add_apply]
    cases r with
    | work => exact absurd rfl hr
    | operations => exact (Nat.add_comm _ _).le
    | nodes =>
      have hnode : Cost.of .nodes 1 .nodes = 1 := Pi.single_eq_same _ _
      have hbytes : Cost.of .bytes nodeSize .nodes = 0 := Pi.single_eq_of_ne (by decide) _
      rw [hnode, hbytes]
      exact (Nat.add_comm _ _).le
    | bytes =>
      have hnode : Cost.of .nodes 1 .bytes = 0 := Pi.single_eq_of_ne (by decide) _
      have hbytes : Cost.of .bytes nodeSize .bytes = nodeSize := Pi.single_eq_same _ _
      rw [hnode, hbytes, Nat.zero_add]
      exact (Nat.add_comm _ _).le
  | some token => exact (cloneCost_remove_child nodeSize hlast h heval r).trans (Nat.le_add_right _ _)

/-- What a removal leaves is no larger than the document. -/
theorem nodes_le_of_remove {path : List Bytes} {v left : Pjson} (h : Rfc6902.remove path v = some left) :
    left.nodes ≤ v.nodes := by
  cases hlast : path.getLast? with
  | none =>
    rw [Rfc6902.remove, Rfc6902.editParent, hlast] at h
    cases h
    exact v.nodes_pos
  | some token =>
    obtain ⟨removed, heval⟩ := evaluate_of_remove h
    exact (Nat.le_add_right _ _).trans (cloneCost_remove_child 0 hlast h heval .nodes)

end Patch

namespace Rfc6902

open Patch

/-- **What an operation adds has been paid for.** -/
theorem Operation.cloneCost_le {nodeSize : Nat} {operation : Operation} {v v' : Pjson}
    (h : operation.apply v = some v') {r : Resource} (hr : r ≠ .work) :
    cloneCost nodeSize v' r ≤ cloneCost nodeSize v r + operation.cost nodeSize v r := by
  cases operation with
  | add path value =>
    have hadd := cloneCost_add nodeSize h r
    simp only [Pi.add_apply] at hadd
    simp only [Operation.cost, Pi.add_apply]
    omega
  | remove path =>
    obtain ⟨removed, heval⟩ := evaluate_of_remove h
    have hremove := cloneCost_remove nodeSize h heval hr
    simp only [Operation.cost, Pi.add_apply]
    omega
  | replace path value =>
    have hreplace := cloneCost_replace nodeSize h r
    simp only [Pi.add_apply] at hreplace
    simp only [Operation.cost, Pi.add_apply]
    omega
  | move source path =>
    rw [Operation.apply] at h
    simp only [Operation.cost, Pi.add_apply]
    by_cases hsame : source = path
    · rw [if_pos hsame] at h
      obtain ⟨w, -, rfl⟩ := Option.map_eq_some_iff.mp h
      omega
    · rw [if_neg hsame] at h
      split_ifs at h with hbelow
      obtain ⟨w, hw, h⟩ := Option.bind_eq_some_iff.mp h
      obtain ⟨left, hleft, h⟩ := Option.bind_eq_some_iff.mp h
      have hremove := cloneCost_remove nodeSize hleft hw hr
      have hadd := cloneCost_add nodeSize h r
      rw [if_neg hsame, hleft, Option.elim_some]
      simp only [Pi.add_apply] at hadd ⊢
      omega
  | copy source path =>
    obtain ⟨w, hw, h⟩ := Option.bind_eq_some_iff.mp h
    have hadd := cloneCost_add nodeSize h r
    simp only [Operation.cost, Pi.add_apply, hw, Option.elim_some] at hadd ⊢
    omega
  | test path value =>
    obtain ⟨w, -, h⟩ := Option.bind_eq_some_iff.mp h
    split_ifs at h
    cases h
    omega

end Rfc6902

end ByteDance
