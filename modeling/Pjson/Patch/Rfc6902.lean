/-
  JSON Patch, as RFC 6902 has it.

  An operation is a partial function on documents: where it has no result the patch fails.  A document that
  describes an operation is related to it by `Denotes`, and `Yields` runs a list of them from left to
  right.  Nothing of the code is here; that it computes this is shown in `ApplyExact`.
-/
import Pjson.Dom.Equality
import Pjson.Pointer.Resolve
import Pjson.Schema.Uri

namespace ByteDance

/-! ## Places -/

/-- A part has no more nodes than the whole. -/
theorem Pjson.nodes_le_of_get {loc : Location} {v w : Pjson} (h : v.get loc = some w) : w.nodes ≤ v.nodes := by
  induction loc generalizing v with
  | nil =>
    cases h
    exact le_rfl
  | cons step loc ih =>
    obtain ⟨c, hc, hget⟩ := Option.bind_eq_some_iff.mp h
    exact (ih hget).trans (Pjson.child_nodes hc).le

/-- A change at a key depends on what it makes of the value there. -/
theorem Assoc.modify_congr {κ α : Type} [DecidableEq κ] {k : κ} {a : α} {f g : α → α} (hfg : f a = g a) :
    ∀ {m : List (κ × α)}, Assoc.find k m = some a → Assoc.modify k f m = Assoc.modify k g m
  | (k₁, a₁) :: t, h => by
      by_cases h₁ : k₁ = k
      · rw [Assoc.find, if_pos h₁] at h
        cases h
        rw [Assoc.modify, if_pos h₁, Assoc.modify, if_pos h₁, hfg]
      · rw [Assoc.find, if_neg h₁] at h
        rw [Assoc.modify, if_neg h₁, Assoc.modify, if_neg h₁, Assoc.modify_congr hfg h]

/-- And so with a child. -/
theorem Pjson.modifyChild_congr {f g : Pjson → Pjson} {v c : Pjson} {step : Step}
    (h : v.child step = some c) (hfg : f c = g c) : v.modifyChild f step = v.modifyChild g step := by
  cases step with
  | member key =>
    cases v with
    | jsonObject ms => exact congrArg Pjson.jsonObject (Assoc.modify_congr hfg h)
    | _ => rfl
  | element index =>
    cases v with
    | jsonArray xs =>
      refine congrArg Pjson.jsonArray (List.ext_getElem? fun i => ?_)
      by_cases hi : index = i
      · subst hi
        rw [List.getElem?_modify_eq, List.getElem?_modify_eq, show xs[index]? = some c from h]
        exact congrArg some hfg
      · rw [List.getElem?_modify_ne _ _ hi, List.getElem?_modify_ne _ _ hi]
    | _ => rfl

/-- A change of a node depends on what it does to that node only. -/
theorem Pjson.modify_congr {f g : Pjson → Pjson} {loc : Location} {v w : Pjson} (h : v.get loc = some w)
    (hfg : f w = g w) : v.modify f loc = v.modify g loc := by
  induction loc generalizing v with
  | nil =>
    cases h
    exact hfg
  | cons step loc ih =>
    obtain ⟨c, hc, hget⟩ := Option.bind_eq_some_iff.mp h
    exact Pjson.modifyChild_congr hc (ih hget)

/-- A child is replaced by a change of its parent. -/
theorem Pjson.put_concat {loc : Location} {v w : Pjson} (h : v.get loc = some w) (step : Step) (x : Pjson) :
    v.put (loc ++ [step]) x = v.put loc (w.modifyChild (fun _ => x) step) := by
  rw [Pjson.put, Pjson.modify_append]
  exact Pjson.modify_congr h rfl

namespace Rfc6901

/-- What a token refers to is there. -/
theorem exists_child_of_reference {token : Bytes} {v : Pjson} {step : Step}
    (h : reference token v = some step) : ∃ c, v.child step = some c := by
  cases v with
  | jsonObject ms =>
    rw [reference] at h
    split_ifs at h with hkey
    cases h
    exact Option.isSome_iff_exists.mp (Assoc.find_isSome_iff.mpr hkey)
  | jsonArray xs =>
    rw [reference] at h
    cases hindex : arrayIndex token with
    | none =>
      rw [hindex] at h
      cases h
    | some index =>
      rw [hindex] at h
      dsimp only at h
      split_ifs at h with hlt
      cases h
      exact ⟨xs[index], List.getElem?_eq_getElem hlt⟩
  | _ => cases h

/-- The first token is followed from the root. -/
theorem locate_cons (token : Bytes) (tokens : List Bytes) (v : Pjson) : locate (token :: tokens) v =
    (reference token v).bind fun step => ((v.child step).bind (locate tokens)).map (step :: ·) := by
  rw [locate]
  cases reference token v <;> rfl

/-- A pointer ends with a step from where its other tokens lead. -/
theorem locate_concat (tokens : List Bytes) (token : Bytes) (v : Pjson) : locate (tokens ++ [token]) v =
    (locate tokens v).bind fun loc => (v.get loc).bind fun w => (reference token w).map (loc ++ [·]) := by
  induction tokens generalizing v with
  | nil =>
    rw [List.nil_append, locate_cons, locate, Option.bind_some, Pjson.get_nil, Option.bind_some]
    cases hstep : reference token v with
    | none => rfl
    | some step =>
      obtain ⟨c, hc⟩ := exists_child_of_reference hstep
      rw [Option.bind_some, hc, Option.bind_some, locate]
      rfl
  | cons token' tokens ih =>
    rw [List.cons_append, locate_cons, locate_cons]
    cases reference token' v with
    | none => rfl
    | some step =>
      rw [Option.bind_some, Option.bind_some]
      cases hc : v.child step with
      | none => rfl
      | some c =>
        rw [Option.bind_some, Option.bind_some, ih]
        cases locate tokens c with
        | none => rfl
        | some loc =>
          rw [Option.bind_some, Option.map_some, Option.bind_some, Pjson.get_cons, hc, Option.bind_some]
          cases c.get loc with
          | none => rfl
          | some w =>
            rw [Option.bind_some, Option.bind_some, Option.map_map]
            rfl

theorem evaluate_nil (v : Pjson) : evaluate [] v = some v := rfl

/-- The first token is followed, then the others. -/
theorem evaluate_cons (token : Bytes) (tokens : List Bytes) (v : Pjson) : evaluate (token :: tokens) v =
    (reference token v).bind fun step => (v.child step).bind (evaluate tokens) := by
  rw [evaluate, locate_cons]
  cases reference token v with
  | none => rfl
  | some step =>
    rw [Option.bind_some, Option.bind_some]
    cases hc : v.child step with
    | none => rfl
    | some c =>
      rw [Option.bind_some, Option.bind_some, evaluate]
      cases hloc : locate tokens c with
      | none => rfl
      | some loc =>
        rw [Option.map_some, Option.bind_some, Option.bind_some, Pjson.get_cons, hc, Option.bind_some]

/-- The last token is followed from where the others lead. -/
theorem evaluate_concat (tokens : List Bytes) (token : Bytes) (v : Pjson) :
    evaluate (tokens ++ [token]) v =
      (evaluate tokens v).bind fun w => (reference token w).bind fun step => w.child step := by
  induction tokens generalizing v with
  | nil =>
    rw [List.nil_append, evaluate_cons, evaluate_nil, Option.bind_some]
    cases reference token v with
    | none => rfl
    | some step =>
      rw [Option.bind_some, Option.bind_some]
      cases v.child step <;> rfl
  | cons token' tokens ih =>
    rw [List.cons_append, evaluate_cons, evaluate_cons]
    cases reference token' v with
    | none => rfl
    | some step =>
      rw [Option.bind_some, Option.bind_some]
      cases v.child step with
      | none => rfl
      | some c => exact ih c

end Rfc6901

namespace Rfc6902

/-! ## Edits -/

/-- Changes the value a pointer refers to. -/
def edit (f : Pjson → Option Pjson) (tokens : List Bytes) (v : Pjson) : Option Pjson :=
  (Rfc6901.locate tokens v).bind fun loc => ((v.get loc).bind f).map (v.put loc)

/-- A container with a new child: a member that is set, an element in front of the one with its index. -/
def insertChild (token : Bytes) (value : Pjson) : Pjson → Option Pjson
  | .jsonObject members => some (.jsonObject (Assoc.assign token value members))
  | .jsonArray elements =>
      if token = ascii "-" then some (.jsonArray (elements ++ [value]))
      else (Rfc6901.arrayIndex token).bind fun index =>
        if index ≤ elements.length then some (.jsonArray (elements.insertIdx index value)) else none
  | _ => none

/-- A container without one of its children. -/
def removeChild (token : Bytes) : Pjson → Option Pjson
  | .jsonObject members =>
      if token ∈ Assoc.keys members then some (.jsonObject (Assoc.drop token members)) else none
  | .jsonArray elements => (Rfc6901.arrayIndex token).bind fun index =>
      if index < elements.length then some (.jsonArray (elements.eraseIdx index)) else none
  | _ => none

/-- An edit of the container that holds what the pointer refers to; `whole` is the case of the document itself. -/
def editParent (whole : Pjson) (f : Bytes → Pjson → Option Pjson) (path : List Bytes) (v : Pjson) :
    Option Pjson :=
  match path.getLast? with
  | none => some whole
  | some token => edit (f token) path.dropLast v

/-! ## Operations -/

/-- RFC 6902 section 4. -/
inductive Operation where
  | add (path : List Bytes) (value : Pjson)
  | remove (path : List Bytes)
  | replace (path : List Bytes) (value : Pjson)
  | move (source path : List Bytes)
  | copy (source path : List Bytes)
  | test (path : List Bytes) (value : Pjson)

def add (path : List Bytes) (value v : Pjson) : Option Pjson :=
  editParent value (fun token => insertChild token value) path v

/-- Without its root, a document is null. -/
def remove (path : List Bytes) (v : Pjson) : Option Pjson := editParent .jsonNull removeChild path v

def replace (path : List Bytes) (value v : Pjson) : Option Pjson := edit (fun _ => some value) path v

open Classical in
/-- The document after an operation, if it has a result. -/
noncomputable def Operation.apply : Operation → Pjson → Option Pjson
  | .add path value, v => Rfc6902.add path value v
  | .remove path, v => Rfc6902.remove path v
  | .replace path value, v => Rfc6902.replace path value v
  | .move source path, v =>
      if source = path then (Rfc6901.evaluate source v).map fun _ => v
      else if source <+: path then none
      else (Rfc6901.evaluate source v).bind fun w =>
        (Rfc6902.remove source v).bind (Rfc6902.add path w)
  | .copy source path, v => (Rfc6901.evaluate source v).bind fun w => Rfc6902.add path w v
  | .test path value, v => (Rfc6901.evaluate path v).bind fun w => if Same w value then some v else none

/-- The operation an object describes. -/
inductive Denotes (members : List (Bytes × Pjson)) : Operation → Prop
  | add {path value} : Assoc.find (ascii "op") members = some (.jsonString (ascii "add")) →
      Assoc.find (ascii "path") members = some (.jsonString (pointerText path)) →
      Assoc.find (ascii "value") members = some value → Denotes members (.add path value)
  | remove {path} : Assoc.find (ascii "op") members = some (.jsonString (ascii "remove")) →
      Assoc.find (ascii "path") members = some (.jsonString (pointerText path)) → Denotes members (.remove path)
  | replace {path value} : Assoc.find (ascii "op") members = some (.jsonString (ascii "replace")) →
      Assoc.find (ascii "path") members = some (.jsonString (pointerText path)) →
      Assoc.find (ascii "value") members = some value → Denotes members (.replace path value)
  | move {source path} : Assoc.find (ascii "op") members = some (.jsonString (ascii "move")) →
      Assoc.find (ascii "path") members = some (.jsonString (pointerText path)) →
      Assoc.find (ascii "from") members = some (.jsonString (pointerText source)) →
      Denotes members (.move source path)
  | copy {source path} : Assoc.find (ascii "op") members = some (.jsonString (ascii "copy")) →
      Assoc.find (ascii "path") members = some (.jsonString (pointerText path)) →
      Assoc.find (ascii "from") members = some (.jsonString (pointerText source)) →
      Denotes members (.copy source path)
  | test {path value} : Assoc.find (ascii "op") members = some (.jsonString (ascii "test")) →
      Assoc.find (ascii "path") members = some (.jsonString (pointerText path)) →
      Assoc.find (ascii "value") members = some value → Denotes members (.test path value)

/-- What an element of a patch does to a document. -/
inductive Steps : Pjson → Pjson → Pjson → Prop
  | intro {members operation v v'} : Denotes members operation → operation.apply v = some v' →
      Steps (.jsonObject members) v v'

/-- The operations one after the other. -/
inductive Yields : List Pjson → Pjson → Pjson → Prop
  | nil (v : Pjson) : Yields [] v v
  | cons {operation rest v v' v''} : Steps operation v v' → Yields rest v' v'' → Yields (operation :: rest) v v''

/-! ## Well-formed documents -/

end Rfc6902

namespace Pjson

/-- A part of a well-formed document is well formed. -/
theorem wf_child {v c : Pjson} {step : Step} (h : v.child step = some c) (hv : v.WF) : c.WF := by
  cases step with
  | member key =>
    cases v with
    | jsonObject ms => exact (wf_object.mp hv).2 _ (Assoc.mem_of_find (show Assoc.find key ms = some c from h))
    | _ => cases h
  | element index =>
    cases v with
    | jsonArray xs => exact wf_array.mp hv c (List.mem_of_getElem? (show xs[index]? = some c from h))
    | _ => cases h

/-- At any depth. -/
theorem wf_get {loc : Location} {v w : Pjson} (h : v.get loc = some w) (hv : v.WF) : w.WF := by
  induction loc generalizing v with
  | nil =>
    cases h
    exact hv
  | cons step loc ih =>
    obtain ⟨c, hc, hget⟩ := Option.bind_eq_some_iff.mp h
    exact ih hget (wf_child hc hv)

/-- A child is changed into a well-formed one. -/
theorem wf_modifyChild {f : Pjson → Pjson} (hf : ∀ c, c.WF → (f c).WF) {step : Step} {v : Pjson}
    (hv : v.WF) : (v.modifyChild f step).WF := by
  cases step with
  | member key =>
    cases v with
    | jsonObject ms =>
      obtain ⟨hunique, hall⟩ := wf_object.mp hv
      refine wf_object.mpr ⟨hunique.modify, fun m hm => ?_⟩
      rcases Assoc.mem_modify hm with ⟨a, ha, rfl⟩ | hm
      · exact hf a (hall _ ha)
      · exact hall m hm
    | _ => exact hv
  | element index =>
    cases v with
    | jsonArray xs =>
      refine wf_array.mpr fun x hx => ?_
      obtain ⟨i, hi⟩ := List.getElem?_of_mem hx
      by_cases hi' : index = i
      · subst hi'
        rw [List.getElem?_modify_eq] at hi
        obtain ⟨c, hc, rfl⟩ := Option.map_eq_some_iff.mp hi
        exact hf c (wf_array.mp hv c (List.mem_of_getElem? hc))
      · rw [List.getElem?_modify_ne _ _ hi'] at hi
        exact wf_array.mp hv x (List.mem_of_getElem? hi)
    | _ => exact hv

/-- And so with any place. -/
theorem wf_put {loc : Location} {v w : Pjson} (hv : v.WF) (hw : w.WF) : (v.put loc w).WF := by
  rw [put]
  induction loc generalizing v with
  | nil => exact hw
  | cons step loc ih => exact wf_modifyChild (fun c hc => ih hc) hv

end Pjson

namespace Rfc6902

/-- An edit that keeps its parent well formed keeps the document so. -/
theorem wf_edit {f : Pjson → Option Pjson} (hf : ∀ w w', w.WF → f w = some w' → w'.WF) {tokens : List Bytes}
    {v v' : Pjson} (hv : v.WF) (h : edit f tokens v = some v') : v'.WF := by
  obtain ⟨loc, -, h⟩ := Option.bind_eq_some_iff.mp h
  obtain ⟨w', hw', rfl⟩ := Option.map_eq_some_iff.mp h
  obtain ⟨w, hw, hf'⟩ := Option.bind_eq_some_iff.mp hw'
  exact Pjson.wf_put hv (hf w w' (Pjson.wf_get hw hv) hf')

/-- A member is assigned, not repeated. -/
theorem wf_insertChild {token : Bytes} {value w w' : Pjson} (hvalue : value.WF) (hw : w.WF)
    (h : insertChild token value w = some w') : w'.WF := by
  cases w with
  | jsonObject members =>
    obtain ⟨hunique, hall⟩ := Pjson.wf_object.mp hw
    cases h
    refine Pjson.wf_object.mpr ⟨hunique.assign, fun m hm => ?_⟩
    rcases Assoc.mem_assign hm with rfl | hm
    · exact hvalue
    · exact hall m hm
  | jsonArray elements =>
    have hall := Pjson.wf_array.mp hw
    rw [insertChild] at h
    split_ifs at h with happend
    · cases h
      refine Pjson.wf_array.mpr fun x hx => ?_
      rcases List.mem_append.mp hx with hx | hx
      · exact hall x hx
      · rw [List.mem_singleton.mp hx]
        exact hvalue
    · obtain ⟨index, -, h⟩ := Option.bind_eq_some_iff.mp h
      split_ifs at h with hindex
      cases h
      refine Pjson.wf_array.mpr fun x hx => ?_
      rcases List.mem_cons.mp ((List.perm_insertIdx value elements hindex).mem_iff.mp hx) with rfl | hx
      · exact hvalue
      · exact hall x hx
  | _ => cases h

/-- Removing repeats nothing. -/
theorem wf_removeChild {token : Bytes} {w w' : Pjson} (hw : w.WF) (h : removeChild token w = some w') :
    w'.WF := by
  cases w with
  | jsonObject members =>
    obtain ⟨hunique, hall⟩ := Pjson.wf_object.mp hw
    rw [removeChild] at h
    split_ifs at h with hkey
    cases h
    exact Pjson.wf_object.mpr ⟨hunique.drop, fun m hm => hall m (Assoc.mem_drop hm)⟩
  | jsonArray elements =>
    rw [removeChild] at h
    obtain ⟨index, -, h⟩ := Option.bind_eq_some_iff.mp h
    split_ifs at h
    cases h
    exact Pjson.wf_array.mpr fun x hx => Pjson.wf_array.mp hw x (List.mem_of_mem_eraseIdx hx)
  | _ => cases h

/-- `add` keeps documents well formed. -/
theorem wf_add {path : List Bytes} {value v v' : Pjson} (hvalue : value.WF) (hv : v.WF)
    (h : Rfc6902.add path value v = some v') : v'.WF := by
  rw [Rfc6902.add, editParent] at h
  cases hlast : path.getLast? with
  | none =>
    rw [hlast] at h
    cases h
    exact hvalue
  | some token =>
    rw [hlast] at h
    exact wf_edit (fun _ _ hw => wf_insertChild hvalue hw) hv h

/-- And so does `remove`. -/
theorem wf_remove {path : List Bytes} {v v' : Pjson} (hv : v.WF) (h : Rfc6902.remove path v = some v') :
    v'.WF := by
  rw [Rfc6902.remove, editParent] at h
  cases hlast : path.getLast? with
  | none =>
    rw [hlast] at h
    cases h
    trivial
  | some token =>
    rw [hlast] at h
    exact wf_edit (fun _ _ hw => wf_removeChild hw) hv h

/-- What a pointer finds is well formed. -/
theorem wf_evaluate {path : List Bytes} {v w : Pjson} (hv : v.WF) (h : Rfc6901.evaluate path v = some w) :
    w.WF := by
  obtain ⟨loc, -, hw⟩ := Option.bind_eq_some_iff.mp h
  exact Pjson.wf_get hw hv

/-- An operation described by a well-formed object keeps documents well formed. -/
theorem wf_apply {members : List (Bytes × Pjson)} {operation : Operation}
    (hmembers : (Pjson.jsonObject members).WF) (hdenotes : Denotes members operation) {v v' : Pjson}
    (hv : v.WF) (h : operation.apply v = some v') : v'.WF := by
  have hmember : ∀ {k : Bytes} {w : Pjson}, Assoc.find k members = some w → w.WF := fun hfind =>
    (Pjson.wf_object.mp hmembers).2 _ (Assoc.mem_of_find hfind)
  cases hdenotes with
  | add _ _ hvalue => exact wf_add (hmember hvalue) hv h
  | remove => exact wf_remove hv h
  | replace _ _ hvalue =>
    refine wf_edit (fun _ _ _ hw => ?_) hv h
    cases hw
    exact hmember hvalue
  | move =>
    rw [Operation.apply] at h
    split_ifs at h with hsame hbelow
    · obtain ⟨w, -, rfl⟩ := Option.map_eq_some_iff.mp h
      exact hv
    · obtain ⟨w, hw, h⟩ := Option.bind_eq_some_iff.mp h
      obtain ⟨left, hleft, h⟩ := Option.bind_eq_some_iff.mp h
      exact wf_add (wf_evaluate hv hw) (wf_remove hv hleft) h
  | copy =>
    obtain ⟨w, hw, h⟩ := Option.bind_eq_some_iff.mp h
    exact wf_add (wf_evaluate hv hw) hv h
  | test =>
    obtain ⟨w, -, h⟩ := Option.bind_eq_some_iff.mp h
    split_ifs at h
    cases h
    exact hv

end Rfc6902

end ByteDance
