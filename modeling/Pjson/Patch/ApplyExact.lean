/-
  `applyPatch` computes RFC 6902, at a price that can be told beforehand.

  Every helper follows the partial function of `Rfc6902` it implements, at the price of `Price`; so does
  an operation (`applyOperation_follows`), and by induction a list of them.  The invariant of the loop is
  `Ready`: what the scratch document is worth has been charged, so its nodes can be counted and its
  texts measured without overflow.
-/
import Pjson.Patch.EqualPrice

namespace ByteDance

open Run

namespace Patch

/-! ## The helpers -/

/-- A pointer has a byte for each of its tokens. -/
theorem length_le_pointerText (tokens : List Bytes) : tokens.length ≤ (pointerText tokens).length := by
  induction tokens with
  | nil => exact Nat.zero_le _
  | cons token tokens ih =>
    rw [pointerText, List.length_cons, List.length_cons, List.length_append]
    omega

/-- A step from the container that the tokens in front of the last lead to. -/
theorem parent_follows {α : Type} {v : Pjson} (hv : v.Addressable) {tokens : List Bytes}
    (htokens : tokens.length < 2 ^ 64) (pointer : Bytes) {k : Location → AccountM α}
    {g : Location → Pjson → Option α} {c : Pjson → Cost}
    (hk : ∀ loc w, v.get loc = some w → w.Addressable → Follows (k loc) (g loc w) (c w)) :
    Follows (resolvePatchTokens v tokens (tokens.length - 1) pointer >>= k)
      ((Rfc6901.locate tokens.dropLast v).bind fun loc => (v.get loc).bind (g loc))
      (resolveCost tokens.dropLast.length + (Rfc6901.evaluate tokens.dropLast v).elim 0 c) := by
  have hresolve := resolvePatchTokens_follows hv tokens (show tokens.length - 1 + 1 < 2 ^ 64 by omega) pointer
  rw [← List.dropLast_eq_take, ← List.length_dropLast] at hresolve
  rw [← List.length_dropLast]
  refine hresolve.bind fun loc hloc => ?_
  obtain ⟨w, hw⟩ := Rfc6901.get_of_locate hloc
  rw [Rfc6901.evaluate, hloc, Option.bind_some, hw, Option.bind_some]
  exact hk loc w hw ((Pjson.nodes_le_of_get hw).trans_lt hv)

/-- An edit, with the place and the node taken apart. -/
theorem edit_eq (f : Pjson → Option Pjson) (tokens : List Bytes) (v : Pjson) : Rfc6902.edit f tokens v =
    (Rfc6901.locate tokens v).bind fun loc => (v.get loc).bind fun w => (f w).map (v.put loc) := by
  rw [Rfc6902.edit]
  refine congrArg (Option.bind _) (funext fun loc => ?_)
  cases v.get loc <;> rfl

/-- An array of a real document has a length below 2^64. -/
theorem length_lt_of_addressable {xs : List Pjson} (h : (Pjson.jsonArray xs).Addressable) :
    xs.length < 2 ^ 64 := (Pjson.length_lt_nodes xs).trans h

/-! ### Children -/

/-- An element is inserted where the token says. -/
theorem insertChild_array (token : Bytes) (value : Pjson) (xs : List Pjson) :
    Rfc6902.insertChild token value (.jsonArray xs) =
      (arrayPlace true xs.length token).map fun index => .jsonArray (xs.insertIdx index value) := by
  rw [Rfc6902.insertChild, arrayPlace]
  by_cases happend : token = ascii "-"
  · rw [if_pos happend, if_pos happend, if_pos rfl, Option.map_some, List.insertIdx_length_self]
  rw [if_neg happend, if_neg happend]
  cases Rfc6901.arrayIndex token with
  | none => rfl
  | some index =>
    rw [Option.bind_some, Option.bind_some]
    rw [if_pos rfl]
    by_cases hle : index ≤ xs.length
    · rw [if_pos hle, if_pos (Nat.lt_succ_of_le hle), Option.map_some]
    · rw [if_neg hle, if_neg (fun h => hle (Nat.le_of_lt_succ h)), Option.map_none]

/-- The place of an element that is there. -/
theorem arrayPlace_element {length index : Nat} {token : Bytes} :
    arrayPlace false length token = some index ↔ Rfc6901.arrayIndex token = some index ∧ index < length := by
  rw [arrayPlace]
  by_cases happend : token = ascii "-"
  · rw [if_pos happend, happend, ascii_append, arrayIndex_append]
    simp
  rw [if_neg happend, Option.bind_eq_some_iff]
  constructor
  · rintro ⟨i, hi, h⟩
    rw [if_neg Bool.false_ne_true] at h
    split_ifs at h with hrange
    cases h
    exact ⟨hi, hrange⟩
  · rintro ⟨hi, hlt⟩
    exact ⟨index, hi, by rw [if_neg Bool.false_ne_true, if_pos hlt]⟩

/-- Or taken out from there. -/
theorem removeChild_array (token : Bytes) (xs : List Pjson) :
    Rfc6902.removeChild token (.jsonArray xs) =
      (arrayPlace false xs.length token).map fun index => .jsonArray (xs.eraseIdx index) := by
  rw [Rfc6902.removeChild]
  refine Option.ext fun w => ?_
  rw [Option.bind_eq_some_iff, Option.map_eq_some_iff]
  constructor
  · rintro ⟨index, hindex, h⟩
    split_ifs at h with hlt
    cases h
    exact ⟨index, arrayPlace_element.mpr ⟨hindex, hlt⟩, rfl⟩
  · rintro ⟨index, hplace, rfl⟩
    obtain ⟨hindex, hlt⟩ := arrayPlace_element.mp hplace
    exact ⟨index, hindex, if_pos hlt⟩

/-- An insertion is at the end at most. -/
theorem arrayPlace_insert_le {length index : Nat} {token : Bytes}
    (h : arrayPlace true length token = some index) : index ≤ length := by
  rw [arrayPlace, if_pos rfl, if_pos rfl] at h
  split_ifs at h with happend
  · cases h
    exact le_rfl
  · obtain ⟨i, -, h⟩ := Option.bind_eq_some_iff.mp h
    split_ifs at h with hlt
    cases h
    exact Nat.le_of_lt_succ hlt

/-- It moves the elements behind its place. -/
theorem insertCost_array {xs : List Pjson} {index : Nat} {token : Bytes}
    (h : arrayPlace true xs.length token = some index) :
    insertCost token (.jsonArray xs) = Cost.of .work (xs.length - index) := by
  rw [arrayPlace, if_pos rfl, if_pos rfl] at h
  rw [insertCost]
  split_ifs at h with happend
  · cases h
    rw [happend, ascii_append, arrayIndex_append, Nat.sub_self]
    simp [Cost.of]
  · obtain ⟨i, hi, h⟩ := Option.bind_eq_some_iff.mp h
    split_ifs at h
    cases h
    rw [hi]
    rfl

/-- What an index refers to. -/
theorem reference_array {token : Bytes} {xs : List Pjson} :
    Rfc6901.reference token (.jsonArray xs) = (arrayPlace false xs.length token).map Step.element := by
  refine Option.ext fun step => ?_
  rw [Rfc6901.reference, Option.map_eq_some_iff]
  cases hindex : Rfc6901.arrayIndex token with
  | none =>
    refine iff_of_false (by simp) ?_
    rintro ⟨index, hplace, -⟩
    rw [(arrayPlace_element.mp hplace).1] at hindex
    cases hindex
  | some n =>
    dsimp only
    constructor
    · intro h
      split_ifs at h with hlt
      cases h
      exact ⟨n, arrayPlace_element.mpr ⟨hindex, hlt⟩, rfl⟩
    · rintro ⟨index, hplace, rfl⟩
      obtain ⟨hindex', hlt⟩ := arrayPlace_element.mp hplace
      rw [hindex] at hindex'
      cases hindex'
      rw [if_pos hlt]

/-! ### Edits -/

/-- `add`, as the specification has it, for the price of the walk and the insertion. -/
theorem addOwnedAtPointer_follows {v : Pjson} (hv : v.Addressable) {tokens : List Bytes}
    (htokens : tokens.length < 2 ^ 64) (pointer : Bytes) (value : Pjson) :
    Follows (addOwnedAtPointer v tokens pointer value) (Rfc6902.add tokens value v) (addCost tokens v) := by
  unfold addOwnedAtPointer Rfc6902.add Rfc6902.editParent addCost parentCost
  cases tokens.getLast? with
  | none => exact .pure value
  | some token =>
    show Follows (resolvePatchTokens v tokens (tokens.length - 1) pointer >>= _)
      (Rfc6902.edit (Rfc6902.insertChild token value) tokens.dropLast v) _
    rw [Option.elim_some, edit_eq]
    refine parent_follows hv htokens pointer fun loc w hw haddressable => ?_
    rw [hw]
    cases w with
    | jsonObject object =>
      show Follows (do
        if (Assoc.find token object).isNone then
          chargePatch .bytes token.length "JSON Patch cloned-byte budget exceeded"
        pure (v.put loc (.jsonObject (Assoc.assign token value object)))) _ _
      -- Only a new key is paid for: an existing member is assigned in place.
      rw [insertCost]
      cases hfind : Assoc.find token object with
      | none =>
        rw [if_neg (Assoc.find_eq_none_iff.mp hfind), ← add_zero (Cost.of _ _)]
        exact (chargePatch_follows _ _ _).seq (.pure _)
      | some old =>
        have hkey : token ∈ Assoc.keys object := Assoc.find_isSome_iff.mp (by rw [hfind]; rfl)
        rw [if_pos hkey]
        exact .pure _
    | jsonArray array =>
      have hlength := length_lt_of_addressable haddressable
      rw [insertChild_array, Option.map_map]
      refine ((patchArrayIndex_follows hlength token true _).bind
        (g := fun r => some (v.put loc (.jsonArray (array.insertIdx r.1 value))))
        (d := insertCost token (.jsonArray array)) ?_).congr ?_ fun _ => (zero_add _).symm
      · rintro ⟨index, append⟩ hplace
        obtain ⟨_, hindex, h⟩ := Option.map_eq_some_iff.mp hplace
        cases h
        rw [insertCost_array hindex]
        show Follows (subSize array.length index >>= fun size => chargePatch .work size workMessage >>= _) _ _
        -- The elements from the index on make room, and each move is paid for.
        refine (subSize_follows (arrayPlace_insert_le hindex) hlength).free ?_
        rw [← add_zero (Cost.of .work _)]
        exact (chargePatch_follows _ _ _).seq (.pure _)
      · rw [Option.bind_map, Option.map_eq_bind]
        rfl
    | _ => exact failPatchAtToken_follows _ _ _ _ _

/-- A replacement is a change of the parent. -/
theorem replace_concat (tokens : List Bytes) (token : Bytes) (value v : Pjson) :
    Rfc6902.replace (tokens ++ [token]) value v = (Rfc6901.locate tokens v).bind fun loc =>
      (v.get loc).bind fun w =>
        (Rfc6901.reference token w).map fun step => v.put loc (w.modifyChild (fun _ => value) step) := by
  rw [Rfc6902.replace, edit_eq, Rfc6901.locate_concat]
  cases Rfc6901.locate tokens v with
  | none => rfl
  | some loc =>
    rw [Option.bind_some, Option.bind_some]
    cases hw : v.get loc with
    | none => rfl
    | some w =>
      rw [Option.bind_some, Option.bind_some]
      cases hstep : Rfc6901.reference token w with
      | none => rfl
      | some step =>
        obtain ⟨c, hc⟩ := Rfc6901.exists_child_of_reference hstep
        have hget : v.get (loc ++ [step]) = some c := by
          rw [Pjson.get_append, hw, Option.bind_some, Pjson.get_cons, hc]
          rfl
        rw [Option.map_some, Option.bind_some, hget, Option.bind_some, Option.map_some, Option.map_some,
          Pjson.put_concat hw]

/-- `replace`, for the price of the walk. -/
theorem replaceAtPointer_follows {v : Pjson} (hv : v.Addressable) {tokens : List Bytes}
    (htokens : tokens.length < 2 ^ 64) (pointer : Bytes) (value : Pjson) :
    Follows (replaceAtPointer v tokens pointer value) (Rfc6902.replace tokens value v)
      (replaceCost tokens v) := by
  unfold replaceAtPointer replaceCost parentCost
  cases hlast : tokens.getLast? with
  | none =>
    rw [List.getLast?_eq_none_iff.mp hlast]
    exact .pure value
  | some token =>
    show Follows (resolvePatchTokens v tokens (tokens.length - 1) pointer >>= _) _ _
    rw [Option.elim_some]
    have htokens' : tokens.dropLast ++ [token] = tokens := dropLast_concat_getLast? hlast
    have hspec := replace_concat tokens.dropLast token value v
    rw [htokens'] at hspec
    rw [hspec]
    refine parent_follows hv htokens pointer fun loc w hw haddressable => ?_
    rw [hw]
    cases w with
    | jsonObject object =>
      show Follows (if (Assoc.find token object).isNone then _ else pure _) _ _
      rw [Rfc6901.reference]
      cases hfind : Assoc.find token object with
      | none =>
        rw [if_neg (Assoc.find_eq_none_iff.mp hfind)]
        exact failPatchAtToken_follows _ _ _ _ _
      | some old =>
        have hkey : token ∈ Assoc.keys object := Assoc.find_isSome_iff.mp (by rw [hfind]; rfl)
        rw [if_pos hkey, Assoc.assign_eq_modify hkey]
        exact .pure _
    | jsonArray array =>
      have hlength := length_lt_of_addressable haddressable
      rw [reference_array, Option.map_map]
      refine ((patchArrayIndex_follows hlength token false _).bind
        (g := fun r => some (v.put loc (.jsonArray (array.set r.1 value)))) (d := 0) ?_).congr ?_
          fun _ => (zero_add _).symm
      · rintro ⟨index, append⟩ -
        exact .pure _
      · rw [Option.bind_map, Option.map_eq_bind]
        refine congrArg (Option.bind _) (funext fun index => ?_)
        show some (v.put loc (.jsonArray (array.modify index fun _ => value))) = _
        rw [List.modify_eq_set]
        rfl
    | _ => exact failPatchAtToken_follows _ _ _ _ _

/-- What a removal leaves, and what it takes out. -/
def detached (tokens : List Bytes) (v : Pjson) : Option (Pjson × Pjson) :=
  (Rfc6902.remove tokens v).bind fun left => (Rfc6901.evaluate tokens v).map (left, ·)

/-- What is taken out, and what is left: the parent is located, and the child removed from it. -/
theorem detached_concat (tokens : List Bytes) (token : Bytes) (v : Pjson) :
    detached (tokens ++ [token]) v = (Rfc6901.locate tokens v).bind fun loc => (v.get loc).bind fun w =>
      (Rfc6902.removeChild token w).bind fun w' =>
        ((Rfc6901.reference token w).bind fun step => w.child step).map (v.put loc w', ·) := by
  rw [detached, Rfc6902.remove, Rfc6902.editParent, List.getLast?_concat, Rfc6901.evaluate_concat,
    List.dropLast_concat]
  show (Rfc6902.edit (Rfc6902.removeChild token) tokens v).bind _ = _
  rw [edit_eq, Rfc6901.evaluate]
  cases Rfc6901.locate tokens v with
  | none => rfl
  | some loc =>
    rw [Option.bind_some, Option.bind_some, Option.bind_some]
    cases v.get loc with
    | none => rfl
    | some w =>
      rw [Option.bind_some, Option.bind_some, Option.bind_some]
      cases Rfc6902.removeChild token w <;> rfl

/-- `remove`, which hands over what it takes out. -/
theorem detachAtPointer_follows (nodeSize : Nat) {v : Pjson} (hv : v.Addressable) {tokens : List Bytes}
    (htokens : tokens.length < 2 ^ 64) (pointer : Bytes) :
    Follows (detachAtPointer nodeSize v tokens pointer) (detached tokens v)
      (removeCost nodeSize tokens v) := by
  unfold detachAtPointer removeCost parentCost
  cases hlast : tokens.getLast? with
  | none =>
    -- The empty pointer takes the whole document and leaves null.
    rw [List.getLast?_eq_none_iff.mp hlast, Option.elim_none, ← add_zero (Cost.of .nodes 1 + _), add_assoc]
    refine (chargePatch_follows _ _ _).seq ((chargePatch_follows _ _ _).seq ?_)
    exact .pure _
  | some token =>
    show Follows (resolvePatchTokens v tokens (tokens.length - 1) pointer >>= _) _ _
    rw [Option.elim_some]
    have hspec := detached_concat tokens.dropLast token v
    rw [dropLast_concat_getLast? hlast] at hspec
    rw [hspec]
    refine parent_follows hv htokens pointer fun loc w hw haddressable => ?_
    rw [hw]
    cases w with
    | jsonObject object =>
      rw [Rfc6902.removeChild, Rfc6901.reference]
      dsimp only
      cases hfind : Assoc.find token object with
      | none =>
        rw [if_neg (Assoc.find_eq_none_iff.mp hfind)]
        exact failPatchAtToken_follows _ _ _ _ _
      | some old =>
        have hkey : token ∈ Assoc.keys object := Assoc.find_isSome_iff.mp (by rw [hfind]; rfl)
        have hchild : (Pjson.jsonObject object).child (.member token) = some old := hfind
        rw [if_pos hkey, if_pos hkey, Option.bind_some, Option.bind_some, hchild]
        exact .pure _
    | jsonArray array =>
      have hlength := length_lt_of_addressable haddressable
      rw [removeChild_array, reference_array]
      refine ((patchArrayIndex_follows hlength token false _).bind
        (g := fun r => some (v.put loc (.jsonArray (array.eraseIdx r.1)), array.getD r.1 .jsonNull))
        (d := removeChildCost token (.jsonArray array)) ?_).congr ?_ fun _ => (zero_add _).symm
      · rintro ⟨index, append⟩ hplace
        obtain ⟨_, hindex, h⟩ := Option.map_eq_some_iff.mp hplace
        cases h
        obtain ⟨hindex, hlt⟩ := arrayPlace_element.mp hindex
        -- The elements behind the index close the gap, and each move is paid for.
        have hbehind : 1 ≤ array.length - index := Nat.sub_pos_of_lt hlt
        have hsize : array.length - index < 2 ^ 64 := (Nat.sub_le _ _).trans_lt hlength
        show Follows (subSize array.length index >>= fun size => subSize size 1 >>= fun size =>
          chargePatch .work size workMessage >>= _) _ _
        have hfirst := subSize_follows (Nat.le_of_lt hlt) hlength
        have hsecond := subSize_follows hbehind hsize
        refine hfirst.free ?_
        refine hsecond.free ?_
        rw [removeChildCost, hindex, Option.elim_some, ← add_zero (Cost.of .work _)]
        exact (chargePatch_follows _ _ _).seq (.pure _)
      · cases hplace : arrayPlace false array.length token with
        | none => rfl
        | some index =>
          have hlt := (arrayPlace_element.mp hplace).2
          -- The element that is handed back is the one that stood there.
          have hchild : (Pjson.jsonArray array).child (.element index) = some (array.getD index .jsonNull) := by
            show array[index]? = _
            rw [List.getD_eq_getElem?_getD, List.getElem?_eq_getElem hlt, Option.getD_some]
          rw [Option.map_some, Option.map_some, Option.bind_some, Option.map_some, Option.bind_some,
            Option.bind_some, hchild]
          rfl
    | _ => exact failPatchAtToken_follows _ _ _ _ _

/-- A step from the value that the tokens lead to. -/
theorem target_follows {v : Pjson} (hv : v.Addressable) {tokens : List Bytes}
    (htokens : tokens.length + 1 < 2 ^ 64) (pointer : Bytes) {k : Location → AccountM Pjson}
    {g : Pjson → Option Pjson} {c : Pjson → Cost}
    (hk : ∀ loc w, v.get loc = some w → Rfc6901.evaluate tokens v = some w → Follows (k loc) (g w) (c w)) :
    Follows (resolvePatchTokens v tokens tokens.length pointer >>= k)
      ((Rfc6901.evaluate tokens v).bind g)
      (resolveCost tokens.length + (Rfc6901.evaluate tokens v).elim 0 c) := by
  have hresolve := resolvePatchTokens_follows hv tokens htokens pointer
  rw [List.take_length] at hresolve
  rw [Rfc6901.evaluate, Option.bind_assoc]
  refine hresolve.bind fun loc hloc => ?_
  obtain ⟨w, hw⟩ := Rfc6901.get_of_locate hloc
  rw [hloc, Option.bind_some, hw, Option.bind_some]
  exact hk loc w hw (by rw [Rfc6901.evaluate, hloc, Option.bind_some, hw])

/-! ## An operation -/

section

open Rfc6902

/-- An operation has one of the six names. -/
theorem Denotes.name {members : List (Bytes × Pjson)} {operation : Operation}
    (h : Denotes members operation) :
    ∃ op ∈ knownOperations, Assoc.find (ascii "op") members = some (.jsonString op) := by
  cases h with
  | add hop => exact ⟨_, by decide, hop⟩
  | remove hop => exact ⟨_, by decide, hop⟩
  | replace hop => exact ⟨_, by decide, hop⟩
  | move hop => exact ⟨_, by decide, hop⟩
  | copy hop => exact ⟨_, by decide, hop⟩
  | test hop => exact ⟨_, by decide, hop⟩

/-- And a pointer it applies to. -/
theorem Denotes.target {members : List (Bytes × Pjson)} {operation : Operation}
    (h : Denotes members operation) :
    ∃ path, Assoc.find (ascii "path") members = some (.jsonString (pointerText path)) := by
  cases h <;> exact ⟨_, by assumption⟩

/-- The operations that have a source. -/
theorem Denotes.source {members : List (Bytes × Pjson)} {operation : Operation}
    (h : Denotes members operation) {op : Bytes}
    (hop : Assoc.find (ascii "op") members = some (.jsonString op)) (hname : op ∈ [ascii "move", ascii "copy"]) :
    ∃ source, Assoc.find (ascii "from") members = some (.jsonString (pointerText source)) := by
  cases h with
  | move _ _ hfrom => exact ⟨_, hfrom⟩
  | copy _ _ hfrom => exact ⟨_, hfrom⟩
  | add hop' | remove hop' | replace hop' | test hop' =>
    rw [hop'] at hop
    cases hop
    exact absurd hname (by decide)

/-- The operations that have a value. -/
theorem Denotes.value {members : List (Bytes × Pjson)} {operation : Operation}
    (h : Denotes members operation) {op : Bytes}
    (hop : Assoc.find (ascii "op") members = some (.jsonString op))
    (hname : op ∈ [ascii "add", ascii "replace", ascii "test"]) :
    ∃ value, Assoc.find (ascii "value") members = some value := by
  cases h with
  | add _ _ hvalue => exact ⟨_, hvalue⟩
  | replace _ _ hvalue => exact ⟨_, hvalue⟩
  | test _ _ hvalue => exact ⟨_, hvalue⟩
  | remove hop' | move hop' | copy hop' =>
    rw [hop'] at hop
    cases hop
    exact absurd hname (by decide)

/-- A string member is there, or the operation fails. -/
theorem stringMember_cases (operation : List (Bytes × Pjson)) (name : Bytes) (code : PatchError.Code)
    (message : String) :
    (∃ s, Assoc.find name operation = some (.jsonString s) ∧ stringMember operation name code message = pure s) ∨
      (∀ s, Assoc.find name operation ≠ some (.jsonString s)) ∧
        ∀ cost, Follows (stringMember operation name code message) none cost := by
  unfold stringMember
  cases hfind : Assoc.find name operation with
  | none => exact Or.inr ⟨fun _ => nofun, fun _ => failPatch_follows _ _ _⟩
  | some w =>
    cases w with
    | jsonString s => exact Or.inl ⟨s, rfl, rfl⟩
    | _ => exact Or.inr ⟨fun _ => nofun, fun _ => failPatch_follows _ _ _⟩

variable {e : Enumeration} {nodeSize : Nat} {v : Pjson} {members : List (Bytes × Pjson)}

/-- A `value` that is there is handed on. -/
theorem valueMember_of {value : Pjson} (h : Assoc.find (ascii "value") members = some value) :
    valueMember members = pure value := by
  rw [valueMember, h]

/-- One that is missing is an error. -/
theorem valueMember_none (h : Assoc.find (ascii "value") members = none) (cost : Cost) :
    Follows (valueMember members) none cost := by
  rw [valueMember, h]
  exact failPatch_follows _ _ _

/-- A source that is a pointer. -/
theorem fromMember_of {source : List Bytes} (hlength : (pointerText source).length + 1 < 2 ^ 64)
    (h : Assoc.find (ascii "from") members = some (.jsonString (pointerText source))) :
    Follows (fromMember members) (some (pointerText source, source)) (decodeCost source) := by
  have hdecode := decodePatchPointer_follows hlength true
  rw [decodePointer_ok_iff.mpr rfl] at hdecode
  rw [fromMember, stringMember, h]
  dsimp only
  rw [pure_bind]
  refine (setError_follows fun _ => by rfl).free ?_
  rw [← add_zero (decodeCost source)]
  refine hdecode.bind (g := fun tokens => some (pointerText source, tokens)) fun tokens _ => ?_
  exact .pure _

/-- A source that is none. -/
theorem fromMember_none (hlength : ∀ s, Assoc.find (ascii "from") members = some (.jsonString s) →
      s.length + 1 < 2 ^ 64)
    (h : ∀ source, Assoc.find (ascii "from") members ≠ some (.jsonString (pointerText source)))
    (cost : Cost) : Follows (fromMember members) none cost := by
  rw [fromMember]
  rcases stringMember_cases members (ascii "from") .MissingFrom
    "move and copy require string member 'from'" with ⟨s, hs, hrun⟩ | ⟨-, hfail⟩
  · rw [hrun, pure_bind]
    refine (setError_follows fun _ => by rfl).free ?_
    have hdecode := decodePatchPointer_follows (hlength s hs) true
    cases hpointer : decodePointer s with
    | ok tokens =>
      rw [decodePointer_ok_iff] at hpointer
      exact absurd (hpointer ▸ hs) (h tokens)
    | error x =>
      rw [hpointer] at hdecode
      exact hdecode.stop cost
  · exact (hfail 0).stop cost

/-! ### The end of an operation -/

/-- `copy` pays for the clone and for the insertion. -/
theorem transfer_copy (hv : v.Addressable) {path : List Bytes} (hpath : path.length < 2 ^ 64)
    (w : Pjson) (pointer from' : Bytes) (source : List Bytes) :
    Follows (transfer e nodeSize v w true pointer path from' source) (Rfc6902.add path w v)
      (cloneCost nodeSize w + addCost path v) := by
  rw [transfer, if_pos rfl]
  exact (measureClone_follows e nodeSize w).seq (addOwnedAtPointer_follows hv hpath pointer w)

/-- `move` does nothing from a place to itself, refuses to go into its own child, and else is a
    removal and an insertion. -/
theorem transfer_move (hv : v.Addressable) {path source : List Bytes} (hpath : path.length < 2 ^ 64)
    (hsource : source.length < 2 ^ 64) {w : Pjson} (hw : Rfc6901.evaluate source v = some w)
    (pointer from' : Bytes) :
    Follows (transfer e nodeSize v w false pointer path from' source)
      (if source = path then some v
        else if source <+: path then none else (Rfc6902.remove source v).bind (Rfc6902.add path w))
      (if source = path then 0
        else removeCost nodeSize source v + (Rfc6902.remove source v).elim 0 (addCost path)) := by
  rw [transfer, if_neg Bool.false_ne_true]
  by_cases hsame : source = path
  · rw [if_pos hsame, if_pos hsame, if_pos hsame]
    exact .pure v
  rw [if_neg hsame, if_neg hsame, if_neg hsame]
  by_cases hroot : source = []
  · rw [if_pos hroot, hroot, if_pos List.nil_prefix]
    exact failPatch_follows _ _ _
  rw [if_neg hroot]
  by_cases hbelow : source <+: path
  · have hlength : source.length < path.length := by
      refine lt_of_le_of_ne hbelow.length_le fun h => hsame ?_
      exact hbelow.eq_of_length h
    rw [if_pos ⟨hlength, hbelow⟩, if_pos hbelow]
    exact failPatch_follows _ _ _
  rw [if_neg fun h => hbelow h.2, if_neg hbelow]
  have hdetach := detachAtPointer_follows nodeSize hv hsource from'
  refine (hdetach.bind (g := fun r => Rfc6902.add path r.2 r.1)
    (d := (Rfc6902.remove source v).elim 0 (addCost path)) ?_).congr ?_ fun _ => rfl
  · rintro ⟨left, moved⟩ hresult
    obtain ⟨left', hleft, h⟩ := Option.bind_eq_some_iff.mp hresult
    obtain ⟨moved', -, h⟩ := Option.map_eq_some_iff.mp h
    cases h
    rw [hleft, Option.elim_some]
    exact addOwnedAtPointer_follows ((nodes_le_of_remove hleft).trans_lt hv) hpath pointer moved
  · rw [detached, hw]
    cases Rfc6902.remove source v <;> rfl

/-! ### The six operations -/

/-- The texts of an operation have lengths that can be counted. -/
def Measurable (members : List (Bytes × Pjson)) : Prop :=
  ∀ name s, Assoc.find name members = some (.jsonString s) → s.length + 1 < 2 ^ 64

/-- No pointer of an operation has as many tokens as a counter can hold. -/
theorem Measurable.tokens (h : Measurable members) {name : Bytes} {path : List Bytes}
    (hfind : Assoc.find name members = some (.jsonString (pointerText path))) :
    path.length + 1 < 2 ^ 64 :=
  (Nat.succ_le_succ (length_le_pointerText path)).trans_lt (h name _ hfind)

/-- A document that an operation can be performed on. -/
structure Workable (v : Pjson) : Prop where
  wf : v.WF
  addressable : v.Addressable
  equalWork : v.equalWork < 2 ^ 64

/-- A comparison of a part costs no more than one of the whole. -/
theorem Pjson.equalWork_le_of_get {loc : Location} {v w : Pjson} (h : v.get loc = some w) :
    w.equalWork ≤ v.equalWork := by
  induction loc generalizing v with
  | nil =>
    cases h
    exact le_rfl
  | cons step loc ih =>
    obtain ⟨c, hc, hget⟩ := Option.bind_eq_some_iff.mp h
    refine (ih hget).trans ?_
    cases step with
    | member key =>
      cases v with
      | jsonObject ms =>
        have hm := Assoc.mem_of_find (show Assoc.find key ms = some c from hc)
        have hle := List.single_le_sum (by simp) _ (List.mem_map.mpr ⟨_, hm, rfl⟩ :
          c.equalWork ∈ ms.map fun m => m.2.equalWork)
        rw [Pjson.equalWork, equalWorkMembers_eq_sum]
        omega
      | _ => cases hc
    | element index =>
      cases v with
      | jsonArray xs =>
        have hle := List.single_le_sum (by simp) _
          (List.mem_map_of_mem (List.mem_of_getElem? (show xs[index]? = some c from hc)) :
            c.equalWork ∈ xs.map Pjson.equalWork)
        rw [Pjson.equalWork, equalWorkElements_eq_sum]
        omega
      | _ => cases hc

/-- What has a result on a value has the value. -/
theorem evaluate_of_isSome {β : Type} {source : List Bytes} {g : Pjson → Option β}
    (h : ((Rfc6901.evaluate source v).bind g).isSome) : ∃ w, Rfc6901.evaluate source v = some w := by
  cases heval : Rfc6901.evaluate source v with
  | none =>
    rw [heval] at h
    cases h
  | some w => exact ⟨w, rfl⟩

/-- The operations with a source. -/
theorem perform_transfer (hv : Workable v) (hm : Measurable members) {path : List Bytes}
    (hpath : Assoc.find (ascii "path") members = some (.jsonString (pointerText path)))
    {op : Bytes} (hname : op = ascii "move" ∨ op = ascii "copy")
    (hop : Assoc.find (ascii "op") members = some (.jsonString op)) :
    ∃ r c, Bills nodeSize v (.jsonObject members) r (decodeCost path + c) ∧
      Follows (perform e nodeSize v members op (pointerText path) path) r c := by
  have hlength := hm.tokens hpath
  rw [perform, if_pos hname]
  -- Path has been decoded by now; what is left is from, if it is there and can be read.
  by_cases hsource : ∃ source, Assoc.find (ascii "from") members = some (.jsonString (pointerText source))
  · obtain ⟨source, hsource⟩ := hsource
    have hmember := fromMember_of (hm _ _ hsource) hsource
    have hlength' := hm.tokens hsource
    -- A move resolves its source first, and is done where both pointers agree.
    rcases hname with rfl | rfl
    · refine ⟨_, _, .operation (.move hop hpath hsource), ?_⟩
      refine (hmember.bind (g := fun r => (Rfc6901.evaluate r.2 v).bind fun w =>
        if r.2 = path then some v
        else if r.2 <+: path then none else (Rfc6902.remove r.2 v).bind (Rfc6902.add path w))
        (d := resolveCost source.length + (Rfc6901.evaluate source v).elim 0 fun _ =>
          if source = path then 0
          else removeCost nodeSize source v + (Rfc6902.remove source v).elim 0 (addCost path)) ?_).congr ?_ ?_
      · rintro ⟨from', source'⟩ h
        cases h
        refine target_follows hv.addressable hlength' _ fun loc w hw heval => ?_
        rw [hw]
        exact transfer_move hv.addressable (by omega) (by omega) heval _ _
      · rw [Option.bind_some, Operation.apply]
        cases Rfc6901.evaluate source v with
        | none => simp
        | some w => rfl
      · intro hsome
        obtain ⟨w, hw⟩ := evaluate_of_isSome hsome
        rw [hw]
        rfl
    · refine ⟨_, _, .operation (.copy hop hpath hsource), ?_⟩
      refine (hmember.bind (g := fun r => (Rfc6901.evaluate r.2 v).bind fun w => Rfc6902.add path w v)
        (d := resolveCost source.length + (Rfc6901.evaluate source v).elim 0 fun w =>
          cloneCost nodeSize w + addCost path v) ?_).congr ?_ ?_
      · rintro ⟨from', source'⟩ h
        cases h
        refine target_follows hv.addressable hlength' _ fun loc w hw heval => ?_
        rw [hw]
        exact transfer_copy hv.addressable (by omega) w _ _ _
      · rfl
      · intro hsome
        obtain ⟨w, hw⟩ := evaluate_of_isSome hsome
        rw [hw]
        rfl
  -- Without a pointer in from the element denotes neither a move nor a copy.
  · refine ⟨none, 0, .malformed _ ?_, ?_⟩
    · rintro _ operation h hdenotes
      cases h
      exact hsource (Denotes.source hdenotes hop (by simpa using hname))
    · exact (fromMember_none (hm _) (not_exists.mp hsource) 0).stop 0

/-- The operations with a value. -/
theorem perform_value (hv : Workable v) (hm : Measurable members) (hmembers : (Pjson.jsonObject members).WF)
    {path : List Bytes}
    (hpath : Assoc.find (ascii "path") members = some (.jsonString (pointerText path)))
    {op : Bytes} (hname : op = ascii "add" ∨ op = ascii "replace" ∨ op = ascii "test")
    (hop : Assoc.find (ascii "op") members = some (.jsonString op)) :
    ∃ r c, Bills nodeSize v (.jsonObject members) r (decodeCost path + c) ∧
      Follows (perform e nodeSize v members op (pointerText path) path) r c := by
  have hlength := hm.tokens hpath
  have hpath' : path.length < 2 ^ 64 := by omega
  by_cases hvalue : ∃ value, Assoc.find (ascii "value") members = some value
  · obtain ⟨value, hvalue⟩ := hvalue
    have hwf : value.WF := (Pjson.wf_object.mp hmembers).2 _ (Assoc.mem_of_find hvalue)
    rcases hname with rfl | rfl | rfl
    · refine ⟨_, _, .operation (.add hop hpath hvalue), ?_⟩
      rw [perform, if_neg (by decide), if_pos rfl, valueMember_of hvalue, pure_bind]
      exact (measureClone_follows e nodeSize value).seq
        (addOwnedAtPointer_follows hv.addressable hpath' _ value)
    · refine ⟨_, _, .operation (.replace hop hpath hvalue), ?_⟩
      rw [perform, if_neg (by decide), if_neg (by decide), if_neg (by decide), if_pos rfl,
        valueMember_of hvalue, pure_bind]
      exact (measureClone_follows e nodeSize value).seq
        (replaceAtPointer_follows hv.addressable hpath' _ value)
    · refine ⟨_, _, .operation (.test hop hpath hvalue), ?_⟩
      rw [perform, if_neg (by decide), if_neg (by decide), if_neg (by decide), if_neg (by decide),
        valueMember_of hvalue, pure_bind]
      refine target_follows hv.addressable hlength _ fun loc w hw heval => ?_
      rw [hw]
      exact patchEqual_follows e (Pjson.wf_get hw hv.wf) hwf
        ((Pjson.equalWork_le_of_get hw).trans_lt hv.equalWork) v _
  · have hnone : Assoc.find (ascii "value") members = none := by
      cases hfind : Assoc.find (ascii "value") members with
      | none => rfl
      | some value => exact absurd ⟨value, hfind⟩ hvalue
    refine ⟨none, 0, .malformed _ ?_, ?_⟩
    · rintro _ operation h hdenotes
      cases h
      exact hvalue (Denotes.value hdenotes hop (by simpa using hname))
    · rcases hname with rfl | rfl | rfl
      · rw [perform, if_neg (by decide), if_pos rfl]
        exact (valueMember_none hnone 0).stop 0
      · rw [perform, if_neg (by decide), if_neg (by decide), if_neg (by decide), if_pos rfl]
        exact (valueMember_none hnone 0).stop 0
      · rw [perform, if_neg (by decide), if_neg (by decide), if_neg (by decide), if_neg (by decide)]
        exact (valueMember_none hnone 0).stop 0

/-- `remove`, from its pointer on. -/
theorem perform_remove (hv : Workable v) (hm : Measurable members) {path : List Bytes}
    (hpath : Assoc.find (ascii "path") members = some (.jsonString (pointerText path)))
    (hop : Assoc.find (ascii "op") members = some (.jsonString (ascii "remove"))) :
    ∃ r c, Bills nodeSize v (.jsonObject members) r (decodeCost path + c) ∧
      Follows (perform e nodeSize v members (ascii "remove") (pointerText path) path) r c := by
  have hlength := hm.tokens hpath
  refine ⟨_, _, .operation (.remove hop hpath), ?_⟩
  rw [perform, if_neg (by decide), if_neg (by decide), if_pos rfl]
  refine ((detachAtPointer_follows nodeSize hv.addressable (by omega) _).bind
    (g := fun r => some r.1) (d := 0) fun r _ => ?_).congr ?_ fun _ => (add_zero _).symm
  · exact .pure r.1
  · rw [detached]
    show Rfc6902.remove path v = _
    cases hleft : Rfc6902.remove path v with
    | none => rfl
    | some left =>
      obtain ⟨removed, heval⟩ := evaluate_of_remove hleft
      rw [heval]
      rfl

/-- **An operation follows RFC 6902**, at its price. -/
theorem applyOperation_follows (e : Enumeration) (nodeSize : Nat) (hv : Workable v) {element : Pjson} (hwf : element.WF)
    (hm : ∀ members, element = .jsonObject members → Measurable members) :
    ∃ r c, Bills nodeSize v element r c ∧ Follows (applyOperation e nodeSize v element) r c := by
  cases element with
  | jsonObject members =>
    have hm := hm members rfl
    have hmalformed : ∀ c, (∀ operation, ¬ Denotes members operation) →
        Bills nodeSize v (.jsonObject members) none c := by
      intro c h
      refine .malformed c fun _ operation heq => ?_
      cases heq
      exact h operation
    rw [applyOperation]
    -- The checks in the order of the source: op, its name, path, the text of path.
    rcases stringMember_cases members (ascii "op") .MissingOp
      "JSON Patch operation requires string member 'op'" with ⟨op, hop, hrun⟩ | ⟨hnone, hfail⟩
    swap
    · refine ⟨none, 0, hmalformed 0 fun operation h => ?_, (hfail 0).stop 0⟩
      obtain ⟨name, -, hname⟩ := Denotes.name h
      exact hnone name hname
    rw [hrun, pure_bind]
    by_cases hknown : op ∈ knownOperations
    swap
    · refine ⟨none, 0, hmalformed 0 fun operation h => ?_, ?_⟩
      · obtain ⟨name, hname, hop'⟩ := Denotes.name h
        rw [hop] at hop'
        cases hop'
        exact hknown hname
      · refine (setError_follows fun _ => by rfl).free ?_
        rw [if_pos hknown]
        exact failPatch_follows _ _ _
    rcases stringMember_cases members (ascii "path") .MissingPath
      "JSON Patch operation requires string member 'path'" with ⟨text, htext, hrun'⟩ | ⟨hnone, hfail⟩
    swap
    · refine ⟨none, 0, hmalformed 0 fun operation h => ?_, ?_⟩
      · obtain ⟨path, hpath⟩ := Denotes.target h
        exact hnone _ hpath
      · refine (setError_follows fun _ => by rfl).free ?_
        rw [if_neg (not_not.mpr hknown)]
        exact (hfail 0).stop 0
    -- Decoding is charged for; a text that is no pointer ends the operation here.
    have hdecode := decodePatchPointer_follows (hm _ _ htext) false
    cases hpointer : decodePointer text with
    | error x =>
      refine ⟨none, 0, hmalformed 0 fun operation h => ?_, ?_⟩
      · obtain ⟨path, hpath⟩ := Denotes.target h
        rw [htext] at hpath
        cases hpath
        rw [decodePointer_ok_iff.mpr rfl] at hpointer
        cases hpointer
      · rw [hpointer] at hdecode
        refine (setError_follows fun _ => by rfl).free ?_
        rw [if_neg (not_not.mpr hknown), hrun', pure_bind]
        refine (setError_follows fun _ => by rfl).free ?_
        exact hdecode.stop 0
    | ok path =>
      rw [hpointer] at hdecode
      rw [decodePointer_ok_iff] at hpointer
      subst hpointer
      -- All that `perform` does, one operation after the other.
      have hperform : ∃ r c, Bills nodeSize v (.jsonObject members) r (decodeCost path + c) ∧
          Follows (perform e nodeSize v members op (pointerText path) path) r c := by
        have hnames : op = ascii "add" ∨ op = ascii "remove" ∨ op = ascii "replace" ∨ op = ascii "move" ∨
            op = ascii "copy" ∨ op = ascii "test" := by simpa [knownOperations] using hknown
        rcases hnames with h | h | h | h | h | h
        · exact perform_value hv hm hwf htext (Or.inl h) hop
        · subst h
          exact perform_remove hv hm htext hop
        · exact perform_value hv hm hwf htext (Or.inr (Or.inl h)) hop
        · exact perform_transfer hv hm htext (Or.inl h) hop
        · exact perform_transfer hv hm htext (Or.inr h) hop
        · exact perform_value hv hm hwf htext (Or.inr (Or.inr h)) hop
      obtain ⟨r, c, hbills, hfollows⟩ := hperform
      refine ⟨r, _, hbills, ?_⟩
      refine (setError_follows fun _ => by rfl).free ?_
      rw [if_neg (not_not.mpr hknown), hrun', pure_bind]
      refine (setError_follows fun _ => by rfl).free ?_
      refine hdecode.bind (g := fun _ => r) fun tokens htokens => ?_
      cases htokens
      exact hfollows
  -- An element that is no object denotes no operation.
  | _ =>
    refine ⟨none, 0, .malformed _ nofun, ?_⟩
    rw [applyOperation]
    · exact failPatch_follows _ _ _
    · exact nofun

/-! ## Uniqueness -/

/-- An object describes one operation. -/
theorem Denotes.unique {operation operation' : Operation} (h : Denotes members operation)
    (h' : Denotes members operation') : operation = operation' := by
  have hname : ∀ {a b : Bytes}, Assoc.find (ascii "op") members = some (.jsonString a) →
      Assoc.find (ascii "op") members = some (.jsonString b) → a = b := by
    intro a b ha hb
    rw [ha] at hb
    cases hb
    rfl
  have hpointer : ∀ {name : Bytes} {ts us : List Bytes},
      Assoc.find name members = some (.jsonString (pointerText ts)) →
      Assoc.find name members = some (.jsonString (pointerText us)) → ts = us := by
    intro name ts us ht hu
    rw [ht] at hu
    exact pointerText_injective (Pjson.jsonString.inj (Option.some.inj hu))
  have hvalue : ∀ {x y : Pjson}, Assoc.find (ascii "value") members = some x →
      Assoc.find (ascii "value") members = some y → x = y := by
    intro x y hx hy
    rw [hx] at hy
    exact Option.some.inj hy
  -- The name of the operation picks the rule; its members then agree one by one.
  cases h with
  | add hop hpath hval =>
    cases h' with
    | add _ hpath' hval' => rw [hpointer hpath hpath', hvalue hval hval']
    | _ hop' => exact absurd (hname hop hop') (by decide)
  | remove hop hpath =>
    cases h' with
    | remove _ hpath' => rw [hpointer hpath hpath']
    | _ hop' => exact absurd (hname hop hop') (by decide)
  | replace hop hpath hval =>
    cases h' with
    | replace _ hpath' hval' => rw [hpointer hpath hpath', hvalue hval hval']
    | _ hop' => exact absurd (hname hop hop') (by decide)
  | move hop hpath hfrom =>
    cases h' with
    | move _ hpath' hfrom' => rw [hpointer hpath hpath', hpointer hfrom hfrom']
    | _ hop' => exact absurd (hname hop hop') (by decide)
  | copy hop hpath hfrom =>
    cases h' with
    | copy _ hpath' hfrom' => rw [hpointer hpath hpath', hpointer hfrom hfrom']
    | _ hop' => exact absurd (hname hop hop') (by decide)
  | test hop hpath hval =>
    cases h' with
    | test _ hpath' hval' => rw [hpointer hpath hpath', hvalue hval hval']
    | _ hop' => exact absurd (hname hop hop') (by decide)

/-- An element of a patch has one bill. -/
theorem Bills.unique {element : Pjson} {r r' : Option Pjson} {c c' : Cost}
    (h : Bills nodeSize v element r c) (h' : Bills nodeSize v element r' c') :
    r = r' ∧ (r.isSome → c = c') := by
  cases h with
  | operation hdenotes =>
    cases h' with
    | operation hdenotes' =>
      cases Denotes.unique hdenotes hdenotes'
      exact ⟨rfl, fun _ => rfl⟩
    | malformed _ hnot => exact absurd hdenotes (hnot _ _ rfl)
  | malformed _ hnot =>
    cases h' with
    | operation hdenotes' => exact absurd hdenotes' (hnot _ _ rfl)
    | malformed => exact ⟨rfl, fun h => by cases h⟩

/-- The bill of an operation settles what it may do. -/
theorem Bills.steps_iff {element : Pjson} {r : Option Pjson} {c : Cost} (h : Bills nodeSize v element r c)
    {v' : Pjson} : Steps element v v' ↔ r = some v' := by
  cases h with
  | operation hdenotes =>
    refine ⟨?_, fun happly => .intro hdenotes happly⟩
    rintro ⟨hdenotes', happly⟩
    cases Denotes.unique hdenotes hdenotes'
    exact happly
  | malformed _ hnot =>
    refine iff_of_false ?_ (by simp)
    rintro ⟨hdenotes, -⟩
    exact hnot _ _ rfl hdenotes

end

end Patch

end ByteDance
