/-
  `pjson::findPointer`, against RFC 6901.

  `Refers v tokens loc w` is the evaluation of the standard, one rule for each kind of token: from
  the value `v` the tokens lead to the node `w`, which stands at `loc`.  A canonical index is the
  numeral of the element's number.  `findPointer_evaluates` says that `findPointer` returns a
  node exactly where that relation has one.
-/
import Pjson.Pointer.Resolve

namespace ByteDance

open Decimal

/-- Every node has an address of its own, so a document has fewer nodes than there are addresses. -/
def Pjson.Addressable (v : Pjson) : Prop := v.nodes < 2 ^ 64

/-- RFC 6901 section 4. -/
inductive Refers : Pjson → List Bytes → Location → Pjson → Prop
  | whole (v : Pjson) : Refers v [] [] v
  | member {members : List (Bytes × Pjson)} {token : Bytes} {child w : Pjson}
      {tokens : List Bytes} {loc : Location} : Assoc.find token members = some child →
      Refers child tokens loc w →
      Refers (.jsonObject members) (token :: tokens) (.member token :: loc) w
  | element {elements : List Pjson} {index : Nat} {child w : Pjson} {tokens : List Bytes}
      {loc : Location} : elements[index]? = some child → Refers child tokens loc w →
      Refers (.jsonArray elements) (numeral index :: tokens) (.element index :: loc) w

/-- `pjson::findPointer`: where the node is, or why there is none. -/
def Pjson.findPointer (v : Pjson) (pointer : Bytes) : Except PointerError Location := do
  let tokens ← decodePointer pointer
  resolvePointerTokens v tokens tokens.length pointer

theorem Refers.get {v w : Pjson} {tokens : List Bytes} {loc : Location}
    (h : Refers v tokens loc w) : v.get loc = some w := by
  induction h with
  | whole v => rfl
  | member hchild _ ih =>
    rw [Pjson.get_cons]
    show (Assoc.find _ _).bind _ = _
    rw [hchild]
    exact ih
  | element hchild _ ih =>
    rw [Pjson.get_cons]
    show (_[_]?).bind _ = _
    rw [hchild]
    exact ih

/-- The relation and the function say the same. -/
theorem refers_iff {v w : Pjson} {tokens : List Bytes} {loc : Location} :
    Refers v tokens loc w ↔ Rfc6901.locate tokens v = some loc ∧ v.get loc = some w := by
  constructor
  · intro h
    refine ⟨?_, h.get⟩
    -- By the derivation: each step of it is one token of the pointer.
    induction h with
    | whole => rfl
    | @member members token child w tokens loc hchild _ ih =>
      have hmem : token ∈ Assoc.keys members := Assoc.find_isSome_iff.mp (by rw [hchild]; rfl)
      rw [Rfc6901.locate, Rfc6901.reference, if_pos hmem]
      show ((Assoc.find token members).bind _).map _ = _
      rw [hchild, Option.bind_some, ih]
      rfl
    | @element elements index child w tokens loc hchild _ ih =>
      have hlt : index < elements.length := (List.getElem?_eq_some_iff.mp hchild).1
      rw [Rfc6901.locate, Rfc6901.reference, arrayIndex_eq_some_iff.mpr rfl]
      dsimp only
      rw [if_pos hlt]
      show ((elements[index]?).bind _).map _ = _
      rw [hchild, Option.bind_some, ih]
      rfl
  · rintro ⟨h, hw⟩
    -- By the tokens: the value at each step says which rule applies.
    induction tokens generalizing v loc with
    | nil =>
      cases h
      cases hw
      exact .whole _
    | cons token tokens ih =>
      rw [Rfc6901.locate] at h
      cases hstep : Rfc6901.reference token v with
      | none =>
        rw [hstep] at h
        cases h
      | some step =>
        rw [hstep] at h
        obtain ⟨l, hl, rfl⟩ := Option.map_eq_some_iff.mp h
        obtain ⟨c, hc, hl⟩ := Option.bind_eq_some_iff.mp hl
        rw [Pjson.get_cons, hc, Option.bind_some] at hw
        have hrest := ih hl hw
        cases v with
        | jsonObject ms =>
          rw [Rfc6901.reference] at hstep
          split_ifs at hstep
          cases hstep
          exact .member hc hrest
        | jsonArray xs =>
          rw [Rfc6901.reference] at hstep
          cases hindex : Rfc6901.arrayIndex token with
          | none =>
            rw [hindex] at hstep
            cases hstep
          | some n =>
            rw [hindex] at hstep
            dsimp only at hstep
            split_ifs at hstep
            cases hstep
            rw [arrayIndex_eq_some_iff.mp hindex]
            exact .element hc hrest
        | _ => cases hstep

theorem findPointer_ok_iff {v : Pjson} (hv : v.Addressable) {pointer : Bytes} {loc : Location} :
    v.findPointer pointer = .ok loc ↔
      ∃ tokens, pointer = pointerText tokens ∧ Rfc6901.locate tokens v = some loc := by
  rw [Pjson.findPointer]
  cases hdecode : decodePointer pointer with
  | error e =>
    refine iff_of_false (fun h => by cases h) ?_
    rintro ⟨tokens, htext, -⟩
    rw [decodePointer_ok_iff.mpr htext] at hdecode
    cases hdecode
  | ok tokens =>
    show resolvePointerTokens v tokens tokens.length pointer = .ok loc ↔ _
    rw [resolvePointerTokens_ok_iff hv, List.take_length]
    have htext := decodePointer_ok_iff.mp hdecode
    constructor
    · exact fun h => ⟨tokens, htext, h⟩
    · rintro ⟨tokens', htext', h⟩
      rw [htext] at htext'
      rwa [pointerText_injective htext']

/-- Tokens lead to one node at most. -/
theorem Refers.unique {v w w' : Pjson} {tokens : List Bytes} {loc loc' : Location}
    (h : Refers v tokens loc w) (h' : Refers v tokens loc' w') : loc = loc' ∧ w = w' := by
  obtain ⟨hloc, hw⟩ := refers_iff.mp h
  obtain ⟨hloc', hw'⟩ := refers_iff.mp h'
  rw [hloc] at hloc'
  cases hloc'
  rw [hw] at hw'
  cases hw'
  exact ⟨rfl, rfl⟩

/-- A path through a node. -/
theorem Refers.split {v w : Pjson} {ts us : List Bytes} {loc : Location}
    (h : Refers v (ts ++ us) loc w) : ∃ l l' u, Refers v ts l u ∧ Refers u us l' w := by
  induction ts generalizing v loc with
  | nil => exact ⟨[], loc, v, .whole v, h⟩
  | cons t ts ih =>
    cases h with
    | member hchild hrest =>
      obtain ⟨l, l', u, h₁, h₂⟩ := ih hrest
      exact ⟨_, l', u, .member hchild h₁, h₂⟩
    | element hchild hrest =>
      obtain ⟨l, l', u, h₁, h₂⟩ := ih hrest
      exact ⟨_, l', u, .element hchild h₁, h₂⟩

/-- The minus sign names no element of an array. -/
theorem not_refers_append {xs : List Pjson} {us : List Bytes} {loc : Location} {w : Pjson} :
    ¬ Refers (.jsonArray xs) ([0x2D] :: us) loc w := by
  intro h
  generalize htoken : ([0x2D] : Bytes) = token at h
  cases h with
  | @element _ n =>
    have hnone := arrayIndex_append
    rw [htoken, arrayIndex_eq_some_iff.mpr rfl] at hnone
    cases hnone

/-- **`findPointer` is RFC 6901 evaluation**: it finds a node exactly where the tokens of the
    pointer lead, finds that very node, and a minus sign below an array finds nothing. -/
theorem findPointer_evaluates (v : Pjson) (hv : v.Addressable) (pointer : Bytes) :
    (∀ loc, v.findPointer pointer = .ok loc ↔
      ∃ tokens w, pointer = pointerText tokens ∧ Refers v tokens loc w) ∧
    (∀ tokens loc w, pointer = pointerText tokens → Refers v tokens loc w →
      v.findPointer pointer = .ok loc ∧ v.get loc = some w) ∧
    (∀ ts us l xs, pointer = pointerText (ts ++ [0x2D] :: us) → Refers v ts l (.jsonArray xs) →
      ∃ e, v.findPointer pointer = .error e) := by
  have hiff : ∀ loc, v.findPointer pointer = .ok loc ↔
      ∃ tokens w, pointer = pointerText tokens ∧ Refers v tokens loc w := by
    intro loc
    rw [findPointer_ok_iff hv]
    constructor
    · rintro ⟨tokens, htext, hloc⟩
      obtain ⟨w, hw⟩ := Rfc6901.get_of_locate hloc
      exact ⟨tokens, w, htext, refers_iff.mpr ⟨hloc, hw⟩⟩
    · rintro ⟨tokens, w, htext, h⟩
      exact ⟨tokens, htext, (refers_iff.mp h).1⟩
  refine ⟨hiff, ?_, ?_⟩
  · intro tokens loc w htext h
    exact ⟨(hiff loc).mpr ⟨tokens, w, htext, h⟩, h.get⟩
  · intro ts us l xs htext harray
    cases hfind : v.findPointer pointer with
    | error e => exact ⟨e, rfl⟩
    | ok loc =>
      obtain ⟨tokens, w, htext', h⟩ := (hiff loc).mp hfind
      rw [htext] at htext'
      rw [← pointerText_injective htext'] at h
      obtain ⟨l', l'', u, h₁, h₂⟩ := h.split
      rw [(h₁.unique harray).2] at h₂
      exact absurd h₂ not_refers_append

/-- The second element of `[true, null]`, found by its index. -/
theorem findPointer_evaluates_index :
    (Pjson.jsonArray [.jsonBoolean true, .jsonNull]).findPointer [0x2F, 0x31] =
      .ok [.element 1] :=
  ((findPointer_evaluates (.jsonArray [.jsonBoolean true, .jsonNull])
    (by unfold Pjson.Addressable; decide) [0x2F, 0x31]).1 _).mpr
    ⟨[numeral 1], .jsonNull, by decide, .element rfl (.whole _)⟩

end ByteDance
