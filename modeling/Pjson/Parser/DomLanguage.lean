/-
  The DOM parser accepts JSON and computes its meaning: the recursive part.

  `Parsed lib c t x v c'` is what a successful parse of one value amounts to: from context `c` it
  moved over the bytes `t`, charging every value of the tree `x`, which fits the node budget and
  the nesting depth, and `v` is the meaning of `x`.  `Sound` and `Complete` say of a value parser
  that it returns only in this way, and always where it is possible.

  The loops of `parseArray` and `parseObject` are sound and complete if the parser of their values
  is (induction on the loop), and `parseValue` is by induction on the levels of nesting.
-/
import Pjson.Parser.DomSpec
import Pjson.Parser.Shape

namespace ByteDance

open Run

/-- There is room below `c` for `n` more levels of nesting. -/
def ParseCtx.Deep (c : ParseCtx) (n : Nat) : Prop := n = 0 ∨ c.depth + n ≤ c.maxDepth

/-- The number conversion in force in `c`. -/
def ParseCtx.convert (c : ParseCtx) (lib : NumericLibrary) (t : NumberToken) :
    Option ParsedNumber := t.convert lib c.numberPolicy

/-- A parse of the tree `x`, spelled `t`, with meaning `v`. -/
structure Parsed (lib : NumericLibrary) (c : ParseCtx) (t : Bytes) (x : Json) (v : Pjson)
    (c' : ParseCtx) : Prop where
  moved : c.Moved t x.nodes c'
  room : c.Room x.nodes
  deep : c.Deep x.depth
  denotes : x.denote (c.convert lib) c.duplicateKeys = some v

namespace Dom

variable {lib : NumericLibrary}

/-- A value parser returns only what the bytes it has consumed mean. -/
def Sound (lib : NumericLibrary) (value : DomM Pjson) : Prop :=
  ∀ {c v c'}, Ok value c v c' → ∃ w t x, Ws w ∧ Value x t ∧ Parsed lib c (w ++ t) x v c'

/-- A value parser returns the meaning of every value of less than `level` levels that it is put in
    front of. -/
def Complete (lib : NumericLibrary) (level : Nat) (value : DomM Pjson) : Prop :=
  ∀ {c w t x v out}, Ws w → Value x t → c.rest = w ++ (t ++ out) → EndsNumber out →
    x.depth < level → c.Room x.nodes → c.Deep x.depth →
    x.denote (c.convert lib) c.duplicateKeys = some v →
    ∃ c', Ok value c v c' ∧ c.Moved (w ++ t) x.nodes c'

variable {c c' : ParseCtx}

/-- Two documents may be nested here if the deeper of them may. -/
theorem deep_max {m n : Nat} : c.Deep (max m n) ↔ c.Deep m ∧ c.Deep n := by
  unfold ParseCtx.Deep
  omega

/-- What has no containers may stand anywhere. -/
theorem deep_zero : c.Deep 0 := Or.inl rfl

theorem room_zero : c.Room 0 := Or.inl rfl

/-- Moving over a text leaves as many levels. -/
theorem moved_deep {t : Bytes} {k n : Nat} (h : c.Moved t k c') : c'.Deep n ↔ c.Deep n := by
  unfold ParseCtx.Deep
  rw [h.depth, h.maxDepth]

/-- And the same policy for numbers. -/
theorem moved_convert {t : Bytes} {k : Nat} (h : c.Moved t k c') :
    c'.convert lib = c.convert lib := by
  funext t
  unfold ParseCtx.convert
  rw [h.numberPolicy]

/-- A step that charges nothing leaves the room. -/
theorem moved_room {t : Bytes} {k : Nat} (h : c.Moved t 0 c') : c'.Room k ↔ c.Room k := by
  have : c.Room (0 + k) ↔ c.Room 0 ∧ c'.Room k := h.room_add
  rw [Nat.zero_add] at this
  exact ⟨fun hk => this.mpr ⟨room_zero, hk⟩, fun hk => (this.mp hk).2⟩

/-! ## Arrays -/

/-- What a run of the element loop amounts to. -/
structure ParsedElements (lib : NumericLibrary) (c : ParseCtx) (t : Bytes) (xs : List Json)
    (vs : List Pjson) (c' : ParseCtx) : Prop where
  moved : c.Moved t (Json.nodesElements xs) c'
  room : c.Room (Json.nodesElements xs)
  deep : c.Deep (Json.depthElements xs)
  denotes : Json.denoteElements (c.convert lib) c.duplicateKeys xs = some vs

/-- No elements, with nothing charged. -/
theorem parsedElements_nil {t : Bytes} (h : c.Moved t 0 c') : ParsedElements lib c t [] [] c' :=
  ⟨h, room_zero, deep_zero, rfl⟩

/-- White space or a comma in front changes nothing but the bytes. -/
theorem ParsedElements.cons_bytes {d : ParseCtx} {t t' : Bytes} {xs : List Json} {vs : List Pjson}
    (h : c.Moved t 0 d) (h' : ParsedElements lib d t' xs vs c') :
    ParsedElements lib c (t ++ t') xs vs c' where
  moved := by simpa using h.trans h'.moved
  room := (moved_room h).mp h'.room
  deep := (moved_deep h).mp h'.deep
  denotes := by rw [← moved_convert h, ← h.duplicateKeys]; exact h'.denotes

/-- One element in front. -/
theorem ParsedElements.cons {d : ParseCtx} {t t' : Bytes} {x : Json} {xs : List Json} {v : Pjson}
    {vs : List Pjson} (h : Parsed lib c t x v d) (h' : ParsedElements lib d t' xs vs c') :
    ParsedElements lib c (t ++ t') (x :: xs) (v :: vs) c' where
  moved := h.moved.trans h'.moved
  room := h.moved.room_add.mpr ⟨h.room, h'.room⟩
  deep := deep_max.mpr ⟨h.deep, (moved_deep h.moved).mp h'.deep⟩
  denotes := by
    refine Json.denoteElements_cons h.denotes ?_
    rw [← moved_convert h.moved, ← h.moved.duplicateKeys]
    exact h'.denotes

/-- The loop has read elements up to the bracket, and appended what they denote. -/
theorem arrayLoop_sound {value : DomM Pjson} (hvalue : Sound lib value) {fuel : Nat}
    {expect any : Bool} {arr : List Pjson} {v : Pjson}
    (h : Ok (arrayLoop value fuel expect any arr) c v c') :
    ∃ t xs vs, Tail Elements expect any xs t ∧ v = .jsonArray (arr ++ vs) ∧
      ParsedElements lib c (t ++ [0x5D]) xs vs c' := by
  induction fuel generalizing c expect any arr with
  | zero => exact absurd h not_ok_throw
  | succ fuel ih =>
    unfold arrayLoop at h
    obtain ⟨o, d, hp, h⟩ := ok_bind.mp h
    obtain ⟨w, hw, hm, ho⟩ := peek_sound hp
    cases hr : d.rest with
    | nil =>
      rw [ho, hr, List.head?_nil, ok_bind_position] at h
      exact absurd h not_ok_fail
    | cons ch out =>
      rw [ho, hr, List.head?_cons] at h
      by_cases hclose : ch = 0x5D
      · -- the closing bracket ends the loop, unless a comma came last
        simp only [hclose, if_true] at h
        cases expect with
        | true =>
          rw [if_pos rfl, ok_bind_position] at h
          exact absurd h not_ok_fail
        | false =>
          rw [if_neg (by simp), ok_bind_next (hclose ▸ hr)] at h
          obtain ⟨e, hm₂, h⟩ := h
          rw [ok_pure] at h
          rw [h.1, h.2]
          refine ⟨w, [], [], ?_, by simp, parsedElements_nil (hm.trans hm₂)⟩
          cases any <;> exact Or.inl ⟨rfl, hw⟩
      by_cases hcomma : ch = 0x2C
      · -- a comma is only taken after an element
        simp only [hcomma, show (0x2C : UInt8) ≠ 0x5D by decide, if_false, if_true] at h
        by_cases hflags : (!any || expect) = true
        · rw [if_pos hflags, ok_bind_position] at h
          exact absurd h not_ok_fail
        · rw [if_neg hflags, ok_bind_next (hcomma ▸ hr)] at h
          obtain ⟨e, hm₂, h⟩ := h
          obtain ⟨t, xs, vs, ht, hv, hparsed⟩ := ih h
          obtain ⟨rfl, rfl⟩ : any = true ∧ expect = false := by
            cases any <;> cases expect <;> simp_all
          refine ⟨w ++ 0x2C :: t, xs, vs, Or.inr ⟨w, t, hw, rfl, ht⟩, hv, ?_⟩
          have := hparsed.cons_bytes (hm.trans hm₂)
          simpa using this
      simp only [hclose, hcomma, if_false] at h
      by_cases hflags : (any && !expect) = true
      · rw [if_pos hflags, ok_bind_position] at h
        exact absurd h not_ok_fail
      · -- an element, and the loop behind it
        rw [if_neg hflags] at h
        obtain ⟨elem, e, helem, h⟩ := ok_bind.mp h
        obtain ⟨w₂, t₂, x, hw₂, hx, hparsed⟩ := hvalue helem
        obtain ⟨t, xs, vs, ht, hv, hrest⟩ := ih h
        have hels : Elements (x :: xs) (w ++ w₂ ++ (t₂ ++ t)) :=
          Tail.elements (ws_append hw hw₂) hx ht
        refine ⟨w ++ w₂ ++ (t₂ ++ t), x :: xs, elem :: vs, ?_, by simpa using hv, ?_⟩
        · cases expect with
          | true => exact hels
          | false =>
            cases any with
            | true => simp at hflags
            | false => exact Or.inr hels
        · have := (hrest.cons hparsed).cons_bytes hm
          simpa using this

/-- It reads elements that fit, up to their bracket. -/
theorem arrayLoop_complete {value : DomM Pjson} {level : Nat} (hvalue : Complete lib level value)
    (fuel : Nat) (expect any : Bool) (arr : List Pjson) {t out : Bytes} {xs : List Json}
    {vs : List Pjson} (ht : Tail Elements expect any xs t) (hr : c.rest = t ++ 0x5D :: out)
    (hfuel : t.length < fuel) (hlevel : ∀ x ∈ xs, x.depth < level)
    (hroom : c.Room (Json.nodesElements xs)) (hdeep : c.Deep (Json.depthElements xs))
    (hden : Json.denoteElements (c.convert lib) c.duplicateKeys xs = some vs) :
    ∃ c', Ok (arrayLoop value fuel expect any arr) c (.jsonArray (arr ++ vs)) c' ∧
      c.Moved (t ++ [0x5D]) (Json.nodesElements xs) c' := by
  induction fuel generalizing c expect any arr t xs vs with
  | zero => omega
  | succ fuel ih =>
    -- the loop at an element
    have helement : ∀ {t : Bytes}, Elements xs t → (any && !expect) = false →
        c.rest = t ++ 0x5D :: out → t.length < fuel + 1 →
        ∃ c', Ok (arrayLoop value (fuel + 1) expect any arr) c (.jsonArray (arr ++ vs)) c' ∧
          c.Moved (t ++ [0x5D]) (Json.nodesElements xs) c' := by
      intro t hels hflags hr hfuel
      obtain ⟨x, ys, w, s, r, rfl, rfl, hw, hx, htail⟩ := hels.split
      obtain ⟨v, vs', rfl, hv, hvs⟩ := Json.denoteElements_cons_iff.mp hden
      obtain ⟨b, q, hs, hb⟩ := hx.start
      obtain ⟨hws, hcomma, hclose, -⟩ := valueStart_ne hb
      have hr₁ : c.rest = w ++ (s ++ (r ++ 0x5D :: out)) := by simpa using hr
      obtain ⟨d, hp, hm⟩ := peek_complete hw
        (by rw [hs, List.cons_append]; exact head_not_ws hws) hr₁
      have hr₂ := hm.rest_eq hr₁
      -- what follows the element cannot extend a number
      have hends : EndsNumber (r ++ 0x5D :: out) := by
        rcases htail with ⟨-, hw'⟩ | ⟨w', r', hw', rfl, -⟩
        · exact endsNumber_ws hw' (by decide)
        · rw [List.append_assoc]
          exact endsNumber_ws hw' (by decide)
      have hroom₁ := (moved_room hm).mpr hroom
      obtain ⟨e, hval, hm₂⟩ := hvalue ws_nil hx hr₂ hends (hlevel x (List.mem_cons_self ..))
        (by unfold ParseCtx.Room at hroom₁ ⊢; simp only [Json.nodesElements] at hroom₁; omega)
        ((moved_deep hm).mpr (deep_max.mp hdeep).1)
        (by rw [moved_convert hm, hm.duplicateKeys]; exact hv)
      have hm₂ : d.Moved s x.nodes e := hm₂
      have hm₃ : c.Moved (w ++ s) x.nodes e := by simpa using hm.trans hm₂
      have hlen : 0 < s.length := by rw [hs]; simp
      obtain ⟨c', hloop, hm₄⟩ := ih false true (arr ++ [v]) htail (hm₂.rest_eq hr₂)
        (by simp only [List.length_append] at hfuel; omega)
        (fun y hy => hlevel y (List.mem_cons_of_mem _ hy))
        (hm₃.room_add.mp hroom).2 ((moved_deep hm₃).mpr (deep_max.mp hdeep).2)
        (by rw [moved_convert hm₃, hm₃.duplicateKeys]; exact hvs)
      refine ⟨c', ?_, by simpa [Json.nodesElements] using hm₃.trans hm₄⟩
      unfold arrayLoop
      refine Ok.bind hp ?_
      simp only [hs, List.cons_append, List.head?_cons, hclose, hcomma, if_false, hflags,
        Bool.false_eq_true]
      exact Ok.bind hval (by simpa using hloop)
    -- the loop at the closing bracket
    have hend : xs = [] → Ws t → expect = false →
        ∃ c', Ok (arrayLoop value (fuel + 1) expect any arr) c (.jsonArray (arr ++ vs)) c' ∧
          c.Moved (t ++ [0x5D]) (Json.nodesElements xs) c' := by
      rintro rfl hw rfl
      obtain ⟨d, hp, hm⟩ := peek_complete hw (head_not_ws (by decide)) hr
      obtain ⟨e, hm₂⟩ := exists_moved (t := [0x5D]) (hm.rest_eq hr)
      cases hden
      refine ⟨e, ?_, hm.trans hm₂⟩
      unfold arrayLoop
      refine Ok.bind hp ?_
      simp only [List.head?_cons, if_true, Bool.false_eq_true, if_false]
      rw [ok_bind_next (hm.rest_eq hr)]
      exact ⟨e, hm₂, ok_pure.mpr ⟨by simp, rfl⟩⟩
    cases expect with
    | true => exact helement ht (by simp) hr hfuel
    | false =>
      cases any with
      | false =>
        rcases ht with ⟨hnil, hw⟩ | hels
        · exact hend hnil hw rfl
        · exact helement hels rfl hr hfuel
      | true =>
        rcases ht with ⟨hnil, hw⟩ | ⟨w, r, hw, rfl, hels⟩
        · exact hend hnil hw rfl
        · -- the comma, and the loop behind it
          have hr₁ : c.rest = w ++ (0x2C :: (r ++ 0x5D :: out)) := by simpa using hr
          obtain ⟨d, hp, hm⟩ := peek_complete hw (head_not_ws (by decide)) hr₁
          have hr₂ := hm.rest_eq hr₁
          obtain ⟨e, hm₂⟩ := exists_moved (t := [0x2C]) hr₂
          have hm₃ : c.Moved (w ++ [0x2C]) 0 e := hm.trans hm₂
          obtain ⟨c', hloop, hm₄⟩ := ih true true arr hels
            (hm₂.rest_eq hr₂) (by simp only [List.length_append, List.length_cons] at hfuel; omega)
            hlevel ((moved_room hm₃).mpr hroom) ((moved_deep hm₃).mpr hdeep)
            (by rw [moved_convert hm₃, hm₃.duplicateKeys]; exact hden)
          refine ⟨c', ?_, by simpa using hm₃.trans hm₄⟩
          unfold arrayLoop
          refine Ok.bind hp ?_
          simp only [List.head?_cons, show (0x2C : UInt8) ≠ 0x5D by decide, if_false, if_true,
            Bool.not_true, Bool.or_self, Bool.false_eq_true]
          rw [ok_bind_next hr₂]
          exact ⟨e, hm₂, hloop⟩

/-! ## Objects -/

/-- What a run of the member loop amounts to, from the members `obj` it starts with. -/
structure ParsedMembers (lib : NumericLibrary) (c : ParseCtx) (t : Bytes) (ms : List (Bytes × Json))
    (obj obj' : List (Bytes × Pjson)) (c' : ParseCtx) : Prop where
  moved : c.Moved t (Json.nodesMembers ms) c'
  room : c.Room (Json.nodesMembers ms)
  deep : c.Deep (Json.depthMembers ms)
  denotes : Json.denoteMembers (c.convert lib) c.duplicateKeys obj ms = some obj'

/-- No members, and the object as it was. -/
theorem parsedMembers_nil {t : Bytes} {obj : List (Bytes × Pjson)} (h : c.Moved t 0 c') :
    ParsedMembers lib c t [] obj obj c' := ⟨h, room_zero, deep_zero, rfl⟩

/-- White space, a comma or a name in front changes nothing but the bytes. -/
theorem ParsedMembers.cons_bytes {d : ParseCtx} {t t' : Bytes} {ms : List (Bytes × Json)}
    {obj obj' : List (Bytes × Pjson)} (h : c.Moved t 0 d)
    (h' : ParsedMembers lib d t' ms obj obj' c') :
    ParsedMembers lib c (t ++ t') ms obj obj' c' where
  moved := by simpa using h.trans h'.moved
  room := (moved_room h).mp h'.room
  deep := (moved_deep h).mp h'.deep
  denotes := by rw [← moved_convert h, ← h.duplicateKeys]; exact h'.denotes

/-- One member in front. -/
theorem ParsedMembers.cons {d : ParseCtx} {t t' k : Bytes} {x : Json} {ms : List (Bytes × Json)}
    {v : Pjson} {obj obj₁ obj' : List (Bytes × Pjson)} (h : Parsed lib c t x v d)
    (hadd : Json.addMember c.duplicateKeys k v obj = some obj₁)
    (h' : ParsedMembers lib d t' ms obj₁ obj' c') :
    ParsedMembers lib c (t ++ t') ((k, x) :: ms) obj obj' c' where
  moved := h.moved.trans h'.moved
  room := h.moved.room_add.mpr ⟨h.room, h'.room⟩
  deep := deep_max.mpr ⟨h.deep, (moved_deep h.moved).mp h'.deep⟩
  denotes := by
    refine Json.denoteMembers_cons_iff.mpr ⟨v, obj₁, h.denotes, hadd, ?_⟩
    rw [← moved_convert h.moved, ← h.moved.duplicateKeys]
    exact h'.denotes

/-- The duplicate-key policy as the source applies it, once it has not refused the name. -/
theorem addMember_eq {policy : DuplicateKeyPolicy} {k : Bytes} {v : Pjson}
    {obj : List (Bytes × Pjson)}
    (h : ¬ ((Assoc.find k obj).isSome = true ∧ policy = .RejectDuplicateKeys)) :
    Json.addMember policy k v obj = some
      (if (Assoc.find k obj).isSome then
        if policy = .KeepLastDuplicate then Assoc.assign k v obj else obj
      else Assoc.assign k v obj) := by
  unfold Json.addMember
  by_cases hk : k ∈ Assoc.keys obj
  · have hs : (Assoc.find k obj).isSome = true := Assoc.find_isSome_iff.mpr hk
    rw [if_pos hk, if_pos hs]
    cases policy with
    | RejectDuplicateKeys => exact absurd ⟨hs, rfl⟩ h
    | KeepFirstDuplicate => rfl
    | KeepLastDuplicate => rfl
  · rw [if_neg hk, if_neg (fun hs => hk (Assoc.find_isSome_iff.mp hs)), Assoc.assign_of_notMem hk]

/-- A name that is there already is refused. -/
theorem addMember_reject {k : Bytes} {v : Pjson} {obj : List (Bytes × Pjson)}
    (h : (Assoc.find k obj).isSome = true) :
    Json.addMember .RejectDuplicateKeys k v obj = none := by
  unfold Json.addMember
  rw [if_pos (Assoc.find_isSome_iff.mp h)]

/-- The loop has read members up to the brace, and added them as the policy says. -/
theorem objectLoop_sound {value : DomM Pjson} (hvalue : Sound lib value) {fuel : Nat}
    {expect any : Bool} {obj : List (Bytes × Pjson)} {v : Pjson}
    (h : Ok (objectLoop value fuel expect any obj) c v c') :
    ∃ t ms obj', Tail Members expect any ms t ∧ v = .jsonObject obj' ∧
      ParsedMembers lib c (t ++ [0x7D]) ms obj obj' c' := by
  induction fuel generalizing c expect any obj with
  | zero => exact absurd h not_ok_throw
  | succ fuel ih =>
    unfold objectLoop at h
    obtain ⟨o, d, hp, h⟩ := ok_bind.mp h
    obtain ⟨w, hw, hm, ho⟩ := peek_sound hp
    cases hr : d.rest with
    | nil =>
      rw [ho, hr, List.head?_nil, ok_bind_position] at h
      exact absurd h not_ok_fail
    | cons ch out =>
      rw [ho, hr, List.head?_cons] at h
      by_cases hclose : ch = 0x7D
      · -- the closing brace ends the loop, unless a comma came last
        simp only [hclose, if_true] at h
        cases expect with
        | true =>
          rw [if_pos rfl, ok_bind_position] at h
          exact absurd h not_ok_fail
        | false =>
          rw [if_neg (by simp), ok_bind_next (hclose ▸ hr)] at h
          obtain ⟨e, hm₂, h⟩ := h
          rw [ok_pure] at h
          rw [h.1, h.2]
          refine ⟨w, [], obj, ?_, rfl, parsedMembers_nil (hm.trans hm₂)⟩
          cases any <;> exact Or.inl ⟨rfl, hw⟩
      by_cases hcomma : ch = 0x2C
      · -- a comma is only taken after a member
        simp only [hcomma, show (0x2C : UInt8) ≠ 0x7D by decide, if_false, if_true] at h
        by_cases hflags : (!any || expect) = true
        · rw [if_pos hflags, ok_bind_position] at h
          exact absurd h not_ok_fail
        · rw [if_neg hflags, ok_bind_next (hcomma ▸ hr)] at h
          obtain ⟨e, hm₂, h⟩ := h
          obtain ⟨t, ms, obj', ht, hv, hparsed⟩ := ih h
          obtain ⟨rfl, rfl⟩ : any = true ∧ expect = false := by
            cases any <;> cases expect <;> simp_all
          refine ⟨w ++ 0x2C :: t, ms, obj', Or.inr ⟨w, t, hw, rfl, ht⟩, hv, ?_⟩
          have := hparsed.cons_bytes (hm.trans hm₂)
          simpa using this
      by_cases hquote : ch = 0x22
      · simp only [hquote, show (0x22 : UInt8) ≠ 0x7D by decide, show (0x22 : UInt8) ≠ 0x2C by decide,
          if_false, if_true] at h
        by_cases hflags : (any && !expect) = true
        · rw [if_pos hflags, ok_bind_position] at h
          exact absurd h not_ok_fail
        rw [if_neg hflags, ok_bind_position] at h
        obtain ⟨k, e, hkey, h⟩ := ok_bind.mp h
        obtain ⟨kt, hkt, hm₂⟩ := extractString_sound hkey
        rw [ok_bind_get] at h
        by_cases hdup : (Assoc.find k obj).isSome = true ∧ e.duplicateKeys = .RejectDuplicateKeys
        · rw [if_pos hdup] at h
          exact absurd h not_ok_fail
        rw [if_neg hdup] at h
        obtain ⟨_, f, hcolon, h⟩ := ok_bind.mp h
        obtain ⟨w₁, hw₁, hm₃⟩ := skipColon_sound hcolon
        obtain ⟨val, g, hval, h⟩ := ok_bind.mp h
        obtain ⟨w₂, t₂, x, hw₂, hx, hparsed⟩ := hvalue hval
        -- the three ways to go on are one, with the members the policy leaves
        have hloop : Ok (objectLoop value fuel false true
            (if (Assoc.find k obj).isSome then
              if e.duplicateKeys = .KeepLastDuplicate then Assoc.assign k val obj else obj
            else Assoc.assign k val obj)) g v c' := by
          split_ifs at h ⊢ <;> exact h
        obtain ⟨t, ms, obj', ht, hv, hrest⟩ := ih hloop
        have hmem : Members ((k, x) :: ms)
            (w ++ 0x22 :: (kt ++ 0x22 :: (w₁ ++ 0x3A :: (w₂ ++ (t₂ ++ t))))) :=
          Tail.members hw hkt hw₁ hw₂ hx ht
        refine ⟨w ++ 0x22 :: (kt ++ 0x22 :: (w₁ ++ 0x3A :: (w₂ ++ (t₂ ++ t)))), (k, x) :: ms, obj',
          ?_, hv, ?_⟩
        · cases expect with
          | true => exact hmem
          | false =>
            cases any with
            | true => simp at hflags
            | false => exact Or.inr hmem
        · have hadd := addMember_eq (v := val) hdup
          rw [← hm₃.duplicateKeys] at hadd hrest
          have := ((hrest.cons hparsed hadd).cons_bytes hm₃).cons_bytes (hm.trans hm₂)
          simpa using this
      · simp only [hclose, hcomma, hquote, if_false] at h
        rw [ok_bind_position] at h
        exact absurd h not_ok_fail

/-- It reads members that fit, up to their brace. -/
theorem objectLoop_complete {value : DomM Pjson} {level : Nat} (hvalue : Complete lib level value)
    (fuel : Nat) (expect any : Bool) (obj : List (Bytes × Pjson)) {t out : Bytes}
    {ms : List (Bytes × Json)} {obj' : List (Bytes × Pjson)} (ht : Tail Members expect any ms t)
    (hr : c.rest = t ++ 0x7D :: out) (hfuel : t.length < fuel)
    (hlevel : ∀ m ∈ ms, m.2.depth < level) (hroom : c.Room (Json.nodesMembers ms))
    (hdeep : c.Deep (Json.depthMembers ms))
    (hden : Json.denoteMembers (c.convert lib) c.duplicateKeys obj ms = some obj') :
    ∃ c', Ok (objectLoop value fuel expect any obj) c (.jsonObject obj') c' ∧
      c.Moved (t ++ [0x7D]) (Json.nodesMembers ms) c' := by
  induction fuel generalizing c expect any obj t ms with
  | zero => omega
  | succ fuel ih =>
    -- the loop at a member
    have hmember : ∀ {t : Bytes}, Members ms t → (any && !expect) = false →
        c.rest = t ++ 0x7D :: out → t.length < fuel + 1 →
        ∃ c', Ok (objectLoop value (fuel + 1) expect any obj) c (.jsonObject obj') c' ∧
          c.Moved (t ++ [0x7D]) (Json.nodesMembers ms) c' := by
      intro t hmem hflags hr hfuel
      obtain ⟨k, kt, x, ns, w, w₁, w₂, s, r, rfl, rfl, hw, hkt, hw₁, hw₂, hx, htail⟩ := hmem.split
      obtain ⟨v, obj₁, hv, hadd, hns⟩ := Json.denoteMembers_cons_iff.mp hden
      have hr₁ : c.rest = w ++ (0x22 :: (kt ++ 0x22 ::
          (w₁ ++ 0x3A :: (w₂ ++ (s ++ (r ++ 0x7D :: out)))))) := by simpa using hr
      obtain ⟨d, hp, hm⟩ := peek_complete hw (head_not_ws (by decide)) hr₁
      have hr₂ := hm.rest_eq hr₁
      obtain ⟨e, hkey, hm₂⟩ := extractString_complete hkt hr₂
      have hr₃ : e.rest = w₁ ++ 0x3A :: (w₂ ++ (s ++ (r ++ 0x7D :: out))) :=
        hm₂.rest_eq (by simpa using hr₂)
      obtain ⟨f, hcolon, hm₃⟩ := skipColon_complete hw₁ hr₃
      have hr₄ : f.rest = w₂ ++ (s ++ (r ++ 0x7D :: out)) := hm₃.rest_eq (by simpa using hr₃)
      have hm₄ : c.Moved (w ++ (0x22 :: (kt ++ [0x22])) ++ (w₁ ++ [0x3A])) 0 f :=
        (hm.trans hm₂).trans hm₃
      have hends : EndsNumber (r ++ 0x7D :: out) := by
        rcases htail with ⟨-, hw'⟩ | ⟨w', r', hw', rfl, -⟩
        · exact endsNumber_ws hw' (by decide)
        · rw [List.append_assoc]
          exact endsNumber_ws hw' (by decide)
      have hroom₁ := (moved_room hm₄).mpr hroom
      obtain ⟨g, hval, hm₅⟩ := hvalue hw₂ hx hr₄ hends (hlevel _ (List.mem_cons_self ..))
        (by unfold ParseCtx.Room at hroom₁ ⊢; simp only [Json.nodesMembers] at hroom₁; omega)
        ((moved_deep hm₄).mpr (deep_max.mp hdeep).1)
        (by rw [moved_convert hm₄, hm₄.duplicateKeys]; exact hv)
      have hm₆ : c.Moved (w ++ (0x22 :: (kt ++ [0x22])) ++ (w₁ ++ [0x3A]) ++ (w₂ ++ s)) x.nodes g := by
        simpa using hm₄.trans hm₅
      have hr₅ : g.rest = r ++ 0x7D :: out := hm₅.rest_eq (by simpa using hr₄)
      -- the policy did not refuse the name, and leaves `obj₁`
      have hdup : ¬ ((Assoc.find k obj).isSome = true ∧
          c.duplicateKeys = .RejectDuplicateKeys) := by
        rintro ⟨h₁, h₂⟩
        rw [h₂, addMember_reject h₁] at hadd
        cases hadd
      have hobj₁ := (addMember_eq (v := v) hdup).symm.trans hadd
      rw [Option.some.injEq] at hobj₁
      obtain ⟨c', hloop, hm₇⟩ := ih false true obj₁ htail hr₅
        (by simp only [List.length_append, List.length_cons] at hfuel; omega)
        (fun m hm => hlevel m (List.mem_cons_of_mem _ hm))
        (hm₆.room_add.mp hroom).2 ((moved_deep hm₆).mpr (deep_max.mp hdeep).2)
        (by rw [moved_convert hm₆, hm₆.duplicateKeys]; exact hns)
      refine ⟨c', ?_, by simpa [Json.nodesMembers] using hm₆.trans hm₇⟩
      unfold objectLoop
      refine Ok.bind hp ?_
      simp only [List.head?_cons, show (0x22 : UInt8) ≠ 0x7D by decide,
        show (0x22 : UInt8) ≠ 0x2C by decide, if_false, if_true, hflags, Bool.false_eq_true]
      rw [ok_bind_position]
      refine Ok.bind hkey ?_
      rw [ok_bind_get, (hm.trans hm₂).duplicateKeys, if_neg hdup]
      refine Ok.bind hcolon (Ok.bind hval ?_)
      rw [← hobj₁] at hloop
      split_ifs at hloop ⊢ <;> exact hloop
    -- the loop at the closing brace
    have hend : ms = [] → Ws t → expect = false →
        ∃ c', Ok (objectLoop value (fuel + 1) expect any obj) c (.jsonObject obj') c' ∧
          c.Moved (t ++ [0x7D]) (Json.nodesMembers ms) c' := by
      rintro rfl hw rfl
      obtain ⟨d, hp, hm⟩ := peek_complete hw (head_not_ws (by decide)) hr
      obtain ⟨e, hm₂⟩ := exists_moved (t := [0x7D]) (hm.rest_eq hr)
      cases hden
      refine ⟨e, ?_, hm.trans hm₂⟩
      unfold objectLoop
      refine Ok.bind hp ?_
      simp only [List.head?_cons, if_true, Bool.false_eq_true, if_false]
      rw [ok_bind_next (hm.rest_eq hr)]
      exact ⟨e, hm₂, ok_pure.mpr ⟨rfl, rfl⟩⟩
    cases expect with
    | true => exact hmember ht (by simp) hr hfuel
    | false =>
      cases any with
      | false =>
        rcases ht with ⟨hnil, hw⟩ | hmem
        · exact hend hnil hw rfl
        · exact hmember hmem rfl hr hfuel
      | true =>
        rcases ht with ⟨hnil, hw⟩ | ⟨w, r, hw, rfl, hmem⟩
        · exact hend hnil hw rfl
        · -- the comma, and the loop behind it
          have hr₁ : c.rest = w ++ (0x2C :: (r ++ 0x7D :: out)) := by simpa using hr
          obtain ⟨d, hp, hm⟩ := peek_complete hw (head_not_ws (by decide)) hr₁
          have hr₂ := hm.rest_eq hr₁
          obtain ⟨e, hm₂⟩ := exists_moved (t := [0x2C]) hr₂
          have hm₃ : c.Moved (w ++ [0x2C]) 0 e := hm.trans hm₂
          obtain ⟨c', hloop, hm₄⟩ := ih true true obj hmem (hm₂.rest_eq hr₂)
            (by simp only [List.length_append, List.length_cons] at hfuel; omega)
            hlevel ((moved_room hm₃).mpr hroom) ((moved_deep hm₃).mpr hdeep)
            (by rw [moved_convert hm₃, hm₃.duplicateKeys]; exact hden)
          refine ⟨c', ?_, by simpa using hm₃.trans hm₄⟩
          unfold objectLoop
          refine Ok.bind hp ?_
          simp only [List.head?_cons, show (0x2C : UInt8) ≠ 0x7D by decide, if_false, if_true,
            Bool.not_true, Bool.or_self, Bool.false_eq_true]
          rw [ok_bind_next hr₂]
          exact ⟨e, hm₂, hloop⟩

/-! ## One level of nesting -/

/-- The context inside a container, behind its opening bracket. -/
def enter (c : ParseCtx) : ParseCtx :=
  { c with depth := c.depth + 1, nodeCount := c.nodeCount + 1, pos := c.pos + 1,
           rest := c.rest.tail }

/-- A container is entered if there is a level and a value left for it, and left again. -/
theorem ok_container {body : DomM Pjson} {b : UInt8} {out : Bytes} {v : Pjson}
    (hr : c.rest = b :: out) : Ok (container body) c v c' ↔
      c.depth < c.maxDepth ∧ c.Room 1 ∧ ∃ d, Ok body (enter c) v d ∧ c' = leave d := by
  unfold container
  rw [ok_bind_modify, ok_bind]
  simp only [ok_onError, ok_bind_get, ok_bind_modify, ok_pure]
  by_cases hdepth : c.depth + 1 > c.maxDepth
  · rw [if_pos hdepth]
    constructor
    · rintro ⟨_, _, h, -⟩
      exact absurd h not_ok_fail
    · rintro ⟨h, -⟩
      omega
  · rw [if_neg hdepth]
    constructor
    · rintro ⟨a, d, h, rfl, rfl⟩
      obtain ⟨_, e, hn, h⟩ := ok_bind.mp h
      obtain ⟨hroom, hm⟩ := ok_newNode.mp hn
      have hre : e.rest = b :: out := hm.rest_eq (by simpa using hr)
      rw [ok_bind_next hre] at h
      obtain ⟨f, hm₂, h⟩ := h
      have hrf : f.rest = out := hm₂.rest_eq hre
      have hf : f = enter c := by
        rw [(hm.trans hm₂).eq, hrf]
        simp [enter, hr]
      exact ⟨by omega, hroom, d, hf ▸ h, rfl⟩
    · rintro ⟨-, hroom, d, h, rfl⟩
      obtain ⟨e, hn, hm⟩ := newNode_ok (c := { c with depth := c.depth + 1 }) hroom
      have hre : e.rest = b :: out := hm.rest_eq (by simpa using hr)
      obtain ⟨f, hm₂⟩ := exists_moved (t := [b]) hre
      have hrf : f.rest = out := hm₂.rest_eq hre
      have hf : f = enter c := by
        rw [(hm.trans hm₂).eq, hrf]
        simp [enter, hr]
      refine ⟨v, d, Ok.bind hn ?_, rfl, rfl⟩
      rw [ok_bind_next hre]
      exact ⟨f, hm₂, hf ▸ h⟩

/-- Leaving undoes what entering did to the depth. -/
theorem moved_container {b : UInt8} {out t : Bytes} {k : Nat} {d : ParseCtx}
    (hr : c.rest = b :: out) (h : (enter c).Moved t k d) : c.Moved (b :: t) (1 + k) (leave d) := by
  have hrest := h.rest
  refine ⟨?_, ?_⟩
  · rw [hr]
    simp only [enter, hr, List.tail_cons] at hrest
    rw [hrest]
    rfl
  · rw [h.eq]
    simp [enter, leave, Nat.add_comm, Nat.add_left_comm]

/-- Entering a container takes one value from the budget. -/
theorem enter_room {k : Nat} (h₁ : c.Room 1) : (enter c).Room k ↔ c.Room (1 + k) := by
  unfold ParseCtx.Room enter at *
  dsimp only
  omega

/-- And one level from the nesting. -/
theorem enter_deep {n : Nat} (h : c.depth < c.maxDepth) :
    (enter c).Deep n ↔ c.Deep (1 + n) := by
  unfold ParseCtx.Deep enter
  dsimp only
  omega

/-- An array has been read. -/
theorem parseArray_sound {value : DomM Pjson} (hvalue : Sound lib value) {out : Bytes} {v : Pjson}
    (hr : c.rest = 0x5B :: out) (h : Ok (parseArray value) c v c') :
    ∃ t x, Value x t ∧ Parsed lib c t x v c' := by
  obtain ⟨hdepth, hroom, d, hbody, rfl⟩ := (ok_container hr).mp h
  rw [ok_bind_get] at hbody
  obtain ⟨t, xs, vs, ht, rfl, hp⟩ := arrayLoop_sound hvalue hbody
  refine ⟨_, .array xs, value_array_iff.mpr ⟨t, rfl, ht⟩, moved_container hr hp.moved,
    (enter_room hroom).mp hp.room, (enter_deep hdepth).mp hp.deep, ?_⟩
  rw [List.nil_append, Json.denote]
  exact Option.map_eq_some_iff.mpr ⟨vs, hp.denotes, rfl⟩

/-- An object has been read. -/
theorem parseObject_sound {value : DomM Pjson} (hvalue : Sound lib value) {out : Bytes} {v : Pjson}
    (hr : c.rest = 0x7B :: out) (h : Ok (parseObject value) c v c') :
    ∃ t x, Value x t ∧ Parsed lib c t x v c' := by
  obtain ⟨hdepth, hroom, d, hbody, rfl⟩ := (ok_container hr).mp h
  rw [ok_bind_get] at hbody
  obtain ⟨t, ms, obj, ht, rfl, hp⟩ := objectLoop_sound hvalue hbody
  refine ⟨_, .object ms, value_object_iff.mpr ⟨t, rfl, ht⟩, moved_container hr hp.moved,
    (enter_room hroom).mp hp.room, (enter_deep hdepth).mp hp.deep, ?_⟩
  rw [Json.denote]
  exact Option.map_eq_some_iff.mpr ⟨obj, hp.denotes, rfl⟩

/-- No element is nested deeper than all of them. -/
theorem depth_of_mem {xs : List Json} {x : Json} (h : x ∈ xs) :
    x.depth ≤ Json.depthElements xs := by
  induction xs with
  | nil => cases h
  | cons y ys ih =>
    rw [Json.depthElements]
    rcases List.mem_cons.mp h with rfl | h
    · exact le_max_left _ _
    · exact le_trans (ih h) (le_max_right _ _)

/-- Nor is a member. -/
theorem depth_of_mem_members {ms : List (Bytes × Json)} {m : Bytes × Json} (h : m ∈ ms) :
    m.2.depth ≤ Json.depthMembers ms := by
  induction ms with
  | nil => cases h
  | cons n ns ih =>
    rw [Json.depthMembers]
    rcases List.mem_cons.mp h with rfl | h
    · exact le_max_left _ _
    · exact le_trans (ih h) (le_max_right _ _)

/-- An array that fits is read. -/
theorem parseArray_complete {value : DomM Pjson} {level : Nat} (hvalue : Complete lib level value)
    {xs : List Json} {s out : Bytes} {v : Pjson} (ht : Tail Elements false false xs s)
    (hr : c.rest = 0x5B :: (s ++ 0x5D :: out)) (hlevel : (Json.array xs).depth < level + 1)
    (hroom : c.Room (Json.array xs).nodes) (hdeep : c.Deep (Json.array xs).depth)
    (hden : (Json.array xs).denote (c.convert lib) c.duplicateKeys = some v) :
    ∃ c', Ok (parseArray value) c v c' ∧ c.Moved (0x5B :: (s ++ [0x5D])) (Json.array xs).nodes c' := by
  rw [Json.denote] at hden
  obtain ⟨vs, hvs, rfl⟩ := Option.map_eq_some_iff.mp hden
  rw [Json.depth] at hlevel hdeep
  rw [Json.nodes] at hroom ⊢
  have hdepth : c.depth < c.maxDepth := by unfold ParseCtx.Deep at hdeep; omega
  have hroom₁ : c.Room 1 := by unfold ParseCtx.Room at hroom ⊢; omega
  have hr' : (enter c).rest = s ++ 0x5D :: out := by simp [enter, hr]
  obtain ⟨d, hloop, hm⟩ := arrayLoop_complete hvalue ((enter c).rest.length + 1) false false [] ht
    hr' (by rw [hr', List.length_append]; omega)
    (fun x hx => by have := depth_of_mem hx; omega) ((enter_room hroom₁).mpr hroom)
    ((enter_deep hdepth).mpr hdeep) hvs
  refine ⟨leave d, (ok_container hr).mpr ⟨hdepth, hroom₁, d, ?_, rfl⟩, moved_container hr hm⟩
  rw [ok_bind_get]
  simpa using hloop

/-- An object that fits is read. -/
theorem parseObject_complete {value : DomM Pjson} {level : Nat} (hvalue : Complete lib level value)
    {ms : List (Bytes × Json)} {s out : Bytes} {v : Pjson} (ht : Tail Members false false ms s)
    (hr : c.rest = 0x7B :: (s ++ 0x7D :: out)) (hlevel : (Json.object ms).depth < level + 1)
    (hroom : c.Room (Json.object ms).nodes) (hdeep : c.Deep (Json.object ms).depth)
    (hden : (Json.object ms).denote (c.convert lib) c.duplicateKeys = some v) :
    ∃ c', Ok (parseObject value) c v c' ∧
      c.Moved (0x7B :: (s ++ [0x7D])) (Json.object ms).nodes c' := by
  rw [Json.denote] at hden
  obtain ⟨obj, hobj, rfl⟩ := Option.map_eq_some_iff.mp hden
  rw [Json.depth] at hlevel hdeep
  rw [Json.nodes] at hroom ⊢
  have hdepth : c.depth < c.maxDepth := by unfold ParseCtx.Deep at hdeep; omega
  have hroom₁ : c.Room 1 := by unfold ParseCtx.Room at hroom ⊢; omega
  have hr' : (enter c).rest = s ++ 0x7D :: out := by simp [enter, hr]
  obtain ⟨d, hloop, hm⟩ := objectLoop_complete hvalue ((enter c).rest.length + 1) false false [] ht
    hr' (by rw [hr', List.length_append]; omega)
    (fun m hm => by have := depth_of_mem_members hm; omega) ((enter_room hroom₁).mpr hroom)
    ((enter_deep hdepth).mpr hdeep) hobj
  refine ⟨leave d, (ok_container hr).mpr ⟨hdepth, hroom₁, d, ?_, rfl⟩, moved_container hr hm⟩
  rw [ok_bind_get]
  exact hloop

/-! ## Values -/

/-- White space in front of a value. -/
theorem parsed_ws {d : ParseCtx} {w t : Bytes} {x : Json} {v : Pjson} (h : c.Moved w 0 d)
    (h' : Parsed lib d t x v c') : Parsed lib c (w ++ t) x v c' where
  moved := by simpa using h.trans h'.moved
  room := (moved_room h).mp h'.room
  deep := (moved_deep h).mp h'.deep
  denotes := by rw [← moved_convert h, ← h.duplicateKeys]; exact h'.denotes

/-- A string has been read as a value. -/
theorem parseString_sound {v : Pjson} (h : Ok parseString c v c') :
    ∃ t x, Value x t ∧ Parsed lib c t x v c' := by
  obtain ⟨s, d, hs, h⟩ := ok_bind.mp h
  obtain ⟨t, hb, hm⟩ := extractString_sound hs
  obtain ⟨_, e, hn, h⟩ := ok_bind.mp h
  obtain ⟨hroom, hm₂⟩ := ok_newNode.mp hn
  rw [ok_pure] at h
  rw [h.1, h.2]
  exact ⟨_, .string s, Value.string hb, by simpa [Json.nodes] using hm.trans hm₂,
    (moved_room hm).mp hroom, deep_zero, rfl⟩

/-- A keyword has been read as a value. -/
theorem parseKeyword_sound {v : Pjson} (h : Ok parseKeyword c v c') :
    ∃ t x, Value x t ∧ Parsed lib c t x v c' := by
  obtain ⟨word, hmem, hm, hroom⟩ := parseKeywordFrom_sound h
  simp only [keywords, List.mem_cons, List.not_mem_nil, or_false, Prod.mk.injEq] at hmem
  rcases hmem with ⟨rfl, rfl⟩ | ⟨rfl, rfl⟩ | ⟨rfl, rfl⟩
  · exact ⟨_, .null, Value.null, hm, hroom, deep_zero, rfl⟩
  · exact ⟨_, .bool true, Value.true, hm, hroom, deep_zero, rfl⟩
  · exact ⟨_, .bool false, Value.false, hm, hroom, deep_zero, rfl⟩

/-- Every keyword is found at its own entry of the table: their first bytes differ. -/
theorem parseKeyword_complete {word out : Bytes} {v : Pjson} (hmem : (word, v) ∈ keywords)
    (hr : c.rest = word ++ out) (hroom : c.Room 1) :
    ∃ c', Ok parseKeyword c v c' ∧ c.Moved word 1 c' := by
  refine parseKeywordFrom_complete hmem hr (fun kw hkw hp => ?_) hroom
  obtain ⟨r, hr'⟩ := hp
  rw [hr] at hr'
  have hhead := congrArg List.head? hr'
  simp only [keywords, List.mem_cons, List.not_mem_nil, or_false, Prod.mk.injEq] at hmem hkw
  rcases hmem with ⟨rfl, rfl⟩ | ⟨rfl, rfl⟩ | ⟨rfl, rfl⟩ <;> rcases hkw with rfl | rfl | rfl <;>
    first | rfl | (revert hhead; simp [nullText, trueText, falseText])

/-- **Soundness** of `parseValue`, by induction on the levels of nesting. -/
theorem parseValue_sound (level : Nat) : Sound lib (parseValue lib level) := by
  induction level with
  | zero =>
    intro c v c' h
    exact absurd h not_ok_throw
  | succ level ih =>
    intro c v c' h
    unfold parseValue at h
    obtain ⟨o, d, hp, h⟩ := ok_bind.mp h
    obtain ⟨w, hw, hm, ho⟩ := peek_sound hp
    -- whatever value stands behind the white space
    suffices hval : ∃ t x, Value x t ∧ Parsed lib d t x v c' by
      obtain ⟨t, x, hx, hparsed⟩ := hval
      exact ⟨w, t, x, hw, hx, parsed_ws hm hparsed⟩
    cases hr : d.rest with
    | nil =>
      rw [ho, hr, List.head?_nil, ok_bind_position] at h
      exact absurd h not_ok_fail
    | cons ch out =>
      rw [ho, hr, List.head?_cons] at h
      simp only at h
      split_ifs at h with h₁ h₂ h₃ h₄
      · exact parseString_sound h
      · exact parseObject_sound ih (h₂ ▸ hr) h
      · exact parseArray_sound ih (h₃ ▸ hr) h
      · obtain ⟨t, n, hconv, rfl, hm₂, hroom⟩ := parseNumber_sound h
        refine ⟨t.text, .number t, Value.number t, hm₂, hroom, deep_zero, ?_⟩
        rw [Json.denote]
        exact Option.map_eq_some_iff.mpr ⟨n, hconv, rfl⟩
      · exact parseKeyword_sound h

/-- **Completeness** of `parseValue`, by induction on the levels of nesting. -/
theorem parseValue_complete (level : Nat) : Complete lib level (parseValue lib level) := by
  induction level with
  | zero =>
    intro c w t x v out _ _ _ _ hlevel
    omega
  | succ level ih =>
    intro c w t x v out hw hx hr hends hlevel hroom hdeep hden
    obtain ⟨b, q, ht, hb⟩ := hx.start
    obtain ⟨d, hp, hm⟩ := peek_complete hw
      (by rw [ht, List.cons_append]; exact head_not_ws (valueStart_ne hb).1) hr
    have hr' := hm.rest_eq hr
    have hroom' := (moved_room hm).mpr hroom
    have hdeep' := (moved_deep hm).mpr hdeep
    rw [← moved_convert hm, ← hm.duplicateKeys] at hden
    -- the dispatch on the first byte picks the parser of the production
    suffices hval : ∃ c', Ok (if b = 0x22 then parseString
          else if b = 0x7B then parseObject (parseValue lib level)
          else if b = 0x5B then parseArray (parseValue lib level)
          else if b = 0x2D ∨ (0x30 ≤ b ∧ b ≤ 0x39) then parseNumber lib
          else parseKeyword) d v c' ∧ d.Moved t x.nodes c' by
      obtain ⟨c', hok, hm₂⟩ := hval
      refine ⟨c', ?_, by simpa using hm.trans hm₂⟩
      unfold parseValue
      refine Ok.bind hp ?_
      rw [ht]
      exact hok
    have hkeyword : ∀ {word : Bytes} {v : Pjson}, (word, v) ∈ keywords → t = word → x.nodes = 1 →
        ∃ c', Ok parseKeyword d v c' ∧ d.Moved t x.nodes c' := by
      rintro word v hmem rfl hn
      rw [hn] at hroom' ⊢
      exact parseKeyword_complete hmem hr' hroom'
    cases hx with
    | null =>
      cases ht
      cases hden
      exact hkeyword (by simp [keywords]) rfl rfl
    | true =>
      cases ht
      cases hden
      exact hkeyword (by simp [keywords]) rfl rfl
    | false =>
      cases ht
      cases hden
      exact hkeyword (by simp [keywords]) rfl rfl
    | string hs =>
      cases ht
      cases hden
      rw [if_pos rfl]
      obtain ⟨e, hext, hm₂⟩ := extractString_complete hs (by simpa using hr')
      obtain ⟨f, hn, hm₃⟩ := newNode_ok ((moved_room hm₂).mpr hroom')
      exact ⟨f, Ok.bind hext (Ok.bind hn (ok_pure.mpr ⟨rfl, rfl⟩)),
        by simpa [Json.nodes] using hm₂.trans hm₃⟩
    | number t =>
      rw [Json.denote] at hden
      obtain ⟨n, hn, rfl⟩ := Option.map_eq_some_iff.mp hden
      obtain ⟨b', r', hb', hstart⟩ := t.text_start
      rw [ht] at hb'
      cases hb'
      have hdig : b = 0x2D ∨ (0x30 ≤ b ∧ b ≤ 0x39) := hstart
      have hne : b ≠ 0x22 ∧ b ≠ 0x7B ∧ b ≠ 0x5B := numberStart_ne hdig
      rw [if_neg hne.1, if_neg hne.2.1, if_neg hne.2.2, if_pos hdig]
      exact parseNumber_complete hn hr' hends hroom'
    | emptyArray hws =>
      cases ht
      exact parseArray_complete ih (Or.inl ⟨rfl, hws⟩) (by simpa using hr') hlevel hroom' hdeep' hden
    | array hels =>
      cases ht
      exact parseArray_complete ih (Or.inr hels) (by simpa using hr') hlevel hroom' hdeep' hden
    | emptyObject hws =>
      cases ht
      exact parseObject_complete ih (Or.inl ⟨rfl, hws⟩) (by simpa using hr') hlevel hroom' hdeep' hden
    | object hmem =>
      cases ht
      exact parseObject_complete ih (Or.inr hmem) (by simpa using hr') hlevel hroom' hdeep' hden

end Dom

/-! ## Documents -/

/-- The limits of the options on a text and its tree. -/
structure ParserOptions.Admits (opts : ParserOptions) (x : Json) (src : Bytes) : Prop where
  bytes : opts.maxInputBytes = 0 ∨ src.length ≤ opts.maxInputBytes
  depth : x.depth ≤ (max 1 (min opts.maxDepth 1024)).toNat
  nodes : opts.maxNodes = 0 ∨ x.nodes ≤ opts.maxNodes

/-- A whole document: one value, and nothing but white space behind it. -/
theorem Dom.document_iff {lib : NumericLibrary} {opts : ParserOptions} {src : Bytes} {v : Pjson} :
    (∃ c c', Ok (Dom.parseValue lib ((Dom.initial opts src).maxDepth + 1)) (Dom.initial opts src) v c ∧
      Ok Dom.peek c none c') ↔
      ∃ x, JsonText x src ∧ x.depth ≤ (max 1 (min opts.maxDepth 1024)).toNat ∧
        (opts.maxNodes = 0 ∨ x.nodes ≤ opts.maxNodes) ∧
        x.denote (fun t => t.convert lib opts.numberPolicy) opts.duplicateKeys = some v := by
  have hroom : ∀ x : Json, (Dom.initial opts src).Room x.nodes ↔
      (opts.maxNodes = 0 ∨ x.nodes ≤ opts.maxNodes) := by
    intro x
    have hpos : 0 < x.nodes := by cases x <;> simp only [Json.nodes] <;> omega
    unfold ParseCtx.Room Dom.initial
    dsimp only
    omega
  have hdeep : ∀ n : Nat, (Dom.initial opts src).Deep n ↔
      n ≤ (max 1 (min opts.maxDepth 1024)).toNat := by
    intro n
    unfold ParseCtx.Deep Dom.initial
    dsimp only
    rw [clampParseDepth_eq]
    omega
  constructor
  · rintro ⟨c, c', hval, hpeek⟩
    -- What is read is a value with its white space, and the rest is white space.
    obtain ⟨w, t, x, hw, hx, hp⟩ := Dom.parseValue_sound _ hval
    obtain ⟨w', hw', hm, hnone⟩ := Dom.peek_sound hpeek
    have hnil : c'.rest = [] := List.head?_eq_none_iff.mp hnone.symm
    have hsrc : src = (w ++ t) ++ c.rest := hp.moved.rest
    rw [hm.rest, hnil] at hsrc
    exact ⟨x, ⟨w, t, w', hw, hx, hw', by simpa using hsrc⟩, (hdeep _).mp hp.deep,
      (hroom x).mp hp.room, hp.denotes⟩
  · rintro ⟨x, ⟨w, t, w', hw, hx, hw', hsrc⟩, hd, hn, hden⟩
    have hr : (Dom.initial opts src).rest = w ++ (t ++ w') := hsrc
    -- The fuel is one more than the depth limit, which the document respects.
    obtain ⟨c, hval, hm⟩ := Dom.parseValue_complete _ hw hx hr (endsNumber_ws_end hw')
      (Nat.lt_succ_of_le (by
        show x.depth ≤ clampParseDepth opts.maxDepth
        rw [clampParseDepth_eq]
        exact hd))
      ((hroom x).mpr hn) ((hdeep _).mpr hd) hden
    have hr' : c.rest = w' ++ [] := by
      rw [List.append_nil]
      exact hm.rest_eq (by simpa using hr)
    obtain ⟨c', hpeek, -⟩ := Dom.peek_complete hw' (by simp) hr'
    exact ⟨c, c', hval, hpeek⟩

/-- **The DOM parser's language**: it succeeds with `v` exactly on the JSON texts within the limits
    whose meaning, under the conversion the source implements, is `v`. -/
theorem parse_ok_iff (lib : NumericLibrary) (opts : ParserOptions) (src : Bytes) (v : Pjson) :
    ((parse lib opts src).2.ok = true ∧ (parse lib opts src).1 = v) ↔
      ∃ x, JsonText x src ∧ opts.Admits x src ∧
        x.denote (fun t => t.convert lib opts.numberPolicy) opts.duplicateKeys = some v := by
  unfold parse Dom.parseTop
  by_cases hsize : opts.maxInputBytes ≠ 0 ∧ src.length > opts.maxInputBytes
  · rw [if_pos hsize]
    constructor
    · rintro ⟨h, -⟩
      cases h
    · rintro ⟨x, -, hadm, -⟩
      have := hadm.bytes
      omega
  rw [if_neg hsize]
  -- success is a value and then no further byte
  have hdoc : (∃ x, JsonText x src ∧ opts.Admits x src ∧
      x.denote (fun t => t.convert lib opts.numberPolicy) opts.duplicateKeys = some v) ↔
      ∃ c c', Ok (Dom.parseValue lib ((Dom.initial opts src).maxDepth + 1)) (Dom.initial opts src) v c ∧
        Ok Dom.peek c none c' := by
    rw [Dom.document_iff]
    constructor
    · rintro ⟨x, hx, ⟨-, hd, hn⟩, hden⟩
      exact ⟨x, hx, hd, hn, hden⟩
    · rintro ⟨x, hx, hd, hn, hden⟩
      exact ⟨x, hx, ⟨by omega, hd, hn⟩, hden⟩
  rw [hdoc]
  dsimp only
  cases hrun : (Dom.parseValue lib ((Dom.initial opts src).maxDepth + 1)).run
      (Dom.initial opts src) with
  | error e c =>
    constructor
    · rintro ⟨h, -⟩
      cases h
    · rintro ⟨c', c'', h, -⟩
      unfold Ok at h
      rw [hrun] at h
      cases h
  | ok v' c =>
    dsimp only
    obtain ⟨o, c', hpeek⟩ : ∃ o c', Dom.peek.run c = .ok o c' := ⟨_, _, rfl⟩
    rw [hpeek]
    cases o with
    | some b =>
      constructor
      · rintro ⟨h, -⟩
        cases h
      · rintro ⟨d, d', h, h'⟩
        unfold Ok at h h'
        rw [hrun] at h
        cases h
        rw [hpeek] at h'
        cases h'
    | none =>
      constructor
      · rintro ⟨-, rfl⟩
        exact ⟨c, c', hrun, hpeek⟩
      · rintro ⟨d, d', h, -⟩
        unfold Ok at h
        rw [hrun] at h
        cases h
        exact ⟨rfl, rfl⟩

end ByteDance
