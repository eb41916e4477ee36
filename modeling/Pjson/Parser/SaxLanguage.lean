/-
  The SAX parser accepts JSON and delivers its events: the recursive part.

  `Parsed lib p depth emit s t x s'` is what a successful parse of one value amounts to: from state `s`
  the parser moved over the bytes `t`, a spelling of the tree `x` that fits the budgets and has a
  meaning, and delivered the events of `x` if it was to emit.  As for the DOM parser the loops are sound
  and complete if the parser of their values is, and `parseValue` is by induction on the levels of
  nesting.

  `Sax.parseDocument_ok_iff` is the language of the parser, over any lawful cursor; it is the language of
  the DOM parser.
-/
import Pjson.Parser.SaxSpec
import Pjson.Parser.DomLanguage
import Pjson.Parser.Events

namespace ByteDance

open Run

variable {κ : Type} [SaxCursor κ] [LawfulSaxCursor κ]

namespace Sax

/-- The number conversion in force. -/
def convert (lib : NumericLibrary) (p : SaxParser) (t : NumberToken) : Option ParsedNumber :=
  t.convert lib p.opts.numberPolicy

/-- There is room at `depth` for `n` more levels of nesting. -/
def Deep (p : SaxParser) (depth n : Nat) : Prop :=
  n = 0 ∨ depth + n ≤ clampParseDepth p.opts.maxDepth

/-- A parse of the tree `x`, spelled `t`, at nesting depth `depth`. -/
structure Parsed (lib : NumericLibrary) (p : SaxParser) (depth : Nat) (emit : Bool) (s : SaxState κ)
    (t : Bytes) (x : Json) (s' : SaxState κ) : Prop where
  moved : s.Moved p t x.nodes (emitted emit (x.events (convert lib p) p.opts.duplicateKeys)) s'
  room : s.Room p x.nodes
  deep : Deep p depth x.depth
  denotes : ∃ v, x.denote (convert lib p) p.opts.duplicateKeys = some v

variable {lib : NumericLibrary} {p : SaxParser} {depth : Nat}

/-- A value parser returns only in front of the spelling of a value. -/
def Sound (lib : NumericLibrary) (p : SaxParser) (depth : Nat) (emit : Bool)
    (value : SaxM κ Unit) : Prop :=
  ∀ {s u s'}, s.Good → Ok value s u s' →
    ∃ w t x, Ws w ∧ Value x t ∧ Parsed lib p depth emit s (w ++ t) x s'

/-- A value parser returns in front of every value of less than `level` levels that has a meaning. -/
def Complete (lib : NumericLibrary) (p : SaxParser) (level depth : Nat) (emit : Bool)
    (value : SaxM κ Unit) : Prop :=
  ∀ {s w t x v out}, s.Ready p → Ws w → Value x t → s.rest = w ++ (t ++ out) → EndsNumber out →
    x.depth < level → s.Room p x.nodes → Deep p depth x.depth →
    x.denote (convert lib p) p.opts.duplicateKeys = some v →
    Does p value s (w ++ t) x.nodes (emitted emit (x.events (convert lib p) p.opts.duplicateKeys)) ()

variable {s s' : SaxState κ} {emit : Bool}

/-- Two documents may be nested here if the deeper of them may. -/
theorem deep_max {m n : Nat} : Deep p depth (max m n) ↔ Deep p depth m ∧ Deep p depth n := by
  unfold Deep
  omega

/-- What has no containers may stand anywhere. -/
theorem deep_zero : Deep p depth 0 := Or.inl rfl

/-- One level more, and one fewer left. -/
theorem deep_succ {n : Nat} (h : depth + 1 ≤ clampParseDepth p.opts.maxDepth) :
    Deep p depth (1 + n) ↔ Deep p (depth + 1) n := by
  unfold Deep
  omega

omit [SaxCursor κ] [LawfulSaxCursor κ] in
/-- There is room for nothing. -/
theorem room_zero : s.Room p 0 := Or.inl rfl

theorem emitted_nil (emit : Bool) : emitted emit [] = [] := by cases emit <;> rfl

/-! ## Arrays -/

/-- What a run of the element loop amounts to. -/
structure ParsedElements (lib : NumericLibrary) (p : SaxParser) (depth : Nat) (emit : Bool)
    (s : SaxState κ) (t : Bytes) (xs : List Json) (s' : SaxState κ) : Prop where
  moved : s.Moved p t (Json.nodesElements xs)
    (emitted emit (Json.eventsElements (convert lib p) p.opts.duplicateKeys xs)) s'
  room : s.Room p (Json.nodesElements xs)
  deep : Deep p depth (Json.depthElements xs)
  denotes : ∃ vs, Json.denoteElements (convert lib p) p.opts.duplicateKeys xs = some vs

/-- No elements, and nothing told. -/
theorem parsedElements_nil {t : Bytes} (h : s.Moved p t 0 [] s') :
    ParsedElements lib p depth emit s t [] s' := by
  refine ⟨?_, room_zero, deep_zero, [], rfl⟩
  rw [Json.eventsElements, emitted_nil]
  exact h

/-- White space or a comma in front changes nothing but the bytes. -/
theorem ParsedElements.cons_bytes {d : SaxState κ} {t t' : Bytes} {xs : List Json}
    (h : s.Moved p t 0 [] d) (h' : ParsedElements lib p depth emit d t' xs s') :
    ParsedElements lib p depth emit s (t ++ t') xs s' where
  moved := by simpa using h.trans h'.moved
  room := h.room.mp h'.room
  deep := h'.deep
  denotes := h'.denotes

/-- One element in front. -/
theorem ParsedElements.cons {d : SaxState κ} {t t' : Bytes} {x : Json} {xs : List Json}
    (h : Parsed lib p depth emit s t x d) (h' : ParsedElements lib p depth emit d t' xs s') :
    ParsedElements lib p depth emit s (t ++ t') (x :: xs) s' where
  moved := by
    rw [Json.eventsElements, ← emitted_append]
    exact h.moved.trans h'.moved
  room := h.moved.room_add.mpr ⟨h.room, h'.room⟩
  deep := deep_max.mpr ⟨h.deep, h'.deep⟩
  denotes := by
    obtain ⟨v, hv⟩ := h.denotes
    obtain ⟨vs, hvs⟩ := h'.denotes
    exact ⟨v :: vs, Json.denoteElements_cons hv hvs⟩

/-- The loop has read elements up to the bracket, as the state it was in admits. -/
theorem arrayLoop_sound {value : SaxM κ Unit} (hvalue : Sound lib p depth emit value) {fuel : Nat}
    {expect any : Bool} {u : Unit} (hg : s.Good)
    (h : Ok (arrayLoop p value fuel expect any) s u s') :
    ∃ t xs, Tail Elements expect any xs t ∧ ParsedElements lib p depth emit s (t ++ [0x5D]) xs s' := by
  induction fuel generalizing s expect any with
  | zero => exact absurd h not_ok_throw
  | succ fuel ih =>
    unfold arrayLoop at h
    obtain ⟨_, d, hws, h⟩ := ok_bind.mp h
    obtain ⟨w, hw, hm⟩ := skipWhitespace_sound hg hws
    obtain ⟨o, e, hp, h⟩ := ok_bind.mp h
    obtain ⟨ho, hm₁⟩ := peekChar_sound (p := p) (hm.good hg) hp
    have hm : s.Moved p w 0 [] e := by simpa using hm.trans hm₁
    have hge := hm.good hg
    cases hr : e.rest with
    | nil =>
      rw [ho, hm₁.rest, List.nil_append, hr] at h
      exact absurd h not_ok_failAtEnd
    | cons ch out =>
      rw [ho, hm₁.rest, List.nil_append, hr, List.head?_cons] at h
      by_cases hclose : ch = 0x5D
      · -- the closing bracket ends the loop, unless a comma came last
        simp only [hclose, if_true] at h
        cases expect with
        | true => exact absurd h not_ok_fail
        | false =>
          have hm₂ := skipChar_sound hge (hclose ▸ hr) h
          refine ⟨w, [], ?_, parsedElements_nil (hm.trans hm₂)⟩
          cases any <;> exact Or.inl ⟨rfl, hw⟩
      by_cases hcomma : ch = 0x2C
      · -- a comma is only taken after an element
        simp only [hcomma, show (0x2C : UInt8) ≠ 0x5D by decide, if_false, if_true] at h
        by_cases hflags : (!any || expect) = true
        · rw [if_pos hflags] at h
          exact absurd h not_ok_fail
        · rw [if_neg hflags] at h
          obtain ⟨_, f, hc, h⟩ := ok_bind.mp h
          have hm₂ := skipChar_sound hge (hcomma ▸ hr) hc
          obtain ⟨t, xs, ht, hparsed⟩ := ih (hm₂.good hge) h
          obtain ⟨rfl, rfl⟩ : any = true ∧ expect = false := by
            cases any <;> cases expect <;> simp_all
          refine ⟨w ++ 0x2C :: t, xs, Or.inr ⟨w, t, hw, rfl, ht⟩, ?_⟩
          have := hparsed.cons_bytes (hm.trans hm₂)
          simpa using this
      simp only [hclose, hcomma, if_false] at h
      by_cases hflags : (any && !expect) = true
      · rw [if_pos hflags] at h
        exact absurd h not_ok_fail
      · -- an element, and the loop behind it
        rw [if_neg hflags] at h
        obtain ⟨_, f, helem, h⟩ := ok_bind.mp h
        obtain ⟨w₂, t₂, x, hw₂, hx, hparsed⟩ := hvalue hge helem
        obtain ⟨t, xs, ht, hrest⟩ := ih (hparsed.moved.good hge) h
        have hels : Elements (x :: xs) (w ++ w₂ ++ (t₂ ++ t)) :=
          Tail.elements (ws_append hw hw₂) hx ht
        refine ⟨w ++ w₂ ++ (t₂ ++ t), x :: xs, ?_, ?_⟩
        · cases expect with
          | true => exact hels
          | false =>
            cases any with
            | true => simp at hflags
            | false => exact Or.inr hels
        · have := (hrest.cons hparsed).cons_bytes hm
          simpa using this

/-- White space and the byte behind it, in front of a sequence. -/
theorem Does.look {β : Type} {f : Option UInt8 → SaxM κ β} {w t out : Bytes} {k : Nat}
    {es : List SaxEvent} {b : β} (hs : s.Ready p) (hw : Ws w)
    (hout : ∀ c, out.head? = some c → isWhitespace c = false) (hr : s.rest = w ++ out)
    (h : ∀ d, s.Moved p w 0 [] d → d.rest = out → Does p (f out.head?) d t k es b) :
    Does p (skipWhitespace p >>= fun _ => peekChar >>= f) s (w ++ t) k es b := by
  refine (skipWhitespace_does hs hw hout hr).read fun d hm => ?_
  have hd := hm.rest_eq hr
  refine (peekChar_does (hm.good hs.good)).read (u := t) fun e hm₂ => ?_
  rw [hd]
  exact h e (by simpa using hm.trans hm₂) (hm₂.rest_eq (t := []) hd)

/-- It reads elements that fit, up to their bracket. -/
theorem arrayLoop_does {value : SaxM κ Unit} {level : Nat}
    (hvalue : Complete lib p level depth emit value) (fuel : Nat) (expect any : Bool)
    {t out : Bytes} {xs : List Json} {vs : List Pjson} (hs : s.Ready p)
    (ht : Tail Elements expect any xs t) (hr : s.rest = t ++ 0x5D :: out)
    (hfuel : t.length < fuel) (hlevel : ∀ x ∈ xs, x.depth < level)
    (hroom : s.Room p (Json.nodesElements xs)) (hdeep : Deep p depth (Json.depthElements xs))
    (hden : Json.denoteElements (convert lib p) p.opts.duplicateKeys xs = some vs) :
    Does p (arrayLoop p value fuel expect any) s (t ++ [0x5D]) (Json.nodesElements xs)
      (emitted emit (Json.eventsElements (convert lib p) p.opts.duplicateKeys xs)) () := by
  induction fuel generalizing s expect any t xs vs with
  | zero => omega
  | succ fuel ih =>
    -- the loop at an element
    have helement : ∀ {t : Bytes}, Elements xs t → (any && !expect) = false →
        s.rest = t ++ 0x5D :: out → t.length < fuel + 1 →
        Does p (arrayLoop p value (fuel + 1) expect any) s (t ++ [0x5D]) (Json.nodesElements xs)
          (emitted emit (Json.eventsElements (convert lib p) p.opts.duplicateKeys xs)) () := by
      intro t hels hflags hr hfuel
      obtain ⟨x, ys, w, b, r, rfl, rfl, hw, hx, htail⟩ := hels.split
      obtain ⟨v, vs', rfl, hv, hvs⟩ := Json.denoteElements_cons_iff.mp hden
      obtain ⟨c, q, hb, hc⟩ := hx.start
      obtain ⟨hws, hcomma, hclose, -⟩ := valueStart_ne hc
      have hr₁ : s.rest = w ++ (b ++ (r ++ 0x5D :: out)) := by simpa using hr
      -- what follows the element cannot extend a number
      have hends : EndsNumber (r ++ 0x5D :: out) := by
        rcases htail with ⟨-, hw'⟩ | ⟨w', r', hw', rfl, -⟩
        · exact endsNumber_ws hw' (by decide)
        · rw [List.append_assoc]
          exact endsNumber_ws hw' (by decide)
      have hlen : 0 < b.length := by rw [hb]; simp
      rw [List.append_assoc, List.append_assoc]
      unfold arrayLoop
      refine Does.look hs hw (by rw [hb, List.cons_append]; exact head_not_ws hws) hr₁
        fun d hm hd => ?_
      simp only [hb, List.cons_append, List.head?_cons, hclose, hcomma, if_false, hflags,
        Bool.false_eq_true]
      rw [← List.cons_append, ← hb, Json.eventsElements, ← emitted_append]
      have hroom' := hm.room.mpr hroom
      have hval := hvalue (hm.ready hs) ws_nil hx hd hends (hlevel x (List.mem_cons_self ..))
        (by unfold SaxState.Room at hroom' ⊢; simp only [Json.nodesElements] at hroom'; omega)
        (deep_max.mp hdeep).1 hv
      refine hval.bind fun e hm₂ => ?_
      exact ih false true (hm₂.ready (hm.ready hs)) htail (hm₂.rest_eq hd)
        (by simp only [List.length_append] at hfuel; omega)
        (fun y hy => hlevel y (List.mem_cons_of_mem _ hy)) (hm₂.room_add.mp hroom').2
        (deep_max.mp hdeep).2 hvs
    -- the loop at the closing bracket
    have hend : xs = [] → Ws t → expect = false →
        Does p (arrayLoop p value (fuel + 1) expect any) s (t ++ [0x5D]) (Json.nodesElements xs)
          (emitted emit (Json.eventsElements (convert lib p) p.opts.duplicateKeys xs)) () := by
      rintro rfl hw rfl
      rw [Json.eventsElements, emitted_nil]
      unfold arrayLoop
      refine Does.look hs hw (head_not_ws (by decide)) hr fun d hm hd => ?_
      simp only [List.head?_cons, if_true, Bool.false_eq_true, if_false]
      exact skipChar_does (hm.ready hs) hd
    cases expect with
    | true => exact helement ht (by simp) hr hfuel
    | false =>
      cases any with
      | false =>
        rcases ht with ⟨hnil, hw⟩ | hels
        · exact hend hnil hw rfl
        · exact helement hels rfl hr hfuel
      | true =>
        rcases ht with ⟨hnil, hw⟩ | ⟨w, r, hw, rfl, hels⟩
        · exact hend hnil hw rfl
        · -- the comma, and the loop behind it
          have hr₁ : s.rest = w ++ (0x2C :: (r ++ 0x5D :: out)) := by simpa using hr
          rw [List.append_assoc]
          unfold arrayLoop
          refine Does.look hs hw (head_not_ws (by decide)) hr₁ fun d hm hd => ?_
          simp only [List.head?_cons, show (0x2C : UInt8) ≠ 0x5D by decide, if_false, if_true,
            Bool.not_true, Bool.or_self, Bool.false_eq_true]
          refine (skipChar_does (hm.ready hs) hd).read fun e hm₂ => ?_
          exact ih true true (hm₂.ready (hm.ready hs)) hels (hm₂.rest_eq (t := [0x2C]) hd)
            (by simp only [List.length_append, List.length_cons] at hfuel; omega) hlevel
            (hm₂.room.mpr (hm.room.mpr hroom)) hdeep hden

/-! ## Objects -/

/-- The names seen so far are those of the members so far, where the policy looks at them. -/
def Seen (p : SaxParser) (seenKeys : List Bytes) (obj : List (Bytes × Pjson)) : Prop :=
  p.opts.duplicateKeys ≠ .KeepLastDuplicate → ∀ k, k ∈ seenKeys ↔ k ∈ Assoc.keys obj

/-- What a run of the member loop amounts to, after the members `obj`. -/
structure ParsedMembers (lib : NumericLibrary) (p : SaxParser) (depth : Nat) (emit : Bool)
    (s : SaxState κ) (t : Bytes) (seenKeys : List Bytes) (ms : List (Bytes × Json))
    (obj : List (Bytes × Pjson)) (s' : SaxState κ) : Prop where
  moved : s.Moved p t (Json.nodesMembers ms)
    (emitted emit (Json.eventsMembers (convert lib p) p.opts.duplicateKeys seenKeys ms)) s'
  room : s.Room p (Json.nodesMembers ms)
  deep : Deep p depth (Json.depthMembers ms)
  denotes : ∃ obj', Json.denoteMembers (convert lib p) p.opts.duplicateKeys obj ms = some obj'

/-- No members, and nothing told. -/
theorem parsedMembers_nil {t : Bytes} {seenKeys : List Bytes} {obj : List (Bytes × Pjson)}
    (h : s.Moved p t 0 [] s') : ParsedMembers lib p depth emit s t seenKeys [] obj s' := by
  refine ⟨?_, room_zero, deep_zero, obj, rfl⟩
  rw [Json.eventsMembers, emitted_nil]
  exact h

/-- White space, a comma or a name in front changes nothing but the bytes. -/
theorem ParsedMembers.cons_bytes {d : SaxState κ} {t t' : Bytes} {seenKeys : List Bytes}
    {ms : List (Bytes × Json)} {obj : List (Bytes × Pjson)} (h : s.Moved p t 0 [] d)
    (h' : ParsedMembers lib p depth emit d t' seenKeys ms obj s') :
    ParsedMembers lib p depth emit s (t ++ t') seenKeys ms obj s' where
  moved := by simpa using h.trans h'.moved
  room := h.room.mp h'.room
  deep := h'.deep
  denotes := h'.denotes

omit [SaxCursor κ] [LawfulSaxCursor κ] in
/-- The test of the source for a repeated name is membership among the names so far. -/
theorem checkKey_sound {k : Bytes} {seenKeys : List Bytes} {offset line column : Nat} {b : Bool}
    (h : Ok (checkKey p k seenKeys offset line column) s b s') :
    s' = s ∧ b = decide (p.opts.duplicateKeys ≠ .KeepLastDuplicate ∧ k ∈ seenKeys) ∧
      ¬ (b = true ∧ p.opts.duplicateKeys = .RejectDuplicateKeys) := by
  unfold checkKey at h
  dsimp only at h
  split at h
  · obtain ⟨_, _, -, h⟩ := ok_bind.mp h
    exact absurd h not_ok_throw
  · rename_i hdup
    obtain ⟨rfl, rfl⟩ := ok_pure.mp h
    exact ⟨rfl, rfl, hdup⟩

/-- A name is dropped if it has been seen, unless the last one counts. -/
theorem checkKey_does {k : Bytes} {seenKeys : List Bytes} (offset line column : Nat)
    (h : ¬ (k ∈ seenKeys ∧ p.opts.duplicateKeys = .RejectDuplicateKeys)) :
    Does p (checkKey p k seenKeys offset line column) s [] 0 []
      (decide (p.opts.duplicateKeys ≠ .KeepLastDuplicate ∧ k ∈ seenKeys)) := by
  unfold checkKey
  dsimp only
  rw [if_neg (by rintro ⟨h₁, h₂⟩; exact h ⟨(of_decide_eq_true h₁).2, h₂⟩)]
  exact Does.pure s _

/-- The names seen after a member, as the source updates them. -/
def seenAfter (p : SaxParser) (k : Bytes) (seenKeys : List Bytes) : List Bytes :=
  if !decide (p.opts.duplicateKeys ≠ .KeepLastDuplicate ∧ k ∈ seenKeys) &&
      decide (p.opts.duplicateKeys ≠ .KeepLastDuplicate) then k :: seenKeys
  else seenKeys

/-- The names stay those of the members. -/
theorem Seen.add {k : Bytes} {v : Pjson} {seenKeys : List Bytes} {obj obj₁ : List (Bytes × Pjson)}
    (h : Seen p seenKeys obj) (hadd : Json.addMember p.opts.duplicateKeys k v obj = some obj₁) :
    Seen p (seenAfter p k seenKeys) obj₁ := by
  intro hp k'
  rw [Json.mem_keys_addMember hadd, ← h hp k', seenAfter]
  by_cases hk : k ∈ seenKeys
  · rw [if_neg (by simp [hk, hp])]
    constructor
    · exact Or.inr
    · rintro (rfl | hk')
      · exact hk
      · exact hk'
  · rw [if_pos (by simp [hk, hp]), List.mem_cons]

/-- How the names are updated makes no difference to the events. -/
theorem eventsMembers_seenAfter (k : Bytes) (seenKeys : List Bytes) (ms : List (Bytes × Json)) :
    Json.eventsMembers (convert lib p) p.opts.duplicateKeys (k :: seenKeys) ms =
      Json.eventsMembers (convert lib p) p.opts.duplicateKeys (seenAfter p k seenKeys) ms := by
  apply Json.eventsMembers_congr
  intro hp k'
  unfold seenAfter
  by_cases hk : k ∈ seenKeys
  · rw [if_neg (by simp [hk, hp]), List.mem_cons]
    constructor
    · rintro (rfl | hk')
      · exact hk
      · exact hk'
    · exact Or.inr
  · rw [if_pos (by simp [hk, hp])]

/-- The flag under which the value of `k` is told to the handler. -/
def emitMember (p : SaxParser) (k : Bytes) (seenKeys : List Bytes) (emit : Bool) : Bool :=
  emit && !(decide (p.opts.duplicateKeys ≠ .KeepLastDuplicate ∧ k ∈ seenKeys) &&
    decide (p.opts.duplicateKeys = .KeepFirstDuplicate))

/-- The events of a member: its name and its value, or nothing. -/
theorem emitted_member (k : Bytes) (seenKeys : List Bytes) (emit : Bool) (es : List SaxEvent) :
    emitted (emitMember p k seenKeys emit) [.onKey k] ++ emitted (emitMember p k seenKeys emit) es =
      emitted emit (if p.opts.duplicateKeys = .KeepFirstDuplicate ∧ k ∈ seenKeys then []
        else .onKey k :: es) := by
  rw [emitted_append]
  unfold emitMember
  by_cases hdup : p.opts.duplicateKeys = .KeepFirstDuplicate ∧ k ∈ seenKeys
  · rw [if_pos hdup, emitted_nil]
    simp [hdup, emitted]
  · rw [if_neg hdup]
    have hflag : (decide (p.opts.duplicateKeys ≠ .KeepLastDuplicate ∧ k ∈ seenKeys) &&
        decide (p.opts.duplicateKeys = .KeepFirstDuplicate)) = false := by
      rw [Bool.and_eq_false_iff, decide_eq_false_iff_not, decide_eq_false_iff_not]
      tauto
    rw [hflag, Bool.not_false, Bool.and_true]
    rfl

/-- One member in front. -/
theorem ParsedMembers.cons {d e : SaxState κ} {t t' k : Bytes} {x : Json} {v : Pjson}
    {ms : List (Bytes × Json)} {seenKeys : List Bytes} {obj obj₁ : List (Bytes × Pjson)}
    (hname : s.Moved p [] 0 (emitted (emitMember p k seenKeys emit) [.onKey k]) d)
    (h : Parsed lib p depth (emitMember p k seenKeys emit) d t x e)
    (hv : x.denote (convert lib p) p.opts.duplicateKeys = some v)
    (hadd : Json.addMember p.opts.duplicateKeys k v obj = some obj₁)
    (h' : ParsedMembers lib p depth emit e t' (seenAfter p k seenKeys) ms obj₁ s') :
    ParsedMembers lib p depth emit s (t ++ t') seenKeys ((k, x) :: ms) obj s' := by
  obtain ⟨obj', hobj'⟩ := h'.denotes
  refine ⟨?_, ?_, deep_max.mpr ⟨h.deep, h'.deep⟩, obj', ?_⟩
  · rw [Json.eventsMembers, ← emitted_append, ← emitted_member, eventsMembers_seenAfter]
    have := (hname.trans h.moved).trans h'.moved
    simpa [Json.nodesMembers] using this
  · exact hname.room.mp (h.moved.room_add.mpr ⟨h.room, h'.room⟩)
  · exact Json.denoteMembers_cons_iff.mpr ⟨v, _, hv, hadd, hobj'⟩

/-- The loop has read members up to the brace, and told those the policy lets through. -/
theorem objectLoop_sound {value : Bool → SaxM κ Unit}
    (hvalue : ∀ emit, Sound lib p depth emit (value emit)) {fuel : Nat} {expect any : Bool}
    {seenKeys : List Bytes} {obj : List (Bytes × Pjson)} {u : Unit} (hg : s.Good)
    (hseen : Seen p seenKeys obj) (h : Ok (objectLoop p value emit fuel expect any seenKeys) s u s') :
    ∃ t ms, Tail Members expect any ms t ∧
      ParsedMembers lib p depth emit s (t ++ [0x7D]) seenKeys ms obj s' := by
  induction fuel generalizing s expect any seenKeys obj with
  | zero => exact absurd h not_ok_throw
  | succ fuel ih =>
    unfold objectLoop at h
    obtain ⟨_, d, hws, h⟩ := ok_bind.mp h
    obtain ⟨w, hw, hm⟩ := skipWhitespace_sound hg hws
    obtain ⟨o, e, hp, h⟩ := ok_bind.mp h
    obtain ⟨ho, hm₁⟩ := peekChar_sound (p := p) (hm.good hg) hp
    have hm : s.Moved p w 0 [] e := by simpa using hm.trans hm₁
    have hge := hm.good hg
    cases hr : e.rest with
    | nil =>
      rw [ho, hm₁.rest, List.nil_append, hr] at h
      exact absurd h not_ok_failAtEnd
    | cons ch out =>
      rw [ho, hm₁.rest, List.nil_append, hr, List.head?_cons] at h
      by_cases hclose : ch = 0x7D
      · -- the closing brace ends the loop, unless a comma came last
        simp only [hclose, if_true] at h
        cases expect with
        | true => exact absurd h not_ok_fail
        | false =>
          have hm₂ := skipChar_sound hge (hclose ▸ hr) h
          refine ⟨w, [], ?_, parsedMembers_nil (hm.trans hm₂)⟩
          cases any <;> exact Or.inl ⟨rfl, hw⟩
      by_cases hcomma : ch = 0x2C
      · -- a comma is only taken after a member
        simp only [hcomma, show (0x2C : UInt8) ≠ 0x7D by decide, if_false, if_true] at h
        by_cases hflags : (!any || expect) = true
        · rw [if_pos hflags] at h
          exact absurd h not_ok_fail
        · rw [if_neg hflags] at h
          obtain ⟨_, f, hc, h⟩ := ok_bind.mp h
          have hm₂ := skipChar_sound hge (hcomma ▸ hr) hc
          obtain ⟨t, ms, ht, hparsed⟩ := ih (hm₂.good hge) hseen h
          obtain ⟨rfl, rfl⟩ : any = true ∧ expect = false := by
            cases any <;> cases expect <;> simp_all
          refine ⟨w ++ 0x2C :: t, ms, Or.inr ⟨w, t, hw, rfl, ht⟩, ?_⟩
          have := hparsed.cons_bytes (hm.trans hm₂)
          simpa using this
      by_cases hquote : ch = 0x22
      · simp only [hquote, show (0x22 : UInt8) ≠ 0x7D by decide, show (0x22 : UInt8) ≠ 0x2C by decide,
          if_false, ne_eq, not_true_eq_false] at h
        by_cases hflags : (any && !expect) = true
        · rw [if_pos hflags] at h
          exact absurd h not_ok_fail
        rw [if_neg hflags, ok_bind_get] at h
        obtain ⟨k, f, hkey, h⟩ := ok_bind.mp h
        obtain ⟨kt, hkt, hm₂⟩ := parseStringRaw_sound hge hkey
        obtain ⟨_, g, hws₁, h⟩ := ok_bind.mp h
        obtain ⟨w₁, hw₁, hm₃⟩ := skipWhitespace_sound (hm₂.good hge) hws₁
        obtain ⟨_, a, hcolon, h⟩ := ok_bind.mp h
        have hm₄ := expectChar_sound (hm₃.good (hm₂.good hge)) hcolon
        obtain ⟨dup, b, hcheck, h⟩ := ok_bind.mp h
        obtain ⟨rfl, rfl, hdup⟩ := checkKey_sound hcheck
        obtain ⟨_, c, hname, h⟩ := ok_bind.mp h
        have hm₅ := dispatch_sound hname
        have hgb := hm₄.good (hm₃.good (hm₂.good hge))
        obtain ⟨_, i, hval, h⟩ := ok_bind.mp h
        obtain ⟨w₂, t₂, x, hw₂, hx, hparsed⟩ := hvalue _ (hm₅.good hgb) hval
        have hgi := hparsed.moved.good (hm₅.good hgb)
        have hkeys : ¬ (k ∈ Assoc.keys obj ∧ p.opts.duplicateKeys = .RejectDuplicateKeys) := by
          rintro ⟨h₁, h₂⟩
          have hp : p.opts.duplicateKeys ≠ .KeepLastDuplicate := by rw [h₂]; decide
          exact hdup ⟨decide_eq_true ⟨hp, (hseen hp k).mpr h₁⟩, h₂⟩
        obtain ⟨v, hv⟩ := hparsed.denotes
        have hadd := Dom.addMember_eq (v := v) (by rwa [Assoc.find_isSome_iff])
        obtain ⟨t, ms, ht, hrest⟩ := ih hgi (hseen.add hadd) h
        have hmem : Members ((k, x) :: ms)
            (w ++ 0x22 :: (kt ++ 0x22 :: (w₁ ++ 0x3A :: (w₂ ++ (t₂ ++ t))))) :=
          Tail.members hw hkt hw₁ hw₂ hx ht
        refine ⟨w ++ 0x22 :: (kt ++ 0x22 :: (w₁ ++ 0x3A :: (w₂ ++ (t₂ ++ t)))), (k, x) :: ms, ?_, ?_⟩
        · cases expect with
          | true => exact hmem
          | false =>
            cases any with
            | true => simp at hflags
            | false => exact Or.inr hmem
        · have := (ParsedMembers.cons hm₅ hparsed hv hadd hrest).cons_bytes
            ((hm.trans hm₂).trans (hm₃.trans hm₄))
          simpa using this
      · simp only [hclose, hcomma, hquote, if_false, ne_eq, not_false_eq_true, if_true] at h
        exact absurd h not_ok_fail

/-- It reads members that fit, up to their brace. -/
theorem objectLoop_does (hh : p.handler.Accepting) {value : Bool → SaxM κ Unit} {level : Nat}
    (hvalue : ∀ emit, Complete lib p level depth emit (value emit)) (fuel : Nat)
    (expect any : Bool) {seenKeys : List Bytes} {obj obj' : List (Bytes × Pjson)} {t out : Bytes}
    {ms : List (Bytes × Json)} (hs : s.Ready p) (hseen : Seen p seenKeys obj)
    (ht : Tail Members expect any ms t) (hr : s.rest = t ++ 0x7D :: out) (hfuel : t.length < fuel)
    (hlevel : ∀ m ∈ ms, m.2.depth < level) (hroom : s.Room p (Json.nodesMembers ms))
    (hdeep : Deep p depth (Json.depthMembers ms))
    (hden : Json.denoteMembers (convert lib p) p.opts.duplicateKeys obj ms = some obj') :
    Does p (objectLoop p value emit fuel expect any seenKeys) s (t ++ [0x7D])
      (Json.nodesMembers ms)
      (emitted emit (Json.eventsMembers (convert lib p) p.opts.duplicateKeys seenKeys ms)) () := by
  induction fuel generalizing s expect any seenKeys obj t ms with
  | zero => omega
  | succ fuel ih =>
    -- the loop at a member
    have hmember : ∀ {t : Bytes}, Members ms t → (any && !expect) = false →
        s.rest = t ++ 0x7D :: out → t.length < fuel + 1 →
        Does p (objectLoop p value emit (fuel + 1) expect any seenKeys) s (t ++ [0x7D])
          (Json.nodesMembers ms)
          (emitted emit (Json.eventsMembers (convert lib p) p.opts.duplicateKeys seenKeys ms)) () := by
      intro t hmem hflags hr hfuel
      obtain ⟨k, kt, x, ns, w, w₁, w₂, b, r, rfl, rfl, hw, hkt, hw₁, hw₂, hx, htail⟩ := hmem.split
      obtain ⟨v, obj₁, hv, hadd, hns⟩ := Json.denoteMembers_cons_iff.mp hden
      have hr₁ : s.rest = w ++ (0x22 :: (kt ++ 0x22 ::
          (w₁ ++ 0x3A :: (w₂ ++ (b ++ (r ++ 0x7D :: out)))))) := by simpa using hr
      have hends : EndsNumber (r ++ 0x7D :: out) := by
        rcases htail with ⟨-, hw'⟩ | ⟨w', r', hw', rfl, -⟩
        · exact endsNumber_ws hw' (by decide)
        · rw [List.append_assoc]
          exact endsNumber_ws hw' (by decide)
      -- the policy did not refuse the name
      have hdup : ¬ (k ∈ seenKeys ∧ p.opts.duplicateKeys = .RejectDuplicateKeys) := by
        rintro ⟨h₁, h₂⟩
        have hk := (hseen (by rw [h₂]; decide) k).mp h₁
        rw [h₂, Dom.addMember_reject (Assoc.find_isSome_iff.mpr hk)] at hadd
        cases hadd
      have htext : w ++ 0x22 :: (kt ++ 0x22 :: (w₁ ++ 0x3A :: (w₂ ++ (b ++ r)))) ++ [0x7D] =
          w ++ ((0x22 :: (kt ++ [0x22])) ++ (w₁ ++ ([0x3A] ++ ((w₂ ++ b) ++ (r ++ [0x7D]))))) := by
        simp
      rw [htext]
      unfold objectLoop
      refine Does.look hs hw (head_not_ws (by decide)) hr₁ fun d hm hd => ?_
      simp only [List.head?_cons, show (0x22 : UInt8) ≠ 0x7D by decide,
        show (0x22 : UInt8) ≠ 0x2C by decide, if_false, ne_eq, not_true_eq_false, hflags,
        Bool.false_eq_true]
      have hsd := hm.ready hs
      -- the name, the colon and the test for a repeated name
      have hd' : d.rest = (0x22 :: (kt ++ [0x22])) ++
          (w₁ ++ 0x3A :: (w₂ ++ (b ++ (r ++ 0x7D :: out)))) := by rw [hd]; simp
      obtain ⟨e, he, hm₂⟩ := parseStringRaw_does hsd hkt hd
      have hre := hm₂.rest_eq hd'
      have hse := hm₂.ready hsd
      obtain ⟨f, hf, hm₃⟩ := skipWhitespace_does hse hw₁ (head_not_ws (by decide)) hre
      have hrf := hm₃.rest_eq hre
      have hsf := hm₃.ready hse
      obtain ⟨g, hg, hm₄⟩ := expectChar_does hsf hrf "expected ':' after object key"
      have hrg : g.rest = w₂ ++ (b ++ (r ++ 0x7D :: out)) := hm₄.rest_eq (t := [0x3A]) hrf
      have hsg := hm₄.ready hsf
      obtain ⟨i, hi, hm₅⟩ := checkKey_does (s := g) (SaxCursor.position d.cur)
        (SaxCursor.line d.cur) (SaxCursor.column d.cur) hdup
      have hri := hm₅.rest_eq (t := []) hrg
      have hsi := hm₅.ready hsg
      -- the value, under the flag for this member, and the loop behind it
      have hm₆ := ((hm.trans hm₂).trans hm₃).trans (hm₄.trans hm₅)
      have hm₆ : s.Moved p (w ++ (0x22 :: (kt ++ [0x22])) ++ w₁ ++ ([0x3A] ++ [])) 0 [] i := hm₆
      have hroom₁ := hm₆.room.mpr hroom
      have hmemberEvents : Does p (dispatch p (emitMember p k seenKeys emit) (.onKey k) >>= fun _ =>
          value (emitMember p k seenKeys emit) >>= fun _ =>
            objectLoop p value emit fuel false true (seenAfter p k seenKeys)) i
          ([] ++ ((w₂ ++ b) ++ (r ++ [0x7D]))) (0 + (x.nodes + Json.nodesMembers ns))
          (emitted (emitMember p k seenKeys emit) [.onKey k] ++
            (emitted (emitMember p k seenKeys emit)
              (x.events (convert lib p) p.opts.duplicateKeys) ++
            emitted emit (Json.eventsMembers (convert lib p) p.opts.duplicateKeys
              (seenAfter p k seenKeys) ns))) () := by
        refine (dispatch_does hh _ _).bind fun a hm₇ => ?_
        have hra := hm₇.rest_eq (t := []) hri
        have hroom₂ := hm₇.room.mpr hroom₁
        have hval := hvalue (emitMember p k seenKeys emit) (hm₇.ready hsi) hw₂ hx hra hends
          (hlevel _ (List.mem_cons_self ..))
          (by unfold SaxState.Room at hroom₂ ⊢; simp only [Json.nodesMembers] at hroom₂; omega)
          (deep_max.mp hdeep).1 hv
        refine hval.bind fun c hm₈ => ?_
        exact ih false true (hm₈.ready (hm₇.ready hsi)) (hseen.add hadd) htail
          (hm₈.rest_eq (by simpa using hra))
          (by simp only [List.length_append, List.length_cons] at hfuel; omega)
          (fun m hm => hlevel m (List.mem_cons_of_mem _ hm)) (hm₈.room_add.mp hroom₂).2
          (deep_max.mp hdeep).2 hns
      rw [Json.eventsMembers, ← emitted_append, ← emitted_member, eventsMembers_seenAfter,
        List.append_assoc]
      rw [Nat.zero_add, List.nil_append] at hmemberEvents
      obtain ⟨s', hok, hm₇⟩ := hmemberEvents
      refine ⟨s', ?_, ?_⟩
      · rw [ok_bind_get]
        exact Ok.bind he (Ok.bind hf (Ok.bind hg (Ok.bind hi hok)))
      · have := (hm₂.trans hm₃).trans ((hm₄.trans hm₅).trans hm₇)
        simpa [Json.nodesMembers] using this
    -- the loop at the closing brace
    have hend : ms = [] → Ws t → expect = false →
        Does p (objectLoop p value emit (fuel + 1) expect any seenKeys) s (t ++ [0x7D])
          (Json.nodesMembers ms)
          (emitted emit (Json.eventsMembers (convert lib p) p.opts.duplicateKeys seenKeys ms)) () := by
      rintro rfl hw rfl
      rw [Json.eventsMembers, emitted_nil]
      unfold objectLoop
      refine Does.look hs hw (head_not_ws (by decide)) hr fun d hm hd => ?_
      simp only [List.head?_cons, if_true, Bool.false_eq_true, if_false]
      exact skipChar_does (hm.ready hs) hd
    cases expect with
    | true => exact hmember ht (by simp) hr hfuel
    | false =>
      cases any with
      | false =>
        rcases ht with ⟨hnil, hw⟩ | hmem
        · exact hend hnil hw rfl
        · exact hmember hmem rfl hr hfuel
      | true =>
        rcases ht with ⟨hnil, hw⟩ | ⟨w, r, hw, rfl, hmem⟩
        · exact hend hnil hw rfl
        · -- the comma, and the loop behind it
          have hr₁ : s.rest = w ++ (0x2C :: (r ++ 0x7D :: out)) := by simpa using hr
          rw [List.append_assoc]
          unfold objectLoop
          refine Does.look hs hw (head_not_ws (by decide)) hr₁ fun d hm hd => ?_
          simp only [List.head?_cons, show (0x2C : UInt8) ≠ 0x7D by decide, if_false, if_true,
            Bool.not_true, Bool.or_self, Bool.false_eq_true]
          refine (skipChar_does (hm.ready hs) hd).read fun e hm₂ => ?_
          exact ih true true (hm₂.ready (hm.ready hs)) hseen hmem (hm₂.rest_eq (t := [0x2C]) hd)
            (by simp only [List.length_append, List.length_cons] at hfuel; omega) hlevel
            (hm₂.room.mpr (hm.room.mpr hroom)) hdeep hden

/-! ## The shell of a container -/

/-- A container has been entered within the limits, its loop run, and left. -/
theorem container_sound {bracket : UInt8} {start close : SaxEvent} {loop : Nat → SaxM κ Unit}
    {u : Unit} (hg : s.Good) (h : Ok (container p (depth + 1) emit bracket start close loop) s u s') :
    depth + 1 ≤ clampParseDepth p.opts.maxDepth ∧ s.Room p 1 ∧ ∃ a b u,
      s.Moved p [bracket] 1 (emitted emit [start]) a ∧
      Ok (loop (a.rest.length + 1)) a u b ∧ b.Moved p [] 0 (emitted emit [close]) s' := by
  unfold container at h
  split at h
  · exact absurd h not_ok_fail
  · rename_i hdepth
    obtain ⟨_, d, hn, h⟩ := ok_bind.mp h
    obtain ⟨hroom, hm⟩ := reserveNode_sound hn
    obtain ⟨_, e, hb, h⟩ := ok_bind.mp h
    have hm₂ := expectChar_sound (hm.good hg) hb
    obtain ⟨_, f, hd, h⟩ := ok_bind.mp h
    have hm₃ := dispatch_sound hd
    rw [ok_bind_unread] at h
    obtain ⟨_, g, hl, h⟩ := ok_bind.mp h
    exact ⟨by omega, hroom, f, g, _, by simpa using hm.trans (hm₂.trans hm₃), hl, dispatch_sound h⟩

/-- It is, if the limits admit it and the loop does its part. -/
theorem container_does (hh : p.handler.Accepting) {bracket : UInt8} {start close : SaxEvent}
    {loop : Nat → SaxM κ Unit} {t out : Bytes} {k : Nat} {es : List SaxEvent} (hs : s.Ready p)
    (hdepth : depth + 1 ≤ clampParseDepth p.opts.maxDepth) (hroom : s.Room p 1)
    (hr : s.rest = bracket :: out)
    (h : ∀ a, s.Moved p [bracket] 1 (emitted emit [start]) a →
      Does p (loop (a.rest.length + 1)) a t k (emitted emit es) ()) :
    Does p (container p (depth + 1) emit bracket start close loop) s (bracket :: t) (1 + k)
      (emitted emit (start :: (es ++ [close]))) () := by
  unfold container
  rw [if_neg (by omega)]
  refine (reserveNode_does hroom).charge fun d hm => ?_
  refine (expectChar_does (hm.ready hs) (hm.rest_eq (t := []) hr) _).read fun e hm₂ => ?_
  obtain ⟨f, hf, hm₃⟩ := dispatch_does hh emit start (s := e)
  obtain ⟨g, hl, hm₄⟩ := h f (by simpa using hm.trans (hm₂.trans hm₃))
  obtain ⟨i, hi, hm₅⟩ := dispatch_does hh emit close (s := g)
  refine ⟨i, Ok.bind hf (ok_bind_unread.mpr (Ok.bind hl hi)), ?_⟩
  have := hm₃.trans (hm₄.trans hm₅)
  rw [emitted_append, emitted_append] at this
  simpa using this

/-- An array has been read and told. -/
theorem parseArray_sound {value : SaxM κ Unit} (hvalue : Sound lib p (depth + 1) emit value)
    {u : Unit} (hg : s.Good) (h : Ok (parseArray p value (depth + 1) emit) s u s') :
    ∃ t x, Value x t ∧ Parsed lib p depth emit s t x s' := by
  obtain ⟨hdepth, hroom, a, b, u, hm, hl, hm₃⟩ := container_sound hg h
  obtain ⟨t, xs, ht, hp⟩ := arrayLoop_sound hvalue (hm.good hg) hl
  obtain ⟨vs, hvs⟩ := hp.denotes
  refine ⟨_, .array xs, value_array_iff.mpr ⟨t, rfl, ht⟩, ?_, hm.room_add.mpr ⟨hroom, hp.room⟩,
    (deep_succ hdepth).mpr hp.deep, .jsonArray vs, ?_⟩
  · have := hm.trans (hp.moved.trans hm₃)
    rw [emitted_append, emitted_append] at this
    simpa [Json.nodes, Json.events] using this
  · rw [Json.denote, hvs]
    rfl

/-- An object has been read and told. -/
theorem parseObject_sound {value : Bool → SaxM κ Unit}
    (hvalue : ∀ emit, Sound lib p (depth + 1) emit (value emit)) {u : Unit} (hg : s.Good)
    (h : Ok (parseObject p value (depth + 1) emit) s u s') :
    ∃ t x, Value x t ∧ Parsed lib p depth emit s t x s' := by
  obtain ⟨hdepth, hroom, a, b, u, hm, hl, hm₃⟩ := container_sound hg h
  have hseen : Seen p [] [] := fun _ k => by simp [Assoc.keys]
  obtain ⟨t, ms, ht, hp⟩ := objectLoop_sound hvalue (hm.good hg) hseen hl
  obtain ⟨obj, hobj⟩ := hp.denotes
  refine ⟨_, .object ms, value_object_iff.mpr ⟨t, rfl, ht⟩, ?_, hm.room_add.mpr ⟨hroom, hp.room⟩,
    (deep_succ hdepth).mpr hp.deep, .jsonObject obj, ?_⟩
  · have := hm.trans (hp.moved.trans hm₃)
    rw [emitted_append, emitted_append] at this
    simpa [Json.nodes, Json.events] using this
  · rw [Json.denote, hobj]
    rfl

/-- An array that fits is. -/
theorem parseArray_does (hh : p.handler.Accepting) {value : SaxM κ Unit} {level : Nat}
    (hvalue : Complete lib p level (depth + 1) emit value) {xs : List Json} {t out : Bytes}
    {v : Pjson} (hs : s.Ready p) (ht : Tail Elements false false xs t)
    (hr : s.rest = 0x5B :: (t ++ 0x5D :: out)) (hlevel : (Json.array xs).depth < level + 1)
    (hroom : s.Room p (Json.array xs).nodes) (hdeep : Deep p depth (Json.array xs).depth)
    (hden : (Json.array xs).denote (convert lib p) p.opts.duplicateKeys = some v) :
    Does p (parseArray p value (depth + 1) emit) s (0x5B :: (t ++ [0x5D])) (Json.array xs).nodes
      (emitted emit ((Json.array xs).events (convert lib p) p.opts.duplicateKeys)) () := by
  rw [Json.denote] at hden
  obtain ⟨vs, hvs, rfl⟩ := Option.map_eq_some_iff.mp hden
  rw [Json.depth] at hlevel hdeep
  rw [Json.nodes] at hroom ⊢
  have hdepth : depth + 1 ≤ clampParseDepth p.opts.maxDepth := by unfold Deep at hdeep; omega
  rw [Json.events]
  refine container_does hh hs hdepth (by unfold SaxState.Room at hroom ⊢; omega) hr fun a hm => ?_
  have ha : a.rest = t ++ 0x5D :: out := hm.rest_eq (t := [0x5B]) hr
  exact arrayLoop_does hvalue _ false false (hm.ready hs) ht ha
    (by rw [ha, List.length_append]; omega)
    (fun x hx => by have := Dom.depth_of_mem hx; omega) (hm.room_add.mp hroom).2
    ((deep_succ hdepth).mp hdeep) hvs

/-- An object that fits is. -/
theorem parseObject_does (hh : p.handler.Accepting) {value : Bool → SaxM κ Unit} {level : Nat}
    (hvalue : ∀ emit, Complete lib p level (depth + 1) emit (value emit))
    {ms : List (Bytes × Json)} {t out : Bytes} {v : Pjson} (hs : s.Ready p)
    (ht : Tail Members false false ms t) (hr : s.rest = 0x7B :: (t ++ 0x7D :: out))
    (hlevel : (Json.object ms).depth < level + 1) (hroom : s.Room p (Json.object ms).nodes)
    (hdeep : Deep p depth (Json.object ms).depth)
    (hden : (Json.object ms).denote (convert lib p) p.opts.duplicateKeys = some v) :
    Does p (parseObject p value (depth + 1) emit) s (0x7B :: (t ++ [0x7D])) (Json.object ms).nodes
      (emitted emit ((Json.object ms).events (convert lib p) p.opts.duplicateKeys)) () := by
  rw [Json.denote] at hden
  obtain ⟨obj, hobj, rfl⟩ := Option.map_eq_some_iff.mp hden
  rw [Json.depth] at hlevel hdeep
  rw [Json.nodes] at hroom ⊢
  have hdepth : depth + 1 ≤ clampParseDepth p.opts.maxDepth := by unfold Deep at hdeep; omega
  rw [Json.events]
  refine container_does hh hs hdepth (by unfold SaxState.Room at hroom ⊢; omega) hr fun a hm => ?_
  have ha : a.rest = t ++ 0x7D :: out := hm.rest_eq (t := [0x7B]) hr
  exact objectLoop_does hh hvalue _ false false (hm.ready hs) (fun _ k => by simp [Assoc.keys]) ht
    ha (by rw [ha, List.length_append]; omega)
    (fun m hm => by have := Dom.depth_of_mem_members hm; omega) (hm.room_add.mp hroom).2
    ((deep_succ hdepth).mp hdeep) hobj

/-! ## Values -/

/-- White space in front of a value. -/
theorem parsed_ws {d : SaxState κ} {w t : Bytes} {x : Json} (h : s.Moved p w 0 [] d)
    (h' : Parsed lib p depth emit d t x s') : Parsed lib p depth emit s (w ++ t) x s' where
  moved := by simpa using h.trans h'.moved
  room := h.room.mp h'.room
  deep := h'.deep
  denotes := h'.denotes

/-- One of the three keywords has been read and told. -/
theorem parseKeywordValue_sound {u : Unit} (hg : s.Good)
    (h : Ok (parseKeywordValue p emit) s u s') :
    ∃ t x, Value x t ∧ Parsed lib p depth emit s t x s' := by
  obtain ⟨o, d, hp, h⟩ := ok_bind.mp h
  obtain ⟨-, hm⟩ := peekChar_sound (p := p) hg hp
  suffices hval : ∃ t x, Value x t ∧ Parsed lib p depth emit d t x s' by
    obtain ⟨t, x, hx, hparsed⟩ := hval
    exact ⟨t, x, hx, parsed_ws (w := []) hm hparsed⟩
  cases o with
  | none => exact absurd h not_ok_fail
  | some ch =>
    dsimp only at h
    split_ifs at h
    · obtain ⟨hm₂, hroom⟩ := keyword_sound (hm.good hg) h
      exact ⟨_, .null, Value.null, hm₂, hroom, deep_zero, _, rfl⟩
    · obtain ⟨hm₂, hroom⟩ := keyword_sound (hm.good hg) h
      exact ⟨_, .bool true, Value.true, hm₂, hroom, deep_zero, _, rfl⟩
    · obtain ⟨hm₂, hroom⟩ := keyword_sound (hm.good hg) h
      exact ⟨_, .bool false, Value.false, hm₂, hroom, deep_zero, _, rfl⟩
    · exact absurd h not_ok_fail

/-- **Soundness** of `parseValue`, by induction on the levels of nesting. -/
theorem parseValue_sound (level : Nat) :
    ∀ depth emit, Sound (κ := κ) lib p depth emit (parseValue p lib level depth emit) := by
  induction level with
  | zero =>
    intro depth emit s u s' _ h
    exact absurd h not_ok_throw
  | succ level ih =>
    intro depth emit s u s' hg h
    unfold parseValue at h
    obtain ⟨_, d, hws, h⟩ := ok_bind.mp h
    obtain ⟨w, hw, hm⟩ := skipWhitespace_sound hg hws
    obtain ⟨o, e, hp, h⟩ := ok_bind.mp h
    obtain ⟨-, hm₁⟩ := peekChar_sound (p := p) (hm.good hg) hp
    have hm : s.Moved p w 0 [] e := by simpa using hm.trans hm₁
    have hge := hm.good hg
    -- whatever value stands behind the white space
    suffices hval : ∃ t x, Value x t ∧ Parsed lib p depth emit e t x s' by
      obtain ⟨t, x, hx, hparsed⟩ := hval
      exact ⟨w, t, x, hw, hx, parsed_ws hm hparsed⟩
    cases o with
    | none => exact absurd h not_ok_failAtEnd
    | some ch =>
      dsimp only at h
      split_ifs at h
      · obtain ⟨t, b, hb, hm₂, hroom⟩ := parseStringValue_sound hge h
        exact ⟨_, .string b, Value.string hb, hm₂, hroom, deep_zero, _, rfl⟩
      · exact parseObject_sound (fun emit => ih (depth + 1) emit) hge h
      · exact parseArray_sound (ih (depth + 1) emit) hge h
      · obtain ⟨t, n, hconv, hm₂, hroom⟩ := parseNumberValue_sound hge h
        have hconv : convert lib p t = some n := hconv
        refine ⟨t.text, .number t, Value.number t, ?_, hroom, deep_zero, n.toPjson, ?_⟩
        · rw [Json.events, hconv]
          exact hm₂
        · rw [Json.denote, hconv]
          rfl
      · exact parseKeywordValue_sound hge h

/-- **Completeness** of `parseValue`, by induction on the levels of nesting. -/
theorem parseValue_does (hh : p.handler.Accepting) (level : Nat) :
    ∀ depth emit, Complete (κ := κ) lib p level depth emit (parseValue p lib level depth emit) := by
  induction level with
  | zero =>
    intro depth emit s w t x v out _ _ _ _ _ hlevel
    omega
  | succ level ih =>
    intro depth emit s w t x v out hs hw hx hr hends hlevel hroom hdeep hden
    obtain ⟨b, q, ht, hb⟩ := hx.start
    unfold parseValue
    refine Does.look hs hw (by rw [ht, List.cons_append]; exact head_not_ws (valueStart_ne hb).1)
      hr fun d hm hd => ?_
    have hs := hm.ready hs
    have hroom := hm.room.mpr hroom
    rw [ht, List.cons_append, List.head?_cons]
    -- the dispatch on the first byte picks the parser of the production
    dsimp only
    rw [← ht]
    have hkeyword : ∀ {lit : Bytes} {event : SaxEvent}, t = lit → x.nodes = 1 →
        x.events (convert lib p) p.opts.duplicateKeys = [event] →
        (∃ r, lit = b :: r ∧ (b = 0x6E ∧ lit = nullText ∧ event = .onNull ∨
          b = 0x74 ∧ lit = trueText ∧ event = .onBool true ∨
          b = 0x66 ∧ lit = falseText ∧ event = .onBool false)) →
        Does p (parseKeywordValue p emit) d t x.nodes
          (emitted emit (x.events (convert lib p) p.opts.duplicateKeys)) () := by
      rintro lit event rfl hn he ⟨r, hlit, hcase⟩
      rw [hn, he]
      rw [hn] at hroom
      refine (peekChar_does (hm.good ‹s.Ready p›.good)).read (u := t) fun e hm₂ => ?_
      have hre := hm₂.rest_eq (t := []) hd
      rw [hd, hlit, List.cons_append, List.head?_cons]
      have hse := hm₂.ready hs
      have hroome := hm₂.room.mpr hroom
      rcases hcase with ⟨rfl, h₁, rfl⟩ | ⟨rfl, h₁, rfl⟩ | ⟨rfl, h₁, rfl⟩
      · rw [← hlit, h₁]
        exact keyword_does hh emit _ hse (h₁ ▸ hre) hroome
      · rw [← hlit, h₁]
        exact keyword_does hh emit _ hse (h₁ ▸ hre) hroome
      · rw [← hlit, h₁]
        exact keyword_does hh emit _ hse (h₁ ▸ hre) hroome
    cases hx with
    | null =>
      cases ht
      exact hkeyword rfl rfl rfl ⟨_, rfl, Or.inl ⟨rfl, rfl, rfl⟩⟩
    | true =>
      cases ht
      exact hkeyword rfl rfl rfl ⟨_, rfl, Or.inr (Or.inl ⟨rfl, rfl, rfl⟩)⟩
    | false =>
      cases ht
      exact hkeyword rfl rfl rfl ⟨_, rfl, Or.inr (Or.inr ⟨rfl, rfl, rfl⟩)⟩
    | string hbody =>
      cases ht
      rw [if_pos rfl]
      exact parseStringValue_does hh emit hs hbody (by simpa using hd) hroom
    | number t =>
      rw [Json.denote] at hden
      obtain ⟨n, hn, rfl⟩ := Option.map_eq_some_iff.mp hden
      obtain ⟨b', r', hb', hstart⟩ := t.text_start
      rw [ht] at hb'
      cases hb'
      have hdig : b = 0x2D ∨ (0x30 ≤ b ∧ b ≤ 0x39) := hstart
      have hne : b ≠ 0x22 ∧ b ≠ 0x7B ∧ b ≠ 0x5B := numberStart_ne hdig
      rw [if_neg hne.1, if_neg hne.2.1, if_neg hne.2.2, if_pos hdig, Json.events, hn]
      exact parseNumberValue_does hh emit hn hs hd hends hroom
    | emptyArray hws =>
      cases ht
      exact parseArray_does hh (ih (depth + 1) emit) hs (Or.inl ⟨rfl, hws⟩) (by simpa using hd)
        hlevel hroom hdeep hden
    | array hels =>
      cases ht
      exact parseArray_does hh (ih (depth + 1) emit) hs (Or.inr hels) (by simpa using hd)
        hlevel hroom hdeep hden
    | emptyObject hws =>
      cases ht
      exact parseObject_does hh (fun emit => ih (depth + 1) emit) hs (Or.inl ⟨rfl, hws⟩)
        (by simpa using hd) hlevel hroom hdeep hden
    | object hmem =>
      cases ht
      exact parseObject_does hh (fun emit => ih (depth + 1) emit) hs (Or.inr hmem)
        (by simpa using hd) hlevel hroom hdeep hden

/-! ## Documents -/

/-- Behind the value and its white space nothing is left, and the limit has been kept. -/
theorem finishDocument_sound {u : Unit} (hg : s.Good) (h : Ok (finishDocument p) s u s') :
    s.rest = [] ∧ s.Moved p [] 0 [] s' := by
  unfold finishDocument at h
  rw [ok_bind_get] at h
  dsimp only at h
  -- both branches end alike where the cursor is at its end
  have hend : ∀ {d : SaxState κ}, Ok peekChar s none d →
      Ok (get >>= fun e => if SaxCursor.failed e.cur = true then fail "stream read failed"
        else pure ()) d u s' → s.rest = [] ∧ s.Moved p [] 0 [] s' := by
    intro d hp h
    obtain ⟨ho, hm⟩ := peekChar_sound (p := p) hg hp
    rw [ok_bind_get, LawfulSaxCursor.not_failed (hm.good hg)] at h
    obtain ⟨-, rfl⟩ := ok_pure.mp h
    exact ⟨List.head?_eq_none_iff.mp ho.symm, hm⟩
  split at h
  · obtain ⟨o, d, hp, h⟩ := ok_bind.mp h
    cases o with
    | none => exact hend hp h
    | some c =>
      dsimp only at h
      rw [ok_bind_get] at h
      obtain ⟨_, _, -, h⟩ := ok_bind.mp h
      obtain ⟨_, _, h, -⟩ := ok_bind.mp h
      exact absurd h not_ok_throw
  · obtain ⟨o, d, hp, h⟩ := ok_bind.mp h
    cases o with
    | none => exact hend hp h
    | some c =>
      obtain ⟨_, _, h, -⟩ := ok_bind.mp h
      exact absurd h not_ok_fail

/-- At the end of the text there is nothing left to do. -/
theorem finishDocument_does (hg : s.Good) (hr : s.rest = []) :
    Does p (finishDocument p) s [] 0 [] () := by
  obtain ⟨d, hp, hm⟩ := peekChar_spec (p := p) hg
  rw [hr] at hp
  have hend : Ok (get >>= fun e => if SaxCursor.failed e.cur = true then fail "stream read failed"
      else pure () : SaxM κ Unit) d () d := by
    rw [ok_bind_get, LawfulSaxCursor.not_failed (hm.good hg)]
    exact ok_pure.mpr ⟨rfl, rfl⟩
  refine ⟨d, ?_, hm⟩
  unfold finishDocument
  rw [ok_bind_get]
  dsimp only
  split
  · exact Ok.bind hp hend
  · exact Ok.bind hp hend

/-- Every document has a value to charge for. -/
theorem denotes_pos (x : Json) : 0 < x.nodes := by
  cases x <;> simp only [Json.nodes] <;> omega

omit [SaxCursor κ] [LawfulSaxCursor κ] in
/-- The budgets of the parser are those of the options. -/
theorem admits_iff {cur : κ} (x : Json) :
    (({ cur := cur } : SaxState κ).Room p x.nodes ∧ Deep p 0 x.depth) ↔
      ((p.opts.maxNodes = 0 ∨ x.nodes ≤ p.opts.maxNodes) ∧
        x.depth ≤ (max 1 (min p.opts.maxDepth 1024)).toNat) := by
  have hn := denotes_pos x
  unfold SaxState.Room Deep
  rw [clampParseDepth_eq]
  dsimp only
  omega

/-- **What an accepted document is**: a JSON text within the limits, and its events. -/
theorem document_sound {cur : κ} (hg : LawfulSaxCursor.Good cur)
    (hpos : SaxCursor.position cur = 0) {u : Unit}
    (h : Ok (document p lib) { cur := cur } u s') :
    ∃ x v, JsonText x (LawfulSaxCursor.rest cur) ∧ p.opts.Admits x (LawfulSaxCursor.rest cur) ∧
      x.denote (convert lib p) p.opts.duplicateKeys = some v ∧
      s'.delivered = x.events (convert lib p) p.opts.duplicateKeys ∧ s'.err = {} := by
  obtain ⟨_, d, hval, h⟩ := ok_bind.mp h
  obtain ⟨w, t, x, hw, hx, hp⟩ := parseValue_sound _ 0 true (s := { cur := cur }) hg hval
  have hgd := hp.moved.good hg
  obtain ⟨_, e, hws, h⟩ := ok_bind.mp h
  obtain ⟨w', hw', hm⟩ := skipWhitespace_sound hgd hws
  obtain ⟨hnil, hm₂⟩ := finishDocument_sound (hm.good hgd) h
  obtain ⟨v, hv⟩ := hp.denotes
  have hall := hp.moved.trans (hm.trans hm₂)
  have hsrc : LawfulSaxCursor.rest cur = w ++ (t ++ w') := by
    have : LawfulSaxCursor.rest cur = _ := hall.rest
    rw [hm₂.rest, List.nil_append] at hnil
    rw [hnil] at this
    simpa using this
  obtain ⟨hnodes, hdepth⟩ := (admits_iff x).mp ⟨hp.room, hp.deep⟩
  refine ⟨x, v, ⟨w, t, w', hw, hx, hw', hsrc⟩, ⟨?_, hdepth, hnodes⟩, hv, ?_, hall.err⟩
  · -- the last byte was consumed below the limit
    rcases hall.within with h₀ | h₀ | h₀
    · exact Or.inl h₀
    · exact absurd h₀ (by simp [hx.ne_nil])
    · rw [hall.position] at h₀
      have h₁ : (LawfulSaxCursor.rest cur).length = (w ++ t ++ (w' ++ [])).length := by
        rw [hsrc]
        simp
      have h₂ : ({ cur := cur } : SaxState κ).position = 0 := hpos
      rw [h₂, Nat.zero_add, ← h₁] at h₀
      exact Or.inr h₀
  · have := hall.delivered
    simpa [emitted] using this

/-- **A document that fits is read to its end**, if the handler accepts everything. -/
theorem document_does (hh : p.handler.Accepting) {cur : κ} (hg : LawfulSaxCursor.Good cur)
    (hpos : SaxCursor.position cur = 0) {x : Json} {v : Pjson}
    (hx : JsonText x (LawfulSaxCursor.rest cur)) (hadm : p.opts.Admits x (LawfulSaxCursor.rest cur))
    (hden : x.denote (convert lib p) p.opts.duplicateKeys = some v) :
    ∃ s', Ok (document p lib) { cur := cur } () s' := by
  obtain ⟨w, t, w', hw, hx, hw', hsrc⟩ := hx
  have hs : ({ cur := cur } : SaxState κ).Ready p := by
    refine ⟨hg, hadm.bytes.imp_right fun hb => ?_⟩
    show SaxCursor.position cur + (LawfulSaxCursor.rest cur).length ≤ _
    rw [hpos, Nat.zero_add]
    exact hb
  obtain ⟨hroom, hdeep⟩ : ({ cur := cur } : SaxState κ).Room p x.nodes ∧ Deep p 0 x.depth :=
    (admits_iff x).mpr ⟨hadm.nodes, hadm.depth⟩
  obtain ⟨d, hval, hm⟩ := parseValue_does hh (clampParseDepth p.opts.maxDepth + 1) 0 true hs hw hx
    hsrc (endsNumber_ws_end hw')
    (by have := hadm.depth; rw [clampParseDepth_eq]; omega) hroom hdeep hden
  have hr : d.rest = w' ++ [] := by
    rw [List.append_nil]
    exact hm.rest_eq (show LawfulSaxCursor.rest cur = _ by rw [hsrc, List.append_assoc])
  obtain ⟨e, hws, hm₂⟩ := skipWhitespace_does (hm.ready hs) hw' (by simp) hr
  obtain ⟨f, hf, -⟩ := finishDocument_does (p := p) ((hm₂.ready (hm.ready hs)).good)
    (hm₂.rest_eq hr)
  exact ⟨f, Ok.bind hval (Ok.bind hws hf)⟩

omit [LawfulSaxCursor κ] in
/-- An accepted document, through the catch clauses. -/
theorem parseDocument_ok {cur : κ} (h : (parseDocument p lib cur).ok = true) :
    ∃ s', Ok (document p lib) { cur := cur } () s' ∧
      parseDocument p lib cur = { ok := true, error := s'.err, events := s'.delivered } := by
  unfold parseDocument at h ⊢
  cases hrun : (document p lib).run { cur := cur } with
  | ok u s' => exact ⟨s', hrun, rfl⟩
  | error e s' =>
    rw [hrun] at h
    cases e with
    | handlerThrew badAlloc => cases badAlloc <;> cases h
    | _ => cases h

omit [LawfulSaxCursor κ] in
/-- What is reported of a run that has returned. -/
theorem parseDocument_of_ok {cur : κ} {u : Unit} (h : Ok (document p lib) { cur := cur } u s') :
    (parseDocument p lib cur).ok = true := by
  unfold Ok at h
  unfold parseDocument
  rw [h]

end Sax

/-! ## The entry points -/

/-- An accepting parse has read a JSON text within the limits, reports success and has delivered the
    events of the text. -/
structure Sax.Outcome.Accepts (o : Sax.Outcome) (lib : NumericLibrary) (opts : ParserOptions)
    (src : Bytes) (v : Pjson) : Prop where
  error : o.error = {}
  events : ∃ x, JsonText x src ∧ opts.Admits x src ∧
    x.denote (fun t => t.convert lib opts.numberPolicy) opts.duplicateKeys = some v ∧
    o.events = x.events (fun t => t.convert lib opts.numberPolicy) opts.duplicateKeys

/-- The run over any lawful cursor, for a handler that accepts everything. -/
theorem Sax.parseDocument_ok_iff {lib : NumericLibrary} {opts : ParserOptions}
    {handler : SaxHandler} (hh : handler.Accepting) {cur : κ} (hg : LawfulSaxCursor.Good cur)
    (hpos : SaxCursor.position cur = 0) :
    ((Sax.parseDocument ⟨handler, opts⟩ lib cur).ok = true →
      ∃ v, (Sax.parseDocument ⟨handler, opts⟩ lib cur).Accepts lib opts
        (LawfulSaxCursor.rest cur) v) ∧
    ∀ x v, JsonText x (LawfulSaxCursor.rest cur) → opts.Admits x (LawfulSaxCursor.rest cur) →
      x.denote (fun t => t.convert lib opts.numberPolicy) opts.duplicateKeys = some v →
      (Sax.parseDocument ⟨handler, opts⟩ lib cur).ok = true := by
  constructor
  · intro h
    obtain ⟨s', hok, heq⟩ := Sax.parseDocument_ok h
    obtain ⟨x, v, hx, hadm, hden, hevents, herr⟩ := Sax.document_sound hg hpos hok
    rw [heq]
    exact ⟨v, herr, x, hx, hadm, hden, hevents⟩
  · intro x v hx hadm hden
    obtain ⟨s', hok⟩ := Sax.document_does (p := ⟨handler, opts⟩) hh hg hpos hx hadm hden
    exact Sax.parseDocument_of_ok hok

end ByteDance
