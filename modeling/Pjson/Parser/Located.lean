/-
  Where a failure is reported: an offset of the input, with the line and the column of that offset.

  The DOM parser keeps a position only and counts lines when it is done, so what has to be shown is
  that it never fails behind the end of its buffer.  `Inside n j x` says so of a function started
  with at least `j` bytes unread: its position and its error stay within the `n` bytes there are.  The
  SAX parser reports the coordinates its cursor has counted, which are those of the cursor's offset
  (`Placed`), whatever the stream and the handler do.
-/
import Pjson.Parser.SaxInvariant

namespace ByteDance

open Run

/-! ## The DOM parser -/

namespace Dom

/-- The cursor and the error are within a buffer of `n` bytes. -/
structure Within (n : Nat) (c : ParseCtx) : Prop where
  cursor : c.pos + c.rest.length = n
  error : c.errPos ≤ n

/-- Started with `j` bytes unread, the function stays within the buffer. -/
def Inside (n j : Nat) {α : Type} (x : DomM α) : Prop :=
  ∀ c, Within n c → j ≤ c.rest.length → Ends x c (fun _ t => Within n t) fun _ t => Within n t

/-- An advance over bytes that are there stays within the text. -/
theorem Within.advance {n k : Nat} {c : ParseCtx} (h : Within n c) (hk : k ≤ c.rest.length) :
    Within n { c with pos := c.pos + k, rest := c.rest.drop k } := by
  have hcursor := h.cursor
  refine ⟨?_, h.error⟩
  show c.pos + k + (c.rest.drop k).length = n
  rw [List.length_drop]
  omega

namespace Inside

variable {n j k : Nat} {α β : Type}

/-- What keeps to the text, whatever it starts with, is inside it. -/
theorem of_keeps {x : DomM α} (h : Keeps (Within n) x) : Inside n j x := fun c hc _ => h c hc

/-- More bytes to start with. -/
theorem mono {x : DomM α} (h : Inside n k x) (hjk : k ≤ j) : Inside n j x := fun c hc hj =>
  h c hc (le_trans hjk hj)

/-- A value. -/
theorem pure (a : α) : Inside n j (Pure.pure a) := of_keeps (Keeps.pure a)

/-- An exit moves nothing. -/
theorem throw (e : ParseExit) : Inside n j (MonadExcept.throw e : DomM α) := of_keeps (Keeps.throw e)

/-- The second function cannot count on bytes that the first may have read. -/
theorem bind {x : DomM α} {f : α → DomM β} (hx : Inside n j x) (hf : ∀ a, Inside n 0 (f a)) :
    Inside n j (x >>= f) := fun c hc hj =>
  ends_bind.mpr ((hx c hc hj).mono (fun a t ht => hf a t ht (Nat.zero_le _)) fun _ _ ht => ht)

/-- Both branches are inside. -/
theorem ite {c : Prop} [Decidable c] {x y : DomM α} (hx : Inside n j x) (hy : Inside n j y) :
    Inside n j (if c then x else y) := by
  split
  · exact hx
  · exact hy

/-- What depends on the context may use that it is within the text. -/
theorem get_bind {f : ParseCtx → DomM β} (hf : ∀ c, Within n c → Inside n j (f c)) :
    Inside n j (get >>= f) := fun c hc hj => hf c hc c hc hj

/-- The position is one of the text. -/
theorem position_bind {f : Nat → DomM β} (hf : ∀ pos ≤ n, Inside n j (f pos)) :
    Inside n j (position >>= f) := fun c hc hj =>
  hf c.pos (by have := hc.cursor; omega) c hc hj

/-- Behind the test there are as many bytes as it asks for. -/
theorem remains_bind {f : Bool → DomM β} (htrue : Inside n (max j k) (f true))
    (hfalse : Inside n j (f false)) : Inside n j (remains k >>= f) := by
  intro c hc hj
  show Ends (f (decide (k ≤ c.rest.length))) c _ _
  by_cases h : k ≤ c.rest.length
  · rw [decide_eq_true h]
    exact htrue c hc (max_le hj h)
  · rw [decide_eq_false h]
    exact hfalse c hc hj

/-- A byte that has been read was there. -/
theorem readAt_bind {f : UInt8 → DomM β} (hf : ∀ ch, Inside n (max j (k + 1)) (f ch)) :
    Inside n j (readAt k >>= f) := by
  intro c hc hj
  unfold readAt
  rw [ends_bind, ends_bind, ends_get]
  cases hk : c.rest[k]? with
  | none => exact hc
  | some ch => exact hf ch c hc (max_le hj (List.getElem?_eq_some_iff.mp hk).1)

/-- An advance uses up the bytes that are known to be there. -/
theorem advance_bind {f : Unit → DomM β} (hjk : k ≤ j) (hf : Inside n (j - k) (f ())) :
    Inside n j (advance k >>= f) := by
  intro c hc hj
  unfold advance
  rw [ends_bind, ends_modify]
  refine hf _ (hc.advance (le_trans hjk hj)) ?_
  rw [List.length_drop]
  omega

end Inside

variable {n j : Nat} {α β : Type}

/-- An error is recorded at the position it is given, unless there is one already. -/
theorem fail_ends {pos : Nat} {c : ParseCtx} (hc : Within n c) (h : pos ≤ n) (msg : String)
    {Q : α → ParseCtx → Prop} : Ends (fail pos msg) c Q fun _ t => Within n t := by
  unfold fail
  rw [ends_bind, ends_modify, ends_throw]
  split
  · exact hc
  · exact ⟨hc.cursor, h⟩

/-- So a failure at a position of the text is inside it. -/
theorem fail_inside {pos : Nat} (h : pos ≤ n) (msg : String) : Inside n j (fail pos msg : DomM α) :=
  fun _ hc _ => fail_ends hc h msg

/-- `return fail(c, c.pos, ...)`. -/
theorem failHere_inside (msg : String) :
    Inside n j (do fail (← position) msg : DomM α) :=
  Inside.position_bind fun _ h => fail_inside h msg

/-- `return fail(c, c.pos - 1, ...)`. -/
theorem failBefore_inside (msg : String) :
    Inside n j (do fail ((← position) - 1) msg : DomM α) :=
  Inside.position_bind fun _ h => fail_inside (by omega) msg

/-- The count of nodes fails at the place of the cursor. -/
theorem newNode_bind {f : Unit → DomM β} (hf : Inside n j (f ())) : Inside n j (newNode >>= f) := by
  intro c hc hj
  unfold newNode
  rw [ends_bind, ends_bind, ends_get, ends_ite]
  refine ⟨fun _ => fail_ends hc ?_ _, fun _ => hf _ ⟨hc.cursor, hc.error⟩ hj⟩
  have := hc.cursor
  omega

/-- The count on its own. -/
theorem newNode_inside : Inside n j newNode := by
  have h := newNode_bind (Inside.pure () : Inside n j (Pure.pure () : DomM Unit))
  rwa [bind_pure] at h

/-- There is no more white space than text. -/
theorem whitespace_le (text : Bytes) : whitespace text ≤ text.length := by
  induction text with
  | nil => exact le_refl 0
  | cons ch rest ih =>
    rw [whitespace, List.length_cons]
    split
    · omega
    · omega

/-- If `peek` sees a byte, there is one. -/
theorem peek_bind {f : Option UInt8 → DomM β} (hnone : Inside n 0 (f none))
    (hsome : ∀ ch, Inside n 1 (f (some ch))) : Inside n j (peek >>= f) := by
  intro c hc _
  have hnext := hc.advance (whitespace_le c.rest)
  show Ends (f (c.rest.drop (whitespace c.rest)).head?)
    { c with pos := c.pos + whitespace c.rest, rest := c.rest.drop (whitespace c.rest) } _ _
  cases hr : (c.rest.drop (whitespace c.rest)).head? with
  | none => exact hnone _ hnext (Nat.zero_le _)
  | some ch =>
    refine hsome ch _ hnext (List.length_pos_iff.mpr ?_)
    rintro hnil
    rw [show c.rest.drop (whitespace c.rest) = [] from hnil] at hr
    cases hr

/-- The loop of `skipColon` fails in front of the byte it does not want; induction on its bound. -/
theorem skipColonLoop_inside (fuel : Nat) : Inside n j (skipColonLoop fuel) := by
  induction fuel generalizing j with
  | zero => exact Inside.throw _
  | succ fuel ih =>
    exact Inside.remains_bind (Inside.readAt_bind fun _ => Inside.advance_bind (by omega)
      (Inside.ite (Inside.pure _) (Inside.ite ih (failBefore_inside _)))) (failHere_inside _)

/-! ### Strings -/

/-- The digits are read where they are, and the cursor stays. -/
theorem hex4_bind {start : Nat} {f : Option Nat → DomM β} (hf : ∀ o, Inside n j (f o)) :
    Inside n j (hex4 start >>= f) := by
  have hmono : ∀ (o : Option Nat) {k : Nat}, j ≤ k → Inside n k (f o) := fun o _ h => (hf o).mono h
  simp only [hex4, bind_assoc, pure_bind]
  exact Inside.readAt_bind fun _ => Inside.readAt_bind fun _ => Inside.readAt_bind fun _ =>
    Inside.readAt_bind fun _ => hmono _ (by omega)

/-- A low surrogate has been read where there are six bytes. -/
theorem lowSurrogate_bind {f : Option Nat → DomM β} (hnone : Inside n 0 (f none))
    (hsome : ∀ low, Inside n 6 (f (some low))) : Inside n j (lowSurrogate >>= f) := by
  have hno : ∀ {k : Nat}, Inside n k (f none) := hnone.mono (Nat.zero_le _)
  unfold lowSurrogate
  rw [bind_assoc]
  refine Inside.remains_bind ?_ hno
  simp only [if_true, bind_assoc]
  refine Inside.readAt_bind fun b => ?_
  by_cases hb : b = 0x5C
  swap
  · rw [if_neg hb]
    exact hno
  rw [if_pos hb, bind_assoc]
  refine Inside.readAt_bind fun b => ?_
  by_cases hb : b = 0x75
  swap
  · rw [if_neg hb]
    exact hno
  rw [if_pos hb, bind_assoc]
  refine hex4_bind fun o => ?_
  cases o with
  | none => exact hno
  | some low =>
    show Inside n _ (f (if 0xDC00 ≤ low ∧ low ≤ 0xDFFF then some low else none))
    by_cases hlow : 0xDC00 ≤ low ∧ low ≤ 0xDFFF
    · rw [if_pos hlow]
      exact (hsome low).mono (by omega)
    · rw [if_neg hlow]
      exact hno

/-- An escape of four digits, and the second half of a pair. -/
theorem unicodeEscape_inside : Inside n j unicodeEscape := by
  refine Inside.remains_bind (hex4_bind fun o => ?_) (failHere_inside _)
  cases o with
  | none => exact failHere_inside _
  | some cp =>
    exact Inside.advance_bind (by omega) (Inside.ite
      (lowSurrogate_bind (failHere_inside _) fun _ => Inside.advance_bind (le_refl 6) (Inside.pure _))
      (Inside.ite (failHere_inside _) (Inside.pure _)))

/-- The failure is at the letter of the escape, which has been read. -/
theorem escapeBody_inside : Inside n j escapeBody := by
  refine Inside.remains_bind (Inside.readAt_bind fun e => Inside.advance_bind (by omega) ?_)
    (failHere_inside _)
  rw [escape_switch]
  cases simpleEscape e with
  | none => exact Inside.ite unicodeEscape_inside (failBefore_inside _)
  | some d => exact Inside.pure _

/-- A sequence is no longer than the text it stands in. -/
theorem utf8Len_le (text : Bytes) : utf8Len text ≤ text.length := by
  by_cases h : utf8Len text = 0
  · omega
  · obtain ⟨cp, rest, -, htext, hlen⟩ := exists_of_utf8Len h
    rw [hlen, htext, List.length_append]
    omega

/-- A character; what is refused of it is refused within the text. -/
theorem decodeChar_inside (ch : UInt8) : Inside n 1 (decodeChar ch) := by
  refine Inside.ite (Inside.advance_bind (le_refl 1) escapeBody_inside)
    (Inside.ite (failHere_inside _) (Inside.ite ?_ (Inside.advance_bind (le_refl 1) (Inside.pure _))))
  intro c hc hj
  rw [ends_bind, ends_get]
  show Ends (if utf8Len c.rest = 0 then _ else _) c _ _
  rw [ends_ite]
  exact ⟨fun _ => failHere_inside _ c hc hj, fun _ => hc.advance (utf8Len_le c.rest)⟩

/-- The loop over a string; induction on its bound. -/
theorem decodeStringBody_inside (stopAtQuote : Bool) (fuel : Nat) (out : Bytes) :
    Inside n j (decodeStringBody stopAtQuote fuel out) := by
  induction fuel generalizing j out with
  | zero => exact Inside.throw _
  | succ fuel ih =>
    exact Inside.remains_bind (Inside.readAt_bind fun _ => Inside.ite
      (Inside.advance_bind (by omega) (Inside.pure _))
      (((decodeChar_inside _).mono (by omega)).bind fun _ => ih _))
      (Inside.ite (c := stopAtQuote = true) (failHere_inside _) (Inside.pure _))

/-- A string, from its first quote. -/
theorem extractString_inside : Inside n j extractString := by
  intro c hc hj
  unfold extractString
  rw [ends_bind, ends_get]
  cases hr : c.rest with
  | nil => exact failHere_inside _ c hc hj
  | cons ch rest =>
    refine Inside.ite (j := 1) (failHere_inside _) ?_ c hc ?_
    · exact Inside.advance_bind (le_refl 1)
        (Inside.get_bind fun _ _ => decodeStringBody_inside _ _ _)
    · rw [hr]
      exact Nat.succ_le_succ (Nat.zero_le _)

/-- And with the charge for it. -/
theorem parseString_inside : Inside n j parseString :=
  extractString_inside.bind fun _ => newNode_inside.bind fun _ => Inside.pure _

/-! ### Keywords and numbers -/

/-- A word has been read where there is room for it. -/
theorem startsWith_bind {word : Bytes} {f : Bool → DomM β} (htrue : Inside n word.length (f true))
    (hfalse : Inside n 0 (f false)) : Inside n j (startsWith word >>= f) := by
  have hmatch : ∀ (w : Bytes) (k i : Nat), word.length ≤ i →
      Inside n i (matchWord k w >>= f) := by
    intro w
    induction w with
    | nil => exact fun _ _ hi => htrue.mono hi
    | cons b w ih =>
      intro k i hi
      rw [matchWord, bind_assoc]
      refine Inside.readAt_bind fun ch => ?_
      by_cases hch : ch = b
      · rw [if_pos hch]
        exact ih _ _ (by omega)
      · rw [if_neg hch]
        exact hfalse.mono (Nat.zero_le _)
  unfold startsWith
  rw [bind_assoc]
  exact Inside.remains_bind (hmatch _ _ _ (by omega)) (hfalse.mono (Nat.zero_le _))

/-- The keywords, one after the other; none at the cursor is a failure there. -/
theorem parseKeywordFrom_inside (kws : List (Bytes × Pjson)) : Inside n j (parseKeywordFrom kws) := by
  induction kws generalizing j with
  | nil => exact failHere_inside _
  | cons kw kws ih =>
    exact startsWith_bind (Inside.advance_bind (le_refl _) (newNode_inside.bind fun _ => Inside.pure _))
      ih

/-- The scanner's own position stays within the buffer. -/
theorem scan_within (fuel : Nat) :
    Keeps (fun s : Span => s.pos + s.rest.length = n) (scanJsonNumber spanCursor fuel) := by
  refine scanJsonNumber_keeps (fun s hs => hs) (fun s hs => ?_) fuel
  obtain ⟨pos, rest⟩ := s
  cases rest with
  | nil => exact hs
  | cons ch rest =>
    have hlen : pos + (rest.length + 1) = n := hs
    show pos + 1 + rest.length = n
    omega

/-- A number: the scan fails where it stops, the conversion where the number starts. -/
theorem parseNumber_inside (lib : NumericLibrary) : Inside n j (parseNumber lib) := by
  intro c hc hj
  have hscan := scan_within (n := n) (c.rest.length + 1) ⟨c.pos, c.rest⟩ hc.cursor
  unfold parseNumber
  rw [ends_bind, ends_get]
  unfold Ends at hscan
  cases hrun : (scanJsonNumber spanCursor (c.rest.length + 1)).run ⟨c.pos, c.rest⟩ with
  | error e scan =>
    rw [hrun] at hscan
    cases e with
    | scan message => exact fail_inside (by dsimp only at hscan; omega) _ c hc hj
    | _ => exact hc
  | ok r scan =>
    rw [hrun] at hscan
    obtain ⟨text, isFloat⟩ := r
    dsimp only
    cases convertNumberToken lib text isFloat c.numberPolicy with
    | error message => exact fail_inside (by have := hc.cursor; omega) _ c hc hj
    | ok number =>
      refine (newNode_inside.bind fun _ => ?_) c hc hj
      exact fun c' hc' _ => ⟨hscan, hc'.error⟩

/-! ### Containers and values -/

/-- The loop over the elements of an array; induction on its bound. -/
theorem arrayLoop_inside {value : DomM Pjson} (hvalue : Inside n 1 value) (fuel : Nat)
    (expectValue any : Bool) (arr : List Pjson) :
    Inside n j (arrayLoop value fuel expectValue any arr) := by
  induction fuel generalizing j expectValue any arr with
  | zero => exact Inside.throw _
  | succ fuel ih =>
    exact peek_bind (failHere_inside _) fun _ => Inside.ite
      (Inside.ite (failHere_inside _) (Inside.advance_bind (le_refl 1) (Inside.pure _)))
      (Inside.ite (Inside.ite (failHere_inside _) (Inside.advance_bind (le_refl 1) (ih _ _ _)))
        (Inside.ite (failHere_inside _) (hvalue.bind fun _ => ih _ _ _)))

/-- And over the members of an object. A repeated name is a failure where the name starts. -/
theorem objectLoop_inside {value : DomM Pjson} (hvalue : Inside n 0 value) (fuel : Nat)
    (expectMember any : Bool) (obj : List (Bytes × Pjson)) :
    Inside n j (objectLoop value fuel expectMember any obj) := by
  induction fuel generalizing j expectMember any obj with
  | zero => exact Inside.throw _
  | succ fuel ih =>
    refine peek_bind (failHere_inside _) fun _ => Inside.ite
      (Inside.ite (failHere_inside _) (Inside.advance_bind (le_refl 1) (Inside.pure _)))
      (Inside.ite (Inside.ite (failHere_inside _) (Inside.advance_bind (le_refl 1) (ih _ _ _)))
        (Inside.ite (Inside.ite (failHere_inside _) (Inside.position_bind fun keyOffset hkey =>
          extractString_inside.bind fun mkey => Inside.get_bind fun c _ =>
          Inside.ite (fail_inside hkey _) ?_)) (failHere_inside _)))
    refine Inside.bind (Inside.get_bind fun _ _ => skipColonLoop_inside _) fun _ =>
      hvalue.bind fun val => Inside.ite ?_ (ih _ _ _)
    exact Inside.ite (ih _ _ _) (ih _ _ _)

/-- The level of nesting is none of the cursor's business. -/
theorem container_inside {body : DomM Pjson} (hbody : Inside n 0 body) :
    Inside n 1 (container body) := by
  have hleave : ∀ {c}, Within n c → Within n (leave c) := fun hc => ⟨hc.cursor, hc.error⟩
  have hinner : Inside n 1 (do
      let c ← get
      if c.depth > c.maxDepth then fail c.pos "maximum nesting depth exceeded"
      else
        newNode
        advance 1
        body) :=
    Inside.get_bind fun c hc => Inside.ite (fail_inside (by have := hc.cursor; omega) _)
      (newNode_bind (Inside.advance_bind (le_refl 1) hbody))
  intro c hc hj
  unfold container
  rw [ends_bind, ends_modify, ends_bind, ends_onError]
  refine (hinner { c with depth := c.depth + 1 } ⟨hc.cursor, hc.error⟩ hj).mono (fun v t ht => ?_) fun _ _ ht => hleave ht
  exact hleave ht

/-- A value; induction on the levels of nesting that are left. -/
theorem parseValue_inside (lib : NumericLibrary) (level : Nat) : Inside n j (parseValue lib level) := by
  induction level generalizing j with
  | zero => exact Inside.throw _
  | succ level ih =>
    exact peek_bind (failHere_inside _) fun _ => Inside.ite parseString_inside
      (Inside.ite (container_inside (Inside.get_bind fun _ _ => objectLoop_inside ih _ _ _ _))
        (Inside.ite (container_inside (Inside.get_bind fun _ _ => arrayLoop_inside ih _ _ _ _))
          (Inside.ite (parseNumber_inside lib) (parseKeywordFrom_inside _))))

end Dom

/-! ## The four entry points -/

/-- The record points at an offset of the text, not behind the byte limit, with the line and the
    column of that offset. -/
structure Located (src : Bytes) (opts : ParserOptions) (e : ParseError) : Prop where
  offset_le : e.offset ≤ src.length
  within : opts.maxInputBytes ≠ 0 → e.offset ≤ opts.maxInputBytes
  line : e.line = sourceLine src e.offset
  column : e.column = sourceColumn src e.offset

namespace Located

variable {src : Bytes} {opts : ParserOptions}

/-- The record that no failure has touched. -/
theorem success : Located src opts {} := ⟨Nat.zero_le _, fun _ => Nat.zero_le _, rfl, rfl⟩

/-- The batch computation over the bytes that were kept. -/
theorem setParseError {kept : Bytes} {offset : Nat} (hkept : kept <+: src)
    (hoffset : offset ≤ kept.length) (hlimit : opts.maxInputBytes ≠ 0 → offset ≤ opts.maxInputBytes)
    (message : String) (code : ParseErrorCode) :
    Located src opts (setParseError kept offset message code) := by
  obtain ⟨rest, rfl⟩ := hkept
  have hcoords := lineAndColumn_eq hoffset
  refine ⟨?_, hlimit, ?_, ?_⟩
  · rw [List.length_append]
    exact Nat.le_add_right_of_le hoffset
  · exact (congrArg Prod.fst hcoords).trans (sourceLine_append hoffset).symm
  · exact (congrArg Prod.snd hcoords).trans (sourceColumn_append hoffset).symm

end Located

/-- What the DOM parser reports. -/
theorem Dom.parseTop_located (lib : NumericLibrary) (opts : ParserOptions) {src kept : Bytes}
    (hkept : kept <+: src) : Located src opts (Dom.parseTop lib opts kept).2 := by
  have hstart : Within kept.length (initial opts kept) := ⟨Nat.zero_add _, Nat.zero_le _⟩
  have hvalue := parseValue_inside (j := 0) lib ((initial opts kept).maxDepth + 1)
    (initial opts kept) hstart (Nat.zero_le _)
  unfold parseTop
  split_ifs with hlimit
  · exact Located.setParseError hkept (by omega) (fun _ => le_refl _) _ _
  have hfits : ∀ {n}, n ≤ kept.length → opts.maxInputBytes ≠ 0 → n ≤ opts.maxInputBytes :=
    fun _ _ => by omega
  unfold Ends at hvalue
  dsimp only
  cases hrun : (parseValue lib ((initial opts kept).maxDepth + 1)).run (initial opts kept) with
  | error e c =>
    rw [hrun] at hvalue
    exact Located.setParseError hkept hvalue.error (hfits hvalue.error) _ _
  | ok v c =>
    rw [hrun] at hvalue
    have hpeek := peek_bind (f := fun _ => Pure.pure ()) (n := kept.length) (j := 0)
      (Inside.pure _) (fun _ => Inside.pure _) c hvalue (Nat.zero_le _)
    rw [ends_bind] at hpeek
    unfold Ends at hpeek
    dsimp only
    cases hrun : peek.run c with
    | error e c => exact Located.success
    | ok o c =>
      rw [hrun] at hpeek
      have hpos : c.pos ≤ kept.length := by
        have := hpeek.cursor
        omega
      cases o with
      | none => exact Located.success
      | some ch => exact Located.setParseError hkept hpos (hfits hpos) _ _

/-- A read takes bytes from the front, or it throws and the buffer has nothing left to deliver. -/
theorem StreamBuf.sgetnFrom_content (throws : Bool) (n : Nat) (area : Bytes) (refills : List Chunk) :
    match sgetnFrom throws n area refills with
    | (some got, b) => got ++ b.content = content ⟨area, refills, throws⟩
    | (none, b) => b.content = [] := by
  induction refills generalizing n area with
  | nil =>
    rw [sgetnFrom]
    split_ifs
    · simp [content]
    · rfl
  | cons chunk refills ih =>
    have hc : content ⟨area, chunk :: refills, throws⟩ =
        area ++ content ⟨chunk.val, refills, throws⟩ := rfl
    rw [sgetnFrom, hc]
    split_ifs
    · show area.take n ++ (area.drop n ++ content ⟨chunk.val, refills, throws⟩) = _
      rw [← List.append_assoc, List.take_append_drop]
    · have htail := ih (n - area.length) chunk.val
      rcases hr : sgetnFrom throws (n - area.length) chunk.val refills with ⟨got, b⟩
      rw [hr] at htail
      cases got with
      | none => exact htail
      | some got =>
        show (area ++ got) ++ b.content = _
        rw [List.append_assoc, show got ++ b.content = _ from htail]

/-- What a read hands over and what it leaves are the beginning of what was there. -/
theorem IStream.read_content (s : IStream) (n : Nat) :
    (s.read n).1 ++ (s.read n).2.rdbuf.content <+: s.rdbuf.content := by
  have hget := StreamBuf.sgetnFrom_content s.rdbuf.throws n s.rdbuf.area s.rdbuf.refills
  rw [read]
  split
  · rcases hr : s.rdbuf.sgetn n with ⟨got, b⟩
    rw [show StreamBuf.sgetnFrom s.rdbuf.throws n s.rdbuf.area s.rdbuf.refills = (got, b) from hr]
      at hget
    cases got with
    | none =>
      show [] ++ b.content <+: _
      rw [show b.content = [] from hget]
      exact List.nil_prefix
    | some got =>
      have heq : got ++ b.content = s.rdbuf.content := hget
      rw [← heq]
      dsimp only
      split
      · exact List.prefix_rfl
      · exact List.prefix_rfl
  · exact List.prefix_rfl

/-- What the loop has read is the front of the stream, within the limit; what it keeps when the
    limit is crossed reaches it. -/
theorem readContent_reads {opts : ParserOptions} {src : Bytes} (fuel : Nat) {content : Bytes}
    {aIn : IStream} (h : content ++ aIn.rdbuf.content <+: src)
    (hfit : opts.maxInputBytes ≠ 0 → content.length ≤ opts.maxInputBytes) :
    match readContent opts fuel content aIn with
    | .error kept => kept <+: src ∧ opts.maxInputBytes ≤ kept.length
    | .ok (content, _) =>
      content <+: src ∧ (opts.maxInputBytes ≠ 0 → content.length ≤ opts.maxInputBytes) := by
  have hfront : content <+: src := (List.prefix_append _ _).trans h
  induction fuel generalizing content aIn with
  | zero => exact ⟨hfront, hfit⟩
  | succ fuel ih =>
    rw [readContent]
    cases hgood : aIn.good with
    | false => exact ⟨hfront, hfit⟩
    | true =>
      have hread := aIn.read_content 8192
      rcases hr : aIn.read 8192 with ⟨chunk, s⟩
      rw [hr] at hread
      dsimp only at hread
      have hnext : (content ++ chunk) ++ s.rdbuf.content <+: src := by
        rw [List.append_assoc]
        exact ((List.prefix_append_right_inj content).mpr hread).trans h
      have hchunk : content ++ chunk <+: src := (List.prefix_append _ _).trans hnext
      rw [if_pos rfl]
      dsimp only
      split_ifs with hzero hlimit hroom
      · rw [List.length_eq_zero_iff.mp hzero, List.append_nil] at hnext
        exact ih hnext hfit hfront
      · refine ⟨List.IsPrefix.trans ?_ hchunk, ?_⟩
        · exact (List.prefix_append_right_inj content).mpr (List.take_prefix _ _)
        · rw [List.length_append, List.length_take]
          omega
      · exact ⟨hfront, by omega⟩
      · refine ih hnext (fun hne => ?_) hchunk
        have := hfit hne
        rw [List.length_append]
        omega

/-- The text that has been read from a stream is the beginning of what it holds. -/
theorem parseStream_located (lib : NumericLibrary) (opts : ParserOptions) (aIn : IStream) :
    Located aIn.rdbuf.content opts (parseStream lib opts aIn).2 := by
  have hread := @readContent_reads opts aIn.rdbuf.content (aIn.rdbuf.content.length + 1) [] aIn
    List.prefix_rfl fun _ => Nat.zero_le _
  rw [parseStream]
  cases hr : readContent opts (aIn.rdbuf.content.length + 1) [] aIn with
  | error kept =>
    rw [hr] at hread
    exact Located.setParseError hread.1 hread.2 (fun _ => le_refl _) _ _
  | ok r =>
    obtain ⟨content, s⟩ := r
    rw [hr] at hread
    dsimp only
    split
    · exact Located.setParseError hread.1 (le_refl _) hread.2 _ _
    · exact Dom.parseTop_located lib opts hread.1

/-! ### The SAX parser -/

namespace Sax

variable {κ : Type} [SaxCursor κ] [CountingCursor κ] {p : SaxParser} {src : Bytes}

/-- Taking a byte moves the cursor by one at most. -/
theorem get_le (c : κ) : SaxCursor.position (SaxCursor.get c).2 ≤ SaxCursor.position c + 1 := by
  cases hg : (SaxCursor.get c).1 with
  | none =>
    rw [(CountingCursor.get_none hg).2.1]
    exact Nat.le_succ _
  | some ch => exact le_of_eq (CountingCursor.get_some hg).2.1

/-- The cursor counts right and is not behind the limit. -/
structure Tracked (p : SaxParser) (src : Bytes) (cur : κ) : Prop extends Placed src cur where
  within : p.opts.maxInputBytes ≠ 0 → SaxCursor.position cur ≤ p.opts.maxInputBytes

/-- Recording a failure at a cursor. -/
theorem Tracked.located {cur : κ} (h : Tracked p src cur) (message : String) :
    Located src p.opts (errorAt cur message) := ⟨h.bounded, h.within, h.line, h.column⟩

/-- The invariant of a run: the cursor counts right, and so does the record. -/
def Tracks (p : SaxParser) (src : Bytes) (s : SaxState κ) : Prop :=
  Tracked p src s.cur ∧ Located src p.opts s.err

/-- Every byte read and every error reported keep the cursor at a place of the text. -/
theorem tracks_invariant (p : SaxParser) (src : Bytes) :
    Invariant p (Tracks (κ := κ) p src) (Tracked p src) where
  known h := h.1
  peek h := ⟨⟨h.1.peek, by rw [CountingCursor.peek_position]; exact h.1.within⟩, h.2⟩
  get {s} h hlimit := by
    refine ⟨⟨h.1.get, fun hne => ?_⟩, h.2⟩
    have hlt : ¬ SaxCursor.position _ ≥ p.opts.maxInputBytes := fun hge => hlimit ⟨hne, hge⟩
    have hmove := get_le s.cur
    show SaxCursor.position (SaxCursor.get s.cur).2 ≤ _
    omega
  fail h hc message := ⟨h.1, hc.located message⟩
  refuse h hlimit := by
    refine ⟨h.1, ?_⟩
    have heq := le_antisymm (h.1.within hlimit.1) hlimit.2
    have hat := h.1.located "input exceeds maxInputBytes"
    rw [errorAt, heq] at hat
    exact hat
  charge h _ := h
  tell h _ := h

/-- Whatever the cursor, as long as it counts. -/
theorem parseDocument_located (lib : NumericLibrary) {cur : κ} (hcur : Placed src cur)
    (hzero : SaxCursor.position cur = 0) :
    Located src p.opts (parseDocument p lib cur).error := by
  have hrun := document_keeps (tracks_invariant p src) lib { cur := cur }
    ⟨⟨hcur, fun _ => by rw [hzero]; exact Nat.zero_le _⟩, Located.success⟩
  unfold Ends at hrun
  unfold parseDocument
  cases hr : (document p lib).run { cur := cur } with
  | ok a s =>
    rw [hr] at hrun
    exact hrun.2
  | error e s =>
    rw [hr] at hrun
    -- an exception is reported where the cursor stands
    have hthrown : ∀ message code, Located src p.opts (failNoThrow s message code).error :=
      fun message _ => let h := hrun.1.located message; ⟨h.offset_le, h.within, h.line, h.column⟩
    cases e with
    | cancelled => exact hthrown _ _
    | handlerThrew badAlloc => cases badAlloc <;> exact hthrown _ _
    | _ => exact hrun.2

end Sax

/-- **The SAX parser over a buffer.** -/
theorem parseSax_located (lib : NumericLibrary) (opts : ParserOptions) (handler : SaxHandler)
    (src : Bytes) : Located src opts (parseSax lib opts handler src).error := by
  unfold parseSax
  split_ifs with hlimit
  · exact Located.setParseError List.prefix_rfl (by omega) (fun _ => le_refl _) _ _
  · exact Sax.parseDocument_located (κ := BufferSaxCursor) (p := ⟨handler, opts⟩) lib
      ⟨Nat.zero_le _, rfl, Coordinates.at_zero src⟩ rfl

/-- **And over a stream**, in chunks of any size. -/
theorem parseSaxStream_located (lib : NumericLibrary) (opts : ParserOptions) (handler : SaxHandler)
    (aIn : IStream) :
    Located aIn.rdbuf.content opts (parseSaxStream lib opts handler aIn).error :=
  Sax.parseDocument_located (κ := StreamSaxCursor) (p := ⟨handler, opts⟩) lib
    ⟨Nat.zero_le _, rfl, Coordinates.at_zero _⟩ rfl

/-- A cursor after some calls of `get` (true) and `peek` (false). -/
def SaxCursor.after {κ : Type} [SaxCursor κ] (c : κ) (calls : List Bool) : κ :=
  calls.foldl (fun c take => if take then (SaxCursor.get c).2 else (SaxCursor.peek c).2) c

/-- A cursor that is at a place of the text stays at one, whatever it is asked for. -/
theorem Placed.after {κ : Type} [SaxCursor κ] [CountingCursor κ] {src : Bytes} {c : κ}
    (h : Placed src c) (calls : List Bool) : Placed src (SaxCursor.after c calls) := by
  induction calls generalizing c with
  | nil => exact h
  | cons take calls ih =>
    cases take with
    | true => exact ih h.get
    | false => exact ih h.peek

/-- A cursor that does not fail gets to every offset. -/
theorem SaxCursor.position_after {κ : Type} [SaxCursor κ] [LawfulSaxCursor κ] (n : Nat) {c : κ}
    (h : LawfulSaxCursor.Good c) (hn : n ≤ (LawfulSaxCursor.rest c).length) :
    SaxCursor.position (SaxCursor.after c (List.replicate n true)) = SaxCursor.position c + n := by
  induction n generalizing c with
  | zero => rfl
  | succ n ih =>
    cases hr : LawfulSaxCursor.rest c with
    | nil =>
      rw [hr] at hn
      cases hn
    | cons ch rest =>
      obtain ⟨-, hgood, hrest, hpos⟩ := LawfulSaxCursor.get_cons h hr
      rw [hr, List.length_cons] at hn
      have htail := ih hgood (by rw [hrest]; omega)
      rw [hpos] at htail
      rw [List.replicate_succ]
      exact htail.trans (by omega)

/-- The coordinates a cursor shows are those the batch computation finds for its offset. -/
theorem Placed.lineAndColumn {κ : Type} [SaxCursor κ] [CountingCursor κ] {src : Bytes} {c : κ}
    (h : Placed src c) :
    lineAndColumn src (SaxCursor.position c) = (SaxCursor.line c, SaxCursor.column c) := by
  rw [lineAndColumn_eq h.bounded, h.line, h.column]

/-- The cursors `parseSax` and `parseSaxStream` start with. -/
def saxCursor (src : Bytes) : BufferSaxCursor := { rest := src }

def saxStreamCursor (aIn : IStream) : StreamSaxCursor := { rdbuf := aIn.rdbuf, bad := aIn.badbit }

/-- **Every front end reports an offset of its input with the line and the column of that offset**,
    and the cursors count at every offset what `lineAndColumn` computes for it. -/
theorem reports_located (lib : NumericLibrary) (opts : ParserOptions) (handler : SaxHandler) :
    (∀ src, Located src opts (parse lib opts src).2) ∧
    (∀ aIn, Located aIn.rdbuf.content opts (parseStream lib opts aIn).2) ∧
    (∀ src, Located src opts (parseSax lib opts handler src).error) ∧
    (∀ aIn, Located aIn.rdbuf.content opts (parseSaxStream lib opts handler aIn).error) ∧
    (∀ src calls, let c := SaxCursor.after (saxCursor src) calls
      lineAndColumn src (SaxCursor.position c) = (SaxCursor.line c, SaxCursor.column c)) ∧
    (∀ src n, n ≤ src.length →
      SaxCursor.position (SaxCursor.after (saxCursor src) (List.replicate n true)) = n) ∧
    (∀ aIn calls, let c := SaxCursor.after (saxStreamCursor aIn) calls
      lineAndColumn aIn.rdbuf.content (SaxCursor.position c) =
        (SaxCursor.line c, SaxCursor.column c)) ∧
    (∀ aIn src n, aIn.Reliable src → n ≤ src.length →
      SaxCursor.position (SaxCursor.after (saxStreamCursor aIn) (List.replicate n true)) = n) := by
  have hbuffer : ∀ src, Placed src (saxCursor src) := fun src =>
    ⟨Nat.zero_le _, rfl, Coordinates.at_zero src⟩
  have hstream : ∀ aIn, Placed aIn.rdbuf.content (saxStreamCursor aIn) := fun _ =>
    ⟨Nat.zero_le _, rfl, Coordinates.at_zero _⟩
  refine ⟨fun src => Dom.parseTop_located lib opts List.prefix_rfl, parseStream_located lib opts,
    parseSax_located lib opts handler, parseSaxStream_located lib opts handler,
    fun src calls => ((hbuffer src).after calls).lineAndColumn, fun src n hn => ?_,
    fun aIn calls => ((hstream aIn).after calls).lineAndColumn, fun aIn src n h hn => ?_⟩
  · exact (SaxCursor.position_after n (c := saxCursor src) trivial hn).trans (Nat.zero_add n)
  · have hbad : aIn.badbit = false := by
      have := h.good
      simp only [IStream.good, Bool.and_eq_true, Bool.not_eq_true'] at this
      exact this.2
    have hgood : LawfulSaxCursor.Good (saxStreamCursor aIn) :=
      ⟨h.throws, hbad, rfl, fun he => by cases he⟩
    exact (SaxCursor.position_after n hgood (by rw [← h.content] at hn; exact hn)).trans
      (Nat.zero_add n)

end ByteDance
