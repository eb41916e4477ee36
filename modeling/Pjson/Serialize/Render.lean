/-
  The text of a value, and that the traversal writes it.

  `render` is the text by recursion on the value, `none` where a string is no UTF-8, a number is
  refused or an indentation overflows.  `writeValueTo_emits` says that the stack machine writes
  exactly this text to any lawful sink: what a stack still has to write (`renderStack`) is what a
  round writes and then what its new stack has to write, and each round uses up one unit of
  `stackWork`.  `toString_ok_iff` reads the result of `toString` off it.
-/
import Pjson.Serialize.Writer

namespace ByteDance

open Destination

namespace Serialize

/-! ## The text -/

/-- The characters of a string between its quotes. -/
def escaped (bEscapeNonAscii : Bool) : Bytes → Option Bytes
  | [] => some []
  | ch :: rest =>
    match shortEscape ch with
    | some escape => Option.cat (some escape) (escaped bEscapeNonAscii rest)
    | none =>
      if ch < 0x20 then
        Option.cat (some (unicodeEscape ch.toNat)) (escaped bEscapeNonAscii rest)
      else if ch < 0x80 then Option.cat (some [ch]) (escaped bEscapeNonAscii rest)
      else
        let byteCount := utf8Len (ch :: rest)
        let next := rest.drop (byteCount - 1)
        if byteCount = 0 then none
        else if bEscapeNonAscii = false then
          Option.cat (some ((ch :: rest).take byteCount)) (escaped bEscapeNonAscii next)
        else
          let codePoint := sequenceCodePoint byteCount ch rest
          if codePoint ≤ 0xFFFF then
            Option.cat (some (unicodeEscape codePoint)) (escaped bEscapeNonAscii next)
          else
            Option.cat (some (unicodeEscape (0xD800 + ((codePoint - 0x10000) >>> 10))))
              (Option.cat (some (unicodeEscape (0xDC00 + ((codePoint - 0x10000) &&& 0x3FF))))
                (escaped bEscapeNonAscii next))
termination_by s => s.length
decreasing_by all_goals simp only [List.length_cons, List.length_drop]; omega

def quoted (opts : SerializeOptions) (s : Bytes) : Option Bytes :=
  Option.cat (some [0x22]) (Option.cat (escaped opts.escapeNonAscii s) (some [0x22]))

section Text

variable (admits : Nat → Bool)

def indentation (depth : Nat) (opts : SerializeOptions) : Option Bytes :=
  if admits (depth * opts.indentWidth) then
    some (List.replicate (depth * opts.indentWidth)
      (if opts.indentCharacter = 0x09 then 0x09 else 0x20))
  else none

/-- What separates the tokens of a container. -/
def newLine (opts : SerializeOptions) (depth : Nat) : Option Bytes :=
  if opts.pretty then Option.cat (some [0x0A]) (indentation admits depth opts) else some []

def renderDouble (d2s : Binary64 → Bytes) (opts : SerializeOptions) (d : Binary64) :
    Option Bytes :=
  if d.isFinite = false then
    match opts.nonFinite with
    | .RejectNonFinite => none
    | .NonFiniteToNull => some nullText
    | .NonFiniteToString => some (nonFiniteText d)
  else some (formatDouble d2s d)

/-- The key of a member, with the colon. -/
def renderKey (opts : SerializeOptions) : Option Bytes → Option Bytes
  | none => some []
  | some key => Option.cat (some [0x22]) (Option.cat (escaped opts.escapeNonAscii key)
      (some (if opts.pretty then [0x22, 0x3A, 0x20] else [0x22, 0x3A])))

/-- The comma in front of every child but the first. -/
def comma (first : Bool) : Option Bytes := some (if first then [] else [0x2C])

mutual
/-- **The text of a value** at a depth, with the indentations that are admitted. -/
def render (d2s : Binary64 → Bytes) (opts : SerializeOptions) (depth : Nat) :
    Pjson → Option Bytes
  | .jsonNull => some nullText
  | .jsonString s => quoted opts s
  | .jsonNumberInt n => some (toDecimal n.toInt)
  | .jsonNumberUInt n => some (toDecimal n.toNat)
  | .jsonNumberDouble d => renderDouble d2s opts d
  | .jsonBoolean b => some (if b then trueText else falseText)
  | .jsonArray [] => some [0x5B, 0x5D]
  | .jsonArray (x :: xs) =>
    Option.cat (some [0x5B]) (Option.cat (renderElements d2s opts depth true (x :: xs))
      (Option.cat (newLine admits opts depth) (some [0x5D])))
  | .jsonObject [] => some [0x7B, 0x7D]
  | .jsonObject (m :: ms) =>
    Option.cat (some [0x7B]) (Option.cat (renderMembers d2s opts depth true (m :: ms))
      (Option.cat (newLine admits opts depth) (some [0x7D])))
/-- The children of an array at a depth. -/
def renderElements (d2s : Binary64 → Bytes) (opts : SerializeOptions) (depth : Nat)
    (first : Bool) : List Pjson → Option Bytes
  | [] => some []
  | x :: xs =>
    Option.cat (comma first) (Option.cat (newLine admits opts (depth + 1))
      (Option.cat (render d2s opts (depth + 1) x) (renderElements d2s opts depth false xs)))
/-- The members of an object at a depth. -/
def renderMembers (d2s : Binary64 → Bytes) (opts : SerializeOptions) (depth : Nat)
    (first : Bool) : List (Bytes × Pjson) → Option Bytes
  | [] => some []
  | (key, x) :: ms =>
    Option.cat (comma first) (Option.cat (newLine admits opts (depth + 1))
      (Option.cat (renderKey opts (some key))
        (Option.cat (render d2s opts (depth + 1) x) (renderMembers d2s opts depth false ms))))
end

end Text

/-! ## The parts of the traversal -/

section Emission

variable {σ : Type} [Sink σ] (D : LawfulSink σ) {α : Type} {bad : α → Prop} {a : α}
  {y : SinkM σ α} {o : Option Bytes}

/-- The check after a write. -/
theorem check_emits {c : α} (hc : bad c) (hy : D.Emits bad y a o) :
    D.Emits bad (do if !(Sink.good (← get)) then return c else y) a o := by
  have h := Emits.check hc hy
  rw [D.good_eq] at h
  exact h

theorem finish_emits : D.Emits (· = false) (do return Sink.good (← get) : SinkM σ Bool) true
    (some []) := by
  have h := emits_good (D := D.toDestination) (ε := StdException)
  rw [D.good_eq] at h
  exact h

theorem writeText_emits {text : Bytes} (h : D.writable text.length) :
    D.Emits (· = false) (writeText text : SinkM σ Bool) true (some text) := by
  have h := (D.write_emits text h).seq (finish_emits D)
  rwa [Option.cat_nil_right] at h

theorem writeShort_emits {text : Bytes} (h : text.length ≤ 64) :
    D.Emits (· = false) (writeText text : SinkM σ Bool) true (some text) :=
  writeText_emits D (D.writable_short _ h)

/-- The division finds out whether the product overflows. -/
theorem indent_overflows_iff (depth width : Nat) :
    (width ≠ 0 ∧ depth > sizeMax / width) ↔ ¬ depth * width ≤ sizeMax := by
  rcases Nat.eq_zero_or_pos width with rfl | hpos
  · simp
  · rw [gt_iff_lt, Nat.div_lt_iff_lt_mul hpos, not_le]
    exact ⟨fun h => h.2, fun h => ⟨hpos.ne', h⟩⟩

theorem writeIndent_emits (depth : Nat) (opts : SerializeOptions) :
    D.Emits (· = false) (writeIndent depth opts : SinkM σ Bool) true
      (indentation D.admits depth opts) := by
  unfold writeIndent indentation
  dsimp only
  by_cases hsize : depth * opts.indentWidth ≤ sizeMax
  · rw [if_neg fun h => (indent_overflows_iff _ _).mp h hsize]
    exact D.repeat_emits _ _ hsize
  · rw [if_pos ((indent_overflows_iff _ _).mpr hsize), if_neg fun h => hsize (D.admits_le _ h)]
    exact D.fail_emits

theorem writeUnicodeEscape_emits (value : Nat) :
    D.Emits (· = false) (writeUnicodeEscape value : SinkM σ Bool) true
      (some (unicodeEscape value)) := by
  have h := (D.write_emits (unicodeEscape value) (D.writable_short 6 (by decide))).seq (finish_emits D)
  rwa [Option.cat_nil_right] at h

theorem shortEscape_length {ch : UInt8} {escape : Bytes} (h : shortEscape ch = some escape) :
    escape.length ≤ 64 := by
  unfold shortEscape at h
  split_ifs at h <;> cases h <;> decide

/-- A UTF-8 sequence is short. -/
theorem sequence_length_le (s : Bytes) : (s.take (utf8Len s)).length ≤ 64 := by
  by_cases h : utf8Len s = 0
  · simp [h]
  · obtain ⟨cp, _, _, -, hlen⟩ := exists_of_utf8Len h
    have := (Utf8.encode_length cp).2
    rw [List.length_take]
    omega

/-- The decimal text of a machine integer is short. -/
theorem toDecimal_length {n : Int} (h : n.natAbs < 10 ^ 20) : (toDecimal n).length ≤ 64 := by
  unfold toDecimal
  split_ifs with hneg
  · have := Decimal.length_numeral_le (by decide) h
    rw [List.length_cons]
    omega
  · have := Decimal.length_numeral_le (n := n.toNat) (k := 20) (by decide) (by omega)
    omega

/-- **Escaping** writes the escaped characters, or fails where there are none. -/
theorem writeEscapedTo_emits (bEscapeNonAscii : Bool) (s : Bytes) :
    D.Emits (· = false) (writeEscapedTo bEscapeNonAscii s : SinkM σ Bool) true
      (escaped bEscapeNonAscii s) := by
  fun_induction escaped bEscapeNonAscii s with
  | case1 =>
    rw [writeEscapedTo]
    exact finish_emits D
  | case2 ch rest escape hesc ih =>
    rw [writeEscapedTo, hesc]
    exact (D.write_emits escape (D.writable_short _ (shortEscape_length hesc))).seq
      (check_emits D rfl ih)
  | case3 ch rest hesc h20 ih =>
    rw [writeEscapedTo, hesc]
    simp only [if_pos h20]
    exact (writeUnicodeEscape_emits D _).branch rfl ih
  | case4 ch rest hesc h20 h80 ih =>
    rw [writeEscapedTo, hesc]
    simp only [if_neg h20, if_pos h80]
    exact (D.put_emits ch).seq (check_emits D rfl ih)
  | case5 ch rest hesc h20 h80 byteCount h0 =>
    rw [writeEscapedTo, hesc]
    simp only [if_neg h20, if_neg h80]
    rw [if_pos h0]
    exact D.invalidUtf8_emits
  | case6 ch rest hesc h20 h80 byteCount next h0 hascii ih =>
    rw [writeEscapedTo, hesc]
    simp only [if_neg h20, if_neg h80]
    rw [if_neg h0, if_pos hascii]
    exact (D.write_emits _ (D.writable_short _ (sequence_length_le _))).seq
      (check_emits D (Eq.refl false) ih)
  | case7 ch rest hesc h20 h80 byteCount next h0 hascii codePoint hbmp ih =>
    rw [writeEscapedTo, hesc]
    simp only [if_neg h20, if_neg h80]
    rw [if_neg h0, if_neg hascii, if_pos hbmp]
    exact (writeUnicodeEscape_emits D _).branch (Eq.refl false) ih
  | case8 ch rest hesc h20 h80 byteCount next h0 hascii codePoint hbmp ih =>
    rw [writeEscapedTo, hesc]
    simp only [if_neg h20, if_neg h80]
    rw [if_neg h0, if_neg hascii, if_neg hbmp]
    exact (writeUnicodeEscape_emits D _).branch (Eq.refl false)
      ((writeUnicodeEscape_emits D _).branch (Eq.refl false) ih)

theorem writeString_emits (opts : SerializeOptions) (s : Bytes) :
    D.Emits (· = false) (writeString opts s : SinkM σ Bool) true (quoted opts s) := by
  have hend := (D.put_emits 0x22).seq (finish_emits D)
  rw [Option.cat_nil_right] at hend
  exact (D.put_emits 0x22).seq (check_emits D rfl ((writeEscapedTo_emits D _ s).branch rfl hend))

theorem nonFiniteText_length (d : Binary64) : (nonFiniteText d).length ≤ 64 := by
  unfold nonFiniteText
  dsimp only
  split_ifs <;> decide

section Doubles

variable {d2s : Binary64 → Bytes} (hd2s : ∀ d, D.writable (formatDouble d2s d).length)
include hd2s

theorem writeDouble_emits (opts : SerializeOptions) (d : Binary64) :
    D.Emits (· = false) (writeDouble d2s opts d : SinkM σ Bool) true
      (renderDouble d2s opts d) := by
  unfold writeDouble renderDouble
  split_ifs
  · cases opts.nonFinite with
    | RejectNonFinite => exact D.invalidNumber_emits
    | NonFiniteToNull => exact writeShort_emits D (by decide)
    | NonFiniteToString => exact writeShort_emits D (nonFiniteText_length d)
  · exact writeText_emits D (hd2s d)

theorem writeLeaf_emits (opts : SerializeOptions) {depth : Nat} {v : Pjson}
    (h : frameOf depth v = none) :
    D.Emits (· = false) (writeLeaf d2s opts v : SinkM σ Bool) true
      (render D.admits d2s opts depth v) := by
  cases v with
  | jsonNull => exact writeShort_emits D (by decide)
  | jsonString s => exact writeString_emits D opts s
  | jsonNumberInt n =>
    refine writeShort_emits D (toDecimal_length ?_)
    have hlo := n.le_toInt
    have hhi := n.toInt_lt
    omega
  | jsonNumberUInt n =>
    refine writeShort_emits D (toDecimal_length ?_)
    have hhi := n.toNat_lt
    omega
  | jsonNumberDouble d => exact writeDouble_emits D hd2s opts d
  | jsonBoolean b => exact writeShort_emits D (by cases b <;> decide)
  | jsonArray xs =>
    cases xs with
    | nil => exact writeShort_emits D (by decide)
    | cons x xs => cases h
  | jsonObject ms =>
    cases ms with
    | nil => exact writeShort_emits D (by decide)
    | cons m ms => cases h

end Doubles

theorem onNewLine_emits (opts : SerializeOptions) (depth : Nat) {k : SinkM σ Bool}
    (hk : D.Emits (· = false) k true o) :
    D.Emits (· = false) (onNewLine opts depth k) true
      (Option.cat (newLine D.admits opts depth) o) := by
  unfold onNewLine newLine
  cases opts.pretty with
  | false =>
    rw [if_neg Bool.false_ne_true, if_neg Bool.false_ne_true, Option.cat_nil_left]
    exact hk
  | true =>
    rw [if_pos rfl, if_pos rfl, Option.cat_assoc]
    exact (D.put_emits 0x0A).seq ((writeIndent_emits D depth opts).branch (Eq.refl false) hk)

theorem afterKey_emits (opts : SerializeOptions) (key : Option Bytes) {k : SinkM σ Bool}
    (hk : D.Emits (· = false) k true o) :
    D.Emits (· = false) (afterKey opts key k) true (Option.cat (renderKey opts key) o) := by
  cases key with
  | none =>
    rw [renderKey, Option.cat_nil_left]
    exact hk
  | some key =>
    rw [renderKey, Option.cat_assoc, Option.cat_assoc]
    exact (D.put_emits 0x22).seq (check_emits D (Eq.refl false)
      ((writeEscapedTo_emits D _ key).branch (Eq.refl false)
        ((D.write_emits _ (D.writable_short _ (by split_ifs <;> decide))).seq hk)))

theorem comma_emits (first : Bool) :
    D.Emits (fun _ => True) (writeComma first : SinkM σ Unit) () (comma first) := by
  cases first with
  | false => exact D.put_emits 0x2C
  | true =>
    refine ⟨fun s bs h _ _ => ?_, fun s h => ⟨trivial, ?_, D.le_refl s⟩⟩
    · cases h
      show EStateM.Result.ok () s = .ok () (D.advance s [])
      rw [D.advance_nil]
    · exact h.resolve_right fun h => h [] rfl (D.fits_zero s)

end Emission

/-! ## The stack machine -/

/-- What is written when a container with children is opened. -/
def openBracket (frame : SerializeFrame) : UInt8 := if frame.isObject then 0x7B else 0x5B

def closeBracket (frame : SerializeFrame) : UInt8 := if frame.isObject then 0x7D else 0x5D

section Stack

variable (admits : Nat → Bool)

/-- What a frame has still to write. -/
def renderFrame (d2s : Binary64 → Bytes) (opts : SerializeOptions) (frame : SerializeFrame) :
    Option Bytes :=
  Option.cat
    (if frame.isObject then renderMembers admits d2s opts frame.depth frame.first frame.object
      else renderElements admits d2s opts frame.depth frame.first frame.array)
    (Option.cat (newLine admits opts frame.depth) (some [closeBracket frame]))

/-- What a stack has still to write. -/
def renderStack (d2s : Binary64 → Bytes) (opts : SerializeOptions) :
    List SerializeFrame → Option Bytes
  | [] => some []
  | frame :: stack => Option.cat (renderFrame admits d2s opts frame) (renderStack d2s opts stack)

end Stack

/-- The rounds a frame can still take: two for every node it will reach, and one to close it. -/
def frameWork (frame : SerializeFrame) : Nat :=
  (if frame.isObject then 2 * Pjson.nodesMembers frame.object
    else 2 * Pjson.nodesElements frame.array) + 1

def stackWork : List SerializeFrame → Nat
  | [] => 0
  | frame :: stack => frameWork frame + stackWork stack

variable {admits : Nat → Bool} {d2s : Binary64 → Bytes} {opts : SerializeOptions}

/-- Opening a container leaves its frame to write, and uses up a round. -/
theorem frameOf_some (admits : Nat → Bool) (d2s : Binary64 → Bytes) (opts : SerializeOptions) {depth : Nat} {v : Pjson} {frame : SerializeFrame}
    (h : frameOf depth v = some frame) :
    render admits d2s opts depth v = Option.cat (some [openBracket frame]) (renderFrame admits d2s opts frame) ∧
      frameWork frame + 1 = 2 * v.nodes := by
  cases v with
  | jsonArray xs =>
    cases xs with
    | nil => cases h
    | cons x xs =>
      cases h
      refine ⟨by rw [render]; rfl, ?_⟩
      simp only [frameWork, Pjson.nodes, Bool.false_eq_true, if_false]
      omega
  | jsonObject ms =>
    cases ms with
    | nil => cases h
    | cons m ms =>
      cases h
      refine ⟨by rw [render]; rfl, ?_⟩
      simp only [frameWork, Pjson.nodes, if_true]
      omega
  | _ => cases h

/-- Moving the cursor on leaves the child and the rest to write. -/
theorem nextChild_some (admits : Nat → Bool) (d2s : Binary64 → Bytes) (opts : SerializeOptions)
    {frame rest : SerializeFrame} {key : Option Bytes} {child : Pjson}
    (h : nextChild frame = some (key, child, rest)) :
    renderFrame admits d2s opts frame = Option.cat (comma frame.first)
        (Option.cat (newLine admits opts (frame.depth + 1)) (Option.cat (renderKey opts key)
          (Option.cat (render admits d2s opts (frame.depth + 1) child) (renderFrame admits d2s opts rest)))) ∧
      frameWork frame = 2 * child.nodes + frameWork rest := by
  obtain ⟨isObject, depth, first, array, object⟩ := frame
  cases isObject with
  | false =>
    cases array with
    | nil => cases h
    | cons x xs =>
      cases h
      constructor
      · simp only [renderFrame, renderElements, renderKey, closeBracket, Option.cat_assoc,
          Option.cat_nil_left, Bool.false_eq_true, if_false]
      · simp only [frameWork, Pjson.nodesElements, Bool.false_eq_true, if_false]
        omega
  | true =>
    cases object with
    | nil => cases h
    | cons m ms =>
      cases h
      constructor
      · simp only [renderFrame, renderMembers, closeBracket, Option.cat_assoc, if_true]
      · simp only [frameWork, Pjson.nodesMembers, if_true]
        omega

/-- A frame at its end has its closing bracket to write. -/
theorem nextChild_none {frame : SerializeFrame} (h : nextChild frame = none) :
    renderFrame admits d2s opts frame =
      Option.cat (newLine admits opts frame.depth) (some [closeBracket frame]) := by
  obtain ⟨isObject, depth, first, array, object⟩ := frame
  cases isObject with
  | false =>
    cases array with
    | nil => simp [renderFrame, renderElements]
    | cons x xs => cases h
  | true =>
    cases object with
    | nil => simp [renderFrame, renderMembers]
    | cons m ms => cases h

section Machine

variable {σ : Type} [Sink σ] (D : LawfulSink σ) {d2s : Binary64 → Bytes}
  (hd2s : ∀ d, D.writable (formatDouble d2s d).length)
include hd2s

/-- `_openOrEmit` writes a leaf, or opens a container, and the loop goes on with the new stack. -/
theorem openOrEmit_emits (opts : SerializeOptions) (v : Pjson)
    (depth : Nat) (stack : List SerializeFrame) {f : List SerializeFrame → SinkM σ Bool}
    {o : Option Bytes}
    (hf : D.Emits (· = false) (f ((frameOf depth v).toList ++ stack)) true
      (Option.cat (renderStack D.admits d2s opts (frameOf depth v).toList) o)) :
    D.Emits (· = false)
      (do match ← openOrEmit d2s opts v depth stack with
          | none => return false
          | some stack => f stack) true
      (Option.cat (render D.admits d2s opts depth v) o) := by
  have hfail : ∀ (c : Option (List SerializeFrame)) (t : σ), c = none → D.good t = false →
      D.Failed (· = false) t ((match c with
        | none => return false
        | some stack => f stack : SinkM σ Bool).run t) := by
    rintro c t rfl ht
    exact ⟨rfl, ht, D.le_refl t⟩
  unfold openOrEmit
  cases hframe : frameOf depth v with
  | none =>
    rw [hframe] at hf
    simp only [Option.toList_none, renderStack, Option.cat_nil_left] at hf
    have hleaf : D.Emits (· = none)
        (do return if ← writeLeaf d2s opts v then some stack else none : SinkM σ _) (some stack)
        (render D.admits d2s opts depth v) :=
      (writeLeaf_emits D hd2s opts hframe).map (g := fun ok => if ok then some stack else none)
        fun ok hok => by rw [hok]; rfl
    exact hleaf.bind hf hfail
  | some frame =>
    rw [hframe] at hf
    rw [(frameOf_some D.admits d2s opts hframe).1, Option.cat_assoc]
    simp only [Option.toList_some, renderStack, Option.cat_nil_right] at hf
    have hend : D.Emits (· = none)
        (do return if Sink.good (← get) then some (frame :: stack) else none : SinkM σ _)
        (some (frame :: stack)) (some []) :=
      (finish_emits D).map (g := fun ok => if ok then some (frame :: stack) else none)
        fun ok hok => by rw [hok]; rfl
    exact ((D.put_emits (openBracket frame)).seq hend).bind hf hfail

/-- **The loop** writes what its stack has still to write, by induction on the rounds left. -/
theorem writeFrames_emits (opts : SerializeOptions) (fuel : Nat)
    (stack : List SerializeFrame) (h : stackWork stack ≤ fuel) :
    D.Emits (· = false) (writeFrames d2s opts fuel stack : SinkM σ Bool) true
      (renderStack D.admits d2s opts stack) := by
  induction fuel generalizing stack with
  | zero =>
    cases stack with
    | nil => exact finish_emits D
    | cons frame stack =>
      simp only [stackWork, frameWork] at h
      omega
  | succ fuel ih =>
    cases stack with
    | nil => exact finish_emits D
    | cons frame stack =>
      rw [stackWork] at h
      rw [renderStack, writeFrames]
      cases hnext : nextChild frame with
      | none =>
        rw [nextChild_none hnext, Option.cat_assoc]
        have hrest : stackWork stack ≤ fuel := by
          unfold frameWork at h
          omega
        exact onNewLine_emits D opts frame.depth
          ((D.put_emits (closeBracket frame)).seq (check_emits D (Eq.refl false) (ih stack hrest)))
      | some next =>
        obtain ⟨key, child, rest⟩ := next
        obtain ⟨htext, hwork⟩ := nextChild_some D.admits d2s opts hnext
        rw [htext, Option.cat_assoc, Option.cat_assoc, Option.cat_assoc, Option.cat_assoc]
        refine (comma_emits D frame.first).seq (onNewLine_emits D opts _ (afterKey_emits D opts key
          (check_emits D (Eq.refl false) (openOrEmit_emits D hd2s opts child _ _ ?_))))
        -- the child's frame, if it has one, and the rest of its parent
        have hpos := child.nodes_pos
        cases hframe : frameOf (frame.depth + 1) child with
        | none =>
          simp only [Option.toList_none, renderStack, Option.cat_nil_left]
          exact ih (rest :: stack) (by rw [stackWork]; omega)
        | some inner =>
          have hinner := (frameOf_some D.admits d2s opts hframe).2
          simp only [Option.toList_some, renderStack, Option.cat_nil_right]
          exact ih (inner :: rest :: stack) (by rw [stackWork, stackWork]; omega)

/-- **The traversal writes the text of the value**, to every lawful sink. -/
theorem writeValueTo_emits (opts : SerializeOptions) (v : Pjson) :
    D.Emits (· = false) (writeValueTo d2s opts v : SinkM σ Bool) true (render D.admits d2s opts 0 v) := by
  rw [← Option.cat_nil_right (o := render D.admits d2s opts 0 v)]
  refine openOrEmit_emits D hd2s opts v 0 [] ?_
  rw [List.append_nil, Option.cat_nil_right]
  refine writeFrames_emits D hd2s opts _ _ ?_
  cases hframe : frameOf 0 v with
  | none => exact Nat.zero_le _
  | some frame =>
    have := (frameOf_some D.admits d2s opts hframe).2
    simp only [Option.toList_some, stackWork]
    omega

/-- A container that cannot be written to its end has at least been opened. -/
theorem writeValueTo_opened (opts : SerializeOptions) {v : Pjson} {frame : SerializeFrame}
    (h : frameOf 0 v = some frame) {s : σ} (hs : D.good s = true) (hfit : D.fits s 1)
    (hnone : render D.admits d2s opts 0 v = none) :
    D.Failed (· = false) (D.advance s [openBracket frame]) ((writeValueTo d2s opts v).run s) := by
  have hopen := (D.put_emits (openBracket frame)).done s [openBracket frame] rfl hs hfit
  have hgood := D.good_advance s [openBracket frame] hs
  have hrun : (writeValueTo d2s opts v).run s =
      (writeFrames d2s opts (2 * v.nodes) [frame]).run (D.advance s [openBracket frame]) := by
    unfold writeValueTo openOrEmit
    rw [h]
    dsimp only
    rw [EStateM.run_bind, EStateM.run_bind]
    rw [show (Sink.put (if frame.isObject then 0x7B else 0x5B) : SinkM σ Unit).run s = _ from hopen]
    show (match (if Sink.good (D.advance s [openBracket frame]) then some [frame] else none) with
      | none => return false
      | some stack => writeFrames d2s opts (2 * v.nodes) stack : SinkM σ Bool).run _ = _
    rw [← D.good_eq, hgood]
    rfl
  have hframe : renderFrame D.admits d2s opts frame = none := by
    rw [(frameOf_some D.admits d2s opts h).1] at hnone
    cases hr : renderFrame D.admits d2s opts frame with
    | none => rfl
    | some t =>
      rw [hr] at hnone
      cases hnone
  have hwork := (frameOf_some D.admits d2s opts h).2
  rw [hrun]
  refine (writeFrames_emits D hd2s opts (2 * v.nodes) [frame] ?_).failed _ (Or.inr fun bs hbs => ?_)
  · simp only [stackWork]
    omega
  · rw [renderStack, hframe] at hbs
    cases hbs

end Machine

/-- **`toString` succeeds** exactly with the text of the value, where there is one within the limits
    of the options and of strings. -/
theorem toString_ok_iff {v : Pjson} {text : Bytes} :
    toString d2s opts v = .ok text ↔ render inSizeRange d2s opts 0 v = some text ∧
      (opts.maxOutputBytes = 0 ∨ text.length ≤ opts.maxOutputBytes) ∧
      text.length ≤ stringMaxSize := by
  have hbudget : ∀ n, WithinBudget opts.maxOutputBytes 0 n ↔
      (opts.maxOutputBytes = 0 ∨ n ≤ opts.maxOutputBytes) := by
    intro n
    unfold WithinBudget budgetLeft
    omega
  unfold toString
  -- The counting pass decides: the second one runs only where it has succeeded.
  rcases (writeValueTo_emits CountingSink.lawful (fun _ => trivial) opts v).cases
      (s := { limit := opts.maxOutputBytes }) rfl with
    ⟨bs, hbs, hfit, hrun⟩ | ⟨hno, hfail⟩
  · rw [hrun]
    have hbs : render inSizeRange d2s opts 0 v = some bs := hbs
    have hwritten : (CountingSink.destination.advance
        ({ limit := opts.maxOutputBytes } : CountingSink) bs).written = bs.length := Nat.zero_add _
    show (if (CountingSink.destination.advance
        ({ limit := opts.maxOutputBytes } : CountingSink) bs).written > stringMaxSize then _ else _) =
      _ ↔ _
    rw [hwritten, hbs, Option.some.injEq]
    by_cases hmax : bs.length > stringMaxSize
    · rw [if_pos hmax]
      constructor
      · intro h
        cases h
      · rintro ⟨rfl, -, h⟩
        omega
    · rw [if_neg hmax]
      -- The second pass meets the same budget with the same text, so it cannot fail.
      have hout := (writeValueTo_emits StringSink.lawful (fun _ => trivial) opts v).done
        { out := [], limit := opts.maxOutputBytes } bs hbs rfl ⟨not_lt.mp hmax, hfit.2⟩
      rw [hout]
      constructor
      · intro h
        cases h
        exact ⟨rfl, (hbudget _).mp hfit.2, not_lt.mp hmax⟩
      · rintro ⟨rfl, -, -⟩
        rfl
  · constructor
    · intro h
      cases hr : (writeValueTo d2s opts v).run ({ limit := opts.maxOutputBytes } : CountingSink) with
      | error e t =>
        rw [hr] at h
        cases h
      | ok b t =>
        rw [hr] at h hfail
        cases hfail.1
        simp only at h
        split_ifs at h
    · rintro ⟨htext, hlimit, hmax⟩
      refine absurd ⟨?_, (hbudget _).mpr hlimit⟩ (hno text htext)
      have : stringMaxSize ≤ sizeMax := by decide
      show text.length ≤ sizeMax - 0
      omega

end Serialize

end ByteDance
