/-
  The three scanners that count lines and columns: the batch scan `lineAndColumn` and the two cursors.

  `Coordinates.At src n c` says that a cursor's coordinates are those of offset `n`, the remembered
  carriage return included; one byte keeps it (`At.advance`), and with it a cursor that has consumed
  `n` bytes counts what `lineAndColumn` computes for `n`.
-/
import Pjson.Lib.Lines
import Pjson.Parser.SaxCursor

namespace ByteDance

/-- The line of an offset: CR LF, lone CR and lone LF end one line each. -/
def sourceLine (src : Bytes) (offset : Nat) : Nat := Lines.line 0x0D 0x0A src offset

/-- The column of an offset, in bytes. -/
def sourceColumn (src : Bytes) (offset : Nat) : Nat := Lines.column 0x0D 0x0A src offset

namespace Coordinates

/-- The coordinates are those of offset `n`. -/
structure At (src : Bytes) (n : Nat) (c : Coordinates) : Prop where
  line : c.line = sourceLine src n
  column : c.column = sourceColumn src n
  prevWasCR : c.prevWasCR = true ↔ ∃ j, n = j + 1 ∧ src[j]? = some 0x0D

variable {src : Bytes} {n : Nat} {c : Coordinates}

theorem at_zero (src : Bytes) : At src 0 {} := ⟨rfl, rfl, by simp⟩

/-- **One byte**: the coordinates of an offset become those of the next one. -/
theorem At.advance {ch : UInt8} (h : At src n c) (hch : src[n]? = some ch) :
    At src (n + 1) (c.advance ch) := by
  -- a line feed begins an ending unless the byte in front of it has
  have hends : Lines.EndsAt 0x0D 0x0A src n ↔
      ch = 0x0D ∨ (ch = 0x0A ∧ ¬ c.prevWasCR = true) := by
    rw [Lines.EndsAt, hch, h.prevWasCR]
    simp
  have hcr : ∀ {b : Bool}, b = decide (ch = 0x0D) →
      (b = true ↔ ∃ j, n + 1 = j + 1 ∧ src[j]? = some 0x0D) := by
    rintro b rfl
    rw [decide_eq_true_iff]
    constructor
    · rintro rfl
      exact ⟨n, rfl, hch⟩
    · rintro ⟨j, hj, hsrc⟩
      obtain rfl : n = j := by omega
      exact Option.some.inj (hch.symm.trans hsrc)
  have hline : sourceLine src (n + 1) = c.line + if Lines.EndsAt 0x0D 0x0A src n then 1 else 0 := by
    rw [h.line]
    exact Lines.line_succ
  have hcolumn : sourceColumn src (n + 1) = if Lines.IsEnd 0x0D 0x0A ch then 1 else c.column + 1 := by
    rw [h.column]
    exact Lines.column_succ hch
  rw [Coordinates.advance]
  by_cases h₁ : ch = 0x0D
  · rw [if_pos h₁]
    rw [if_pos (hends.mpr (Or.inl h₁))] at hline
    rw [if_pos (show Lines.IsEnd 0x0D 0x0A ch from Or.inl h₁)] at hcolumn
    exact ⟨hline.symm, hcolumn.symm, hcr (by simp [h₁])⟩
  rw [if_neg h₁]
  by_cases h₂ : ch = 0x0A
  · rw [if_pos h₂]
    rw [if_pos (show Lines.IsEnd 0x0D 0x0A ch from Or.inr h₂)] at hcolumn
    by_cases h₃ : c.prevWasCR = true
    · -- the second byte of a pair: the line has been counted, and its first column is still due
      obtain ⟨j, rfl, hj⟩ := h.prevWasCR.mp h₃
      have hone : c.column = 1 := by
        rw [h.column, sourceColumn, Lines.column_succ hj]
        exact if_pos (Or.inl rfl)
      rw [if_neg fun he => (hends.mp he).elim h₁ fun he => he.2 h₃] at hline
      rw [if_pos h₃]
      exact ⟨hline.symm, hone.trans hcolumn.symm, hcr (by simp [h₁])⟩
    · rw [if_pos (hends.mpr (Or.inr ⟨h₂, h₃⟩))] at hline
      rw [if_neg h₃]
      exact ⟨hline.symm, hcolumn.symm, hcr (by simp [h₁, h₃])⟩
  · rw [if_neg h₂]
    rw [if_neg fun he => (hends.mp he).elim h₁ fun he => h₂ he.1] at hline
    rw [if_neg fun he => he.elim h₁ h₂] at hcolumn
    exact ⟨hline.symm, hcolumn.symm, hcr (by simp [h₁])⟩

/-- A run of bytes. -/
theorem At.foldl {seen rest : Bytes} (h : At src n c) (hsrc : src.drop n = seen ++ rest) :
    At src (n + seen.length) (seen.foldl Coordinates.advance c) := by
  induction seen generalizing n c with
  | nil => exact h
  | cons ch seen ih =>
    have hch : src[n]? = some ch := by
      rw [← List.head?_drop, hsrc]
      rfl
    have hnext : src.drop (n + 1) = seen ++ rest := by
      rw [← List.drop_drop, hsrc]
      rfl
    have htail := ih (h.advance hch) hnext
    rw [List.length_cons, Nat.add_comm seen.length, ← Nat.add_assoc]
    exact htail

end Coordinates

/-- A carriage return that has been seen matters to a line feed only. -/
theorem Coordinates.advance_prevWasCR {ch : UInt8} (h : ch ≠ 0x0A) (line column : Nat) (b : Bool) :
    Coordinates.advance ⟨line, column, b⟩ ch = Coordinates.advance ⟨line, column, false⟩ ch := by
  rw [advance, advance, if_neg h, if_neg h]

/-- **The batch scan counts like a cursor**: looking ahead for the line feed of a pair does what the
    remembered carriage return does. -/
theorem lineAndColumnFrom_eq (line column : Nat) (text : Bytes) :
    lineAndColumnFrom line column text =
      ((text.foldl Coordinates.advance ⟨line, column, false⟩).line,
        (text.foldl Coordinates.advance ⟨line, column, false⟩).column) := by
  fun_induction lineAndColumnFrom line column text with
  | case1 line column => rfl
  | case2 line column => rfl
  | case3 line column rest ih => rw [ih]; rfl
  | case4 line column ch rest hch ih =>
    rw [ih, List.foldl_cons, List.foldl_cons, List.foldl_cons,
      ← Coordinates.advance_prevWasCR hch _ _ true]
    rfl
  | case5 line column rest _ _ ih => rw [ih]; rfl
  | case6 line column ch rest h₁ h₂ hch ih =>
    have hcr : ch ≠ 0x0D := by
      rintro rfl
      cases rest with
      | nil => exact h₁ rfl rfl
      | cons ch rest => exact h₂ _ _ rfl rfl
    rw [ih, List.foldl_cons, Coordinates.advance, if_neg hcr, if_neg hch]

/-- **`lineAndColumn` is the rule**: it computes the line and the column of an offset. -/
theorem lineAndColumn_eq {src : Bytes} {offset : Nat} (h : offset ≤ src.length) :
    lineAndColumn src offset = (sourceLine src offset, sourceColumn src offset) := by
  have hat := (Coordinates.at_zero src).foldl (List.take_append_drop offset src).symm
  rw [List.length_take, Nat.min_eq_left h, Nat.zero_add] at hat
  rw [lineAndColumn, lineAndColumnFrom_eq, ← hat.line, ← hat.column]

-- between and behind the two bytes of a pair
example : lineAndColumn [0x61, 0x0D, 0x0A] 2 = (2, 1) ∧ lineAndColumn [0x61, 0x0D, 0x0A] 3 = (2, 1) := by
  decide +kernel

/-- What stands behind an offset does not matter to its coordinates. -/
theorem sourceLine_append {src rest : Bytes} {offset : Nat} (h : offset ≤ src.length) :
    sourceLine (src ++ rest) offset = sourceLine src offset := Lines.line_append h

theorem sourceColumn_append {src rest : Bytes} {offset : Nat} (h : offset ≤ src.length) :
    sourceColumn (src ++ rest) offset = sourceColumn src offset := Lines.column_append h

/-! ## The cursors -/

/-- A cursor that counts the bytes it consumes, whether its source fails or not. -/
class CountingCursor (κ : Type) [SaxCursor κ] where
  rest : κ → Bytes
  coords : κ → Coordinates
  line_eq : ∀ c : κ, SaxCursor.line c = (coords c).line
  column_eq : ∀ c : κ, SaxCursor.column c = (coords c).column
  peek_rest : ∀ c : κ, rest (SaxCursor.peek c).2 = rest c
  peek_position : ∀ c : κ, SaxCursor.position (SaxCursor.peek c).2 = SaxCursor.position c
  peek_coords : ∀ c : κ, coords (SaxCursor.peek c).2 = coords c
  get_none : ∀ {c : κ}, (SaxCursor.get c).1 = none → rest (SaxCursor.get c).2 = rest c ∧
    SaxCursor.position (SaxCursor.get c).2 = SaxCursor.position c ∧
    coords (SaxCursor.get c).2 = coords c
  get_some : ∀ {c : κ} {ch}, (SaxCursor.get c).1 = some ch → rest c = ch :: rest (SaxCursor.get c).2 ∧
    SaxCursor.position (SaxCursor.get c).2 = SaxCursor.position c + 1 ∧
    coords (SaxCursor.get c).2 = (coords c).advance ch

instance : CountingCursor BufferSaxCursor where
  rest := BufferSaxCursor.rest
  coords := BufferSaxCursor.coords
  line_eq _ := rfl
  column_eq _ := rfl
  peek_rest _ := rfl
  peek_position _ := rfl
  peek_coords _ := rfl
  get_none := by
    rintro ⟨rest, pos, coords⟩ h
    cases rest with
    | nil => exact ⟨rfl, rfl, rfl⟩
    | cons ch rest => cases h
  get_some := by
    rintro ⟨rest, pos, coords⟩ ch h
    cases rest with
    | nil => cases h
    | cons ch rest =>
      cases h
      exact ⟨rfl, rfl, rfl⟩

/-- Taking a byte from a stream buffer, which may throw. -/
theorem StreamBuf.sbumpc_content (b : StreamBuf) :
    (∃ ch, b.sbumpc.1 = .byte ch ∧ b.content = ch :: b.sbumpc.2.content) ∨
      ((∀ ch, b.sbumpc.1 ≠ .byte ch) ∧ b.sbumpc.2 = b) := by
  obtain ⟨area, refills, throws⟩ := b
  cases area with
  | cons ch area => exact Or.inl ⟨ch, rfl, rfl⟩
  | nil =>
    cases refills with
    | nil => cases throws <;> exact Or.inr ⟨by simp [sbumpc], rfl⟩
    | cons chunk refills =>
      obtain ⟨bytes, hne⟩ := chunk
      cases bytes with
      | nil => exact absurd rfl hne
      | cons ch area => exact Or.inl ⟨ch, rfl, rfl⟩

/-- `ensure` moves bytes at most from the stream into the buffer. -/
theorem StreamSaxCursor.ensure_rest (c : StreamSaxCursor) :
    c.ensure.rest = c.rest ∧ c.ensure.pos = c.pos ∧ c.ensure.coords = c.coords := by
  obtain ⟨rdbuf, bad, buffer, pos, coords, failed, eof⟩ := c
  rw [ensure]
  split_ifs with h₁ h₂ h₃
  · exact ⟨rfl, rfl, rfl⟩
  · exact ⟨rfl, rfl, rfl⟩
  · exact ⟨rfl, rfl, rfl⟩
  · have hnone : buffer = none := by simpa using h₁
    subst hnone
    rcases hs : rdbuf.sbumpc with ⟨o, b⟩
    rcases rdbuf.sbumpc_content with ⟨ch, hch, hc⟩ | ⟨hno, hb⟩
    · rw [hs] at hch hc
      cases hch
      exact ⟨hc.symm, rfl, rfl⟩
    · rw [hs] at hno hb
      cases hb
      cases o with
      | byte ch => exact absurd rfl (hno ch)
      | eof => exact ⟨rfl, rfl, rfl⟩
      | exception => exact ⟨rfl, rfl, rfl⟩

instance : CountingCursor StreamSaxCursor where
  rest := StreamSaxCursor.rest
  coords := StreamSaxCursor.coords
  line_eq _ := rfl
  column_eq _ := rfl
  peek_rest c := c.ensure_rest.1
  peek_position c := c.ensure_rest.2.1
  peek_coords c := c.ensure_rest.2.2
  get_none := by
    intro c h
    have h' : (StreamSaxCursor.get c).1 = none := h
    show (StreamSaxCursor.get c).2.rest = c.rest ∧ (StreamSaxCursor.get c).2.pos = c.pos ∧
      (StreamSaxCursor.get c).2.coords = c.coords
    rw [StreamSaxCursor.get] at h' ⊢
    cases hb : c.ensure.buffer with
    | none => exact c.ensure_rest
    | some ch => rw [hb] at h'; cases h'
  get_some := by
    intro c ch h
    have h' : (StreamSaxCursor.get c).1 = some ch := h
    show c.rest = ch :: (StreamSaxCursor.get c).2.rest ∧
      (StreamSaxCursor.get c).2.pos = c.pos + 1 ∧
      (StreamSaxCursor.get c).2.coords = c.coords.advance ch
    obtain ⟨hrest, hpos, hcoords⟩ := c.ensure_rest
    rw [StreamSaxCursor.get] at h' ⊢
    cases hb : c.ensure.buffer with
    | none => rw [hb] at h'; cases h'
    | some b =>
      rw [hb] at h'
      cases h'
      refine ⟨?_, by rw [← hpos], by rw [← hcoords]⟩
      rw [← hrest, StreamSaxCursor.rest, hb]
      rfl

variable {κ : Type} [SaxCursor κ] [CountingCursor κ]

/-- The cursor has consumed the text up to its position, and its coordinates are those of the
    position. -/
structure Placed (src : Bytes) (c : κ) : Prop where
  bounded : SaxCursor.position c ≤ src.length
  rest : CountingCursor.rest c = src.drop (SaxCursor.position c)
  coords : (CountingCursor.coords c).At src (SaxCursor.position c)

namespace Placed

variable {src : Bytes} {c : κ}

theorem line (h : Placed src c) : SaxCursor.line c = sourceLine src (SaxCursor.position c) :=
  (CountingCursor.line_eq c).trans h.coords.line

theorem column (h : Placed src c) : SaxCursor.column c = sourceColumn src (SaxCursor.position c) :=
  (CountingCursor.column_eq c).trans h.coords.column

theorem peek (h : Placed src c) : Placed src (SaxCursor.peek c).2 := by
  obtain ⟨hbounded, hrest, hcoords⟩ := h
  rw [← CountingCursor.peek_position c] at hbounded hrest hcoords
  rw [← CountingCursor.peek_rest c] at hrest
  rw [← CountingCursor.peek_coords c] at hcoords
  exact ⟨hbounded, hrest, hcoords⟩

theorem get (h : Placed src c) : Placed src (SaxCursor.get c).2 := by
  obtain ⟨hbounded, hrest, hcoords⟩ := h
  cases hg : (SaxCursor.get c).1 with
  | none =>
    obtain ⟨h₁, h₂, h₃⟩ := CountingCursor.get_none hg
    rw [← h₂] at hbounded hrest hcoords
    rw [← h₁] at hrest
    rw [← h₃] at hcoords
    exact ⟨hbounded, hrest, hcoords⟩
  | some ch =>
    obtain ⟨h₁, h₂, h₃⟩ := CountingCursor.get_some hg
    rw [hrest] at h₁
    have hch : src[SaxCursor.position c]? = some ch := by
      rw [← List.head?_drop, h₁]
      rfl
    have hlt : SaxCursor.position c < src.length := (List.getElem?_eq_some_iff.mp hch).1
    refine ⟨by omega, ?_, ?_⟩
    · rw [h₂, ← List.drop_drop, h₁]
      rfl
    · rw [h₂, h₃]
      exact hcoords.advance hch

end Placed

end ByteDance
