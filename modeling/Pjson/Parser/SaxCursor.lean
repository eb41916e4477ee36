/-
  The two cursors of the SAX parser and what it may assume of them.

  `SaxCursor` is the interface the source's template parameter has to offer.  `BufferSaxCursor` walks
  over bytes in memory; `StreamSaxCursor` takes one byte at a time from a stream buffer and keeps
  it until it is consumed.  Both count lines and columns as they go.

  `LawfulSaxCursor` says how a cursor that does not fail behaves: there are unread bytes, `peek` shows
  the first and moves nothing, `get` takes it and counts it.  Both cursors obey, the second one as
  long as its stream does not throw, however the stream cuts its bytes.
-/
import Pjson.Parser.Stream

namespace ByteDance

/-- What the SAX parser asks of its cursor.  `unread` bounds the loops of the model. -/
class SaxCursor (κ : Type) where
  peek : κ → Option UInt8 × κ
  get : κ → Option UInt8 × κ
  failed : κ → Bool
  position : κ → Nat
  line : κ → Nat
  column : κ → Nat
  unread : κ → Nat

/-- The source coordinates of the next byte, as both cursors keep them. -/
structure Coordinates where
  line : Nat := 1
  column : Nat := 1
  prevWasCR : Bool := false

/-- `advance`: counts CR LF as one newline although its bytes arrive separately. -/
def Coordinates.advance (c : Coordinates) (ch : UInt8) : Coordinates :=
  if ch = 0x0D then { line := c.line + 1, column := 1, prevWasCR := true }
  else if ch = 0x0A then
    if c.prevWasCR then { c with prevWasCR := false }
    else { c with line := c.line + 1, column := 1 }
  else { c with column := c.column + 1, prevWasCR := false }

/-! ## The cursor over a buffer -/

/-- `BufferSaxCursor`; `rest` is `src[pos..size)`. -/
structure BufferSaxCursor where
  rest : Bytes
  pos : Nat := 0
  coords : Coordinates := {}

namespace BufferSaxCursor

def peek (c : BufferSaxCursor) : Option UInt8 := c.rest.head?

def get (c : BufferSaxCursor) : Option UInt8 × BufferSaxCursor :=
  match c.rest with
  | [] => (none, c)
  | ch :: rest =>
    (some ch, { rest := rest, pos := c.pos + 1, coords := c.coords.advance ch })

instance : SaxCursor BufferSaxCursor where
  peek c := (c.peek, c)
  get := get
  failed _ := false
  position c := c.pos
  line c := c.coords.line
  column c := c.coords.column
  unread c := c.rest.length

end BufferSaxCursor

/-! ## The cursor over a stream -/

/-- `StreamSaxCursor`.  The array `_buffer` only ever holds the byte that `ensure` has fetched and
    `get` has not consumed; `bad` is the stream's `badbit`, which reading its buffer does not
    touch. -/
structure StreamSaxCursor where
  rdbuf : StreamBuf
  bad : Bool
  buffer : Option UInt8 := none
  pos : Nat := 0
  coords : Coordinates := {}
  failed : Bool := false
  eof : Bool := false

namespace StreamSaxCursor

/-- `ensure`; the byte is available if `buffer` then holds one. -/
def ensure (c : StreamSaxCursor) : StreamSaxCursor :=
  if c.buffer.isSome then c
  else if c.eof || c.failed then c
  else if c.bad then { c with failed := true }
  else
    match c.rdbuf.sbumpc with
    | (.exception, b) => { c with rdbuf := b, failed := true }
    | (.byte ch, b) => { c with rdbuf := b, buffer := some ch }
    | (.eof, b) => { c with rdbuf := b, eof := true }

def peek (c : StreamSaxCursor) : Option UInt8 × StreamSaxCursor := (c.ensure.buffer, c.ensure)

def get (c : StreamSaxCursor) : Option UInt8 × StreamSaxCursor :=
  match c.ensure.buffer with
  | none => (none, c.ensure)
  | some ch =>
    (some ch, { c.ensure with buffer := none, coords := c.ensure.coords.advance ch
                              pos := c.ensure.pos + 1 })

/-- What the cursor has still to deliver. -/
def rest (c : StreamSaxCursor) : Bytes := c.buffer.toList ++ c.rdbuf.content

instance : SaxCursor StreamSaxCursor where
  peek := peek
  get := get
  failed c := c.failed
  position c := c.pos
  line c := c.coords.line
  column c := c.coords.column
  unread c := c.rest.length

/-- The stream has not failed and will not; its end is only known once it is reached. -/
structure Good (c : StreamSaxCursor) : Prop where
  throws : c.rdbuf.throws = false
  bad : c.bad = false
  failed : c.failed = false
  eof : c.eof = true → c.rdbuf.content = []

/-- What `ensure` does while the stream is good: the first unread byte is in the buffer. -/
theorem ensure_eq {c : StreamSaxCursor} (h : c.Good) :
    c.ensure.Good ∧ c.ensure.rest = c.rest ∧ c.ensure.buffer = c.rest.head? ∧
      c.ensure.pos = c.pos ∧ c.ensure.coords = c.coords := by
  obtain ⟨rdbuf, bad, buffer, pos, coords, failed, eof⟩ := c
  obtain ⟨hthrows, hbad, hfailed, heof⟩ := id h
  dsimp only at hthrows hbad hfailed heof
  subst hbad hfailed
  cases buffer with
  | some ch => exact ⟨h, rfl, rfl, rfl, rfl⟩
  | none =>
    cases eof with
    | true =>
      -- the end has been seen before
      refine ⟨h, rfl, ?_, rfl, rfl⟩
      rw [rest, heof rfl]
      rfl
    | false =>
      rcases hs : rdbuf.sbumpc with ⟨o, b⟩
      rcases StreamBuf.sbumpc_eq hthrows with ⟨ch, r, hc, h₁, h₂, h₃⟩ | ⟨hc, h₁, h₂⟩
      · rw [hs] at h₁ h₂ h₃
        cases h₁
        have he : ensure ⟨rdbuf, false, none, pos, coords, false, false⟩ =
            ⟨b, false, some ch, pos, coords, false, false⟩ := by
          simp [ensure, hs]
        rw [he]
        refine ⟨⟨h₃, rfl, rfl, fun he => by cases he⟩, ?_, ?_, rfl, rfl⟩
        · show ch :: b.content = rdbuf.content
          rw [hc]
          exact congrArg _ h₂
        · show some ch = rdbuf.content.head?
          rw [hc]
          rfl
      · rw [hs] at h₁ h₂
        cases h₁
        have hb : b = rdbuf := h₂
        have he : ensure ⟨rdbuf, false, none, pos, coords, false, false⟩ =
            ⟨rdbuf, false, none, pos, coords, false, true⟩ := by
          simp [ensure, hs, hb]
        rw [he]
        refine ⟨⟨hthrows, rfl, rfl, fun _ => hc⟩, rfl, ?_, rfl, rfl⟩
        show none = rdbuf.content.head?
        rw [hc]
        rfl

end StreamSaxCursor

/-! ## What both obey -/

/-- A cursor that behaves while it is `Good`. -/
class LawfulSaxCursor (κ : Type) [SaxCursor κ] where
  rest : κ → Bytes
  Good : κ → Prop
  not_failed : ∀ {c}, Good c → SaxCursor.failed c = false
  unread_eq : ∀ c, SaxCursor.unread c = (rest c).length
  peek_eq : ∀ {c}, Good c → (SaxCursor.peek c).1 = (rest c).head? ∧ Good (SaxCursor.peek c).2 ∧
    rest (SaxCursor.peek c).2 = rest c ∧
    SaxCursor.position (SaxCursor.peek c).2 = SaxCursor.position c
  get_nil : ∀ {c}, Good c → rest c = [] → (SaxCursor.get c).1 = none
  get_cons : ∀ {c b r}, Good c → rest c = b :: r → (SaxCursor.get c).1 = some b ∧
    Good (SaxCursor.get c).2 ∧ rest (SaxCursor.get c).2 = r ∧
    SaxCursor.position (SaxCursor.get c).2 = SaxCursor.position c + 1

instance : LawfulSaxCursor BufferSaxCursor where
  rest := BufferSaxCursor.rest
  Good _ := True
  not_failed _ := rfl
  unread_eq _ := rfl
  peek_eq _ := ⟨rfl, trivial, rfl, rfl⟩
  get_nil := by
    intro c _ h
    show (BufferSaxCursor.get c).1 = none
    rw [BufferSaxCursor.get, h]
  get_cons := by
    intro c b r _ h
    show (BufferSaxCursor.get c).1 = some b ∧ _ ∧ (BufferSaxCursor.get c).2.rest = r ∧
      (BufferSaxCursor.get c).2.pos = c.pos + 1
    rw [BufferSaxCursor.get, h]
    exact ⟨rfl, trivial, rfl, rfl⟩

instance : LawfulSaxCursor StreamSaxCursor where
  rest := StreamSaxCursor.rest
  Good := StreamSaxCursor.Good
  not_failed h := h.failed
  unread_eq _ := rfl
  peek_eq := by
    intro c h
    obtain ⟨h₁, h₂, h₃, h₄, -⟩ := StreamSaxCursor.ensure_eq h
    exact ⟨h₃, h₁, h₂, h₄⟩
  get_nil := by
    intro c h hr
    obtain ⟨-, -, h₃, -⟩ := StreamSaxCursor.ensure_eq h
    rw [hr] at h₃
    show (StreamSaxCursor.get c).1 = none
    rw [StreamSaxCursor.get, h₃]
    rfl
  get_cons := by
    intro c b r h hr
    obtain ⟨h₁, h₂, h₃, h₄, -⟩ := StreamSaxCursor.ensure_eq h
    rw [hr, List.head?_cons] at h₃
    show (StreamSaxCursor.get c).1 = some b ∧ (StreamSaxCursor.get c).2.Good ∧
      (StreamSaxCursor.get c).2.rest = r ∧ (StreamSaxCursor.get c).2.pos = c.pos + 1
    rw [StreamSaxCursor.get, h₃]
    refine ⟨rfl, ⟨h₁.throws, h₁.bad, h₁.failed, h₁.eof⟩, ?_, by rw [← h₄]⟩
    rw [hr, StreamSaxCursor.rest, h₃] at h₂
    exact (List.cons.inj h₂).2

end ByteDance
