/-
  Input streams, and `pJsonParserImpl::parseStream`, which reads one to its end and hands the bytes
  to the DOM parser.

  A `StreamBuf` is a `std::streambuf` by what it exposes: the rest of the get area, and the areas
  that its next calls of `underflow` will set up, each with at least one byte.  Behind the last one
  `underflow` reports the end, or throws (`throws`).  How the bytes of a source are cut into areas
  is thus part of the state, and nothing is assumed about it.  `sgetn` is the default
  `xsgetn`, which goes on over area boundaries.

  `parseStream_eq`: whatever the cuts, the result is that of `parse` on the bytes, except that a
  document above the byte limit is refused at the block of 8192 bytes that crosses it.
-/
import Pjson.Parser.Dom

namespace ByteDance

/-- A get area as `underflow` sets it up. -/
abbrev Chunk := { chunk : Bytes // chunk ≠ [] }

/-- A `std::streambuf`. -/
structure StreamBuf where
  area : Bytes
  refills : List Chunk
  throws : Bool

namespace StreamBuf

/-- Everything the buffer has still to deliver. -/
def content (b : StreamBuf) : Bytes := b.area ++ (b.refills.map Subtype.val).flatten

/-- What `sbumpc` comes back with. -/
inductive Fetched where
  | byte (ch : UInt8)
  | eof
  | exception

/-- `sbumpc`: the next byte, after an `underflow` if the area is used up. -/
def sbumpc (b : StreamBuf) : Fetched × StreamBuf :=
  match b.area, b.refills with
  | ch :: area, _ => (.byte ch, { b with area := area })
  | [], ⟨ch :: area, _⟩ :: refills => (.byte ch, { b with area := area, refills := refills })
  | [], _ => (if b.throws then .exception else .eof, b)

/-- The loop of `xsgetn`: `none` if an `underflow` throws, else at most `n` bytes. -/
def sgetnFrom (throws : Bool) : Nat → Bytes → List Chunk → Option Bytes × StreamBuf
  | n, area, [] =>
    if n ≤ area.length ∨ throws = false then (some (area.take n), ⟨area.drop n, [], throws⟩)
    else (none, ⟨[], [], throws⟩)
  | n, area, chunk :: refills =>
    if n ≤ area.length then (some (area.take n), ⟨area.drop n, chunk :: refills, throws⟩)
    else
      let (got, b) := sgetnFrom throws (n - area.length) chunk refills
      (got.map (area ++ ·), b)

/-- `sgetn`. -/
def sgetn (b : StreamBuf) (n : Nat) : Option Bytes × StreamBuf :=
  sgetnFrom b.throws n b.area b.refills

/-- **One byte at a time**: `sbumpc` takes the content from the front and reports its end. -/
theorem sbumpc_eq {b : StreamBuf} (h : b.throws = false) :
    (∃ ch r, b.content = ch :: r ∧ b.sbumpc.1 = .byte ch ∧ b.sbumpc.2.content = r ∧
      b.sbumpc.2.throws = false) ∨
    (b.content = [] ∧ b.sbumpc.1 = .eof ∧ b.sbumpc.2 = b) := by
  obtain ⟨area, refills, throws⟩ := b
  cases h
  cases area with
  | cons ch area => exact Or.inl ⟨ch, _, rfl, rfl, rfl, rfl⟩
  | nil =>
    cases refills with
    | nil => exact Or.inr ⟨rfl, rfl, rfl⟩
    | cons chunk refills =>
      obtain ⟨bytes, hne⟩ := chunk
      cases bytes with
      | nil => exact absurd rfl hne
      | cons ch area => exact Or.inl ⟨ch, area ++ (refills.map Subtype.val).flatten, rfl, rfl, rfl, rfl⟩

theorem sgetnFrom_eq (n : Nat) (area : Bytes) (refills : List Chunk) :
    (sgetnFrom false n area refills).1 = some ((content ⟨area, refills, false⟩).take n) ∧
      (sgetnFrom false n area refills).2.content = (content ⟨area, refills, false⟩).drop n ∧
      (sgetnFrom false n area refills).2.throws = false := by
  induction refills generalizing n area with
  | nil => simp [sgetnFrom, content]
  | cons chunk refills ih =>
    unfold sgetnFrom
    by_cases hn : n ≤ area.length
    · rw [if_pos hn]
      refine ⟨?_, ?_, rfl⟩
      · rw [content, List.take_append_of_le_length hn]
      · simp only [content]
        rw [List.drop_append_of_le_length hn]
    · obtain ⟨h₁, h₂, h₃⟩ := ih (n - area.length) chunk.val
      rw [if_neg hn]
      have hc : content ⟨area, chunk :: refills, false⟩ = area ++ content ⟨chunk.val, refills, false⟩ :=
        rfl
      have hle : area.length ≤ n := by omega
      refine ⟨?_, ?_, h₃⟩
      · show Option.map _ _ = _
        rw [h₁, hc, List.take_append, List.take_of_length_le hle]
        rfl
      · show (sgetnFrom false (n - area.length) chunk refills).2.content = _
        rw [h₂, hc, List.drop_append, List.drop_of_length_le hle, List.nil_append]

/-- **A block at a time**: `sgetn` takes as much of the content as there is, up to `n` bytes. -/
theorem sgetn_eq {b : StreamBuf} (h : b.throws = false) (n : Nat) :
    (b.sgetn n).1 = some (b.content.take n) ∧ (b.sgetn n).2.content = b.content.drop n ∧
      (b.sgetn n).2.throws = false := by
  obtain ⟨area, refills, throws⟩ := b
  cases h
  exact sgetnFrom_eq n area refills

end StreamBuf

/-- A `std::istream`: its buffer and its state bits. -/
structure IStream where
  rdbuf : StreamBuf
  eofbit : Bool := false
  failbit : Bool := false
  badbit : Bool := false

namespace IStream

/-- `good()`. -/
def good (s : IStream) : Bool := !s.eofbit && !s.failbit && !s.badbit

/-- `read(buffer, n)`: what it has stored; `gcount()` is its length. -/
def read (s : IStream) (n : Nat) : Bytes × IStream :=
  if s.good then
    match s.rdbuf.sgetn n with
    | (none, b) => ([], { s with rdbuf := b, badbit := true })
    | (some got, b) =>
      if got.length = n then (got, { s with rdbuf := b })
      else (got, { s with rdbuf := b, eofbit := true, failbit := true })
  else ([], { s with failbit := true })

/-- A read of a good stream that does not throw. -/
theorem read_eq {s : IStream} (hgood : s.good = true) (h : s.rdbuf.throws = false) (n : Nat) :
    (s.read n).1 = s.rdbuf.content.take n ∧
      (s.read n).2.rdbuf.content = s.rdbuf.content.drop n ∧
      (s.read n).2.rdbuf.throws = false ∧ (s.read n).2.badbit = false ∧
      ((s.read n).2.good = true ↔ n ≤ s.rdbuf.content.length) := by
  obtain ⟨h₁, h₂, h₃⟩ := s.rdbuf.sgetn_eq h n
  have hbits : s.eofbit = false ∧ s.failbit = false ∧ s.badbit = false := by
    simpa [good, and_assoc] using hgood
  rcases hr : s.rdbuf.sgetn n with ⟨got, b⟩
  rw [hr] at h₁ h₂ h₃
  cases h₁
  unfold read
  rw [if_pos hgood, hr]
  dsimp only
  by_cases hlen : (s.rdbuf.content.take n).length = n
  · rw [if_pos hlen]
    rw [List.length_take] at hlen
    exact ⟨rfl, h₂, h₃, hbits.2.2, by simpa [good, hbits] using hlen⟩
  · rw [if_neg hlen]
    rw [List.length_take] at hlen
    exact ⟨rfl, h₂, h₃, hbits.2.2, by simp [good]; omega⟩

end IStream

/-! ## `parseStream` -/

/-- The loop of `parseStream`: the content and the stream behind it, or what has been kept of it
    when the limit was crossed.  A round that leaves the stream good has read a full block, which is
    what bounds the rounds. -/
def readContent (opts : ParserOptions) : Nat → Bytes → IStream → Except Bytes (Bytes × IStream)
  | 0, content, aIn => .ok (content, aIn)
  | fuel + 1, content, aIn =>
    if aIn.good then
      let (chunk, aIn) := aIn.read 8192
      if chunk.length = 0 then readContent opts fuel content aIn
      else if opts.maxInputBytes ≠ 0 ∧ (content.length > opts.maxInputBytes ∨
          chunk.length > opts.maxInputBytes - content.length) then
        .error (if content.length < opts.maxInputBytes then
          content ++ chunk.take (opts.maxInputBytes - content.length) else content)
      else readContent opts fuel (content ++ chunk) aIn
    else .ok (content, aIn)

/-- `pJsonParser::parseStream`, the overload that reports its error. -/
def parseStream (lib : NumericLibrary) (opts : ParserOptions) (aIn : IStream) :
    Pjson × ParseError :=
  match readContent opts (aIn.rdbuf.content.length + 1) [] aIn with
  | .error content =>
    (.jsonNull, setParseError content opts.maxInputBytes "input exceeds maxInputBytes" .InputLimit)
  | .ok (content, aIn) =>
    if aIn.badbit then
      (.jsonNull, setParseError content content.length "stream read failed" .StreamError)
    else Dom.parseTop lib opts content

/-- A stream that starts good and whose buffer never throws. -/
structure IStream.Reliable (s : IStream) (src : Bytes) : Prop where
  good : s.good = true
  throws : s.rdbuf.throws = false
  content : s.rdbuf.content = src

/-- The loop ends behind the last byte, or at the limit. -/
theorem readContent_eq (opts : ParserOptions) (fuel : Nat) {content src : Bytes} {aIn : IStream}
    (h : aIn.Reliable src) (hfuel : src.length < fuel)
    (hfit : opts.maxInputBytes = 0 ∨ content.length ≤ opts.maxInputBytes) :
    if opts.maxInputBytes ≠ 0 ∧ content.length + src.length > opts.maxInputBytes then
      ∃ kept, readContent opts fuel content aIn = .error kept
    else ∃ s, readContent opts fuel content aIn = .ok (content ++ src, s) ∧ s.badbit = false := by
  induction fuel generalizing content src aIn with
  | zero => omega
  | succ fuel ih =>
    obtain ⟨h₁, h₂, h₃, h₄, h₅⟩ := aIn.read_eq h.good h.throws 8192
    rw [h.content] at h₁ h₂ h₅
    unfold readContent
    rw [if_pos h.good]
    rcases hr : aIn.read 8192 with ⟨chunk, s⟩
    rw [hr] at h₁ h₂ h₃ h₄ h₅
    dsimp only at h₁ h₂ h₃ h₄ h₅ ⊢
    have hlen : chunk.length = min 8192 src.length := by rw [h₁, List.length_take]
    -- what a round without an exit leads to
    have hnext : opts.maxInputBytes = 0 ∨ content.length + chunk.length ≤ opts.maxInputBytes →
        0 < src.length →
        if opts.maxInputBytes ≠ 0 ∧ content.length + src.length > opts.maxInputBytes then
          ∃ kept, readContent opts fuel (content ++ chunk) s = .error kept
        else ∃ s', readContent opts fuel (content ++ chunk) s = .ok (content ++ src, s') ∧
          s'.badbit = false := by
      intro hroom hpos
      by_cases hfull : 8192 ≤ src.length
      · have := @ih (content ++ chunk) _ _ ⟨h₅.mpr hfull, h₃, h₂⟩
          (by rw [List.length_drop]; omega) (by rw [List.length_append]; omega)
        rw [List.length_append, List.length_drop, List.append_assoc, h₁,
          List.take_append_drop, List.length_take, ← h₁] at this
        have hsum : content.length + min 8192 src.length + (src.length - 8192) =
            content.length + src.length := by omega
        rwa [hsum] at this
      · -- the last block leaves the stream at its end
        have hall : chunk = src := by rw [h₁, List.take_of_length_le (by omega)]
        have hbad : s.good = false := by simpa using mt h₅.mp hfull
        have hstop : readContent opts fuel (content ++ chunk) s = .ok (content ++ src, s) := by
          cases fuel with
          | zero => rw [readContent, hall]
          | succ fuel => rw [readContent, hbad, hall]; rfl
        rw [if_neg (by rw [hall] at hroom; omega)]
        exact ⟨s, hstop, h₄⟩
    by_cases hzero : chunk.length = 0
    · have hnil : src = [] := List.length_eq_zero_iff.mp (by omega)
      have hbad : s.good = false := by simpa using mt h₅.mp (by rw [hnil]; decide)
      have hstop : readContent opts fuel content s = .ok (content, s) := by
        cases fuel with
        | zero => rfl
        | succ fuel => rw [readContent, hbad]; rfl
      rw [if_pos hzero, hstop, hnil, if_neg (by simp; omega)]
      exact ⟨s, by simp, h₄⟩
    rw [if_neg hzero]
    by_cases hlimit : opts.maxInputBytes ≠ 0 ∧ (content.length > opts.maxInputBytes ∨
        chunk.length > opts.maxInputBytes - content.length)
    · rw [if_pos hlimit, if_pos (by omega)]
      exact ⟨_, rfl⟩
    · rw [if_neg hlimit]
      exact hnext (by omega) (by omega)

/-- **`parseStream` is `parse`** on the bytes of the stream, but for the error record of a document
    above the byte limit. -/
theorem parseStream_eq (lib : NumericLibrary) (opts : ParserOptions) {src : Bytes} {aIn : IStream}
    (h : aIn.Reliable src) :
    (parseStream lib opts aIn).1 = (parse lib opts src).1 ∧
      (parseStream lib opts aIn).2.ok = (parse lib opts src).2.ok ∧
      ((opts.maxInputBytes = 0 ∨ src.length ≤ opts.maxInputBytes) →
        parseStream lib opts aIn = parse lib opts src) := by
  have hread := @readContent_eq opts (aIn.rdbuf.content.length + 1) [] _ _ h
    (by rw [h.content]; omega) (by simp)
  unfold parseStream
  by_cases hsize : opts.maxInputBytes ≠ 0 ∧ src.length > opts.maxInputBytes
  · rw [if_pos (by simpa using hsize)] at hread
    obtain ⟨kept, hk⟩ := hread
    rw [hk]
    unfold parse Dom.parseTop
    rw [if_pos hsize]
    exact ⟨rfl, rfl, fun hfit => by omega⟩
  · rw [if_neg (by simpa using hsize)] at hread
    obtain ⟨s, hs, hbad⟩ := hread
    rw [hs]
    simp only [hbad, List.nil_append, Bool.false_eq_true, if_false]
    exact ⟨rfl, rfl, fun _ => rfl⟩

end ByteDance
