/-
  What the leaf functions of the DOM parser do: cursor, strings, keywords, numbers.

  `Moved c t k c'` says that `c'` is the context `c` with the bytes `t` consumed and `k` values
  charged, and nothing else changed.  Each function gets a soundness lemma (when it returns, it
  has moved over a spelling of what it returns) and a completeness lemma (in front of a spelling
  it returns that value and moves over it).  The container level above only uses these.
-/
import Pjson.Parser.NumberConvert
import Pjson.Parser.Dom

namespace ByteDance

open Run

/-- `c'` is `c` with `t` consumed and `k` values charged. -/
structure ParseCtx.Moved (c : ParseCtx) (t : Bytes) (k : Nat) (c' : ParseCtx) : Prop where
  rest : c.rest = t ++ c'.rest
  eq : c' = { c with pos := c.pos + t.length, rest := c'.rest, nodeCount := c.nodeCount + k }

/-- There is room for `k` more values in the budget. -/
def ParseCtx.Room (c : ParseCtx) (k : Nat) : Prop :=
  k = 0 ∨ c.maxNodes = 0 ∨ c.nodeCount + k ≤ c.maxNodes

namespace ParseCtx.Moved

variable {c c' c'' : ParseCtx} {t t' out : Bytes} {k k' : Nat}

/-- Nothing consumed and nothing charged. -/
theorem refl (c : ParseCtx) : c.Moved [] 0 c := ⟨rfl, rfl⟩

/-- What two functions consume and charge adds up. -/
theorem trans (h : c.Moved t k c') (h' : c'.Moved t' k' c'') : c.Moved (t ++ t') (k + k') c'' := by
  refine ⟨by rw [h.rest, h'.rest, List.append_assoc], ?_⟩
  have h₁ := h.eq
  have h₂ := h'.eq
  rw [h₁] at h₂
  rw [h₂]
  simp [Nat.add_assoc]

/-- What is left after moving over the front of the unread bytes. -/
theorem rest_eq (h : c.Moved t k c') (hr : c.rest = t ++ out) : c'.rest = out := by
  rw [h.rest] at hr
  exact List.append_cancel_left hr

/-- The depth is not touched. -/
theorem depth (h : c.Moved t k c') : c'.depth = c.depth := by rw [h.eq]

/-- Nor is any limit. -/
theorem maxDepth (h : c.Moved t k c') : c'.maxDepth = c.maxDepth := by rw [h.eq]

/-- The count of values goes up by what has been charged. -/
theorem nodeCount (h : c.Moved t k c') : c'.nodeCount = c.nodeCount + k := by rw [h.eq]

theorem maxNodes (h : c.Moved t k c') : c'.maxNodes = c.maxNodes := by rw [h.eq]

theorem duplicateKeys (h : c.Moved t k c') : c'.duplicateKeys = c.duplicateKeys := by rw [h.eq]

theorem numberPolicy (h : c.Moved t k c') : c'.numberPolicy = c.numberPolicy := by rw [h.eq]

/-- There is room for both if there is room for the first, and then for the second. -/
theorem room_add (h : c.Moved t k c') : c.Room (k + k') ↔ c.Room k ∧ c'.Room k' := by
  unfold ParseCtx.Room
  rw [h.maxNodes, h.nodeCount]
  omega

end ParseCtx.Moved

namespace Dom

/-! ## The cursor -/

section Cursor

variable {c c' : ParseCtx}

/-- `fail` does not return. -/
theorem not_ok_fail {α : Type} {pos : Nat} {msg : String} {a : α} : ¬ Ok (fail pos msg) c a c' := by
  unfold fail
  rw [ok_bind]
  rintro ⟨_, _, -, h⟩
  exact not_ok_throw h

/-- Advancing over bytes that are there. -/
theorem ok_advance {t out : Bytes} {u : Unit} (hr : c.rest = t ++ out) :
    Ok (advance t.length) c u c' ↔ c.Moved t 0 c' := by
  unfold advance
  rw [ok_modify]
  constructor
  · rintro rfl
    exact ⟨by simp [hr], by simp⟩
  · intro h
    rw [h.eq, h.rest_eq hr, hr]
    simp

/-- And an advance over them returns. -/
theorem advance_ok {t out : Bytes} (hr : c.rest = t ++ out) :
    ∃ c', Ok (advance t.length) c () c' ∧ c.Moved t 0 c' := by
  have h : Ok (advance t.length) c () _ := ok_modify.mpr rfl
  exact ⟨_, h, (ok_advance hr).mp h⟩

/-- A value is charged if the budget has room for it. -/
theorem ok_newNode {u : Unit} : Ok newNode c u c' ↔ c.Room 1 ∧ c.Moved [] 1 c' := by
  unfold newNode ParseCtx.Room
  rw [ok_bind_get]
  by_cases hc : c.maxNodes ≠ 0 ∧ c.nodeCount ≥ c.maxNodes
  · rw [if_pos hc]
    exact ⟨fun h => absurd h not_ok_fail, fun h => by omega⟩
  · rw [if_neg hc, ok_set]
    constructor
    · rintro rfl
      exact ⟨by omega, rfl, rfl⟩
    · rintro ⟨-, hm⟩
      rw [hm.eq, hm.rest]
      rfl

/-- And then the charge returns. -/
theorem newNode_ok (h : c.Room 1) : ∃ c', Ok newNode c () c' ∧ c.Moved [] 1 c' :=
  have hm : c.Moved [] 1 { c with nodeCount := c.nodeCount + 1 } := ⟨rfl, rfl⟩
  ⟨_, ok_newNode.mpr ⟨h, hm⟩, hm⟩

/-- The white space at the front. -/
theorem whitespace_spec (s : Bytes) :
    Ws (s.take (whitespace s)) ∧ ∀ b, (s.drop (whitespace s)).head? = some b → isWhitespace b = false := by
  induction s with
  | nil => simp [Ws]
  | cons b s ih =>
    by_cases hb : isWhitespace b = true
    · rw [whitespace, if_pos hb]
      exact ⟨ws_cons.mpr ⟨hb, ih.1⟩, ih.2⟩
    · rw [whitespace, if_neg hb]
      refine ⟨ws_nil, fun b' h => ?_⟩
      cases h
      simpa using hb

/-- White space up to a byte that is none is all that is skipped. -/
theorem whitespace_append {w out : Bytes} (hw : Ws w)
    (hout : ∀ b, out.head? = some b → isWhitespace b = false) :
    whitespace (w ++ out) = w.length := by
  induction w with
  | nil =>
    cases out with
    | nil => rfl
    | cons b s => rw [List.nil_append, whitespace, if_neg (by simp [hout b rfl])]; rfl
  | cons b w ih =>
    obtain ⟨hb, hw⟩ := ws_cons.mp hw
    rw [List.cons_append, whitespace, if_pos hb, ih hw]
    rfl

/-- `peek` has skipped white space and seen the byte behind it, if there is one. -/
theorem peek_sound {o : Option UInt8} (h : Ok peek c o c') :
    ∃ w, Ws w ∧ c.Moved w 0 c' ∧ o = c'.rest.head? := by
  unfold peek at h
  obtain ⟨_, e, ha, h⟩ := ok_bind.mp (ok_bind_get.mp h)
  rw [ok_bind_get, ok_pure] at h
  obtain ⟨rfl, rfl⟩ := h
  have hlen : (c.rest.take (whitespace c.rest)).length = whitespace c.rest := by
    rw [List.length_take, Nat.min_eq_left]
    have : ∀ s : Bytes, whitespace s ≤ s.length := by
      intro s
      induction s with
      | nil => exact Nat.le_refl 0
      | cons b s ih => rw [whitespace, List.length_cons]; split <;> omega
    exact this _
  have hr : c.rest = c.rest.take (whitespace c.rest) ++ c.rest.drop (whitespace c.rest) :=
    (List.take_append_drop ..).symm
  refine ⟨c.rest.take (whitespace c.rest), (whitespace_spec c.rest).1, ?_, rfl⟩
  exact (ok_advance hr).mp (by rw [hlen]; exact ha)

/-- In front of white space it skips all of it. -/
theorem peek_complete {w out : Bytes} (hw : Ws w)
    (hout : ∀ b, out.head? = some b → isWhitespace b = false) (hr : c.rest = w ++ out) :
    ∃ c', Ok peek c out.head? c' ∧ c.Moved w 0 c' := by
  obtain ⟨c', ha, hm⟩ := advance_ok hr
  refine ⟨c', ok_bind_get.mpr (Ok.bind (a := ()) (u := c') ?_
    (ok_bind_get.mpr (ok_pure.mpr ⟨?_, rfl⟩))), hm⟩
  · rw [hr, whitespace_append hw hout]
    exact ha
  · rw [hm.rest_eq hr]

/-! The same steps in front of a sequence. -/

variable {α β : Type} {b : β}

/-- A test for bytes, decided. -/
theorem ok_bind_remains {n : Nat} {f : Bool → DomM β} :
    Ok (remains n >>= f) c b c' ↔ Ok (f (decide (n ≤ c.rest.length))) c b c' := by
  unfold remains
  rw [bind_assoc, ok_bind_get, pure_bind]

/-- The position of the cursor, read. -/
theorem ok_bind_position {f : Nat → DomM β} :
    Ok (position >>= f) c b c' ↔ Ok (f c.pos) c b c' := by
  unfold position
  rw [bind_assoc, ok_bind_get, pure_bind]

/-- A byte ahead of the cursor, read. -/
theorem ok_bind_readAt {k : Nat} {z : UInt8} {f : UInt8 → DomM β} (h : c.rest[k]? = some z) :
    Ok (readAt k >>= f) c b c' ↔ Ok (f z) c b c' := by
  unfold readAt
  rw [bind_assoc, ok_bind_get, h, pure_bind]

/-- An advance over a text that is there moves over that text. -/
theorem ok_bind_advance {n : Nat} {t out : Bytes} {f : Unit → DomM β} (hn : t.length = n)
    (hr : c.rest = t ++ out) :
    Ok (advance n >>= f) c b c' ↔ ∃ d, c.Moved t 0 d ∧ Ok (f ()) d b c' := by
  subst hn
  rw [ok_bind]
  constructor
  · rintro ⟨_, d, ha, h⟩
    exact ⟨d, (ok_advance hr).mp ha, h⟩
  · rintro ⟨d, hm, h⟩
    exact ⟨(), d, (ok_advance hr).mpr hm, h⟩

/-- A context in front of a byte: the tests of the source that there is one, and its value. -/
theorem ok_bind_next {ch : UInt8} {out : Bytes} {f : Unit → DomM β} (hr : c.rest = ch :: out) :
    Ok (advance 1 >>= f) c b c' ↔ ∃ d, c.Moved [ch] 0 d ∧ Ok (f ()) d b c' :=
  ok_bind_advance (t := [ch]) rfl hr

/-- There is a context behind a text that is there. -/
theorem exists_moved {t out : Bytes} (hr : c.rest = t ++ out) : ∃ d, c.Moved t 0 d :=
  let ⟨d, _, hm⟩ := advance_ok hr
  ⟨d, hm⟩

/-- The loop has read white space and a colon. -/
theorem skipColonLoop_sound {fuel : Nat} {u : Unit} (h : Ok (skipColonLoop fuel) c u c') :
    ∃ w, Ws w ∧ c.Moved (w ++ [0x3A]) 0 c' := by
  induction fuel generalizing c with
  | zero => exact absurd h not_ok_throw
  | succ fuel ih =>
    unfold skipColonLoop at h
    rw [ok_bind_remains] at h
    cases hr : c.rest with
    | nil =>
      rw [hr, if_neg (by simp), ok_bind_position] at h
      exact absurd h not_ok_fail
    | cons ch out =>
      rw [hr, if_pos (by simp), ok_bind_readAt (by rw [hr]; rfl), ok_bind_next hr] at h
      obtain ⟨d, hm, h⟩ := h
      by_cases hc : ch = 0x3A
      · rw [if_pos hc, ok_pure] at h
        obtain ⟨rfl, rfl⟩ := h
        exact ⟨[], ws_nil, hc ▸ hm⟩
      · rw [if_neg hc] at h
        by_cases hw : isWhitespace ch = true
        · rw [if_pos hw] at h
          obtain ⟨w, hws, hm'⟩ := ih h
          exact ⟨ch :: w, ws_cons.mpr ⟨hw, hws⟩, hm.trans hm'⟩
        · rw [if_neg hw, ok_bind_position] at h
          exact absurd h not_ok_fail

/-- It reads them if it has rounds enough for the white space. -/
theorem skipColonLoop_complete {fuel : Nat} {w out : Bytes} (hw : Ws w)
    (hr : c.rest = w ++ 0x3A :: out) (hfuel : w.length < fuel) :
    ∃ c', Ok (skipColonLoop fuel) c () c' ∧ c.Moved (w ++ [0x3A]) 0 c' := by
  induction fuel generalizing c w with
  | zero => omega
  | succ fuel ih =>
    unfold skipColonLoop
    cases w with
    | nil =>
      obtain ⟨d, hm⟩ := exists_moved (t := [0x3A]) hr
      refine ⟨d, ?_, hm⟩
      rw [ok_bind_remains, hr, if_pos (by simp), ok_bind_readAt (by rw [hr]; rfl), ok_bind_next hr]
      exact ⟨d, hm, ok_pure.mpr ⟨rfl, rfl⟩⟩
    | cons ch w =>
      obtain ⟨hb, hw⟩ := ws_cons.mp hw
      obtain ⟨d, hm⟩ := exists_moved (t := [ch]) hr
      obtain ⟨c', h', hm'⟩ := ih hw (hm.rest_eq hr) (by simpa using hfuel)
      refine ⟨c', ?_, hm.trans hm'⟩
      have hc : ch ≠ 0x3A := by rintro rfl; revert hb; decide
      rw [ok_bind_remains, hr, if_pos (by simp), ok_bind_readAt (by rw [hr]; rfl), ok_bind_next hr]
      exact ⟨d, hm, by rw [if_neg hc, if_pos hb]; exact h'⟩

/-- The colon between a key and its value has been read. -/
theorem skipColon_sound {u : Unit} (h : Ok skipColon c u c') :
    ∃ w, Ws w ∧ c.Moved (w ++ [0x3A]) 0 c' := by
  unfold skipColon at h
  rw [ok_bind_get] at h
  exact skipColonLoop_sound h

/-- It is read, with the white space in front of it. -/
theorem skipColon_complete {w out : Bytes} (hw : Ws w) (hr : c.rest = w ++ 0x3A :: out) :
    ∃ c', Ok skipColon c () c' ∧ c.Moved (w ++ [0x3A]) 0 c' := by
  unfold skipColon
  simp only [ok_bind_get]
  exact skipColonLoop_complete hw hr (by rw [hr, List.length_append]; omega)

end Cursor

/-! ## Strings -/

section Strings

variable {c c' : ParseCtx}

/-- Four bytes ahead of the cursor are read as digits, and the cursor stays. -/
theorem ok_hex4 {p q out : Bytes} {o : Option Nat} (hq : q.length = 4)
    (hr : c.rest = p ++ (q ++ out)) :
    Ok (hex4 p.length) c o c' ↔ o = hexDigits 0 q ∧ c' = c := by
  match q, hq with
  | [a, b, d, e], _ =>
    unfold hex4
    rw [ok_bind_readAt (z := a) (by simp [hr]), ok_bind_readAt (z := b) (by simp [hr]),
      ok_bind_readAt (z := d) (by simp [hr]), ok_bind_readAt (z := e) (by simp [hr]), ok_pure]

/-- The bytes at the cursor, when there are enough of them. -/
theorem exists_prefix {s : Bytes} {n : Nat} (h : n ≤ s.length) :
    ∃ q out, s = q ++ out ∧ q.length = n :=
  ⟨s.take n, s.drop n, (List.take_append_drop n s).symm, by rw [List.length_take]; omega⟩

/-- If the look-ahead finds a second half, the bytes at the cursor spell one. -/
theorem lowSurrogate_sound {low : Nat} (h : Ok lowSurrogate c (some low) c') :
    c' = c ∧ ∃ r out, c.rest = 0x5C :: 0x75 :: (r ++ out) ∧ HexQuad r low ∧ 0xDC00 ≤ low ∧
      low ≤ 0xDFFF := by
  unfold lowSurrogate at h
  rw [ok_bind_remains] at h
  by_cases h6 : 6 ≤ c.rest.length
  · obtain ⟨q, out, hr, hq⟩ := exists_prefix h6
    match q, hq with
    | [x, y, a, b, d, e], _ =>
      rw [if_pos (decide_eq_true h6), ok_bind_readAt (z := x) (by rw [hr]; rfl)] at h
      by_cases hx : x = 0x5C
      · rw [if_pos hx, ok_bind_readAt (z := y) (by rw [hr]; rfl)] at h
        by_cases hy : y = 0x75
        · rw [if_pos hy] at h
          obtain ⟨o, d', ho, h⟩ := ok_bind.mp h
          obtain ⟨hod, hd'⟩ := (ok_hex4 (p := [x, y]) (q := [a, b, d, e]) rfl hr).mp ho
          cases o with
          | none =>
            rw [ok_pure] at h
            cases h.1
          | some lo =>
            rw [ok_pure] at h
            obtain ⟨hlow, hc'⟩ := h
            split at hlow
            · rename_i hrange
              cases hlow
              refine ⟨hc'.trans hd', [a, b, d, e], out, by rw [hr, hx, hy]; rfl,
                hexQuad_of_hexDigits rfl hod.symm, hrange⟩
            · cases hlow
        · rw [if_neg hy, ok_pure] at h
          cases h.1
      · rw [if_neg hx, ok_pure] at h
        cases h.1
  · rw [if_neg (by simpa using h6), ok_pure] at h
    cases h.1

/-- It finds the one that is there. -/
theorem lowSurrogate_complete {r out : Bytes} {low : Nat}
    (hr : c.rest = 0x5C :: 0x75 :: (r ++ out)) (hq : HexQuad r low) (h₁ : 0xDC00 ≤ low)
    (h₂ : low ≤ 0xDFFF) : Ok lowSurrogate c (some low) c := by
  have h6 : 6 ≤ c.rest.length := by
    have := hq.length
    rw [hr]
    simp only [List.length_cons, List.length_append]
    omega
  unfold lowSurrogate
  rw [ok_bind_remains, if_pos (decide_eq_true h6), ok_bind_readAt (by rw [hr]; rfl), if_pos rfl,
    ok_bind_readAt (by rw [hr]; rfl), if_pos rfl]
  refine Ok.bind ((ok_hex4 (p := [0x5C, 0x75]) hq.length hr).mpr ⟨rfl, rfl⟩) ?_
  rw [hq.hexDigits_eq]
  exact ok_pure.mpr ⟨by rw [if_pos ⟨h₁, h₂⟩], rfl⟩

/-- What has been read behind the `u` makes one escape, or two that are a pair. -/
theorem unicodeEscape_sound {s : Bytes} (h : Ok unicodeEscape c s c') :
    ∃ t, StringChar (0x5C :: 0x75 :: t) s ∧ c.Moved t 0 c' := by
  unfold unicodeEscape at h
  rw [ok_bind_remains] at h
  by_cases h4 : 4 ≤ c.rest.length
  · rw [if_pos (decide_eq_true h4)] at h
    obtain ⟨q, out, hr, hq⟩ := exists_prefix h4
    obtain ⟨o, d, ho, h⟩ := ok_bind.mp h
    obtain ⟨hod, hd⟩ := (ok_hex4 (p := []) hq hr).mp ho
    rw [hd] at h
    cases o with
    | none =>
      rw [ok_bind_position] at h
      exact absurd h not_ok_fail
    | some cp =>
      -- Four hex digits: a high half, a low half or a scalar value of its own.
      have hquad := hexQuad_of_hexDigits hq hod.symm
      have hlt := hquad.lt
      rw [ok_bind_advance hq hr] at h
      obtain ⟨d₁, hm, h⟩ := h
      by_cases hhi : 0xD800 ≤ cp ∧ cp ≤ 0xDBFF
      · rw [if_pos hhi] at h
        obtain ⟨o, d₂, ho, h⟩ := ok_bind.mp h
        cases o with
        | none =>
          rw [ok_bind_position] at h
          exact absurd h not_ok_fail
        | some low =>
          obtain ⟨hd₂, r, out', hr', hquad', h₁, h₂⟩ := lowSurrogate_sound ho
          rw [hd₂] at h
          have hsix : (0x5C :: 0x75 :: r : Bytes).length = 6 := by simp [hquad'.length]
          simp only at h
          rw [ok_bind_advance hsix hr'] at h
          obtain ⟨d₃, hm₂, h⟩ := h
          rw [ok_pure] at h
          rw [h.1, h.2]
          refine ⟨q ++ 0x5C :: 0x75 :: r, ?_, hm.trans hm₂⟩
          rw [appendUtf8_pair hhi.1 hhi.2 h₁ h₂]
          exact StringChar.surrogates hquad hquad' hhi.1 hhi.2 h₁ h₂
      · rw [if_neg hhi] at h
        by_cases hlo : 0xDC00 ≤ cp ∧ cp ≤ 0xDFFF
        -- A low half with no high half before it is an error.
        · rw [if_pos hlo, ok_bind_position] at h
          exact absurd h not_ok_fail
        · rw [if_neg hlo] at h
          obtain ⟨rfl, rfl⟩ := ok_pure.mp h
          refine ⟨q, ?_, hm⟩
          rw [appendUtf8_eq (by omega)]
          exact StringChar.unicode hquad (by unfold Utf8.IsScalar; omega)
  · rw [if_neg (by simpa using h4), ok_bind_position] at h
    exact absurd h not_ok_fail

/-- The digits of a scalar value are read. -/
theorem unicodeEscape_complete {q out : Bytes} {cp : Nat} (hr : c.rest = q ++ out)
    (hq : HexQuad q cp) (hs : Utf8.IsScalar cp) :
    ∃ c', Ok unicodeEscape c (Utf8.encode cp) c' ∧ c.Moved q 0 c' := by
  have h4 : 4 ≤ c.rest.length := by
    simp only [hr, List.length_append, hq.length]
    omega
  obtain ⟨d, hm⟩ := exists_moved hr
  refine ⟨d, ?_, hm⟩
  unfold unicodeEscape
  rw [ok_bind_remains, if_pos (decide_eq_true h4)]
  refine Ok.bind ((ok_hex4 (p := []) hq.length hr).mpr ⟨rfl, rfl⟩) ?_
  rw [hq.hexDigits_eq]
  have hhi : ¬ (0xD800 ≤ cp ∧ cp ≤ 0xDBFF) := by rcases hs with h | h <;> omega
  have hlo : ¬ (0xDC00 ≤ cp ∧ cp ≤ 0xDFFF) := by rcases hs with h | h <;> omega
  have hmax : cp ≤ 0x10FFFF := by rcases hs with h | h <;> omega
  simp only [if_neg hhi, if_neg hlo]
  rw [ok_bind_advance hq.length hr]
  exact ⟨d, hm, ok_pure.mpr ⟨(appendUtf8_eq hmax).symm, rfl⟩⟩

/-- Two halves that are a pair are read as the code point they make. -/
theorem unicodeEscape_complete_pair {q r out : Bytes} {hi lo : Nat}
    (hr : c.rest = q ++ 0x5C :: 0x75 :: (r ++ out)) (hq : HexQuad q hi) (hq' : HexQuad r lo)
    (h₁ : 0xD800 ≤ hi) (h₂ : hi ≤ 0xDBFF) (h₃ : 0xDC00 ≤ lo) (h₄ : lo ≤ 0xDFFF) :
    ∃ c', Ok unicodeEscape c (Utf8.encode (surrogatePair hi lo)) c' ∧
      c.Moved (q ++ 0x5C :: 0x75 :: r) 0 c' := by
  have h4 : 4 ≤ c.rest.length := by
    simp only [hr, List.length_append, hq.length]
    omega
  obtain ⟨d, hm⟩ := exists_moved hr
  have hr₁ := hm.rest_eq hr
  obtain ⟨e, hm₂⟩ := exists_moved (t := 0x5C :: 0x75 :: r) hr₁
  refine ⟨e, ?_, hm.trans hm₂⟩
  unfold unicodeEscape
  rw [ok_bind_remains, if_pos (decide_eq_true h4)]
  refine Ok.bind ((ok_hex4 (p := []) hq.length hr).mpr ⟨rfl, rfl⟩) ?_
  rw [hq.hexDigits_eq]
  simp only [if_pos (And.intro h₁ h₂)]
  rw [ok_bind_advance hq.length hr]
  refine ⟨d, hm, Ok.bind (lowSurrogate_complete hr₁ hq' h₃ h₄) ?_⟩
  have hsix : (0x5C :: 0x75 :: r : Bytes).length = 6 := by simp [hq'.length]
  show Ok (advance 6 >>= _) d _ e
  rw [ok_bind_advance hsix hr₁, ← appendUtf8_pair h₁ h₂ h₃ h₄]
  exact ⟨e, hm₂, ok_pure.mpr ⟨rfl, rfl⟩⟩

/-- What has been read behind the backslash makes an escape of the grammar. -/
theorem escapeBody_sound {s : Bytes} (h : Ok escapeBody c s c') :
    ∃ t, StringChar (0x5C :: t) s ∧ c.Moved t 0 c' := by
  unfold escapeBody at h
  rw [ok_bind_remains] at h
  cases hr : c.rest with
  | nil =>
    rw [hr, if_neg (by simp), ok_bind_position] at h
    exact absurd h not_ok_fail
  | cons e out =>
    rw [hr, if_pos (by simp), ok_bind_readAt (by rw [hr]; rfl), ok_bind_next hr] at h
    obtain ⟨d, hm, h⟩ := h
    rw [escape_switch] at h
    cases hs : simpleEscape e with
    | some b =>
      rw [hs, Option.elim_some, ok_pure] at h
      rw [h.1, h.2]
      exact ⟨[e], StringChar.escape hs, hm⟩
    | none =>
      rw [hs, Option.elim_none] at h
      by_cases hu : e = 0x75
      · rw [if_pos hu] at h
        obtain ⟨t, hc, hm'⟩ := unicodeEscape_sound h
        exact ⟨0x75 :: t, hc, hu ▸ hm.trans hm'⟩
      · rw [if_neg hu, ok_bind_position] at h
        exact absurd h not_ok_fail

/-- Every escape of the grammar is read. -/
theorem escapeBody_complete {t s out : Bytes} (hc : StringChar (0x5C :: t) s)
    (hr : c.rest = t ++ out) : ∃ c', Ok escapeBody c s c' ∧ c.Moved t 0 c' := by
  -- the switch, once the byte after the backslash has been consumed
  have hswitch : ∀ {e : UInt8} {r : Bytes}, c.rest = e :: r →
      (∀ d, c.Moved [e] 0 d → ∃ c', Ok ((simpleEscape e).elim
        (if e = 0x75 then unicodeEscape else do fail ((← position) - 1) "invalid escape sequence")
        fun d => pure [d]) d s c' ∧ c.Moved t 0 c') →
      ∃ c', Ok escapeBody c s c' ∧ c.Moved t 0 c' := by
    intro e r hr h
    obtain ⟨d, hm⟩ := exists_moved (t := [e]) hr
    obtain ⟨c', hok, hm'⟩ := h d hm
    refine ⟨c', ?_, hm'⟩
    unfold escapeBody
    rw [ok_bind_remains, hr, if_pos (by simp), ok_bind_readAt (by rw [hr]; rfl), ok_bind_next hr]
    exact ⟨d, hm, by rw [escape_switch]; exact hok⟩
  generalize ht : (0x5C :: t : Bytes) = full at hc
  cases hc with
  | raw hs _ _ hbs => exact absurd ht.symm (encode_ne_backslash hs hbs)
  | escape he =>
    cases ht
    refine hswitch hr fun d hm => ⟨d, ?_, hm⟩
    rw [he]
    exact ok_pure.mpr ⟨rfl, rfl⟩
  | unicode hq hs =>
    cases ht
    refine hswitch hr fun d hm => ?_
    obtain ⟨c', hok, hm'⟩ := unicodeEscape_complete (hm.rest_eq hr) hq hs
    exact ⟨c', hok, hm.trans hm'⟩
  | surrogates hq hq' h₁ h₂ h₃ h₄ =>
    cases ht
    refine hswitch hr fun d hm => ?_
    obtain ⟨c', hok, hm'⟩ := unicodeEscape_complete_pair (by simpa using hm.rest_eq hr) hq hq'
      h₁ h₂ h₃ h₄
    exact ⟨c', hok, hm.trans hm'⟩

/-- A byte that is no quote starts a character, which has been read as a whole. -/
theorem decodeChar_sound {ch : UInt8} {s out : Bytes} (hr : c.rest = ch :: out) (hne : ch ≠ 0x22)
    (h : Ok (decodeChar ch) c s c') : ∃ t, StringChar t s ∧ c.Moved t 0 c' := by
  unfold decodeChar at h
  by_cases hbs : ch = 0x5C
  · rw [if_pos hbs, ok_bind_next hr] at h
    obtain ⟨d, hm, h⟩ := h
    obtain ⟨t, hc, hm'⟩ := escapeBody_sound h
    exact ⟨0x5C :: t, hc, hbs ▸ hm.trans hm'⟩
  rw [if_neg hbs] at h
  by_cases hctl : ch < 0x20
  · rw [if_pos hctl, ok_bind_position] at h
    exact absurd h not_ok_fail
  rw [if_neg hctl] at h
  by_cases hhi : 0x80 ≤ ch
  · rw [if_pos hhi, ok_bind_get] at h
    by_cases hn : utf8Len c.rest = 0
    · rw [if_pos hn, ok_bind_position] at h
      exact absurd h not_ok_fail
    · rw [if_neg hn] at h
      obtain ⟨cp, t, hs, hcp, hlen⟩ := exists_of_utf8Len hn
      rw [ok_bind_advance hlen.symm hcp] at h
      obtain ⟨d, hm, h⟩ := h
      rw [ok_pure] at h
      rw [h.1, h.2, hlen]
      refine ⟨Utf8.encode cp, ?_, hm⟩
      rw [hcp, List.take_left]
      have hbig : 0x80 ≤ cp := by
        by_contra hlt
        rw [hr, Utf8.encode, if_pos (by omega)] at hcp
        have h1 := congrArg UInt8.toNat (List.cons.inj hcp).1
        rw [UInt8.toNat_ofNat', Nat.mod_eq_of_lt (by omega)] at h1
        have h2 : 128 ≤ ch.toNat := UInt8.le_iff_toNat_le.mp hhi
        omega
      exact StringChar.raw hs (by omega) (by omega) (by omega)
  · rw [if_neg hhi, ok_bind_next hr] at h
    obtain ⟨d, hm, h⟩ := h
    rw [ok_pure] at h
    rw [h.1, h.2]
    refine ⟨[ch], ?_, hm⟩
    have h1 : ch.toNat < 128 := by
      by_contra hc
      exact hhi (UInt8.le_iff_toNat_le.mpr (show 128 ≤ ch.toNat by omega))
    have h2 : 32 ≤ ch.toNat := by
      by_contra hc
      exact hctl (UInt8.lt_iff_toNat_lt.mpr (show ch.toNat < 32 by omega))
    have h := StringChar.raw (show Utf8.IsScalar ch.toNat from Or.inl (by omega)) h2
      (fun hc => hne (UInt8.toNat_inj.mp hc)) (fun hc => hbs (UInt8.toNat_inj.mp hc))
    rwa [Utf8.encode_one h1] at h

/-- Every character of a string is read as a whole, and starts with a byte that is no quote. -/
theorem decodeChar_complete {t s out : Bytes} (hc : StringChar t s) (hr : c.rest = t ++ out) :
    ∃ ch r, c.rest = ch :: r ∧ ch ≠ 0x22 ∧ ∃ c', Ok (decodeChar ch) c s c' ∧ c.Moved t 0 c' := by
  -- an escape is handed on after its backslash
  have hescape : ∀ {t' : Bytes}, t = 0x5C :: t' →
      ∃ ch r, c.rest = ch :: r ∧ ch ≠ 0x22 ∧ ∃ c', Ok (decodeChar ch) c s c' ∧ c.Moved t 0 c' := by
    rintro t' rfl
    obtain ⟨d, hm⟩ := exists_moved (t := [0x5C]) hr
    obtain ⟨c', hok, hm'⟩ := escapeBody_complete hc (hm.rest_eq hr)
    refine ⟨0x5C, t' ++ out, hr, by decide, c', ?_, hm.trans hm'⟩
    unfold decodeChar
    rw [if_pos rfl, ok_bind_next hr]
    exact ⟨d, hm, hok⟩
  cases hc with
  | escape he => exact hescape rfl
  | unicode hq hs => exact hescape rfl
  | surrogates hq hq' h₁ h₂ h₃ h₄ => exact hescape rfl
  | @raw cp hs hctl hq hbs =>
    obtain ⟨d, hm⟩ := exists_moved hr
    rcases Nat.lt_or_ge cp 0x80 with hlt | hge
    · have he : Utf8.encode cp = [UInt8.ofNat cp] := by rw [Utf8.encode, if_pos hlt]
      have hnat : (UInt8.ofNat cp).toNat = cp := by
        rw [UInt8.toNat_ofNat', Nat.mod_eq_of_lt (by omega)]
      rw [he] at hr hm ⊢
      refine ⟨UInt8.ofNat cp, out, hr, fun h => hq (by rw [← hnat, h]; rfl), d, ?_, hm⟩
      unfold decodeChar
      rw [if_neg (fun h => hbs (by rw [← hnat, h]; rfl)),
        if_neg (by rw [UInt8.lt_iff_toNat_lt, hnat]; show ¬ cp < 32; omega),
        if_neg (by rw [UInt8.le_iff_toNat_le, hnat]; show ¬ 128 ≤ cp; omega), ok_bind_next hr]
      exact ⟨d, hm, ok_pure.mpr ⟨rfl, rfl⟩⟩
    · -- the lead byte of a longer sequence is at least `0xC0`
      have hlead : ∃ b r, Utf8.encode cp = b :: r ∧ 0xC0 ≤ b.toNat := by
        rcases Utf8.encode_cases hs with ⟨hlt, -⟩ | ⟨b, _, he, hb, -⟩ | ⟨b, _, _, he, hb, -⟩ |
            ⟨b, _, _, _, he, hb, -⟩
        · omega
        all_goals exact ⟨b, _, he, by omega⟩
      obtain ⟨b, r, he, hb⟩ := hlead
      have hne : ∀ x : UInt8, x.toNat < 0xC0 → b ≠ x := by
        rintro x hx rfl
        omega
      refine ⟨b, r ++ out, by rw [hr, he]; rfl, hne _ (by decide), d, ?_, hm⟩
      have hlen : utf8Len c.rest = (Utf8.encode cp).length := by rw [hr, utf8Len_encode hs]
      unfold decodeChar
      rw [if_neg (hne _ (by decide)),
        if_neg (by rw [UInt8.lt_iff_toNat_lt]; show ¬ b.toNat < 32; omega),
        if_pos (by rw [UInt8.le_iff_toNat_le]; show 128 ≤ b.toNat; omega), ok_bind_get]
      have hpos := (Utf8.encode_length cp).1
      rw [if_neg (by omega), ok_bind_advance hlen.symm hr]
      refine ⟨d, hm, ok_pure.mpr ⟨?_, rfl⟩⟩
      rw [hlen, hr, List.take_left]

/-- The loop has read the body of a string and the quote behind it. -/
theorem decodeStringBody_sound {fuel : Nat} {acc s : Bytes}
    (h : Ok (decodeStringBody true fuel acc) c s c') :
    ∃ t body, StringBody t body ∧ s = acc ++ body ∧ c.Moved (t ++ [0x22]) 0 c' := by
  induction fuel generalizing c acc with
  | zero => exact absurd h not_ok_throw
  | succ fuel ih =>
    unfold decodeStringBody at h
    rw [ok_bind_remains] at h
    cases hr : c.rest with
    | nil =>
      rw [hr, if_neg (by simp), if_pos rfl, ok_bind_position] at h
      exact absurd h not_ok_fail
    | cons ch out =>
      rw [hr, if_pos (by simp), ok_bind_readAt (by rw [hr]; rfl)] at h
      by_cases hq : ch = 0x22
      · rw [if_pos ⟨rfl, hq⟩, ok_bind_next hr] at h
        obtain ⟨d, hm, h⟩ := h
        rw [ok_pure] at h
        rw [h.1, h.2]
        exact ⟨[], [], StringBody.nil, by simp, hq ▸ hm⟩
      · rw [if_neg (fun hc => hq hc.2)] at h
        obtain ⟨s₁, d, hd, h⟩ := ok_bind.mp h
        obtain ⟨t, hc, hm⟩ := decodeChar_sound hr hq hd
        obtain ⟨t', body, hb, hs, hm'⟩ := ih h
        exact ⟨t ++ t', s₁ ++ body, StringBody.cons hc hb, by rw [hs, List.append_assoc],
          by rw [List.append_assoc]; exact hm.trans hm'⟩

/-- A character has bytes, so a round of the loop is a step towards its end. -/
theorem stringChar_ne_nil {t s : Bytes} (h : StringChar t s) : t ≠ [] := by
  cases h with
  | raw _ _ _ _ => exact Utf8.encode_ne_nil _
  | escape _ => simp
  | unicode _ _ => simp
  | surrogates _ _ _ _ _ _ => simp

/-- A body is read to its quote, if there are rounds enough. -/
theorem decodeStringBody_complete (fuel : Nat) {t body out : Bytes} (acc : Bytes)
    (hb : StringBody t body)
    (hr : c.rest = t ++ 0x22 :: out) (hfuel : t.length < fuel) :
    ∃ c', Ok (decodeStringBody true fuel acc) c (acc ++ body) c' ∧ c.Moved (t ++ [0x22]) 0 c' := by
  induction fuel generalizing c t body acc with
  | zero => omega
  | succ fuel ih =>
    unfold decodeStringBody
    cases hb with
    | nil =>
      obtain ⟨d, hm⟩ := exists_moved (t := [0x22]) hr
      refine ⟨d, ?_, hm⟩
      rw [ok_bind_remains, hr, if_pos (by simp), ok_bind_readAt (by rw [hr]; rfl),
        if_pos ⟨rfl, rfl⟩, ok_bind_next hr]
      exact ⟨d, hm, ok_pure.mpr ⟨by simp, rfl⟩⟩
    | @cons t s t' s' hc hb' =>
      have hr' : c.rest = t ++ (t' ++ 0x22 :: out) := by rw [hr, List.append_assoc]
      obtain ⟨ch, r, hhead, hq, d, hd, hm⟩ := decodeChar_complete hc hr'
      have hlen : 0 < t.length := List.length_pos_iff.mpr (stringChar_ne_nil hc)
      obtain ⟨c', h', hm'⟩ := ih (acc ++ s) hb' (hm.rest_eq hr')
        (by rw [List.length_append] at hfuel; omega)
      refine ⟨c', ?_, by rw [List.append_assoc]; exact hm.trans hm'⟩
      rw [ok_bind_remains, hhead, if_pos (by simp), ok_bind_readAt (by rw [hhead]; rfl),
        if_neg (fun hc => hq hc.2)]
      exact Ok.bind hd (by rw [← List.append_assoc]; exact h')

/-- **A quoted string**, from its first quote to its last. -/
theorem extractString_sound {s : Bytes} (h : Ok extractString c s c') :
    ∃ t, StringBody t s ∧ c.Moved (0x22 :: (t ++ [0x22])) 0 c' := by
  unfold extractString at h
  rw [ok_bind_get] at h
  cases hr : c.rest with
  | nil =>
    rw [hr, List.head?_nil, ok_bind_position] at h
    exact absurd h not_ok_fail
  | cons ch out =>
    rw [hr, List.head?_cons] at h
    by_cases hq : ch = 0x22
    · simp only [hq, ne_eq, not_true_eq_false, if_false] at h
      rw [ok_bind_next (hq ▸ hr)] at h
      obtain ⟨d, hm, h⟩ := h
      rw [ok_bind_get] at h
      obtain ⟨t, body, hb, hs, hm'⟩ := decodeStringBody_sound h
      rw [List.nil_append] at hs
      exact ⟨t, hs ▸ hb, hm.trans hm'⟩
    · simp only [ne_eq, hq, not_false_eq_true, if_true] at h
      rw [ok_bind_position] at h
      exact absurd h not_ok_fail

/-- Every string of the grammar is extracted. -/
theorem extractString_complete {t s out : Bytes} (hb : StringBody t s)
    (hr : c.rest = 0x22 :: (t ++ 0x22 :: out)) :
    ∃ c', Ok extractString c s c' ∧ c.Moved (0x22 :: (t ++ [0x22])) 0 c' := by
  obtain ⟨d, hm⟩ := exists_moved (t := [0x22]) hr
  have hr' : d.rest = t ++ 0x22 :: out := hm.rest_eq hr
  obtain ⟨c', h', hm'⟩ := decodeStringBody_complete (d.rest.length + 1) [] hb hr'
    (by rw [hr', List.length_append]; omega)
  refine ⟨c', ?_, hm.trans hm'⟩
  unfold extractString
  rw [ok_bind_get, hr, List.head?_cons]
  simp only [ne_eq, not_true_eq_false, if_false]
  rw [ok_bind_next hr]
  exact ⟨d, hm, by rw [ok_bind_get]; simpa using h'⟩

end Strings

/-! ## Scalars -/

section Scalars

variable {c c' : ParseCtx}

/-- The comparison of the source is the one of prefixes, if there are bytes enough. -/
theorem ok_matchWord {word : Bytes} {k : Nat} {b : Bool} (hlen : k + word.length ≤ c.rest.length) :
    Ok (matchWord k word) c b c' ↔ b = decide (word <+: c.rest.drop k) ∧ c' = c := by
  induction word generalizing k with
  | nil => rw [matchWord, ok_pure, decide_eq_true (List.nil_prefix)]
  | cons w word ih =>
    rw [List.length_cons] at hlen
    have hk : k < c.rest.length := by omega
    rw [matchWord, ok_bind_readAt (List.getElem?_eq_getElem hk), List.drop_eq_getElem_cons hk]
    by_cases hw : c.rest[k] = w
    · rw [if_pos hw, ih (by omega), ← hw]
      simp only [List.cons_prefix_cons, true_and]
    · rw [if_neg hw, ok_pure,
        decide_eq_false fun hp => hw (List.cons_prefix_cons.mp hp).1.symm]

/-- And the test before it makes it so in general. -/
theorem ok_startsWith {word : Bytes} {b : Bool} :
    Ok (startsWith word) c b c' ↔ b = decide (word <+: c.rest) ∧ c' = c := by
  unfold startsWith
  rw [ok_bind_remains]
  by_cases h : word.length ≤ c.rest.length
  · rw [if_pos (decide_eq_true h), ok_matchWord (by omega), List.drop_zero]
  · rw [if_neg (by simpa using h), ok_pure, decide_eq_false fun hp => h hp.length_le]

/-- The word that has been consumed is one of the list, with its value. -/
theorem parseKeywordFrom_sound {kws : List (Bytes × Pjson)} {v : Pjson}
    (h : Ok (parseKeywordFrom kws) c v c') :
    ∃ word, (word, v) ∈ kws ∧ c.Moved word 1 c' ∧ c.Room 1 := by
  induction kws with
  | nil =>
    rw [parseKeywordFrom, ok_bind_position] at h
    exact absurd h not_ok_fail
  | cons kw kws ih =>
    obtain ⟨word, value⟩ := kw
    unfold parseKeywordFrom at h
    obtain ⟨b, d, hb, h⟩ := ok_bind.mp h
    obtain ⟨hb, hd⟩ := ok_startsWith.mp hb
    rw [hd] at h
    by_cases hp : word <+: c.rest
    · rw [if_pos (by rw [hb, decide_eq_true hp])] at h
      obtain ⟨out, hr⟩ := hp
      rw [ok_bind_advance rfl hr.symm] at h
      obtain ⟨d₁, hm, h⟩ := h
      obtain ⟨_, d₂, hn, h⟩ := ok_bind.mp h
      obtain ⟨hroom, hm₂⟩ := ok_newNode.mp hn
      rw [ok_pure] at h
      rw [h.1, h.2]
      exact ⟨word, List.mem_cons_self .., by simpa using hm.trans hm₂, by simpa using hm.room_add.mpr ⟨Or.inl rfl, hroom⟩⟩
    · rw [if_neg (by rw [hb, decide_eq_false hp]; simp)] at h
      obtain ⟨word', hmem, hrest⟩ := ih h
      exact ⟨word', List.mem_cons_of_mem _ hmem, hrest⟩

/-- A word is found if no other of the list is at the cursor too. -/
theorem parseKeywordFrom_complete {kws : List (Bytes × Pjson)} {word out : Bytes} {v : Pjson}
    (hmem : (word, v) ∈ kws) (hr : c.rest = word ++ out)
    (hother : ∀ kw ∈ kws, kw.1 <+: c.rest → kw = (word, v)) (hroom : c.Room 1) :
    ∃ c', Ok (parseKeywordFrom kws) c v c' ∧ c.Moved word 1 c' := by
  induction kws with
  | nil => cases hmem
  | cons kw kws ih =>
    unfold parseKeywordFrom
    by_cases hp : kw.1 <+: c.rest
    · -- the first entry that matches is the word
      cases hother kw (List.mem_cons_self ..) hp
      obtain ⟨d, hm⟩ := exists_moved hr
      obtain ⟨e, hn, hm₁⟩ := newNode_ok (hm.room_add.mp (by simpa using hroom)).2
      refine ⟨e, Ok.bind (ok_startsWith.mpr ⟨rfl, rfl⟩) ?_, by simpa using hm.trans hm₁⟩
      rw [if_pos (decide_eq_true hp), ok_bind_advance rfl hr]
      exact ⟨d, hm, Ok.bind hn (ok_pure.mpr ⟨rfl, rfl⟩)⟩
    · have hne : (word, v) ≠ kw := by
        rintro rfl
        exact hp ⟨out, hr.symm⟩
      obtain ⟨c', h', hm'⟩ := ih ((List.mem_cons.mp hmem).resolve_left hne)
        (fun kw' h' => hother kw' (List.mem_cons_of_mem _ h'))
      refine ⟨c', Ok.bind (ok_startsWith.mpr ⟨rfl, rfl⟩) ?_, hm'⟩
      rw [if_neg (by rw [decide_eq_false hp]; simp)]
      exact h'

/-- The adapter of `parseNumber` behaves: it is a plain walk over the unread bytes. -/
def spanView : CursorView spanCursor where
  rest := Span.rest
  Good := fun _ => True
  Moved := fun s b t => s.rest = b ++ t.rest ∧ t.pos = s.pos + b.length
  Room := fun _ _ => True
  moved_refl := fun _ => ⟨rfl, rfl⟩
  moved_trans := fun h h' => ⟨by rw [h.1, h'.1, List.append_assoc],
    by rw [h'.2, h.2, List.length_append, Nat.add_assoc]⟩
  moved_rest := fun h => h.1
  moved_good := fun _ _ => trivial
  moved_room := fun _ _ => trivial
  peek_ok := fun {s} _ => ⟨s, ok_bind_get.mpr (ok_pure.mpr ⟨rfl, rfl⟩), rfl, rfl⟩
  take_moved := by
    intro s s' b _ h
    have h := ok_bind_get.mp h
    cases hr : s.rest with
    | nil =>
      simp only [hr, ok_pure] at h
      cases h.1
    | cons ch out =>
      simp only [hr, ok_bind_set, ok_pure] at h
      obtain ⟨hb, rfl⟩ := h
      cases hb
      exact ⟨rfl, rfl⟩
  take_ok := by
    intro s b r n _ hr _
    refine ⟨{ s with pos := s.pos + 1, rest := r }, ok_bind_get.mpr ?_⟩
    simp only [hr, ok_bind_set]
    exact ok_pure.mpr ⟨rfl, rfl⟩

/-- A number has been consumed that converts to the value returned. -/
theorem parseNumber_sound {lib : NumericLibrary} {v : Pjson} (h : Ok (parseNumber lib) c v c') :
    ∃ (t : NumberToken) (n : ParsedNumber), t.convert lib c.numberPolicy = some n ∧ v = n.toPjson ∧
      c.Moved t.text 1 c' ∧ c.Room 1 := by
  unfold parseNumber at h
  rw [ok_bind_get] at h
  cases hs : (scanJsonNumber spanCursor (c.rest.length + 1)).run ⟨c.pos, c.rest⟩ with
  | error e scan =>
    rw [hs] at h
    cases e with
    | scan message => exact absurd h not_ok_fail
    | _ => exact absurd h not_ok_throw
  | ok r scan =>
    obtain ⟨t, rfl, hm, -⟩ := spanView.scanJsonNumber_sound trivial (show Ok _ _ r scan from hs)
    rw [hs] at h
    cases hconv : convertNumberToken lib t.text t.isFloat c.numberPolicy with
    | error message =>
      simp only [hconv] at h
      exact absurd h not_ok_fail
    | ok n =>
      simp only [hconv] at h
      obtain ⟨_, d, hn, h⟩ := ok_bind.mp h
      obtain ⟨hroom, hm₁⟩ := ok_newNode.mp hn
      rw [ok_bind_modify, ok_pure] at h
      refine ⟨t, n, by rw [NumberToken.convert, hconv]; rfl, h.1, ⟨?_, ?_⟩, hroom⟩
      · rw [h.2]
        exact hm.1
      · rw [h.2, hm₁.eq]
        simp [show scan.pos = c.pos + t.text.length from hm.2]

/-- A token that converts is consumed, up to the byte that ends it. -/
theorem parseNumber_complete {lib : NumericLibrary} {t : NumberToken} {n : ParsedNumber}
    {out : Bytes} (hconv : t.convert lib c.numberPolicy = some n) (hr : c.rest = t.text ++ out)
    (hout : EndsNumber out) (hroom : c.Room 1) :
    ∃ c', Ok (parseNumber lib) c n.toPjson c' ∧ c.Moved t.text 1 c' := by
  have hat : spanView.At ⟨c.pos, c.rest⟩ (t.text ++ out) (t.text.length + 0) :=
    ⟨trivial, hr, trivial⟩
  obtain ⟨scan, hs, hm, hat'⟩ := CursorView.scanJsonNumber_complete (c.rest.length + 1) hat
    (by rw [hr, List.length_append]; omega) hout
  have hconv' : convertNumberToken lib t.text t.isFloat c.numberPolicy = .ok n := by
    unfold NumberToken.convert at hconv
    cases h : convertNumberToken lib t.text t.isFloat c.numberPolicy with
    | error m => rw [h] at hconv; cases hconv
    | ok n' => rw [h] at hconv; cases hconv; rfl
  obtain ⟨d, hn, hm₁⟩ := newNode_ok hroom
  refine ⟨{ d with pos := scan.pos, rest := scan.rest }, ?_, ?_⟩
  · unfold parseNumber
    rw [ok_bind_get, show (scanJsonNumber spanCursor (c.rest.length + 1)).run ⟨c.pos, c.rest⟩ =
      .ok (t.text, t.isFloat) scan from hs]
    simp only [hconv']
    refine Ok.bind hn ?_
    rw [ok_bind_modify]
    exact ok_pure.mpr ⟨rfl, rfl⟩
  · refine ⟨hm.1, ?_⟩
    rw [hm₁.eq]
    simp [show scan.pos = c.pos + t.text.length from hm.2]

end Scalars

end Dom

end ByteDance
