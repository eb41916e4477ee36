/-
  The static helpers of `pJsonParserImpl` that both parsers use on single bytes: white space,
  hexadecimal digits, and the encoder for escaped code points.

  Each is followed by what it means in the grammar, so that neither parser's proof looks at a
  mask or a shift again.
-/
import Pjson.Grammar.Syntax

namespace ByteDance

def isWhitespace (c : UInt8) : Bool := c == 0x20 || c == 0x09 || c == 0x0A || c == 0x0D

/-- `appendUtf8`: the bytes it appends. -/
def appendUtf8 (codePoint : Nat) : Bytes :=
  if codePoint ≤ 0x7F then [UInt8.ofNat codePoint]
  else if codePoint ≤ 0x7FF then
    [UInt8.ofNat (0xC0 ||| codePoint >>> 6), UInt8.ofNat (0x80 ||| codePoint &&& 0x3F)]
  else if codePoint ≤ 0xFFFF then
    [UInt8.ofNat (0xE0 ||| codePoint >>> 12), UInt8.ofNat (0x80 ||| codePoint >>> 6 &&& 0x3F),
      UInt8.ofNat (0x80 ||| codePoint &&& 0x3F)]
  else
    [UInt8.ofNat (0xF0 ||| codePoint >>> 18), UInt8.ofNat (0x80 ||| codePoint >>> 12 &&& 0x3F),
      UInt8.ofNat (0x80 ||| codePoint >>> 6 &&& 0x3F), UInt8.ofNat (0x80 ||| codePoint &&& 0x3F)]

/-- The loop of `hex4`, over the four bytes. -/
def hexDigits : Nat → Bytes → Option Nat
  | out, [] => some out
  | out, h :: rest =>
    let out := out <<< 4
    if 0x30 ≤ h ∧ h ≤ 0x39 then hexDigits (out ||| (h.toNat - 0x30)) rest
    else if 0x61 ≤ h ∧ h ≤ 0x66 then hexDigits (out ||| (h.toNat - 0x61 + 10)) rest
    else if 0x41 ≤ h ∧ h ≤ 0x46 then hexDigits (out ||| (h.toNat - 0x41 + 10)) rest
    else none

/-! ## What they mean -/

theorem isWhitespace_iff (c : UInt8) :
    isWhitespace c = true ↔ c = 0x20 ∨ c = 0x09 ∨ c = 0x0A ∨ c = 0x0D := by
  simp [isWhitespace, or_assoc]

theorem ws_nil : Ws [] := by simp [Ws]

theorem ws_cons {b : UInt8} {w : Bytes} : Ws (b :: w) ↔ isWhitespace b = true ∧ Ws w := by
  rw [isWhitespace_iff]
  simp [Ws]

theorem ws_append {w w' : Bytes} (h : Ws w) (h' : Ws w') : Ws (w ++ w') := fun b hb =>
  (List.mem_append.mp hb).elim (h b) (h' b)

/-- Putting a six-bit payload under a tag in the bits above it. -/
theorem tag_or (tag : Nat) {x : Nat} (hx : x < 64) : (tag * 64) ||| x = tag * 64 + x := by
  rw [← Nat.shiftLeft_eq tag 6, ← Nat.shiftLeft_add_eq_or_of_lt (by omega : x < 2 ^ 6)]

/-- **The encoder is UTF-8** on the code points there are. -/
theorem appendUtf8_eq {cp : Nat} (h : cp ≤ 0x10FFFF) : appendUtf8 cp = Utf8.encode cp := by
  have hmask : ∀ x : Nat, x &&& 0x3F = x % 64 := fun x => Nat.and_two_pow_sub_one_eq_mod x 6
  have htail : ∀ x : Nat, UInt8.ofNat (0x80 ||| x &&& 0x3F) = Utf8.tail x := by
    intro x
    rw [hmask, show 0x80 = 2 * 64 from rfl, tag_or 2 (Nat.mod_lt _ (by decide))]
    rfl
  have hlead : ∀ {x : Nat}, x < 64 → UInt8.ofNat (0xC0 ||| x) = UInt8.ofNat (0xC0 + x) := by
    intro x hx
    rw [show 0xC0 = 3 * 64 from rfl, tag_or 3 hx]
  have hlead3 : ∀ {x : Nat}, x < 16 → UInt8.ofNat (0xE0 ||| x) = UInt8.ofNat (0xE0 + x) := by
    intro x hx
    interval_cases x <;> rfl
  have hlead4 : ∀ {x : Nat}, x < 8 → UInt8.ofNat (0xF0 ||| x) = UInt8.ofNat (0xF0 + x) := by
    intro x hx
    interval_cases x <;> rfl
  unfold appendUtf8 Utf8.encode
  simp only [htail, Nat.shiftRight_eq_div_pow]
  rcases Nat.lt_or_ge cp 0x80 with h1 | h1
  · rw [if_pos (by omega), if_pos h1]
  rcases Nat.lt_or_ge cp 0x800 with h2 | h2
  · rw [if_neg (by omega), if_pos (by omega), if_neg (by omega), if_pos h2,
      hlead (by omega)]
  rcases Nat.lt_or_ge cp 0x10000 with h3 | h3
  · rw [if_neg (by omega), if_neg (by omega), if_pos (by omega), if_neg (by omega),
      if_neg (by omega), if_pos h3, hlead3 (by omega)]
  · rw [if_neg (by omega), if_neg (by omega), if_neg (by omega), if_neg (by omega),
      if_neg (by omega), if_neg (by omega), hlead4 (by omega)]

theorem hexVal_lt {h : UInt8} {v : Nat} (hv : hexVal h = some v) : v < 16 := by
  unfold hexVal at hv
  simp only [UInt8.le_iff_toNat_le] at hv
  split_ifs at hv with h1 h2 h3 <;> cases hv
  · have : h.toNat ≤ 57 := h1.2; omega
  · have : h.toNat ≤ 102 := h2.2; omega
  · have : h.toNat ≤ 70 := h3.2; omega

theorem hexDigits_nil (out : Nat) : hexDigits out [] = some out := rfl

/-- One round of the loop: sixteen times, plus the digit. -/
theorem hexDigits_cons (out : Nat) (h : UInt8) (rest : Bytes) :
    hexDigits out (h :: rest) = (hexVal h).bind fun v => hexDigits (out * 16 + v) rest := by
  have hor : ∀ {v : Nat}, v < 16 → out <<< 4 ||| v = out * 16 + v := by
    intro v hv
    rw [← Nat.shiftLeft_add_eq_or_of_lt (by omega : v < 2 ^ 4), Nat.shiftLeft_eq]
  rw [hexDigits]
  cases hv : hexVal h with
  | none =>
    unfold hexVal at hv
    split_ifs at hv with h₁ h₂ h₃
    rw [if_neg h₁, if_neg h₂, if_neg h₃]
    rfl
  | some v =>
    have hlt := hexVal_lt hv
    rw [Option.bind_some]
    unfold hexVal at hv
    split_ifs at hv ⊢ <;> cases hv <;> rw [hor hlt]

/-- **Four hexadecimal digits** are a `HexQuad`, and nothing else is. -/
theorem hexDigits_iff {a b c d : UInt8} {u : Nat} :
    hexDigits 0 [a, b, c, d] = some u ↔ HexQuad [a, b, c, d] u := by
  simp only [hexDigits_cons, hexDigits_nil, Option.bind_eq_some_iff, Option.some.injEq]
  constructor
  · rintro ⟨va, ha, vb, hb, vc, hc, vd, hd, rfl⟩
    exact ⟨a, b, c, d, va, vb, vc, vd, rfl, ha, hb, hc, hd, by ring⟩
  · rintro ⟨a', b', c', d', va, vb, vc, vd, heq, ha, hb, hc, hd, rfl⟩
    cases heq
    exact ⟨va, ha, vb, hb, vc, hc, vd, hd, by ring⟩

theorem hexQuad_of_hexDigits {q : Bytes} {u : Nat} (hq : q.length = 4)
    (h : hexDigits 0 q = some u) : HexQuad q u := by
  match q, hq with
  | [_, _, _, _], _ => exact hexDigits_iff.mp h

theorem HexQuad.hexDigits_eq {q : Bytes} {u : Nat} (h : HexQuad q u) :
    hexDigits 0 q = some u := by
  obtain ⟨a, b, c, d, va, vb, vc, vd, rfl, hv⟩ := id h
  exact hexDigits_iff.mpr h

theorem HexQuad.lt {q : Bytes} {u : Nat} (h : HexQuad q u) : u < 0x10000 := by
  obtain ⟨a, b, c, d, va, vb, vc, vd, -, ha, hb, hc, hd, rfl⟩ := h
  have := hexVal_lt ha
  have := hexVal_lt hb
  have := hexVal_lt hc
  have := hexVal_lt hd
  omega

theorem HexQuad.length {q : Bytes} {u : Nat} (h : HexQuad q u) : q.length = 4 := by
  obtain ⟨a, b, c, d, va, vb, vc, vd, rfl, -⟩ := h
  rfl

/-- A pair of surrogates stands for a code point above the basic plane. -/
theorem surrogatePair_isScalar {hi lo : Nat} (h₁ : 0xD800 ≤ hi) (h₂ : hi ≤ 0xDBFF)
    (h₃ : 0xDC00 ≤ lo) (h₄ : lo ≤ 0xDFFF) : Utf8.IsScalar (surrogatePair hi lo) := by
  unfold Utf8.IsScalar surrogatePair
  omega

/-- What a pair of surrogates is decoded to. -/
theorem appendUtf8_pair {hi lo : Nat} (h₁ : 0xD800 ≤ hi) (h₂ : hi ≤ 0xDBFF) (h₃ : 0xDC00 ≤ lo)
    (h₄ : lo ≤ 0xDFFF) : appendUtf8 (0x10000 + (hi - 0xD800) <<< 10 + (lo - 0xDC00)) =
      Utf8.encode (surrogatePair hi lo) := by
  have hscalar := surrogatePair_isScalar h₁ h₂ h₃ h₄
  have hpair : 0x10000 + (hi - 0xD800) <<< 10 + (lo - 0xDC00) = surrogatePair hi lo := by
    rw [Nat.shiftLeft_eq]; rfl
  rw [hpair, appendUtf8_eq (by rcases hscalar with h | h <;> omega)]

/-- A raw character does not start with a backslash. -/
theorem encode_ne_backslash {cp : Nat} (hs : Utf8.IsScalar cp) (hbs : cp ≠ 0x5C) {t : Bytes} :
    Utf8.encode cp ≠ 0x5C :: t := by
  intro ht
  rcases Utf8.encode_cases hs with ⟨hlt, he⟩ | ⟨b, _, he, hb, -⟩ | ⟨b, _, _, he, hb, -⟩ |
      ⟨b, _, _, _, he, hb, -⟩
  · rw [he] at ht
    have hcp := congrArg UInt8.toNat (List.cons.inj ht).1
    rw [UInt8.toNat_ofNat', Nat.mod_eq_of_lt (by omega)] at hcp
    exact hbs hcp
  all_goals
    rw [he] at ht
    have hcp := congrArg UInt8.toNat (List.cons.inj ht).1
    rw [show (0x5C : UInt8).toNat = 92 from rfl] at hcp
    omega

/-- The switch over the byte after a backslash, by the table of the grammar. -/
theorem escape_switch {m : Type → Type} [Monad m] (e : UInt8) (rest : m Bytes) :
    (if e = 0x22 then pure [0x22] else if e = 0x5C then pure [0x5C]
      else if e = 0x2F then pure [0x2F] else if e = 0x62 then pure [0x08]
      else if e = 0x66 then pure [0x0C] else if e = 0x6E then pure [0x0A]
      else if e = 0x72 then pure [0x0D] else if e = 0x74 then pure [0x09] else rest) =
      (simpleEscape e).elim rest fun d => pure [d] := by
  unfold simpleEscape
  split_ifs <;> rfl

end ByteDance
