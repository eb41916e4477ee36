/-
  The checks a schema pattern passes before the regular-expression engine sees it.

  `isSafeRegex` is the conservative syntax filter of the safety policy, `validEcmaSyntaxSubset` and
  `hasUnsupportedGlobalModifiers` are what `EcmaRegex::compile` adds to the engine's own check.
  Each is a loop over the pattern that sometimes jumps ahead; here a jump is a count of characters
  still to skip.  The engine itself (`srell`) is a parameter.
-/
import Pjson.Schema.Uri

namespace ByteDance

/-- `EcmaRegex::Result`. -/
inductive EcmaRegex.Result where
  | Match | NoMatch | Invalid | WorkLimit
  deriving DecidableEq

/-- The engine: whether it accepts a pattern, and what a search with an accepted one returns. -/
structure EcmaRegex.Engine where
  assign : Bytes → Bool
  search : Bytes → Bytes → EcmaRegex.Result

/-! ## The syntax filter of the safety policy -/

/-- The bytes from behind an opening brace to its closing one: how many there are between them. -/
def braced (rest : Bytes) : Option Nat :=
  match rest.findIdx? (· = 0x7D) with
  | none => none
  | some 0 => none
  | some n => some n

/-- A run of digits, read as long as the number so far is at most 1000. -/
def readBound (first : Nat) : Bytes → Option (Nat × Bytes)
  | [] => some (first, [])
  | d :: rest =>
    if isAsciiDigit d then
      if first > 1000 then none else readBound (first * 10 + (d.toNat - 0x30)) rest
    else some (first, d :: rest)

/-- The bounds of a counted quantifier, from behind its brace: none exceeds 1000. -/
def boundsSafe (rest : Bytes) : Bool :=
  match readBound 0 rest with
  | none => false
  | some (first, 0x2C :: rest) =>
    match readBound 0 rest with
    | none => false
    | some (second, _) => first ≤ 1000 && second ≤ 1000
  | some (first, _) => first ≤ 1000

structure RegexGroup where
  hasQuantifier : Bool := false
  hasAlternation : Bool := false

/-- The state of the loop of `isSafeRegex`; the innermost group is the head of the stack. -/
structure SafeScan where
  escaped : Bool := false
  inClass : Bool := false
  groups : Nat := 0
  quantifiers : Nat := 0
  stack : List RegexGroup := []

/-- Marks the innermost group as quantified. -/
def markQuantified (quantified : Bool) : List RegexGroup → List RegexGroup
  | [] => []
  | g :: stack => { g with hasQuantifier := g.hasQuantifier || quantified } :: stack

def isQuantifier (c : UInt8) : Bool := c == 0x2A || c == 0x2B || c == 0x3F || c == 0x7B

/-- The loop of `isSafeRegex`. -/
def isSafeFrom (s : SafeScan) : Nat → Bytes → Bool
  | _, [] => true
  | skip + 1, _ :: rest => isSafeFrom s skip rest
  | 0, c :: rest =>
    if s.escaped then
      if 0x31 ≤ c && c ≤ 0x39 then false
      else if (c == 0x70 || c == 0x50) && rest.head? == some 0x7B then
        match braced rest.tail with
        | none => false
        | some n => isSafeFrom { s with escaped := false } (n + 2) rest
      else isSafeFrom { s with escaped := false } 0 rest
    else if c = 0x5C then isSafeFrom { s with escaped := true } 0 rest
    else if c = 0x5B then isSafeFrom { s with inClass := true } 0 rest
    else if c = 0x5D ∧ s.inClass then isSafeFrom { s with inClass := false } 0 rest
    else if s.inClass then isSafeFrom s 0 rest
    else if c = 0x28 then
      if s.groups + 1 > 16 then false
      else isSafeFrom { s with groups := s.groups + 1, stack := {} :: s.stack } 0 rest
    else if c = 0x7C then false
    else if isQuantifier c then
      if s.quantifiers + 1 > 1 then false
      else if c = 0x7B && !boundsSafe rest then false
      else
        isSafeFrom { s with quantifiers := s.quantifiers + 1, stack := markQuantified true s.stack } 0
          rest
    else if c = 0x29 then
      match s.stack with
      | [] => isSafeFrom s 0 rest
      | closed :: stack =>
        let quantified := (rest.head?.map isQuantifier).getD false
        if quantified && (closed.hasQuantifier || closed.hasAlternation) then false
        else
          isSafeFrom { s with stack := markQuantified (quantified || closed.hasQuantifier) stack } 0 rest
    else isSafeFrom s 0 rest

/-- `isSafeRegex`. -/
def isSafeRegex (pattern : Bytes) : Bool := isSafeFrom {} 0 pattern

/-! ## The checks of `EcmaRegex::compile` -/

/-- The letters that may follow a backslash. -/
def escapeLetters : Bytes := ascii "bBfnrtvxdDsSwWuk"

/-- What an escape demands of the bytes behind the backslash: how many of them it takes. -/
def escapeLength : Bytes → Option Nat
  | [] => none
  | escaped :: rest =>
    if escaped = 0x63 then
      match rest with
      | [] => none
      | letter :: _ => if isAsciiLetter letter then some 2 else none
    else if escaped = 0x70 ∨ escaped = 0x50 then
      if rest.head? = some 0x7B then (braced rest.tail).map (· + 3) else none
    else if isAsciiLetter escaped ∧ escaped ∉ escapeLetters then none
    else some 1

/-- The loop of `validEcmaSyntaxSubset`. -/
def ecmaSyntaxFrom (inClass : Bool) (groups : Nat) : Nat → Bytes → Bool
  | _, [] => !inClass && groups == 0
  | skip + 1, _ :: rest => ecmaSyntaxFrom inClass groups skip rest
  | 0, value :: rest =>
    if value = 0x5C then
      match escapeLength rest with
      | none => false
      | some n => ecmaSyntaxFrom inClass groups n rest
    else if value = 0x5B ∧ !inClass then ecmaSyntaxFrom true groups 0 rest
    else if value = 0x5D ∧ inClass then ecmaSyntaxFrom false groups 0 rest
    else if inClass then ecmaSyntaxFrom inClass groups 0 rest
    else if value = 0x28 then
      match rest with
      | 0x3F :: flag :: _ =>
        if flag ∈ ascii "P#ims-" then false else ecmaSyntaxFrom inClass (groups + 1) 0 rest
      | _ => ecmaSyntaxFrom inClass (groups + 1) 0 rest
    else if value = 0x29 then
      if groups = 0 then false else ecmaSyntaxFrom inClass (groups - 1) 0 rest
    else ecmaSyntaxFrom inClass groups 0 rest

/-- `validEcmaSyntaxSubset`. -/
def validEcmaSyntaxSubset (pattern : Bytes) : Bool := ecmaSyntaxFrom false 0 0 pattern

/-- `hasUnsupportedGlobalModifiers`. -/
def hasUnsupportedGlobalModifiers : Bytes → Bool
  | [] => false
  | c :: rest =>
    (match c, rest with
      | 0x28, 0x3F :: flag :: _ :: _ => decide (flag ∈ ascii "ims-")
      | _, _ => false) || hasUnsupportedGlobalModifiers rest

/-- `EcmaRegex::compile`. -/
def EcmaRegex.compile (engine : EcmaRegex.Engine) (pattern : Bytes) : Bool :=
  validEcmaSyntaxSubset pattern && !hasUnsupportedGlobalModifiers pattern && engine.assign pattern

/-! ## Alternation -/

/-- A pattern without an escape or a class is refused for an alternation. -/
theorem isSafeFrom_alternation {pattern : Bytes} (hescape : 0x5C ∉ pattern) (hclass : 0x5B ∉ pattern)
    (hbar : 0x7C ∈ pattern) {s : SafeScan} (he : s.escaped = false) (hc : s.inClass = false) :
    isSafeFrom s 0 pattern = false := by
  induction pattern generalizing s with
  | nil => cases hbar
  | cons c rest ih =>
    rw [List.mem_cons, not_or] at hescape hclass
    have hnext : c ≠ 0x7C → 0x7C ∈ rest := fun hne => (List.mem_cons.mp hbar).resolve_left (Ne.symm hne)
    rw [isSafeFrom, if_neg (by rw [he]; simp), if_neg (Ne.symm hescape.1), if_neg (Ne.symm hclass.1),
      if_neg (by rw [hc]; simp), if_neg (by rw [hc]; simp)]
    by_cases hopen : c = 0x28
    · rw [if_pos hopen]
      split_ifs
      · rfl
      · exact ih hescape.2 hclass.2 (hnext (by rw [hopen]; decide)) he hc
    rw [if_neg hopen]
    by_cases hb : c = 0x7C
    · rw [if_pos hb]
    rw [if_neg hb]
    have hrest : ∀ {s' : SafeScan}, s'.escaped = false → s'.inClass = false →
        isSafeFrom s' 0 rest = false := fun h h' => ih hescape.2 hclass.2 (hnext hb) h h'
    split_ifs
    · rfl
    · rfl
    · exact hrest he hc
    · cases s.stack with
      | nil => exact hrest he hc
      | cons closed stack =>
        dsimp only
        split_ifs <;> first | rfl | exact hrest he hc
    · exact hrest he hc

/-- **Alternation is unsafe**, unless an escape or a class could hide the bar. -/
theorem isSafeRegex_alternation {pattern : Bytes} (hescape : 0x5C ∉ pattern)
    (hclass : 0x5B ∉ pattern) (hbar : 0x7C ∈ pattern) : isSafeRegex pattern = false :=
  isSafeFrom_alternation hescape hclass hbar rfl rfl

example : isSafeRegex (ascii "(a|b)") = false := by decide

example : isSafeRegex (ascii "^[a|b]{2,5}$") = true := by decide

end ByteDance
