/-
  ECMAScript patterns in Unicode mode: the grammar of ECMA-262 (2024), section 22.2.1.

  `ParseTree σ` are the parse trees of a symbol; a leaf carries what its production asks of its characters.
  `marked t` is the source text of a tree byte by byte, each with a mark that says whether it
  belongs to an escape or a character class, and `text t` the bytes alone, in UTF-8.

  Lookahead restrictions and early errors are left out.  They take patterns away and add none, and so does
  the table of identifier characters: a group name may have any code point beyond ASCII.
-/
import Pjson.Lib.Decimal
import Pjson.Lib.Utf8

namespace EcmaScript

open Decimal

/-! ## Characters -/

/-- `SyntaxCharacter`. -/
def syntaxCharacters : List UInt8 :=
  [0x5E, 0x24, 0x5C, 0x2E, 0x2A, 0x2B, 0x3F, 0x28, 0x29, 0x5B, 0x5D, 0x7B, 0x7D, 0x7C]

def IsLetter (b : UInt8) : Prop := 0x61 ≤ b ∧ b ≤ 0x7A ∨ 0x41 ≤ b ∧ b ≤ 0x5A

instance (b : UInt8) : Decidable (IsLetter b) := inferInstanceAs (Decidable (_ ∨ _))

def IsHexDigit (b : UInt8) : Prop := IsDigit b ∨ 0x61 ≤ b ∧ b ≤ 0x66 ∨ 0x41 ≤ b ∧ b ≤ 0x46

instance (b : UInt8) : Decidable (IsHexDigit b) := inferInstanceAs (Decidable (_ ∨ _))

/-- `SourceCharacter`. -/
inductive SourceCharacter where
  | ascii (b : UInt8) (h : b < 0x80)
  | wide (cp : Nat) (scalar : Utf8.IsScalar cp) (h : 0x80 ≤ cp)

def SourceCharacter.text : SourceCharacter → List UInt8
  | .ascii b _ => [b]
  | .wide cp _ _ => Utf8.encode cp

/-- A source character but none of these. -/
structure CharacterBut (excluded : List UInt8) where
  char : SourceCharacter
  allowed : ∀ b ∈ char.text, b ∉ excluded

/-- A string of hexadecimal digits. -/
structure HexDigits where
  digits : List UInt8
  ne_nil : digits ≠ []
  hex : ∀ b ∈ digits, IsHexDigit b

/-- `DecimalDigits`. -/
structure DecimalDigits where
  digits : List UInt8
  ne_nil : digits ≠ []
  all : AllDigits digits

/-! ## Escapes -/

/-- `RegExpUnicodeEscapeSequence`, behind its backslash. -/
inductive UnicodeEscape where
  | four (digits : HexDigits) (h : digits.digits.length = 4)
  | pair (lead trail : HexDigits) (h : lead.digits.length = 4) (h' : trail.digits.length = 4)
  | codePoint (digits : HexDigits)

def UnicodeEscape.text : UnicodeEscape → List UInt8
  | .four digits _ => 0x75 :: digits.digits
  | .pair lead trail _ _ => 0x75 :: (lead.digits ++ 0x5C :: 0x75 :: trail.digits)
  | .codePoint digits => 0x75 :: 0x7B :: (digits.digits ++ [0x7D])

/-- `CharacterEscape`. -/
inductive CharacterEscape where
  | control (b : UInt8) (h : b ∈ [0x66, 0x6E, 0x72, 0x74, 0x76])
  | caret (letter : UInt8) (h : IsLetter letter)
  | null
  | hex (digits : HexDigits) (h : digits.digits.length = 2)
  | unicode (e : UnicodeEscape)
  | identity (b : UInt8) (h : b ∈ 0x2F :: syntaxCharacters)

def CharacterEscape.text : CharacterEscape → List UInt8
  | .control b _ => [b]
  | .caret letter _ => [0x63, letter]
  | .null => [0x30]
  | .hex digits _ => 0x78 :: digits.digits
  | .unicode e => e.text
  | .identity b _ => [b]

/-- `UnicodePropertyValueExpression`. -/
inductive PropertyExpression where
  | lone (value : List UInt8) (h : value ≠ []) (h' : ∀ b ∈ value, IsLetter b ∨ IsDigit b ∨ b = 0x5F)
  | pair (name value : List UInt8) (hn : name ≠ []) (hn' : ∀ b ∈ name, IsLetter b ∨ b = 0x5F)
      (h : value ≠ []) (h' : ∀ b ∈ value, IsLetter b ∨ IsDigit b ∨ b = 0x5F)

def PropertyExpression.text : PropertyExpression → List UInt8
  | .lone value _ _ => value
  | .pair name value _ _ _ _ => name ++ 0x3D :: value

/-- `CharacterClassEscape`. -/
inductive CharacterClassEscape where
  | letter (b : UInt8) (h : b ∈ [0x64, 0x44, 0x73, 0x53, 0x77, 0x57])
  | property (b : UInt8) (h : b = 0x70 ∨ b = 0x50) (e : PropertyExpression)

def CharacterClassEscape.text : CharacterClassEscape → List UInt8
  | .letter b _ => [b]
  | .property b _ e => b :: 0x7B :: (e.text ++ [0x7D])

/-- A character of a group name. -/
inductive NameCharacter where
  | char (c : SourceCharacter) (h : ∀ b ∈ c.text, 0x80 ≤ b ∨ IsLetter b ∨ IsDigit b ∨ b = 0x24 ∨ b = 0x5F)
  | escape (e : UnicodeEscape)

def NameCharacter.marked : NameCharacter → List (UInt8 × Bool)
  | .char c _ => c.text.map (·, false)
  | .escape e => (0x5C :: e.text).map (·, true)

/-- `GroupName`. -/
structure GroupName where
  characters : List NameCharacter
  ne_nil : characters ≠ []

def GroupName.marked (n : GroupName) : List (UInt8 × Bool) :=
  (0x3C, false) :: (n.characters.flatMap NameCharacter.marked ++ [(0x3E, false)])

/-- `AtomEscape`. -/
inductive AtomEscape where
  | decimal (first : UInt8) (rest : List UInt8) (h : 0x31 ≤ first ∧ first ≤ 0x39) (h' : AllDigits rest)
  | characterClass (e : CharacterClassEscape)
  | character (e : CharacterEscape)
  | named (n : GroupName)

def AtomEscape.marked : AtomEscape → List (UInt8 × Bool)
  | .decimal first rest _ _ => (0x5C :: first :: rest).map (·, true)
  | .characterClass e => (0x5C :: e.text).map (·, true)
  | .character e => (0x5C :: e.text).map (·, true)
  | .named n => (0x5C, true) :: (0x6B, true) :: n.marked

/-! ## Character classes -/

/-- `ClassAtom`; a range is three of them. -/
inductive ClassAtom where
  | char (c : CharacterBut [0x5C, 0x5D])
  | backspace
  | dash
  | characterClass (e : CharacterClassEscape)
  | character (e : CharacterEscape)

def ClassAtom.text : ClassAtom → List UInt8
  | .char c => c.char.text
  | .backspace => [0x5C, 0x62]
  | .dash => [0x5C, 0x2D]
  | .characterClass e => 0x5C :: e.text
  | .character e => 0x5C :: e.text

/-- `CharacterClass`. -/
structure CharacterClass where
  negated : Bool
  atoms : List ClassAtom

def CharacterClass.text (c : CharacterClass) : List UInt8 :=
  0x5B :: ((if c.negated then [0x5E] else []) ++ (c.atoms.flatMap ClassAtom.text ++ [0x5D]))

/-! ## Quantifiers and assertions -/

/-- `QuantifierPrefix`. -/
inductive QuantifierPrefix where
  | star
  | plus
  | question
  | exactly (n : DecimalDigits)
  | atLeast (n : DecimalDigits)
  | between (n m : DecimalDigits)

def QuantifierPrefix.text : QuantifierPrefix → List UInt8
  | .star => [0x2A]
  | .plus => [0x2B]
  | .question => [0x3F]
  | .exactly n => 0x7B :: (n.digits ++ [0x7D])
  | .atLeast n => 0x7B :: (n.digits ++ [0x2C, 0x7D])
  | .between n m => 0x7B :: (n.digits ++ 0x2C :: (m.digits ++ [0x7D]))

/-- `Quantifier`. -/
structure Quantifier where
  kind : QuantifierPrefix
  lazy : Bool

def Quantifier.text (q : Quantifier) : List UInt8 := q.kind.text ++ if q.lazy then [0x3F] else []

/-- The explicit bounds of a repetition. -/
def Quantifier.bounds (q : Quantifier) : List Nat :=
  match q.kind with
  | .exactly n => [value n.digits]
  | .atLeast n => [value n.digits]
  | .between n m => [value n.digits, value m.digits]
  | _ => []

/-- An `Assertion` that is no group. -/
inductive Assertion where
  | start
  | finish
  | boundary
  | notBoundary

def Assertion.marked : Assertion → List (UInt8 × Bool)
  | .start => [(0x5E, false)]
  | .finish => [(0x24, false)]
  | .boundary => [(0x5C, true), (0x62, true)]
  | .notBoundary => [(0x5C, true), (0x42, true)]

/-- An `Assertion` with a group. -/
inductive Look where
  | ahead
  | notAhead
  | behind
  | notBehind

/-- Marks are only beside the bytes. -/
@[simp] theorem map_fst_mark (text : List UInt8) (mark : Bool) :
    (text.map (·, mark)).map Prod.fst = text := by
  rw [List.map_map]
  exact List.map_id text

/-- What stands behind the `(?`. -/
def Look.text : Look → List UInt8
  | .ahead => [0x3D]
  | .notAhead => [0x21]
  | .behind => [0x3C, 0x3D]
  | .notBehind => [0x3C, 0x21]

/-! ## Trees -/

inductive Symbol where
  | disjunction
  | alternative
  | term
  | atom

/-- The parse trees of a symbol. -/
inductive ParseTree : Symbol → Type
  | only : ParseTree .alternative → ParseTree .disjunction
  | bar : ParseTree .alternative → ParseTree .disjunction → ParseTree .disjunction
  | empty : ParseTree .alternative
  | snoc : ParseTree .alternative → ParseTree .term → ParseTree .alternative
  | assertion : Assertion → ParseTree .term
  | look : Look → ParseTree .disjunction → ParseTree .term
  | single : ParseTree .atom → ParseTree .term
  | quantified : ParseTree .atom → Quantifier → ParseTree .term
  | character : CharacterBut syntaxCharacters → ParseTree .atom
  | dot : ParseTree .atom
  | escape : AtomEscape → ParseTree .atom
  | characterClass : CharacterClass → ParseTree .atom
  | group : Option GroupName → ParseTree .disjunction → ParseTree .atom
  | nonCapturing : ParseTree .disjunction → ParseTree .atom

/-- `Pattern`. -/
abbrev Pattern := ParseTree .disjunction

namespace ParseTree

/-- The source text, each byte with the mark of an escape or a class. -/
def marked {σ : Symbol} : ParseTree σ → List (UInt8 × Bool)
  | only a => a.marked
  | bar a d => a.marked ++ (0x7C, false) :: d.marked
  | empty => []
  | snoc a t => a.marked ++ t.marked
  | assertion a => a.marked
  | look k d => (0x28, false) :: (0x3F, false) :: (k.text.map (·, false) ++ (d.marked ++ [(0x29, false)]))
  | single a => a.marked
  | quantified a q => a.marked ++ q.text.map (·, false)
  | character c => c.char.text.map (·, false)
  | dot => [(0x2E, false)]
  | escape e => e.marked
  | characterClass c => c.text.map (·, true)
  | group none d => (0x28, false) :: (d.marked ++ [(0x29, false)])
  | group (some n) d => (0x28, false) :: (0x3F, false) :: (n.marked ++ (d.marked ++ [(0x29, false)]))
  | nonCapturing d => (0x28, false) :: (0x3F, false) :: (0x3A, false) :: (d.marked ++ [(0x29, false)])

/-- The source text. -/
def text {σ : Symbol} (t : ParseTree σ) : List UInt8 := t.marked.map Prod.fst

section

variable (a : ParseTree .alternative) (d : ParseTree .disjunction) (t : ParseTree .term) (x : ParseTree .atom)

theorem text_bar : (bar a d).text = a.text ++ 0x7C :: d.text := by simp [text, marked]

theorem text_snoc : (snoc a t).text = a.text ++ t.text := by simp [text, marked]

theorem text_look (k : Look) : (look k d).text = 0x28 :: 0x3F :: (k.text ++ (d.text ++ [0x29])) := by
  simp [text, marked, Function.comp_def]

theorem text_quantified (q : Quantifier) : (quantified x q).text = x.text ++ q.text := by
  simp [text, marked, Function.comp_def]

theorem text_character (c : CharacterBut syntaxCharacters) : (character c).text = c.char.text := map_fst_mark _ _

theorem text_characterClass (c : CharacterClass) : (characterClass c).text = c.text := map_fst_mark _ _

theorem text_group : (group none d).text = 0x28 :: (d.text ++ [0x29]) := by simp [text, marked]

theorem text_namedGroup (n : GroupName) :
    (group (some n) d).text = 0x28 :: 0x3F :: (n.marked.map Prod.fst ++ (d.text ++ [0x29])) := by
  simp [text, marked]

theorem text_nonCapturing : (nonCapturing d).text = 0x28 :: 0x3F :: 0x3A :: (d.text ++ [0x29]) := by
  simp [text, marked]

end

/-- The quantifiers, from left to right. -/
def quantifiers {σ : Symbol} : ParseTree σ → List Quantifier
  | only a => a.quantifiers
  | bar a d => a.quantifiers ++ d.quantifiers
  | empty => []
  | snoc a t => a.quantifiers ++ t.quantifiers
  | assertion _ => []
  | look _ d => d.quantifiers
  | single a => a.quantifiers
  | quantified a q => a.quantifiers ++ [q]
  | character _ => []
  | dot => []
  | escape _ => []
  | characterClass _ => []
  | group _ d => d.quantifiers
  | nonCapturing d => d.quantifiers

/-- How many `|` there are. -/
def disjunctions {σ : Symbol} : ParseTree σ → Nat
  | only a => a.disjunctions
  | bar a d => a.disjunctions + d.disjunctions + 1
  | empty => 0
  | snoc a t => a.disjunctions + t.disjunctions
  | assertion _ => 0
  | look _ d => d.disjunctions
  | single a => a.disjunctions
  | quantified a _ => a.disjunctions
  | character _ => 0
  | dot => 0
  | escape _ => 0
  | characterClass _ => 0
  | group _ d => d.disjunctions
  | nonCapturing d => d.disjunctions

/-- How many decimal escapes there are: they refer back to a group. -/
def backreferences {σ : Symbol} : ParseTree σ → Nat
  | only a => a.backreferences
  | bar a d => a.backreferences + d.backreferences
  | empty => 0
  | snoc a t => a.backreferences + t.backreferences
  | assertion _ => 0
  | look _ d => d.backreferences
  | single a => a.backreferences
  | quantified a _ => a.backreferences
  | character _ => 0
  | dot => 0
  | escape (.decimal _ _ _ _) => 1
  | escape _ => 0
  | characterClass _ => 0
  | group _ d => d.backreferences
  | nonCapturing d => d.backreferences

/-- How many groups there are, of every kind. -/
def groups {σ : Symbol} : ParseTree σ → Nat
  | only a => a.groups
  | bar a d => a.groups + d.groups
  | empty => 0
  | snoc a t => a.groups + t.groups
  | assertion _ => 0
  | look _ d => d.groups + 1
  | single a => a.groups
  | quantified a _ => a.groups
  | character _ => 0
  | dot => 0
  | escape _ => 0
  | characterClass _ => 0
  | group _ d => d.groups + 1
  | nonCapturing d => d.groups + 1

end ParseTree

end EcmaScript
