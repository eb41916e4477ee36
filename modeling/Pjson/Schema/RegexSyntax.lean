/-
  What the two checks before the engine make of a valid pattern.

  `validEcmaSyntaxSubset` knows escapes and classes, and passes every tree.  `hasUnsupportedGlobalModifiers`
  looks at bytes alone: it takes a parenthesis of an escape or a class for the start of a group, and
  refuses the pattern when a question mark, a modifier and one more byte follow.  That is the only way
  in which a valid pattern is kept from the engine.
-/
import Pjson.Schema.RegexSafe

namespace ByteDance

open Decimal EcmaScript

namespace RegexSyntax

variable {inClass : Bool} {text text' : Bytes} {rest : Bytes} {c : UInt8}

/-! ## The scan of the syntax subset -/

/-- A piece the scan goes over without a trace. -/
def Passes (inClass : Bool) (text : Bytes) : Prop :=
  ∀ groups rest, ecmaSyntaxFrom inClass groups 0 (text ++ rest) = ecmaSyntaxFrom inClass groups 0 rest

theorem Passes.nil : Passes inClass [] := fun _ _ => rfl

/-- One piece after the other. -/
theorem Passes.append (h : Passes inClass text) (h' : Passes inClass text') : Passes inClass (text ++ text') :=
  fun groups rest => by rw [List.append_assoc, h, h']

/-- A character in front of a piece. -/
theorem Passes.cons (h : Passes inClass [c]) (h' : Passes inClass text) : Passes inClass (c :: text) :=
  h.append h'

/-- One step of the scan, before what may be a group. -/
theorem syntax_cons {groups : Nat} (hc : c ≠ 0x28) : ecmaSyntaxFrom inClass groups 0 (c :: rest) =
    if c = 0x5C then (escapeLength rest).elim false fun n => ecmaSyntaxFrom inClass groups n rest
    else if c = 0x5B ∧ !inClass then ecmaSyntaxFrom true groups 0 rest
    else if c = 0x5D ∧ inClass then ecmaSyntaxFrom false groups 0 rest
    else if inClass then ecmaSyntaxFrom inClass groups 0 rest
    else if c = 0x29 then if groups = 0 then false else ecmaSyntaxFrom inClass (groups - 1) 0 rest
    else ecmaSyntaxFrom inClass groups 0 rest := by
  rw [ecmaSyntaxFrom.eq_def]
  dsimp only
  cases escapeLength rest <;> simp only [hc, if_false, Option.elim]

/-- The characters the scan looks at. -/
def structural : Bytes := [0x5C, 0x5B, 0x5D, 0x28, 0x29]

/-- The five of them, written out. -/
theorem forall_structural {p : UInt8 → Prop} :
    (∀ b ∈ structural, p b) ↔ p 0x5C ∧ p 0x5B ∧ p 0x5D ∧ p 0x28 ∧ p 0x29 := by
  simp [structural]

/-- A character the scan does not look at. -/
theorem passes_plain (hc : c ∉ structural) : Passes inClass [c] := by
  intro groups rest
  simp only [structural, List.mem_cons, List.not_mem_nil, or_false, not_or] at hc
  rw [List.singleton_append, syntax_cons hc.2.2.2.1]
  simp [hc]

/-- And a text of such. -/
theorem passes_plains (h : ∀ b ∈ text, b ∉ structural) : Passes inClass text := by
  induction text with
  | nil => exact .nil
  | cons c text ih =>
    rw [List.forall_mem_cons] at h
    exact (passes_plain h.1).cons (ih h.2)

/-- What means nothing to the safety filter means nothing here. -/
theorem passes_meaningless (h : ∀ b ∈ text, b ∉ RegexSafe.meaningful) : Passes inClass text := by
  have hsub : ∀ b ∈ structural, b ∈ RegexSafe.meaningful := forall_structural.mpr (by decide)
  exact passes_plains fun b hb hmem => h b hb (hsub b hmem)

/-- Within a class only the escape and the bracket that closes it are looked at. -/
theorem passes_members (h : ∀ b ∈ text, b ∉ [(0x5C : UInt8), 0x5D]) : Passes true text := by
  induction text with
  | nil => exact .nil
  | cons c text ih =>
    rw [List.forall_mem_cons] at h
    refine Passes.cons (fun groups rest => ?_) (ih h.2)
    have hc := h.1
    simp only [List.mem_cons, List.not_mem_nil, or_false, not_or] at hc
    rw [List.singleton_append, ecmaSyntaxFrom.eq_def]
    simp [hc]

/-- What an escape takes is skipped byte by byte. -/
theorem syntax_skip {groups n : Nat} (hn : text.length = n) :
    ecmaSyntaxFrom inClass groups n (text ++ rest) = ecmaSyntaxFrom inClass groups 0 rest := by
  induction text generalizing n with
  | nil =>
    subst hn
    rfl
  | cons c text ih =>
    subst hn
    rw [List.length_cons, List.cons_append, ecmaSyntaxFrom]
    exact ih rfl

/-- An escape of which the scan takes everything. -/
theorem passes_escape (h : ∀ rest, escapeLength (text ++ rest) = some text.length) : Passes inClass (0x5C :: text) := by
  intro groups rest
  rw [List.cons_append, syntax_cons (by decide), if_pos rfl, h rest]
  exact syntax_skip rfl

/-- The escape of a single character. -/
theorem passes_single (hc : c ∉ [(0x63 : UInt8), 0x70, 0x50]) (hletter : isAsciiLetter c = true → c ∈ escapeLetters) :
    Passes inClass [0x5C, c] := by
  refine passes_escape fun rest => ?_
  simp only [List.mem_cons, List.not_mem_nil, or_false, not_or] at hc
  rw [List.singleton_append, escapeLength.eq_def]
  dsimp only
  rw [if_neg hc.1, if_neg (by tauto), if_neg (by tauto)]
  rfl

/-- The three forms of a Unicode escape; a brace means nothing to the scan. -/
theorem passes_unicodeEscape (e : UnicodeEscape) : Passes inClass (0x5C :: e.text) := by
  have hu : Passes inClass [0x5C, 0x75] := passes_single (by decide) (by decide)
  have hhex : ∀ digits : HexDigits, Passes inClass digits.digits := fun digits =>
    passes_meaningless (RegexSafe.hex_meaningless digits)
  cases e with
  | four digits => exact hu.append (hhex digits)
  | pair lead trail => exact hu.append ((hhex lead).append (hu.append (hhex trail)))
  | codePoint digits =>
    exact hu.append ((passes_plain (by decide)).cons ((hhex digits).append (passes_plain (by decide))))

/-- Every escape of a character takes what the scan takes for it. -/
theorem passes_characterEscape (e : CharacterEscape) : Passes inClass (0x5C :: e.text) := by
  cases e with
  | control b h =>
    simp only [List.mem_cons, List.not_mem_nil, or_false] at h
    rcases h with rfl | rfl | rfl | rfl | rfl <;> exact passes_single (by decide) (by decide)
  | caret letter h =>
    refine passes_escape fun rest => ?_
    have hletter : isAsciiLetter letter = true := by simpa [isAsciiLetter, IsLetter] using h
    rw [CharacterEscape.text, List.cons_append, escapeLength.eq_def]
    simp [hletter]
  | null => exact passes_single (by decide) (by decide)
  | hex digits h =>
    exact (passes_single (c := 0x78) (by decide) (by decide)).append
      (passes_meaningless (RegexSafe.hex_meaningless digits))
  | unicode e => exact passes_unicodeEscape e
  | identity b h =>
    simp only [syntaxCharacters, List.mem_cons, List.not_mem_nil, or_false] at h
    rcases h with rfl | rfl | rfl | rfl | rfl | rfl | rfl | rfl | rfl | rfl | rfl | rfl | rfl | rfl | rfl <;>
      exact passes_single (by decide) (by decide)

/-- A property escape takes its braces with it. -/
theorem passes_characterClassEscape (e : CharacterClassEscape) : Passes inClass (0x5C :: e.text) := by
  cases e with
  | letter b h =>
    simp only [List.mem_cons, List.not_mem_nil, or_false] at h
    rcases h with rfl | rfl | rfl | rfl | rfl | rfl <;> exact passes_single (by decide) (by decide)
  | property b h e =>
    obtain ⟨hbrace, hne⟩ := RegexSafe.property_braceless e
    refine passes_escape fun rest => ?_
    have hc : b ≠ 0x63 := by rcases h with rfl | rfl <;> decide
    rw [CharacterClassEscape.text, List.cons_append, escapeLength.eq_def]
    dsimp only
    rw [if_neg hc, if_pos h, List.cons_append, if_pos List.head?_cons, List.tail_cons, List.append_assoc,
      List.singleton_append, RegexSafe.braced_text hne hbrace]
    simp

/-- An atom of a class leaves the scan in the class. -/
theorem passes_classAtom (a : ClassAtom) : Passes true a.text := by
  cases a with
  | char c => exact passes_members c.allowed
  | backspace => exact passes_single (by decide) (by decide)
  | dash => exact passes_single (by decide) (by decide)
  | characterClass e => exact passes_characterClassEscape e
  | character e => exact passes_characterEscape e

/-- A class is entered and left. -/
theorem passes_characterClass (k : CharacterClass) : Passes false k.text := by
  have hatoms : ∀ as : List ClassAtom, Passes true (as.flatMap ClassAtom.text) := by
    intro as
    induction as with
    | nil => exact .nil
    | cons a as ih => exact (passes_classAtom a).append ih
  have hnegated : Passes true (if k.negated then [0x5E] else []) := by
    split
    · exact passes_plain (by decide)
    · exact .nil
  intro groups rest
  rw [CharacterClass.text, List.cons_append, syntax_cons (by decide), if_neg (by decide), if_pos (by decide),
    List.append_assoc, hnegated, List.append_assoc, hatoms, List.singleton_append, syntax_cons (by decide),
    if_neg (by decide), if_neg (by decide), if_pos (by decide)]

/-- A character of a name means nothing to the scan, spelled or escaped. -/
theorem passes_nameCharacter (n : NameCharacter) : Passes false (n.marked.map Prod.fst) := by
  cases n with
  | char c h =>
    rw [NameCharacter.marked, map_fst_mark]
    exact passes_meaningless fun b hb => RegexSafe.not_meaningful
      (p := fun b => 0x80 ≤ b ∨ IsLetter b ∨ IsDigit b ∨ b = 0x24 ∨ b = 0x5F)
      (RegexSafe.forall_meaningful.mpr (by decide)) (h b hb)
  | escape e =>
    rw [NameCharacter.marked, map_fst_mark]
    exact passes_unicodeEscape e

/-- Nor does a name. -/
theorem passes_groupName (n : GroupName) : Passes false (n.marked.map Prod.fst) := by
  have hname : ∀ ns : List NameCharacter, Passes false ((ns.flatMap NameCharacter.marked).map Prod.fst) := by
    intro ns
    induction ns with
    | nil => exact .nil
    | cons n ns ih =>
      rw [List.flatMap_cons, List.map_append]
      exact (passes_nameCharacter n).append ih
  rw [GroupName.marked, List.map_cons, List.map_append]
  exact (passes_plain (by decide)).cons ((hname n.characters).append (passes_plain (by decide)))

/-- Nor does a quantifier. -/
theorem passes_quantifierText (k : Quantifier) : Passes false k.text := by
  have hdigits : ∀ n : DecimalDigits, Passes false n.digits := fun n =>
    passes_meaningless (RegexSafe.digits_meaningless n.all)
  refine Passes.append ?_ ?_
  · cases k.kind with
    | star => exact passes_plain (by decide)
    | plus => exact passes_plain (by decide)
    | question => exact passes_plain (by decide)
    | exactly n => exact (passes_plain (by decide)).cons ((hdigits n).append (passes_plain (by decide)))
    | atLeast n => exact (passes_plain (by decide)).cons ((hdigits n).append (passes_plains (by simp [structural])))
    | between n m =>
      exact (passes_plain (by decide)).cons ((hdigits n).append
        ((passes_plain (by decide)).cons ((hdigits m).append (passes_plain (by decide)))))
  · split
    · exact passes_plain (by decide)
    · exact .nil

/-! ## Trees -/

/-- The escape of an atom, back references included. -/
theorem passes_atomEscape (e : AtomEscape) : Passes false (e.marked.map Prod.fst) := by
  cases e with
  | decimal first rest h h' =>
    have hfirst : first ∉ [(0x63 : UInt8), 0x70, 0x50] ∧ isAsciiLetter first = false := by
      revert first
      decide +kernel
    rw [AtomEscape.marked, map_fst_mark]
    exact (passes_single hfirst.1 (by simp [hfirst.2])).append
      (passes_meaningless (RegexSafe.digits_meaningless h'))
  | characterClass e =>
    rw [AtomEscape.marked, map_fst_mark]
    exact passes_characterClassEscape e
  | character e =>
    rw [AtomEscape.marked, map_fst_mark]
    exact passes_characterEscape e
  | named n => exact (passes_single (c := 0x6B) (by decide) (by decide)).append (passes_groupName n)

/-- An atom has characters. -/
theorem atom_ne_nil (x : ParseTree .atom) : x.text ≠ [] := by
  cases x with
  | character c =>
    rw [ParseTree.text_character]
    cases c.char with
    | ascii b h => exact List.cons_ne_nil _ _
    | wide cp hs h => exact Utf8.encode_ne_nil cp
  | dot => exact List.cons_ne_nil _ _
  | escape e => cases e <;> exact List.cons_ne_nil _ _
  | characterClass k =>
    rw [ParseTree.text_characterClass]
    exact List.cons_ne_nil _ _
  | group name d => cases name <;> exact List.cons_ne_nil _ _
  | nonCapturing d => exact List.cons_ne_nil _ _

/-- The head of a text in two pieces. -/
theorem head_append_ne (h : text.head? ≠ some c) (h' : text ≠ [] ∨ text'.head? ≠ some c) :
    (text ++ text').head? ≠ some c := by
  cases text with
  | nil => exact h'.resolve_left fun hne => hne rfl
  | cons b text => exact h

/-- No tree begins with a question mark. -/
theorem head_ne_question {σ : Symbol} (t : ParseTree σ) : t.text.head? ≠ some 0x3F := by
  induction t with
  | only a ih => exact ih
  | bar a d iha ihd =>
    rw [ParseTree.text_bar]
    exact head_append_ne iha (.inr (by simp))
  | empty => exact fun h => by cases h
  | snoc a t iha iht =>
    rw [ParseTree.text_snoc]
    exact head_append_ne iha (.inr iht)
  | assertion a => cases a <;> decide
  | look k d => exact (by decide : some (0x28 : UInt8) ≠ some 0x3F)
  | single a ih => exact ih
  | quantified a k ih =>
    rw [ParseTree.text_quantified]
    exact head_append_ne ih (.inl (atom_ne_nil a))
  | character c =>
    rw [ParseTree.text_character]
    exact fun h => c.allowed _ (List.mem_of_mem_head? h) (by decide)
  | dot => decide
  | escape e => cases e <;> exact (by decide : some (0x5C : UInt8) ≠ some 0x3F)
  | characterClass k =>
    rw [ParseTree.text_characterClass]
    exact (by decide : some (0x5B : UInt8) ≠ some 0x3F)
  | group name d => cases name <;> exact (by decide : some (0x28 : UInt8) ≠ some 0x3F)
  | nonCapturing d => exact (by decide : some (0x28 : UInt8) ≠ some 0x3F)

/-- A group is closed that has been opened. -/
theorem syntax_close {groups : Nat} :
    ecmaSyntaxFrom false (groups + 1) 0 (0x29 :: rest) = ecmaSyntaxFrom false groups 0 rest := by
  rw [syntax_cons (by decide), if_neg (by decide), if_neg (by decide), if_neg (by decide), if_neg (by decide),
    if_pos rfl, if_neg (Nat.succ_ne_zero _), Nat.add_sub_cancel]

/-- A parenthesis without a question mark behind it. -/
theorem syntax_open {groups : Nat} (h : rest.head? ≠ some 0x3F) :
    ecmaSyntaxFrom false groups 0 (0x28 :: rest) = ecmaSyntaxFrom false (groups + 1) 0 rest := by
  rw [ecmaSyntaxFrom.eq_def]
  simp only [show ¬ (0x28 : UInt8) = 0x5C by decide, show ¬ (0x28 : UInt8) = 0x5B by decide,
    show ¬ (0x28 : UInt8) = 0x5D by decide, false_and, if_false, if_true, Bool.false_eq_true]
  split
  · exact absurd rfl h
  · rfl

/-- A group that starts with a question mark is opened unless what follows is refused. -/
theorem syntax_open_question {groups : Nat} (hc : c ∉ ascii "P#ims-") :
    ecmaSyntaxFrom false groups 0 (0x28 :: 0x3F :: c :: rest) =
      ecmaSyntaxFrom false (groups + 1) 0 (0x3F :: c :: rest) := by
  rw [ecmaSyntaxFrom.eq_def]
  simp [hc]

/-- A group with a question mark, of which the scan knows that it is no modifier. -/
theorem passes_group (hc : c ∉ ascii "P#ims-") (h : Passes false (0x3F :: c :: text)) :
    Passes false (0x28 :: 0x3F :: c :: (text ++ [0x29])) := by
  intro groups rest
  have hopen := h (groups + 1) (0x29 :: rest)
  rw [List.cons_append, List.cons_append, List.cons_append, List.append_assoc, syntax_open_question hc]
  rw [List.cons_append, List.cons_append] at hopen
  exact hopen.trans syntax_close

/-- The prefixes of the groups that look around start with nothing that is refused. -/
theorem look_text (k : Look) : ∃ b tail, k.text = b :: tail ∧ b ∉ ascii "P#ims-" ∧ ∀ b ∈ tail, b ∉ structural := by
  cases k with
  | ahead => exact ⟨0x3D, [], rfl, by decide, by simp⟩
  | notAhead => exact ⟨0x21, [], rfl, by decide, by simp⟩
  | behind => exact ⟨0x3C, [0x3D], rfl, by decide, by simp [structural]⟩
  | notBehind => exact ⟨0x3C, [0x21], rfl, by decide, by simp [structural]⟩

/-- **Every tree passes the syntax subset.**  Induction over the tree. -/
theorem passes_tree {σ : Symbol} (t : ParseTree σ) : Passes false t.text := by
  have hmark : ∀ {text : Bytes}, Passes false text → Passes false (0x3F :: text) := (passes_plain (by decide)).cons
  induction t with
  | only a ih => exact ih
  | bar a d iha ihd =>
    rw [ParseTree.text_bar]
    exact iha.append ((passes_plain (by decide)).cons ihd)
  | empty => exact .nil
  | snoc a t iha iht =>
    rw [ParseTree.text_snoc]
    exact iha.append iht
  | assertion a =>
    cases a with
    | start => exact passes_plain (by decide)
    | finish => exact passes_plain (by decide)
    | boundary => exact passes_single (by decide) (by decide)
    | notBoundary => exact passes_single (by decide) (by decide)
  | look k d ih =>
    obtain ⟨b, tail, htext, hb, htail⟩ := look_text k
    have hplain : b ∉ structural := by
      cases k <;> (rw [Look.text] at htext; cases htext; decide)
    rw [ParseTree.text_look, htext, List.cons_append, ← List.append_assoc]
    exact passes_group hb (hmark ((passes_plain hplain).cons ((passes_plains htail).append ih)))
  | single a ih => exact ih
  | quantified a k ih =>
    rw [ParseTree.text_quantified]
    exact ih.append (passes_quantifierText k)
  | character c =>
    rw [ParseTree.text_character]
    have hsub : ∀ b ∈ structural, b ∈ syntaxCharacters := forall_structural.mpr (by decide)
    exact passes_plains fun b hb hmem => c.allowed b hb (hsub b hmem)
  | dot => exact passes_plain (c := 0x2E) (by decide)
  | escape e => exact passes_atomEscape e
  | characterClass k =>
    rw [ParseTree.text_characterClass]
    exact passes_characterClass k
  | group name d ih =>
    cases name with
    | none =>
      intro groups rest
      -- A plain group: the byte behind the parenthesis is no question mark.
      rw [ParseTree.text_group, List.cons_append, List.append_assoc, syntax_open ?_, ih, List.singleton_append,
        syntax_close]
      exact head_append_ne (head_ne_question d) (.inr (by simp))
    | some n =>
      -- The mark and the name are passed as plain bytes before the body.
      have hname := (passes_groupName n).append ih
      rw [GroupName.marked, List.map_cons, List.cons_append] at hname
      rw [ParseTree.text_namedGroup, GroupName.marked, List.map_cons, List.cons_append, ← List.append_assoc]
      exact passes_group (by decide) (hmark hname)
  | nonCapturing d ih =>
    rw [ParseTree.text_nonCapturing]
    exact passes_group (by decide) (hmark ((passes_plain (by decide)).cons ih))

/-! ## Parentheses that open no group -/

/-- A parenthesis of an escape or a class, before a question mark, a modifier and one more byte. -/
def Hidden (m : List (UInt8 × Bool)) : Prop :=
  ∃ before after flag last, ∃ i j k : Bool, flag ∈ ascii "ims-" ∧
    m = before ++ (0x28, true) :: (0x3F, i) :: (flag, j) :: (last, k) :: after

/-- What follows the parenthesis of a group: no modifier. -/
def Opened (m : List (UInt8 × Bool)) : Prop :=
  ∃ b i m', m = (b, i) :: m' ∧ (b = 0x3F → ∃ flag j m'', m' = (flag, j) :: m'' ∧ flag ∉ ascii "ims-")

/-- Every parenthesis that is not marked opens a group. -/
def Grouped : List (UInt8 × Bool) → Prop
  | [] => True
  | (c, mark) :: m => (c = 0x28 → mark = false → Opened m) ∧ Grouped m

variable {m m' : List (UInt8 × Bool)}

/-- What follows does not matter to the beginning. -/
theorem Opened.append (h : Opened m) : Opened (m ++ m') := by
  obtain ⟨b, i, m₁, rfl, h⟩ := h
  refine ⟨b, i, m₁ ++ m', rfl, fun hb => ?_⟩
  obtain ⟨flag, j, m₂, rfl, hflag⟩ := h hb
  exact ⟨flag, j, m₂ ++ m', rfl, hflag⟩

/-- One marked text after the other. -/
theorem Grouped.append (h : Grouped m) (h' : Grouped m') : Grouped (m ++ m') := by
  induction m with
  | nil => exact h'
  | cons p m ih => exact ⟨fun hc hmark => (h.1 hc hmark).append, ih h.2⟩

/-- A character that is no parenthesis. -/
theorem Grouped.cons {mark : Bool} (hc : c ≠ 0x28) (h : Grouped m) : Grouped ((c, mark) :: m) :=
  ⟨fun heq => absurd heq hc, h⟩

/-- A text whose characters are all marked, whatever they are. -/
theorem grouped_marked (text : Bytes) : Grouped (text.map (·, true)) := by
  induction text with
  | nil => trivial
  | cons c text ih => exact ⟨fun _ h => absurd h (by decide), ih⟩

/-- A text without parentheses. -/
theorem grouped_unmarked (h : 0x28 ∉ text) : Grouped (text.map (·, false)) := by
  induction text with
  | nil => trivial
  | cons c text ih =>
    rw [List.mem_cons, not_or] at h
    exact (ih h.2).cons (Ne.symm h.1)

/-- A group in parentheses. -/
theorem grouped_group (h : Grouped m) (hopened : Opened (m ++ [(0x29, false)])) :
    Grouped ((0x28, false) :: (m ++ [(0x29, false)])) :=
  ⟨fun _ _ => hopened, h.append (Grouped.cons (m := []) (by decide) trivial)⟩

/-- The characters of a name are no parentheses, and those of its escapes are marked. -/
theorem grouped_groupName (n : GroupName) : Grouped n.marked := by
  have hcharacter : ∀ n : NameCharacter, Grouped n.marked := by
    intro n
    cases n with
    | char c h => exact grouped_unmarked fun hmem => absurd (h _ hmem) (by decide)
    | escape e => exact grouped_marked _
  have hname : ∀ ns : List NameCharacter, Grouped (ns.flatMap NameCharacter.marked) := by
    intro ns
    induction ns with
    | nil => trivial
    | cons n ns ih => exact (hcharacter n).append ih
  exact ((hname n.characters).append (Grouped.cons (m := []) (by decide) trivial)).cons (by decide)

/-- Nor has a quantifier. -/
theorem quantifier_parenless (k : Quantifier) : 0x28 ∉ k.text := by
  have hdigits : ∀ n : DecimalDigits, 0x28 ∉ n.digits := fun n hmem => absurd (n.all _ hmem) (by decide)
  rw [Quantifier.text, List.mem_append, not_or]
  constructor
  · cases k.kind with
    | star => decide
    | plus => decide
    | question => decide
    | exactly n => simp [QuantifierPrefix.text, hdigits]
    | atLeast n => simp [QuantifierPrefix.text, hdigits]
    | between n m => simp [QuantifierPrefix.text, hdigits]
  · split <;> decide

/-- What is in a group: it does not begin with a question mark. -/
theorem opened_body (d : ParseTree .disjunction) : Opened (d.marked ++ [(0x29, false)]) := by
  have hhead := head_ne_question d
  rw [ParseTree.text] at hhead
  cases hm : d.marked with
  | nil => exact ⟨0x29, false, [], rfl, fun h => absurd h (by decide)⟩
  | cons p m =>
    rw [hm] at hhead
    exact ⟨p.1, p.2, m ++ [(0x29, false)], rfl, fun h => absurd (by simp [h]) hhead⟩

/-- A group that starts with a question mark and no modifier. -/
theorem opened_question {b : UInt8} {i j : Bool} (h : b ∉ ascii "ims-") : Opened ((0x3F, i) :: (b, j) :: m) :=
  ⟨0x3F, i, _, rfl, fun _ => ⟨b, j, m, rfl, h⟩⟩

/-- **Every tree is grouped.**  Induction over the tree. -/
theorem grouped_tree {σ : Symbol} (t : ParseTree σ) : Grouped t.marked := by
  induction t with
  | only a ih => exact ih
  | bar a d iha ihd => exact iha.append (ihd.cons (by decide))
  | empty => trivial
  | snoc a t iha iht => exact iha.append iht
  | assertion a => cases a <;> exact Grouped.cons (by decide) (by simp [Grouped])
  | look k d ih =>
    have hlook : 0x28 ∉ k.text := by cases k <;> decide
    rw [ParseTree.marked, ← List.append_assoc, ← List.cons_append]
    refine grouped_group (((grouped_unmarked hlook).append ih).cons (by decide)) ?_
    cases k <;> exact opened_question (by decide)
  | single a ih => exact ih
  | quantified a k ih => exact ih.append (grouped_unmarked (quantifier_parenless k))
  | character c => exact grouped_unmarked fun hmem => c.allowed _ hmem (by decide)
  | dot => exact Grouped.cons (by decide) trivial
  | escape e =>
    cases e with
    | decimal first rest h h' => exact grouped_marked _
    | characterClass e => exact grouped_marked _
    | character e => exact grouped_marked _
    | named n => exact ((grouped_groupName n).cons (by decide)).cons (by decide)
  | characterClass k => exact grouped_marked _
  | group name d ih =>
    cases name with
    | none => exact grouped_group ih (opened_body d)
    | some n =>
      rw [ParseTree.marked, ← List.append_assoc, ← List.cons_append]
      exact grouped_group (((grouped_groupName n).append ih).cons (by decide)) (opened_question (by decide))
  | nonCapturing d ih =>
    exact grouped_group (m := (0x3F, false) :: (0x3A, false) :: d.marked) ((ih.cons (by decide)).cons (by decide))
      (opened_question (by decide))

/-- The check for modifiers looks at bytes alone. -/
theorem modifiers_iff : hasUnsupportedGlobalModifiers text = true ↔
    ∃ before after flag last, flag ∈ ascii "ims-" ∧ text = before ++ 0x28 :: 0x3F :: flag :: last :: after := by
  constructor
  · intro h
    induction text with
    | nil => cases h
    | cons c rest ih =>
      rw [hasUnsupportedGlobalModifiers.eq_def] at h
      dsimp only at h
      rw [Bool.or_eq_true] at h
      rcases h with h | h
      · split at h
        · exact ⟨[], _, _, _, of_decide_eq_true h, rfl⟩
        · cases h
      · obtain ⟨before, after, flag, last, hflag, rfl⟩ := ih h
        exact ⟨c :: before, after, flag, last, hflag, rfl⟩
  · rintro ⟨before, after, flag, last, hflag, rfl⟩
    induction before with
    | nil => simp [hasUnsupportedGlobalModifiers, hflag]
    | cons c before ih =>
      rw [List.cons_append, hasUnsupportedGlobalModifiers.eq_def]
      dsimp only
      rw [ih, Bool.or_true]

/-- The end of such a text is one. -/
theorem Grouped.right (h : Grouped (m ++ m')) : Grouped m' := by
  induction m with
  | nil => exact h
  | cons p m ih => exact ih h.2

/-- In a grouped text only a hidden parenthesis is taken for a modifier. -/
theorem modifiers_iff_hidden (h : Grouped m) :
    hasUnsupportedGlobalModifiers (m.map Prod.fst) = true ↔ Hidden m := by
  rw [modifiers_iff]
  constructor
  · rintro ⟨before, after, flag, last, hflag, heq⟩
    obtain ⟨m₁, m₂, rfl, -, heq₂⟩ := List.map_eq_append_iff.mp heq
    obtain ⟨⟨c, mark⟩, m₃, rfl, hc, heq₃⟩ := List.map_eq_cons_iff.mp heq₂
    obtain ⟨⟨c', i⟩, m₄, rfl, hc', heq₄⟩ := List.map_eq_cons_iff.mp heq₃
    obtain ⟨⟨flag', j⟩, m₅, rfl, hflag', heq₅⟩ := List.map_eq_cons_iff.mp heq₄
    obtain ⟨⟨last', k⟩, m₆, rfl, hlast, -⟩ := List.map_eq_cons_iff.mp heq₅
    simp only at hc hc' hflag' hlast
    subst hc hc' hflag' hlast
    cases mark with
    | true => exact ⟨m₁, m₆, flag', last', i, j, k, hflag, rfl⟩
    | false =>
      obtain ⟨b, i', m', heq, hopened⟩ := h.right.1 rfl rfl
      cases heq
      obtain ⟨flag'', j', m'', heq, hnot⟩ := hopened rfl
      cases heq
      exact absurd hflag hnot
  · rintro ⟨before, after, flag, last, i, j, k, hflag, rfl⟩
    exact ⟨before.map Prod.fst, after.map Prod.fst, flag, last, hflag, by simp⟩

end RegexSyntax

open RegexSyntax

/-- **What is handed to the engine**: every valid pattern, unless a parenthesis of an escape or a class stands before
    a question mark, a modifier and one more byte. -/
theorem compile_handsOver_iff (t : Pattern) :
    (validEcmaSyntaxSubset t.text = true ∧ hasUnsupportedGlobalModifiers t.text = false ∧
      ∀ engine, EcmaRegex.compile engine t.text = engine.assign t.text) ↔ ¬ Hidden t.marked := by
  have hvalid : validEcmaSyntaxSubset t.text = true := by
    have h := passes_tree t 0 []
    rw [List.append_nil] at h
    rw [validEcmaSyntaxSubset, h]
    rfl
  rw [← modifiers_iff_hidden (grouped_tree t), Bool.not_eq_true]
  constructor
  · rintro ⟨-, hmodifiers, -⟩
    exact hmodifiers
  · intro hmodifiers
    refine ⟨hvalid, hmodifiers, fun engine => ?_⟩
    rw [EcmaRegex.compile, hvalid, show hasUnsupportedGlobalModifiers t.text = false from hmodifiers]
    rfl

/-- `[(?i]`, a class of three characters. -/
def classOfThree : Pattern :=
  .only (.snoc .empty (.single (.characterClass ⟨false, [.char ⟨.ascii 0x28 (by decide), by decide +kernel⟩,
    .char ⟨.ascii 0x3F (by decide), by decide +kernel⟩, .char ⟨.ascii 0x69 (by decide), by decide +kernel⟩]⟩)))

/-- The class is refused, whatever the engine says. -/
theorem classOfThree_refused : classOfThree.text = ascii "[(?i]" ∧ validEcmaSyntaxSubset classOfThree.text = true ∧
    ¬ (hasUnsupportedGlobalModifiers classOfThree.text = false ∧
      ∀ engine, EcmaRegex.compile engine classOfThree.text = engine.assign classOfThree.text) := by
  refine ⟨by decide, by decide, fun h => ?_⟩
  exact absurd h.1 (by decide)

end ByteDance
