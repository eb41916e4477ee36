/-
  The safety filter is sound.

  `Reads text q g P` says what a scan that accepts does with a piece of a pattern: it comes out of it as
  it went in, outside of classes and escapes, has counted at least so many quantifiers and groups,
  and `P` holds.  A tree is read piece by piece; the scan may count more than there is (the `?` of a
  group, the brace of an escape) but never less.
-/
import Pjson.Schema.Regex
import Pjson.Lib.EcmaPattern

namespace ByteDance

open Decimal EcmaScript

namespace RegexSafe

/-- Between two characters or escapes, inside of a class or outside, and within the limits. -/
structure Within (inClass : Bool) (s : SafeScan) : Prop where
  escaped : s.escaped = false
  inClass : s.inClass = inClass
  quantifiers : s.quantifiers ≤ 1
  groups : s.groups ≤ 16

/-- What a scan that accepts does with a piece of a pattern. -/
def Reads (inClass : Bool) (text : Bytes) (q g : Nat) (P : Prop) : Prop :=
  ∀ s rest, Within inClass s → isSafeFrom s 0 (text ++ rest) = true →
    P ∧ ∃ s', Within inClass s' ∧ s.quantifiers + q ≤ s'.quantifiers ∧ s.groups + g ≤ s'.groups ∧
      isSafeFrom s' 0 rest = true

variable {inClass : Bool} {text text' : Bytes} {q q' g g' : Nat} {P P' : Prop} {s : SafeScan} {rest : Bytes}
  {c : UInt8}

theorem Reads.nil : Reads inClass [] 0 0 True :=
  fun s _ hs h => ⟨trivial, s, hs, le_refl _, le_refl _, h⟩

/-- What two pieces add to the counts adds up, and what each shows is shown. -/
theorem Reads.append (h : Reads inClass text q g P) (h' : Reads inClass text' q' g' P') :
    Reads inClass (text ++ text') (q + q') (g + g') (P ∧ P') := by
  intro s rest hs hsafe
  rw [List.append_assoc] at hsafe
  obtain ⟨hP, s₁, hs₁, hq₁, hg₁, hsafe₁⟩ := h s _ hs hsafe
  obtain ⟨hP', s₂, hs₂, hq₂, hg₂, hsafe₂⟩ := h' s₁ rest hs₁ hsafe₁
  exact ⟨⟨hP, hP'⟩, s₂, hs₂, by omega, by omega, hsafe₂⟩

/-- A character in front of a piece. -/
theorem Reads.cons (h : Reads inClass [c] q g P) (h' : Reads inClass text q' g' P') :
    Reads inClass (c :: text) (q + q') (g + g') (P ∧ P') := h.append h'

/-- A scan may count more. -/
theorem Reads.mono (h : Reads inClass text q g P) (hq : q' ≤ q) (hg : g' ≤ g) (hP : P → P') :
    Reads inClass text q' g' P' := by
  intro s rest hs hsafe
  obtain ⟨hp, s', hs', hq', hg', hsafe'⟩ := h s rest hs hsafe
  exact ⟨hP hp, s', hs', by omega, by omega, hsafe'⟩

/-- What is shown may be weakened. -/
theorem Reads.imp (h : Reads inClass text q g P) (hP : P → P') : Reads inClass text q g P' :=
  h.mono (le_refl _) (le_refl _) hP

/-- What is only to be got over. -/
theorem Reads.over (h : Reads inClass text q g P) : Reads inClass text 0 0 True :=
  h.mono (Nat.zero_le _) (Nat.zero_le _) fun _ => trivial

/-- A piece that changes nothing. -/
theorem reads_of_eq (h : ∀ s rest, Within inClass s → isSafeFrom s 0 (text ++ rest) = isSafeFrom s 0 rest) :
    Reads inClass text 0 0 True := by
  intro s rest hs hsafe
  rw [h s rest hs] at hsafe
  exact ⟨trivial, s, hs, le_refl _, le_refl _, hsafe⟩

/-- A piece that is never accepted. -/
theorem reads_of_false (h : ∀ s rest, Within inClass s → isSafeFrom s 0 (text ++ rest) = false) :
    Reads inClass text q g P := by
  intro s rest hs hsafe
  rw [h s rest hs] at hsafe
  cases hsafe

/-! ## Characters -/

/-- The characters that mean something to the scan. -/
def meaningful : Bytes := [0x5C, 0x5B, 0x5D, 0x28, 0x7C, 0x2A, 0x2B, 0x3F, 0x7B, 0x29]

/-- The ten of them, written out. -/
theorem forall_meaningful {p : UInt8 → Prop} : (∀ b ∈ meaningful, p b) ↔ p 0x5C ∧ p 0x5B ∧ p 0x5D ∧ p 0x28 ∧
    p 0x7C ∧ p 0x2A ∧ p 0x2B ∧ p 0x3F ∧ p 0x7B ∧ p 0x29 := by
  simp [meaningful]

/-- Characters that mean nothing to the scan, of a kind. -/
theorem not_meaningful {p : UInt8 → Prop} (h : ∀ b ∈ meaningful, ¬ p b) (hc : p c) : c ∉ meaningful :=
  fun hmem => h c hmem hc

/-- The four characters that repeat. -/
theorem isQuantifier_iff : isQuantifier c = true ↔ c = 0x2A ∨ c = 0x2B ∨ c = 0x3F ∨ c = 0x7B := by
  simp [isQuantifier, or_assoc]

/-- A character the filter does not look at. -/
theorem reads_plain (hc : c ∉ meaningful) : Reads inClass [c] 0 0 True := by
  refine reads_of_eq fun s rest hs => ?_
  simp only [meaningful, List.mem_cons, List.not_mem_nil, or_false, not_or] at hc
  have hq : ¬ isQuantifier c = true := by rw [isQuantifier_iff]; tauto
  rw [List.singleton_append, isSafeFrom]
  simp [hs.escaped, hc, hq]

/-- And a text of such. -/
theorem reads_plains (h : ∀ b ∈ text, b ∉ meaningful) : Reads inClass text 0 0 True := by
  induction text with
  | nil => exact .nil
  | cons c text ih =>
    rw [List.forall_mem_cons] at h
    exact ((reads_plain h.1).cons (ih h.2)).over

/-- In a class only the escape and the end mean something. -/
theorem reads_member (hc : c ∉ [(0x5C : UInt8), 0x5D]) : Reads true [c] 0 0 True := by
  refine reads_of_eq fun s rest hs => ?_
  simp only [List.mem_cons, List.not_mem_nil, or_false, not_or] at hc
  have hself : ({ s with inClass := true } : SafeScan) = s := by rw [← hs.inClass]
  rw [List.singleton_append, isSafeFrom, if_neg (by rw [hs.escaped]; simp), if_neg hc.1,
    if_neg (c := c = 0x5D ∧ _) (fun h => hc.2 h.1), if_pos hs.inClass, hself]
  split_ifs <;> rfl

/-- Within a class only the escape and the bracket that closes it are looked at. -/
theorem reads_members (h : ∀ b ∈ text, b ∉ [(0x5C : UInt8), 0x5D]) : Reads true text 0 0 True := by
  induction text with
  | nil => exact .nil
  | cons c text ih =>
    rw [List.forall_mem_cons] at h
    exact ((reads_member h.1).cons (ih h.2)).over

/-- A parenthesis is counted as a group. -/
theorem reads_open : Reads false [0x28] 0 1 True := by
  intro s rest hs hsafe
  rw [List.singleton_append, isSafeFrom, if_neg (by rw [hs.escaped]; simp), if_neg (by decide),
    if_neg (by decide), if_neg (by rw [hs.inClass]; simp), if_neg (by rw [hs.inClass]; simp), if_pos rfl] at hsafe
  split at hsafe
  · cases hsafe
  · rename_i hg
    exact ⟨trivial, { s with groups := s.groups + 1, stack := {} :: s.stack },
      ⟨hs.escaped, hs.inClass, hs.quantifiers, Nat.not_lt.mp hg⟩, le_refl _, le_refl _, hsafe⟩

/-- The scan goes back to the frame around the group. -/
theorem reads_close : Reads false [0x29] 0 0 True := by
  intro s rest hs hsafe
  rw [List.singleton_append, isSafeFrom, if_neg (by rw [hs.escaped]; simp), if_neg (by decide),
    if_neg (by decide), if_neg (by rw [hs.inClass]; simp), if_neg (by rw [hs.inClass]; simp),
    if_neg (by decide), if_neg (by decide), if_neg (by decide), if_pos rfl] at hsafe
  cases hstack : s.stack with
  | nil =>
    rw [hstack] at hsafe
    exact ⟨trivial, s, hs, le_refl _, le_refl _, hsafe⟩
  | cons closed stack =>
    rw [hstack] at hsafe
    dsimp only at hsafe
    split at hsafe
    · cases hsafe
    · exact ⟨trivial, { s with stack := markQuantified _ stack },
        ⟨hs.escaped, hs.inClass, hs.quantifiers, hs.groups⟩, le_refl _, le_refl _, hsafe⟩

/-- A quantifier is counted; a brace has its bounds checked. -/
theorem safe_quantifier (hs : Within false s) (hc : isQuantifier c = true)
    (hsafe : isSafeFrom s 0 (c :: rest) = true) : (c = 0x7B → boundsSafe rest = true) ∧
      ∃ s', Within false s' ∧ s.quantifiers + 1 ≤ s'.quantifiers ∧ s.groups ≤ s'.groups ∧
        isSafeFrom s' 0 rest = true := by
  have hne : c ≠ 0x5C ∧ c ≠ 0x5B ∧ c ≠ 0x28 ∧ c ≠ 0x7C := by
    rcases isQuantifier_iff.mp hc with rfl | rfl | rfl | rfl <;> decide
  rw [isSafeFrom, if_neg (by rw [hs.escaped]; simp), if_neg hne.1, if_neg hne.2.1,
    if_neg (by rw [hs.inClass]; simp), if_neg (by rw [hs.inClass]; simp), if_neg hne.2.2.1, if_neg hne.2.2.2,
    if_pos hc] at hsafe
  split at hsafe
  · cases hsafe
  rename_i hq
  split at hsafe
  · cases hsafe
  rename_i hb
  refine ⟨fun hc => ?_, { s with quantifiers := s.quantifiers + 1, stack := markQuantified true s.stack },
    ⟨hs.escaped, hs.inClass, Nat.not_lt.mp hq, hs.groups⟩, le_refl _, le_refl _, hsafe⟩
  simpa [hc] using hb

/-- A quantifier is counted. -/
theorem reads_quantifier (hc : isQuantifier c = true) : Reads false [c] 1 0 True := fun _ _ hs hsafe =>
  ⟨trivial, (safe_quantifier hs hc hsafe).2⟩

/-- A scan that accepts meets no alternative, so anything is shown of one. -/
theorem reads_bar : Reads false (0x7C :: text) q g P := by
  refine reads_of_false fun s rest hs => ?_
  rw [List.cons_append, isSafeFrom]
  simp [hs.escaped, hs.inClass]

/-- A brace and what is in it, of which the check of the bounds knows something. -/
theorem reads_brace (h : ∀ b ∈ text, b ∉ meaningful) (hP : ∀ rest, boundsSafe (text ++ rest) = true → P) :
    Reads false (0x7B :: text) 1 0 P := by
  intro s rest hs hsafe
  obtain ⟨hb, s₁, hs₁, hq₁, hg₁, hsafe₁⟩ := safe_quantifier hs (by decide) hsafe
  obtain ⟨-, s₂, hs₂, hq₂, hg₂, hsafe₂⟩ := reads_plains h s₁ rest hs₁ hsafe₁
  exact ⟨hP rest (hb rfl), s₂, hs₂, by omega, by omega, hsafe₂⟩

/-- A brace of an escape is taken for a quantifier, outside of a class. -/
theorem reads_braced (h : ∀ b ∈ text, b ∉ meaningful) : Reads inClass (0x7B :: text) 0 0 True := by
  cases inClass with
  | false => exact (reads_brace (P := True) h fun _ _ => trivial).over
  | true => exact ((reads_member (by decide)).cons (reads_plains h)).over

/-! ## Escapes -/

/-- The escape of a single character is passed over. -/
theorem reads_escape (hdigit : ¬ (0x31 ≤ c ∧ c ≤ 0x39)) (hp : c ≠ 0x70 ∧ c ≠ 0x50) :
    Reads inClass [0x5C, c] 0 0 True := by
  refine reads_of_eq fun s rest hs => ?_
  have hself : ({ s with escaped := false } : SafeScan) = s := by rw [← hs.escaped]
  rw [List.cons_append, List.singleton_append, isSafeFrom, if_neg (by rw [hs.escaped]; simp), if_pos rfl,
    isSafeFrom, if_pos rfl, if_neg (by simpa using hdigit), if_neg (by simp [hp.1, hp.2])]
  rw [hself]

/-- A backreference is refused. -/
theorem reads_decimal (hdigit : 0x31 ≤ c ∧ c ≤ 0x39) : Reads inClass (0x5C :: c :: text) q g P := by
  refine reads_of_false fun s rest hs => ?_
  rw [List.cons_append, List.cons_append, isSafeFrom, if_neg (by rw [hs.escaped]; simp), if_pos rfl, isSafeFrom,
    if_pos rfl, if_pos (by simpa using hdigit)]

/-- Bytes to be skipped are skipped. -/
theorem safe_skip (hn : text.length = q) : isSafeFrom s q (text ++ rest) = isSafeFrom s 0 rest := by
  induction text generalizing q with
  | nil =>
    subst hn
    rfl
  | cons c text ih =>
    subst hn
    rw [List.length_cons, List.cons_append, isSafeFrom]
    exact ih rfl

/-- What is in braces ends at the first that closes them. -/
theorem braced_text (hne : text ≠ []) (hbrace : 0x7D ∉ text) : braced (text ++ 0x7D :: rest) = some text.length := by
  have hfind : (text ++ 0x7D :: rest).findIdx? (· = 0x7D) = some text.length := by
    rw [List.findIdx?_append, List.findIdx?_eq_none_iff.mpr (fun b hb => by
      simpa using fun heq : b = 0x7D => hbrace (heq ▸ hb)), Option.none_or, List.findIdx?_cons]
    simp
  obtain ⟨b, t, rfl⟩ := List.exists_cons_of_ne_nil hne
  rw [braced, hfind]
  rfl

/-- A property has no such brace in it. -/
theorem property_braceless (e : PropertyExpression) : 0x7D ∉ e.text ∧ e.text ≠ [] := by
  cases e with
  | lone value h h' => exact ⟨fun hmem => absurd (h' _ hmem) (by decide), h⟩
  | pair name value hn hn' h h' =>
    refine ⟨?_, List.append_ne_nil_of_left_ne_nil hn _⟩
    rw [PropertyExpression.text, List.mem_append, List.mem_cons]
    rintro (hmem | heq | hmem)
    · exact absurd (hn' _ hmem) (by decide)
    · exact absurd heq (by decide)
    · exact absurd (h' _ hmem) (by decide)

/-- A property escape is passed over up to its brace. -/
theorem reads_property (hp : c = 0x70 ∨ c = 0x50) (hne : text ≠ []) (hbrace : 0x7D ∉ text) :
    Reads inClass (0x5C :: c :: 0x7B :: (text ++ [0x7D])) 0 0 True := by
  refine reads_of_eq fun s rest hs => ?_
  have hself : ({ s with escaped := false } : SafeScan) = s := by rw [← hs.escaped]
  have hdigit : ¬ ((decide ((0x31 : UInt8) ≤ c) && decide (c ≤ 0x39)) = true) := by
    rcases hp with rfl | rfl <;> decide
  rw [show (0x5C :: c :: 0x7B :: (text ++ [0x7D])) ++ rest = 0x5C :: c :: 0x7B :: (text ++ 0x7D :: rest) by simp,
    isSafeFrom, if_neg (by rw [hs.escaped]; simp), if_pos rfl, isSafeFrom, if_pos rfl, if_neg hdigit,
    if_pos (by rcases hp with rfl | rfl <;> rfl)]
  rw [List.tail_cons, braced_text hne hbrace]
  dsimp only
  rw [hself, show (0x7B :: (text ++ 0x7D :: rest) : Bytes) = (0x7B :: (text ++ [0x7D])) ++ rest by simp]
  exact safe_skip (by simp)

/-- Hexadecimal digits mean nothing to the filter. -/
theorem hex_meaningless (digits : HexDigits) : ∀ b ∈ digits.digits, b ∉ meaningful := fun b hb =>
  not_meaningful (p := IsHexDigit) (forall_meaningful.mpr (by decide)) (digits.hex b hb)

/-- Nor do decimal ones. -/
theorem digits_meaningless {ds : Bytes} (h : AllDigits ds) : ∀ b ∈ ds, b ∉ meaningful := fun b hb =>
  not_meaningful (p := IsDigit) (forall_meaningful.mpr (by decide)) (h b hb)

/-- The three forms of a Unicode escape. -/
theorem reads_unicodeEscape (e : UnicodeEscape) : Reads inClass (0x5C :: e.text) 0 0 True := by
  have hu : Reads inClass [0x5C, 0x75] 0 0 True := reads_escape (by decide) (by decide)
  have hhex : ∀ digits : HexDigits, Reads inClass digits.digits 0 0 True := fun digits =>
    reads_plains (hex_meaningless digits)
  cases e with
  | four digits => exact (hu.append (hhex digits)).over
  | pair lead trail => exact (hu.append ((hhex lead).append (hu.append (hhex trail)))).over
  | codePoint digits =>
    refine (hu.append (reads_braced (?_ : ∀ b ∈ digits.digits ++ [0x7D], b ∉ meaningful))).over
    rw [List.forall_mem_append, List.forall_mem_singleton]
    exact ⟨hex_meaningless digits, by decide⟩

/-- The escape of a character. -/
theorem reads_characterEscape (e : CharacterEscape) : Reads inClass (0x5C :: e.text) 0 0 True := by
  cases e with
  | control b h =>
    simp only [List.mem_cons, List.not_mem_nil, or_false] at h
    rcases h with rfl | rfl | rfl | rfl | rfl <;> exact reads_escape (by decide) (by decide)
  | caret letter h =>
    exact ((reads_escape (c := 0x63) (by decide) (by decide)).append
      (reads_plain (not_meaningful (p := IsLetter) (forall_meaningful.mpr (by decide)) h))).over
  | null => exact reads_escape (by decide) (by decide)
  | hex digits h =>
    exact ((reads_escape (c := 0x78) (by decide) (by decide)).append
      (reads_plains (hex_meaningless digits))).over
  | unicode e => exact reads_unicodeEscape e
  | identity b h =>
    simp only [syntaxCharacters, List.mem_cons, List.not_mem_nil, or_false] at h
    rcases h with rfl | rfl | rfl | rfl | rfl | rfl | rfl | rfl | rfl | rfl | rfl | rfl | rfl | rfl | rfl <;>
      exact reads_escape (by decide) (by decide)

/-- And that of a class of characters. -/
theorem reads_characterClassEscape (e : CharacterClassEscape) : Reads inClass (0x5C :: e.text) 0 0 True := by
  cases e with
  | letter b h =>
    simp only [List.mem_cons, List.not_mem_nil, or_false] at h
    rcases h with rfl | rfl | rfl | rfl | rfl | rfl <;> exact reads_escape (by decide) (by decide)
  | property b h e =>
    obtain ⟨hbrace, hne⟩ := property_braceless e
    exact reads_property h hne hbrace

/-! ## Classes, names and quantifiers -/

/-- An atom of a class leaves the scan in the class. -/
theorem reads_classAtom (a : ClassAtom) : Reads true a.text 0 0 True := by
  cases a with
  | char c => exact reads_members c.allowed
  | backspace => exact reads_escape (by decide) (by decide)
  | dash => exact reads_escape (by decide) (by decide)
  | characterClass e => exact reads_characterClassEscape e
  | character e => exact reads_characterEscape e

/-- The atoms, one after the other; induction on them. -/
theorem reads_classAtoms (as : List ClassAtom) : Reads true (as.flatMap ClassAtom.text) 0 0 True := by
  induction as with
  | nil => exact .nil
  | cons a as ih => exact ((reads_classAtom a).append ih).over

/-- A class is passed over: the scan is in it exactly from its bracket to the other. -/
theorem reads_characterClass (k : CharacterClass) : Reads false k.text 0 0 True := by
  have hnegated : Reads true (if k.negated then [0x5E] else []) 0 0 True := by
    split
    · exact reads_member (by decide)
    · exact .nil
  intro s rest hs hsafe
  rw [CharacterClass.text, List.cons_append, isSafeFrom, if_neg (by rw [hs.escaped]; simp), if_neg (by decide),
    if_pos rfl, ← List.append_assoc, List.append_assoc] at hsafe
  obtain ⟨-, s₁, hs₁, hq₁, hg₁, hsafe₁⟩ := (hnegated.append (reads_classAtoms k.atoms))
    { s with inClass := true } _ ⟨hs.escaped, rfl, hs.quantifiers, hs.groups⟩ hsafe
  rw [List.singleton_append, isSafeFrom, if_neg (by rw [hs₁.escaped]; simp), if_neg (by decide), if_neg (by decide),
    if_pos ⟨rfl, hs₁.inClass⟩] at hsafe₁
  exact ⟨trivial, { s₁ with inClass := false }, ⟨hs₁.escaped, rfl, hs₁.quantifiers, hs₁.groups⟩, hq₁, hg₁, hsafe₁⟩

/-- A character of a name, spelled or escaped. -/
theorem reads_nameCharacter (n : NameCharacter) : Reads false (n.marked.map Prod.fst) 0 0 True := by
  cases n with
  | char c h =>
    rw [NameCharacter.marked, map_fst_mark]
    exact reads_plains fun b hb => not_meaningful
      (p := fun b => 0x80 ≤ b ∨ IsLetter b ∨ IsDigit b ∨ b = 0x24 ∨ b = 0x5F) (forall_meaningful.mpr (by decide)) (h b hb)
  | escape e =>
    rw [NameCharacter.marked, map_fst_mark]
    exact reads_unicodeEscape e

/-- And a name in its brackets. -/
theorem reads_groupName (n : GroupName) : Reads false (n.marked.map Prod.fst) 0 0 True := by
  have hname : ∀ ns : List NameCharacter,
      Reads false ((ns.flatMap NameCharacter.marked).map Prod.fst) 0 0 True := by
    intro ns
    induction ns with
    | nil => exact .nil
    | cons n ns ih =>
      rw [List.flatMap_cons, List.map_append]
      exact ((reads_nameCharacter n).append ih).over
  rw [GroupName.marked, List.map_cons, List.map_append]
  exact ((reads_plain (by decide)).cons ((hname n.characters).append (reads_plain (by decide)))).over

/-- What `readBound` reads of a run of digits, unless it gives up. -/
theorem readBound_digits {ds : Bytes} (hds : AllDigits ds) (hc : isAsciiDigit c = false) {v : Nat}
    {read : Nat × Bytes} (h : readBound v (ds ++ c :: rest) = some read) :
    read = (ds.foldl (fun v d => v * 10 + digitVal d) v, c :: rest) := by
  induction ds generalizing v with
  | nil =>
    rw [List.nil_append, readBound, if_neg (by rw [hc]; simp)] at h
    exact (Option.some.inj h).symm
  | cons d ds ih =>
    rw [allDigits_cons] at hds
    rw [List.cons_append, readBound, if_pos (by simpa [isAsciiDigit, IsDigit] using hds.1)] at h
    split at h
    · cases h
    · exact ih hds.2 h

/-- The bounds that `boundsSafe` admits. -/
theorem boundsSafe_exactly {ds : Bytes} (hds : AllDigits ds) (h : boundsSafe (ds ++ 0x7D :: rest) = true) :
    value ds ≤ 1000 := by
  rw [boundsSafe] at h
  cases hread : readBound 0 (ds ++ 0x7D :: rest) with
  | none =>
    rw [hread] at h
    cases h
  | some read =>
    rw [hread, readBound_digits hds (by decide) hread] at h
    exact of_decide_eq_true h

/-- A lower bound that is followed by a comma is within the limit, and the upper one is read. -/
theorem boundsSafe_comma {ds : Bytes} (hds : AllDigits ds) (h : boundsSafe (ds ++ 0x2C :: text) = true) :
    value ds ≤ 1000 ∧ ∃ read, readBound 0 text = some read ∧ read.1 ≤ 1000 := by
  rw [boundsSafe] at h
  cases hread : readBound 0 (ds ++ 0x2C :: text) with
  | none =>
    rw [hread] at h
    cases h
  | some read =>
    rw [hread, readBound_digits hds (by decide) hread] at h
    split at h
    · cases h
    · rename_i heq
      cases heq
      split at h
      · cases h
      · rename_i hread'
        rw [Bool.and_eq_true] at h
        exact ⟨of_decide_eq_true h.1, _, hread', of_decide_eq_true h.2⟩
    · rename_i hne heq
      cases heq
      exact absurd rfl (hne text)

/-- A quantifier is counted, and its bounds are checked. -/
theorem reads_quantifierText (k : Quantifier) : Reads false k.text 1 0 (∀ n ∈ k.bounds, n ≤ 1000) := by
  have hbraced : ∀ {text : Bytes}, (∀ b ∈ text, IsDigit b ∨ b = 0x2C ∨ b = 0x7D) → ∀ b ∈ text, b ∉ meaningful :=
    fun h b hb => not_meaningful (p := fun b => IsDigit b ∨ b = 0x2C ∨ b = 0x7D) (forall_meaningful.mpr (by decide)) (h b hb)
  have hkind : Reads false k.kind.text 1 0 (∀ n ∈ k.bounds, n ≤ 1000) := by
    rw [Quantifier.bounds]
    cases k.kind with
    | star => exact (reads_quantifier (by decide)).imp (by simp)
    | plus => exact (reads_quantifier (by decide)).imp (by simp)
    | question => exact (reads_quantifier (by decide)).imp (by simp)
    | exactly n =>
      refine reads_brace (hbraced ?_) fun rest h => ?_
      · have := n.all
        simp only [AllDigits] at this
        simp only [List.mem_append, List.mem_singleton]
        grind
      · rw [List.append_assoc, List.singleton_append] at h
        simpa using boundsSafe_exactly n.all h
    | atLeast n =>
      refine reads_brace (hbraced ?_) fun rest h => ?_
      · have := n.all
        simp only [AllDigits] at this
        simp only [List.mem_append, List.mem_cons, List.not_mem_nil, or_false]
        grind
      · rw [List.append_assoc, List.cons_append] at h
        simpa using (boundsSafe_comma n.all h).1
    | between n m =>
      refine reads_brace (hbraced ?_) fun rest h => ?_
      · have := n.all
        have := m.all
        simp only [AllDigits] at *
        simp only [List.mem_append, List.mem_cons, List.not_mem_nil, or_false]
        grind
      · rw [List.append_assoc, List.cons_append] at h
        obtain ⟨hn, read, hread, hm⟩ := boundsSafe_comma n.all h
        rw [List.append_assoc, List.singleton_append] at hread
        rw [readBound_digits m.all (by decide) hread] at hm
        simpa using ⟨hn, hm⟩
  have hlazy : Reads false (if k.lazy then [0x3F] else []) 0 0 True := by
    split
    · exact (reads_quantifier (by decide)).over
    · exact .nil
  exact (hkind.append hlazy).imp And.left

/-! ## Trees -/

/-- What an accepted pattern is free of, limits on numbers apart. -/
structure Bounded {σ : Symbol} (t : ParseTree σ) : Prop where
  disjunctions : t.disjunctions = 0
  backreferences : t.backreferences = 0
  bounds : ∀ q ∈ t.quantifiers, ∀ n ∈ q.bounds, n ≤ 1000

/-- A tree without parts has none of the three. -/
theorem Bounded.leaf {σ : Symbol} {t : ParseTree σ} (hd : t.disjunctions = 0) (hb : t.backreferences = 0)
    (hq : t.quantifiers = []) : Bounded t := ⟨hd, hb, by simp [hq]⟩

/-- The escape of an atom: a scan that accepts meets no back reference. -/
theorem reads_atomEscape (e : AtomEscape) :
    Reads false (e.marked.map Prod.fst) 0 0 (Bounded (.escape e)) := by
  cases e with
  | decimal first rest h => exact reads_decimal h
  | characterClass e =>
    rw [AtomEscape.marked, map_fst_mark]
    exact (reads_characterClassEscape e).imp fun _ => .leaf rfl rfl rfl
  | character e =>
    rw [AtomEscape.marked, map_fst_mark]
    exact (reads_characterEscape e).imp fun _ => .leaf rfl rfl rfl
  | named n =>
    exact ((reads_escape (c := 0x6B) (by decide) (by decide)).append (reads_groupName n)).imp fun _ => .leaf rfl rfl rfl

/-- A group is counted, whatever stands between its parenthesis and what is in it. -/
theorem reads_group {d : ParseTree .disjunction}
    (h : Reads false d.text d.quantifiers.length d.groups (Bounded d)) (htext : Reads false text 0 0 True) :
    Reads false (0x28 :: (text ++ (d.text ++ [0x29]))) d.quantifiers.length (d.groups + 1) (Bounded d) :=
  (reads_open.cons (htext.append (h.append reads_close))).mono (by omega) (by omega) fun hP => hP.2.2.1

/-- **The scan of a tree**: it counts at least what there is, and refuses the rest.  Induction over the tree. -/
theorem reads_tree {σ : Symbol} (t : ParseTree σ) :
    Reads false t.text t.quantifiers.length t.groups (Bounded t) := by
  have hmark : Reads false [0x3F] 0 0 True := (reads_quantifier (by decide)).over
  induction t with
  | only a ih => exact ih.imp fun h => ⟨h.disjunctions, h.backreferences, h.bounds⟩
  | bar a d iha ihd =>
    -- A bar is one of the things refused, so nothing has to be shown of the bounds.
    rw [ParseTree.text_bar]
    refine (iha.append (reads_bar (q := d.quantifiers.length) (g := d.groups) (P := False))).mono ?_ (le_refl _)
      fun h => h.2.elim
    rw [ParseTree.quantifiers, List.length_append]
  | empty => exact Reads.nil.imp fun _ => .leaf rfl rfl rfl
  | snoc a t iha iht =>
    rw [ParseTree.text_snoc]
    refine (iha.append iht).mono (by rw [ParseTree.quantifiers, List.length_append]) (le_refl _) fun ⟨ha, ht⟩ => ?_
    refine ⟨by rw [ParseTree.disjunctions, ha.disjunctions, ht.disjunctions],
      by rw [ParseTree.backreferences, ha.backreferences, ht.backreferences], ?_⟩
    rw [ParseTree.quantifiers, List.forall_mem_append]
    exact ⟨ha.bounds, ht.bounds⟩
  | assertion a =>
    have hbounded : Bounded (ParseTree.assertion a) := .leaf rfl rfl rfl
    cases a with
    | start => exact (reads_plain (by decide)).imp fun _ => hbounded
    | finish => exact (reads_plain (by decide)).imp fun _ => hbounded
    | boundary => exact (reads_escape (by decide) (by decide)).imp fun _ => hbounded
    | notBoundary => exact (reads_escape (by decide) (by decide)).imp fun _ => hbounded
  | look k d ih =>
    have hlook : Reads false k.text 0 0 True := by
      cases k
      all_goals exact reads_plains (by simp [Look.text, meaningful])
    rw [ParseTree.text_look]
    exact (reads_group ih (hmark.cons hlook).over).imp fun h => ⟨h.disjunctions, h.backreferences, h.bounds⟩
  | single a ih => exact ih.imp fun h => ⟨h.disjunctions, h.backreferences, h.bounds⟩
  | quantified a k ih =>
    rw [ParseTree.text_quantified]
    refine (ih.append (reads_quantifierText k)).mono (by rw [ParseTree.quantifiers, List.length_append, List.length_singleton])
      (le_refl _) fun ⟨ha, hk⟩ => ⟨ha.disjunctions, ha.backreferences, ?_⟩
    rw [ParseTree.quantifiers, List.forall_mem_append, List.forall_mem_singleton]
    exact ⟨ha.bounds, hk⟩
  | character c =>
    rw [ParseTree.text_character]
    -- What the scanner takes note of is all syntax of the grammar.
    have hsub : ∀ b ∈ meaningful, b ∈ syntaxCharacters := forall_meaningful.mpr (by decide)
    exact (reads_plains fun b hb hmem => c.allowed b hb (hsub b hmem)).imp fun _ => .leaf rfl rfl rfl
  | dot =>
    exact (reads_plain (c := 0x2E) (by decide)).imp fun _ => .leaf rfl rfl rfl
  | escape e => exact reads_atomEscape e
  | characterClass k =>
    rw [ParseTree.text_characterClass]
    exact (reads_characterClass k).imp fun _ => .leaf rfl rfl rfl
  | group name d ih =>
    have hbounded : Bounded d → Bounded (ParseTree.group name d) := fun h => ⟨h.disjunctions, h.backreferences, h.bounds⟩
    cases name with
    | none =>
      rw [ParseTree.text_group]
      exact (reads_group ih .nil).imp hbounded
    | some n =>
      rw [ParseTree.text_namedGroup]
      exact (reads_group ih (hmark.cons (reads_groupName n)).over).imp hbounded
  | nonCapturing d ih =>
    rw [ParseTree.text_nonCapturing]
    exact (reads_group ih (hmark.cons (reads_plain (by decide))).over).imp fun h => ⟨h.disjunctions, h.backreferences, h.bounds⟩

end RegexSafe

open RegexSafe

/-- **The filter is sound**: what it accepts has at most one quantifier, no alternation, no reference back,
    at most 16 groups and no bound beyond 1000. -/
theorem isSafeRegex_sound (t : Pattern) (h : isSafeRegex t.text = true) :
    t.quantifiers.length ≤ 1 ∧ t.disjunctions = 0 ∧ t.backreferences = 0 ∧ t.groups ≤ 16 ∧
      ∀ q ∈ t.quantifiers, ∀ n ∈ q.bounds, n ≤ 1000 := by
  have hstart : Within false {} := ⟨rfl, rfl, Nat.zero_le _, Nat.zero_le _⟩
  obtain ⟨hbounded, s, hs, hq, hg, -⟩ := reads_tree t {} [] hstart (by rwa [List.append_nil])
  have hquantifiers := hs.quantifiers
  have hgroups := hs.groups
  simp only at hq hg
  exact ⟨by omega, hbounded.disjunctions, hbounded.backreferences, by omega, hbounded.bounds⟩

/-- `^[a-z]{2,5}` -/
def shortWord : Pattern :=
  .only (.snoc (.snoc .empty (.assertion .start)) (.quantified
    (.characterClass ⟨false, [.char ⟨.ascii 0x61 (by decide), by decide +kernel⟩,
      .char ⟨.ascii 0x2D (by decide), by decide +kernel⟩, .char ⟨.ascii 0x7A (by decide), by decide +kernel⟩]⟩)
    ⟨.between ⟨[0x32], by decide, by decide +kernel⟩ ⟨[0x35], by decide, by decide +kernel⟩, false⟩))

theorem isSafeRegex_sound_shortWord : isSafeRegex shortWord.text = true ∧ shortWord.quantifiers.length ≤ 1 :=
  ⟨by decide +kernel, (isSafeRegex_sound shortWord (by decide +kernel)).1⟩

end ByteDance
