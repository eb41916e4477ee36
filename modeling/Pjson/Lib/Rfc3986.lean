/-
  RFC 3986: URI references, dot segments and reference resolution.

  `Components` are the five parts of a reference, `text` puts them together again (section 5.3) and
  `resolve` is the transformation of section 5.2.2.  `removeDotSegments` is the loop of section 5.2.4
  over an input and an output buffer, rule by rule.

  An absolute path is a list of segments, a slash before each (`absolute`).  On such a path the loop
  is a fold over the segments (`removeDotSegments_absolute`): a segment is kept, unless it is a dot or
  a `..` behind it takes it back.  On any path it changes nothing exactly if there are no dot segments
  (`removeDotSegments_eq_self_iff`).
-/
import Mathlib

namespace Rfc3986

/-! ## The algorithm -/

/-- The part of a path up to its last slash. -/
def directory (path : List UInt8) : List UInt8 := (path.reverse.dropWhile (· ≠ 0x2F)).reverse

/-- Removes the last segment and its preceding slash, if any, from the output buffer. -/
def removeLast (output : List UInt8) : List UInt8 :=
  (output.reverse.dropWhile (· ≠ 0x2F)).tail.reverse

/-- The first segment of the input buffer, with its initial slash, if any. -/
def firstSegment (input : List UInt8) : List UInt8 :=
  input.take 1 ++ (input.drop 1).takeWhile (· ≠ 0x2F)

/-- A round of the loop takes something off. -/
theorem firstSegment_length {input : List UInt8} (h : input ≠ []) :
    0 < (firstSegment input).length := by
  cases input with
  | nil => exact absurd rfl h
  | cons b rest => simp [firstSegment]

/-- The loop of section 5.2.4, over the input and the output buffer. -/
def removeDots (input output : List UInt8) : List UInt8 :=
  if _h : input = [] then output
  else if [0x2E, 0x2E, 0x2F] <+: input then removeDots (input.drop 3) output
  else if [0x2E, 0x2F] <+: input then removeDots (input.drop 2) output
  else if [0x2F, 0x2E, 0x2F] <+: input then removeDots (input.drop 2) output
  else if input = [0x2F, 0x2E] then removeDots [0x2F] output
  else if [0x2F, 0x2E, 0x2E, 0x2F] <+: input then removeDots (input.drop 3) (removeLast output)
  else if input = [0x2F, 0x2E, 0x2E] then removeDots [0x2F] (removeLast output)
  else if input = [0x2E] ∨ input = [0x2E, 0x2E] then output
  else removeDots (input.drop (firstSegment input).length) (output ++ firstSegment input)
termination_by input.length
decreasing_by
  all_goals have hpos := List.length_pos_iff.mpr _h
  all_goals have hfirst := firstSegment_length _h
  all_goals simp_all only [List.length_drop, List.length_cons, List.length_nil]
  all_goals omega

/-- `remove_dot_segments`. -/
def removeDotSegments (path : List UInt8) : List UInt8 := removeDots path []

/-- The five components of a URI reference. -/
structure Components where
  scheme : Option (List UInt8)
  authority : Option (List UInt8)
  path : List UInt8
  query : Option (List UInt8)
  fragment : Option (List UInt8)
  deriving DecidableEq

namespace Components

def schemeText (c : Components) : List UInt8 := (c.scheme.map (· ++ [0x3A])).getD []
def authorityText (c : Components) : List UInt8 := (c.authority.map ([0x2F, 0x2F] ++ ·)).getD []
def queryText (c : Components) : List UInt8 := (c.query.map (0x3F :: ·)).getD []
def fragmentText (c : Components) : List UInt8 := (c.fragment.map (0x23 :: ·)).getD []

/-- Section 5.3: component recomposition. -/
def text (c : Components) : List UInt8 :=
  c.schemeText ++ (c.authorityText ++ (c.path ++ (c.queryText ++ c.fragmentText)))

/-- Section 5.2.3: a relative path behind the path of the base. -/
def merge (base : Components) (path : List UInt8) : List UInt8 :=
  if base.authority ≠ none ∧ base.path = [] then 0x2F :: path else directory base.path ++ path

/-- Section 5.2.2, up to the removal of dot segments: the path of a reference without scheme and
    authority that is not empty. -/
def targetPath (base r : Components) : List UInt8 :=
  if r.path.head? = some 0x2F then r.path else base.merge r.path

/-- Section 5.2.2: the target of a reference. -/
def resolve (base r : Components) : Components :=
  if r.scheme ≠ none then { r with path := removeDotSegments r.path }
  else if r.authority ≠ none then
    { r with scheme := base.scheme, path := removeDotSegments r.path }
  else if r.path = [] then
    { base with query := if r.query ≠ none then r.query else base.query, fragment := r.fragment }
  else
    { base with path := removeDotSegments (targetPath base r), query := r.query, fragment := r.fragment }

end Components

def isAlpha (b : UInt8) : Bool := (0x41 ≤ b && b ≤ 0x5A) || (0x61 ≤ b && b ≤ 0x7A)

/-- A byte of a scheme behind the first one. -/
def isSchemeByte (b : UInt8) : Bool :=
  isAlpha b || (0x30 ≤ b && b ≤ 0x39) || b == 0x2B || b == 0x2D || b == 0x2E

/-- A URI reference: components whose delimiters are not in the way of each other.  Of the syntax
    only this is required; it is silent about the characters between the delimiters. -/
structure Reference extends Components where
  scheme_valid : ∀ s, scheme = some s →
    ∃ b rest, s = b :: rest ∧ isAlpha b = true ∧ ∀ x ∈ rest, isSchemeByte x = true
  authority_valid : ∀ a, authority = some a → ∀ b ∈ a, b ≠ 0x2F ∧ b ≠ 0x3F ∧ b ≠ 0x23
  path_valid : ∀ b ∈ path, b ≠ 0x3F ∧ b ≠ 0x23
  query_valid : ∀ q, query = some q → 0x23 ∉ q
  /-- Behind an authority the path is empty or absolute. -/
  path_behind_authority : authority ≠ none → path = [] ∨ path.head? = some 0x2F
  /-- Without an authority the path does not start with two slashes. -/
  path_single_slash : authority = none → ¬ [0x2F, 0x2F] <+: path
  /-- Without a scheme the first segment has no colon. -/
  path_no_scheme : scheme = none → authority = none → 0x3A ∉ path.takeWhile (· ≠ 0x2F)

/-! ## Absolute paths -/

/-- An absolute path, a slash before each of its segments. -/
def absolute (segs : List (List UInt8)) : List UInt8 := segs.flatMap (0x2F :: ·)

@[simp] theorem absolute_nil : absolute [] = [] := rfl

@[simp] theorem absolute_cons (s : List UInt8) (segs : List (List UInt8)) :
    absolute (s :: segs) = 0x2F :: (s ++ absolute segs) := rfl

/-- The segments of two paths. -/
theorem absolute_append (segs segs' : List (List UInt8)) :
    absolute (segs ++ segs') = absolute segs ++ absolute segs' := List.flatMap_append

/-- A segment has no slash in it. -/
def Segment (s : List UInt8) : Prop := 0x2F ∉ s

/-- A dot segment. -/
def IsDot (s : List UInt8) : Prop := s = [0x2E] ∨ s = [0x2E, 0x2E]

instance (s : List UInt8) : Decidable (IsDot s) := inferInstanceAs (Decidable (_ ∨ _))

/-- Splitting at the slashes gives the segments back. -/
theorem splitOn_absolute {s : List UInt8} {segs : List (List UInt8)} (hs : Segment s)
    (h : ∀ s ∈ segs, Segment s) : (s ++ absolute segs).splitOn 0x2F = s :: segs := by
  have hjoin : s ++ absolute segs = [0x2F].intercalate (s :: segs) := by
    induction segs generalizing s with
    | nil => simp
    | cons t segs ih =>
      rw [List.forall_mem_cons] at h
      rw [absolute_cons, ih h.1 h.2, List.intercalate_cons_cons]
      simp
  rw [hjoin]
  exact List.splitOn_intercalate 0x2F (List.forall_mem_cons.mpr ⟨hs, h⟩) (by simp)

/-- Every path is a segment and an absolute path. -/
theorem exists_absolute (path : List UInt8) :
    ∃ s segs, Segment s ∧ (∀ s ∈ segs, Segment s) ∧ path = s ++ absolute segs := by
  induction path with
  | nil => exact ⟨[], [], by simp [Segment], by simp, rfl⟩
  | cons b path ih =>
    obtain ⟨s, segs, hs, hsegs, rfl⟩ := ih
    by_cases hb : b = 0x2F
    · refine ⟨[], s :: segs, by simp [Segment], List.forall_mem_cons.mpr ⟨hs, hsegs⟩, ?_⟩
      rw [hb]
      rfl
    · refine ⟨b :: s, segs, ?_, hsegs, rfl⟩
      unfold Segment at hs ⊢
      rw [List.mem_cons, not_or]
      exact ⟨fun h => hb h.symm, hs⟩

/-- So a path has its segments only once. -/
theorem absolute_injective {segs segs' : List (List UInt8)} (h : ∀ s ∈ segs, Segment s)
    (h' : ∀ s ∈ segs', Segment s) (he : absolute segs = absolute segs') : segs = segs' := by
  have hnil : Segment [] := by simp [Segment]
  have h₁ := splitOn_absolute hnil h
  rw [List.nil_append, he, ← List.nil_append (absolute segs'), splitOn_absolute hnil h'] at h₁
  exact (List.cons.inj h₁).2.symm

/-! ## The loop on an absolute path -/

/-- Where a segment and a slash stand at the front of a path. -/
theorem prefix_iff {w s : List UInt8} {rest : List (List UInt8)} (hw : Segment w) (hs : Segment s) :
    w ++ [0x2F] <+: s ++ absolute rest ↔ s = w ∧ rest ≠ [] := by
  induction w generalizing s with
  | nil =>
    cases s with
    | nil => cases rest <;> simp
    | cons b s =>
      have hb : 0x2F ≠ b := fun h => hs (h ▸ List.mem_cons_self)
      simp [hb]
  | cons x w ih =>
    unfold Segment at hw
    rw [List.mem_cons, not_or] at hw
    cases s with
    | nil => cases rest <;> simp [Ne.symm hw.1]
    | cons b s =>
      unfold Segment at hs
      rw [List.mem_cons, not_or] at hs
      rw [List.cons_append, List.cons_append, List.cons_prefix_cons, ih hw.2 hs.2]
      constructor
      · rintro ⟨rfl, rfl, h⟩
        exact ⟨rfl, h⟩
      · rintro ⟨he, h⟩
        cases he
        exact ⟨rfl, rfl, h⟩

/-- A path that is a single segment. -/
theorem append_eq_iff {w s : List UInt8} {rest : List (List UInt8)} (hw : Segment w) :
    s ++ absolute rest = w ↔ s = w ∧ rest = [] := by
  constructor
  · intro h
    cases rest with
    | nil => exact ⟨by simpa using h, rfl⟩
    | cons t rest => exact absurd (h ▸ by simp) hw
  · rintro ⟨rfl, rfl⟩
    simp

/-- The first segment comes with the slash in front of it. -/
theorem firstSegment_absolute {s : List UInt8} (hs : Segment s) (rest : List (List UInt8)) :
    firstSegment (absolute (s :: rest)) = 0x2F :: s := by
  show 0x2F :: (s ++ absolute rest).takeWhile (· ≠ 0x2F) = _
  rw [List.takeWhile_append_of_pos]
  · cases rest <;> simp
  · intro b hb
    have hne : b ≠ 0x2F := fun h => hs (h ▸ hb)
    simpa using hne

theorem removeDots_nil (out : List UInt8) : removeDots [] out = out := by
  rw [removeDots, dif_pos rfl]

/-- One segment of an absolute path. -/
theorem removeDots_cons {s : List UInt8} (hs : Segment s) (rest : List (List UInt8))
    (out : List UInt8) :
    removeDots (absolute (s :: rest)) out =
      if s = [0x2E] then removeDots (absolute (if rest = [] then [[]] else rest)) out
      else if s = [0x2E, 0x2E] then
        removeDots (absolute (if rest = [] then [[]] else rest)) (removeLast out)
      else removeDots (absolute rest) (out ++ 0x2F :: s) := by
  have hdot : Segment [0x2E] := by simp [Segment]
  have hdots : Segment [0x2E, 0x2E] := by simp [Segment]
  have h₁ : [0x2F, 0x2E, 0x2F] <+: absolute (s :: rest) ↔ s = [0x2E] ∧ rest ≠ [] := by
    rw [absolute_cons, List.cons_prefix_cons, ← prefix_iff hdot hs]
    exact and_iff_right rfl
  have h₂ : absolute (s :: rest) = [0x2F, 0x2E] ↔ s = [0x2E] ∧ rest = [] := by
    rw [absolute_cons, ← append_eq_iff hdot]
    simp
  have h₃ : [0x2F, 0x2E, 0x2E, 0x2F] <+: absolute (s :: rest) ↔ s = [0x2E, 0x2E] ∧ rest ≠ [] := by
    rw [absolute_cons, List.cons_prefix_cons, ← prefix_iff hdots hs]
    exact and_iff_right rfl
  have h₄ : absolute (s :: rest) = [0x2F, 0x2E, 0x2E] ↔ s = [0x2E, 0x2E] ∧ rest = [] := by
    rw [absolute_cons, ← append_eq_iff hdots]
    simp
  rw [removeDots, dif_neg (by simp), if_neg (by simp), if_neg (by simp)]
  simp only [h₁, h₂, h₃, h₄]
  by_cases hone : s = [0x2E]
  · subst hone
    by_cases hrest : rest = []
    · simp [hrest]
    · simp [hrest]
  by_cases htwo : s = [0x2E, 0x2E]
  · subst htwo
    by_cases hrest : rest = []
    · simp [hrest]
    · simp [hrest]
  · rw [if_neg (fun h => hone h.1), if_neg (fun h => hone h.1), if_neg (fun h => htwo h.1),
      if_neg (fun h => htwo h.1), if_neg (by simp), if_neg hone, if_neg htwo,
      firstSegment_absolute hs]
    simp

/-- What the loop does to the segments it has kept. -/
def keep (kept : List (List UInt8)) (s : List UInt8) : List (List UInt8) :=
  if s = [0x2E] then kept else if s = [0x2E, 0x2E] then kept.dropLast else kept ++ [s]

/-- The segments that are kept behind `kept`. -/
def keepAll (kept segs : List (List UInt8)) : List (List UInt8) := segs.foldl keep kept

@[simp] theorem keepAll_nil (kept : List (List UInt8)) : keepAll kept [] = kept := rfl

@[simp] theorem keepAll_cons (kept : List (List UInt8)) (s : List UInt8) (segs : List (List UInt8)) :
    keepAll kept (s :: segs) = keepAll (keep kept s) segs := rfl

/-- What is kept of two paths, one after the other. -/
theorem keepAll_append (kept segs segs' : List (List UInt8)) :
    keepAll kept (segs ++ segs') = keepAll (keepAll kept segs) segs' := List.foldl_append

/-- The segments without their dot segments; a dot segment at the end leaves a slash. -/
def tidy (kept segs : List (List UInt8)) : List (List UInt8) :=
  keepAll kept segs ++ if ∃ s, segs.getLast? = some s ∧ IsDot s then [[]] else []

/-- The last segment is removed with its slash. -/
theorem removeLast_absolute {kept : List (List UInt8)} (h : ∀ s ∈ kept, Segment s) :
    removeLast (absolute kept) = absolute kept.dropLast := by
  rcases List.eq_nil_or_concat kept with rfl | ⟨front, s, rfl⟩
  · rfl
  · have hs : Segment s := h s (by simp)
    rw [List.concat_eq_append, absolute_append, List.dropLast_concat, removeLast]
    have hrev : (absolute front ++ absolute [s]).reverse =
        s.reverse ++ 0x2F :: (absolute front).reverse := by simp
    rw [hrev, List.dropWhile_append_of_pos]
    · simp
    · intro b hb
      have hne : b ≠ 0x2F := fun h => hs (h ▸ List.mem_reverse.mp hb)
      simpa using hne

/-- What is kept are segments. -/
theorem keep_segments {kept : List (List UInt8)} {s : List UInt8} (h : ∀ s ∈ kept, Segment s)
    (hs : Segment s) : ∀ t ∈ keep kept s, Segment t := by
  unfold keep
  split_ifs
  · exact h
  · exact fun t ht => h t (List.dropLast_subset _ ht)
  · exact List.forall_mem_append.mpr ⟨h, by simpa using hs⟩

/-- Induction on them. -/
theorem keepAll_segments {kept segs : List (List UInt8)} (h : ∀ s ∈ kept, Segment s)
    (hs : ∀ s ∈ segs, Segment s) : ∀ s ∈ keepAll kept segs, Segment s := by
  induction segs generalizing kept with
  | nil => exact h
  | cons s segs ih =>
    rw [List.forall_mem_cons] at hs
    exact ih (keep_segments h hs.1) hs.2

/-- **Removing dot segments** from an absolute path, behind an output that is one. -/
theorem removeDots_absolute {kept segs : List (List UInt8)} (h : ∀ s ∈ kept, Segment s)
    (hs : ∀ s ∈ segs, Segment s) :
    removeDots (absolute segs) (absolute kept) = absolute (tidy kept segs) := by
  -- a dot segment at the end is replaced by an empty one
  have hlast : ∀ kept : List (List UInt8),
      removeDots (absolute [[]]) (absolute kept) = absolute (kept ++ [[]]) := by
    intro kept
    rw [removeDots_cons (by simp [Segment])]
    simp [removeDots_nil, absolute_append]
  induction segs generalizing kept with
  | nil => simp [removeDots_nil, tidy]
  | cons s segs ih =>
    rw [List.forall_mem_cons] at hs
    have hkeep := keep_segments h hs.1
    have hnext := ih hkeep hs.2
    have htidy : segs ≠ [] → tidy kept (s :: segs) = tidy (keep kept s) segs := by
      intro hne
      rw [tidy, tidy, keepAll_cons, List.getLast?_cons_of_ne_nil hne]
    rw [removeDots_cons hs.1]
    by_cases hone : s = [0x2E]
    · subst hone
      rw [if_pos rfl]
      by_cases hrest : segs = []
      · subst hrest
        rw [if_pos rfl, hlast]
        simp [tidy, IsDot, keep]
      · rw [if_neg hrest, htidy hrest, ← hnext]
        rfl
    by_cases htwo : s = [0x2E, 0x2E]
    · subst htwo
      rw [if_neg hone, if_pos rfl, removeLast_absolute h]
      by_cases hrest : segs = []
      · subst hrest
        rw [if_pos rfl, hlast]
        simp [tidy, IsDot, keep]
      · rw [if_neg hrest, htidy hrest, ← hnext]
        rfl
    · have hout : absolute kept ++ 0x2F :: s = absolute (keep kept s) := by
        rw [keep, if_neg hone, if_neg htwo, absolute_append]
        simp
      rw [if_neg hone, if_neg htwo, hout, hnext]
      by_cases hrest : segs = []
      · subst hrest
        simp [tidy, IsDot, hone, htwo]
      · rw [htidy hrest]

/-- **The loop of the specification on a path of segments** keeps them one by one, with a slash at
    the end where a dot stood. -/
theorem removeDotSegments_absolute {segs : List (List UInt8)} (hs : ∀ s ∈ segs, Segment s) :
    removeDotSegments (absolute segs) = absolute (tidy [] segs) :=
  removeDots_absolute (List.forall_mem_nil _) hs

/-- How many segments in front of these are taken back by them. -/
def takenBack (segs : List (List UInt8)) : Nat :=
  segs.foldr (fun s n => if s = [0x2E] then n else if s = [0x2E, 0x2E] then n + 1 else n - 1) 0

/-- **What is kept of a path** is what is kept of its end, behind the part of its front that the end
    does not take back. -/
theorem keepAll_eq (kept segs : List (List UInt8)) :
    keepAll kept segs = kept.take (kept.length - takenBack segs) ++ keepAll [] segs := by
  induction segs generalizing kept with
  | nil => simp [takenBack]
  | cons s segs ih =>
    rw [keepAll_cons, keepAll_cons, ih (keep kept s), ih (keep [] s), ← List.append_assoc]
    congr 1
    have hback : takenBack (s :: segs) = if s = [0x2E] then takenBack segs
        else if s = [0x2E, 0x2E] then takenBack segs + 1 else takenBack segs - 1 := rfl
    rw [hback, keep, keep]
    split_ifs
    · simp
    · rw [List.dropLast_eq_take, List.take_take, List.length_take]
      simp only [List.dropLast_nil, List.take_nil, List.append_nil]
      congr 1
      omega
    · rw [List.length_append, List.length_singleton, List.nil_append, List.length_singleton]
      rcases Nat.eq_zero_or_pos (takenBack segs) with h | h
      · rw [h]
        simp
      · -- the segment itself is taken back
        rw [List.take_append_of_le_length (by omega), show 1 - takenBack segs = 0 by omega,
          List.take_zero, List.append_nil]
        congr 1
        omega

/-- The path of a target is never empty. -/
theorem tidy_ne_nil {segs : List (List UInt8)} (h : segs ≠ []) : tidy [] segs ≠ [] := by
  obtain ⟨front, s, rfl⟩ := List.eq_nil_or_concat segs |>.resolve_left h
  rw [List.concat_eq_append, tidy, List.getLast?_concat, keepAll_append]
  by_cases hdot : IsDot s
  · rw [if_pos ⟨s, rfl, hdot⟩]
    simp
  · have hkeep : keep (keepAll [] front) s = keepAll [] front ++ [s] := by
      rw [keep, if_neg (fun h => hdot (Or.inl h)), if_neg (fun h => hdot (Or.inr h))]
    simp [hkeep]

/-! ## Paths without dot segments -/

/-- Removing never adds. -/
theorem removeLast_length_le (out : List UInt8) : (removeLast out).length ≤ out.length := by
  unfold removeLast
  rw [List.length_reverse, List.length_tail]
  have := (List.dropWhile_suffix (p := (· ≠ 0x2F)) (l := out.reverse)).length_le
  rw [List.length_reverse] at this
  omega

/-- The loop never makes a path longer. -/
theorem removeDots_length_le (input out : List UInt8) :
    (removeDots input out).length ≤ input.length + out.length := by
  have hfirst : ∀ input : List UInt8, (firstSegment input).length ≤ input.length := by
    intro input
    cases input with
    | nil => simp [firstSegment]
    | cons b rest =>
      have := (List.takeWhile_prefix (p := (· ≠ 0x2F)) (l := rest)).length_le
      simp only [firstSegment, List.take_succ_cons, List.take_zero, List.drop_succ_cons,
        List.drop_zero, List.length_append, List.length_cons, List.length_nil]
      omega
  fun_induction removeDots input out with
  | case1 => simp
  | case2 input out h hpre ih => simp only [List.length_drop] at ih; omega
  | case3 input out h _ hpre ih => simp only [List.length_drop] at ih; omega
  | case4 input out h _ _ hpre ih => simp only [List.length_drop] at ih; omega
  | case5 =>
    rename_i ih
    simp_all
    omega
  | case6 input out h _ _ _ _ hpre ih =>
    have := removeLast_length_le out
    simp only [List.length_drop] at ih
    omega
  | case7 =>
    rename_i out h _ _ _ _ _ ih
    have := removeLast_length_le out
    simp_all
    omega
  | case8 => omega
  | case9 input out h _ _ _ _ _ _ _ ih =>
    have := hfirst input
    simp only [List.length_drop, List.length_append] at ih
    omega

/-- Without dot segments everything is moved over as it is. -/
theorem removeDots_plain {segs : List (List UInt8)} (hs : ∀ s ∈ segs, Segment s)
    (hdot : ∀ s ∈ segs, ¬ IsDot s) (out : List UInt8) :
    removeDots (absolute segs) out = out ++ absolute segs := by
  induction segs generalizing out with
  | nil => simp [removeDots_nil]
  | cons s segs ih =>
    rw [List.forall_mem_cons] at hs hdot
    rw [removeDots_cons hs.1, if_neg (fun h => hdot.1 (Or.inl h)),
      if_neg (fun h => hdot.1 (Or.inr h)), ih hs.2 hdot.2]
    simp

/-- A dot segment makes a path shorter. -/
theorem removeDots_shorter {segs : List (List UInt8)} (hs : ∀ s ∈ segs, Segment s)
    (hdot : ∃ s ∈ segs, IsDot s) (out : List UInt8) :
    (removeDots (absolute segs) out).length < (absolute segs).length + out.length := by
  induction segs generalizing out with
  | nil => simp at hdot
  | cons s segs ih =>
    rw [List.forall_mem_cons] at hs
    have hrest : (absolute (if segs = [] then [[]] else segs)).length ≤ 1 + (absolute segs).length := by
      split_ifs with h
      · simp
      · omega
    have hlast := removeLast_length_le out
    rw [removeDots_cons hs.1]
    by_cases hone : s = [0x2E]
    · have := removeDots_length_le (absolute (if segs = [] then [[]] else segs)) out
      rw [if_pos hone, hone, absolute_cons, List.length_cons, List.length_append, List.length_cons]
      omega
    by_cases htwo : s = [0x2E, 0x2E]
    · have := removeDots_length_le (absolute (if segs = [] then [[]] else segs)) (removeLast out)
      rw [if_neg hone, if_pos htwo, htwo, absolute_cons, List.length_cons, List.length_append,
        List.length_cons]
      omega
    · rw [if_neg hone, if_neg htwo]
      obtain ⟨t, ht, hd⟩ := hdot
      rcases List.mem_cons.mp ht with rfl | ht
      · rcases hd with hd | hd
        · exact absurd hd hone
        · exact absurd hd htwo
      · have := ih hs.2 ⟨t, ht, hd⟩ (out ++ 0x2F :: s)
        simp only [List.length_append, List.length_cons, absolute_cons] at this ⊢
        omega

/-- The first segment of a relative path. -/
theorem removeDots_relative {s : List UInt8} (hs : Segment s) (hne : s ≠ [])
    (rest : List (List UInt8)) (out : List UInt8) :
    removeDots (s ++ absolute rest) out =
      if s = [0x2E, 0x2E] then removeDots ((s ++ absolute rest).drop 3) out
      else if s = [0x2E] then removeDots ((s ++ absolute rest).drop 2) out
      else removeDots (absolute rest) (out ++ s) := by
  have hdot : Segment [0x2E] := by simp [Segment]
  have hdots : Segment [0x2E, 0x2E] := by simp [Segment]
  have h₁ : [0x2E, 0x2E, 0x2F] <+: s ++ absolute rest ↔ s = [0x2E, 0x2E] ∧ rest ≠ [] :=
    prefix_iff hdots hs
  have h₂ : [0x2E, 0x2F] <+: s ++ absolute rest ↔ s = [0x2E] ∧ rest ≠ [] := prefix_iff hdot hs
  obtain ⟨b, t, rfl⟩ := List.exists_cons_of_ne_nil hne
  have hb : b ≠ 0x2F := fun h => hs (h ▸ List.mem_cons_self)
  have hslash : ∀ w : List UInt8, ¬ 0x2F :: w <+: b :: t ++ absolute rest := by
    intro w h
    rw [List.cons_append, List.cons_prefix_cons] at h
    exact hb h.1.symm
  have hslash' : ∀ w : List UInt8, b :: t ++ absolute rest ≠ 0x2F :: w := by
    intro w h
    rw [List.cons_append] at h
    exact hb (List.cons.inj h).1
  have hfirst : firstSegment (b :: t ++ absolute rest) = b :: t := by
    show b :: (t ++ absolute rest).takeWhile (· ≠ 0x2F) = _
    rw [List.takeWhile_append_of_pos]
    · cases rest <;> simp
    · intro x hx
      have hne : x ≠ 0x2F := fun h => hs (h ▸ List.mem_cons_of_mem _ hx)
      simpa using hne
  rw [removeDots, dif_neg (by simp), if_neg (hslash _), if_neg (hslash' _), if_neg (hslash _),
    if_neg (hslash' _)]
  simp only [h₁, h₂, append_eq_iff hdot, append_eq_iff hdots, hfirst, List.drop_left]
  by_cases htwo : b :: t = [0x2E, 0x2E]
  · rw [htwo]
    by_cases hrest : rest = []
    · simp [hrest, removeDots_nil]
    · simp [hrest]
  by_cases hone : b :: t = [0x2E]
  · rw [hone]
    by_cases hrest : rest = []
    · simp [hrest, removeDots_nil]
    · simp [hrest]
  · rw [if_neg (fun h => htwo h.1), if_neg (fun h => hone h.1), if_neg (by tauto), if_neg htwo,
      if_neg hone]

/-- **Removing dot segments changes nothing** exactly if there are none. -/
theorem removeDotSegments_eq_self_iff (path : List UInt8) :
    removeDotSegments path = path ↔ ∀ s ∈ path.splitOn 0x2F, ¬ IsDot s := by
  obtain ⟨s, segs, hs, hsegs, rfl⟩ := exists_absolute path
  rw [splitOn_absolute hs hsegs, List.forall_mem_cons, removeDotSegments]
  -- the absolute part, behind whatever has been put out
  have habsolute : ∀ out, removeDots (absolute segs) out = out ++ absolute segs ↔
      ∀ s ∈ segs, ¬ IsDot s := by
    intro out
    refine ⟨fun h => ?_, fun h => removeDots_plain hsegs h out⟩
    by_contra hdot
    push Not at hdot
    have := removeDots_shorter hsegs hdot out
    rw [h, List.length_append] at this
    omega
  by_cases hne : s = []
  · have hnil : ¬ IsDot s := by
      rw [hne]
      decide
    have h := habsolute []
    rw [List.nil_append] at h
    rw [hne, List.nil_append, h]
    rw [hne] at hnil
    exact (and_iff_right hnil).symm
  rw [removeDots_relative hs hne]
  split_ifs with htwo hone
  · refine iff_of_false (fun h => ?_) fun h => h.1 (Or.inr htwo)
    have := removeDots_length_le ((s ++ absolute segs).drop 3) []
    rw [h, htwo] at this
    simp at this
    omega
  · refine iff_of_false (fun h => ?_) fun h => h.1 (Or.inl hone)
    have := removeDots_length_le ((s ++ absolute segs).drop 2) []
    rw [h, hone] at this
    simp at this
    omega
  · have hdot : ¬ IsDot s := by
      rintro (h | h)
      · exact hone h
      · exact htwo h
    rw [List.nil_append, habsolute s]
    exact (and_iff_right hdot).symm

end Rfc3986
