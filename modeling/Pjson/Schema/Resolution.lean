/-
  Reference resolution and RFC 3986.

  `normalizePath` removes dot segments with a stack of segments, as the algorithm of the standard
  does, but it drops empty segments and the slash that a dot segment at the end leaves behind.
  `normalizePath_eq_iff` says on which absolute paths that makes a difference; `resolveUri_eq_iff`
  compares the targets of all references against all hierarchical bases.
-/
import Pjson.Lib.Rfc3986
import Pjson.Schema.Uri

namespace ByteDance

open Rfc3986

/-! ## The stack of segments -/

/-- An empty segment leaves no trace. -/
theorem normalizeSegment_nil (kept : List Bytes) : normalizeSegment kept [] = kept := by
  rw [normalizeSegment, if_pos (Or.inl rfl)]

/-- A segment that is not empty is treated as the standard says. -/
theorem normalizeSegment_eq {kept : List Bytes} {s : Bytes} (h : s ≠ []) :
    normalizeSegment kept s = keep kept s := by
  rw [normalizeSegment, keep]
  by_cases hone : s = [0x2E]
  · rw [if_pos (Or.inr hone), if_pos hone]
  · rw [if_neg (by tauto), if_neg hone]

/-- Without empty segments the source keeps what the algorithm keeps. -/
theorem foldl_normalizeSegment {kept segs : List Bytes} (h : [] ∉ segs) :
    segs.foldl normalizeSegment kept = keepAll kept segs := by
  induction segs generalizing kept with
  | nil => rfl
  | cons s segs ih =>
    rw [List.mem_cons, not_or] at h
    rw [List.foldl_cons, normalizeSegment_eq (Ne.symm h.1), ih h.2, keepAll_cons]

/-- The stack is never higher than that of the standard. -/
theorem foldl_normalizeSegment_length_le (kept kept' segs : List Bytes)
    (h : kept.length ≤ kept'.length) :
    (segs.foldl normalizeSegment kept).length ≤ (keepAll kept' segs).length := by
  induction segs generalizing kept kept' with
  | nil => exact h
  | cons s segs ih =>
    rw [List.foldl_cons, keepAll_cons]
    apply ih
    by_cases hs : s = []
    · subst hs
      rw [normalizeSegment_nil]
      simp [keep]
      omega
    · rw [normalizeSegment_eq hs, keep, keep]
      split_ifs
      · exact h
      · rw [List.length_dropLast, List.length_dropLast]
        omega
      · rw [List.length_append, List.length_append]
        omega

/-- **The stacks agree** exactly if every empty segment is taken back by what is behind it, and
    all in front of it as well. -/
theorem foldl_normalizeSegment_eq_iff (segs : List Bytes) :
    segs.foldl normalizeSegment [] = keepAll [] segs ↔
      ∀ front rest, segs = front ++ [] :: rest → keepAll [] segs = keepAll [] rest := by
  -- what is left of the front, in both
  have hsplit : ∀ front rest : List Bytes,
      keepAll [] (front ++ [] :: rest) =
        (keepAll [] front ++ [[]]).take ((keepAll [] front).length + 1 - takenBack rest) ++
          keepAll [] rest := by
    intro front rest
    have hkeep : keep (keepAll [] front) [] = keepAll [] front ++ [[]] := by simp [keep]
    rw [keepAll_append, keepAll_cons, hkeep, keepAll_eq, List.length_append, List.length_singleton]
  constructor
  · rintro heq front rest rfl
    rcases Nat.lt_or_ge (takenBack rest) ((keepAll [] front).length + 1) with hlt | hge
    · -- something of the front is kept, so the stack of the standard is higher
      exfalso
      have hlow := foldl_normalizeSegment_length_le (front.foldl normalizeSegment []) _ rest
        (foldl_normalizeSegment_length_le [] [] front (le_refl _))
      have hhigh := congrArg List.length (hsplit front rest)
      rw [List.foldl_append, List.foldl_cons, normalizeSegment_nil] at heq
      rw [heq, keepAll_eq (keepAll [] front) rest, List.length_append, List.length_take] at hlow
      rw [List.length_append, List.length_take, List.length_append, List.length_singleton] at hhigh
      omega
    · rw [hsplit, Nat.sub_eq_zero_of_le hge]
      rfl
  · intro h
    by_cases hmem : [] ∈ segs
    · obtain ⟨back, front, hrev, hlast⟩ :=
        List.eq_append_cons_of_mem (List.mem_reverse.mpr hmem)
      -- the last empty segment
      have hsegs : segs = front.reverse ++ [] :: back.reverse := by
        rw [← List.reverse_reverse segs, hrev]
        simp
      have hkept := h _ _ hsegs
      have hfull := hkept
      rw [hsegs, hsplit] at hkept
      have hnone := List.append_left_eq_self.mp hkept
      have hback : (keepAll [] front.reverse).length + 1 ≤ takenBack back.reverse := by
        rw [List.take_eq_nil_iff] at hnone
        rcases hnone with hnone | hnone
        · omega
        · simp at hnone
      have hlow := foldl_normalizeSegment_length_le [] [] front.reverse (le_refl _)
      rw [hfull, hsegs, List.foldl_append, List.foldl_cons, normalizeSegment_nil,
        foldl_normalizeSegment (by simpa using hlast), keepAll_eq,
        Nat.sub_eq_zero_of_le (by omega)]
      rfl
    · exact foldl_normalizeSegment hmem

/-! ## Absolute paths -/

/-- The segments of an absolute path that `normalizePath` makes of it. -/
def normalSegments (segs : List Bytes) : List Bytes :=
  let kept := segs.foldl normalizeSegment []
  kept ++ if segs.getLast? = some [] ∨ kept = [] then [[]] else []

/-- What is kept are segments that are not empty. -/
theorem normalizeSegment_segments {kept : List Bytes} {s : Bytes}
    (h : ∀ t ∈ kept, Segment t ∧ t ≠ []) (hs : Segment s) :
    ∀ t ∈ normalizeSegment kept s, Segment t ∧ t ≠ [] := by
  by_cases hnil : s = []
  · rw [hnil, normalizeSegment_nil]
    exact h
  · rw [normalizeSegment_eq hnil, keep]
    split_ifs
    · exact h
    · exact fun t ht => h t (List.dropLast_subset _ ht)
    · exact List.forall_mem_append.mpr ⟨h, by simpa using ⟨hs, hnil⟩⟩

/-- Induction on the segments. -/
theorem foldl_normalizeSegment_segments {kept segs : List Bytes}
    (h : ∀ t ∈ kept, Segment t ∧ t ≠ []) (hs : ∀ s ∈ segs, Segment s) :
    ∀ t ∈ segs.foldl normalizeSegment kept, Segment t ∧ t ≠ [] := by
  induction segs generalizing kept with
  | nil => exact h
  | cons s segs ih =>
    rw [List.forall_mem_cons] at hs
    exact ih (normalizeSegment_segments h hs.1) hs.2

/-- The last byte of an absolute path is a slash exactly if its last segment is empty. -/
theorem getLast?_absolute (front : List Bytes) {s : Bytes} (hs : Segment s) :
    (absolute (front ++ [s])).getLast? = some 0x2F ↔ s = [] := by
  rw [absolute_append]
  show (absolute front ++ (0x2F :: (s ++ []))).getLast? = _ ↔ _
  rw [List.append_nil, List.getLast?_append]
  rcases List.eq_nil_or_concat s with rfl | ⟨t, b, rfl⟩
  · simp
  · have hb : b ≠ 0x2F := fun h => hs (by simp [h])
    rw [List.concat_eq_append, ← List.cons_append, List.getLast?_concat]
    simp [hb]

/-- Joining segments behind a path that does not end in a slash. -/
theorem foldl_joinSegment {front : List Bytes} {s : Bytes} {segs : List Bytes}
    (hs : Segment s ∧ s ≠ []) (h : ∀ t ∈ segs, Segment t ∧ t ≠ []) :
    segs.foldl joinSegment (absolute (front ++ [s])) = absolute (front ++ s :: segs) := by
  induction segs generalizing front s with
  | nil => rfl
  | cons t segs ih =>
    rw [List.forall_mem_cons] at h
    have hne : absolute (front ++ [s]) ≠ [] := by simp [absolute_append]
    have hlast := mt (getLast?_absolute front hs.1).mp hs.2
    have hjoin : joinSegment (absolute (front ++ [s])) t = absolute ((front ++ [s]) ++ [t]) := by
      rw [joinSegment, if_pos ⟨hne, hlast⟩, absolute_append (front ++ [s])]
      simp
    rw [List.foldl_cons, hjoin, ih h.1 h.2]
    simp

/-- What `normalizePath` makes of an absolute path. -/
theorem normalizePath_absolute {segs : List Bytes} (hne : segs ≠ []) (hs : ∀ s ∈ segs, Segment s) :
    normalizePath (absolute segs) = absolute (normalSegments segs) := by
  have hsplit : (absolute segs).splitOn 0x2F = [] :: segs := by
    have h := splitOn_absolute (s := []) (by simp [Segment]) hs
    rwa [List.nil_append] at h
  obtain ⟨front, s, rfl⟩ := List.eq_nil_or_concat segs |>.resolve_left hne
  rw [List.concat_eq_append] at *
  have hlast : (absolute (front ++ [s])).getLast? = some 0x2F ↔ s = [] :=
    getLast?_absolute front (hs s (by simp))
  have hhead : (absolute (front ++ [s])).head? = some 0x2F := by cases front <;> rfl
  have hkept := foldl_normalizeSegment_segments (List.forall_mem_nil _) hs
  rw [normalizePath, hsplit, List.foldl_cons, normalizeSegment_nil, if_pos hhead]
  simp only [hlast, normalSegments, List.getLast?_concat, Option.some.injEq]
  cases hk : (front ++ [s]).foldl normalizeSegment [] with
  | nil => simp
  | cons t kept =>
    rw [hk, List.forall_mem_cons] at hkept
    have hjoin : (t :: kept).foldl joinSegment [0x2F] = absolute (t :: kept) := by
      have hfirst : joinSegment [0x2F] t = absolute ([] ++ [t]) := by simp [joinSegment]
      rw [List.foldl_cons, hfirst, foldl_joinSegment hkept.1 hkept.2]
      rfl
    -- what is kept does not end in an empty segment
    have hend : (absolute (t :: kept)).getLast? ≠ some 0x2F := by
      obtain ⟨front', s', he⟩ := List.eq_nil_or_concat (t :: kept) |>.resolve_left (by simp)
      rw [List.concat_eq_append] at he
      have hall : ∀ x ∈ t :: kept, Segment x ∧ x ≠ [] := List.forall_mem_cons.mpr hkept
      have hs' := hall s' (by rw [he]; simp)
      rw [he, ne_eq, getLast?_absolute _ hs'.1]
      exact hs'.2
    rw [hjoin]
    by_cases hs' : s = []
    · rw [if_pos ⟨hs', hend⟩, if_pos (Or.inl hs'), absolute_append]
      rfl
    · rw [if_neg (fun h => hs' h.1), if_neg (by simp [hs']), List.append_nil]

/-- The segments of an absolute path without the empty one at its end. -/
def body (segs : List Bytes) : List Bytes := if segs.getLast? = some [] then segs.dropLast else segs

/-- Where removing dot segments with `normalizePath` is removing them: a path that ends in a dot
    segment keeps nothing, and in any other path an empty segment before the end is taken back with
    all that is in front of it. -/
def Normal (segs : List Bytes) : Prop :=
  if ∃ s, segs.getLast? = some s ∧ IsDot s then keepAll [] segs = []
  else ∀ front rest, body segs = front ++ [] :: rest → keepAll [] (body segs) = keepAll [] rest

/-- The two ways to normalize agree exactly on the paths that are normal. -/
theorem normalSegments_eq_iff {segs : List Bytes} (hne : segs ≠ []) :
    normalSegments segs = tidy [] segs ↔ Normal segs := by
  obtain ⟨front, s, rfl⟩ := List.eq_nil_or_concat segs |>.resolve_left hne
  rw [List.concat_eq_append] at *
  have hlow := foldl_normalizeSegment_length_le [] [] (front ++ [s]) (le_refl _)
  rw [normalSegments, tidy, Normal, body]
  simp only [List.getLast?_concat, Option.some.injEq, exists_eq_left', List.dropLast_concat]
  by_cases hdot : IsDot s
  · rw [if_pos hdot, if_pos hdot]
    have hs : s ≠ [] := by
      rintro rfl
      exact absurd hdot (by decide)
    constructor
    · intro h
      by_contra hkeep
      have hlen := congrArg List.length h
      by_cases hnil : (front ++ [s]).foldl normalizeSegment [] = []
      · rw [hnil] at hlen
        simp only [or_true, if_true, List.nil_append, List.length_append, List.length_singleton] at hlen
        exact hkeep (List.length_eq_zero_iff.mp (by omega))
      · rw [if_neg (by tauto), List.append_nil, List.length_append, List.length_singleton] at hlen
        omega
    · intro h
      rw [h] at hlow ⊢
      have hnil : (front ++ [s]).foldl normalizeSegment [] = [] :=
        List.length_eq_zero_iff.mp (Nat.le_zero.mp hlow)
      rw [hnil, if_pos (Or.inr rfl)]
  · rw [if_neg hdot, if_neg hdot, List.append_nil]
    by_cases hs : s = []
    · subst hs
      have hkeep : keepAll [] (front ++ [[]]) = keepAll [] front ++ [[]] := by
        rw [keepAll_append]
        simp [keep]
      rw [if_pos (Or.inl rfl), if_pos rfl, ← foldl_normalizeSegment_eq_iff, hkeep,
        List.append_left_inj, List.foldl_append, List.foldl_cons, normalizeSegment_nil]
      rfl
    · -- the last segment is kept
      have hkept : (front ++ [s]).foldl normalizeSegment [] ≠ [] := by
        have hkeep : keep (front.foldl normalizeSegment []) s =
            front.foldl normalizeSegment [] ++ [s] := by
          rw [keep, if_neg (fun h => hdot (Or.inl h)), if_neg (fun h => hdot (Or.inr h))]
        rw [List.foldl_append, List.foldl_cons, normalizeSegment_eq hs, hkeep]
        simp
      rw [if_neg (by tauto), if_neg hs, List.append_nil, ← foldl_normalizeSegment_eq_iff]

/-- **Absolute paths**: where `normalizePath` removes the dot segments as the standard does. -/
theorem normalizePath_eq_iff {segs : List Bytes} (hne : segs ≠ []) (hs : ∀ s ∈ segs, Segment s) :
    normalizePath (absolute segs) = removeDotSegments (absolute segs) ↔ Normal segs := by
  have hnil : ∀ t ∈ ([[]] : List Bytes), Segment t := by simp [Segment]
  have hnormal : ∀ t ∈ normalSegments segs, Segment t := by
    rw [normalSegments]
    refine List.forall_mem_append.mpr ⟨fun t ht => ?_, ?_⟩
    · exact (foldl_normalizeSegment_segments (List.forall_mem_nil _) hs t ht).1
    · split_ifs
      · exact hnil
      · simp
  have htidy : ∀ t ∈ tidy [] segs, Segment t := by
    rw [tidy]
    refine List.forall_mem_append.mpr ⟨keepAll_segments (by simp) hs, ?_⟩
    split_ifs
    · exact hnil
    · simp
  rw [normalizePath_absolute hne hs, removeDotSegments_absolute hs, ← normalSegments_eq_iff hne]
  exact ⟨absolute_injective hnormal htidy, congrArg absolute⟩

/-! ## Taking a reference apart -/

/-- Where a text stops that does not contain what it is searched for. -/
theorem takeWhile_stop {p : UInt8 → Bool} {a : Bytes} (rest : Bytes) (h : ∀ b ∈ a, p b = true)
    (hr : ∀ b, rest.head? = some b → p b = false) :
    (a ++ rest).takeWhile p = a ∧ (a ++ rest).dropWhile p = rest := by
  rw [List.takeWhile_append_of_pos h, List.dropWhile_append_of_pos h]
  cases rest with
  | nil => simp
  | cons b rest => simp [hr b rfl]

namespace Reference

variable (r : Reference)

/-- What follows the path of a reference. -/
def suffixText : Bytes := r.queryText ++ r.fragmentText

/-- A fragment starts with its mark, or is not there. -/
theorem head_fragmentText : ∀ b, r.fragmentText.head? = some b → b = 0x23 := by
  intro b h
  rw [Components.fragmentText] at h
  cases hf : r.fragment with
  | none => simp [hf] at h
  | some f => simpa [hf, eq_comm] using h

/-- What follows a path starts with one of two marks. -/
theorem head_suffixText : ∀ b, (suffixText r).head? = some b → b = 0x3F ∨ b = 0x23 := by
  intro b h
  rw [suffixText, Components.queryText] at h
  cases hq : r.query with
  | none => exact Or.inr (head_fragmentText r b (by simpa [hq] using h))
  | some q => exact Or.inl (by simpa [hq, eq_comm] using h)

/-- A byte of the text before the fragment. -/
theorem hash_notMem_queryText : 0x23 ∉ r.queryText := by
  rw [Components.queryText]
  cases hq : r.query with
  | none => simp
  | some q => simpa using r.query_valid q hq

/-- No byte of a scheme is a mark. -/
theorem schemeByte_ne : ∀ b : UInt8, isAlpha b = true ∨ isSchemeByte b = true →
    b ≠ 0x3A ∧ b ≠ 0x2F ∧ b ≠ 0x3F ∧ b ≠ 0x23 := by
  intro b h
  refine ⟨?_, ?_, ?_, ?_⟩
  all_goals
    rintro rfl
    exact absurd h (by decide)

/-- So a scheme has none. -/
theorem scheme_bytes {s : Bytes} (h : r.scheme = some s) :
    ∀ b ∈ s, b ≠ 0x3A ∧ b ≠ 0x2F ∧ b ≠ 0x3F ∧ b ≠ 0x23 := by
  obtain ⟨b, rest, rfl, hb, hrest⟩ := r.scheme_valid s h
  exact List.forall_mem_cons.mpr ⟨schemeByte_ne b (Or.inl hb),
    fun x hx => schemeByte_ne x (Or.inr (hrest x hx))⟩

end Reference

/-- The letters of the source are those of the grammar. -/
theorem isAsciiLetter_eq : ∀ b : UInt8, isAsciiLetter b = isAlpha b := fun _ => Bool.or_comm _ _

/-- And so are the other bytes of a scheme. -/
theorem schemeFrom_byte : ∀ c : UInt8, (!(isAsciiLetter c || isAsciiDigit c || c == 0x2B || c == 0x2D ||
    c == 0x2E)) = !isSchemeByte c := fun c => by
  rw [isAsciiLetter_eq]
  rfl

/-- The scan of a scheme ends at its colon. -/
theorem schemeFrom_append {s : Bytes} (h : ∀ b ∈ s, isSchemeByte b = true) (rest : Bytes) :
    schemeFrom (s ++ 0x3A :: rest) = true := by
  induction s with
  | nil => rw [List.nil_append, schemeFrom, if_pos rfl]
  | cons b s ih =>
    rw [List.forall_mem_cons] at h
    rw [List.cons_append, schemeFrom, if_neg (Reference.schemeByte_ne b (Or.inr h.1)).1,
      schemeFrom_byte, h.1, Bool.not_true, if_neg Bool.false_ne_true, ih h.2]

/-- Without a colon before the first delimiter there is no scheme. -/
theorem schemeFrom_stop {s rest : Bytes} (h : 0x3A ∉ s)
    (hr : ∀ b, rest.head? = some b → b = 0x2F ∨ b = 0x3F ∨ b = 0x23) :
    schemeFrom (s ++ rest) = false := by
  induction s with
  | nil =>
    cases rest with
    | nil => rfl
    | cons b rest =>
      have hb : b ≠ 0x3A ∧ isSchemeByte b = false := by
        rcases hr b rfl with rfl | rfl | rfl <;> exact ⟨by decide, by decide⟩
      rw [List.nil_append, schemeFrom, if_neg hb.1, schemeFrom_byte, hb.2, Bool.not_false, if_pos rfl]
  | cons b s ih =>
    rw [List.mem_cons, not_or] at h
    rw [List.cons_append, schemeFrom, if_neg (Ne.symm h.1)]
    split_ifs
    · rfl
    · exact ih h.2

/-- A mark in front of any colon ends the scan: there is no scheme. -/
theorem uriHasScheme_stop {s rest : Bytes} (h : 0x3A ∉ s)
    (hr : ∀ b, rest.head? = some b → b = 0x2F ∨ b = 0x3F ∨ b = 0x23) :
    uriHasScheme (s ++ rest) = false := by
  cases s with
  | nil =>
    cases rest with
    | nil => rfl
    | cons b rest =>
      have hb : isAsciiLetter b = false := by
        rcases hr b rfl with rfl | rfl | rfl <;> decide
      rw [List.nil_append, uriHasScheme, hb, Bool.false_and]
  | cons b s =>
    rw [List.mem_cons, not_or] at h
    rw [List.cons_append, uriHasScheme, schemeFrom_stop h.2 hr, Bool.and_false]

/-- **The scheme test** sees a scheme exactly if there is one. -/
theorem uriHasScheme_text (r : Reference) : uriHasScheme r.text = true ↔ r.scheme ≠ none := by
  cases hs : r.scheme with
  | some s =>
    refine iff_of_true ?_ (by simp)
    obtain ⟨b, rest, rfl, hb, hrest⟩ := r.scheme_valid s hs
    simp only [Components.text, Components.schemeText, hs, Option.map_some, Option.getD_some,
      List.cons_append, List.append_assoc, List.nil_append]
    rw [uriHasScheme, isAsciiLetter_eq, hb, schemeFrom_append hrest, Bool.and_self]
  | none =>
    refine iff_of_false (Bool.not_eq_true _ |>.mpr ?_) (by simp)
    simp only [Components.text, Components.schemeText, hs, Option.map_none, Option.getD_none,
      List.nil_append]
    cases ha : r.authority with
    | some a =>
      simp only [Components.authorityText, ha, Option.map_some, Option.getD_some]
      rfl
    | none =>
      simp only [Components.authorityText, ha, Option.map_none, Option.getD_none, List.nil_append]
      -- up to the first slash the path has no colon
      have hpath := List.takeWhile_append_dropWhile (p := (· ≠ 0x2F)) (l := r.path)
      have htail := Reference.head_suffixText r
      rw [← hpath, List.append_assoc]
      refine uriHasScheme_stop (r.path_no_scheme hs ha) fun b hb => ?_
      cases hd : r.path.dropWhile (· ≠ 0x2F) with
      | nil =>
        rw [hd, List.nil_append] at hb
        rcases htail b hb with h | h
        · exact Or.inr (Or.inl h)
        · exact Or.inr (Or.inr h)
      | cons x rest =>
        rw [hd] at hb
        cases hb
        have hx := List.head?_dropWhile_not (· ≠ 0x2F) r.path
        rw [hd] at hx
        exact Or.inl (by simpa using hx)

/-! ## The base -/

/-- An absolute hierarchical URI: a reference with a scheme and an authority. -/
structure HierarchicalUri extends Reference where
  scheme_some : scheme ≠ none
  authority_some : authority ≠ none

namespace HierarchicalUri

variable (base : HierarchicalUri)

/-- Scheme and authority with their delimiters. -/
def front : Bytes := base.schemeText ++ base.authorityText

/-- Path and query. -/
def rear : Bytes := base.path ++ base.queryText

/-- A base that counts has a scheme and an authority. -/
theorem exists_parts : ∃ s a, base.scheme = some s ∧ base.authority = some a ∧
    base.schemeText = s ++ [0x3A] ∧ base.authorityText = [0x2F, 0x2F] ++ a := by
  obtain ⟨s, hs⟩ := Option.ne_none_iff_exists'.mp base.scheme_some
  obtain ⟨a, ha⟩ := Option.ne_none_iff_exists'.mp base.authority_some
  exact ⟨s, a, hs, ha, by simp [Components.schemeText, hs], by simp [Components.authorityText, ha]⟩

/-- Without its fragment a base is what stands in front of its path, and the rest. -/
theorem stripFragment_text : stripFragment base.text = base.front ++ base.rear := by
  obtain ⟨s, a, hs, ha, hst, hat⟩ := base.exists_parts
  have htext : base.text = (base.front ++ base.rear) ++ base.fragmentText := by
    simp [Components.text, front, rear]
  rw [htext, stripFragment]
  refine (takeWhile_stop _ (fun b hb => ?_) fun b hb => ?_).1
  · suffices b ≠ 0x23 by simpa using this
    simp only [front, rear, hst, hat, List.mem_append, List.mem_cons, List.not_mem_nil,
      or_false] at hb
    rcases hb with ((hb | rfl) | (rfl | rfl) | hb) | hb | hb
    · exact (Reference.scheme_bytes base.toReference hs b hb).2.2.2
    · decide
    · decide
    · decide
    · exact (base.authority_valid a ha b hb).2.2
    · exact (base.path_valid b hb).2
    · rintro rfl
      exact Reference.hash_notMem_queryText base.toReference hb
  · have := Reference.head_fragmentText base.toReference b hb
    simp [this]

/-- The path of the base, as it stands behind the authority that `resolveUri` sees. -/
def seenPath : Bytes :=
  let behind := base.rear.dropWhile (· ≠ 0x2F)
  (splitPathSuffix (if behind = [] then [0x2F] else behind)).1

/-- What `resolveUri` takes for the end of the authority. -/
def seenAuthority : Bytes := base.rear.takeWhile (· ≠ 0x2F)

/-- **A relative reference**: what `resolveUri` makes of the base. -/
theorem resolveUri_text {reference : Bytes} (hne : reference ≠ [])
    (hscheme : uriHasScheme reference = false) (hhash : reference.head? ≠ some 0x23) :
    resolveUri base.text reference =
      if reference.take 2 = [0x2F, 0x2F] then base.schemeText ++ reference
      else resolveAgainst (base.front ++ base.seenAuthority) base.seenPath reference := by
  obtain ⟨s, a, hs, ha, hst, hat⟩ := base.exists_parts
  have hbase : stripFragment base.text = s ++ 0x3A :: ([0x2F, 0x2F] ++ (a ++ base.rear)) := by
    rw [base.stripFragment_text, front, hst, hat]
    simp
  have hcolon : ∀ b ∈ s, decide (b ≠ 0x3A) = true := fun b hb => by
    simpa using (Reference.scheme_bytes base.toReference hs b hb).1
  have hsplit := takeWhile_stop (p := (· ≠ 0x3A)) (a := s)
    (0x3A :: ([0x2F, 0x2F] ++ (a ++ base.rear))) hcolon fun b hb => by
      simp only [List.head?_cons, Option.some.injEq] at hb
      simp [← hb]
  have hslash : ∀ b ∈ a, decide (b ≠ 0x2F) = true := fun b hb => by
    simpa using (base.authority_valid a ha b hb).1
  have hauthority : (a ++ base.rear).takeWhile (· ≠ 0x2F) = a ++ base.seenAuthority :=
    List.takeWhile_append_of_pos hslash
  have hbehind : (a ++ base.rear).dropWhile (· ≠ 0x2F) = base.rear.dropWhile (· ≠ 0x2F) :=
    List.dropWhile_append_of_pos hslash
  have hfront : base.front ++ base.seenAuthority =
      s ++ [0x3A] ++ ([0x2F, 0x2F] ++ (a ++ base.seenAuthority)) := by
    rw [front, hst, hat]
    simp
  rw [resolveUri, if_neg hne, hscheme, if_neg Bool.false_ne_true, if_neg hhash, hbase,
    if_neg (by simp), hsplit.1, hsplit.2]
  have htake : ([0x2F, 0x2F] ++ (a ++ base.rear) : Bytes).take 2 = [0x2F, 0x2F] := rfl
  have hdrop : ([0x2F, 0x2F] ++ (a ++ base.rear) : Bytes).drop 2 = a ++ base.rear := rfl
  simp only [List.tail_cons, htake, hdrop, hauthority, hbehind, ne_eq, not_true_eq_false, if_false]
  rw [hst, hfront, seenPath]

/-- A base with a path shows it. -/
theorem seen_of_path (h : base.path ≠ []) :
    base.seenAuthority = [] ∧ base.seenPath = base.path := by
  have hhead := (base.path_behind_authority base.authority_some).resolve_left h
  obtain ⟨b, rest, hpath⟩ := List.exists_cons_of_ne_nil h
  rw [hpath, List.head?_cons, Option.some.injEq] at hhead
  have hrear : base.rear = 0x2F :: (rest ++ base.queryText) := by
    rw [rear, hpath, hhead, List.cons_append]
  refine ⟨by simp [seenAuthority, hrear], ?_⟩
  have hbehind : base.rear.dropWhile (· ≠ 0x2F) = base.path ++ base.queryText := by
    rw [hrear, hpath, hhead]
    simp
  rw [seenPath, hbehind, if_neg (by simp [h]), splitPathSuffix]
  refine (takeWhile_stop _ (fun b hb => ?_) fun b hb => ?_).1
  · simpa using base.path_valid b hb
  · rw [Components.queryText] at hb
    cases hq : base.query with
    | none => simp [hq] at hb
    | some q =>
      have : b = 0x3F := by simpa [hq, eq_comm] using hb
      simp [this]

/-- A base without path and query is taken for one with the path `/`. -/
theorem seen_of_empty (h : base.path = []) (hq : base.query = none) :
    base.seenAuthority = [] ∧ base.seenPath = [0x2F] := by
  have hrear : base.rear = [] := by simp [rear, h, Components.queryText, hq]
  exact ⟨by simp [seenAuthority, hrear], by rw [seenPath, hrear]; rfl⟩

/-- The query of a base without a path is taken for a part of its authority. -/
theorem seen_of_query (h : base.path = []) (hq : base.query ≠ none) :
    ∃ x, base.seenAuthority = 0x3F :: x := by
  obtain ⟨q, hq⟩ := Option.ne_none_iff_exists'.mp hq
  have hrear : base.rear = 0x3F :: q := by simp [rear, h, Components.queryText, hq]
  exact ⟨q.takeWhile (· ≠ 0x2F), by rw [seenAuthority, hrear]; rfl⟩

/-- The path that is seen is never empty. -/
theorem seenPath_ne_nil : base.seenPath ≠ [] := by
  have hcons : ∀ rest : Bytes, (splitPathSuffix (0x2F :: rest)).1 ≠ [] := by
    intro rest
    simp [splitPathSuffix]
  rw [seenPath]
  cases hd : base.rear.dropWhile (· ≠ 0x2F) with
  | nil =>
    rw [if_pos rfl]
    exact hcons []
  | cons b rest =>
    have hb := List.head?_dropWhile_not (· ≠ 0x2F) base.rear
    rw [hd] at hb
    obtain rfl : b = 0x2F := by simpa using hb
    rw [if_neg (by simp)]
    exact hcons rest

end HierarchicalUri

/-! ## Resolution -/

/-- The segments of an absolute path. -/
def segmentsOf (path : Bytes) : List Bytes := (path.splitOn 0x2F).tail

/-- Where `resolveUri` finds the target of the standard.  The path of a reference with a scheme or
    an authority has no dot segments, as it is left as it is.  Any other reference needs a base whose
    path is not empty, unless it has neither path nor query, or the base has no query and it has a
    path; and the path it leads to is one on which removing dot segments is what the standard says. -/
def ResolvesAlike (base : HierarchicalUri) (r : Reference) : Prop :=
  if r.scheme ≠ none ∨ r.authority ≠ none then ∀ s ∈ r.path.splitOn 0x2F, ¬ IsDot s
  else if r.path = [] then r.query = none ∨ base.path ≠ []
  else (base.path ≠ [] ∨ base.query = none) ∧
    Normal (segmentsOf (base.targetPath r.toComponents))

/-- The directory of an absolute path is one. -/
theorem head?_directory {path : Bytes} (h : path.head? = some 0x2F) :
    (directory path).head? = some 0x2F := by
  cases path with
  | nil => cases h
  | cons b rest =>
    obtain rfl : b = 0x2F := by simpa using h
    rw [directory, List.reverse_cons, List.dropWhile_append]
    split_ifs <;> simp

/-- The path of a target behind an authority is absolute. -/
theorem head?_targetPath (base : HierarchicalUri) (r : Reference) :
    (base.targetPath r.toComponents).head? = some 0x2F := by
  rw [Components.targetPath]
  split_ifs with hr
  · exact hr
  · rw [Components.merge]
    split_ifs with hb
    · rfl
    · have hpath := base.path_behind_authority base.authority_some
      have hne : base.path ≠ [] := fun hnil => hb ⟨base.authority_some, hnil⟩
      have hdir := head?_directory (hpath.resolve_left hne)
      rw [List.head?_append, hdir]
      rfl

/-- A path that starts with a slash is one of segments. -/
theorem exists_segments {path : Bytes} (h : path.head? = some 0x2F) :
    ∃ segs, segs ≠ [] ∧ (∀ s ∈ segs, Segment s) ∧ path = absolute segs ∧ segmentsOf path = segs := by
  obtain ⟨s, segs, hs, hsegs, rfl⟩ := exists_absolute path
  obtain rfl : s = [] := by
    cases s with
    | nil => rfl
    | cons b s =>
      obtain rfl : b = 0x2F := by simpa using h
      exact absurd List.mem_cons_self hs
  refine ⟨segs, ?_, hsegs, rfl, ?_⟩
  · rintro rfl
    cases h
  · rw [segmentsOf, splitOn_absolute hs hsegs]
    rfl

/-- Where the standard and `normalizePath` find the same path. -/
theorem normalizePath_eq_iff_segments {path : Bytes} (h : path.head? = some 0x2F) :
    normalizePath path = removeDotSegments path ↔ Normal (segmentsOf path) := by
  obtain ⟨segs, hne, hsegs, rfl, hsegments⟩ := exists_segments h
  rw [hsegments]
  exact normalizePath_eq_iff hne hsegs

/-- The algorithm keeps the slash in front. -/
theorem head?_removeDotSegments {path : Bytes} (h : path.head? = some 0x2F) :
    ∃ rest, removeDotSegments path = 0x2F :: rest := by
  obtain ⟨segs, hne, hsegs, rfl, -⟩ := exists_segments h
  rw [removeDotSegments_absolute hsegs]
  cases ht : tidy [] segs with
  | nil => exact absurd ht (tidy_ne_nil hne)
  | cons s rest => exact ⟨_, rfl⟩

section Cases

variable (base : HierarchicalUri) {r : Reference}

/-- A reference with a scheme is the target. -/
theorem resolve_scheme (hs : r.scheme ≠ none) :
    resolveUri base.text r.text = (base.toComponents.resolve r.toComponents).text ↔
      ∀ s ∈ r.path.splitOn 0x2F, ¬ IsDot s := by
  have hne : r.text ≠ [] := by
    intro h
    have := (uriHasScheme_text r).mpr hs
    rw [h] at this
    cases this
  rw [resolveUri, if_neg hne, if_pos ((uriHasScheme_text r).mpr hs), Components.resolve, if_pos hs,
    ← removeDotSegments_eq_self_iff]
  simp only [Components.text, Components.schemeText, Components.authorityText,
    Components.queryText, Components.fragmentText, List.append_cancel_left_eq,
    List.append_cancel_right_eq]
  exact eq_comm

variable (hs : r.scheme = none)
include hs

/-- A relative reference has no scheme for the source either. -/
theorem not_uriHasScheme : uriHasScheme r.text = false := by
  rw [← Bool.not_eq_true, uriHasScheme_text]
  exact not_not_intro hs

/-- Its text is that of its parts. -/
theorem text_of_no_scheme : r.text = r.authorityText ++ (r.path ++ Reference.suffixText r) := by
  rw [Components.text, Components.schemeText, hs]
  rfl

/-- A network-path reference is put behind the scheme of the base. -/
theorem resolve_network (ha : r.authority ≠ none) :
    resolveUri base.text r.text = (base.toComponents.resolve r.toComponents).text ↔
      ∀ s ∈ r.path.splitOn 0x2F, ¬ IsDot s := by
  obtain ⟨a, ha'⟩ := Option.ne_none_iff_exists'.mp ha
  have hauthority : r.authorityText = [0x2F, 0x2F] ++ a := by simp [Components.authorityText, ha']
  have htext := text_of_no_scheme hs
  have hslashes : r.text = 0x2F :: 0x2F :: (a ++ (r.path ++ Reference.suffixText r)) := by
    rw [htext, hauthority]
    rfl
  rw [base.resolveUri_text (by rw [hslashes]; simp) (not_uriHasScheme hs) (by rw [hslashes]; simp),
    if_pos (by rw [hslashes]; rfl), Components.resolve, if_neg (not_not_intro hs), if_pos ha,
    ← removeDotSegments_eq_self_iff, htext]
  simp only [Components.text, Components.schemeText, Components.authorityText, Reference.suffixText,
    Components.queryText, Components.fragmentText, List.append_cancel_left_eq,
    List.append_cancel_right_eq]
  exact eq_comm

variable (ha : r.authority = none)
include ha

/-- Without an authority it starts with its path. -/
theorem text_of_relative : r.text = r.path ++ Reference.suffixText r := by
  rw [text_of_no_scheme hs, Components.authorityText, ha]
  rfl

/-- A reference without a path. -/
theorem resolve_empty (hp : r.path = []) :
    resolveUri base.text r.text = (base.toComponents.resolve r.toComponents).text ↔
      r.query = none ∨ base.path ≠ [] := by
  have htext : r.text = r.queryText ++ r.fragmentText := by
    rw [text_of_relative hs ha, hp]
    rfl
  rw [Components.resolve, if_neg (not_not_intro hs), if_neg (not_not_intro ha), if_pos hp]
  cases hq : r.query with
  | none =>
    refine iff_of_true ?_ (Or.inl rfl)
    have hquery : r.queryText = [] := by simp [Components.queryText, hq]
    rw [hquery, List.nil_append] at htext
    have htarget : ∀ f, ({ base.toComponents with fragment := f } : Components).text =
        base.front ++ base.rear ++ (f.map (0x23 :: ·)).getD [] := by
      intro f
      simp [Components.text, HierarchicalUri.front, HierarchicalUri.rear, Components.schemeText,
        Components.authorityText, Components.queryText, Components.fragmentText]
    rw [if_neg (not_not_intro rfl)]
    cases hf : r.fragment with
    | none =>
      have hnil : r.text = [] := by rw [htext]; simp [Components.fragmentText, hf]
      rw [resolveUri, if_pos hnil, base.stripFragment_text, htarget]
      simp
    | some f =>
      have hhash : r.text = 0x23 :: f := by rw [htext]; simp [Components.fragmentText, hf]
      rw [resolveUri, if_neg (by rw [hhash]; simp), not_uriHasScheme hs, if_neg Bool.false_ne_true,
        if_pos (by rw [hhash]; rfl), base.stripFragment_text, hhash, htarget]
      simp
  | some q =>
    have hmark : r.text = 0x3F :: (q ++ r.fragmentText) := by
      rw [htext]
      simp [Components.queryText, hq]
    rw [if_pos (by simp), base.resolveUri_text (by rw [hmark]; simp) (not_uriHasScheme hs)
      (by rw [hmark]; simp), if_neg (by rw [hmark]; simp), resolveAgainst]
    simp only [show r.text.head? = some 0x3F by rw [hmark]; rfl, if_true]
    have htarget : ({ base.toComponents with query := some q, fragment := r.fragment } : Components).text
        = base.front ++ (base.path ++ r.text) := by
      rw [hmark]
      simp [Components.text, HierarchicalUri.front, Components.schemeText, Components.authorityText,
        Components.queryText, Components.fragmentText]
    rw [htarget]
    constructor
    · -- the code puts at least a slash between the authority and the query
      rintro heq
      refine Or.inr fun hnil => ?_
      have hlen := congrArg List.length heq
      have hpos := List.length_pos_iff.mpr base.seenPath_ne_nil
      simp only [hnil, List.length_append, List.length_nil] at hlen
      omega
    · intro h
      have hne := h.resolve_left (by simp)
      obtain ⟨h₁, h₂⟩ := base.seen_of_path hne
      rw [h₁, h₂]
      simp

/-- A reference with a path. -/
theorem resolve_path (hp : r.path ≠ []) :
    resolveUri base.text r.text = (base.toComponents.resolve r.toComponents).text ↔
      (base.path ≠ [] ∨ base.query = none) ∧
        Normal (segmentsOf (base.targetPath r.toComponents)) := by
  have htext := text_of_relative hs ha
  obtain ⟨b, rest, hpath⟩ := List.exists_cons_of_ne_nil hp
  have hb := r.path_valid b (by rw [hpath]; simp)
  have hhead : r.text.head? = some b := by
    rw [htext, hpath]
    rfl
  have hsuffix := Reference.head_suffixText r
  have hslashes : r.text.take 2 ≠ [0x2F, 0x2F] := by
    have hsingle := r.path_single_slash ha
    rw [htext]
    rw [hpath] at hsingle ⊢
    cases rest with
    | nil =>
      intro h
      cases hst : Reference.suffixText r with
      | nil => simp [hst] at h
      | cons c t =>
        have hc := hsuffix c (by rw [hst]; rfl)
        rw [hst] at h
        have : c = 0x2F := by simpa using (List.cons.inj (List.cons.inj h).2).1
        rcases hc with rfl | rfl <;> cases this
    | cons c t =>
      intro h
      obtain ⟨rfl, rfl⟩ : b = 0x2F ∧ c = 0x2F := by simpa using h
      exact hsingle ⟨t, rfl⟩
  have hsplit : splitPathSuffix r.text = (r.path, Reference.suffixText r) := by
    rw [htext, splitPathSuffix]
    obtain ⟨h₁, h₂⟩ := takeWhile_stop (p := fun c => c ≠ 0x3F && c ≠ 0x23) (a := r.path)
      (Reference.suffixText r) (fun x hx => by simpa using r.path_valid x hx)
      (fun x hx => by rcases hsuffix x hx with rfl | rfl <;> rfl)
    rw [h₁, h₂]
  rw [base.resolveUri_text (by rw [htext, hpath]; simp) (not_uriHasScheme hs)
    (by rw [hhead]; simpa using hb.2), if_neg hslashes, Components.resolve,
    if_neg (not_not_intro hs), if_neg (not_not_intro ha), if_neg hp, resolveAgainst, hsplit]
  have hquestion : r.text.head? ≠ some 0x3F := by
    rw [hhead]
    simpa using hb.1
  have htarget : ∀ path, ({ base.toComponents with
        path := path, query := r.query, fragment := r.fragment } : Components).text =
      base.front ++ (path ++ Reference.suffixText r) := by
    intro path
    simp [Components.text, HierarchicalUri.front, Components.schemeText, Components.authorityText,
      Components.queryText, Components.fragmentText, Reference.suffixText]
  -- the path that the code normalizes, if it sees the directory of the base
  have hseen : base.seenAuthority = [] →
      (r.path.head? ≠ some 0x2F → directoryOf base.seenPath ++ r.path = base.merge r.path) →
      ((base.front ++ base.seenAuthority ++
          (if r.path.head? = some 0x2F then normalizePath r.path
            else normalizePath (directoryOf base.seenPath ++ r.path)) ++ Reference.suffixText r =
        base.front ++ (removeDotSegments (base.targetPath r.toComponents) ++
          Reference.suffixText r)) ↔ Normal (segmentsOf (base.targetPath r.toComponents))) := by
    intro hnil hmerge
    rw [← normalizePath_eq_iff_segments (head?_targetPath base r), hnil, List.append_nil,
      List.append_assoc, List.append_cancel_left_eq, List.append_cancel_right_eq,
      Components.targetPath]
    by_cases hr : r.path.head? = some 0x2F
    · rw [if_pos hr, if_pos hr]
    · rw [if_neg hr, if_neg hr, hmerge hr]
  simp only [if_neg hquestion, htarget]
  rw [show (if r.path.head? = some 0x2F then base.front ++ base.seenAuthority ++ normalizePath r.path ++
      Reference.suffixText r else base.front ++ base.seenAuthority ++
      normalizePath (directoryOf base.seenPath ++ r.path) ++ Reference.suffixText r) =
      base.front ++ base.seenAuthority ++ (if r.path.head? = some 0x2F then normalizePath r.path
        else normalizePath (directoryOf base.seenPath ++ r.path)) ++ Reference.suffixText r by
    split_ifs <;> rfl]
  by_cases hbase : base.path = []
  · by_cases hq : base.query = none
    · obtain ⟨h₁, h₂⟩ := base.seen_of_empty hbase hq
      rw [hseen h₁ fun _ => ?_, and_iff_right (Or.inr hq)]
      rw [h₂, Components.merge, if_pos ⟨base.authority_some, hbase⟩]
      rfl
    · -- a question mark stands where the standard has a slash
      refine iff_of_false (fun heq => ?_) fun h => ?_
      · obtain ⟨x, hx⟩ := base.seen_of_query hbase hq
        obtain ⟨y, hy⟩ := head?_removeDotSegments (head?_targetPath base r)
        rw [hx, hy, List.append_assoc, List.append_assoc, List.append_cancel_left_eq] at heq
        have := (List.cons.inj heq).1
        cases this
      · rcases h.1 with h | h
        · exact h hbase
        · exact hq h
  · obtain ⟨h₁, h₂⟩ := base.seen_of_path hbase
    rw [hseen h₁ fun _ => ?_, and_iff_right (Or.inl hbase)]
    rw [h₂, Components.merge, if_neg (fun h => hbase h.2)]
    rfl

end Cases

/-- **Reference resolution** is that of the standard exactly where it says so. -/
theorem resolveUri_eq_iff (base : HierarchicalUri) (r : Reference) :
    resolveUri base.text r.text = (base.toComponents.resolve r.toComponents).text ↔
      ResolvesAlike base r := by
  rw [ResolvesAlike]
  by_cases hs : r.scheme = none
  · by_cases ha : r.authority = none
    · rw [if_neg (by simp [hs, ha])]
      by_cases hp : r.path = []
      · rw [if_pos hp]
        exact resolve_empty base hs ha hp
      · rw [if_neg hp]
        exact resolve_path base hs ha hp
    · rw [if_pos (Or.inr ha)]
      exact resolve_network base hs ha
  · rw [if_pos (Or.inl hs)]
    exact resolve_scheme base hs

/-! ## A base and a reference -/

/-- `s://h/b` -/
def baseB : HierarchicalUri where
  scheme := some (ascii "s")
  authority := some (ascii "h")
  path := ascii "/b"
  query := none
  fragment := none
  scheme_valid := by
    rintro s h
    cases h
    exact ⟨_, _, rfl, by decide, by simp⟩
  authority_valid := by
    rintro a h
    cases h
    simp [ascii]
  path_valid := by simp [ascii]
  query_valid := by simp
  path_behind_authority := by decide
  path_single_slash := by simp
  path_no_scheme := by simp
  scheme_some := by simp
  authority_some := by simp

/-- `c/.` -/
def referenceDot : Reference where
  scheme := none
  authority := none
  path := ascii "c/."
  query := none
  fragment := none
  scheme_valid := by simp
  authority_valid := by simp
  path_valid := by simp [ascii]
  query_valid := by simp
  path_behind_authority := by simp
  path_single_slash := by decide
  path_no_scheme := by decide

/-- The slash that a dot segment at the end leaves behind is lost. -/
theorem resolveUri_ne_resolve :
    ¬ ∀ (base : HierarchicalUri) (r : Reference),
      resolveUri base.text r.text = (base.toComponents.resolve r.toComponents).text := by
  intro h
  have hcode : resolveUri baseB.text referenceDot.text = ascii "s://h/c" := by decide
  have hsegs : ∀ s ∈ [ascii "c", ascii "."], Segment s := by unfold Segment; decide
  have hpath : removeDotSegments (ascii "/c/.") = ascii "/c/" := removeDotSegments_absolute hsegs
  have htarget : (baseB.toComponents.resolve referenceDot.toComponents).text =
      ascii "s://h" ++ removeDotSegments (ascii "/c/.") := by
    rw [Components.resolve, if_neg (by decide), if_neg (by decide), if_neg (by decide),
      Components.text]
    have hmerge : baseB.targetPath referenceDot.toComponents = ascii "/c/." := by decide
    simp only [hmerge]
    simp [Components.schemeText, Components.authorityText, Components.queryText,
      Components.fragmentText, baseB, referenceDot]
    rfl
  have heq := h baseB referenceDot
  rw [hcode, htarget, hpath] at heq
  exact absurd heq (by decide)

example : resolveUri (ascii "s://h/a/b") (ascii "./d/../c") = ascii "s://h/a/c" := by decide

end ByteDance
