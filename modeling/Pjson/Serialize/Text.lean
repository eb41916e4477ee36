/-
  Which values have a text, and how long its indentations are.

  Without a limit on indentations a value has a text exactly if its strings and keys are well-formed
  UTF-8 and no double is refused (`render_any_isSome_iff`).  The indentations grow with the depth, so a limit
  on them only matters for the longest one (`render_of_admits`), which is a part of the text
  (`longestIndent_le`).
-/
import Pjson.Serialize.RoundTrip

namespace ByteDance

open Utf8

namespace Pjson

mutual
/-- The strings and keys in a value. -/
def strings : Pjson → List Bytes
  | .jsonString s => [s]
  | .jsonArray xs => stringsElements xs
  | .jsonObject ms => stringsMembers ms
  | _ => []
def stringsElements : List Pjson → List Bytes
  | [] => []
  | x :: xs => strings x ++ stringsElements xs
def stringsMembers : List (Bytes × Pjson) → List Bytes
  | [] => []
  | (k, x) :: ms => k :: (strings x ++ stringsMembers ms)
end

mutual
/-- How many levels of containers that are not empty a value has. -/
def levels : Pjson → Nat
  | .jsonArray (x :: xs) => 1 + levelsElements (x :: xs)
  | .jsonObject (m :: ms) => 1 + levelsMembers (m :: ms)
  | _ => 0
def levelsElements : List Pjson → Nat
  | [] => 0
  | x :: xs => max (levels x) (levelsElements xs)
def levelsMembers : List (Bytes × Pjson) → Nat
  | [] => 0
  | (_, x) :: ms => max (levels x) (levelsMembers ms)
end

end Pjson

namespace Serialize

/-! ## Which values have a text -/

/-- What follows an encoded character is well formed if the whole is. -/
theorem wellFormed_encode_iff {cp : Nat} {s : Bytes} (h : IsScalar cp) :
    WellFormed (encode cp ++ s) ↔ WellFormed s := by
  refine ⟨fun hw => ?_, WellFormed.cons h⟩
  rcases hw.inv with hnil | ⟨cp', t, h', ht, heq⟩
  · exact absurd (List.append_eq_nil_iff.mp hnil).1 (encode_ne_nil cp)
  · -- the scanner reads the length of the first character off the string
    have hlen : (encode cp).length = (encode cp').length := by
      rw [← utf8Len_encode h s, ← utf8Len_encode h' t, heq]
    rw [(List.append_inj heq hlen).2]
    exact ht

theorem wellFormed_ascii_iff {b : UInt8} {s : Bytes} (h : b.toNat < 0x80) :
    WellFormed (b :: s) ↔ WellFormed s := by
  have hs : WellFormed (encode b.toNat ++ s) ↔ WellFormed s :=
    wellFormed_encode_iff (Or.inl (by omega))
  rwa [encode_one h] at hs

/-- **A string can be escaped** exactly if it is well-formed UTF-8. -/
theorem escaped_isSome_iff (bEscapeNonAscii : Bool) (s : Bytes) :
    (escaped bEscapeNonAscii s).isSome ↔ WellFormed s := by
  fun_induction escaped bEscapeNonAscii s with
  | case1 => exact iff_of_true rfl WellFormed.nil
  | case2 ch rest escape hesc ih =>
    have hascii : ∀ ch : UInt8, (shortEscape ch).isSome → ch.toNat < 0x80 := by decide +kernel
    rw [Option.isSome_cat, ih, wellFormed_ascii_iff (hascii ch (by rw [hesc]; rfl))]
    exact and_iff_right rfl
  | case3 ch rest hesc h20 ih =>
    have hlt : ch.toNat < 0x20 := UInt8.lt_iff_toNat_lt.mp h20
    rw [Option.isSome_cat, ih, wellFormed_ascii_iff (by omega)]
    exact and_iff_right rfl
  | case4 ch rest hesc h20 h80 ih =>
    rw [Option.isSome_cat, ih, wellFormed_ascii_iff (UInt8.lt_iff_toNat_lt.mp h80)]
    exact and_iff_right rfl
  | case5 ch rest hesc h20 h80 byteCount h0 =>
    refine iff_of_false Bool.false_ne_true fun hw => ?_
    rcases hw.inv with hnil | ⟨cp, t, h, -, heq⟩
    · cases hnil
    · have hlen := utf8Len_encode h t
      rw [← heq] at hlen
      have hpos := (encode_length cp).1
      have h0 : utf8Len (ch :: rest) = 0 := h0
      omega
  | case6 ch rest hesc h20 h80 byteCount next h0 hascii ih =>
    obtain ⟨cp, h, -, -, heq⟩ := exists_encode h80 h0
    rw [Option.isSome_cat, ih, heq, wellFormed_encode_iff h]
    exact and_iff_right rfl
  | case7 ch rest hesc h20 h80 byteCount next h0 hascii codePoint hbmp ih =>
    obtain ⟨cp, h, -, -, heq⟩ := exists_encode h80 h0
    rw [Option.isSome_cat, ih, heq, wellFormed_encode_iff h]
    exact and_iff_right rfl
  | case8 ch rest hesc h20 h80 byteCount next h0 hascii codePoint hbmp ih =>
    obtain ⟨cp, h, -, -, heq⟩ := exists_encode h80 h0
    rw [Option.isSome_cat, Option.isSome_cat, ih, heq, wellFormed_encode_iff h]
    exact (and_iff_right rfl).trans (and_iff_right rfl)

variable {admits : Nat → Bool} {d2s : Binary64 → Bytes} {opts : SerializeOptions}

/-- Every indentation is admitted. -/
def anyIndent : Nat → Bool := fun _ => true

/-- **The text of a value**, however long its indentations are. -/
def text (d2s : Binary64 → Bytes) (opts : SerializeOptions) (v : Pjson) : Option Bytes :=
  render anyIndent d2s opts 0 v

/-- Whether the policy lets a double through. -/
def Prints (opts : SerializeOptions) (d : Binary64) : Prop :=
  opts.nonFinite = .RejectNonFinite → d.isFinite = true

theorem renderDouble_isSome_iff {d : Binary64} :
    (renderDouble d2s opts d).isSome ↔ Prints opts d := by
  unfold renderDouble Prints
  cases d.isFinite <;> cases opts.nonFinite <;> simp

theorem newLine_any (depth : Nat) : (newLine anyIndent opts depth).isSome := by
  unfold newLine indentation anyIndent
  cases opts.pretty <;> rfl

theorem renderKey_isSome_iff {key : Bytes} :
    (renderKey opts (some key)).isSome ↔ WellFormed key := by
  rw [renderKey, Option.isSome_cat, Option.isSome_cat, escaped_isSome_iff]
  simp

/-- **A value has a text** exactly if its strings are well formed and its doubles are let through. -/
theorem render_any_isSome_iff (v : Pjson) (depth : Nat) :
    (render anyIndent d2s opts depth v).isSome ↔
      (∀ s ∈ v.strings, WellFormed s) ∧ ∀ d ∈ v.doubles, Prints opts d := by
  induction v using Pjson.induct generalizing depth with
  | jsonNull => simp [render, Pjson.strings, Pjson.doubles]
  | jsonBoolean b => simp [render, Pjson.strings, Pjson.doubles]
  | jsonNumberInt n => simp [render, Pjson.strings, Pjson.doubles]
  | jsonNumberUInt n => simp [render, Pjson.strings, Pjson.doubles]
  | jsonNumberDouble d => simp [render, Pjson.strings, Pjson.doubles, renderDouble_isSome_iff]
  | jsonString s =>
    rw [render, quoted, Option.isSome_cat, Option.isSome_cat, escaped_isSome_iff]
    simp [Pjson.strings, Pjson.doubles]
  | jsonArray xs ih =>
    have hxs : ∀ first, (renderElements anyIndent d2s opts depth first xs).isSome ↔
        (∀ s ∈ Pjson.stringsElements xs, WellFormed s) ∧
          ∀ d ∈ Pjson.doublesElements xs, Prints opts d := by
      induction xs with
      | nil => simp [renderElements, Pjson.stringsElements, Pjson.doublesElements]
      | cons x xs ih' =>
        intro first
        rw [renderElements, Option.isSome_cat, Option.isSome_cat, Option.isSome_cat,
          ih x (List.mem_cons_self ..), ih' fun y hy => ih y (List.mem_cons_of_mem _ hy)]
        simp only [comma, Option.isSome_some, newLine_any, true_and, Pjson.stringsElements,
          Pjson.doublesElements, List.mem_append, or_imp, forall_and]
        tauto
    cases xs with
    | nil => simp [render, Pjson.strings, Pjson.doubles, Pjson.stringsElements, Pjson.doublesElements]
    | cons x xs =>
      rw [render, Option.isSome_cat, Option.isSome_cat, Option.isSome_cat, hxs true]
      simp [newLine_any, Pjson.strings, Pjson.doubles]
  | jsonObject ms ih =>
    have hms : ∀ first, (renderMembers anyIndent d2s opts depth first ms).isSome ↔
        (∀ s ∈ Pjson.stringsMembers ms, WellFormed s) ∧
          ∀ d ∈ Pjson.doublesMembers ms, Prints opts d := by
      induction ms with
      | nil => simp [renderMembers, Pjson.stringsMembers, Pjson.doublesMembers]
      | cons m ms ih' =>
        intro first
        obtain ⟨k, x⟩ := m
        rw [renderMembers, Option.isSome_cat, Option.isSome_cat, Option.isSome_cat, Option.isSome_cat,
          renderKey_isSome_iff, ih _ (List.mem_cons_self ..),
          ih' fun y hy => ih y (List.mem_cons_of_mem _ hy)]
        simp only [comma, Option.isSome_some, newLine_any, true_and, Pjson.stringsMembers,
          Pjson.doublesMembers, List.mem_cons, List.mem_append, or_imp, forall_and, forall_eq]
        tauto
    cases ms with
    | nil => simp [render, Pjson.strings, Pjson.doubles, Pjson.stringsMembers, Pjson.doublesMembers]
    | cons m ms =>
      rw [render, Option.isSome_cat, Option.isSome_cat, Option.isSome_cat, hms true]
      simp [newLine_any, Pjson.strings, Pjson.doubles]

/-! ## The longest indentation -/

/-- The text in the middle of which `o` stands. -/
def Contains (o t : Option Bytes) : Prop := ∃ a b, t = Option.cat a (Option.cat o b)

theorem Contains.left {o t u : Option Bytes} (h : Contains o t) : Contains o (Option.cat t u) := by
  obtain ⟨a, b, rfl⟩ := h
  exact ⟨a, Option.cat b u, by rw [Option.cat_assoc, Option.cat_assoc]⟩

theorem Contains.right {o t u : Option Bytes} (h : Contains o t) : Contains o (Option.cat u t) := by
  obtain ⟨a, b, rfl⟩ := h
  exact ⟨Option.cat u a, b, by rw [Option.cat_assoc]⟩

theorem Contains.self (o : Option Bytes) : Contains o o := ⟨some [], some [], by simp⟩

theorem Contains.none {t : Option Bytes} (h : Contains none t) : t = none := by
  obtain ⟨a, b, rfl⟩ := h
  simp

theorem Contains.length_le {bs t : Bytes} (h : Contains (some bs) (some t)) :
    bs.length ≤ t.length := by
  obtain ⟨a, b, h⟩ := h
  obtain ⟨a, c, -, hc, rfl⟩ := Option.cat_eq_some.mp h.symm
  obtain ⟨b, d, hb, -, rfl⟩ := Option.cat_eq_some.mp hc
  cases hb
  rw [List.length_append, List.length_append]
  omega

/-- The text of a container holds the indentation of its deepest level. -/
theorem render_contains (admits : Nat → Bool) (d2s : Binary64 → Bytes) (opts : SerializeOptions)
    (v : Pjson) (depth : Nat) (h : v.levels ≠ 0) :
    Contains (newLine admits opts (depth + v.levels)) (render admits d2s opts depth v) := by
  induction v using Pjson.induct generalizing depth with
  | jsonNull => exact absurd rfl h
  | jsonBoolean b => exact absurd rfl h
  | jsonNumberInt n => exact absurd rfl h
  | jsonNumberUInt n => exact absurd rfl h
  | jsonNumberDouble d => exact absurd rfl h
  | jsonString s => exact absurd rfl h
  | jsonArray xs ih =>
    have hxs : xs ≠ [] → ∀ first, Contains (newLine admits opts (depth + 1 + Pjson.levelsElements xs))
        (renderElements admits d2s opts depth first xs) := by
      induction xs with
      | nil => exact fun h => absurd rfl h
      | cons x xs ih' =>
        intro _ first
        rw [renderElements, Pjson.levelsElements]
        -- The deepest line is in the first element, before it, or in one of the others.
        rcases le_or_gt (Pjson.levelsElements xs) x.levels with hle | hlt
        · rw [max_eq_left hle]
          rcases Nat.eq_zero_or_pos x.levels with hzero | hpos
          · rw [hzero, Nat.add_zero]
            exact (Contains.self _).left.right
          · exact (ih x (List.mem_cons_self ..) (depth + 1) hpos.ne').left.right.right
        · rw [max_eq_right hlt.le]
          have hne : xs ≠ [] := by
            rintro rfl
            exact absurd hlt (Nat.not_lt_zero _)
          have hrest := ih' (fun y hy => ih y (List.mem_cons_of_mem _ hy)) (by
            cases xs with
            | nil => exact absurd rfl hne
            | cons y ys => exact (by rw [Pjson.levels]; omega)) hne false
          exact hrest.right.right.right
    cases xs with
    | nil => exact absurd rfl h
    | cons x xs =>
      rw [render, Pjson.levels, ← Nat.add_assoc]
      exact (hxs (List.cons_ne_nil _ _) true).left.right
  | jsonObject ms ih =>
    have hms : ms ≠ [] → ∀ first, Contains (newLine admits opts (depth + 1 + Pjson.levelsMembers ms))
        (renderMembers admits d2s opts depth first ms) := by
      induction ms with
      | nil => exact fun h => absurd rfl h
      | cons m ms ih' =>
        intro _ first
        obtain ⟨k, x⟩ := m
        rw [renderMembers, Pjson.levelsMembers]
        rcases le_or_gt (Pjson.levelsMembers ms) x.levels with hle | hlt
        · rw [max_eq_left hle]
          rcases Nat.eq_zero_or_pos x.levels with hzero | hpos
          · rw [hzero, Nat.add_zero]
            exact (Contains.self _).left.right
          · exact (ih (k, x) (List.mem_cons_self ..) (depth + 1) hpos.ne').left.right.right.right
        · rw [max_eq_right hlt.le]
          have hne : ms ≠ [] := by
            rintro rfl
            exact absurd hlt (Nat.not_lt_zero _)
          have hrest := ih' (fun y hy => ih y (List.mem_cons_of_mem _ hy)) (by
            cases ms with
            | nil => exact absurd rfl hne
            | cons y ys => exact (by rw [Pjson.levels]; omega)) hne false
          exact hrest.right.right.right.right
    cases ms with
    | nil => exact absurd rfl h
    | cons m ms =>
      rw [render, Pjson.levels, ← Nat.add_assoc]
      exact (hms (List.cons_ne_nil _ _) true).left.right

/-- The text only depends on the indentations that occur in it. -/
theorem render_congr {admits' : Nat → Bool} {deepest : Nat}
    (h : ∀ k ≤ deepest, newLine admits opts k = newLine admits' opts k) (v : Pjson) (depth : Nat)
    (hv : depth + v.levels ≤ deepest) :
    render admits d2s opts depth v = render admits' d2s opts depth v := by
  induction v using Pjson.induct generalizing depth with
  | jsonNull => simp only [render]
  | jsonBoolean b => simp only [render]
  | jsonNumberInt n => simp only [render]
  | jsonNumberUInt n => simp only [render]
  | jsonNumberDouble d => simp only [render]
  | jsonString s => simp only [render]
  | jsonArray xs ih =>
    cases xs with
    | nil => simp only [render]
    | cons x xs =>
      rw [Pjson.levels] at hv
      -- Over the tails of the list, which all stand in the same array.
      have hxs : ∀ ys : List Pjson, (∀ y ∈ ys, y ∈ x :: xs) →
          depth + 1 + Pjson.levelsElements ys ≤ deepest → ∀ first,
          renderElements admits d2s opts depth first ys =
            renderElements admits' d2s opts depth first ys := by
        intro ys
        induction ys with
        | nil => intro _ _ first; simp only [renderElements]
        | cons y ys ih' =>
          intro hmem hlev first
          rw [Pjson.levelsElements] at hlev
          rw [renderElements, renderElements, h (depth + 1) (by omega),
            ih y (hmem y (List.mem_cons_self ..)) (depth + 1) (by omega),
            ih' (fun z hz => hmem z (List.mem_cons_of_mem _ hz)) (by omega)]
      rw [render, render, h depth (by omega), hxs _ (fun _ hy => hy) (by omega)]
  | jsonObject ms ih =>
    cases ms with
    | nil => simp only [render]
    | cons m ms =>
      rw [Pjson.levels] at hv
      have hms : ∀ ns : List (Bytes × Pjson), (∀ n ∈ ns, n ∈ m :: ms) →
          depth + 1 + Pjson.levelsMembers ns ≤ deepest → ∀ first,
          renderMembers admits d2s opts depth first ns =
            renderMembers admits' d2s opts depth first ns := by
        intro ns
        induction ns with
        | nil => intro _ _ first; simp only [renderMembers]
        | cons n ns ih' =>
          intro hmem hlev first
          obtain ⟨k, y⟩ := n
          rw [Pjson.levelsMembers] at hlev
          rw [renderMembers, renderMembers, h (depth + 1) (by omega),
            ih (k, y) (hmem _ (List.mem_cons_self ..)) (depth + 1)
              (show depth + 1 + y.levels ≤ deepest by omega),
            ih' (fun z hz => hmem z (List.mem_cons_of_mem _ hz)) (by omega)]
      rw [render, render, h depth (by omega), hms _ (fun _ hy => hy) (by omega)]

theorem indentation_admitted (admits : Nat → Bool) {depth : Nat}
    (h : admits (depth * opts.indentWidth) = true) :
    indentation admits depth opts = some (List.replicate (depth * opts.indentWidth)
      (if opts.indentCharacter = 0x09 then 0x09 else 0x20)) := if_pos h

theorem indentation_refused (admits : Nat → Bool) {depth : Nat}
    (h : admits (depth * opts.indentWidth) = false) :
    indentation admits depth opts = none := by
  unfold indentation
  rw [h]
  rfl

/-- The indentation of the deepest level of a value; without it there is nothing to admit. -/
def longestIndent (opts : SerializeOptions) (v : Pjson) : Nat :=
  if opts.pretty then v.levels * opts.indentWidth else 0

/-- **The longest indentation decides** whether a value with a text has one under a limit. -/
theorem render_of_admits {limit : Nat} (v : Pjson) (h : longestIndent opts v ≤ limit) :
    render (fun n => decide (n ≤ limit)) d2s opts 0 v = text d2s opts v := by
  unfold longestIndent at h
  have hline : ∀ k ≤ v.levels,
      newLine (fun n => decide (n ≤ limit)) opts k = newLine anyIndent opts k := by
    intro k hk
    unfold newLine
    cases hpretty : opts.pretty with
    | false => rfl
    | true =>
      rw [hpretty, if_pos rfl] at h
      have hle : k * opts.indentWidth ≤ limit := (Nat.mul_le_mul_right _ hk).trans h
      rw [indentation_admitted anyIndent rfl,
        indentation_admitted (fun n => decide (n ≤ limit)) (decide_eq_true hle)]
  exact render_congr hline v 0 (by omega)

theorem render_of_not_admits {limit : Nat} (v : Pjson) (h : ¬ longestIndent opts v ≤ limit) :
    render (fun n => decide (n ≤ limit)) d2s opts 0 v = none := by
  unfold longestIndent at h
  cases hpretty : opts.pretty with
  | false =>
    rw [hpretty] at h
    exact absurd (Nat.zero_le _) h
  | true =>
    rw [hpretty, if_pos rfl] at h
    have hlevels : v.levels ≠ 0 := by
      intro hzero
      rw [hzero, Nat.zero_mul] at h
      exact h (Nat.zero_le _)
    have hc := render_contains (fun n => decide (n ≤ limit)) d2s opts v 0 hlevels
    have hnone : newLine (fun n => decide (n ≤ limit)) opts (0 + v.levels) = none := by
      unfold newLine
      rw [hpretty, if_pos rfl, Nat.zero_add,
        indentation_refused (fun n => decide (n ≤ limit)) (decide_eq_false h)]
      rfl
    rw [hnone] at hc
    exact hc.none

/-- The longest indentation is a part of the text. -/
theorem longestIndent_le {v : Pjson} {t : Bytes} (h : text d2s opts v = some t) :
    longestIndent opts v ≤ t.length := by
  unfold longestIndent
  cases hpretty : opts.pretty with
  | false => exact Nat.zero_le _
  | true =>
    rw [if_pos rfl]
    rcases Nat.eq_zero_or_pos v.levels with hzero | hpos
    · rw [hzero, Nat.zero_mul]
      exact Nat.zero_le _
    · have hc := render_contains anyIndent d2s opts v 0 hpos.ne'
      rw [show render anyIndent d2s opts 0 v = some t from h] at hc
      have hsome : newLine anyIndent opts (0 + v.levels) = some (0x0A ::
          List.replicate (v.levels * opts.indentWidth)
            (if opts.indentCharacter = 0x09 then 0x09 else 0x20)) := by
        unfold newLine indentation anyIndent
        rw [hpretty, Nat.zero_add]
        rfl
      rw [hsome] at hc
      have hlen := hc.length_le
      rw [List.length_cons, List.length_replicate] at hlen
      omega

end Serialize

end ByteDance
