/-
  How far the formats are exact.

  Of dates, times and dotted quads the scanners accept the grammar, whatever the string.  Of IPv6
  addresses they would, if they could count: `units` is a signed `int` that every group of the text is
  added to, and an address of 2 ^ 31 groups, which is not one, overflows it before it is refused.

  The crux is to say of the text alone when that happens, since the loop adds before it looks at what
  comes next.  A side is counted as far as it begins with groups (`Leading`), so the count overflows
  if the side begins with too many (`overflow_sideLoop`); the right side goes on from the count of
  the left one, which must then have been read to its end.  `Overlong` says this of the whole text,
  by where its `::` stands, and `overflow_validIPv6` that it is the condition.  Hence the formats are
  exact of all strings but these (`knownFormats_exact_iff`).
-/
import Pjson.Schema.FormatExact

namespace ByteDance

open Decimal Rfc3339 IpAddress

namespace Format

variable {α β : Type} {value : Bytes}

/-! ## The groups a side begins with -/

/-- A text without a colon begins with its groups only. -/
theorem leading_token {quad : Bool} {n : Nat} {s : Bytes} (h : 0x3A ∉ s) :
    Leading quad n s ↔ Groups quad n s := by
  constructor
  · intro hs
    cases hs with
    | all hs => exact hs
    | front hp => simp at h
  · exact Leading.all

theorem leading_ne_nil {quad : Bool} {n : Nat} {s : Bytes} (h : Leading quad n s) : s ≠ [] := by
  cases h with
  | all hs => exact groups_ne_nil hs
  | front hp => simp

/-- A token and a colon are one group, and so many more as follow. -/
theorem leading_split {quad : Bool} {n : Nat} {token s : Bytes} (h : 0x3A ∉ token) :
    Leading quad n (token ++ 0x3A :: s) ↔
      token ∈ h16 ∧ (n = 1 ∨ ∃ m, n = m + 1 ∧ Leading quad m s) := by
  constructor
  · intro hs
    generalize hall : token ++ 0x3A :: s = all at hs
    cases hs with
    | all hg =>
      subst hall
      obtain ⟨htoken, m, rfl, hrest⟩ := (groups_split h).mp hg
      exact ⟨htoken, Or.inr ⟨m, rfl, .all hrest⟩⟩
    | @front p t hp =>
      cases hp with
      | last hg =>
        obtain ⟨rfl, rfl⟩ := cut_at_colon h (h16_bytes hg).2.2 hall
        exact ⟨hg, Or.inl rfl⟩
      | ipv4 hquad _ => cases hquad
      | @cons g s' m hg hs' =>
        rw [List.append_assoc, List.cons_append] at hall
        obtain ⟨rfl, rfl⟩ := cut_at_colon h (h16_bytes hg).2.2 hall
        exact ⟨hg, Or.inr ⟨m, rfl, .front hs'⟩⟩
  · rintro ⟨htoken, rfl | ⟨m, rfl, hs⟩⟩
    · exact .front (Groups.last htoken)
    · cases hs with
      | all hg => exact .all (Groups.cons htoken hg)
      | @front p t hp =>
        have hcons : Leading quad _ _ := .front (t := t) (Groups.cons htoken hp)
        rwa [List.append_assoc, List.cons_append] at hcons

/-! ## When the count overflows -/

theorem overflow_addUnits {units n : Nat} :
    addUnits units n = .error (.fault .overflow) ↔ 2 ^ 31 ≤ units + n := by
  unfold addUnits
  split_ifs with h
  · exact iff_of_false (fun heq => by cases heq) (by omega)
  · exact iff_of_true rfl (by omega)

variable {side : Bytes} {may : Bool}

/-- **The loop overflows** if the groups its side begins with are more than can be added. -/
theorem overflow_sideLoop {start units : Nat} (h : start ≤ side.length) :
    sideLoop side may start units = .error (.fault .overflow) ↔
      ∃ n, 2 ^ 31 ≤ units + n ∧ Leading may n (side.drop start) := by
  induction hn : side.length - start using Nat.strong_induction_on generalizing start units with
  | _ k ih =>
    subst hn
    rw [sideLoop, if_pos h]
    have hcheck : ∀ {c : Prop} [Decidable c], ¬ require c = .error (.fault .overflow) :=
      fun {_} _ => avoids_require
    have hcut : ∀ count, ¬ substr side start count = .error (.fault .overflow) :=
      fun _ => avoids_substr h
    have hunits : ∀ (token : Bytes) (isLast : Bool),
        ¬ tokenUnits token may isLast = .error (.fault .overflow) := fun _ _ => avoids_tokenUnits _ _ _
    split
    · -- the last token
      rename_i hnone
      have hcolon := find_byte_none_iff.mp hnone
      have htake : (side.drop start).take (side.length - start) = side.drop start :=
        List.take_of_length_le (by rw [List.length_drop])
      simp only [error_bind, hcheck, hcut, hunits, false_or, ok_require, ok_substr, htake,
        overflow_addUnits, leading_token hcolon, groups_token hcolon]
      constructor
      · rintro ⟨_, hne, _, ⟨-, rfl⟩, n, hn, hover⟩
        have hnil : side.drop start ≠ [] := by
          rw [Ne, List.drop_eq_nil_iff]
          omega
        refine ⟨n, hover, ((ok_tokenUnits hnil).mp hn).imp ?_ id⟩
        exact fun h => ⟨h.1, h.2.1, h.2.2.2⟩
      · rintro ⟨n, hover, hgroups⟩
        have hnil : side.drop start ≠ [] := by
          rcases hgroups with h | h
          · exact (ipv4Address_bytes h.1).1
          · exact (h16_bytes h.1).1
        have hne : side.length ≠ start := fun heq => hnil (List.drop_eq_nil_iff.mpr (by omega))
        refine ⟨(), hne, _, ⟨h, rfl⟩, n, (ok_tokenUnits hnil).mpr (hgroups.imp ?_ id), hover⟩
        exact fun h => ⟨h.1, h.2.1, rfl, h.2.2⟩
    · -- a token and a colon
      rename_i colon hsome
      obtain ⟨token, hcolon, hdrop, rfl⟩ := find_byte_some hsome
      have hlen := congrArg List.length hdrop
      rw [List.length_drop, List.length_append, List.length_cons, List.length_drop] at hlen
      have hle : start + token.length + 1 ≤ side.length := by
        obtain ⟨-, hb⟩ := find_bounds hsome
        rwa [List.length_singleton] at hb
      have htake : (side.drop start).take (start + token.length - start) = token := by
        rw [hdrop, Nat.add_sub_cancel_left, List.take_left]
      have hnotLast : decide (start + token.length = side.length) = false := decide_eq_false (by omega)
      simp only [error_bind, hcheck, hcut, hunits, false_or, ok_require, ok_substr, htake, hnotLast,
        overflow_addUnits, ok_addUnits]
      rw [hdrop]
      simp only [leading_split hcolon]
      constructor
      · rintro ⟨_, hne, _, ⟨-, rfl⟩, n, hn, hrest⟩
        have hnil : token ≠ [] := fun hnil => hne (by rw [hnil]; rfl)
        rcases (ok_tokenUnits hnil).mp hn with ⟨-, -, hbad, -⟩ | ⟨hhex, rfl⟩
        · cases hbad
        rcases hrest with hover | ⟨_, ⟨rfl, -⟩, hrest⟩
        · exact ⟨1, hover, hhex, Or.inl rfl⟩
        by_cases hlast : start + token.length + 1 = side.length
        · rw [if_pos hlast] at hrest
          cases hrest
        · rw [if_neg hlast] at hrest
          obtain ⟨m, hover, hleading⟩ := (ih _ (by omega) hle rfl).mp hrest
          exact ⟨m + 1, by omega, hhex, Or.inr ⟨m, rfl, hleading⟩⟩
      · rintro ⟨n, hover, hhex, hmore⟩
        have hnil := (h16_bytes hhex).1
        have hpos := List.length_pos_iff.mpr hnil
        refine ⟨(), by omega, _, ⟨h, rfl⟩, 1, (ok_tokenUnits hnil).mpr (Or.inr ⟨hhex, rfl⟩), ?_⟩
        rcases hmore with rfl | ⟨m, rfl, hleading⟩
        · exact Or.inl hover
        -- the count goes on, unless this group is the one too many
        by_cases hnow : 2 ^ 31 ≤ units + 1
        · exact Or.inl hnow
        have hlast : start + token.length + 1 ≠ side.length := fun heq =>
          leading_ne_nil hleading (List.drop_eq_nil_iff.mpr (by omega))
        refine Or.inr ⟨_, ⟨rfl, by omega⟩, ?_⟩
        rw [if_neg hlast]
        exact (ih _ (by omega) hle rfl).mpr ⟨m, by omega, hleading⟩

theorem overflow_parseIPv6Side {units : Nat} :
    parseIPv6Side side may units = .error (.fault .overflow) ↔
      ∃ n, 2 ^ 31 ≤ units + n ∧ Leading may n side := by
  unfold parseIPv6Side
  by_cases hnil : side = []
  · rw [if_pos hnil]
    refine iff_of_false (fun heq => by cases heq) ?_
    rintro ⟨n, -, hleading⟩
    exact leading_ne_nil hleading hnil
  · rw [if_neg hnil, overflow_sideLoop (Nat.zero_le _), List.drop_zero]

/-! ## Where the `::` stands -/

theorem pair_infix_iff {c : UInt8} {s : Bytes} :
    [c, c] <:+: s ↔ ∃ j : Nat, s[j]? = some c ∧ s[j + 1]? = some c := by
  constructor
  · rintro ⟨u, v, rfl⟩
    refine ⟨u.length, ?_, ?_⟩
    · simp
    · simp
  · rintro ⟨j, hj⟩
    have hprefix : [c, c] <+: s.drop j := pair_prefix_iff.mpr hj
    exact hprefix.isInfix.trans (List.drop_suffix j s).isInfix

theorem find_pair_none_iff {start : Nat} :
    find value [0x3A, 0x3A] start = none ↔ ¬ [0x3A, 0x3A] <:+: value.drop start := by
  rw [find_eq_none_iff, pair_infix_iff, not_exists]
  simp only [pair_prefix_iff, List.getElem?_drop]
  constructor
  · intro h k hk
    obtain ⟨hlt, -⟩ := List.getElem?_eq_some_iff.mp hk.1
    exact h (start + k) (Nat.le_add_right _ _) hlt.le hk
  · intro h j hs _ hj
    obtain ⟨k, rfl⟩ := Nat.exists_eq_add_of_le hs
    exact h k hj

/-- The first `::` is found where neither what stands before it nor its own first colon ends one. -/
theorem find_pair_split {l r : Bytes} :
    find (l ++ 0x3A :: 0x3A :: r) [0x3A, 0x3A] 0 = some l.length ↔ ¬ [0x3A, 0x3A] <:+: l ++ [0x3A] := by
  have hfront : ∀ j : Nat, j ≤ l.length →
      (l ++ 0x3A :: 0x3A :: r)[j]? = (l ++ [(0x3A : UInt8)])[j]? := by
    intro j hj
    rw [show l ++ 0x3A :: 0x3A :: r = (l ++ [0x3A]) ++ 0x3A :: r by simp]
    exact List.getElem?_append_left (by rw [List.length_append, List.length_singleton]; omega)
  rw [find_eq_some_iff, pair_infix_iff, not_exists]
  simp only [pair_prefix_iff]
  constructor
  · rintro ⟨-, -, -, hfirst⟩ j hj
    obtain ⟨hlt, -⟩ := List.getElem?_eq_some_iff.mp hj.2
    rw [List.length_append, List.length_singleton] at hlt
    refine hfirst j (Nat.zero_le _) (by omega) ?_
    rw [hfront j (by omega), hfront (j + 1) (by omega)]
    exact hj
  · intro h
    refine ⟨Nat.zero_le _, by simp, by simp, fun j _ hj hp => ?_⟩
    rw [hfront j hj.le, hfront (j + 1) (by omega)] at hp
    exact h j hp

/-- An address with more groups than an `int` counts: all of it, the groups before its `::`, or
    those around it. -/
inductive Overlong : Bytes → Prop
  | whole {s : Bytes} {n : Nat} : ¬ [0x3A, 0x3A] <:+: s → Leading true n s → 2 ^ 31 ≤ n → Overlong s
  | left {l r : Bytes} {n : Nat} : ¬ [0x3A, 0x3A] <:+: l ++ [0x3A] → ¬ [0x3A, 0x3A] <:+: r →
      Leading false n l → 2 ^ 31 ≤ n → Overlong (l ++ 0x3A :: 0x3A :: r)
  | both {l r : Bytes} {n m : Nat} : ¬ [0x3A, 0x3A] <:+: r → Side false n l → Leading true m r →
      2 ^ 31 ≤ n + m → Overlong (l ++ 0x3A :: 0x3A :: r)

/-- Behind no colon of a side that has been read stands another. -/
theorem not_pair_of_loneColons {l : Bytes} (h : LoneColons l) : ¬ [0x3A, 0x3A] <:+: l ++ [0x3A] := by
  rw [pair_infix_iff, not_exists]
  rintro j ⟨hfirst, hsecond⟩
  obtain ⟨hlt, -⟩ := List.getElem?_eq_some_iff.mp hsecond
  rw [List.length_append, List.length_singleton] at hlt
  rw [List.getElem?_append_left (by omega)] at hfirst
  obtain ⟨b, hb, hne⟩ := h j hfirst
  obtain ⟨hlt', -⟩ := List.getElem?_eq_some_iff.mp hb
  rw [List.getElem?_append_left hlt', hb] at hsecond
  exact hne (Option.some.inj hsecond)

/-- A string around a `::` that is found. -/
theorem exists_sides {i : Nat} (h : find value [0x3A, 0x3A] 0 = some i) :
    ∃ l r, value = l ++ 0x3A :: 0x3A :: r ∧ i = l.length := by
  obtain ⟨-, hle, hp, -⟩ := find_eq_some_iff.mp h
  obtain ⟨hfirst, hsecond⟩ := pair_prefix_iff.mp hp
  refine ⟨value.take i, value.drop (i + 2), ?_, ?_⟩
  · rw [← drop_eq_cons_iff.mp hsecond, ← drop_eq_cons_iff.mp hfirst, List.take_append_drop]
  · rw [List.length_take]
    omega

/-- What `validIPv6` does with the only `::`. -/
theorem validIPv6_sides {l r : Bytes} (hfirst : ¬ [0x3A, 0x3A] <:+: l ++ [0x3A])
    (hsecond : ¬ [0x3A, 0x3A] <:+: r) : validIPv6 (l ++ 0x3A :: 0x3A :: r) = (do
      let units ← parseIPv6Side l false 0
      let units ← parseIPv6Side r true units
      require (units < 8)) := by
  have hdrop : (l ++ 0x3A :: 0x3A :: r).drop (l.length + 2) = r := by
    rw [← List.drop_drop, List.drop_left]
    rfl
  have hlen : (l ++ 0x3A :: 0x3A :: r).length = l.length + 2 + r.length := by
    rw [List.length_append, List.length_cons, List.length_cons]
    omega
  have hnone : find (l ++ 0x3A :: 0x3A :: r) [0x3A, 0x3A] (l.length + 2) = none := by
    rw [find_pair_none_iff, hdrop]
    exact hsecond
  have hleft : substr (l ++ 0x3A :: 0x3A :: r) 0 l.length = .ok l := by
    rw [ok_substr, List.drop_zero, List.take_left]
    exact ⟨Nat.zero_le _, rfl⟩
  have hright : substr (l ++ 0x3A :: 0x3A :: r) (l.length + 2) (l ++ 0x3A :: 0x3A :: r).length = .ok r := by
    rw [ok_substr, hdrop]
    exact ⟨by omega, List.take_of_length_le (by omega)⟩
  unfold validIPv6
  rw [find_pair_split.mpr hfirst]
  dsimp only
  rw [hnone, hleft, hright, require, require, if_pos (by simp), if_pos rfl]
  rfl

/-- What `validIPv6` does behind a `::`. -/
theorem overflow_sides {l r : Bytes} :
    (do
      let units ← parseIPv6Side l false 0
      let units ← parseIPv6Side r true units
      require (units < 8)) = .error (.fault .overflow) ↔
    (∃ n, 2 ^ 31 ≤ n ∧ Leading false n l) ∨
      ∃ n m, Side false n l ∧ n < 2 ^ 31 ∧ 2 ^ 31 ≤ n + m ∧ Leading true m r := by
  have hcheck : ∀ {c : Prop} [Decidable c], ¬ require c = .error (.fault .overflow) :=
    fun {_} _ => avoids_require
  simp only [error_bind, hcheck, overflow_parseIPv6Side, ok_parseIPv6Side (Nat.two_pow_pos 31), Nat.zero_add,
    and_false, exists_false, or_false]
  refine or_congr_right ?_
  constructor
  · rintro ⟨n, ⟨_, rfl, hsmall, hside⟩, m, hover, hleading⟩
    exact ⟨n, m, hside, hsmall, hover, hleading⟩
  · rintro ⟨n, m, hside, hsmall, hover, hleading⟩
    exact ⟨n, ⟨n, rfl, hsmall, hside⟩, m, hover, hleading⟩

/-- **The count overflows** on the addresses with too many groups and on no other string. -/
theorem overflow_validIPv6 : validIPv6 value = .error (.fault .overflow) ↔ Overlong value := by
  have hcheck : ∀ {c : Prop} [Decidable c], ¬ require c = .error (.fault .overflow) :=
    fun {_} _ => avoids_require
  have hsides : ∀ {l r : Bytes}, ¬ [0x3A, 0x3A] <:+: l ++ [0x3A] → ¬ [0x3A, 0x3A] <:+: r →
      (validIPv6 (l ++ 0x3A :: 0x3A :: r) = .error (.fault .overflow) ↔
        (∃ n, 2 ^ 31 ≤ n ∧ Leading false n l) ∨
          ∃ n m, Side false n l ∧ n < 2 ^ 31 ∧ 2 ^ 31 ≤ n + m ∧ Leading true m r) := by
    intro l r hfirst hsecond
    rw [validIPv6_sides hfirst hsecond, overflow_sides]
  constructor
  · intro hrun
    have h := hrun
    unfold validIPv6 at h
    simp only [error_bind, hcheck, ok_require, false_or] at h
    obtain ⟨_, -, h⟩ := h
    split at h
    · rename_i hnone
      rw [find_pair_none_iff, List.drop_zero] at hnone
      rw [error_bind, overflow_parseIPv6Side] at h
      rcases h with ⟨n, hover, hleading⟩ | ⟨_, -, hno⟩
      · exact .whole hnone hleading (by omega)
      · exact absurd hno hcheck
    · rename_i compression hsome
      obtain ⟨l, r, rfl, rfl⟩ := exists_sides hsome
      have hfirst := find_pair_split.mp hsome
      -- a second `::` would have refused the string
      have hsecond : ¬ [0x3A, 0x3A] <:+: r := by
        simp only [error_bind, hcheck, ok_require, false_or] at h
        obtain ⟨_, hsingle, -⟩ := h
        rw [find_pair_none_iff, ← List.drop_drop, List.drop_left] at hsingle
        exact hsingle
      rcases (hsides hfirst hsecond).mp hrun with ⟨n, hover, hleading⟩ | ⟨n, m, hside, -, hover, hleading⟩
      · exact .left hfirst hsecond hleading hover
      · exact .both hsecond hside hleading hover
  · intro h
    cases h with
    | whole hnone hleading hover =>
      unfold validIPv6
      refine error_bind.mpr (Or.inr ⟨(), ok_require.mpr (leading_ne_nil hleading), ?_⟩)
      rw [find_pair_none_iff.mpr (by rwa [List.drop_zero])]
      exact error_bind.mpr (Or.inl (overflow_parseIPv6Side.mpr ⟨_, by omega, hleading⟩))
    | left hfirst hsecond hleading hover =>
      exact (hsides hfirst hsecond).mpr (Or.inl ⟨_, hover, hleading⟩)
    | @both l r n m hsecond hside hleading hover =>
      rw [hsides (not_pair_of_loneColons (side_colon hside)) hsecond]
      by_cases hsmall : n < 2 ^ 31
      · exact Or.inr ⟨n, m, hside, hsmall, hover, hleading⟩
      · rcases hside with ⟨-, rfl⟩ | hgroups
        · exact absurd (Nat.two_pow_pos 31) hsmall
        · exact Or.inl ⟨n, by omega, .all hgroups⟩

/-! ## The formats -/

/-- The format is known and accepts the string exactly if the property holds of it. -/
def Judges (engine : EcmaRegex.Engine) (format value : Bytes) (P : Prop) : Prop :=
  ∃ accepted, knownFormatValid engine format value = .ok (some accepted) ∧ (accepted = true ↔ P)

theorem returned_of {x : FormatM Unit} {P : Prop} (hok : x = .ok () ↔ P)
    (hfault : ∀ bad, Avoids bad x) :
    ∃ accepted, some <$> returned x = .ok (some accepted) ∧ (accepted = true ↔ P) := by
  cases x with
  | ok u => exact ⟨true, rfl, fun _ => hok.mp rfl, fun _ => rfl⟩
  | error e =>
    cases e with
    | reject => exact ⟨false, rfl, fun h => (by cases h), fun h => (by cases hok.mpr h)⟩
    | fault bad => exact absurd rfl (hfault bad)

theorem avoids_returned {bad : FormatFault} {x : FormatM Unit} (h : Avoids bad x) :
    Avoids bad (some <$> returned x) := by
  cases x with
  | ok u => exact avoids_ok _
  | error e =>
    cases e with
    | reject => exact avoids_ok _
    | fault fault =>
      intro hfault
      have heq : fault = bad := FormatExit.fault.inj (Except.error.inj hfault)
      exact h (by rw [heq])

end Format

open Format

/-- What the formats should do with a string: `ipv6` and `ipv4` accept the addresses of RFC 3986,
    `time`, `date` and `date-time` the full-time, the full-date and the date-time of RFC 3339, and no
    format whatever accesses the string outside its bounds. -/
structure FormatsExact (engine : EcmaRegex.Engine) (value : Bytes) : Prop where
  ipv6 : Judges engine (ascii "ipv6") value (value ∈ ipv6Address)
  ipv4 : Judges engine (ascii "ipv4") value (value ∈ ipv4Address)
  time : Judges engine (ascii "time") value (FullTime value)
  date : Judges engine (ascii "date") value (FullDate value)
  dateTime : Judges engine (ascii "date-time") value (DateTime value)
  inBounds : ∀ format, knownFormatValid engine format value ≠ .error (.fault .outOfBounds)

/-- The format that may count too far. -/
theorem not_judges_ipv6 (engine : EcmaRegex.Engine) {value : Bytes} {P : Prop} (h : Overlong value) :
    ¬ Judges engine (ascii "ipv6") value P := by
  rintro ⟨accepted, hrun, -⟩
  have hformat : knownFormatValid engine (ascii "ipv6") value = some <$> returned (validIPv6 value) := rfl
  rw [hformat, overflow_validIPv6.mpr h] at hrun
  cases hrun

/-- **The network and time formats are exact** of all strings but those with more groups than an `int`
    counts. -/
theorem knownFormats_exact_iff (engine : EcmaRegex.Engine) (value : Bytes) :
    FormatsExact engine value ↔ ¬ Overlong value := by
  constructor
  · exact fun h hover => not_judges_ipv6 engine hover h.ipv6
  · intro hover
    have hfault : ∀ bad, Avoids bad (validIPv6 value) := by
      intro bad
      cases bad with
      | outOfBounds => exact avoids_validIPv6
      | overflow => exact fun h => hover (overflow_validIPv6.mp h)
    refine ⟨?_, ?_, ?_, ?_, ?_, fun format => ?_⟩
    · exact returned_of ok_validIPv6 hfault
    · exact returned_of ok_validIPv4 fun _ => avoids_validIPv4
    · exact returned_of ok_validTime fun _ => avoids_validTime
    · exact returned_of ok_validDate fun _ => avoids_validDate
    · exact returned_of ok_validDateTime fun _ => avoids_validDateTime
    · have hin : Avoids .outOfBounds (knownFormatValid engine format value) := by
        unfold knownFormatValid
        refine avoids_ite (fun _ => avoids_returned avoids_validDate) fun _ => ?_
        refine avoids_ite (fun _ => avoids_returned avoids_validTime) fun _ => ?_
        refine avoids_ite (fun _ => avoids_returned avoids_validDateTime) fun _ => ?_
        refine avoids_ite (fun _ => avoids_returned avoids_validIPv4) fun _ => ?_
        refine avoids_ite (fun _ => avoids_returned avoids_validIPv6) fun _ => ?_
        refine avoids_ite (fun _ => avoids_returned avoids_validUuid) fun _ => ?_
        exact avoids_ite (fun _ => avoids_ok _) fun _ => avoids_ok _
      exact hin

/-- So many groups `1` and one more, with colons between them. -/
def Format.ones : Nat → Bytes
  | 0 => [0x31]
  | n + 1 => 0x31 :: 0x3A :: ones n

theorem Format.groups_ones (n : Nat) : Groups false (n + 1) (ones n) := by
  have hone : [(0x31 : UInt8)] ∈ h16 := ⟨by simp, by simp, by simp [IsHexDigit]⟩
  induction n with
  | zero => exact .last hone
  | succ n ih => exact Groups.cons hone ih

theorem Format.overlong_ones {n : Nat} (h : 2 ^ 31 ≤ n + 1) : Overlong (ones n ++ [0x3A, 0x3A]) := by
  have hgroups := groups_ones n
  refine .left (r := []) ?_ (by simp) (.all hgroups) h
  exact not_pair_of_loneColons (groups_colon hgroups).2

/-- 2 ^ 31 groups and a `::` behind them are no address, but the count of the groups overflows before
    they are refused. -/
theorem not_formatsExact_ones : ¬ FormatsExact ⟨fun _ => true, fun _ _ => .NoMatch⟩
    (Format.ones (2 ^ 31 - 1) ++ [0x3A, 0x3A]) := by
  intro h
  have hcount : 2 ^ 31 ≤ 2 ^ 31 - 1 + 1 := by norm_num
  exact not_judges_ipv6 _ (overlong_ones hcount) h.ipv6

end ByteDance
