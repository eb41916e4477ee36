/-
  A byte string is a JSON text in at most one way.

  The tokens are compared by running the scanners: each of them is complete for its token and, being
  a program, has one result.  Above the tokens the first byte of a value decides the production, and
  the loop of a container is unambiguous if its items are (`tail_unique_start`, `tail_unique_next`),
  which closes the induction over the tree.
-/
import Pjson.Parser.DomLanguage

namespace ByteDance

open Run Decimal

/-! ## Tokens -/

/-- White space ends where the first byte does that is none. -/
theorem ws_unique {w w' a b : Bytes} (hw : Ws w) (hw' : Ws w')
    (ha : ∀ c, a.head? = some c → isWhitespace c = false)
    (hb : ∀ c, b.head? = some c → isWhitespace c = false) (h : w ++ a = w' ++ b) :
    w = w' ∧ a = b := by
  have hlen : w.length = w'.length := by
    rw [← Dom.whitespace_append hw ha, ← Dom.whitespace_append hw' hb, h]
  exact List.append_inj h hlen

/-- A context to run a scanner in. -/
def scratch (s : Bytes) : ParseCtx := Dom.initial {} s

/-- A string ends at its quote, and a text spells one string. -/
theorem stringBody_unique {t s t' s' out out' : Bytes} (h : StringBody t s) (h' : StringBody t' s')
    (heq : t ++ 0x22 :: out = t' ++ 0x22 :: out') : s = s' ∧ t = t' ∧ out = out' := by
  have hr : (scratch (t ++ 0x22 :: out)).rest = t ++ 0x22 :: out := rfl
  have hr' : (scratch (t ++ 0x22 :: out)).rest = t' ++ 0x22 :: out' := heq
  obtain ⟨c, hc, hm⟩ := Dom.decodeStringBody_complete ((t ++ 0x22 :: out).length + 1) [] h hr
    (by rw [List.length_append]; omega)
  obtain ⟨c', hc', hm'⟩ := Dom.decodeStringBody_complete ((t ++ 0x22 :: out).length + 1) [] h' hr'
    (by rw [heq, List.length_append]; omega)
  obtain ⟨hs, rfl⟩ := hc.unique hc'
  have ho : c.rest = out := hm.rest_eq (by rw [hr]; simp)
  have ho' : c.rest = out' := hm'.rest_eq (by rw [hr']; simp)
  have hout : out = out' := ho.symm.trans ho'
  subst hout
  exact ⟨by simpa using hs, List.append_cancel_right heq, rfl⟩

namespace NumberToken

/-- A fraction ends where the exponent begins. -/
theorem fracText_inj {f f' : Option Bytes} {e e' : Option Exponent}
    (hf : ∀ ds, f = some ds → AllDigits ds ∧ ds ≠ [])
    (hf' : ∀ ds, f' = some ds → AllDigits ds ∧ ds ≠ [])
    (h : fracText f ++ expText e = fracText f' ++ expText e') :
    f = f' ∧ expText e = expText e' := by
  have hexp : ∀ (e : Option Exponent) b, (expText e).head? = some b → ¬ IsDigit b ∧ b ≠ 0x2E := by
    intro e b hb
    cases e with
    | none => cases hb
    | some e =>
      cases hb
      rcases e.mark_shape with hm | hm <;> rw [hm] <;> decide
  cases f with
  | none =>
    cases f' with
    | none => exact ⟨rfl, h⟩
    | some ds' => exact absurd rfl (hexp e 0x2E (by rw [show expText e = _ from h]; rfl)).2
  | some ds =>
    cases f' with
    | none => exact absurd rfl (hexp e' 0x2E (by rw [← show _ = expText e' from h]; rfl)).2
    | some ds' =>
      have h := (List.cons.inj h).2
      have h₁ := takeWhile_digits (hf ds rfl).1 fun b hb => (hexp e b hb).1
      have h₂ := takeWhile_digits (hf' ds' rfl).1 fun b hb => (hexp e' b hb).1
      rw [show ds.append (expText e) = ds ++ expText e from rfl,
        show ds'.append (expText e') = ds' ++ expText e' from rfl] at h
      rw [h] at h₁
      exact ⟨congrArg some (h₁.1.symm.trans h₂.1), h₁.2.symm.trans h₂.2⟩

/-- An exponent is spelled in one way. -/
theorem expText_inj {e e' : Option Exponent} (h : expText e = expText e') : e = e' := by
  cases e with
  | none =>
    cases e' with
    | none => rfl
    | some e' => cases h
  | some e =>
    cases e' with
    | none => cases h
    | some e' =>
      obtain ⟨m, sg, ds, hm, hsg, hds⟩ := e
      obtain ⟨m', sg', ds', hm', hsg', hds'⟩ := e'
      obtain ⟨rfl, h⟩ := List.cons.inj h
      -- a leading digit is no sign, so the two parts separate in only one way
      have hsplit : sg = sg' ∧ ds = ds' := by
        obtain ⟨d, r, rfl⟩ := List.exists_cons_of_ne_nil hds.2
        obtain ⟨d', r', rfl⟩ := List.exists_cons_of_ne_nil hds'.2
        have hd := (allDigits_cons.mp hds.1).1
        have hd' := (allDigits_cons.mp hds'.1).1
        have hsign : ∀ {b c : UInt8}, (b = 0x2B ∨ b = 0x2D) → IsDigit c → b ≠ c := by
          rintro b c (rfl | rfl) hc rfl <;> revert hc <;> decide
        cases sg with
        | none =>
          cases sg' with
          | none => exact ⟨rfl, h⟩
          | some b => exact absurd (List.cons.inj h).1.symm (hsign (hsg' b rfl) hd)
        | some b =>
          cases sg' with
          | none => exact absurd (List.cons.inj h).1 (hsign (hsg b rfl) hd')
          | some b' =>
            obtain ⟨rfl, h⟩ := List.cons.inj h
            exact ⟨rfl, h⟩
      obtain ⟨rfl, rfl⟩ := hsplit
      rfl

/-- A token is determined by its text. -/
theorem text_inj {t t' : NumberToken} (h : t.text = t'.text) : t = t' := by
  have hneg : t.negative = t'.negative := by
    rw [Bool.eq_iff_iff, ← head_text, ← head_text, h]
  have hun : t.unsignedText = t'.unsignedText := by
    rw [← unsigned_text, ← unsigned_text, h]
  have hint : t.int = t'.int := by
    rw [← t.span_unsignedText.1, ← t'.span_unsignedText.1, hun]
  have hrest : fracText t.frac ++ expText t.exp = fracText t'.frac ++ expText t'.exp := by
    rw [← t.span_unsignedText.2, ← t'.span_unsignedText.2, hun]
  obtain ⟨hfrac, hexp⟩ := fracText_inj t.frac_shape t'.frac_shape hrest
  have hexp := expText_inj hexp
  obtain ⟨n, i, f, e, _, _, _⟩ := t
  obtain ⟨n', i', f', e', _, _, _⟩ := t'
  cases hneg
  cases hint
  cases hfrac
  cases hexp
  rfl

end NumberToken

/-- A number ends where no more of it can follow. -/
theorem number_unique {t t' : NumberToken} {out out' : Bytes} (ho : EndsNumber out)
    (ho' : EndsNumber out') (h : t.text ++ out = t'.text ++ out') : t = t' ∧ out = out' := by
  have hat : Dom.spanView.At ⟨0, t.text ++ out⟩ (t.text ++ out) (t.text.length + 0) :=
    ⟨trivial, rfl, trivial⟩
  have hat' : Dom.spanView.At ⟨0, t.text ++ out⟩ (t'.text ++ out') (t'.text.length + 0) :=
    ⟨trivial, h, trivial⟩
  obtain ⟨s, hs, -, -⟩ := CursorView.scanJsonNumber_complete ((t.text ++ out).length + 1) hat
    (by rw [List.length_append]; omega) ho
  obtain ⟨s', hs', -, -⟩ := CursorView.scanJsonNumber_complete ((t.text ++ out).length + 1) hat'
    (by rw [h, List.length_append]; omega) ho'
  have htext := congrArg Prod.fst (hs.unique hs').1
  have ht := NumberToken.text_inj htext
  subst ht
  exact ⟨rfl, List.append_cancel_left h⟩

/-! ## Containers -/

/-- The items of a container begin, after white space, with a byte that does not close it. -/
def Opens {α : Type} (close : UInt8) (Items : List α → Bytes → Prop) : Prop :=
  ∀ xs t, Items xs t → ∃ w b r, t = w ++ b :: r ∧ Ws w ∧ isWhitespace b = false ∧ b ≠ close

/-- No other list of items has the same spelling up to the closing byte. -/
def ItemsUnique {α : Type} (close : UInt8) (Items : List α → Bytes → Prop) (xs : List α) : Prop :=
  ∀ xs' t t' out out', Items xs t → Items xs' t' → t ++ close :: out = t' ++ close :: out' →
    xs = xs' ∧ t = t'

section Containers

variable {α : Type} {close : UInt8} {Items : List α → Bytes → Prop}

/-- White space up to the closing byte is no beginning of items. -/
theorem not_items_of_ws (hopens : Opens close Items) (hclose : isWhitespace close = false)
    {xs : List α} {t w out out' : Bytes} (hw : Ws w) (h : Items xs t) :
    w ++ close :: out ≠ t ++ close :: out' := by
  intro heq
  obtain ⟨w', b, r, rfl, hw', hb, hne⟩ := hopens xs t h
  rw [List.append_assoc] at heq
  have := (ws_unique hw hw' (head_not_ws hclose) (head_not_ws hb) heq).2
  exact hne (List.cons.inj this).1.symm

/-- The loop from its start is unambiguous if the items are. -/
theorem tail_unique_start (hopens : Opens close Items) (hclose : isWhitespace close = false)
    {xs xs' : List α} {t t' out out' : Bytes} (hitems : ItemsUnique close Items xs)
    (h : Tail Items false false xs t) (h' : Tail Items false false xs' t')
    (heq : t ++ close :: out = t' ++ close :: out') : xs = xs' ∧ t = t' := by
  rcases h with ⟨rfl, hw⟩ | h
  · rcases h' with ⟨rfl, hw'⟩ | h'
    · exact ⟨rfl, (ws_unique hw hw' (head_not_ws hclose) (head_not_ws hclose) heq).1⟩
    · exact absurd heq (not_items_of_ws hopens hclose hw h')
  · rcases h' with ⟨rfl, hw'⟩ | h'
    · exact absurd heq.symm (not_items_of_ws hopens hclose hw' h)
    · exact hitems xs' t t' out out' h h' heq

/-- The loop behind an item is unambiguous if the items left are. -/
theorem tail_unique_next (hclose : isWhitespace close = false) (hcomma : close ≠ 0x2C)
    {xs xs' : List α} {t t' out out' : Bytes} (hitems : ItemsUnique close Items xs)
    (h : Tail Items false true xs t) (h' : Tail Items false true xs' t')
    (heq : t ++ close :: out = t' ++ close :: out') : xs = xs' ∧ t = t' := by
  have hc : isWhitespace 0x2C = false := by decide
  rcases h with ⟨rfl, hw⟩ | ⟨w, r, hw, rfl, h⟩
  · rcases h' with ⟨rfl, hw'⟩ | ⟨w', r', hw', rfl, h'⟩
    · exact ⟨rfl, (ws_unique hw hw' (head_not_ws hclose) (head_not_ws hclose) heq).1⟩
    · rw [List.append_assoc] at heq
      have := (ws_unique hw hw' (head_not_ws hclose) (head_not_ws hc) heq).2
      exact absurd (List.cons.inj this).1 hcomma
  · rcases h' with ⟨rfl, hw'⟩ | ⟨w', r', hw', rfl, h'⟩
    · rw [List.append_assoc] at heq
      have := (ws_unique hw hw' (head_not_ws hc) (head_not_ws hclose) heq).2
      exact absurd (List.cons.inj this).1.symm hcomma
    · rw [List.append_assoc, List.append_assoc] at heq
      obtain ⟨hweq, hrest⟩ := ws_unique hw hw' (head_not_ws hc) (head_not_ws hc) heq
      obtain ⟨hxs, hr⟩ := hitems xs' r r' out out' h h' (List.cons.inj hrest).2
      exact ⟨hxs, by rw [hweq, hr]⟩

end Containers

/-- Elements do not begin with the bracket. -/
theorem elements_opens : Opens 0x5D Elements := by
  intro xs t h
  obtain ⟨x, ys, w, s, r, -, rfl, hw, hx, -⟩ := h.split
  obtain ⟨b, q, rfl, hb⟩ := hx.start
  exact ⟨w, b, q ++ r, rfl, hw, (valueStart_ne hb).1, (valueStart_ne hb).2.2.1⟩

/-- Nor members with the brace. -/
theorem members_opens : Opens 0x7D Members := by
  intro ms t h
  obtain ⟨k, kt, x, ns, w, w₁, w₂, s, r, -, rfl, hw, -⟩ := h.split
  exact ⟨w, 0x22, _, rfl, hw, by decide, by decide⟩

/-- A value parsed in front of something that ends it is determined by the bytes. -/
def ValueUnique (x : Json) : Prop :=
  ∀ x' t t' out out', Value x t → Value x' t' → EndsNumber out → EndsNumber out' →
    t ++ out = t' ++ out' → x = x' ∧ t = t'

/-- What follows an item cannot extend a number. -/
theorem tail_endsNumber {α : Type} {Items : List α → Bytes → Prop} {xs : List α} {r out : Bytes}
    {close : UInt8} (hclose : ¬ IsDigit close ∧ close ≠ 0x2E ∧ close ≠ 0x65 ∧ close ≠ 0x45)
    (h : Tail Items false true xs r) : EndsNumber (r ++ close :: out) := by
  rcases h with ⟨-, hw⟩ | ⟨w, r', hw, rfl, -⟩
  · exact endsNumber_ws hw hclose
  · rw [List.append_assoc]
    exact endsNumber_ws hw (by decide)

/-- If each element is read in one way, so are all; induction on them. -/
theorem elements_unique {xs : List Json} (hxs : ∀ x ∈ xs, ValueUnique x) :
    ItemsUnique 0x5D Elements xs := by
  induction xs with
  | nil =>
    intro xs' t t' out out' h
    cases h
  | cons x ys ih =>
    intro xs' t t' out out' h h' heq
    obtain ⟨x₀, ys₀, w, s, r, hcons, rfl, hw, hx, htail⟩ := h.split
    cases hcons
    obtain ⟨x', ys', w', s', r', rfl, rfl, hw', hx', htail'⟩ := h'.split
    obtain ⟨b, q, hs, hb⟩ := hx.start
    obtain ⟨b', q', hs', hb'⟩ := hx'.start
    simp only [List.append_assoc] at heq
    obtain ⟨hweq, h₁⟩ := ws_unique hw hw'
      (by rw [hs, List.cons_append]; exact head_not_ws (valueStart_ne hb).1)
      (by rw [hs', List.cons_append]; exact head_not_ws (valueStart_ne hb').1) heq
    obtain ⟨hxeq, hseq⟩ := hxs x (List.mem_cons_self ..) x' s s' _ _ hx hx'
      (tail_endsNumber (by decide) htail) (tail_endsNumber (by decide) htail') h₁
    rw [hseq] at h₁
    obtain ⟨hyeq, hreq⟩ := tail_unique_next (by decide) (by decide)
      (ih fun y hy => hxs y (List.mem_cons_of_mem _ hy)) htail htail'
      (List.append_cancel_left h₁)
    exact ⟨by rw [hxeq, hyeq], by rw [hweq, hseq, hreq]⟩

/-- And so are members. -/
theorem members_unique {ms : List (Bytes × Json)} (hms : ∀ m ∈ ms, ValueUnique m.2) :
    ItemsUnique 0x7D Members ms := by
  induction ms with
  | nil =>
    intro ms' t t' out out' h
    cases h
  | cons m ns ih =>
    intro ms' t t' out out' h h' heq
    obtain ⟨k, kt, x, ns₀, w, w₁, w₂, s, r, hcons, rfl, hw, hk, hw₁, hw₂, hx, htail⟩ := h.split
    cases hcons
    obtain ⟨k', kt', x', ns', w', w₁', w₂', s', r', rfl, rfl, hw', hk', hw₁', hw₂', hx', htail'⟩ :=
      h'.split
    obtain ⟨b, q, hs, hb⟩ := hx.start
    obtain ⟨b', q', hs', hb'⟩ := hx'.start
    simp only [List.append_assoc, List.cons_append] at heq
    -- name, colon and value one after the other
    obtain ⟨hweq, h₁⟩ := ws_unique hw hw' (head_not_ws (by decide)) (head_not_ws (by decide)) heq
    obtain ⟨hkeq, hkteq, h₂⟩ := stringBody_unique hk hk' (List.cons.inj h₁).2
    obtain ⟨hw₁eq, h₃⟩ := ws_unique hw₁ hw₁' (head_not_ws (by decide)) (head_not_ws (by decide)) h₂
    obtain ⟨hw₂eq, h₄⟩ := ws_unique hw₂ hw₂'
      (by rw [hs, List.cons_append]; exact head_not_ws (valueStart_ne hb).1)
      (by rw [hs', List.cons_append]; exact head_not_ws (valueStart_ne hb').1)
      (List.cons.inj h₃).2
    obtain ⟨hxeq, hseq⟩ := hms (k, x) (List.mem_cons_self ..) x' s s' _ _ hx hx'
      (tail_endsNumber (by decide) htail) (tail_endsNumber (by decide) htail') h₄
    rw [hseq] at h₄
    obtain ⟨hneq, hreq⟩ := tail_unique_next (by decide) (by decide)
      (ih fun n hn => hms n (List.mem_cons_of_mem _ hn)) htail htail'
      (List.append_cancel_left h₄)
    exact ⟨by rw [hkeq, show x = x' from hxeq, hneq],
      by rw [hweq, hkteq, hw₁eq, hw₂eq, hseq, hreq]⟩

/-! ## Values and texts -/

/-- How the first byte of a value sorts the productions. -/
inductive ValueKind where
  | null | true | false | string | number | array | object
  deriving DecidableEq

/-- The production a first byte announces. -/
def kindOf (b : UInt8) : ValueKind :=
  if b = 0x6E then .null else if b = 0x74 then .true else if b = 0x66 then .false
  else if b = 0x22 then .string else if b = 0x5B then .array else if b = 0x7B then .object
  else .number

/-- The production a tree is of. -/
def Json.kind : Json → ValueKind
  | .null => .null
  | .bool b => if b then .true else .false
  | .number _ => .number
  | .string _ => .string
  | .array _ => .array
  | .object _ => .object

/-- The first byte of a value tells its kind. -/
theorem Value.kind_eq {x : Json} {t : Bytes} {b : UInt8} (h : Value x t) (out : Bytes)
    (hb : (t ++ out).head? = some b) : x.kind = kindOf b := by
  cases h with
  | number t =>
    obtain ⟨b', r, hr, hd⟩ := t.text_start
    rw [hr] at hb
    cases hb
    rcases hd with rfl | hd
    · rfl
    · rw [kindOf, if_neg (hd.ne (by decide)), if_neg (hd.ne (by decide)), if_neg (hd.ne (by decide)),
        if_neg (hd.ne (by decide)), if_neg (hd.ne (by decide)), if_neg (hd.ne (by decide))]
      rfl
  | null => cases hb; rfl
  | true => cases hb; rfl
  | false => cases hb; rfl
  | string _ => cases hb; rfl
  | emptyArray _ => cases hb; rfl
  | array _ => cases hb; rfl
  | emptyObject _ => cases hb; rfl
  | object _ => cases hb; rfl

/-- An array of such elements. -/
theorem value_unique_array {xs : List Json} (hxs : ∀ x ∈ xs, ValueUnique x) :
    ValueUnique (.array xs) := by
  intro x' t t' out out' h h' _ _ heq
  obtain ⟨s, rfl, htail⟩ := value_array_iff.mp h
  have hkind : x'.kind = .array := h'.kind_eq out' (b := 0x5B) (by rw [← heq]; rfl)
  cases x' with
  | array xs' =>
    obtain ⟨s', rfl, htail'⟩ := value_array_iff.mp h'
    simp only [List.cons_append, List.append_assoc, List.nil_append] at heq
    obtain ⟨hxs', hs⟩ := tail_unique_start elements_opens (by decide) (elements_unique hxs)
      htail htail' (List.cons.inj heq).2
    exact ⟨by rw [hxs'], by rw [hs]⟩
  | bool b => cases b <;> cases hkind
  | _ => cases hkind

/-- An object of such members. -/
theorem value_unique_object {ms : List (Bytes × Json)} (hms : ∀ m ∈ ms, ValueUnique m.2) :
    ValueUnique (.object ms) := by
  intro x' t t' out out' h h' _ _ heq
  obtain ⟨s, rfl, htail⟩ := value_object_iff.mp h
  have hkind : x'.kind = .object := h'.kind_eq out' (b := 0x7B) (by rw [← heq]; rfl)
  cases x' with
  | object ms' =>
    obtain ⟨s', rfl, htail'⟩ := value_object_iff.mp h'
    simp only [List.cons_append, List.append_assoc, List.nil_append] at heq
    obtain ⟨hms', hs⟩ := tail_unique_start members_opens (by decide) (members_unique hms)
      htail htail' (List.cons.inj heq).2
    exact ⟨by rw [hms'], by rw [hs]⟩
  | bool b => cases b <;> cases hkind
  | _ => cases hkind

/-- A string. -/
theorem value_unique_string {s : Bytes} : ValueUnique (.string s) := by
  intro x' t t' out out' h h' _ _ heq
  cases h with
  | string hs =>
    have hkind : x'.kind = .string := h'.kind_eq out' (b := 0x22) (by rw [← heq]; rfl)
    cases h' with
    | string hs' =>
      simp only [List.cons_append, List.append_assoc, List.nil_append] at heq
      obtain ⟨h₁, h₂, -⟩ := stringBody_unique hs hs' (List.cons.inj heq).2
      exact ⟨by rw [h₁], by rw [h₂]⟩
    | _ => cases hkind

/-- A number. -/
theorem value_unique_number {t : NumberToken} : ValueUnique (.number t) := by
  intro x' s s' out out' hx h' hout hout' heq
  have h := hx
  cases hx with
  | number =>
    obtain ⟨b, r, ht, hb⟩ := t.text_start
    have hkind : x'.kind = .number := by
      rw [h'.kind_eq out' (b := b) (by rw [← heq, ht]; rfl)]
      exact (h.kind_eq out (b := b) (by rw [ht]; rfl)).symm
    cases h' with
    | number t' =>
      obtain ⟨h₁, -⟩ := number_unique hout hout' heq
      exact ⟨by rw [h₁], by rw [h₁]⟩
    | _ => cases hkind

/-- `null`. -/
theorem value_unique_null : ValueUnique .null := by
  intro x' t t' out out' h h' _ _ heq
  cases h with
  | null =>
    have hkind : x'.kind = .null := h'.kind_eq out' (b := 0x6E) (by rw [← heq]; rfl)
    cases h' with
    | null => exact ⟨rfl, rfl⟩
    | _ => cases hkind

/-- A boolean. -/
theorem value_unique_bool {b : Bool} : ValueUnique (.bool b) := by
  intro x' t t' out out' h h' _ _ heq
  cases h with
  | true =>
    have hkind : x'.kind = .true := h'.kind_eq out' (b := 0x74) (by rw [← heq]; rfl)
    cases h' with
    | true => exact ⟨rfl, rfl⟩
    | _ => cases hkind
  | false =>
    have hkind : x'.kind = .false := h'.kind_eq out' (b := 0x66) (by rw [← heq]; rfl)
    cases h' with
    | false => exact ⟨rfl, rfl⟩
    | _ => cases hkind

/-- **Every value is read in one way**, in front of what ends it.  Induction on the value. -/
theorem value_unique (x : Json) : ValueUnique x := by
  induction x using Json.induct with
  | null => exact value_unique_null
  | bool b => exact value_unique_bool
  | number t => exact value_unique_number
  | string s => exact value_unique_string
  | array xs ih => exact value_unique_array ih
  | object ms ih => exact value_unique_object ih

/-- A byte string is a JSON text with at most one parse tree. -/
theorem jsonText_unique {x x' : Json} {s : Bytes} (h : JsonText x s) (h' : JsonText x' s) :
    x = x' := by
  obtain ⟨w, t, v, hw, hx, hv, rfl⟩ := h
  obtain ⟨w', t', v', hw', hx', hv', heq⟩ := h'
  obtain ⟨b, q, hs, hb⟩ := hx.start
  obtain ⟨b', q', hs', hb'⟩ := hx'.start
  have h₁ := (ws_unique hw hw'
    (by rw [hs, List.cons_append]; exact head_not_ws (valueStart_ne hb).1)
    (by rw [hs', List.cons_append]; exact head_not_ws (valueStart_ne hb').1) heq).2
  exact (value_unique x x' t t' v v' hx hx' (endsNumber_ws_end hv) (endsNumber_ws_end hv') h₁).1

end ByteDance
