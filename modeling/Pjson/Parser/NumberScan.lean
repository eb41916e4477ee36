/-
  `scanJsonNumber` scans the number grammar, over any cursor that behaves.

  `CursorView` says what behaving is: every state shows the unread bytes, `Moved s t s'` says that
  `s'` is `s` after the bytes `t` have been taken and nothing else has changed, a peek shows the
  next byte and moves nothing, and a take that succeeds takes it.  A take may be refused (the SAX
  parser's byte budget does); `Room s n` says that the next `n` takes are not.

  `scanJsonNumber_sound`: what is accepted is the text of a `NumberToken`.
  `scanJsonNumber_complete`: a token is accepted where nothing after it could extend it and there
  is room for it.  Both are assembled from one pair for each part of the token.
-/
import Pjson.Parser.Number

namespace ByteDance

open Decimal Run

/-- What a cursor shows of its state and how its two operations act on it. -/
structure CursorView {σ : Type} (cursor : NumberCursor σ) where
  rest : σ → Bytes
  Good : σ → Prop
  Moved : σ → Bytes → σ → Prop
  Room : σ → Nat → Prop
  moved_refl : ∀ s, Moved s [] s
  moved_trans : ∀ {s t u b b'}, Moved s b t → Moved t b' u → Moved s (b ++ b') u
  moved_rest : ∀ {s t b}, Moved s b t → rest s = b ++ rest t
  moved_good : ∀ {s t b}, Moved s b t → Good s → Good t
  moved_room : ∀ {s t b n}, Moved s b t → Room s (b.length + n) → Room t n
  peek_ok : ∀ {s}, Good s → ∃ s', Ok cursor.peek s (rest s).head? s' ∧ Moved s [] s'
  take_moved : ∀ {s s' b}, Good s → Ok cursor.take s (some b) s' → Moved s [b] s'
  take_ok : ∀ {s b r n}, Good s → rest s = b :: r → Room s (n + 1) →
    ∃ s', Ok cursor.take s (some b) s'

namespace CursorView

variable {σ : Type} {cursor : NumberCursor σ} (view : CursorView cursor)

/-- A peek shows the head of the unread bytes. -/
theorem of_peek {s s' : σ} {o : Option UInt8} (hg : view.Good s) (h : Ok cursor.peek s o s') :
    o = (view.rest s).head? ∧ view.Moved s [] s' ∧ view.Good s' ∧ view.rest s' = view.rest s := by
  obtain ⟨u, hu, hm⟩ := view.peek_ok hg
  obtain ⟨rfl, rfl⟩ := h.unique hu
  exact ⟨rfl, hm, view.moved_good hm hg, (view.moved_rest hm).symm⟩

/-- A take of the source: one byte more in the text, and the cursor one byte further. -/
theorem of_scanTake {s s' : σ} {text text' : Bytes} (hg : view.Good s)
    (h : Ok (scanTake cursor text) s text' s') :
    ∃ b, text' = text ++ [b] ∧ view.Moved s [b] s' ∧ view.Good s' ∧
      view.rest s = b :: view.rest s' := by
  unfold scanTake at h
  obtain ⟨o, u, ho, h⟩ := ok_bind.mp h
  cases o with
  | none => exact absurd h not_ok_throw
  | some b =>
    obtain ⟨rfl, rfl⟩ := ok_pure.mp h
    have hm := view.take_moved hg ho
    exact ⟨b, rfl, hm, view.moved_good hm hg, view.moved_rest hm⟩

/-- A state in which `out` is unread and the next `n` takes are not refused. -/
structure At (s : σ) (out : Bytes) (n : Nat) : Prop where
  good : view.Good s
  rest : view.rest s = out
  room : view.Room s n

variable {view} in
theorem At.peek {s : σ} {out : Bytes} {n : Nat} (h : view.At s out n) :
    ∃ s', Ok cursor.peek s out.head? s' ∧ view.Moved s [] s' ∧ view.At s' out n := by
  obtain ⟨s', hp, hm⟩ := view.peek_ok h.good
  rw [h.rest] at hp
  exact ⟨s', hp, hm, view.moved_good hm h.good, by rw [← h.rest, view.moved_rest hm]; rfl,
    view.moved_room hm (by simpa using h.room)⟩

variable {view} in
theorem At.take {s : σ} {b : UInt8} {r : Bytes} {n : Nat} (h : view.At s (b :: r) (n + 1))
    (text : Bytes) :
    ∃ s', Ok (scanTake cursor text) s (text ++ [b]) s' ∧ view.Moved s [b] s' ∧ view.At s' r n := by
  obtain ⟨s', hs'⟩ := view.take_ok h.good h.rest h.room
  have hm := view.take_moved h.good hs'
  have hrest := view.moved_rest hm
  rw [h.rest] at hrest
  exact ⟨s', Ok.bind hs' (ok_pure.mpr ⟨rfl, rfl⟩), hm, view.moved_good hm h.good,
    (List.cons.inj hrest).2.symm,
    view.moved_room hm (by rw [List.length_singleton, Nat.add_comm]; exact h.room)⟩

/-! ## Digits -/

theorem scanDigits_sound {s s' : σ} {fuel : Nat} {text text' : Bytes} (hg : view.Good s)
    (hd : ∀ b, (view.rest s).head? = some b → IsDigit b)
    (h : Ok (scanDigits cursor fuel text) s text' s') :
    ∃ ds, text' = text ++ ds ∧ AllDigits ds ∧ ds ≠ [] ∧ view.Moved s ds s' ∧ view.Good s' := by
  induction fuel generalizing s text with
  | zero => exact absurd h not_ok_throw
  | succ fuel ih =>
    unfold scanDigits at h
    obtain ⟨text₁, s₁, ht, h⟩ := ok_bind.mp h
    obtain ⟨b, rfl, hm, hg₁, hr⟩ := view.of_scanTake hg ht
    have hb : IsDigit b := hd b (by rw [hr]; rfl)
    obtain ⟨o, s₂, hp, h⟩ := ok_bind.mp h
    obtain ⟨ho, hm₂, hg₂, hr₂⟩ := view.of_peek hg₁ hp
    have hstop : view.Moved s [b] s₂ := by simpa using view.moved_trans hm hm₂
    have hdone : ∀ {u : σ}, Ok (pure (text ++ [b]) : ParseM σ Bytes) s₂ text' u →
        ∃ ds, text' = text ++ ds ∧ AllDigits ds ∧ ds ≠ [] ∧ view.Moved s ds u ∧ view.Good u := by
      intro u hu
      obtain ⟨rfl, rfl⟩ := ok_pure.mp hu
      exact ⟨[b], rfl, allDigits_cons.mpr ⟨hb, allDigits_nil⟩, by simp, hstop, hg₂⟩
    cases o with
    | none => exact hdone h
    | some ch =>
      by_cases hc : IsDigit ch
      · -- the loop goes on at the next digit
        simp only [hc, if_true] at h
        have hhead : ∀ c, (view.rest s₂).head? = some c → IsDigit c := by
          intro c hcc
          rw [hr₂, ← ho] at hcc
          cases hcc
          exact hc
        obtain ⟨ds, rfl, hds, -, hmv, hg'⟩ := ih hg₂ hhead h
        exact ⟨b :: ds, by simp, allDigits_cons.mpr ⟨hb, hds⟩, by simp,
          view.moved_trans hstop hmv, hg'⟩
      · simp only [hc, if_false] at h
        exact hdone h

variable {view} in
theorem scanDigits_complete (fuel : Nat) {ds out : Bytes} {s : σ} {n : Nat}
    (h : view.At s (ds ++ out) (ds.length + n)) (hfuel : ds.length ≤ fuel) (hds : AllDigits ds)
    (hne : ds ≠ []) (hout : ∀ b, out.head? = some b → ¬ IsDigit b) (text : Bytes) :
    ∃ s', Ok (scanDigits cursor fuel text) s (text ++ ds) s' ∧ view.Moved s ds s' ∧
      view.At s' out n := by
  induction fuel generalizing s ds text with
  | zero => exact absurd (List.length_eq_zero_iff.mp (by omega)) hne
  | succ fuel ih =>
    cases ds with
    | nil => exact absurd rfl hne
    | cons d ds =>
      obtain ⟨-, hds⟩ := allDigits_cons.mp hds
      have h : view.At s (d :: (ds ++ out)) (ds.length + n + 1) := by
        rw [List.length_cons, Nat.add_right_comm] at h
        exact h
      obtain ⟨s₁, h₁, hm₁, hat₁⟩ := h.take text
      obtain ⟨s₂, h₂, hm₂, hat₂⟩ := hat₁.peek
      have hmv : view.Moved s [d] s₂ := by simpa using view.moved_trans hm₁ hm₂
      unfold scanDigits
      cases ds with
      | nil =>
        refine ⟨s₂, Ok.bind h₁ (Ok.bind h₂ ?_), hmv, by simpa using hat₂⟩
        -- the byte after the last digit is none, or no digit
        rw [List.nil_append]
        cases ho : out.head? with
        | none => exact ok_pure.mpr ⟨rfl, rfl⟩
        | some b =>
          simp only [hout b ho, if_false]
          exact ok_pure.mpr ⟨rfl, rfl⟩
      | cons e es =>
        obtain ⟨s', h', hm', hat'⟩ := ih hat₂ (by simpa using hfuel) hds (by simp) (text ++ [d])
        refine ⟨s', Ok.bind h₁ (Ok.bind h₂ ?_), view.moved_trans hmv hm', hat'⟩
        simp only [List.cons_append, List.head?_cons, (allDigits_cons.mp hds).1, if_true]
        simpa using h'

theorem scanSomeDigits_sound {s s' : σ} {fuel : Nat} {text text' : Bytes} {msg : String}
    (hg : view.Good s) (h : Ok (scanSomeDigits cursor fuel text msg) s text' s') :
    ∃ ds, text' = text ++ ds ∧ AllDigits ds ∧ ds ≠ [] ∧ view.Moved s ds s' ∧ view.Good s' := by
  obtain ⟨o, u, hp, h⟩ := ok_bind.mp h
  obtain ⟨ho, hm, hg', hr⟩ := view.of_peek hg hp
  cases o with
  | none => exact absurd h not_ok_throw
  | some ch =>
    by_cases hc : IsDigit ch
    · simp only [hc, if_true] at h
      have hhead : ∀ b, (view.rest u).head? = some b → IsDigit b := by
        intro b hb
        rw [hr, ← ho] at hb
        cases hb
        exact hc
      obtain ⟨ds, rfl, hds, hne, hm', hg''⟩ := view.scanDigits_sound hg' hhead h
      exact ⟨ds, rfl, hds, hne, by simpa using view.moved_trans hm hm', hg''⟩
    · simp only [hc, if_false] at h
      exact absurd h not_ok_throw

variable {view} in
theorem scanSomeDigits_complete (fuel : Nat) {ds out : Bytes} {s : σ} {n : Nat}
    (h : view.At s (ds ++ out) (ds.length + n)) (hfuel : ds.length ≤ fuel) (hds : AllDigits ds)
    (hne : ds ≠ []) (hout : ∀ b, out.head? = some b → ¬ IsDigit b) (text : Bytes) (msg : String) :
    ∃ s', Ok (scanSomeDigits cursor fuel text msg) s (text ++ ds) s' ∧ view.Moved s ds s' ∧
      view.At s' out n := by
  obtain ⟨u, hp, hm, hat⟩ := h.peek
  obtain ⟨s', hs', hm', hat'⟩ := scanDigits_complete fuel hat hfuel hds hne hout text
  refine ⟨s', Ok.bind hp ?_, by simpa using view.moved_trans hm hm', hat'⟩
  cases ds with
  | nil => exact absurd rfl hne
  | cons d ds =>
    simp only [List.cons_append, List.head?_cons, (allDigits_cons.mp hds).1, if_true]
    exact hs'

/-! ## The parts of a token -/

theorem scanSign_sound {s s' : σ} {text : Bytes} (hg : view.Good s)
    (h : Ok (scanSign cursor) s text s') :
    ∃ negative, text = NumberToken.signText negative ∧ view.Moved s text s' ∧ view.Good s' := by
  obtain ⟨o, u, hp, h⟩ := ok_bind.mp h
  obtain ⟨ho, hm, hg', hr⟩ := view.of_peek hg hp
  cases o with
  | none => exact absurd h not_ok_throw
  | some ch =>
    by_cases hc : ch = 0x2D
    · simp only [hc, if_true] at h
      obtain ⟨text₁, v, ht, h⟩ := ok_bind.mp h
      obtain ⟨b, rfl, hm₁, hg₁, hr₁⟩ := view.of_scanTake hg' ht
      obtain ⟨o₂, w, hp₂, h⟩ := ok_bind.mp h
      obtain ⟨-, hm₂, hg₂, -⟩ := view.of_peek hg₁ hp₂
      have hb : b = 0x2D := by
        have : some ch = some b := by rw [ho, ← hr, hr₁]; rfl
        rw [← hc]
        exact (Option.some.inj this).symm
      cases o₂ with
      | none => exact absurd h not_ok_throw
      | some _ =>
        obtain ⟨rfl, rfl⟩ := ok_pure.mp h
        subst hb
        exact ⟨true, rfl, by simpa using view.moved_trans hm (view.moved_trans hm₁ hm₂), hg₂⟩
    · simp only [hc, if_false] at h
      obtain ⟨rfl, rfl⟩ := ok_pure.mp h
      exact ⟨false, rfl, hm, hg'⟩

variable {view} in
theorem scanSign_complete {s : σ} {negative : Bool} {d : UInt8} {out : Bytes} {n : Nat}
    (h : view.At s (NumberToken.signText negative ++ d :: out)
      ((NumberToken.signText negative).length + n)) (hd : IsDigit d) :
    ∃ s', Ok (scanSign cursor) s (NumberToken.signText negative) s' ∧
      view.Moved s (NumberToken.signText negative) s' ∧ view.At s' (d :: out) n := by
  obtain ⟨u, hp, hm, hat⟩ := h.peek
  cases negative with
  | true =>
    have hat : view.At u (0x2D :: (d :: out)) (n + 1) := by
      rw [Nat.add_comm n 1]; exact hat
    obtain ⟨v, ht, hm₁, hat₁⟩ := hat.take []
    obtain ⟨w, hp₂, hm₂, hat₂⟩ := hat₁.peek
    refine ⟨w, Ok.bind hp (Ok.bind ht (Ok.bind hp₂ (ok_pure.mpr ⟨rfl, rfl⟩))), ?_, hat₂⟩
    show view.Moved s [0x2D] w
    simpa using view.moved_trans hm (view.moved_trans hm₁ hm₂)
  | false =>
    have hne : d ≠ 0x2D := by
      rintro rfl
      revert hd
      decide
    refine ⟨u, Ok.bind hp ?_, hm, by simpa [NumberToken.signText] using hat⟩
    simp only [NumberToken.signText, Bool.false_eq_true, if_false, List.nil_append,
      List.head?_cons, hne]
    exact ok_pure.mpr ⟨rfl, rfl⟩

theorem scanInt_sound {s s' : σ} {fuel : Nat} {text text' : Bytes} (hg : view.Good s)
    (h : Ok (scanInt cursor fuel text) s text' s') :
    ∃ int, text' = text ++ int ∧ AllDigits int ∧
      (int = [0x30] ∨ ∃ d ds, int = d :: ds ∧ d ≠ 0x30) ∧ view.Moved s int s' ∧
      view.Good s' := by
  obtain ⟨o, u, hp, h⟩ := ok_bind.mp h
  obtain ⟨ho, hm, hg', hr⟩ := view.of_peek hg hp
  cases o with
  | none => exact absurd h not_ok_throw
  | some ch =>
    by_cases hz : ch = 0x30
    · simp only [hz, if_true] at h
      obtain ⟨b, rfl, hm₁, hg₁, hr₁⟩ := view.of_scanTake hg' h
      have hb : b = 0x30 := by
        have : some ch = some b := by rw [ho, ← hr, hr₁]; rfl
        rw [← hz]
        exact (Option.some.inj this).symm
      subst hb
      exact ⟨[0x30], rfl, allDigits_replicate 1, Or.inl rfl, by simpa using view.moved_trans hm hm₁, hg₁⟩
    · simp only [hz, if_false] at h
      by_cases hc : 0x31 ≤ ch ∧ ch ≤ 0x39
      · simp only [hc] at h
        have hd : IsDigit ch := ⟨UInt8.le_trans (by decide) hc.1, hc.2⟩
        have hhead : ∀ b, (view.rest u).head? = some b → b = ch := by
          intro b hb
          rw [hr, ← ho] at hb
          exact (Option.some.inj hb).symm
        obtain ⟨ds, rfl, hds, hne, hm', hg''⟩ := view.scanDigits_sound hg'
          (fun b hb => hhead b hb ▸ hd) h
        refine ⟨ds, rfl, hds, Or.inr ?_, by simpa using view.moved_trans hm hm', hg''⟩
        cases ds with
        | nil => exact absurd rfl hne
        | cons d ds =>
          have : d = ch := hhead d (by rw [view.moved_rest hm']; rfl)
          exact ⟨d, ds, rfl, this ▸ hz⟩
      · simp only [hc, if_false] at h
        exact absurd h not_ok_throw

variable {view} in
theorem scanInt_complete (fuel : Nat) {s : σ} {int out : Bytes} {n : Nat}
    (h : view.At s (int ++ out) (int.length + n)) (hfuel : int.length ≤ fuel)
    (hds : AllDigits int) (hshape : int = [0x30] ∨ ∃ d ds, int = d :: ds ∧ d ≠ 0x30)
    (hout : ∀ b, out.head? = some b → ¬ IsDigit b) (text : Bytes) :
    ∃ s', Ok (scanInt cursor fuel text) s (text ++ int) s' ∧ view.Moved s int s' ∧
      view.At s' out n := by
  obtain ⟨u, hp, hm, hat⟩ := h.peek
  rcases hshape with rfl | ⟨d, ds, rfl, hd0⟩
  · obtain ⟨v, ht, hm₁, hat₁⟩ := CursorView.At.take (n := n) (by rwa [Nat.add_comm] at hat) text
    exact ⟨v, Ok.bind hp ht, by simpa using view.moved_trans hm hm₁, hat₁⟩
  · obtain ⟨s', hs', hm', hat'⟩ := scanDigits_complete fuel hat hfuel hds (by simp) hout text
    refine ⟨s', Ok.bind hp ?_, by simpa using view.moved_trans hm hm', hat'⟩
    have hd := isDigit_iff.mp (allDigits_cons.mp hds).1
    have hc : 0x31 ≤ d ∧ d ≤ 0x39 := by
      have hne : d.toNat ≠ 48 := fun h => hd0 (UInt8.toNat_inj.mp h)
      rw [UInt8.le_iff_toNat_le, UInt8.le_iff_toNat_le]
      exact ⟨show 49 ≤ d.toNat by omega, show d.toNat ≤ 57 by omega⟩
    simp only [List.cons_append, List.head?_cons, hd0, hc, if_false, if_true, and_self]
    exact hs'

theorem scanFrac_sound {s s' : σ} {fuel : Nat} {text : Bytes} {r : Bytes × Bool}
    (hg : view.Good s) (h : Ok (scanFrac cursor fuel text) s r s') :
    ∃ frac, r = (text ++ NumberToken.fracText frac, frac.isSome) ∧
      (∀ ds, frac = some ds → AllDigits ds ∧ ds ≠ []) ∧
      view.Moved s (NumberToken.fracText frac) s' ∧ view.Good s' := by
  obtain ⟨o, u, hp, h⟩ := ok_bind.mp h
  obtain ⟨ho, hm, hg', hr⟩ := view.of_peek hg hp
  have habsent : Ok (pure (text, false) : ParseM σ (Bytes × Bool)) u r s' →
      ∃ frac, r = (text ++ NumberToken.fracText frac, frac.isSome) ∧
        (∀ ds, frac = some ds → AllDigits ds ∧ ds ≠ []) ∧
        view.Moved s (NumberToken.fracText frac) s' ∧ view.Good s' := by
    intro h
    obtain ⟨rfl, rfl⟩ := ok_pure.mp h
    exact ⟨none, by simp [NumberToken.fracText], by simp, hm, hg'⟩
  cases o with
  | none => exact habsent h
  | some ch =>
    by_cases hc : ch = 0x2E
    · simp only [hc, if_true] at h
      obtain ⟨text₁, v, ht, h⟩ := ok_bind.mp h
      obtain ⟨b, rfl, hm₁, hg₁, hr₁⟩ := view.of_scanTake hg' ht
      have hb : b = 0x2E := by
        have : some ch = some b := by rw [ho, ← hr, hr₁]; rfl
        rw [← hc]
        exact (Option.some.inj this).symm
      obtain ⟨text₂, w, hd, h⟩ := ok_bind.mp h
      obtain ⟨ds, rfl, hds, hne, hm₂, hg₂⟩ := view.scanSomeDigits_sound hg₁ hd
      obtain ⟨rfl, rfl⟩ := ok_pure.mp h
      subst hb
      refine ⟨some ds, by simp [NumberToken.fracText], ?_, ?_, hg₂⟩
      · rintro _ ⟨⟩
        exact ⟨hds, hne⟩
      · show view.Moved s (0x2E :: ds) s'
        simpa using view.moved_trans hm (view.moved_trans hm₁ hm₂)
    · simp only [hc, if_false] at h
      exact habsent h

variable {view} in
theorem scanFrac_complete (fuel : Nat) {s : σ} {frac : Option Bytes} {out : Bytes} {n : Nat}
    (h : view.At s (NumberToken.fracText frac ++ out) ((NumberToken.fracText frac).length + n))
    (hfuel : (NumberToken.fracText frac).length ≤ fuel)
    (hshape : ∀ ds, frac = some ds → AllDigits ds ∧ ds ≠ [])
    (hout : ∀ b, out.head? = some b → ¬ IsDigit b ∧ b ≠ 0x2E) (text : Bytes) :
    ∃ s', Ok (scanFrac cursor fuel text) s (text ++ NumberToken.fracText frac, frac.isSome) s' ∧
      view.Moved s (NumberToken.fracText frac) s' ∧ view.At s' out n := by
  obtain ⟨u, hp, hm, hat⟩ := h.peek
  cases frac with
  | none =>
    have hat : view.At u out n := by simpa [NumberToken.fracText] using hat
    refine ⟨u, Ok.bind hp ?_, hm, hat⟩
    rw [NumberToken.fracText, List.nil_append]
    cases ho : out.head? with
    | none => exact ok_pure.mpr ⟨by simp, rfl⟩
    | some b =>
      simp only [(hout b ho).2, if_false]
      exact ok_pure.mpr ⟨by simp, rfl⟩
  | some ds =>
    obtain ⟨hds, hne⟩ := hshape ds rfl
    have hat : view.At u (0x2E :: (ds ++ out)) (ds.length + n + 1) := by
      rw [Nat.add_right_comm]; exact hat
    obtain ⟨v, ht, hm₁, hat₁⟩ := hat.take text
    obtain ⟨s', hs', hm₂, hat'⟩ := scanSomeDigits_complete fuel hat₁
      (by simp only [NumberToken.fracText, List.length_cons] at hfuel; omega) hds hne
      (fun b hb => (hout b hb).1) (text ++ [0x2E])
      "invalid number: '.' must be followed by a digit"
    refine ⟨s', Ok.bind hp (Ok.bind ht (Ok.bind hs' (ok_pure.mpr ⟨?_, rfl⟩))), ?_, hat'⟩
    · simp [NumberToken.fracText]
    · show view.Moved s (0x2E :: ds) s'
      simpa using view.moved_trans hm (view.moved_trans hm₁ hm₂)

theorem scanExpSign_sound {s s' : σ} {text text' : Bytes} (hg : view.Good s)
    (h : Ok (scanExpSign cursor text) s text' s') :
    ∃ sign : Option UInt8, text' = text ++ sign.toList ∧
      (∀ b, sign = some b → b = 0x2B ∨ b = 0x2D) ∧ view.Moved s sign.toList s' ∧
      view.Good s' := by
  obtain ⟨o, u, hp, h⟩ := ok_bind.mp h
  obtain ⟨ho, hm, hg', hr⟩ := view.of_peek hg hp
  have habsent : Ok (pure text : ParseM σ Bytes) u text' s' →
      ∃ sign : Option UInt8, text' = text ++ sign.toList ∧
        (∀ b, sign = some b → b = 0x2B ∨ b = 0x2D) ∧ view.Moved s sign.toList s' ∧
        view.Good s' := by
    intro h
    obtain ⟨rfl, rfl⟩ := ok_pure.mp h
    exact ⟨none, by simp, by simp, hm, hg'⟩
  cases o with
  | none => exact habsent h
  | some ch =>
    by_cases hc : ch = 0x2B ∨ ch = 0x2D
    · simp only [hc, if_true] at h
      obtain ⟨b, rfl, hm₁, hg₁, hr₁⟩ := view.of_scanTake hg' h
      have hb : b = ch := by
        have : some ch = some b := by rw [ho, ← hr, hr₁]; rfl
        exact (Option.some.inj this).symm
      subst hb
      refine ⟨some b, by simp, ?_, by simpa using view.moved_trans hm hm₁, hg₁⟩
      rintro _ ⟨⟩
      exact hc
    · simp only [hc, if_false] at h
      exact habsent h

variable {view} in
theorem scanExpSign_complete {s : σ} {sign : Option UInt8} {d : UInt8} {out : Bytes} {n : Nat}
    (h : view.At s (sign.toList ++ d :: out) (sign.toList.length + n))
    (hshape : ∀ b, sign = some b → b = 0x2B ∨ b = 0x2D) (hd : IsDigit d) (text : Bytes) :
    ∃ s', Ok (scanExpSign cursor text) s (text ++ sign.toList) s' ∧
      view.Moved s sign.toList s' ∧ view.At s' (d :: out) n := by
  obtain ⟨u, hp, hm, hat⟩ := h.peek
  cases sign with
  | none =>
    have hne : ¬ (d = 0x2B ∨ d = 0x2D) := by
      rintro (rfl | rfl) <;> revert hd <;> decide
    refine ⟨u, Ok.bind hp ?_, hm, by simpa using hat⟩
    simp only [Option.toList_none, List.nil_append, List.head?_cons, hne, if_false]
    exact ok_pure.mpr ⟨by simp, rfl⟩
  | some b =>
    have hat : view.At u (b :: (d :: out)) (n + 1) := by
      rw [Nat.add_comm n 1]; exact hat
    obtain ⟨v, ht, hm₁, hat₁⟩ := hat.take text
    refine ⟨v, Ok.bind hp ?_, by simpa using view.moved_trans hm hm₁, hat₁⟩
    simp only [Option.toList_some, List.cons_append, List.nil_append, List.head?_cons,
      hshape b rfl, if_true]
    exact ht

theorem scanExp_sound {s s' : σ} {fuel : Nat} {text : Bytes} {r : Bytes × Bool}
    (hg : view.Good s) (h : Ok (scanExp cursor fuel text) s r s') :
    ∃ exp, r = (text ++ NumberToken.expText exp, exp.isSome) ∧
      view.Moved s (NumberToken.expText exp) s' ∧ view.Good s' := by
  obtain ⟨o, u, hp, h⟩ := ok_bind.mp h
  obtain ⟨ho, hm, hg', hr⟩ := view.of_peek hg hp
  have habsent : Ok (pure (text, false) : ParseM σ (Bytes × Bool)) u r s' →
      ∃ exp, r = (text ++ NumberToken.expText exp, exp.isSome) ∧
        view.Moved s (NumberToken.expText exp) s' ∧ view.Good s' := by
    intro h
    obtain ⟨rfl, rfl⟩ := ok_pure.mp h
    exact ⟨none, by simp [NumberToken.expText], hm, hg'⟩
  cases o with
  | none => exact habsent h
  | some ch =>
    by_cases hc : ch = 0x65 ∨ ch = 0x45
    · simp only [hc, if_true] at h
      obtain ⟨text₁, v, ht, h⟩ := ok_bind.mp h
      obtain ⟨b, rfl, hm₁, hg₁, hr₁⟩ := view.of_scanTake hg' ht
      have hb : b = ch := by
        have : some ch = some b := by rw [ho, ← hr, hr₁]; rfl
        exact (Option.some.inj this).symm
      obtain ⟨text₂, w, hsg, h⟩ := ok_bind.mp h
      obtain ⟨sign, rfl, hsign, hm₂, hg₂⟩ := view.scanExpSign_sound hg₁ hsg
      obtain ⟨text₃, x, hd, h⟩ := ok_bind.mp h
      obtain ⟨ds, rfl, hds, hne, hm₃, hg₃⟩ := view.scanSomeDigits_sound hg₂ hd
      obtain ⟨rfl, rfl⟩ := ok_pure.mp h
      subst hb
      refine ⟨some ⟨b, sign, ds, hc, hsign, hds, hne⟩, ?_, ?_, hg₃⟩
      · simp [NumberToken.expText, Exponent.text]
      · show view.Moved s (b :: (sign.toList ++ ds)) s'
        simpa using view.moved_trans hm (view.moved_trans hm₁ (view.moved_trans hm₂ hm₃))
    · simp only [hc, if_false] at h
      exact habsent h

variable {view} in
theorem scanExp_complete (fuel : Nat) {s : σ} {exp : Option Exponent} {out : Bytes} {n : Nat}
    (h : view.At s (NumberToken.expText exp ++ out) ((NumberToken.expText exp).length + n))
    (hfuel : (NumberToken.expText exp).length ≤ fuel)
    (hout : ∀ b, out.head? = some b → ¬ IsDigit b ∧ b ≠ 0x65 ∧ b ≠ 0x45) (text : Bytes) :
    ∃ s', Ok (scanExp cursor fuel text) s (text ++ NumberToken.expText exp, exp.isSome) s' ∧
      view.Moved s (NumberToken.expText exp) s' ∧ view.At s' out n := by
  obtain ⟨u, hp, hm, hat⟩ := h.peek
  cases exp with
  | none =>
    -- No exponent: the next byte is no mark, so the scan stops where it stands.
    have hat : view.At u out n := by simpa [NumberToken.expText] using hat
    refine ⟨u, Ok.bind hp ?_, hm, hat⟩
    rw [NumberToken.expText, List.nil_append]
    cases ho : out.head? with
    | none => exact ok_pure.mpr ⟨by simp, rfl⟩
    | some b =>
      have hne : ¬ (b = 0x65 ∨ b = 0x45) := fun hc => hc.elim (hout b ho).2.1 (hout b ho).2.2
      simp only [hne, if_false]
      exact ok_pure.mpr ⟨by simp, rfl⟩
  | some e =>
    obtain ⟨hds, hne⟩ := e.digits_shape
    obtain ⟨d, ds, hcons⟩ := List.exists_cons_of_ne_nil hne
    have hlen : e.text.length = e.sign.toList.length + e.digits.length + 1 := by
      simp only [Exponent.text, List.length_cons, List.length_append]
    have hat : view.At u (e.mark :: (e.sign.toList ++ d :: (ds ++ out)))
        (e.sign.toList.length + (e.digits.length + n) + 1) := by
      have h1 : NumberToken.expText (some e) ++ out =
          e.mark :: (e.sign.toList ++ d :: (ds ++ out)) := by
        simp [NumberToken.expText, Exponent.text, hcons]
      have h2 : (NumberToken.expText (some e)).length + n =
          e.sign.toList.length + (e.digits.length + n) + 1 := by
        rw [NumberToken.expText, hlen]; omega
      rw [← h1, ← h2]
      exact hat
    -- The mark, the sign and the digits, each at the place the one before has left.
    obtain ⟨v, ht, hm₁, hat₁⟩ := hat.take text
    obtain ⟨w, hsg, hm₂, hat₂⟩ := scanExpSign_complete hat₁ e.sign_shape
      (allDigits_cons.mp (hcons ▸ hds)).1 (text ++ [e.mark])
    have hat₂ : view.At w (e.digits ++ out) (e.digits.length + n) := by
      rw [hcons] at hat₂ ⊢
      exact hat₂
    obtain ⟨s', hd, hm₃, hat'⟩ := scanSomeDigits_complete fuel hat₂
      (by rw [NumberToken.expText, hlen] at hfuel; omega) hds hne (fun b hb => (hout b hb).1)
      (text ++ [e.mark] ++ e.sign.toList) "invalid number: exponent must have a digit"
    refine ⟨s', Ok.bind hp ?_, ?_, hat'⟩
    · have hhead : (NumberToken.expText (some e) ++ out).head? = some e.mark := rfl
      simp only [hhead, e.mark_shape, if_true]
      refine Ok.bind ht (Ok.bind hsg (Ok.bind hd (ok_pure.mpr ⟨?_, rfl⟩)))
      simp [NumberToken.expText, Exponent.text]
    · show view.Moved s (e.mark :: (e.sign.toList ++ e.digits)) s'
      simpa using view.moved_trans hm (view.moved_trans hm₁ (view.moved_trans hm₂ hm₃))

/-! ## Whole tokens -/

/-- **What the scanner accepts is a number token**, and it has moved over just that token. -/
theorem scanJsonNumber_sound {s s' : σ} {fuel : Nat} {r : Bytes × Bool} (hg : view.Good s)
    (h : Ok (scanJsonNumber cursor fuel) s r s') :
    ∃ t : NumberToken, r = (t.text, t.isFloat) ∧ view.Moved s t.text s' ∧ view.Good s' := by
  obtain ⟨sg, s₁, h₁, h⟩ := ok_bind.mp h
  obtain ⟨negative, rfl, hm₁, hg₁⟩ := view.scanSign_sound hg h₁
  obtain ⟨it, s₂, h₂, h⟩ := ok_bind.mp h
  obtain ⟨int, rfl, hint, hshape, hm₂, hg₂⟩ := view.scanInt_sound hg₁ h₂
  obtain ⟨fr, s₃, h₃, h⟩ := ok_bind.mp h
  obtain ⟨frac, rfl, hfrac, hm₃, hg₃⟩ := view.scanFrac_sound hg₂ h₃
  obtain ⟨ex, s₄, h₄, h⟩ := ok_bind.mp h
  obtain ⟨exp, rfl, hm₄, hg₄⟩ := view.scanExp_sound hg₃ h₄
  obtain ⟨rfl, rfl⟩ := ok_pure.mp h
  refine ⟨⟨negative, int, frac, exp, hint, hshape, hfrac⟩, ?_, ?_, hg₄⟩
  · simp [NumberToken.text, NumberToken.isFloat]
  · show view.Moved s (_ ++ (_ ++ (_ ++ _))) s'
    exact view.moved_trans hm₁ (view.moved_trans hm₂ (view.moved_trans hm₃ hm₄))

end CursorView

/-- Nothing at the head of `out` could extend a number token. -/
def EndsNumber (out : Bytes) : Prop :=
  ∀ b, out.head? = some b → ¬ IsDigit b ∧ b ≠ 0x2E ∧ b ≠ 0x65 ∧ b ≠ 0x45

namespace CursorView

variable {σ : Type} {cursor : NumberCursor σ} {view : CursorView cursor}

/-- What follows the integer part is no digit. -/
theorem head_fracText {t : NumberToken} {out : Bytes} (hout : EndsNumber out) (b : UInt8)
    (hb : (NumberToken.fracText t.frac ++ (NumberToken.expText t.exp ++ out)).head? = some b) :
    ¬ IsDigit b := by
  cases hf : t.frac with
  | some ds =>
    rw [hf] at hb
    cases hb
    decide
  | none =>
    rw [hf] at hb
    cases he : t.exp with
    | some e =>
      rw [he] at hb
      cases hb
      rcases e.mark_shape with h | h <;> rw [h] <;> decide
    | none =>
      rw [he] at hb
      exact (hout b hb).1

/-- What follows the fraction part is no digit and no point. -/
theorem head_expText {t : NumberToken} {out : Bytes} (hout : EndsNumber out) (b : UInt8)
    (hb : (NumberToken.expText t.exp ++ out).head? = some b) : ¬ IsDigit b ∧ b ≠ 0x2E := by
  cases he : t.exp with
  | some e =>
    rw [he] at hb
    cases hb
    rcases e.mark_shape with h | h <;> rw [h] <;> decide
  | none =>
    rw [he] at hb
    exact ⟨(hout b hb).1, (hout b hb).2.1⟩

/-- **A number token is accepted**, where nothing after it could extend it. -/
theorem scanJsonNumber_complete (fuel : Nat) {s : σ} {t : NumberToken} {out : Bytes} {n : Nat}
    (h : view.At s (t.text ++ out) (t.text.length + n)) (hfuel : t.text.length ≤ fuel)
    (hout : EndsNumber out) :
    ∃ s', Ok (scanJsonNumber cursor fuel) s (t.text, t.isFloat) s' ∧ view.Moved s t.text s' ∧
      view.At s' out n := by
  have hlen : t.text.length = (NumberToken.signText t.negative).length + (t.int.length +
      ((NumberToken.fracText t.frac).length + (NumberToken.expText t.exp).length)) := by
    simp only [NumberToken.text, List.length_append]
  have hint : ∃ d ds, t.int = d :: ds ∧ IsDigit d := by
    rcases t.int_shape with h0 | ⟨d, ds, hd, -⟩
    · exact ⟨0x30, [], h0, by decide⟩
    · exact ⟨d, ds, hd, (allDigits_cons.mp (hd ▸ t.int_digits)).1⟩
  obtain ⟨d, ds, hcons, hd⟩ := hint
  have hat : view.At s (NumberToken.signText t.negative ++ d ::
      (ds ++ (NumberToken.fracText t.frac ++ (NumberToken.expText t.exp ++ out))))
      ((NumberToken.signText t.negative).length + (t.int.length +
        ((NumberToken.fracText t.frac).length + ((NumberToken.expText t.exp).length + n)))) := by
    have h1 : t.text ++ out = NumberToken.signText t.negative ++ d ::
        (ds ++ (NumberToken.fracText t.frac ++ (NumberToken.expText t.exp ++ out))) := by
      simp [NumberToken.text, hcons]
    rw [h1, hlen] at h
    simpa only [Nat.add_assoc] using h
  obtain ⟨s₁, h₁, hm₁, hat₁⟩ := scanSign_complete hat hd
  have hat₁ : view.At s₁ (t.int ++ (NumberToken.fracText t.frac ++
      (NumberToken.expText t.exp ++ out))) (t.int.length +
        ((NumberToken.fracText t.frac).length + ((NumberToken.expText t.exp).length + n))) := by
    rw [hcons] at hat₁ ⊢
    exact hat₁
  obtain ⟨s₂, h₂, hm₂, hat₂⟩ := scanInt_complete fuel hat₁ (by omega) t.int_digits t.int_shape
    (head_fracText hout) (NumberToken.signText t.negative)
  obtain ⟨s₃, h₃, hm₃, hat₃⟩ := scanFrac_complete fuel hat₂ (by omega) t.frac_shape
    (head_expText hout) (NumberToken.signText t.negative ++ t.int)
  obtain ⟨s₄, h₄, hm₄, hat₄⟩ := scanExp_complete fuel hat₃ (by omega)
    (fun b hb => ⟨(hout b hb).1, (hout b hb).2.2⟩)
    (NumberToken.signText t.negative ++ t.int ++ NumberToken.fracText t.frac)
  refine ⟨s₄, Ok.bind h₁ (Ok.bind h₂ (Ok.bind h₃ (Ok.bind h₄ (ok_pure.mpr ⟨?_, rfl⟩)))), ?_,
    hat₄⟩
  · simp [NumberToken.text, NumberToken.isFloat]
  · show view.Moved s (_ ++ (_ ++ (_ ++ _))) s₄
    exact view.moved_trans hm₁ (view.moved_trans hm₂ (view.moved_trans hm₃ hm₄))

end CursorView

end ByteDance
