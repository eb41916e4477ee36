/-
  Programs that write bytes to a destination of limited room.

  A destination is good or has failed; while it is good it takes bytes as long as they fit, and once
  it has failed it stays so.  `Emits bad x a o` says all there is to say about a writer `x`: with
  `o = some bs`, it writes exactly `bs` and returns `a` where they fit, and fails where they do not
  or where the destination had failed before; with `o = none` it always fails.  To fail is to leave
  by an exception, or to leave a failed destination behind with a result that is `bad`, that is, one
  that tells the caller.  What a failing writer has already written is only known to stay (`le`).

  Writers compose like the strings they write (`Emits.seq`, `Emits.branch`, `Emits.check`), so the
  output of a program over any destination is read off its text, once.
-/
import Mathlib

/-- Outputs one after the other; there is none if one of them fails. -/
def Option.cat (o₁ o₂ : Option (List UInt8)) : Option (List UInt8) :=
  o₁.bind fun a => o₂.map fun b => a ++ b

namespace Option

variable {a b : List UInt8} {o o₁ o₂ o₃ : Option (List UInt8)}

@[simp] theorem cat_some : cat (some a) (some b) = some (a ++ b) := rfl

@[simp] theorem cat_none_left : cat none o = none := rfl

@[simp] theorem cat_none_right : cat o none = none := by cases o <;> rfl

@[simp] theorem cat_nil_left : cat (some []) o = o := by cases o <;> rfl

@[simp] theorem cat_nil_right : cat o (some []) = o := by cases o <;> simp [cat]

theorem cat_assoc : cat (cat o₁ o₂) o₃ = cat o₁ (cat o₂ o₃) := by
  cases o₁ <;> cases o₂ <;> cases o₃ <;> simp [cat]

theorem cat_eq_some {bs : List UInt8} :
    cat o₁ o₂ = some bs ↔ ∃ a b, o₁ = some a ∧ o₂ = some b ∧ bs = a ++ b := by
  cases o₁ <;> cases o₂ <;> simp [eq_comm]

theorem isSome_cat : (cat o₁ o₂).isSome ↔ o₁.isSome ∧ o₂.isSome := by
  cases o₁ <;> cases o₂ <;> simp

end Option

/-- A place to write to: whether it is good, how many more bytes fit, and what writing makes of it. -/
structure Destination (σ : Type) where
  good : σ → Bool
  fits : σ → Nat → Prop
  advance : σ → List UInt8 → σ
  /-- Nothing that has been written is taken back, and a failed destination may say more. -/
  le : σ → σ → Prop
  fits_zero : ∀ s, fits s 0
  fits_add : ∀ s bs n, fits s (bs.length + n) ↔ fits s bs.length ∧ fits (advance s bs) n
  advance_nil : ∀ s, advance s [] = s
  advance_append : ∀ s a b, advance s (a ++ b) = advance (advance s a) b
  good_advance : ∀ s bs, good s = true → good (advance s bs) = true
  le_refl : ∀ s, le s s
  le_trans : ∀ {s t u}, le s t → le t u → le s u
  le_advance : ∀ s bs, good s = true → le s (advance s bs)

namespace Destination

variable {ε σ α β : Type} (D : Destination σ)

/-- An exit that tells of a failure, of a program started in `s`. -/
def Failed (bad : α → Prop) (s : σ) : EStateM.Result ε σ α → Prop
  | .ok a t => bad a ∧ D.good t = false ∧ D.le s t
  | .error _ t => D.le s t

/-- **The output of a writer** on every destination. -/
structure Emits (bad : α → Prop) (x : EStateM ε σ α) (a : α) (o : Option (List UInt8)) : Prop where
  done : ∀ s bs, o = some bs → D.good s = true → D.fits s bs.length →
    x.run s = .ok a (D.advance s bs)
  failed : ∀ s, (D.good s = false ∨ ∀ bs, o = some bs → ¬ D.fits s bs.length) →
    D.Failed bad s (x.run s)

variable {D} {bad : α → Prop} {x : EStateM ε σ β} {y : EStateM ε σ α} {a : α} {b : β}
  {o o₁ o₂ : Option (List UInt8)}

/-- On a good destination a writer does its work or fails. -/
theorem Emits.cases {y : EStateM ε σ α} (h : D.Emits bad y a o) {s : σ} (hs : D.good s = true) :
    (∃ bs, o = some bs ∧ D.fits s bs.length ∧ y.run s = .ok a (D.advance s bs)) ∨
      ((∀ bs, o = some bs → ¬ D.fits s bs.length) ∧ D.Failed bad s (y.run s)) := by
  by_cases hfit : ∃ bs, o = some bs ∧ D.fits s bs.length
  · obtain ⟨bs, ho, hfit⟩ := hfit
    exact Or.inl ⟨bs, ho, hfit, h.done s bs ho hs hfit⟩
  · have hno : ∀ bs, o = some bs → ¬ D.fits s bs.length := fun bs ho hf => hfit ⟨bs, ho, hf⟩
    exact Or.inr ⟨hno, h.failed s (Or.inr hno)⟩

/-- If the whole does not fit, the first part does not, or the second does not behind it. -/
theorem not_fits_cat {s : σ} (h : ∀ bs, Option.cat o₁ o₂ = some bs → ¬ D.fits s bs.length) :
    (∀ bs, o₁ = some bs → ¬ D.fits s bs.length) ∨
      ∃ bs, o₁ = some bs ∧ D.fits s bs.length ∧
        ∀ cs, o₂ = some cs → ¬ D.fits (D.advance s bs) cs.length := by
  cases o₁ with
  | none => exact Or.inl fun bs hbs => by cases hbs
  | some bs =>
    by_cases hfit : D.fits s bs.length
    · refine Or.inr ⟨bs, rfl, hfit, fun cs hcs hfit' => ?_⟩
      refine h (bs ++ cs) (by rw [hcs, Option.cat_some]) ?_
      rw [List.length_append]
      exact (D.fits_add s bs cs.length).mpr ⟨hfit, hfit'⟩
    · exact Or.inl fun cs hcs => by
        cases hcs
        exact hfit

/-- What fails behind a first step fails from the start. -/
theorem Failed.trans {s t : σ} {r : EStateM.Result ε σ α} (h : D.le s t) (hr : D.Failed bad t r) :
    D.Failed bad s r := by
  cases r with
  | ok a u => exact ⟨hr.1, hr.2.1, D.le_trans h hr.2.2⟩
  | error e u => exact D.le_trans h hr

/-- Running two writers, where the second is `y` after a first that did its work and must fail in
    any state a failing first can leave. -/
theorem Emits.bind {bad' : β → Prop} {f : β → EStateM ε σ α} (hx : D.Emits bad' x b o₁)
    (hy : D.Emits bad (f b) a o₂)
    (hfail : ∀ c t, bad' c → D.good t = false → D.Failed bad t ((f c).run t)) :
    D.Emits bad (x >>= f) a (Option.cat o₁ o₂) where
  done s bs h hgood hfit := by
    obtain ⟨bs₁, bs₂, h₁, h₂, rfl⟩ := Option.cat_eq_some.mp h
    rw [List.length_append, D.fits_add] at hfit
    rw [EStateM.run_bind, hx.done s bs₁ h₁ hgood hfit.1]
    show (f b).run (D.advance s bs₁) = _
    rw [hy.done _ bs₂ h₂ (D.good_advance s bs₁ hgood) hfit.2, D.advance_append]
  failed s h := by
    rw [EStateM.run_bind]
    -- a first writer that fails, by exception or not
    have hleft : D.Failed bad' s (x.run s) → D.Failed bad s (match x.run s with
        | .ok c t => (f c).run t
        | .error e t => .error e t) := by
      intro hf
      cases hr : x.run s with
      | ok c t =>
        rw [hr] at hf
        exact (hfail c t hf.1 hf.2.1).trans hf.2.2
      | error e t =>
        rw [hr] at hf
        exact hf
    cases hg : D.good s with
    | false => exact hleft (hx.failed s (Or.inl hg))
    | true =>
      have h := h.resolve_left (by rw [hg]; simp)
      rcases not_fits_cat h with h₁ | ⟨bs, h₁, hfit, h₂⟩
      · exact hleft (hx.failed s (Or.inr h₁))
      · rw [hx.done s bs h₁ hg hfit]
        exact (hy.failed _ (Or.inr h₂)).trans (D.le_advance s bs hg)

/-- A write whose result nobody looks at, and a writer behind it. -/
theorem Emits.seq {x : EStateM ε σ Unit} {o₁ : Option (List UInt8)}
    (hx : D.Emits (fun _ => True) x () o₁) (hy : D.Emits bad y a o₂) :
    D.Emits bad (do x; y) a (Option.cat o₁ o₂) :=
  hx.bind hy fun _ t _ ht => hy.failed t (Or.inl ht)

/-- A writer whose failure is passed on. -/
theorem Emits.branch {x : EStateM ε σ Bool} {c : α} (hx : D.Emits (· = false) x true o₁)
    (hc : bad c) (hy : D.Emits bad y a o₂) :
    D.Emits bad (do if !(← x) then return c else y) a (Option.cat o₁ o₂) :=
  hx.bind hy fun b t hb ht => by
    rw [hb]
    exact ⟨hc, ht, D.le_refl t⟩

/-- A look at the destination in between. -/
theorem Emits.check {c : α} (hc : bad c) (hy : D.Emits bad y a o) :
    D.Emits bad (do if !(D.good (← get)) then return c else y) a o where
  done s bs h hgood hfit := by
    show (if (!D.good s) = true then pure c else y : EStateM ε σ α).run s = _
    rw [hgood]
    exact hy.done s bs h hgood hfit
  failed s h := by
    show D.Failed bad s ((if (!D.good s) = true then pure c else y : EStateM ε σ α).run s)
    cases hg : D.good s with
    | false => exact ⟨hc, hg, D.le_refl s⟩
    | true => exact hy.failed s h

/-- The last look. -/
theorem emits_good : D.Emits (ε := ε) (· = false) (do return D.good (← get)) true (some []) where
  done s bs h hgood _ := by
    cases h
    rw [D.advance_nil]
    show EStateM.Result.ok (D.good s) s = _
    rw [hgood]
  failed s h := by
    have hg : D.good s = false := h.resolve_right fun h => h [] rfl (D.fits_zero s)
    exact ⟨hg, hg, D.le_refl s⟩

/-- A result that is passed on in another form. -/
theorem Emits.map {bad' : β → Prop} {g : β → α} (hx : D.Emits bad' x b o)
    (hg : ∀ c, bad' c → bad (g c)) : D.Emits bad (do return g (← x)) (g b) o where
  done s bs h hgood hfit := by
    rw [EStateM.run_bind, hx.done s bs h hgood hfit]
    rfl
  failed s h := by
    have hf := hx.failed s h
    rw [EStateM.run_bind]
    cases hr : x.run s with
    | ok c t =>
      rw [hr] at hf
      exact ⟨hg c hf.1, hf.2⟩
    | error e t =>
      rw [hr] at hf
      exact hf

/-- A failing exit is one. -/
theorem emits_none {b : α} (h : ∀ s, D.Failed bad s (y.run s)) : D.Emits bad y b none where
  done _ _ h := by cases h
  failed s _ := h s

end Destination
