/-
  Reading a run of a stateful program backwards.

  A fallible program over a state is an `EStateM`; `Ok x s a t` says that `x`, started in `s`,
  returns `a` and leaves `t`.  The lemmas take such a fact about a composed program apart into
  facts about its parts (`ok_bind`, `ok_pure`, `ok_bind_get`, …), so that a soundness proof peels a
  do-block off line by line, and put it together again from them (`Ok.bind`).  `onError` runs
  clean-up code on the failing exit only, which is how the balance of a counter is kept on every
  return.

  `Ends x s Q R` reads a run forwards: from `s`, a normal end satisfies `Q` and a failing one `R`.
  Its rules follow the syntax of the program, so they simplify it to facts about its steps.

  `Keeps I x` is the same for an invariant: however `x` ends, `I` holds if it did before.  `Upholds I x`
  asks for it only of the runs that return.
-/
import Mathlib

namespace Run

variable {ε σ α β : Type}

/-- `x` started in `s` returns `a` in state `t`. -/
def Ok (x : EStateM ε σ α) (s : σ) (a : α) (t : σ) : Prop := x.run s = .ok a t

/-- `x`, with `cleanup` applied to the state of a failing exit. -/
def onError (x : EStateM ε σ α) (cleanup : σ → σ) : EStateM ε σ α := fun s =>
  match x s with
  | .ok a t => .ok a t
  | .error e t => .error e (cleanup t)

/-- A value is returned from where one is. -/
theorem ok_pure {a b : α} {s t : σ} : Ok (pure a : EStateM ε σ α) s b t ↔ b = a ∧ t = s := by
  show EStateM.Result.ok a s = .ok b t ↔ _
  rw [EStateM.Result.ok.injEq]
  exact ⟨fun ⟨h, h'⟩ => ⟨h.symm, h'.symm⟩, fun ⟨h, h'⟩ => ⟨h.symm, h'.symm⟩⟩

/-- Two programs return if the one does, and the other from there. -/
theorem ok_bind {x : EStateM ε σ α} {f : α → EStateM ε σ β} {s t : σ} {b : β} :
    Ok (x >>= f) s b t ↔ ∃ a u, Ok x s a u ∧ Ok (f a) u b t := by
  unfold Ok
  rw [EStateM.run_bind]
  cases hx : x.run s with
  | ok a u =>
    constructor
    · exact fun h => ⟨a, u, rfl, h⟩
    · rintro ⟨a', u', hau, h⟩
      cases hau
      exact h
  | error e u =>
    constructor
    · intro h; cases h
    · rintro ⟨_, _, hau, _⟩; cases hau

/-- A state that is set is the one returned from. -/
theorem ok_set {s t v : σ} {u : PUnit} : Ok (set v : EStateM ε σ PUnit) s u t ↔ t = v := by
  show EStateM.Result.ok PUnit.unit v = .ok u t ↔ _
  rw [EStateM.Result.ok.injEq]
  exact ⟨fun h => h.2.symm, fun h => ⟨rfl, h.symm⟩⟩

/-- So is one that is computed. -/
theorem ok_modify {s t : σ} {f : σ → σ} {u : PUnit} :
    Ok (modify f : EStateM ε σ PUnit) s u t ↔ t = f s := by
  show EStateM.Result.ok PUnit.unit (f s) = .ok u t ↔ _
  rw [EStateM.Result.ok.injEq]
  exact ⟨fun h => h.2.symm, fun h => ⟨rfl, h.symm⟩⟩

/-- What throws does not return. -/
theorem not_ok_throw {e : ε} {s t : σ} {a : α} : ¬ Ok (throw e : EStateM ε σ α) s a t := by
  intro h
  cases h

/-- A clean-up on the way out of an exception does not matter to what returns. -/
theorem ok_onError {x : EStateM ε σ α} {c : σ → σ} {s t : σ} {a : α} :
    Ok (onError x c) s a t ↔ Ok x s a t := by
  show (match x.run s with
    | .ok a t => EStateM.Result.ok a t
    | .error e t => .error e (c t)) = .ok a t ↔ x.run s = .ok a t
  cases x.run s <;> simp

/-- A handler that never returns leaves only the runs that need none. -/
theorem ok_tryCatch {x : EStateM ε σ α} {handle : ε → EStateM ε σ α} {s t : σ} {a : α}
    (h : ∀ e u, ¬ Ok (handle e) u a t) : Ok (tryCatch x handle) s a t ↔ Ok x s a t := by
  unfold Ok
  cases hx : x.run s with
  | ok b u =>
    have hrun : (tryCatch x handle).run s = .ok b u := by
      show EStateM.tryCatch x handle s = _
      unfold EStateM.tryCatch
      rw [show x s = .ok b u from hx]
    rw [hrun]
  | error e u =>
    have hrun : (tryCatch x handle).run s = (handle e).run u := by
      show EStateM.tryCatch x handle s = _
      unfold EStateM.tryCatch
      rw [show x s = .error e u from hx]
      rfl
    rw [hrun]
    exact ⟨fun hh => absurd hh (h e u), fun hh => by cases hh⟩

/-! A step that cannot fail disappears from the front of a sequence. -/

theorem ok_bind_get {f : σ → EStateM ε σ β} {s t : σ} {b : β} :
    Ok (get >>= f) s b t ↔ Ok (f s) s b t := Iff.rfl

theorem ok_bind_set {f : PUnit → EStateM ε σ β} {s t v : σ} {b : β} :
    Ok (set v >>= f) s b t ↔ Ok (f ⟨⟩) v b t := Iff.rfl

theorem ok_bind_modify {f : PUnit → EStateM ε σ β} {g : σ → σ} {s t : σ} {b : β} :
    Ok (modify g >>= f) s b t ↔ Ok (f ⟨⟩) (g s) b t := Iff.rfl

/-- Running the parts in sequence. -/
theorem Ok.bind {x : EStateM ε σ α} {f : α → EStateM ε σ β} {s t u : σ} {a : α} {b : β}
    (hx : Ok x s a u) (hf : Ok (f a) u b t) : Ok (x >>= f) s b t := ok_bind.mpr ⟨a, u, hx, hf⟩

/-- A program has one result. -/
theorem Ok.unique {x : EStateM ε σ α} {s t u : σ} {a b : α} (h : Ok x s a t) (h' : Ok x s b u) :
    a = b ∧ t = u := by
  unfold Ok at h h'
  rw [h] at h'
  cases h'
  exact ⟨rfl, rfl⟩

/-! ## Postconditions -/

/-- From `s` the program ends normally in `Q` or fails in `R`. -/
def Ends (x : EStateM ε σ α) (s : σ) (Q : α → σ → Prop) (R : ε → σ → Prop) : Prop :=
  match x.run s with
  | .ok a t => Q a t
  | .error e t => R e t

variable {Q Q' : α → σ → Prop} {P : β → σ → Prop} {R R' : ε → σ → Prop} {s : σ}

@[simp] theorem ends_pure {a : α} : Ends (pure a : EStateM ε σ α) s Q R ↔ Q a s := Iff.rfl

@[simp] theorem ends_throw {e : ε} : Ends (throw e : EStateM ε σ α) s Q R ↔ R e s := Iff.rfl

/-- The one ends where the other starts, or throws for both. -/
@[simp] theorem ends_bind {x : EStateM ε σ α} {f : α → EStateM ε σ β} :
    Ends (x >>= f) s P R ↔ Ends x s (fun a t => Ends (f a) t P R) R := by
  unfold Ends
  rw [EStateM.run_bind]
  cases x.run s <;> exact Iff.rfl

@[simp] theorem ends_get {T : σ → σ → Prop} : Ends (get : EStateM ε σ σ) s T R ↔ T s s := Iff.rfl

@[simp] theorem ends_set {T : PUnit → σ → Prop} {v : σ} :
    Ends (set v : EStateM ε σ PUnit) s T R ↔ T ⟨⟩ v := Iff.rfl

@[simp] theorem ends_modify {T : PUnit → σ → Prop} {f : σ → σ} :
    Ends (modify f : EStateM ε σ PUnit) s T R ↔ T ⟨⟩ (f s) := Iff.rfl

/-- The condition is known in either branch. -/
theorem ends_ite {c : Prop} [Decidable c] {x y : EStateM ε σ α} :
    Ends (if c then x else y) s Q R ↔ (c → Ends x s Q R) ∧ (¬ c → Ends y s Q R) := by
  by_cases h : c <;> simp [h]

/-- The clean-up comes before the postcondition of a failure. -/
@[simp] theorem ends_onError {x : EStateM ε σ α} {c : σ → σ} :
    Ends (onError x c) s Q R ↔ Ends x s Q fun e t => R e (c t) := by
  unfold Ends
  show (match (match x.run s with
    | .ok a t => EStateM.Result.ok a t
    | .error e t => .error e (c t)) with
    | .ok a t => Q a t
    | .error e t => R e t) ↔ _
  cases x.run s <;> exact Iff.rfl

/-- The same program with its failures renamed. -/
@[simp] theorem ends_adaptExcept {δ : Type} {x : EStateM ε σ α} {f : ε → δ}
    {T : δ → σ → Prop} : Ends (EStateM.adaptExcept f x) s Q T ↔ Ends x s Q (fun e t => T (f e) t) := by
  unfold Ends
  rw [EStateM.run_adaptExcept]
  cases x.run s <;> exact Iff.rfl

/-- A handler starts in the state of the failure. -/
theorem ends_tryCatch {x : EStateM ε σ α} {handle : ε → EStateM ε σ α} :
    Ends (tryCatch x handle) s Q R ↔ Ends x s Q fun e t => Ends (handle e) t Q R := by
  unfold Ends EStateM.run
  show (match EStateM.tryCatch x handle s with
    | .ok a t => Q a t
    | .error e t => R e t) ↔ _
  unfold EStateM.tryCatch
  cases x s <;> exact Iff.rfl

/-- Every program ends somehow. -/
theorem ends_true (x : EStateM ε σ α) : Ends x s (fun _ _ => True) (fun _ _ => True) := by
  unfold Ends
  cases x.run s <;> trivial

/-- Both postconditions may be weakened. -/
theorem Ends.mono {x : EStateM ε σ α} (h : Ends x s Q R) (hQ : ∀ a t, Q a t → Q' a t)
    (hR : ∀ e t, R e t → R' e t) : Ends x s Q' R' := by
  unfold Ends at *
  cases hx : x.run s with
  | ok a t =>
    rw [hx] at h
    exact hQ a t h
  | error e t =>
    rw [hx] at h
    exact hR e t h

/-- Two postconditions of one run. -/
theorem Ends.and {x : EStateM ε σ α} (h : Ends x s Q R) (h' : Ends x s Q' R') :
    Ends x s (fun a t => Q a t ∧ Q' a t) fun e t => R e t ∧ R' e t := by
  unfold Ends at *
  cases hx : x.run s with
  | ok a t =>
    rw [hx] at h h'
    exact ⟨h, h'⟩
  | error e t =>
    rw [hx] at h h'
    exact ⟨h, h'⟩

/-- What a run that returns has satisfied. -/
theorem Ends.ok {x : EStateM ε σ α} {a : α} {t : σ} (h : Ends x s Q R) (hx : Ok x s a t) : Q a t := by
  unfold Ends at h
  rw [show x.run s = .ok a t from hx] at h
  exact h

/-! ## Invariants -/

/-- The program keeps the invariant, on every exit. -/
def Keeps (I : σ → Prop) (x : EStateM ε σ α) : Prop :=
  ∀ s, I s → Ends x s (fun _ t => I t) fun _ t => I t

namespace Keeps

variable {I : σ → Prop}

theorem pure (a : α) : Keeps I (Pure.pure a : EStateM ε σ α) := fun _ h => h

theorem throw (e : ε) : Keeps I (MonadExcept.throw e : EStateM ε σ α) := fun _ h => h

/-- A change of the state that the invariant survives. -/
theorem modify {f : σ → σ} (h : ∀ s, I s → I (f s)) :
    Keeps I (modify f : EStateM ε σ PUnit) := h

/-- Two programs that keep it, one after the other. -/
theorem bind {x : EStateM ε σ α} {f : α → EStateM ε σ β} (hx : Keeps I x)
    (hf : ∀ a, Keeps I (f a)) : Keeps I (x >>= f) := fun s hs =>
  ends_bind.mpr ((hx s hs).mono (fun a t ht => hf a t ht) fun _ _ ht => ht)

/-- What a program reads of its state satisfies the invariant. -/
theorem get_bind {f : σ → EStateM ε σ β} (hf : ∀ s, I s → Keeps I (f s)) :
    Keeps I (get >>= f) := fun s hs => hf s hs s hs

/-- Both branches keep it. -/
theorem ite {c : Prop} [Decidable c] {x y : EStateM ε σ α} (hx : Keeps I x) (hy : Keeps I y) :
    Keeps I (if c then x else y) := by
  split
  · exact hx
  · exact hy

/-- A program that goes on by whether there is a result. -/
theorem bindOption {x : EStateM ε σ (Option α)} {f : Option α → EStateM ε σ β} (hx : Keeps I x)
    (hnone : Keeps I (f none)) (hsome : ∀ a, Keeps I (f (some a))) : Keeps I (x >>= f) := by
  refine hx.bind fun o => ?_
  cases o with
  | none => exact hnone
  | some a => exact hsome a

/-- A handler starts in a state that the program has left, and so with the invariant. -/
theorem tryCatch {x : EStateM ε σ α} {handle : ε → EStateM ε σ α} (hx : Keeps I x)
    (hh : ∀ e, Keeps I (handle e)) : Keeps I (tryCatch x handle) := by
  intro s hs
  have h := hx s hs
  unfold Ends EStateM.run at h ⊢
  show match EStateM.tryCatch x handle s with
    | .ok _ t => I t
    | .error _ t => I t
  unfold EStateM.tryCatch
  cases hr : x s with
  | ok a t =>
    rw [hr] at h
    exact h
  | error e t =>
    rw [hr] at h
    exact hh e t h

end Keeps

/-- The program keeps the invariant whenever it returns. -/
def Upholds (I : σ → Prop) (x : EStateM ε σ α) : Prop :=
  ∀ s, I s → Ends x s (fun _ t => I t) fun _ _ => True

namespace Upholds

variable {I : σ → Prop}

theorem pure (a : α) : Upholds I (Pure.pure a : EStateM ε σ α) := fun _ h => h

theorem throw (e : ε) : Upholds I (MonadExcept.throw e : EStateM ε σ α) := fun _ _ => trivial

/-- A change of the state that the invariant survives. -/
theorem modify {f : σ → σ} (h : ∀ s, I s → I (f s)) :
    Upholds I (modify f : EStateM ε σ PUnit) := h

/-- Two programs that uphold it, one after the other. -/
theorem bind {x : EStateM ε σ α} {f : α → EStateM ε σ β} (hx : Upholds I x)
    (hf : ∀ a, Upholds I (f a)) : Upholds I (x >>= f) := fun s hs =>
  ends_bind.mpr ((hx s hs).mono (fun a t ht => hf a t ht) fun _ _ _ => trivial)

/-- What a program reads of its state satisfies the invariant. -/
theorem get_bind {f : σ → EStateM ε σ β} (hf : ∀ s, I s → Upholds I (f s)) :
    Upholds I (get >>= f) := fun s hs => hf s hs s hs

/-- Both branches uphold it. -/
theorem ite {c : Prop} [Decidable c] {x y : EStateM ε σ α} (hx : Upholds I x) (hy : Upholds I y) :
    Upholds I (if c then x else y) := by
  split
  · exact hx
  · exact hy

/-- A handler that throws in the end adds no run that returns. -/
theorem rethrow {x : EStateM ε σ α} {cleanup : EStateM ε σ PUnit} (hx : Upholds I x) :
    Upholds I (tryCatch x fun e => do
      cleanup
      MonadExcept.throw e) := by
  intro s hs
  rw [ends_tryCatch]
  refine (hx s hs).mono (fun _ _ ht => ht) fun e t _ => ?_
  rw [ends_bind]
  exact (ends_true cleanup).mono (fun _ _ _ => trivial) fun _ _ _ => trivial

end Upholds

end Run
