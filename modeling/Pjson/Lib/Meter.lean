/-
  What a metered program may spend.

  A program over a state that counts what has been used stops when a payment would take the count
  past a limit.  To say that it stops for no other reason, one must know what it could have paid in
  all, and a loop over a stack does not know that: each turn pays for its item and leaves more items
  to be paid for.  The way out is to count the debt.  `Pays M x n rest` says that `x`, worth `n`,
  has spent at most what `n` exceeds the value `rest` of what it leaves to do; and that when it
  breaks off for want of credit, `n` itself did not fit.

  `Pays` is closed under sequence (`bind`), and under the loop of a `Visitor` whose turns are worth
  what their items cost (`drain`): the stack is the debt.
-/
import Pjson.Lib.WorkList

open Run

/-- A count, its limit, and the exits of a program: those that have nothing to do with the count,
    and those it takes when the limit is reached. -/
structure Meter (ε σ : Type) where
  used : σ → Nat
  limit : σ → Nat
  early : ε → Prop
  broke : ε → σ → Prop

variable {ε σ α β : Type} (M : Meter ε σ)

/-- `x` is worth `n`: what it spends and what it leaves to be spent is no more, and it goes broke
    only where `n` does not fit. -/
def Pays (x : EStateM ε σ α) (n : Nat) (rest : α → Nat) : Prop :=
  ∀ s, Ends x s (fun a t => M.limit t = M.limit s ∧ M.used t + rest a ≤ M.used s + n)
    fun e t => M.early e ∨ M.broke e t ∧ M.limit s < M.used s + n

namespace Pays

variable {M} {n m : Nat} {rest : α → Nat}

theorem pure {a : α} (h : rest a ≤ n) : Pays M (Pure.pure a) n rest := fun _ =>
  ⟨rfl, Nat.add_le_add_left h _⟩

/-- An exit that has nothing to do with the count is worth anything. -/
theorem throw {e : ε} (h : M.early e) : Pays M (MonadExcept.throw e : EStateM ε σ α) n rest :=
  fun _ => Or.inl h

/-- What the first part leaves is what the second is worth. -/
theorem bind {x : EStateM ε σ α} {f : α → EStateM ε σ β} {left : β → Nat} (hx : Pays M x n rest)
    (hf : ∀ a, Pays M (f a) (rest a) left) : Pays M (x >>= f) n left := by
  intro s
  rw [ends_bind]
  refine (hx s).mono ?_ fun _ _ h => h
  rintro a t ⟨hlimit, hused⟩
  refine (hf a t).mono ?_ ?_
  · rintro b u ⟨hlimit', hused'⟩
    exact ⟨hlimit'.trans hlimit, by omega⟩
  · rintro e u (he | ⟨he, hover⟩)
    · exact Or.inl he
    · exact Or.inr ⟨he, by omega⟩

theorem mono {x : EStateM ε σ α} (h : Pays M x n rest) (hle : n ≤ m) : Pays M x m rest := by
  refine fun s => (h s).mono ?_ ?_
  · rintro a t ⟨hlimit, hused⟩
    exact ⟨hlimit, by omega⟩
  · rintro e t (he | ⟨he, hover⟩)
    · exact Or.inl he
    · exact Or.inr ⟨he, by omega⟩

/-- What is not spent here may be spent later. -/
theorem frame {x : EStateM ε σ α} (h : Pays M x n rest) (k : Nat) :
    Pays M x (n + k) fun a => rest a + k := by
  refine fun s => (h s).mono ?_ ?_
  · rintro a t ⟨hlimit, hused⟩
    dsimp only
    exact ⟨hlimit, by omega⟩
  · rintro e t (he | ⟨he, hover⟩)
    · exact Or.inl he
    · exact Or.inr ⟨he, by omega⟩

theorem ite {c : Prop} [Decidable c] {x y : EStateM ε σ α} (hx : c → Pays M x n rest)
    (hy : ¬ c → Pays M y n rest) : Pays M (if c then x else y) n rest := by
  split
  · exact hx ‹c›
  · exact hy ‹¬ c›

/-- **The loop** is worth what is on its stack. -/
theorem drain (V : Visitor ε σ α) (cost : α → Nat)
    (hvisit : ∀ a, Pays M (V.visit a) (cost a) fun pushed => (pushed.map cost).sum) (work : List α) :
    Pays M (V.drain work) (work.map cost).sum fun _ => 0 := by
  intro s
  refine (V.drain_ends (s := s)
    (J := fun left t => M.limit t = M.limit s ∧
      M.used t + (left.map cost).sum ≤ M.used s + (work.map cost).sum)
    (R := fun e t => M.early e ∨ M.broke e t ∧ M.limit s < M.used s + (work.map cost).sum)
    ?_ ⟨rfl, le_rfl⟩).mono (fun _ _ h => h) fun _ _ h => h
  rintro a left t ⟨hlimit, hused⟩
  rw [List.map_cons, List.sum_cons] at hused
  refine (hvisit a t).mono ?_ ?_
  · rintro pushed u ⟨hlimit', hused'⟩
    dsimp only at hused'
    -- the item is exchanged for what is pushed in its place
    rw [List.map_append, List.sum_append, List.map_reverse, List.sum_reverse]
    exact ⟨hlimit'.trans hlimit, by omega⟩
  · rintro e u (he | ⟨he, hover⟩)
    · exact Or.inl he
    · exact Or.inr ⟨he, by omega⟩

end Pays
