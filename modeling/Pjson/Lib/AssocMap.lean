/-
  Association lists: an entry in its place, and a map of the values.

  A key that is there splits the list in two (`exists_split`), and the operations on that key change what
  stands between the two parts.  A function on the values passes through all of them.
-/
import Pjson.Lib.Assoc

namespace Assoc

variable {κ α β : Type} [DecidableEq κ]

/-! ## An entry in its place -/

theorem exists_split {k : κ} {a : α} : ∀ {m : List (κ × α)}, find k m = some a →
    ∃ pre post, m = pre ++ (k, a) :: post ∧ k ∉ keys pre
  | (k', a') :: t, h => by
      by_cases hk : k' = k
      · rw [find, if_pos hk, Option.some.injEq] at h
        subst hk h
        exact ⟨[], t, rfl, List.not_mem_nil⟩
      · rw [find, if_neg hk] at h
        obtain ⟨pre, post, rfl, hpre⟩ := exists_split h
        refine ⟨(k', a') :: pre, post, rfl, ?_⟩
        rw [keys_cons, List.mem_cons, not_or]
        exact ⟨Ne.symm hk, hpre⟩

theorem assign_split {k : κ} {a b : α} {post : List (κ × α)} : ∀ {pre : List (κ × α)}, k ∉ keys pre →
    assign k b (pre ++ (k, a) :: post) = pre ++ (k, b) :: post
  | [], _ => by rw [List.nil_append, assign, if_pos rfl, List.nil_append]
  | (k', a') :: pre, h => by
      rw [keys_cons, List.mem_cons, not_or] at h
      rw [List.cons_append, assign, if_neg (Ne.symm h.1), assign_split h.2, List.cons_append]

theorem drop_split {k : κ} {a : α} {post : List (κ × α)} : ∀ {pre : List (κ × α)}, k ∉ keys pre →
    drop k (pre ++ (k, a) :: post) = pre ++ post
  | [], _ => by rw [List.nil_append, drop, if_pos rfl, List.nil_append]
  | (k', a') :: pre, h => by
      rw [keys_cons, List.mem_cons, not_or] at h
      rw [List.cons_append, drop, if_neg (Ne.symm h.1), drop_split h.2, List.cons_append]

/-- Assigning what is there changes nothing. -/
theorem assign_self {k : κ} {a : α} {m : List (κ × α)} (h : find k m = some a) : assign k a m = m := by
  obtain ⟨pre, post, rfl, hpre⟩ := exists_split h
  exact assign_split hpre

/-! ## A map of the values -/

/-- A function on the values. -/
def mapVal (f : α → β) (m : List (κ × α)) : List (κ × β) := m.map fun e => (e.1, f e.2)

omit [DecidableEq κ] in
theorem mapVal_cons (f : α → β) (e : κ × α) (m : List (κ × α)) : mapVal f (e :: m) = (e.1, f e.2) :: mapVal f m := rfl

omit [DecidableEq κ] in
theorem keys_mapVal (f : α → β) (m : List (κ × α)) : keys (mapVal f m) = keys m := by
  rw [keys, mapVal, List.map_map]
  rfl

theorem find_mapVal {k : κ} (f : α → β) : ∀ (m : List (κ × α)), find k (mapVal f m) = (find k m).map f
  | [] => rfl
  | (k', a) :: t => by
      rw [mapVal_cons, find, find, find_mapVal f t]
      split <;> rfl

theorem assign_mapVal {k : κ} {a : α} (f : α → β) : ∀ (m : List (κ × α)),
    mapVal f (assign k a m) = assign k (f a) (mapVal f m)
  | [] => rfl
  | (k', a') :: t => by
      rw [mapVal_cons, assign, assign]
      split
      · rfl
      · rw [mapVal_cons, assign_mapVal f t]

theorem drop_mapVal {k : κ} (f : α → β) : ∀ (m : List (κ × α)), mapVal f (drop k m) = drop k (mapVal f m)
  | [] => rfl
  | (k', a') :: t => by
      rw [mapVal_cons, drop, drop]
      split
      · rfl
      · rw [mapVal_cons, drop_mapVal f t]

end Assoc
