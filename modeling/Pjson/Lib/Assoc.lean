/-
  Association lists with at most one entry a key: the finite maps that a program enumerates.

  The list order is the enumeration order, so two lists with the same entries in another order
  are two states of the same map; everything said about lookups is order-free.  `assign` keeps
  the place of an existing key and puts a new one at the end, `drop` removes a key and `modify`
  changes the value at one.  The lemmas are the usual laws of a map (`find_assign`, `find_drop`,
  `find_modify`), what the operations do to the list of keys, and that none of them can make a key
  occur twice.
-/
import Mathlib

namespace Assoc

variable {κ α : Type}

/-- The keys, in enumeration order. -/
def keys (m : List (κ × α)) : List κ := m.map Prod.fst

/-- No key occurs twice. -/
def UniqueKeys (m : List (κ × α)) : Prop := (keys m).Nodup

@[simp] theorem keys_nil : keys ([] : List (κ × α)) = [] := rfl

@[simp] theorem keys_cons (e : κ × α) (m : List (κ × α)) : keys (e :: m) = e.1 :: keys m := rfl

theorem uniqueKeys_nil : UniqueKeys ([] : List (κ × α)) := List.nodup_nil

theorem uniqueKeys_cons {e : κ × α} {m : List (κ × α)} :
    UniqueKeys (e :: m) ↔ e.1 ∉ keys m ∧ UniqueKeys m := List.nodup_cons

variable [DecidableEq κ]

/-- The value at key `k`, if there is one. -/
def find (k : κ) : List (κ × α) → Option α
  | [] => none
  | (k', a) :: t => if k' = k then some a else find k t

/-- Replaces the value at `k` where it stands, or appends a new entry. -/
def assign (k : κ) (a : α) : List (κ × α) → List (κ × α)
  | [] => [(k, a)]
  | (k', a') :: t => if k' = k then (k', a) :: t else (k', a') :: assign k a t

/-- Removes the entry at `k`, if there is one. -/
def drop (k : κ) : List (κ × α) → List (κ × α)
  | [] => []
  | (k', a') :: t => if k' = k then t else (k', a') :: drop k t

/-- Changes the value at `k`, if there is one. -/
def modify (k : κ) (f : α → α) : List (κ × α) → List (κ × α)
  | [] => []
  | (k', a) :: t => if k' = k then (k', f a) :: t else (k', a) :: modify k f t

/-- Whether a key is among others, by comparing it with each. -/
instance decidableMem (k : κ) (ks : List κ) : Decidable (k ∈ ks) := inferInstance

instance (m : List (κ × α)) : Decidable (UniqueKeys m) :=
  inferInstanceAs (Decidable (keys m).Nodup)

@[simp] theorem find_nil (k : κ) : find k ([] : List (κ × α)) = none := rfl

/-! ## Lookups and keys -/

/-- A lookup fails where there is no such key. -/
theorem find_eq_none_iff {k : κ} : ∀ {m : List (κ × α)}, find k m = none ↔ k ∉ keys m
  | [] => by simp
  | (k', a) :: t => by
      by_cases h : k' = k
      · simp [find, h]
      · rw [find, if_neg h, find_eq_none_iff, keys_cons, List.mem_cons]
        exact ⟨fun hn hc => hc.elim (fun he => h he.symm) hn, fun hn hm => hn (Or.inr hm)⟩

/-- And succeeds where there is. -/
theorem find_isSome_iff {k : κ} {m : List (κ × α)} : (find k m).isSome ↔ k ∈ keys m := by
  rw [Option.isSome_iff_ne_none, Ne, find_eq_none_iff, not_not]

/-- What is found is an entry. -/
theorem mem_of_find {k : κ} {a : α} : ∀ {m : List (κ × α)}, find k m = some a → (k, a) ∈ m
  | (k', a') :: t, h => by
      by_cases hk : k' = k
      · rw [find, if_pos hk] at h
        cases h
        exact hk ▸ List.mem_cons_self ..
      · rw [find, if_neg hk] at h
        exact List.mem_cons_of_mem _ (mem_of_find h)

/-- Among unique keys every entry is found. -/
theorem find_of_mem {k : κ} {a : α} :
    ∀ {m : List (κ × α)}, UniqueKeys m → (k, a) ∈ m → find k m = some a
  | (k', a') :: t, hu, h => by
      obtain ⟨hn, hu'⟩ := uniqueKeys_cons.mp hu
      rcases List.mem_cons.mp h with he | ht
      · cases he
        rw [find, if_pos rfl]
      · have hk : k' ≠ k := by
          rintro rfl
          exact hn (List.mem_map.mpr ⟨_, ht, rfl⟩)
        rw [find, if_neg hk]
        exact find_of_mem hu' ht

/-! ## Assigning -/

/-- An assignment changes the lookup of its key alone. -/
theorem find_assign {k k' : κ} {a : α} : ∀ (m : List (κ × α)),
    find k' (assign k a m) = if k' = k then some a else find k' m
  | [] => by
      by_cases h : k = k'
      · simp [assign, find, h]
      · simp [assign, find, h, Ne.symm h]
  | (k₁, a₁) :: t => by
      by_cases h₁ : k₁ = k
      · rw [assign, if_pos h₁]
        subst h₁
        by_cases h : k' = k₁
        · simp [find, h]
        · rw [find, if_neg (Ne.symm h), if_neg h, find, if_neg (Ne.symm h)]
      · rw [assign, if_neg h₁, find, find_assign t, find]
        by_cases h : k₁ = k'
        · subst h
          rw [if_pos rfl, if_pos rfl, if_neg h₁]
        · rw [if_neg h, if_neg h]

/-- Assigning a key the map has does not change the keys. -/
theorem keys_assign_of_mem {k : κ} {a : α} :
    ∀ {m : List (κ × α)}, k ∈ keys m → keys (assign k a m) = keys m
  | (k₁, a₁) :: t, h => by
      by_cases h₁ : k₁ = k
      · rw [assign, if_pos h₁, keys_cons, keys_cons]
      · rw [assign, if_neg h₁, keys_cons, keys_cons,
          keys_assign_of_mem ((List.mem_cons.mp h).resolve_left (Ne.symm h₁))]

/-- Assigning a new key appends it. -/
theorem assign_of_notMem {k : κ} {a : α} :
    ∀ {m : List (κ × α)}, k ∉ keys m → assign k a m = m ++ [(k, a)]
  | [], _ => rfl
  | (k₁, a₁) :: t, h => by
      rw [keys_cons, List.mem_cons, not_or] at h
      rw [assign, if_neg (Ne.symm h.1), assign_of_notMem h.2, List.cons_append]

/-- And adds its key at most. -/
theorem mem_keys_assign {k k' : κ} {a : α} {m : List (κ × α)} :
    k' ∈ keys (assign k a m) ↔ k' = k ∨ k' ∈ keys m := by
  rw [← find_isSome_iff, find_assign, ← find_isSome_iff]
  by_cases h : k' = k <;> simp [h]

/-- Keys stay unique when one is assigned. -/
theorem UniqueKeys.assign {k : κ} {a : α} {m : List (κ × α)} (h : UniqueKeys m) :
    UniqueKeys (assign k a m) := by
  by_cases hk : k ∈ keys m
  · rw [UniqueKeys, keys_assign_of_mem hk]
    exact h
  · rw [assign_of_notMem hk, UniqueKeys, keys, List.map_append]
    exact List.Nodup.append h (List.nodup_singleton k)
      (fun x hx hx' => by rw [List.mem_singleton.mp hx'] at hx; exact hk hx)

/-- An entry behind an assignment is the new one or an old one. -/
theorem mem_assign {k : κ} {a : α} {e : κ × α} :
    ∀ {m : List (κ × α)}, e ∈ assign k a m → e = (k, a) ∨ e ∈ m
  | [], h => Or.inl (List.mem_singleton.mp h)
  | (k₁, a₁) :: t, h => by
      by_cases h₁ : k₁ = k
      · rw [assign, if_pos h₁] at h
        rcases List.mem_cons.mp h with he | ht
        · exact Or.inl (h₁ ▸ he)
        · exact Or.inr (List.mem_cons_of_mem _ ht)
      · rw [assign, if_neg h₁] at h
        rcases List.mem_cons.mp h with he | ht
        · exact Or.inr (he ▸ List.mem_cons_self ..)
        · exact (mem_assign ht).imp_right (List.mem_cons_of_mem _)

/-! ## Dropping -/

/-- A removal takes out a key at most. -/
theorem keys_drop_sublist (k : κ) : ∀ (m : List (κ × α)), (keys (drop k m)).Sublist (keys m)
  | [] => List.Sublist.slnil
  | (k₁, a₁) :: t => by
      by_cases h₁ : k₁ = k
      · rw [drop, if_pos h₁]
        exact List.sublist_cons_self _ _
      · rw [drop, if_neg h₁]
        exact (keys_drop_sublist k t).cons_cons k₁

/-- Keys stay unique when one is removed. -/
theorem UniqueKeys.drop {k : κ} {m : List (κ × α)} (h : UniqueKeys m) : UniqueKeys (drop k m) :=
  List.Nodup.sublist (keys_drop_sublist k m) h

/-- An entry behind a removal is an old one. -/
theorem mem_drop {k : κ} {e : κ × α} : ∀ {m : List (κ × α)}, e ∈ drop k m → e ∈ m
  | (k₁, a₁) :: t, h => by
      by_cases h₁ : k₁ = k
      · rw [drop, if_pos h₁] at h
        exact List.mem_cons_of_mem _ h
      · rw [drop, if_neg h₁] at h
        rcases List.mem_cons.mp h with he | ht
        · exact he ▸ List.mem_cons_self ..
        · exact List.mem_cons_of_mem _ (mem_drop ht)

/-- A removal changes the lookup of its key alone, if it is there once. -/
theorem find_drop {k k' : κ} : ∀ {m : List (κ × α)}, UniqueKeys m →
    find k' (drop k m) = if k' = k then none else find k' m
  | [], _ => by simp [drop]
  | (k₁, a₁) :: t, hu => by
      obtain ⟨hn, hu'⟩ := uniqueKeys_cons.mp hu
      by_cases h₁ : k₁ = k
      · rw [drop, if_pos h₁]
        subst h₁
        by_cases h : k' = k₁
        · rw [if_pos h, h, find_eq_none_iff.mpr hn]
        · rw [if_neg h, find, if_neg (Ne.symm h)]
      · rw [drop, if_neg h₁, find, find_drop hu', find]
        by_cases h : k₁ = k'
        · subst h
          rw [if_pos rfl, if_pos rfl, if_neg h₁]
        · rw [if_neg h, if_neg h]

/-! ## Modifying -/

/-- A change of a value leaves the keys. -/
theorem keys_modify (k : κ) (f : α → α) : ∀ (m : List (κ × α)), keys (modify k f m) = keys m
  | [] => rfl
  | (k₁, a₁) :: t => by
      by_cases h₁ : k₁ = k
      · rw [modify, if_pos h₁, keys_cons, keys_cons]
      · rw [modify, if_neg h₁, keys_cons, keys_cons, keys_modify k f t]

/-- So they stay unique. -/
theorem UniqueKeys.modify {k : κ} {f : α → α} {m : List (κ × α)} (h : UniqueKeys m) :
    UniqueKeys (modify k f m) := by
  rw [UniqueKeys, keys_modify]
  exact h

/-- And the lookup of the others. -/
theorem find_modify {k k' : κ} {f : α → α} : ∀ (m : List (κ × α)),
    find k' (modify k f m) = if k' = k then (find k m).map f else find k' m
  | [] => by simp [modify]
  | (k₁, a₁) :: t => by
      by_cases h₁ : k₁ = k
      · rw [modify, if_pos h₁]
        subst h₁
        by_cases h : k' = k₁
        · simp [find, h]
        · rw [find, if_neg (Ne.symm h), if_neg h, find, if_neg (Ne.symm h)]
      · rw [modify, if_neg h₁, find, find_modify t, find, find, if_neg h₁]
        by_cases h : k₁ = k'
        · subst h
          rw [if_pos rfl, if_pos rfl, if_neg h₁]
        · rw [if_neg h, if_neg h]

/-- An entry behind a change is a changed one or an old one. -/
theorem mem_modify {k : κ} {f : α → α} {e : κ × α} :
    ∀ {m : List (κ × α)}, e ∈ modify k f m → (∃ a, (k, a) ∈ m ∧ e = (k, f a)) ∨ e ∈ m
  | (k₁, a₁) :: t, h => by
      by_cases h₁ : k₁ = k
      · rw [modify, if_pos h₁] at h
        rcases List.mem_cons.mp h with he | ht
        · exact Or.inl ⟨a₁, h₁ ▸ List.mem_cons_self .., h₁ ▸ he⟩
        · exact Or.inr (List.mem_cons_of_mem _ ht)
      · rw [modify, if_neg h₁] at h
        rcases List.mem_cons.mp h with he | ht
        · exact Or.inr (he ▸ List.mem_cons_self ..)
        · rcases mem_modify ht with ⟨a, ha, he⟩ | hm
          · exact Or.inl ⟨a, List.mem_cons_of_mem _ ha, he⟩
          · exact Or.inr (List.mem_cons_of_mem _ hm)

end Assoc
