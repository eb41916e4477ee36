/-
  What a comparison of two values may cost.

  The two budgeted comparisons of the library pay alike: one step for every pair they look at, the
  longer of two strings, and for every member of the left object its key and one more.  They stop at
  the first difference, and which one that is depends on the order of the members; `compareWork` is
  what they pay if they do not stop.  It is a sum over the members, so their order does not matter
  to it (`compareWork_object_perm`); of two arrays it is one step and what the pairs of elements cost
  (`compareWork_array`), so a turn of the loop leaves what the pairs it pushes cost.
-/
import Pjson.Dom.Equality

namespace ByteDance

mutual

/-- The work of a comparison that runs to the end. -/
def Pjson.compareWork : Pjson → Pjson → Nat
  | .jsonString s, .jsonString t => 1 + max s.length t.length
  | .jsonArray xs, .jsonArray ys => 1 + Pjson.compareWorkElements xs ys
  | .jsonObject ms, .jsonObject ns => 1 + Pjson.compareWorkMembers ns ms
  | _, _ => 1

def Pjson.compareWorkElements : List Pjson → List Pjson → Nat
  | x :: xs, y :: ys => x.compareWork y + Pjson.compareWorkElements xs ys
  | _, _ => 0

/-- The members of the left object against those of the right one, `ns`. -/
def Pjson.compareWorkMembers (ns : List (Bytes × Pjson)) : List (Bytes × Pjson) → Nat
  | [] => 0
  | (k, x) :: ms => (k.length + 1 + match Assoc.find k ns with
      | none => 0
      | some y => x.compareWork y) + Pjson.compareWorkMembers ns ms

end

/-- The work on one member of the left object. -/
def memberWork (ns : List (Bytes × Pjson)) (m : Bytes × Pjson) : Nat :=
  m.1.length + 1 + match Assoc.find m.1 ns with
    | none => 0
    | some y => m.2.compareWork y

/-- The work on a pair. -/
def pairWork (p : Pair) : Nat := p.1.compareWork p.2

theorem Pjson.one_le_compareWork (l r : Pjson) : 1 ≤ l.compareWork r := by
  cases l <;> cases r <;> simp only [compareWork] <;> omega

theorem Pjson.compareWorkElements_eq_sum : ∀ xs ys : List Pjson,
    compareWorkElements xs ys = ((xs.zip ys).map pairWork).sum
  | [], _ => by rw [compareWorkElements.eq_def]; rfl
  | _ :: _, [] => by rw [compareWorkElements.eq_def]; rfl
  | x :: xs, y :: ys => by
      rw [compareWorkElements, List.zip_cons_cons, List.map_cons, List.sum_cons,
        compareWorkElements_eq_sum xs ys, pairWork]

theorem Pjson.compareWorkMembers_eq_sum (ns : List (Bytes × Pjson)) : ∀ ms : List (Bytes × Pjson),
    compareWorkMembers ns ms = (ms.map (memberWork ns)).sum
  | [] => rfl
  | (k, x) :: ms => by
      rw [compareWorkMembers, compareWorkMembers_eq_sum ns ms, List.map_cons, List.sum_cons]
      rfl

theorem compareWork_array (xs ys : List Pjson) : (Pjson.jsonArray xs).compareWork (.jsonArray ys) =
    1 + ((xs.zip ys).map pairWork).sum := by
  rw [Pjson.compareWork, Pjson.compareWorkElements_eq_sum]

/-- The members may be seen in any order. -/
theorem compareWork_object_perm {seen ms : List (Bytes × Pjson)} (ns : List (Bytes × Pjson))
    (hperm : seen.Perm ms) : (Pjson.jsonObject ms).compareWork (.jsonObject ns) =
      1 + (seen.map (memberWork ns)).sum := by
  rw [Pjson.compareWork, Pjson.compareWorkMembers_eq_sum, (hperm.map _).sum_eq]

end ByteDance
