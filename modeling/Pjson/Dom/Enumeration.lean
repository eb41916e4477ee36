/-
  The order in which an object enumerates its members.

  Objects are hash maps seeded once per process, so the order a loop over one sees is an accident.
  An `Enumeration` is such an accident: it presents every list of members in some order.  Code
  that loops over an object takes an enumeration, and a result that holds for every enumeration
  holds for every seed.
-/
import Pjson.Dom.Value

namespace ByteDance

/-- How objects present their members to a loop. -/
structure Enumeration where
  order : List (Bytes × Pjson) → List (Bytes × Pjson)
  perm : ∀ ms, (order ms).Perm ms

namespace Enumeration

variable (e : Enumeration) {ms : List (Bytes × Pjson)}

theorem mem_order {m : Bytes × Pjson} : m ∈ e.order ms ↔ m ∈ ms := (e.perm ms).mem_iff

/-- The order in which the list has them. -/
def asListed : Enumeration := ⟨id, fun _ => List.Perm.refl _⟩

end Enumeration

end ByteDance
