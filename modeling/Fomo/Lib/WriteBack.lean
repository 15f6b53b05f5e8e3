import Fomo.Lib.MostRecent
import Mathlib.Logic.Function.Basic

/-!
# A write-back cache in the order of use

The items least recent first, and a mark for what was written since it came in. An access that
finds no room drops the first item, and the mark says whether it has to be written back then.
-/
namespace Fomo.Lib

variable {α : Type*} [DecidableEq α]

structure WriteBack (α : Type*) where
  items : List α := []
  mark : α → Bool := fun _ => false

namespace WriteBack

def access (k : Nat) (m : WriteBack α) (a : α) (write : Bool) : WriteBack α where
  items := trim k (m.items.erase a ++ [a])
  mark := Function.update m.mark a (decide (a ∈ m.items) && m.mark a || write)

/-- The access for `a` drops a marked item from a cache of `k` items. -/
def WritesBack (k : Nat) (m : WriteBack α) (a : α) : Prop :=
  a ∉ m.items ∧ m.items.length = k ∧ m.items.head?.any m.mark = true

instance (k : Nat) (m : WriteBack α) (a : α) : Decidable (m.WritesBack k a) :=
  inferInstanceAs (Decidable (_ ∧ _ ∧ _))

variable {k : Nat} {m : WriteBack α} {a b : α} {write : Bool}

theorem mark_access_self :
    (m.access k a write).mark a = (decide (a ∈ m.items) && m.mark a || write) :=
  Function.update_self ..

theorem mark_access_of_ne (h : b ≠ a) : (m.access k a write).mark b = m.mark b :=
  Function.update_of_ne h ..

/-- The items are the most recent ones. -/
theorem items_access {l : List α} (h : m.items = mostRecent k l) :
    (m.access k a write).items = mostRecent k (l ++ [a]) := by
  rw [access, h, mostRecent_concat_trim]

end WriteBack

end Fomo.Lib
