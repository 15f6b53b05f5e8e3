import Mathlib.Data.List.Nodup
import Mathlib.Data.List.Pairwise
import Mathlib.Logic.Function.Basic

/-!
# Lists in order of last touch

A clock runs beside a list, and `last` says when each item was last touched. Moving
an item to the end when it is touched keeps the list in order of last touch, so the
head is the item that was not touched for longest.
-/
namespace Fomo.Lib

variable {α : Type*} [DecidableEq α] {last : α → Nat} {now : Nat} {l l' : List α} {a : α}

/-- `l` lists its items by last touch, oldest first, all before `now`. -/
structure ByAge (last : α → Nat) (now : Nat) (l : List α) : Prop where
  sorted : l.Pairwise fun a b => last a < last b
  past : ∀ a ∈ l, last a < now

omit [DecidableEq α] in
theorem ByAge.nil : ByAge last now [] := ⟨.nil, by simp⟩

omit [DecidableEq α] in
/-- Dropping items and letting time pass. -/
theorem ByAge.sublist (h : ByAge last now l) (hs : l'.Sublist l) : ByAge last (now + 1) l' :=
  ⟨h.sorted.sublist hs, fun a ha => Nat.lt_succ_of_lt (h.past a (hs.subset ha))⟩

/-- A touch now moves the item to the end. -/
theorem ByAge.touch (h : ByAge last now l) (hl : l.Nodup) (a : α) :
    ByAge (Function.update last a now) (now + 1) (l.erase a ++ [a]) := by
  have hne : ∀ x ∈ l.erase a, x ≠ a ∧ last x < now := fun x hx =>
    ⟨(hl.mem_erase_iff.mp hx).1, h.past x (List.mem_of_mem_erase hx)⟩
  refine ⟨List.pairwise_append.mpr ⟨?_, List.pairwise_singleton _ _, ?_⟩, ?_⟩
  · refine (h.sorted.sublist List.erase_sublist).imp_of_mem fun {x y} hx hy hxy => ?_
    rwa [Function.update_of_ne (hne x hx).1, Function.update_of_ne (hne y hy).1]
  · intro x hx y hy
    obtain rfl := List.mem_singleton.mp hy
    rw [Function.update_self, Function.update_of_ne (hne x hx).1]
    exact (hne x hx).2
  · intro x hx
    rcases List.mem_append.mp hx with hx | hx
    · rw [Function.update_of_ne (hne x hx).1]
      exact Nat.lt_succ_of_lt (hne x hx).2
    · obtain rfl := List.mem_singleton.mp hx
      rw [Function.update_self]
      exact Nat.lt_succ_self now

omit [DecidableEq α] in
/-- The head was touched before every other item. -/
theorem ByAge.head_lt (h : ByAge last now (a :: l)) {b : α} (hb : b ∈ a :: l) (hne : b ≠ a) :
    last a < last b :=
  List.rel_of_pairwise_cons h.sorted ((List.mem_cons.mp hb).resolve_left hne)

end Fomo.Lib
