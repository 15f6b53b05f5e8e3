import Mathlib.Data.Nat.ModEq
import Mathlib.Data.List.DropRight
import Mathlib.Logic.Function.Basic
import Fomo.Lib.BoundedHistory

/-!
# Ring buffers

`size` cells hold a list from the cell `start` on, around the end of the array. Writing
the cell after the last one appends, moving `start` drops the first item. A window that
pushes over a full ring keeps the last items of a history.
-/
namespace Fomo.Lib

variable {α : Type*} {size start i j : Nat} {cells : Nat → α} {l h : List α} {a : α} {k n : Nat}

/-- The cell `i` places after `start`. -/
def slot (size start i : Nat) : Nat := (start + i) % size

theorem slot_zero (h : start < size) : slot size start 0 = start := Nat.mod_eq_of_lt h

theorem slot_lt (h : 0 < size) (start i : Nat) : slot size start i < size := Nat.mod_lt _ h

/-- Moving the start shifts every place by one. -/
theorem slot_slot (size start i : Nat) :
    slot size (slot size start 1) i = slot size start (i + 1) := by
  unfold slot
  rw [Nat.mod_add_mod, Nat.add_assoc, Nat.add_comm 1 i]

theorem slot_succ (size start i : Nat) :
    (slot size start i + 1) % size = slot size start (i + 1) := by
  unfold slot
  rw [Nat.mod_add_mod, Nat.add_assoc]

/-- Places before one revolution are different cells. -/
theorem slot_inj (hi : i < size) (hj : j < size) (h : slot size start i = slot size start j) :
    i = j := by
  have hmod : i ≡ j [MOD size] := Nat.ModEq.add_left_cancel' start h
  exact Nat.ModEq.eq_of_lt_of_lt hmod hi hj

/-- The ring holds `l`. -/
structure Rings (size : Nat) (cells : Nat → α) (start : Nat) (l : List α) : Prop where
  start_lt : start < size
  fits : l.length ≤ size
  contents : ∀ (i : Nat) (hi : i < l.length), cells (slot size start i) = l[i]

theorem rings_nil (cells : Nat → α) (h : start < size) : Rings size cells start [] :=
  ⟨h, Nat.zero_le _, fun i hi => absurd hi (Nat.not_lt_zero i)⟩

theorem Rings.push (hr : Rings size cells start l) (hlt : l.length < size) (a : α) :
    Rings size (Function.update cells (slot size start l.length) a) start (l ++ [a]) := by
  constructor
  · exact hr.start_lt
  · rw [List.length_append, List.length_singleton]
    omega
  · intro i hi
    rw [List.length_append, List.length_singleton] at hi
    by_cases heq : i = l.length
    · subst heq
      simp
    · have hne : slot size start i ≠ slot size start l.length :=
        fun h => heq (slot_inj (by omega) hlt h)
      rw [Function.update_of_ne hne, hr.contents i (by omega),
        List.getElem_append_left (by omega)]

theorem Rings.pop (hr : Rings size cells start (a :: l)) :
    Rings size cells (slot size start 1) l := by
  have hfits := hr.fits
  rw [List.length_cons] at hfits
  constructor
  · exact slot_lt (by omega) _ _
  · omega
  · intro i hi
    rw [slot_slot, hr.contents (i + 1) (by rw [List.length_cons]; omega), List.getElem_cons_succ]

theorem Rings.head (hr : Rings size cells start (a :: l)) : cells start = a := by
  have := hr.contents 0 (by simp)
  rwa [slot_zero hr.start_lt] at this

/-! ## The last items of a history -/

/-- Remembering at most `k` items keeps the last ones of a history. -/
theorem remember_rtake (hk : 0 < k) (hn : n ≤ h.length) (a : α) :
    remember k (h.rtake (min k n)) a = (h ++ [a]).rtake (min k (n + 1)) := by
  have hlen : (h.rtake (min k n)).length = min k n := by
    simp only [List.rtake, List.length_drop]
    omega
  by_cases hfull : k ≤ n
  · rw [remember_of_full (by omega), Nat.min_eq_left hfull, Nat.min_eq_left (by omega)]
    simp only [List.rtake, List.tail_drop, List.length_append, List.length_singleton]
    rw [List.drop_append_of_le_length (by omega)]
    congr 2
    omega
  · rw [remember_of_lt (by omega), Nat.min_eq_right (by omega), Nat.min_eq_right (by omega),
      List.rtake_concat_succ]

end Fomo.Lib
