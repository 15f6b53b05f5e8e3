import Mathlib.Data.List.Nodup

/-!
# A bounded history list

A list of remembered items, oldest first, that never exceeds `k` items: remembering
an item at the bound drops the oldest one. An item stays remembered until `k` other
items have been remembered after it, whatever is forgotten or renamed in between.
-/
namespace Fomo.Lib

variable {α : Type*}

/-- Put `a` at the recent end, dropping the oldest item when the list is full. -/
def remember (k : Nat) (l : List α) (a : α) : List α :=
  (if l.length = k then l.tail else l) ++ [a]

theorem remember_of_lt {k : Nat} {l : List α} (h : l.length < k) (a : α) :
    remember k l a = l ++ [a] := by
  rw [remember, if_neg (by omega)]

theorem remember_of_full {k : Nat} {l : List α} (h : l.length = k) (a : α) :
    remember k l a = l.tail ++ [a] := by
  rw [remember, if_pos h]

/-- `a` is remembered, with at most `n` items more recent than it. -/
def Holds (a : α) (n : Nat) (l : List α) : Prop := ∃ s t, l = s ++ a :: t ∧ t.length ≤ n

variable {a b : α} {n k : Nat} {l : List α}

theorem Holds.mem (h : Holds a n l) : a ∈ l := by
  obtain ⟨s, t, rfl, _⟩ := h
  simp

theorem Holds.mono (h : Holds a n l) {m : Nat} (hm : n ≤ m) : Holds a m l := by
  obtain ⟨s, t, rfl, ht⟩ := h
  exact ⟨s, t, rfl, Nat.le_trans ht hm⟩

theorem holds_last (a : α) (l : List α) : Holds a 0 (l ++ [a]) := ⟨l, [], rfl, by simp⟩

/-- Forgetting another item moves `a` at most towards the recent end. -/
theorem Holds.erase [DecidableEq α] (h : Holds a n l) (hb : b ≠ a) : Holds a n (l.erase b) := by
  obtain ⟨s, t, rfl, ht⟩ := h
  by_cases hs : b ∈ s
  · exact ⟨s.erase b, t, by rw [List.erase_append_left _ hs], ht⟩
  · refine ⟨s, t.erase b, ?_, ?_⟩
    · rw [List.erase_append_right _ hs, List.erase_cons_tail (by simpa using hb.symm)]
    · exact Nat.le_trans List.length_erase_le ht

/-- Renaming other items keeps the place of `a`. -/
theorem Holds.map {f : α → α} (h : Holds a n l) (hf : f a = a) : Holds a n (l.map f) := by
  obtain ⟨s, t, rfl, ht⟩ := h
  exact ⟨s.map f, t.map f, by simp [hf], by simpa using ht⟩

/-- Remembering one more item cannot push `a` out while fewer than `k` items have been
remembered after it. -/
theorem Holds.remember (h : Holds a n l) (hn : n + 1 < k) : Holds a (n + 1) (remember k l b) := by
  obtain ⟨s, t, rfl, ht⟩ := h
  unfold Lib.remember
  split
  · next hfull =>
    cases s with
    | nil => simp at hfull; omega
    | cons x s => exact ⟨s, t ++ [b], by simp, by simpa using ht⟩
  · exact ⟨s, t ++ [b], by simp, by simpa using ht⟩

end Fomo.Lib
