import Mathlib.Data.List.Nodup
import Mathlib.Data.List.Range
import Mathlib.Data.List.Perm.Basic
import Mathlib.Data.List.Perm.Subperm

/-!
# Counting the slots of an array

`slots n p` is the number of slots below `n` that satisfy `p`. Changing one slot
changes the count by that slot alone, and a duplicate-free list of the slots that
satisfy `p` has that length.
-/
namespace Fomo.Lib

variable {n j : Nat} {p q : Nat → Bool}

def slots (n : Nat) (p : Nat → Bool) : Nat := (List.range n).countP p

theorem slots_succ (n : Nat) (p : Nat → Bool) :
    slots (n + 1) p = slots n p + if p n then 1 else 0 := by
  rw [slots, List.range_succ, List.countP_append]
  simp [slots, List.countP_cons]

theorem slots_congr (h : ∀ i < n, p i = q i) : slots n p = slots n q :=
  List.countP_congr fun i hi => by rw [h i (List.mem_range.mp hi)]

/-- Changing the slot `j` alone. -/
theorem slots_update (hj : j < n) (h : ∀ i, i ≠ j → p i = q i) :
    slots n q + (if p j then 1 else 0) = slots n p + if q j then 1 else 0 := by
  induction n with
  | zero => omega
  | succ n ih =>
    rw [slots_succ, slots_succ]
    rcases Nat.lt_or_ge j n with hlt | hge
    · have hn := h n (by omega)
      have := ih hlt
      rw [hn]
      omega
    · obtain rfl : j = n := by omega
      have hsame : slots j p = slots j q := slots_congr fun i hi => h i (by omega)
      omega

theorem slots_pos (hj : j < n) (h : p j = true) : 0 < slots n p :=
  List.countP_pos_iff.mpr ⟨j, List.mem_range.mpr hj, h⟩

theorem exists_of_slots_pos (h : 0 < slots n p) : ∃ j < n, p j = true := by
  obtain ⟨j, hj, hp⟩ := List.countP_pos_iff.mp h
  exact ⟨j, List.mem_range.mp hj, hp⟩

theorem slots_le (n : Nat) (p : Nat → Bool) : slots n p ≤ n := by
  have := List.countP_le_length (p := p) (l := List.range n)
  rwa [List.length_range] at this

/-- Counting by cases. -/
theorem slots_split (n : Nat) (p q : Nat → Bool) :
    slots n p = slots n (fun i => p i && q i) + slots n fun i => p i && !q i := by
  induction n with
  | zero => rfl
  | succ n ih =>
    rw [slots_succ, slots_succ, slots_succ, ih]
    cases p n <;> cases q n <;> simp <;> omega

/-- A duplicate-free list of the slots counts them. -/
theorem slots_eq_length {l : List Nat} (hl : l.Nodup) (hm : ∀ i, i ∈ l ↔ i < n ∧ p i = true) :
    slots n p = l.length := by
  have hperm : ((List.range n).filter p).Perm l := by
    apply (List.perm_ext_iff_of_nodup (List.nodup_range.filter p) hl).mpr
    intro i
    rw [hm, List.mem_filter, List.mem_range]
  rw [slots, List.countP_eq_length_filter]
  exact hperm.length_eq

/-- A list that has all of the slots is at least as long. -/
theorem slots_le_length {l : List Nat} (hm : ∀ i < n, p i = true → i ∈ l) :
    slots n p ≤ l.length := by
  have hsub : (List.range n).filter p ⊆ l := by
    intro i hi
    obtain ⟨hi, hp⟩ := List.mem_filter.mp hi
    exact hm i (List.mem_range.mp hi) hp
  rw [slots, List.countP_eq_length_filter]
  exact ((List.nodup_range.filter p).subperm hsub).length_le

/-- A duplicate-free list of some of the slots is at most as long. -/
theorem length_le_slots {l : List Nat} (hl : l.Nodup) (hm : ∀ i ∈ l, i < n ∧ p i = true) :
    l.length ≤ slots n p := by
  have hsub : l ⊆ (List.range n).filter p := fun i hi =>
    List.mem_filter.mpr ⟨List.mem_range.mpr (hm i hi).1, (hm i hi).2⟩
  rw [slots, List.countP_eq_length_filter]
  exact (hl.subperm hsub).length_le

/-- Counting a weaker property. -/
theorem slots_mono (h : ∀ i < n, p i = true → q i = true) : slots n p ≤ slots n q := by
  apply List.countP_mono_left
  intro i hi
  exact h i (List.mem_range.mp hi)

end Fomo.Lib
