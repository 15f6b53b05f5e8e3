import Mathlib.Data.List.Sort
import Mathlib.Data.List.Range

/-!
# Intervals cut into aligned units

The units of width `u` start at the multiples of `u`. An interval of addresses meets finitely
many of them, one after the other.
-/
namespace Fomo.Lib

/-- The starts of the units that meet the `size` addresses from `addr` on, in order. -/
def unitsMeeting (u addr size : Nat) : List Nat :=
  (List.range (addr + size)).filter fun a =>
    decide (u ∣ a ∧ max addr a < min (addr + size) (a + u))

variable {u addr size a : Nat}

theorem mem_unitsMeeting : a ∈ unitsMeeting u addr size ↔
    u ∣ a ∧ a < addr + size ∧ addr < a + u ∧ 0 < size ∧ 0 < u := by
  simp only [unitsMeeting, List.mem_filter, List.mem_range, decide_eq_true_eq]
  constructor
  · rintro ⟨hlt, hd, h⟩
    exact ⟨hd, hlt, by omega, by omega, by omega⟩
  · rintro ⟨hd, hlt, h, hs, hu⟩
    exact ⟨hlt, hd, by omega⟩

theorem unitsMeeting_zero (u addr : Nat) : unitsMeeting u addr 0 = [] := by
  rw [List.eq_nil_iff_forall_not_mem]
  intro a ha
  exact absurd (mem_unitsMeeting.mp ha).2.2.2.1 (Nat.lt_irrefl 0)

/-- The number of units an interval of positive length meets. -/
def unitCount (u addr size : Nat) : Nat := (size + addr % u + (u - 1)) / u

/-- Rounding up: whole units, and one more for a rest. -/
theorem unitCount_eq (hu : 0 < u) : unitCount u addr size =
    if (size + addr % u) % u = 0 then (size + addr % u) / u else (size + addr % u) / u + 1 := by
  have hdiv := Nat.div_add_mod (size + addr % u) u
  have hmod := Nat.mod_lt (size + addr % u) hu
  rw [unitCount]
  split
  case isTrue h =>
    rw [h, Nat.add_zero] at hdiv
    refine Nat.div_eq_of_lt_le ?_ ?_
    · rw [Nat.mul_comm]
      omega
    · rw [Nat.succ_mul, Nat.mul_comm]
      omega
  case isFalse h =>
    refine Nat.div_eq_of_lt_le ?_ ?_
    · rw [Nat.succ_mul, Nat.mul_comm]
      omega
    · rw [Nat.succ_mul, Nat.succ_mul, Nat.mul_comm]
      omega

/-- A unit meets the interval iff it is one of the `unitCount` units from the first on. -/
theorem mem_unitsMeeting_iff_exists (hu : 0 < u) (hs : 0 < size) : a ∈ unitsMeeting u addr size ↔
    ∃ i < unitCount u addr size, a = addr - addr % u + u * i := by
  have hdiv := Nat.div_add_mod addr u
  have hmod := Nat.mod_lt addr hu
  have hfirst : addr - addr % u = u * (addr / u) := by omega
  have hcount : ∀ i, i < unitCount u addr size ↔ u * i < size + addr % u := by
    intro i
    rw [unitCount, Nat.lt_iff_add_one_le, Nat.le_div_iff_mul_le hu, Nat.add_mul, Nat.one_mul,
      Nat.mul_comm i u]
    omega
  rw [mem_unitsMeeting, hfirst]
  constructor
  · rintro ⟨hd, hlt, hle, -, -⟩
    obtain ⟨k, rfl⟩ := hd
    have hk : addr / u ≤ k := by
      have : u * (addr / u) < u * (k + 1) := by
        rw [Nat.mul_add, Nat.mul_one]
        omega
      exact Nat.lt_add_one_iff.mp (Nat.lt_of_mul_lt_mul_left this)
    have hsub : u * k = u * (addr / u) + u * (k - addr / u) := by
      rw [← Nat.mul_add, Nat.add_sub_cancel' hk]
    exact ⟨k - addr / u, (hcount _).mpr (by omega), hsub⟩
  · rintro ⟨i, hi, rfl⟩
    have hi := (hcount i).mp hi
    exact ⟨⟨addr / u + i, (Nat.mul_add _ _ _).symm⟩, by omega, by omega, hs, hu⟩

/-- The units an interval meets are consecutive, the first one that of its first address. -/
theorem unitsMeeting_eq (hu : 0 < u) (hs : 0 < size) : unitsMeeting u addr size =
    (List.range (unitCount u addr size)).map fun i => addr - addr % u + u * i := by
  have hleft : (unitsMeeting u addr size).SortedLT :=
    (List.pairwise_lt_range.filter _).sortedLT
  have hright : ((List.range (unitCount u addr size)).map
      fun i => addr - addr % u + u * i).SortedLT := by
    refine (List.Pairwise.map _ ?_ List.pairwise_lt_range).sortedLT
    intro i j hij
    exact Nat.add_lt_add_left (Nat.mul_lt_mul_of_pos_left hij hu) _
  refine hleft.eq_of_mem_iff hright fun a => ?_
  rw [mem_unitsMeeting_iff_exists hu hs]
  simp only [List.mem_map, List.mem_range, eq_comm]

end Fomo.Lib
