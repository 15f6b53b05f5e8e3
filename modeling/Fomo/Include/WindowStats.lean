import Fomo.Include.Common
import Fomo.Lib.Ring

/-!
# Window statistics (`tools/window_stats.h`)

A ring of the last `size` values beside their sum. A value leaves the sum when it is popped,
as `window_stats_peek` reports it.
-/
namespace Fomo.Tools

/-- `struct window_stats`; `stop` is its `end`. -/
structure WindowStats where
  values : Nat → Nat := fun _ => 0
  sum : Nat := 0
  start : Nat := 0
  stop : Nat := 0
  len : Nat := 0
  size : Nat

def windowStatsClear (stats : WindowStats) : WindowStats :=
  { stats with sum := 0, start := 0, stop := 0, len := 0 }

/-- The allocation of `values` is taken to succeed. -/
def windowStatsInit (size : Nat) : WindowStats := { size := size }

/-- 0 for a window that is not full. -/
def windowStatsPeek (stats : WindowStats) : Nat :=
  if stats.len < stats.size then 0 else stats.values stats.start

def windowStatsPop (stats : WindowStats) : Exec WindowStats :=
  if stats.len = 0 then .ok stats
  else do
    let start ← mod32 (stats.start + 1) stats.size
    return { stats with
      sum := sub64 stats.sum (windowStatsPeek stats)
      start := start
      len := stats.len - 1 }

def windowStatsPush (stats : WindowStats) (value : Nat) : Exec WindowStats := do
  let stats ← if stats.len = stats.size then windowStatsPop stats else .ok stats
  let stop ← mod32 (stats.stop + 1) stats.size
  return { stats with
    values := Function.update stats.values stats.stop value
    sum := stats.sum + value
    stop := stop
    len := stats.len + 1 }

/-! ## What a window holds -/

open Lib

/-- The window has `size` cells and holds `l`, with its sum. -/
structure WindowStats.Holds (stats : WindowStats) (size : Nat) (l : List Nat) : Prop where
  size_eq : stats.size = size
  rings : Rings size stats.values stats.start l
  stop_eq : stats.stop = slot size stats.start l.length
  len : stats.len = l.length
  sum : stats.sum = l.sum

variable {stats : WindowStats} {size v : Nat} {l : List Nat}

theorem windowStatsInit_holds (hs : 0 < size) : (windowStatsInit size).Holds size [] :=
  ⟨rfl, rings_nil _ hs, (slot_zero hs).symm, rfl, rfl⟩

theorem WindowStats.Holds.clear (h : stats.Holds size l) (hs : 0 < size) :
    (windowStatsClear stats).Holds size [] :=
  ⟨h.size_eq, rings_nil _ hs, (slot_zero hs).symm, rfl, rfl⟩

/-- The value about to leave is in the sum. -/
theorem WindowStats.Holds.peek_le (h : stats.Holds size l) :
    windowStatsPeek stats ≤ stats.sum := by
  unfold windowStatsPeek
  split
  · exact Nat.zero_le _
  · next hfull =>
    have hstart := h.rings.start_lt
    have hlen := h.len
    rw [h.size_eq] at hfull
    cases l with
    | nil =>
      rw [List.length_nil] at hlen
      omega
    | cons x l =>
      rw [h.rings.head, h.sum, List.sum_cons]
      exact Nat.le_add_right _ _

/-- Without the value about to leave, a window one short of full at least sums its last
`size - 1` values. -/
theorem WindowStats.Holds.rest (h : stats.Holds size l) (hlen : size ≤ l.length + 1) :
    sub64 stats.sum (windowStatsPeek stats) = (l.rtake (size - 1)).sum := by
  rw [sub64_of_le h.peek_le]
  have hfits := h.rings.fits
  by_cases hfull : l.length = size
  · cases l with
    | nil =>
      have hstart := h.rings.start_lt
      rw [List.length_nil] at hfull
      omega
    | cons x l =>
      have hpeek : windowStatsPeek stats = x := by
        rw [windowStatsPeek, if_neg (by rw [h.len, h.size_eq]; omega), h.rings.head]
      rw [List.length_cons] at hfull
      have htake : (x :: l).rtake (size - 1) = l := by
        rw [List.rtake, List.length_cons, show l.length + 1 - (size - 1) = 1 by omega]
        rfl
      rw [hpeek, htake, h.sum, List.sum_cons, Nat.add_sub_cancel_left]
  · have hpeek : windowStatsPeek stats = 0 := by
      rw [windowStatsPeek, if_pos (by rw [h.len, h.size_eq]; omega)]
    have htake : l.rtake (size - 1) = l := by
      rw [List.rtake, show l.length - (size - 1) = 0 by omega, List.drop_zero]
    rw [hpeek, htake, h.sum, Nat.sub_zero]

theorem WindowStats.Holds.pop (h : stats.Holds size (v :: l)) (hfull : (v :: l).length = size) :
    ∃ stats', windowStatsPop stats = .ok stats' ∧ stats'.Holds size l := by
  have hlen := h.len
  have hstart := h.rings.start_lt
  rw [List.length_cons] at hlen hfull
  have hpeek : windowStatsPeek stats = v := by
    rw [windowStatsPeek, if_neg (by rw [h.size_eq]; omega), h.rings.head]
  have hsum : sub64 stats.sum v = l.sum := by
    rw [h.sum, List.sum_cons, sub64_of_le (Nat.le_add_right _ _), Nat.add_sub_cancel_left]
  refine ⟨{ stats with sum := l.sum, start := slot size stats.start 1, len := l.length }, ?_,
    h.size_eq, h.rings.pop, ?_, rfl, rfl⟩
  · rw [windowStatsPop, if_neg (by omega), hpeek, hsum, h.size_eq,
      mod32_of_pos (by omega), hlen]
    rfl
  · show stats.stop = slot size (slot size stats.start 1) l.length
    rw [slot_slot, h.stop_eq, List.length_cons]

/-- Pushing a value keeps the last `size` values. -/
theorem WindowStats.Holds.push (h : stats.Holds size l) (v : Nat) :
    ∃ stats', windowStatsPush stats v = .ok stats' ∧ stats'.Holds size (remember size l v) := by
  have hs : 0 < size := Nat.zero_lt_of_lt h.rings.start_lt
  have hroom : ∀ {stats : WindowStats} {l : List Nat}, stats.Holds size l → l.length < size →
      ∃ stats', (do
        let stop ← mod32 (stats.stop + 1) stats.size
        return ({ stats with
          values := Function.update stats.values stats.stop v
          sum := stats.sum + v
          stop := stop
          len := stats.len + 1 } : WindowStats)) = .ok stats' ∧
        stats'.Holds size (l ++ [v]) := by
    intro stats l h hlt
    rw [h.size_eq, mod32_of_pos hs, ok_bind]
    refine ⟨_, rfl, rfl, ?_, ?_, ?_, ?_⟩
    · show Rings size (Function.update stats.values stats.stop v) stats.start (l ++ [v])
      rw [h.stop_eq]
      exact h.rings.push hlt v
    · show (stats.stop + 1) % size = slot size stats.start (l ++ [v]).length
      rw [List.length_append, List.length_singleton, ← slot_succ, h.stop_eq]
    · show stats.len + 1 = (l ++ [v]).length
      rw [List.length_append, List.length_singleton, h.len]
    · show stats.sum + v = (l ++ [v]).sum
      rw [List.sum_append, List.sum_singleton, h.sum]
  unfold windowStatsPush
  by_cases hfull : l.length = size
  · rw [if_pos (by rw [h.size_eq, h.len]; exact hfull), remember_of_full hfull]
    cases l with
    | nil =>
      rw [List.length_nil] at hfull
      omega
    | cons x l =>
      obtain ⟨stats', hrun, h'⟩ := h.pop hfull
      rw [List.length_cons] at hfull
      rw [hrun]
      exact hroom h' (by rw [List.tail_cons]; omega)
  · have hfits := h.rings.fits
    rw [if_neg (by rw [h.size_eq, h.len]; exact hfull), remember_of_lt (by omega)]
    exact hroom h (by omega)

end Fomo.Tools
