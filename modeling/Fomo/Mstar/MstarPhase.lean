import Fomo.Include.Common
import Fomo.Lib.Ring

/-!
# Phase statistics (`mstar/mstar_phase.c`)

A window keeps the last `size` values with their sum in a ring of cells; a window of size
0 only sums and counts. `values` starts as whatever the allocation held.
-/
namespace Fomo

structure WindowStats where
  values : Nat → Nat := fun _ => 0
  sum : Nat := 0
  start : Nat := 0
  endIdx : Nat := 0
  len : Nat := 0
  size : Nat := 0

def windowStatsInit (size : Nat) : WindowStats := { size := size }

def windowStatsClear (stats : WindowStats) : WindowStats :=
  { stats with sum := 0, start := 0, endIdx := 0, len := 0 }

def windowStatsCopy (to' from' : WindowStats) : WindowStats :=
  { to' with
    values := fun i => if i < from'.size then from'.values i else to'.values i
    sum := from'.sum
    start := from'.start
    endIdx := from'.endIdx
    len := from'.len }

def windowStatsPop (stats : WindowStats) : WindowStats :=
  if stats.len > 0 ∧ stats.size > 0 then
    { stats with
      sum := if stats.len = stats.size then sub32 stats.sum (stats.values stats.start)
        else stats.sum
      start := u32 (stats.start + 1) % stats.size
      len := dec32 stats.len }
  else stats

def windowStatsPush (stats : WindowStats) (value : Nat) : WindowStats :=
  let stats :=
    if stats.size > 0 then
      let stats := if stats.len = stats.size then windowStatsPop stats else stats
      { stats with
        values := Function.update stats.values stats.endIdx value
        endIdx := u32 (stats.endIdx + 1) % stats.size }
    else stats
  { stats with sum := u32 (stats.sum + value), len := u32 (stats.len + 1) }

def windowStatsAverageHundredths (stats : WindowStats) : Nat :=
  if stats.len = 0 then 0 else u32 (100 * stats.sum) / stats.len

structure PhaseStats where
  cacheStats : WindowStats := {}
  ghostStats : WindowStats := {}

def phaseStatsInit (size : Nat) : PhaseStats where
  cacheStats := windowStatsInit size
  ghostStats := windowStatsInit size

def phaseCacheHitrate (stats : PhaseStats) : Nat := windowStatsAverageHundredths stats.cacheStats

def phaseGhostHitrate (stats : PhaseStats) : Nat := windowStatsAverageHundredths stats.ghostStats

def phaseStatsClear (stats : PhaseStats) : PhaseStats where
  cacheStats := windowStatsClear stats.cacheStats
  ghostStats := windowStatsClear stats.ghostStats

def phaseStatsCopy (to' from' : PhaseStats) : PhaseStats where
  cacheStats := windowStatsCopy to'.cacheStats from'.cacheStats
  ghostStats := windowStatsCopy to'.ghostStats from'.ghostStats

/-! ## What a window holds -/

open Lib

/-- The window has `size` cells and holds the bits `l`, with their sum. -/
structure WindowStats.Holds (stats : WindowStats) (size : Nat) (l : List Nat) : Prop where
  size_eq : stats.size = size
  rings : Rings size stats.values stats.start l
  end_eq : stats.endIdx = slot size stats.start l.length
  len : stats.len = l.length
  sum : stats.sum = l.sum
  bits : ∀ x ∈ l, x ≤ 1

variable {stats : WindowStats} {size v : Nat} {l : List Nat}

theorem windowStatsInit_holds (h : 0 < size) : (windowStatsInit size).Holds size [] :=
  ⟨rfl, rings_nil _ h, (slot_zero h).symm, rfl, rfl, fun _ hx => by cases hx⟩

theorem WindowStats.Holds.clear (h : stats.Holds size l) (hs : 0 < size) :
    (windowStatsClear stats).Holds size [] :=
  ⟨h.size_eq, rings_nil _ hs, (slot_zero hs).symm, rfl, rfl, fun _ hx => by cases hx⟩

theorem sum_le_length (h : ∀ x ∈ l, x ≤ 1) : l.sum ≤ l.length := by
  induction l with
  | nil => simp
  | cons x l ih =>
    have hx := h x List.mem_cons_self
    have hl := ih fun y hy => h y (List.mem_cons_of_mem x hy)
    rw [List.sum_cons, List.length_cons]
    omega

theorem WindowStats.Holds.pop (h : stats.Holds size (v :: l)) (hfull : (v :: l).length = size)
    (hs32 : size < 2 ^ 32) : (windowStatsPop stats).Holds size l := by
  have hlen := h.len
  have hsum := h.sum
  have hbits := sum_le_length h.bits
  have hstart := h.rings.start_lt
  rw [List.sum_cons] at hsum hbits
  rw [List.length_cons] at hlen hfull hbits
  have hpop : windowStatsPop stats = { stats with
      sum := stats.sum - v
      start := slot size stats.start 1
      len := l.length } := by
    have hif : stats.len > 0 ∧ stats.size > 0 := ⟨by omega, by rw [h.size_eq]; omega⟩
    rw [windowStatsPop, if_pos hif, if_pos (by rw [h.size_eq]; omega), h.rings.head,
      sub32_of_le (by omega) (by omega), u32_of_lt (by omega), h.size_eq, hlen,
      dec32_of_pos (by omega) (by omega)]
    rfl
  rw [hpop]
  refine ⟨h.size_eq, h.rings.pop, ?_, rfl, ?_, fun x hx => h.bits x (List.mem_cons_of_mem v hx)⟩
  · show stats.endIdx = slot size (slot size stats.start 1) l.length
    rw [slot_slot, h.end_eq, List.length_cons]
  · show stats.sum - v = l.sum
    omega

/-- Pushing a bit keeps the last `size` bits. -/
theorem WindowStats.Holds.push (h : stats.Holds size l) (hs : 0 < size) (hs32 : size < 2 ^ 32)
    (hv : v ≤ 1) : (windowStatsPush stats v).Holds size (remember size l v) := by
  have hroom : ∀ {stats : WindowStats} {l : List Nat}, stats.Holds size l → l.length < size →
      ({ stats with
        values := Function.update stats.values stats.endIdx v
        endIdx := u32 (stats.endIdx + 1) % stats.size
        sum := u32 (stats.sum + v)
        len := u32 (stats.len + 1) } : WindowStats).Holds size (l ++ [v]) := by
    intro stats l h hlt
    have hbits := sum_le_length h.bits
    have hlen := h.len
    have hsum := h.sum
    have hend := slot_lt hs stats.start l.length
    refine ⟨h.size_eq, ?_, ?_, ?_, ?_, ?_⟩
    · show Rings size (Function.update stats.values stats.endIdx v) stats.start (l ++ [v])
      rw [h.end_eq]
      exact h.rings.push hlt v
    · show u32 (stats.endIdx + 1) % stats.size = slot size stats.start (l ++ [v]).length
      rw [List.length_append, List.length_singleton, ← slot_succ, h.size_eq, h.end_eq,
        u32_of_lt (by omega)]
    · show u32 (stats.len + 1) = (l ++ [v]).length
      rw [List.length_append, List.length_singleton, hlen, u32_of_lt (by omega)]
    · show u32 (stats.sum + v) = (l ++ [v]).sum
      rw [List.sum_append, List.sum_singleton, hsum, u32_of_lt (by omega)]
    · intro x hx
      rcases List.mem_append.mp hx with hx | hx
      · exact h.bits x hx
      · rw [List.mem_singleton] at hx
        omega
  have hif : stats.size > 0 := by rw [h.size_eq]; exact hs
  unfold windowStatsPush
  simp only [if_pos hif]
  by_cases hfull : l.length = size
  · rw [if_pos (by rw [h.size_eq, h.len]; exact hfull), remember_of_full hfull]
    cases l with
    | nil => simp at hfull; omega
    | cons x l =>
      rw [List.length_cons] at hfull
      exact hroom (h.pop (by rw [List.length_cons]; exact hfull) hs32)
        (by rw [List.tail_cons]; omega)
  · have hfits := h.rings.fits
    rw [if_neg (by rw [h.size_eq, h.len]; exact hfull), remember_of_lt (by omega)]
    exact hroom h (by omega)

end Fomo
