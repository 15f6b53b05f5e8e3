import Fomo.Include.WindowStats
import Fomo.Lib.Run

/-!
# Runs of a statistics window

The sum is that of the retained values as long as no pop drops a value from a window
that is only partly filled: `window_stats_peek` reports 0 there, and the value stays in the sum.
-/
namespace Fomo.Tools

open Lib

inductive WindowCall
  | push (value : Nat)
  | pop
  | clear
  deriving DecidableEq

/-- What the sum of the window is after a push. -/
def WindowStats.sumWith (stats : WindowStats) (value : Nat) : Nat :=
  (if stats.len = stats.size then sub64 stats.sum (windowStatsPeek stats) else stats.sum) + value

/-- The 64-bit sum does not overflow. -/
def WindowStats.Allows (stats : WindowStats) : WindowCall → Prop
  | .push value => stats.sumWith value < 2 ^ 64
  | .pop => True
  | .clear => True

def windowStep (stats : WindowStats) : WindowCall → Exec (WindowStats × Unit)
  | .push value => do
    let stats ← windowStatsPush stats value
    return (stats, ())
  | .pop => do
    let stats ← windowStatsPop stats
    return (stats, ())
  | .clear => .ok (windowStatsClear stats, ())

def windowCalls : System WindowStats WindowCall Unit Fault where
  guard := WindowStats.Allows
  step := windowStep

/-! ## What a window is for -/

/-- A push keeps the last `size` values, a pop drops the oldest one. -/
def retain (size : Nat) (l : List Nat) : WindowCall → List Nat
  | .push value => remember size l value
  | .pop => l.tail
  | .clear => []

def retained (size : Nat) (t : List (WindowCall × Unit)) : List Nat :=
  t.foldl (fun l c => retain size l c.1) []

/-- The window reports on the values `l`. -/
structure WindowStats.Reports (stats : WindowStats) (size : Nat) (l : List Nat) : Prop where
  len_le : stats.len ≤ size
  len : stats.len = l.length
  sum : stats.sum = l.sum
  peek : stats.len = size → l.head? = some (windowStatsPeek stats)

/-- The value a pop drops, if any, is one `window_stats_peek` reports. -/
def PopSafe (size : Nat) (l : List Nat) : Prop := l = [] ∨ l.length = size ∨ l.head? = some 0

def PopsSafe (size : Nat) (t : List (WindowCall × Unit)) : Prop :=
  ∀ before after, t = before ++ (.pop, ()) :: after → PopSafe size (retained size before)

variable {stats stats' : WindowStats} {size v : Nat} {l : List Nat} {c : WindowCall}
  {t : List (WindowCall × Unit)}

theorem retained_concat (size : Nat) (t : List (WindowCall × Unit)) (c : WindowCall × Unit) :
    retained size (t ++ [c]) = retain size (retained size t) c.1 := by
  rw [retained, List.foldl_append]
  rfl

theorem popsSafe_nil (size : Nat) : PopsSafe size [] := by
  intro before after h
  simp at h

theorem popsSafe_concat : PopsSafe size (t ++ [(c, ())]) ↔
    PopsSafe size t ∧ (c = .pop → PopSafe size (retained size t)) := by
  constructor
  · intro h
    constructor
    · intro before after ht
      refine h before (after ++ [(c, ())]) ?_
      rw [ht, List.append_assoc, List.cons_append]
    · rintro rfl
      exact h t [] rfl
  · rintro ⟨h, hc⟩ before after ht
    induction after using List.reverseRecOn with
    | nil =>
      obtain ⟨rfl, hx⟩ := List.append_inj' ht rfl
      obtain ⟨hx, _⟩ := List.cons.inj hx
      exact hc (Prod.mk.inj hx).1
    | append_singleton after x _ =>
      rw [← List.cons_append, ← List.append_assoc] at ht
      exact h before after (List.append_inj' ht rfl).1

/-! ## One call -/

theorem WindowStats.Holds.reports (h : stats.Holds size l) : stats.Reports size l := by
  refine ⟨?_, h.len, h.sum, fun hfull => ?_⟩
  · rw [h.len]
    exact h.rings.fits
  · have hstart := h.rings.start_lt
    cases l with
    | nil =>
      have hlen := h.len
      rw [List.length_nil] at hlen
      omega
    | cons x l =>
      rw [windowStatsPeek, if_neg (by rw [h.size_eq]; omega), h.rings.head, List.head?_cons]

/-- A pop from a partly filled window moves the ring on and leaves the sum. -/
theorem WindowStats.Holds.pop_partial (h : stats.Holds size (v :: l))
    (hlt : (v :: l).length < size) : ∃ stats', windowStatsPop stats = .ok stats' ∧
      stats'.sum = v + l.sum ∧ { stats' with sum := l.sum }.Holds size l := by
  have hlen := h.len
  rw [List.length_cons] at hlen hlt
  have hpeek : windowStatsPeek stats = 0 := by
    rw [windowStatsPeek, if_pos (by rw [h.size_eq]; omega)]
  refine ⟨{ stats with start := slot size stats.start 1, len := l.length }, ?_, ?_,
    h.size_eq, h.rings.pop, ?_, rfl, rfl⟩
  · rw [windowStatsPop, if_neg (by omega), hpeek, sub64_of_le (Nat.zero_le _), h.size_eq,
      mod32_of_pos (by omega), hlen]
    rfl
  · show stats.sum = v + l.sum
    rw [h.sum, List.sum_cons]
  · show stats.stop = slot size (slot size stats.start 1) l.length
    rw [slot_slot, h.stop_eq, List.length_cons]

theorem WindowStats.Holds.pop_safe (h : stats.Holds size l) (hsafe : PopSafe size l)
    (hrun : windowStatsPop stats = .ok stats') : stats'.Holds size l.tail := by
  cases l with
  | nil =>
    rw [windowStatsPop, if_pos (by rw [h.len]; rfl)] at hrun
    obtain rfl := Except.ok.inj hrun
    exact h
  | cons v l =>
    by_cases hfull : (v :: l).length = size
    · obtain ⟨s, hs, h'⟩ := h.pop hfull
      obtain rfl := Except.ok.inj (hs.symm.trans hrun)
      exact h'
    · obtain ⟨s, hs, hsum, h'⟩ := h.pop_partial (Nat.lt_of_le_of_ne h.rings.fits hfull)
      obtain rfl := Except.ok.inj (hs.symm.trans hrun)
      -- only a zero may go
      obtain hzero : v = 0 := by
        rcases hsafe with hnil | hlen | hhead
        · cases hnil
        · exact absurd hlen hfull
        · exact Option.some.inj hhead
      rw [hzero, Nat.zero_add] at hsum
      rwa [← hsum] at h'

/-- A pop that keeps the sum right drops a value that was reported. -/
theorem WindowStats.Holds.safe_of_pop (h : stats.Holds size l)
    (hrun : windowStatsPop stats = .ok stats') (hsum : stats'.sum = l.tail.sum) :
    PopSafe size l := by
  cases l with
  | nil => exact Or.inl rfl
  | cons v l =>
    by_cases hfull : (v :: l).length = size
    · exact Or.inr (Or.inl hfull)
    · obtain ⟨s, hs, hv, _⟩ := h.pop_partial (Nat.lt_of_le_of_ne h.rings.fits hfull)
      obtain rfl := Except.ok.inj (hs.symm.trans hrun)
      rw [hv, List.tail_cons] at hsum
      obtain rfl : v = 0 := by omega
      exact Or.inr (Or.inr rfl)

/-- The step lemma: the window holds the retained values after every safe call. -/
theorem WindowStats.Holds.step (h : stats.Holds size l) (hsafe : c = .pop → PopSafe size l)
    (hrun : windowStep stats c = .ok (stats', ())) : stats'.Holds size (retain size l c) := by
  cases c with
  | push value =>
    obtain ⟨s, hs, h'⟩ := h.push value
    simp only [windowStep, hs, ok_bind] at hrun
    obtain ⟨rfl, _⟩ := Prod.mk.inj (Except.ok.inj hrun)
    exact h'
  | pop =>
    obtain ⟨s, hs, hrun⟩ := bind_eq_ok.mp hrun
    obtain ⟨rfl, _⟩ := Prod.mk.inj (Except.ok.inj hrun)
    exact h.pop_safe (hsafe rfl) hs
  | clear =>
    obtain ⟨rfl, _⟩ := Prod.mk.inj (Except.ok.inj hrun)
    exact h.clear (Nat.zero_lt_of_lt h.rings.start_lt)

/-! ## No call faults -/

theorem windowStatsPop_answers (h : 0 < stats.size) :
    ∃ stats', windowStatsPop stats = .ok stats' ∧ stats'.size = stats.size := by
  unfold windowStatsPop
  rw [mod32_of_pos h]
  split
  · exact ⟨_, rfl, rfl⟩
  · exact ⟨_, rfl, rfl⟩

theorem windowStatsPush_answers (h : 0 < stats.size) (value : Nat) :
    ∃ stats', windowStatsPush stats value = .ok stats' ∧ stats'.size = stats.size := by
  unfold windowStatsPush
  by_cases hfull : stats.len = stats.size
  · obtain ⟨s, hs, hsize⟩ := windowStatsPop_answers h
    rw [if_pos hfull, hs, ok_bind]
    dsimp only
    rw [mod32_of_pos (by omega)]
    exact ⟨_, rfl, hsize⟩
  · rw [if_neg hfull, ok_bind]
    dsimp only
    rw [mod32_of_pos h]
    exact ⟨_, rfl, rfl⟩

theorem windowStep_answers (h : 0 < stats.size) (c : WindowCall) :
    ∃ stats', windowStep stats c = .ok (stats', ()) ∧ stats'.size = stats.size := by
  cases c with
  | push value =>
    obtain ⟨s, hs, hsize⟩ := windowStatsPush_answers h value
    refine ⟨s, ?_, hsize⟩
    rw [windowStep, hs]
    rfl
  | pop =>
    obtain ⟨s, hs, hsize⟩ := windowStatsPop_answers h
    refine ⟨s, ?_, hsize⟩
    rw [windowStep, hs]
    rfl
  | clear => exact ⟨_, rfl, rfl⟩

theorem window_size (hn : 0 < size) (h : windowCalls.Reachable (windowStatsInit size) stats) :
    stats.size = size := by
  refine h.invariant (I := fun stats => stats.size = size) rfl ?_
  intro a c b w ha _ hstep
  obtain ⟨s, hs, hsize⟩ := windowStep_answers (ha ▸ hn) c
  obtain ⟨rfl, _⟩ := Prod.mk.inj (Except.ok.inj (hs.symm.trans hstep))
  rw [hsize, ha]

/-! ## Every run -/

theorem window_holds (hn : 0 < size) (h : windowCalls.Run (windowStatsInit size) t stats) :
    PopsSafe size t → stats.Holds size (retained size t) := by
  refine h.history (J := fun t stats => PopsSafe size t → stats.Holds size (retained size t)) ?_ ?_
  · exact fun _ => windowStatsInit_holds hn
  · intro t a c b w ih _ hstep hsafe
    obtain ⟨hsafe, hc⟩ := popsSafe_concat.mp hsafe
    rw [retained_concat]
    exact (ih hsafe).step hc hstep

/-- In every run the window reports on the retained values after every call exactly when each
pop is made on an empty or a full window, or drops a zero; and no call faults. -/
theorem window_reports_iff (hn : 0 < size) :
    (∀ stats c, windowCalls.Reachable (windowStatsInit size) stats → stats.Allows c →
      ∃ stats', windowStep stats c = .ok (stats', ())) ∧
    ∀ t stats, windowCalls.Run (windowStatsInit size) t stats →
      ((∀ before after s, t = before ++ after →
          windowCalls.Run (windowStatsInit size) before s → s.Reports size (retained size before)) ↔
        PopsSafe size t) := by
  constructor
  · intro stats c hr _
    obtain ⟨s, hs, _⟩ := windowStep_answers (window_size hn hr ▸ hn) c
    exact ⟨s, hs⟩
  · intro t stats hrun
    constructor
    · induction hrun with
      | nil => exact fun _ => popsSafe_nil size
      | @snoc t s c w s' hrun hg hstep ih =>
        intro hall
        have hsafe : PopsSafe size t := ih fun before after s ht hb =>
          hall before (after ++ [(c, w)]) s (by rw [ht, List.append_assoc]) hb
        refine popsSafe_concat.mpr ⟨hsafe, ?_⟩
        rintro rfl
        have hsum := (hall _ [] s' (List.append_nil _).symm (hrun.snoc hg hstep)).sum
        rw [retained_concat] at hsum
        obtain ⟨s1, hs1, hstep⟩ := bind_eq_ok.mp hstep
        obtain ⟨rfl, _⟩ := Prod.mk.inj (Except.ok.inj hstep)
        exact (window_holds hn hrun hsafe).safe_of_pop hs1 hsum
    · intro hsafe before after s ht hb
      refine (window_holds hn hb fun b a hba => hsafe b (a ++ after) ?_).reports
      rw [ht, hba, List.append_assoc, List.cons_append]

/-- Two values fill a window of two; the pop drops the older one. -/
theorem window_reports_full : ∃ stats,
    windowCalls.Run (windowStatsInit 2) [(.push 5, ()), (.push 7, ()), (.pop, ())] stats ∧
    stats.Reports 2 [7] := by
  have h1 : windowCalls.Run (windowStatsInit 2) [(.push 5, ())] _ :=
    System.Run.nil.snoc (show 5 < 2 ^ 64 by decide) rfl
  have h2 : windowCalls.Run (windowStatsInit 2) [(.push 5, ()), (.push 7, ())] _ :=
    h1.snoc (show 12 < 2 ^ 64 by decide) rfl
  have h3 : windowCalls.Run (windowStatsInit 2) [(.push 5, ()), (.push 7, ()), (.pop, ())] _ :=
    h2.snoc trivial rfl
  have hsafe : PopsSafe 2 [(.push 5, ()), (.push 7, ()), (.pop, ())] := by
    have hone : PopsSafe 2 ([] ++ [(.push 5, ())]) :=
      popsSafe_concat.mpr ⟨popsSafe_nil 2, fun h => by cases h⟩
    have htwo : PopsSafe 2 ([(.push 5, ())] ++ [(.push 7, ())]) :=
      popsSafe_concat.mpr ⟨hone, fun h => by cases h⟩
    exact popsSafe_concat.mpr ⟨htwo, fun _ => Or.inr (Or.inl rfl)⟩
  exact ⟨_, h3, ((window_reports_iff (by decide)).2 _ _ h3).mpr hsafe _ [] _ rfl h3⟩

/-- One value in a window of two, dropped: its sum stays. -/
theorem window_pop_partial : ∃ stats,
    windowCalls.Run (windowStatsInit 2) [(.push 1, ()), (.pop, ())] stats ∧
    ¬stats.Reports 2 (retained 2 [(.push 1, ()), (.pop, ())]) := by
  have h1 : windowCalls.Run (windowStatsInit 2) [(.push 1, ())] _ :=
    System.Run.nil.snoc (show 1 < 2 ^ 64 by decide) rfl
  have h2 : windowCalls.Run (windowStatsInit 2) [(.push 1, ()), (.pop, ())] _ :=
    h1.snoc trivial rfl
  refine ⟨_, h2, fun h => ?_⟩
  have hsum : (1 : Nat) = 0 := h.sum
  cases hsum

end Fomo.Tools
