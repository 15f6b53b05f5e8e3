import Fomo.Mstar.MstarPhases

/-!
# The decisions of static m*

A decision compares the hit rate of a sample of requests with the hit rate since the state
statistics were cleared. While the logic is STABLE, `prev_phase` stays the phase that ended
with the change to STABLE.
-/
namespace Fomo

open Lib

variable {logic logic' l l' : MstarLogic} {us : List (Bool × Bool)} {u : Bool × Bool} {T i j : Nat}

/-! ## The end of a phase -/

/-- A window of bits has a hit rate of at most 100. -/
theorem WindowStats.Holds.hundredths_le {stats : WindowStats} {size : Nat} {bits : List Nat}
    (h : stats.Holds size bits) : windowStatsAverageHundredths stats ≤ 100 := by
  unfold windowStatsAverageHundredths
  split
  · exact Nat.zero_le 100
  · next hlen =>
    have hbits := sum_le_length h.bits
    have hsum : stats.sum ≤ stats.len := by
      rw [h.sum, h.len]
      exact hbits
    have hle : u32 (100 * stats.sum) ≤ stats.len * 100 := (u32_le _).trans (by omega)
    exact Nat.div_le_of_le_mul hle

theorem changeFromStableIfAble_iff (hs : logic.state = .stable) :
    (changeFromStableIfAble logic).state = .unstable ↔
      u32 (100 * phaseCacheHitrate logic.prevPhase) ≤
        u32 (transitionValue (logic.transitionSet .stableUnstablePercent) *
          windowStatsAverageHundredths logic.stateStats) := by
  unfold changeFromStableIfAble
  dsimp only
  split
  · next hle => exact iff_of_true rfl hle
  · next hgt => exact iff_of_false (by rw [hs]; decide) hgt

theorem changeFromUnstableIfAble_iff (hs : logic.state = .unstable) :
    (changeFromUnstableIfAble logic).state = .unique ↔
      u32 (transitionValue (logic.transitionSet .unstableUniqueThreshold) *
          windowStatsAverageHundredths logic.stateStats) > phaseCacheHitrate logic.thisPhase ∨
        phaseCacheHitrate logic.thisPhase <
          transitionValue (logic.transitionSet .unstableUniquePercent) := by
  unfold changeFromUnstableIfAble
  dsimp only
  split
  · next h1 => exact iff_of_true rfl (Or.inl h1)
  · next h1 =>
    split
    · next h2 => exact iff_of_true rfl (Or.inr h2)
    · next h2 =>
      refine iff_of_false ?_ (not_or.mpr ⟨h1, h2⟩)
      split
      · simp [stateTransitionTo]
      · split
        · simp [stateTransitionTo]
        · rw [hs]
          decide

/-- The logic that decides at a phase end: the ghost hits of `prev_phase` are the latest ones. -/
def MstarLogic.deciding (logic : MstarLogic) : MstarLogic :=
  { logic with
    prevPhase := { logic.prevPhase with
      ghostStats := windowStatsCopy logic.prevPhase.ghostStats logic.thisPhase.ghostStats } }

/-- The logic at a phase end, before it decides. -/
def MstarLogic.restarted (logic : MstarLogic) : MstarLogic :=
  { logic with tabuCounter := logic.tabu }

/-- A static phase end restarts the counter and decides. -/
theorem updateMstar_static (ha : logic.adaptive = false)
    (h0 : (logic.counted u.1 u.2).tabuCounter = 0) :
    updateMstar logic u.1 u.2 = .ok (logic.counted u.1 u.2).restarted.closePhase := by
  have hstatic : (logic.counted u.1 u.2).adaptive ≠ true := by
    show logic.adaptive ≠ true
    simp [ha]
  unfold updateMstar
  dsimp only
  rw [if_pos h0, MstarLogic.enterNewPhase, if_neg hstatic]
  rfl

theorem closePhase_of_state (logic : MstarLogic) {s : MstarStateId} (hs : logic.state = s) :
    logic.closePhase = s.changeIfAble logic.deciding := by
  subst hs
  rfl

theorem phaseEnd_stable (ha : logic.adaptive = false)
    (h0 : (logic.counted u.1 u.2).tabuCounter = 0) (hs : logic.state = .stable)
    (hrun : updateMstar logic u.1 u.2 = .ok logic') : logic'.state = .unstable ↔
      u32 (100 * phaseCacheHitrate logic.prevPhase) ≤
        u32 (transitionValue (logic.transitionSet .stableUnstablePercent) *
          windowStatsAverageHundredths (logic.counted u.1 u.2).stateStats) := by
  rw [updateMstar_static ha h0] at hrun
  obtain rfl := Except.ok.inj hrun
  rw [closePhase_of_state (logic.counted u.1 u.2).restarted hs]
  exact changeFromStableIfAble_iff hs

theorem phaseEnd_unstable (ha : logic.adaptive = false)
    (h0 : (logic.counted u.1 u.2).tabuCounter = 0) (hs : logic.state = .unstable)
    (hrun : updateMstar logic u.1 u.2 = .ok logic') : logic'.state = .unique ↔
      u32 (transitionValue (logic.transitionSet .unstableUniqueThreshold) *
          windowStatsAverageHundredths (logic.counted u.1 u.2).stateStats) >
        phaseCacheHitrate (logic.counted u.1 u.2).thisPhase ∨
      phaseCacheHitrate (logic.counted u.1 u.2).thisPhase <
        transitionValue (logic.transitionSet .unstableUniquePercent) := by
  rw [updateMstar_static ha h0] at hrun
  obtain rfl := Except.ok.inj hrun
  rw [closePhase_of_state (logic.counted u.1 u.2).restarted hs]
  exact changeFromUnstableIfAble_iff hs

/-! ## What `prev_phase` holds -/

/-- The hit rate of `prev_phase` in `l'`, a state after `l` and one more phase end or count. -/
inductive MstarLogic.Aged (l l' : MstarLogic) : Prop
  | stay (hs : l'.state = l.state)
      (hp : phaseCacheHitrate l'.prevPhase = phaseCacheHitrate l.prevPhase)
  | change (hs : l'.state ≠ l.state)
      (hp : phaseCacheHitrate l'.prevPhase = phaseCacheHitrate l.thisPhase)

/-- What a static phase end never changes. -/
structure MstarLogic.SameRules (l l' : MstarLogic) : Prop where
  adaptive : l'.adaptive = l.adaptive
  transitionSet : l'.transitionSet = l.transitionSet

theorem closePhase_aged (l : MstarLogic) :
    l.Aged l.closePhase ∧ l.SameRules l.closePhase := by
  have hch : l.deciding.Changes l.closePhase := changeIfAble_changes l.deciding
  generalize l.closePhase = logic' at hch
  cases hch with
  | stay => exact ⟨.stay rfl rfl, rfl, rfl⟩
  | change trans clear hne => exact ⟨.change hne rfl, rfl, rfl⟩

theorem updateMstar_aged (ha : logic.adaptive = false)
    (hrun : updateMstar logic u.1 u.2 = .ok logic') :
    (logic.counted u.1 u.2).Aged logic' ∧ logic.SameRules logic' := by
  by_cases h0 : (logic.counted u.1 u.2).tabuCounter = 0
  · rw [updateMstar_static ha h0] at hrun
    obtain rfl := Except.ok.inj hrun
    obtain ⟨haged, hrules⟩ := closePhase_aged (logic.counted u.1 u.2).restarted
    refine ⟨?_, hrules.adaptive, hrules.transitionSet⟩
    cases haged with
    | stay hs hp => exact .stay hs hp
    | change hs hp => exact .change hs hp
  · unfold updateMstar at hrun
    dsimp only at hrun
    rw [if_neg h0] at hrun
    obtain rfl := Except.ok.inj hrun
    exact ⟨.stay rfl rfl, rfl, rfl⟩

/-- The update number `j` was the last to change the state, and `prev_phase` has the hit rate
of the phase it ended. -/
structure LastChange (logic : MstarLogic) (us : List (Bool × Bool)) (l : MstarLogic) (j : Nat) :
    Prop where
  changes : ChangesTo logic us j l.state
  last : ∀ i s, j < i → ¬ChangesTo logic us i s
  prev : ∃ u0 l0, us[j]? = some u0 ∧ updates logic (us.take j) = .ok l0 ∧
    phaseCacheHitrate l.prevPhase = phaseCacheHitrate (l0.counted u0.1 u0.2).thisPhase

/-- Where the state of a static run comes from. -/
inductive Origin (logic : MstarLogic) (us : List (Bool × Bool)) (l : MstarLogic) : Prop
  | initial (hs : l.state = logic.state)
  | changed (j : Nat) (h : LastChange logic us l j)

theorem LastChange.keep (h : LastChange logic us l j) (hl : updates logic us = .ok l)
    (hl' : updates logic (us ++ [u]) = .ok l') (hs : l'.state = l.state)
    (hp : phaseCacheHitrate l'.prevPhase = phaseCacheHitrate l.prevPhase) :
    LastChange logic (us ++ [u]) l' j := by
  have hj : j < us.length := h.changes.1
  refine ⟨?_, fun i s hi => ?_, ?_⟩
  · rw [changesTo_append hj, hs]
    exact h.changes
  · by_cases hlt : i < us.length
    · rw [changesTo_append hlt]
      exact h.last i s hi
    · by_cases heq : i = us.length
      · rw [heq, changesTo_last hl hl', hs]
        exact fun hx => hx.2 hx.1.symm
      · intro hx
        have := hx.1
        rw [List.length_append, List.length_singleton] at this
        omega
  · obtain ⟨u0, l0, hu0, hl0, heq⟩ := h.prev
    refine ⟨u0, l0, ?_, ?_, hp.trans heq⟩
    · rw [List.getElem?_append_left hj]
      exact hu0
    · rw [List.take_append_of_le_length (Nat.le_of_lt hj)]
      exact hl0

/-- In a static run every change of state is remembered by `prev_phase`. -/
theorem origin_run (ha : logic.adaptive = false) (hl : updates logic us = .ok l) :
    logic.SameRules l ∧ Origin logic us l := by
  induction us using List.reverseRecOn generalizing l with
  | nil =>
    obtain rfl := Except.ok.inj hl
    exact ⟨⟨rfl, rfl⟩, .initial rfl⟩
  | append_singleton us u ih =>
    have hl' := hl
    rw [updates_concat] at hl
    obtain ⟨a, hrun, hstep⟩ := bind_eq_ok.mp hl
    obtain ⟨hrules, hor⟩ := ih hrun
    obtain ⟨haged, hrules'⟩ := updateMstar_aged (hrules.adaptive.trans ha) hstep
    refine ⟨⟨hrules'.adaptive.trans hrules.adaptive,
      hrules'.transitionSet.trans hrules.transitionSet⟩, ?_⟩
    cases haged with
    | stay hs hp =>
      cases hor with
      | initial h0 => exact .initial (hs.trans h0)
      | changed j h => exact .changed j (h.keep hrun hl' hs hp)
    | change hs hp =>
      refine .changed us.length ⟨?_, fun i s hi hx => ?_, u, a, by simp, ?_, hp⟩
      · rw [changesTo_last hrun hl']
        exact ⟨rfl, hs⟩
      · have := hx.1
        rw [List.length_append, List.length_singleton] at this
        omega
      · rw [List.take_left]
        exact hrun

/-! ## Leaving STABLE -/

variable {c : UInt32}

theorem counted_hitrate_le {adaptive : Bool} (hc : 0 < c.toNat)
    (hl : updates (mstarLogicInit adaptive c.toNat) us = .ok l) (u : Bool × Bool) :
    phaseCacheHitrate (l.counted u.1 u.2).thisPhase ≤ 100 := by
  obtain ⟨l1, since, span, cleared, hclock⟩ := clock_run hc adaptive us
  obtain rfl := Except.ok.inj (hclock.run.symm.trans hl)
  exact (hclock.pushed hc c.toNat_lt u).1.hundredths_le

/-- In STABLE the decision looks at the phase before the change to STABLE, so it is the one
about the last requests only where both samples fall on the same side of the limit. -/
theorem mstar_leaves_stable (hc : 1 ≤ c.toNat)
    (hl : updates (mstarLogicInit false c.toNat) us = .ok l) (hs : l.state = .stable)
    (hend : (l.counted u.1 u.2).tabuCounter = 0) (hl' : updateMstar l u.1 u.2 = .ok l') :
    ∃ j u0 l0, us[j]? = some u0 ∧ updates (mstarLogicInit false c.toNat) (us.take j) = .ok l0 ∧
      ChangesTo (mstarLogicInit false c.toNat) us j .stable ∧
      (∀ i s, j < i → ¬ChangesTo (mstarLogicInit false c.toNat) us i s) ∧
      ((l'.state = .unstable ↔
          100 * phaseCacheHitrate (l.counted u.1 u.2).thisPhase ≤
            transitionValue (l.transitionSet .stableUnstablePercent) *
              windowStatsAverageHundredths (l.counted u.1 u.2).stateStats) ↔
        (100 * phaseCacheHitrate (l0.counted u0.1 u0.2).thisPhase ≤
            u32 (transitionValue (l.transitionSet .stableUnstablePercent) *
              windowStatsAverageHundredths (l.counted u.1 u.2).stateStats) ↔
          100 * phaseCacheHitrate (l.counted u.1 u.2).thisPhase ≤
            transitionValue (l.transitionSet .stableUnstablePercent) *
              windowStatsAverageHundredths (l.counted u.1 u.2).stateStats)) := by
  obtain ⟨⟨ha, _⟩, hor⟩ := origin_run rfl hl
  cases hor with
  | initial h0 =>
    rw [hs] at h0
    cases h0
  | changed j h =>
    obtain ⟨u0, l0, hu0, hl0, hprev⟩ := h.prev
    have hle := counted_hitrate_le hc hl0 u0
    have hiff := phaseEnd_stable ha hend hs hl'
    rw [hprev, u32_of_lt (by omega)] at hiff
    exact ⟨j, u0, l0, hu0, hl0, hs ▸ h.changes, h.last, by rw [hiff]⟩

/-- With one slot, a long row of misses and two hits lead to STABLE. -/
def coldRequests : List (Bool × Bool) :=
  List.replicate 198 (false, false) ++ [(true, false), (false, false), (true, false)]

set_option maxRecDepth 10000 in
theorem coldRequests_stable : ∃ l l', updates (mstarLogicInit false (1 : UInt32).toNat)
      coldRequests = .ok l ∧ l.state = .stable ∧ (l.counted false false).tabuCounter = 0 ∧
    (l.counted false false).thisPhase.cacheStats.sum = 0 ∧
    (l.counted false false).stateStats.sum = 0 ∧
    updateMstar l false false = .ok l' ∧ l'.state = .stable := by
  refine ⟨_, _, rfl, ?_, ?_, ?_, ?_, rfl, ?_⟩
  all_goals rfl

/-- A miss after that run leaves m* STABLE, for the last request before it was a hit. -/
theorem mstar_leaves_stable_late : ¬∀ (c : UInt32) (us : List (Bool × Bool)) (u : Bool × Bool)
    (l l' : MstarLogic), 1 ≤ c.toNat → updates (mstarLogicInit false c.toNat) us = .ok l →
    l.state = .stable → (l.counted u.1 u.2).tabuCounter = 0 →
    100 * (l.counted u.1 u.2).thisPhase.cacheStats.sum < 2 ^ 32 →
    100 * (l.counted u.1 u.2).stateStats.sum < 2 ^ 32 →
    updateMstar l u.1 u.2 = .ok l' →
    (l'.state = .unstable ↔ 100 * phaseCacheHitrate (l.counted u.1 u.2).thisPhase ≤
      transitionValue (l.transitionSet .stableUnstablePercent) *
        windowStatsAverageHundredths (l.counted u.1 u.2).stateStats) := by
  intro hall
  obtain ⟨l, l', hl, hs, hend, hsum, hstate, hl', hs'⟩ := coldRequests_stable
  have h := hall 1 coldRequests (false, false) l l' (by decide) hl hs hend
    (by rw [hsum]; decide) (by rw [hstate]; decide) hl'
  have hzero : phaseCacheHitrate (l.counted false false).thisPhase = 0 := by
    simp [phaseCacheHitrate, windowStatsAverageHundredths, hsum, u32]
  have hun := h.mpr (by rw [hzero]; exact Nat.zero_le _)
  rw [hs'] at hun
  cases hun

theorem mstar_leaves_stable_cold : ∃ l l' j u0 l0, l.state = .stable ∧
    updateMstar l false false = .ok l' ∧ coldRequests[j]? = some u0 ∧
    updates (mstarLogicInit false (1 : UInt32).toNat) (coldRequests.take j) = .ok l0 ∧
    ((l'.state = .unstable ↔ 100 * phaseCacheHitrate (l.counted false false).thisPhase ≤
        transitionValue (l.transitionSet .stableUnstablePercent) *
          windowStatsAverageHundredths (l.counted false false).stateStats) ↔
      (100 * phaseCacheHitrate (l0.counted u0.1 u0.2).thisPhase ≤
          u32 (transitionValue (l.transitionSet .stableUnstablePercent) *
            windowStatsAverageHundredths (l.counted false false).stateStats) ↔
        100 * phaseCacheHitrate (l.counted false false).thisPhase ≤
          transitionValue (l.transitionSet .stableUnstablePercent) *
            windowStatsAverageHundredths (l.counted false false).stateStats)) := by
  obtain ⟨l, l', hl, hs, hend, _, _, hl', _⟩ := coldRequests_stable
  obtain ⟨j, u0, l0, hu0, hl0, _, _, hiff⟩ := mstar_leaves_stable (u := (false, false)) (by decide)
    hl hs hend hl'
  exact ⟨l, l', j, u0, l0, hs, hl', hu0, hl0, hiff⟩

/-! ## Leaving UNSTABLE for UNIQUE -/

/-- A phase that did as well as the state and is no unique workload is kept out of UNIQUE
exactly when it did as well as the state a threshold of times over. -/
theorem mstar_keeps_unstable (hc : 1 ≤ c.toNat)
    (hl : updates (mstarLogicInit false c.toNat) us = .ok l) (hs : l.state = .unstable)
    (hend : (l.counted u.1 u.2).tabuCounter = 0) (hl' : updateMstar l u.1 u.2 = .ok l')
    (hstate : windowStatsAverageHundredths (l.counted u.1 u.2).stateStats ≤
      phaseCacheHitrate (l.counted u.1 u.2).thisPhase)
    (hunique : transitionValue (l.transitionSet .unstableUniquePercent) ≤
      phaseCacheHitrate (l.counted u.1 u.2).thisPhase) :
    l'.state ≠ .unique ↔
      transitionValue (l.transitionSet .unstableUniqueThreshold) *
          windowStatsAverageHundredths (l.counted u.1 u.2).stateStats ≤
        phaseCacheHitrate (l.counted u.1 u.2).thisPhase := by
  have hle := counted_hitrate_le hc hl u
  obtain ⟨ha, hset⟩ := (origin_run rfl hl).1
  have hvalue : transitionValue (l.transitionSet .unstableUniqueThreshold) = 60 := by
    simp [hset, mstarLogicInit, MstarLogic.setStat, mstarTransitionSetInit, transitionValue, u32]
  rw [Ne, phaseEnd_unstable ha hend hs hl', not_or, not_lt, not_lt, hvalue,
    u32_of_lt (by omega)]
  exact and_iff_left hunique

/-- With one slot, two hits in a row lead to UNIQUE. -/
theorem mstar_keeps_unstable_hits : ¬∀ (c : UInt32) (us : List (Bool × Bool)) (u : Bool × Bool)
    (l l' : MstarLogic), 1 ≤ c.toNat → updates (mstarLogicInit false c.toNat) us = .ok l →
    l.state = .unstable → (l.counted u.1 u.2).tabuCounter = 0 →
    100 * (l.counted u.1 u.2).thisPhase.cacheStats.sum < 2 ^ 32 →
    100 * (l.counted u.1 u.2).stateStats.sum < 2 ^ 32 →
    updateMstar l u.1 u.2 = .ok l' →
    windowStatsAverageHundredths (l.counted u.1 u.2).stateStats ≤
      phaseCacheHitrate (l.counted u.1 u.2).thisPhase →
    transitionValue (l.transitionSet .unstableUniquePercent) ≤
      phaseCacheHitrate (l.counted u.1 u.2).thisPhase →
    l'.state ≠ .unique := by
  intro hall
  exact hall 1 [(true, false)] (true, false) _ _ (by decide) rfl rfl rfl (by decide) (by decide)
    rfl (by decide) (by decide) rfl

/-- With one slot, a hit after a miss is no better than the state. -/
theorem mstar_keeps_unstable_pair : ∃ l l', updates (mstarLogicInit false (1 : UInt32).toNat)
      [(false, false)] = .ok l ∧ updateMstar l true false = .ok l' ∧
    (l'.state ≠ .unique ↔
      transitionValue (l.transitionSet .unstableUniqueThreshold) *
          windowStatsAverageHundredths (l.counted true false).stateStats ≤
        phaseCacheHitrate (l.counted true false).thisPhase) := by
  have hl : updates (mstarLogicInit false (1 : UInt32).toNat) [(false, false)] =
      .ok ((mstarLogicInit false (1 : UInt32).toNat).counted false false) := rfl
  refine ⟨_, _, hl, rfl, ?_⟩
  exact mstar_keeps_unstable (u := (true, false)) (by decide) hl rfl rfl rfl (by decide)
    (by decide)

end Fomo
