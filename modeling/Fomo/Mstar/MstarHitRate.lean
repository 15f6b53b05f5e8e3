import Fomo.Mstar.MstarLearning

/-!
# The hit rate of a state

The state statistics count every update since the last change to STABLE cleared them. Their
hit rate is the one of these updates until the hits times 100 leave 32 bits.
-/
namespace Fomo

variable {logic l l' : MstarLogic} {us recent recent' : List (Bool × Bool)} {u : Bool × Bool}
  {c : UInt32} {adaptive : Bool} {h n : Nat}

/-- `recent` are the updates since the state statistics were last cleared, which every change
to STABLE does. -/
structure SinceCleared (logic : MstarLogic) (us recent : List (Bool × Bool)) : Prop where
  suffix : ∃ old, us = old ++ recent ∧
    (old ≠ [] → ChangesTo logic us (old.length - 1) .stable)
  quiet : ∀ k, us.length - recent.length ≤ k → ¬ChangesTo logic us k .stable

theorem SinceCleared.length_le (hr : SinceCleared logic us recent)
    (hr' : SinceCleared logic us recent') : recent'.length ≤ recent.length := by
  obtain ⟨old, hus, hold⟩ := hr.suffix
  obtain ⟨old', hus', _⟩ := hr'.suffix
  by_contra hlt
  have hlen := congrArg List.length hus
  have hlen' := congrArg List.length hus'
  rw [List.length_append] at hlen hlen'
  have hne : old ≠ [] := by
    rintro rfl
    rw [List.length_nil] at hlen
    omega
  have hpos := List.length_pos_iff.mpr hne
  exact hr'.quiet _ (by omega) (hold hne)

/-- There is only one such list of updates. -/
theorem SinceCleared.unique (hr : SinceCleared logic us recent)
    (hr' : SinceCleared logic us recent') : recent = recent' := by
  obtain ⟨old, hus, _⟩ := hr.suffix
  obtain ⟨old', hus', _⟩ := hr'.suffix
  exact (List.append_inj' (hus.symm.trans hus')
    (Nat.le_antisymm (hr'.length_le hr) (hr.length_le hr'))).2

theorem sinceCleared_nil (logic : MstarLogic) : SinceCleared logic [] [] :=
  ⟨⟨[], rfl, fun hne => absurd rfl hne⟩, fun _ _ hk => absurd hk.1 (Nat.not_lt_zero _)⟩

/-- An update that does not clear the statistics is one more. -/
theorem SinceCleared.push (hr : SinceCleared logic us recent)
    (hno : ¬ChangesTo logic (us ++ [u]) us.length .stable) :
    SinceCleared logic (us ++ [u]) (recent ++ [u]) := by
  obtain ⟨old, hus, hold⟩ := hr.suffix
  refine ⟨⟨old, by rw [hus, List.append_assoc], fun hne => ?_⟩, fun k hk hch => ?_⟩
  · have hch := hold hne
    rwa [changesTo_append hch.1]
  · simp only [List.length_append, List.length_singleton] at hk
    by_cases hlt : k < us.length
    · rw [changesTo_append hlt] at hch
      exact hr.quiet k (by omega) hch
    · have hk' := hch.1
      rw [List.length_append, List.length_singleton] at hk'
      obtain rfl : k = us.length := by omega
      exact hno hch

theorem SinceCleared.clear (hch : ChangesTo logic (us ++ [u]) us.length .stable) :
    SinceCleared logic (us ++ [u]) [] := by
  refine ⟨⟨us ++ [u], by simp, fun _ => ?_⟩, fun k hk hx => ?_⟩
  · rw [List.length_append, List.length_singleton, Nat.add_sub_cancel]
    exact hch
  · exact absurd hx.1 (by simpa using hk)

/-! ## What the statistics hold -/

/-- The state statistics sum and count the updates `recent`. -/
structure WindowStats.Sums (stats : WindowStats) (recent : List (Bool × Bool)) : Prop where
  size : stats.size = 0
  sum : stats.sum = recent.countP fun u => u.1
  len : stats.len = recent.length

theorem WindowStats.Sums.push {stats : WindowStats} (hs : stats.Sums recent)
    (hlt : recent.length + 1 < 2 ^ 32) (u : Bool × Bool) :
    (windowStatsPush stats (bitOf u.1)).Sums (recent ++ [u]) := by
  have hle : recent.countP (fun u => u.1) ≤ recent.length := List.countP_le_length
  have hbit := bitOf_le u.1
  have hzero : ¬stats.size > 0 := by rw [hs.size]; exact lt_irrefl 0
  have hpush : windowStatsPush stats (bitOf u.1) = { stats with
      sum := u32 (stats.sum + bitOf u.1)
      len := u32 (stats.len + 1) } := by
    unfold windowStatsPush
    simp only [if_neg hzero]
  rw [hpush]
  refine ⟨hs.size, ?_, ?_⟩
  · show u32 (stats.sum + bitOf u.1) = _
    rw [hs.sum, u32_of_lt (by omega), List.countP_append, List.countP_singleton]
    rfl
  · show u32 (stats.len + 1) = _
    rw [hs.len, u32_of_lt (by omega), List.length_append, List.length_singleton]

theorem WindowStats.Sums.clear {stats : WindowStats} (hs : stats.Sums recent) :
    (windowStatsClear stats).Sums [] := ⟨hs.size, rfl, rfl⟩

/-- A decision clears the state statistics exactly when it changes to STABLE. -/
theorem changeIfAble_stateStats (logic : MstarLogic) :
    (logic.state.changeIfAble logic).stateStats =
      if (logic.state.changeIfAble logic).state = .stable ∧ logic.state ≠ .stable then
        windowStatsClear logic.stateStats
      else logic.stateStats := by
  cases hs : logic.state with
  | unstable =>
    simp only [MstarStateId.changeIfAble, changeFromUnstableIfAble]
    split
    · simp [stateTransitionTo]
    · split
      · simp [stateTransitionTo]
      · split
        · simp [stateTransitionTo]
        · split
          · simp [stateTransitionTo]
          · simp [hs]
  | stable =>
    simp only [MstarStateId.changeIfAble, changeFromStableIfAble]
    split
    · simp [stateTransitionTo]
    · simp
  | unique =>
    simp only [MstarStateId.changeIfAble, changeFromUniqueIfAble]
    split
    · simp [stateTransitionTo]
    · split
      · simp [stateTransitionTo]
      · simp [hs]

theorem closePhase_stateStats (logic : MstarLogic) : logic.closePhase.stateStats =
    if logic.closePhase.state = .stable ∧ logic.state ≠ .stable then
      windowStatsClear logic.stateStats
    else logic.stateStats := changeIfAble_stateStats logic.deciding

/-- The state statistics follow every run. -/
theorem sums_run (hc : 0 < c.toNat) (hl : updates (mstarLogicInit adaptive c.toNat) us = .ok l)
    (hlt : us.length < 2 ^ 32) : ∃ recent,
      SinceCleared (mstarLogicInit adaptive c.toNat) us recent ∧ l.stateStats.Sums recent := by
  induction us using List.reverseRecOn generalizing l with
  | nil =>
    obtain rfl := Except.ok.inj hl
    refine ⟨[], sinceCleared_nil _, ?_⟩
    cases adaptive
    · exact ⟨rfl, rfl, rfl⟩
    · exact ⟨rfl, rfl, rfl⟩
  | append_singleton us u ih =>
    have hl' := hl
    rw [updates_concat] at hl
    obtain ⟨a, hrun, hstep⟩ := bind_eq_ok.mp hl
    rw [List.length_append, List.length_singleton] at hlt
    obtain ⟨recent, hr, hs⟩ := ih hrun (by omega)
    have hfits : recent.length ≤ us.length := by
      obtain ⟨old, hus, _⟩ := hr.suffix
      rw [hus, List.length_append]
      exact Nat.le_add_left _ _
    have hpush : (a.counted u.1 u.2).stateStats.Sums (recent ++ [u]) := hs.push (by omega) u
    have hchange := changesTo_last hrun hl' .stable
    rcases (sane_run hc hrun).updated hc hstep with rfl | ⟨mid, hmid, rfl⟩
    · refine ⟨recent ++ [u], hr.push fun hx => ?_, hpush⟩
      exact (hchange.mp hx).2 (hchange.mp hx).1.symm
    · rw [closePhase_stateStats, hmid.state, hmid.stateStats]
      have hstate : (a.counted u.1 u.2).state = a.state := rfl
      split
      · next hst =>
        exact ⟨[], .clear (hchange.mpr ⟨hst.1, (hstate ▸ hst.2).symm⟩), hpush.clear⟩
      · next hst =>
        refine ⟨recent ++ [u], hr.push fun hx => hst ?_, hpush⟩
        exact ⟨(hchange.mp hx).1, fun heq => (hchange.mp hx).2 (heq.symm.trans hstate)⟩

/-! ## The hit rate -/

/-- The wrapped quotient is right until the dividend wraps. -/
theorem hundredths_iff (hle : h ≤ n) (hn : 0 < n) (hlt : n < 2 ^ 32) :
    u32 (100 * h) / n = 100 * h / n ↔ 100 * h < 2 ^ 32 := by
  constructor
  · intro heq
    by_contra hge
    have hwrap : u32 (100 * h) + n ≤ 100 * h := by
      unfold u32
      omega
    have hdiv := Nat.div_le_div_right (c := n) hwrap
    rw [Nat.add_div_right _ hn, heq] at hdiv
    exact absurd hdiv (Nat.not_succ_le_self _)
  · intro hsmall
    rw [u32_of_lt hsmall]

theorem WindowStats.Sums.hundredths_iff {stats : WindowStats} (hs : stats.Sums recent)
    (hlt : recent.length < 2 ^ 32) :
    (windowStatsAverageHundredths stats = 100 * recent.countP (fun u => u.1) / recent.length ∧
      windowStatsAverageHundredths stats ≤ 100) ↔
      100 * recent.countP (fun u => u.1) < 2 ^ 32 := by
  have hle : recent.countP (fun u => u.1) ≤ recent.length := List.countP_le_length
  have hbound : u32 (100 * recent.countP fun u => u.1) / recent.length ≤ 100 := by
    refine Nat.div_le_of_le_mul ((u32_le _).trans ?_)
    rw [Nat.mul_comm]
    exact Nat.mul_le_mul_right _ hle
  unfold windowStatsAverageHundredths
  rw [hs.sum, hs.len]
  by_cases hzero : recent.length = 0
  · rw [if_pos hzero, hzero, Nat.div_zero]
    exact iff_of_true ⟨rfl, Nat.zero_le _⟩ (by omega)
  · rw [if_neg hzero, and_iff_left hbound]
    exact Fomo.hundredths_iff hle (Nat.pos_of_ne_zero hzero) hlt

/-- After every run shorter than the counter the hit rate of the state statistics is the one
since they were cleared, as long as the hits times 100 fit 32 bits. -/
theorem mstar_hit_rate (hc : 1 ≤ c.toNat)
    (hl : updates (mstarLogicInit adaptive c.toNat) us = .ok l) (hlt : us.length < 2 ^ 32)
    (hr : SinceCleared (mstarLogicInit adaptive c.toNat) us recent) :
    (windowStatsAverageHundredths l.stateStats =
        100 * recent.countP (fun u => u.1) / recent.length ∧
      windowStatsAverageHundredths l.stateStats ≤ 100) ↔
      100 * recent.countP (fun u => u.1) < 2 ^ 32 := by
  obtain ⟨recent', hr', hs⟩ := sums_run hc hl hlt
  obtain rfl := hr.unique hr'
  obtain ⟨old, hus, _⟩ := hr.suffix
  have hlen := congrArg List.length hus
  rw [List.length_append] at hlen
  exact hs.hundredths_iff (by omega)

/-- With 2 ^ 25 slots the first phase outlasts the hits that make the dividend wrap. -/
theorem mstar_hit_rate_wrapped : ¬∀ (c : UInt32) (adaptive : Bool) (us recent : List (Bool × Bool))
    (l : MstarLogic), 1 ≤ c.toNat → updates (mstarLogicInit adaptive c.toNat) us = .ok l →
    us.length < 2 ^ 32 → SinceCleared (mstarLogicInit adaptive c.toNat) us recent →
    windowStatsAverageHundredths l.stateStats =
        100 * recent.countP (fun u => u.1) / recent.length ∧
      windowStatsAverageHundredths l.stateStats ≤ 100 := by
  intro hall
  obtain ⟨us, hus⟩ : ∃ us, us = List.replicate 42949673 (true, false) := ⟨_, rfl⟩
  have hlen : us.length = 42949673 := by rw [hus, List.length_replicate]
  have hcount : us.countP (fun u => u.1) = 42949673 := by
    rw [hus, List.countP_replicate]
    rfl
  have hc : 0 < (33554432 : UInt32).toNat := by decide
  obtain ⟨l, since, span, cleared, hclock⟩ := clock_run hc true us
  have hshort : us.length < unstableSpan (33554432 : UInt32).toNat := by
    rw [hlen]
    decide
  have hr : SinceCleared (mstarLogicInit true (33554432 : UInt32).toNat) us us := by
    refine ⟨⟨[], rfl, fun hne => absurd rfl hne⟩, fun k _ hch => ?_⟩
    exact not_entersAt_of_short hc hshort k (hch.entersAt hc)
  obtain ⟨recent, hr', hs⟩ := sums_run hc hclock.run (by omega)
  obtain rfl := hr.unique hr'
  have hwrap := (hs.hundredths_iff (by omega)).mp
    (hall 33554432 true us us l hc hclock.run (by omega) hr)
  rw [hcount] at hwrap
  exact absurd hwrap (by decide)

/-- With one slot, after one hit. -/
theorem mstar_hit_rate_hit : ∃ l, updates (mstarLogicInit true (1 : UInt32).toNat)
      [(true, false)] = .ok l ∧ (windowStatsAverageHundredths l.stateStats = 100 * 1 / 1 ∧
        windowStatsAverageHundredths l.stateStats ≤ 100 ↔ 100 * 1 < 2 ^ 32) := by
  have hl : updates (mstarLogicInit true (1 : UInt32).toNat) [(true, false)] =
      .ok ((mstarLogicInit true (1 : UInt32).toNat).counted true false) := rfl
  have hr : SinceCleared (mstarLogicInit true (1 : UInt32).toNat) [(true, false)]
      [(true, false)] := by
    refine ⟨⟨[], rfl, fun hne => absurd rfl hne⟩, fun k _ hch => ?_⟩
    exact not_entersAt_of_short (c := 1) (by decide) (by decide) k (hch.entersAt (by decide))
  exact ⟨_, hl, mstar_hit_rate (by decide) hl (by decide) hr⟩

end Fomo
