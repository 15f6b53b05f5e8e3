import Fomo.Mstar.MstarDecisions

/-!
# What adaptive m* learns

At a phase end after a transition the parameter of the transition is moved, one way when
the transition was an improvement and the other way when it was not. The parameters are
moved within their scale, but a value is not an interpolation between the ends it declares.
-/
namespace Fomo

open Lib

variable {logic logic' l l' : MstarLogic} {us : List (Bool × Bool)} {u : Bool × Bool}
  {trans : MstarTransitionId} {c : UInt32} {adaptive : Bool}

/-! ## Moving a parameter -/

/-- The `stat` that an adaptation makes of `cur`. -/
def MstarAdjustment.next (cur : Nat) : MstarAdjustment → Nat
  | .increaseParam => if cur = 0 then 1000 else min 1000 (u32 (cur + 1000 / cur))
  | .decreaseParam =>
    let cur := if cur = 1000 then 0 else cur
    if cur > 1000 / (1000 - cur) then cur - 1000 / (1000 - cur) else 0

theorem MstarAdjustment.next_le {cur : Nat} (hcur : cur ≤ 1000) (adj : MstarAdjustment) :
    adj.next cur ≤ 1000 := by
  cases adj with
  | increaseParam =>
    unfold MstarAdjustment.next
    dsimp only
    split
    · exact Nat.le_refl _
    · exact Nat.min_le_left _ _
  | decreaseParam =>
    unfold MstarAdjustment.next
    dsimp only
    generalize hlow : (if cur = 1000 then 0 else cur) = low
    have hle : low ≤ 1000 := by
      rw [← hlow]
      split
      · exact Nat.zero_le _
      · exact hcur
    split
    · exact (Nat.sub_le _ _).trans hle
    · exact Nat.zero_le _

/-- An adaptation within the scale never divides by zero. -/
theorem MstarAdjustment.call_next (hl : l.lastTransition = some trans)
    (hs : (l.transitionSet trans).stat ≤ 1000) (adj : MstarAdjustment) :
    adj.call l = .ok (l.setStat trans (adj.next (l.transitionSet trans).stat)) := by
  cases adj with
  | increaseParam =>
    simp only [MstarAdjustment.call, transitionIncreaseParam, hl, deref_some, ok_bind,
      MstarAdjustment.next]
    split
    · rfl
    · next hcur => simp only [div32_of_pos (Nat.pos_of_ne_zero hcur), ok_bind, pure_eq_ok]
  | decreaseParam =>
    simp only [MstarAdjustment.call, transitionDecreaseParam, hl, deref_some, ok_bind,
      MstarAdjustment.next]
    generalize hcur : (if (l.transitionSet trans).stat = 1000 then 0
      else (l.transitionSet trans).stat) = cur
    have hlt : cur < 1000 := by
      rw [← hcur]
      split
      · decide
      · omega
    rw [sub32_of_le (by omega) (by decide), div32_of_pos (by omega), ok_bind]
    split
    · simp only [pure_eq_ok, Nat.zero_le, Nat.max_eq_right]
    · rfl

/-! ## Runs of adaptations -/

/-- An adaptation of the transition that `last_transition` points at. -/
def adapt (logic : MstarLogic) (x : MstarTransitionId × MstarAdjustment) : Exec MstarLogic :=
  x.2.call { logic with lastTransition := some x.1 }

/-- The adaptations, one after the other. -/
def adapts (logic : MstarLogic) (xs : List (MstarTransitionId × MstarAdjustment)) :
    Exec MstarLogic := xs.foldlM adapt logic

/-- The parameters keep their scale and the ends they declare. -/
structure MstarLogic.Scaled (l : MstarLogic) : Prop where
  stat_le : ∀ trans, (l.transitionSet trans).stat ≤ 1000
  min : ∀ trans, (l.transitionSet trans).min = (mstarTransitionSetInit trans).min
  max : ∀ trans, (l.transitionSet trans).max = (mstarTransitionSetInit trans).max

theorem MstarLogic.Scaled.setStat (h : l.Scaled) (trans : MstarTransitionId) {stat : Nat}
    (hs : stat ≤ 1000) : (l.setStat trans stat).Scaled := by
  have hcases : ∀ t, (l.setStat trans stat).transitionSet t =
      if t = trans then { l.transitionSet trans with stat := stat } else l.transitionSet t :=
    fun t => Function.update_apply _ _ _ _
  refine ⟨fun t => ?_, fun t => ?_, fun t => ?_⟩
  all_goals rw [hcases]
  all_goals split
  · exact hs
  · exact h.stat_le t
  · next ht => exact ht ▸ h.min trans
  · exact h.min t
  · next ht => exact ht ▸ h.max trans
  · exact h.max t

theorem MstarLogic.Scaled.adapt (h : l.Scaled) (x : MstarTransitionId × MstarAdjustment) :
    ∃ l', Fomo.adapt l x = .ok l' ∧ l'.Scaled := by
  have hs : (({ l with lastTransition := some x.1 } : MstarLogic).transitionSet x.1).stat ≤ 1000 :=
    h.stat_le x.1
  have h1 : ({ l with lastTransition := some x.1 } : MstarLogic).Scaled := ⟨h.stat_le, h.min, h.max⟩
  exact ⟨_, MstarAdjustment.call_next rfl hs x.2,
    h1.setStat x.1 (MstarAdjustment.next_le hs x.2)⟩

theorem MstarLogic.Scaled.adapts (h : l.Scaled) (xs : List (MstarTransitionId × MstarAdjustment)) :
    ∃ l', Fomo.adapts l xs = .ok l' ∧ l'.Scaled := by
  induction xs generalizing l with
  | nil => exact ⟨l, rfl, h⟩
  | cons x xs ih =>
    obtain ⟨l1, hrun, h1⟩ := h.adapt x
    obtain ⟨l', hruns, h'⟩ := ih h1
    refine ⟨l', ?_, h'⟩
    rw [Fomo.adapts, List.foldlM_cons, hrun]
    exact hruns

theorem scaled_init (logic : MstarLogic) :
    ({ logic with transitionSet := mstarTransitionSetInit } : MstarLogic).Scaled :=
  ⟨mstarTransitionSetInit_le, fun _ => rfl, fun _ => rfl⟩

/-! ## The values of the parameters -/

/-- The largest `stat` with which the value of the transition is at most its `max`. -/
def MstarTransitionId.statLimit : MstarTransitionId → Nat
  | .unstableStableThreshold => 949
  | .unstableStablePercent => 306
  | .unstableUniqueThreshold => 762
  | .unstableUniquePercent => 959
  | .stableUnstablePercent => 455
  | .uniqueUnstableThreshold => 999
  | .uniqueUnstablePercent => 999

/-- No value wraps. -/
theorem MstarLogic.Scaled.value_eq (h : l.Scaled) (trans : MstarTransitionId) :
    transitionValue (l.transitionSet trans) = (mstarTransitionSetInit trans).max *
      (l.transitionSet trans).stat / 1000 + (mstarTransitionSetInit trans).min := by
  have hends : (mstarTransitionSetInit trans).max ≤ 150 ∧
      (mstarTransitionSetInit trans).min ≤ 105 := by
    cases trans
    all_goals decide
  have hprod := Nat.mul_le_mul hends.1 (h.stat_le trans)
  have hin : u32 ((mstarTransitionSetInit trans).max * (l.transitionSet trans).stat) =
      (mstarTransitionSetInit trans).max * (l.transitionSet trans).stat := u32_of_lt (by omega)
  rw [transitionValue, h.min, h.max, hin, u32_of_lt (by omega)]

theorem MstarLogic.Scaled.value_iff (h : l.Scaled) (trans : MstarTransitionId) :
    ((l.transitionSet trans).min ≤ transitionValue (l.transitionSet trans) ∧
      transitionValue (l.transitionSet trans) ≤ (l.transitionSet trans).max) ↔
      (l.transitionSet trans).stat ≤ trans.statLimit := by
  rw [h.value_eq, h.min, h.max]
  generalize (l.transitionSet trans).stat = stat
  cases trans
  all_goals
    simp only [mstarTransitionSetInit, MstarTransitionId.statLimit]
    omega

/-! ## What a phase end does -/

/-- `mid` is `logic` after at most one adaptation. -/
structure MstarLogic.Learns (logic mid : MstarLogic) : Prop where
  thisPhase : mid.thisPhase = logic.thisPhase
  prevPhase : mid.prevPhase = logic.prevPhase
  stateStats : mid.stateStats = logic.stateStats
  state : mid.state = logic.state
  transitionSet : mid.transitionSet = logic.transitionSet ∨ ∃ trans adj,
    adapt logic (trans, adj) = .ok { logic with
      lastTransition := some trans
      transitionSet := mid.transitionSet }

/-- A phase end decides, after learning about the last transition when it is recent. -/
theorem MstarLogic.Sane.learns {T : Nat} (h : logic.Sane T) (hT : 0 < T)
    (hrun : logic.enterNewPhase = .ok logic') :
    ∃ mid, logic.Learns mid ∧ logic' = mid.closePhase := by
  unfold MstarLogic.enterNewPhase at hrun
  by_cases ha : logic.adaptive = true
  · rw [if_pos ha] at hrun
    by_cases hr : logic.recentTransition = true
    · obtain ⟨trans, adj, hcall⟩ := h.adaptive_eq hT hr
      let start : MstarLogic := { logic with
        tabuCounter := logic.tabu
        recentTransition := false
        lastTransition := some trans }
      have hadj : adj.call start =
          .ok (start.setStat trans (adj.next (logic.transitionSet trans).stat)) :=
        MstarAdjustment.call_next (l := start) rfl (h.stat_le trans) adj
      rw [hcall, hadj, ok_bind] at hrun
      obtain rfl := Except.ok.inj hrun
      refine ⟨start.setStat trans (adj.next (logic.transitionSet trans).stat),
        ⟨rfl, rfl, rfl, rfl, Or.inr ⟨trans, adj, ?_⟩⟩, rfl⟩
      exact MstarAdjustment.call_next (l := { logic with lastTransition := some trans }) rfl
        (h.stat_le trans) adj
    · simp only [adaptiveNewPhase, hr, Bool.false_eq_true, if_false, ok_bind, pure_eq_ok] at hrun
      let mid : MstarLogic := { logic with tabuCounter := logic.tabu, recentTransition := false }
      obtain rfl : mid.closePhase = logic' := Except.ok.inj hrun
      exact ⟨mid, ⟨rfl, rfl, rfl, rfl, Or.inl rfl⟩, rfl⟩
  · rw [if_neg ha] at hrun
    obtain rfl : logic.restarted.closePhase = logic' := Except.ok.inj hrun
    exact ⟨logic.restarted, ⟨rfl, rfl, rfl, rfl, Or.inl rfl⟩, rfl⟩

theorem MstarLogic.Sane.updated {T : Nat} (h : logic.Sane T) (hT : 0 < T)
    (hrun : updateMstar logic u.1 u.2 = .ok logic') : logic' = logic.counted u.1 u.2 ∨
      ∃ mid, (logic.counted u.1 u.2).Learns mid ∧ logic' = mid.closePhase := by
  unfold updateMstar at hrun
  dsimp only at hrun
  split at hrun
  · exact Or.inr ((h.counted u.1 u.2).learns hT hrun)
  · exact Or.inl (Except.ok.inj hrun).symm

theorem sane_run (hc : 0 < c.toNat) (hl : updates (mstarLogicInit adaptive c.toNat) us = .ok l) :
    l.Sane c.toNat := by
  obtain ⟨l1, since, span, cleared, hclock⟩ := clock_run hc adaptive us
  obtain rfl := Except.ok.inj (hclock.run.symm.trans hl)
  exact hclock.sane

/-! ## The parameters of a run -/

theorem mstarLogicInit_scaled (adaptive : Bool) (n : Nat) : (mstarLogicInit adaptive n).Scaled := by
  cases adaptive with
  | true => exact ⟨mstarTransitionSetInit_le, fun _ => rfl, fun _ => rfl⟩
  | false =>
    apply MstarLogic.Scaled.setStat _ _ (by decide)
    apply MstarLogic.Scaled.setStat _ _ (by decide)
    apply MstarLogic.Scaled.setStat _ _ (by decide)
    exact ⟨mstarTransitionSetInit_le, fun _ => rfl, fun _ => rfl⟩

theorem MstarLogic.Scaled.congr (h : l.Scaled) (hset : l'.transitionSet = l.transitionSet) :
    l'.Scaled :=
  ⟨fun t => hset ▸ h.stat_le t, fun t => hset ▸ h.min t, fun t => hset ▸ h.max t⟩

theorem MstarLogic.Learns.scaled (h : logic.Learns l) (hs : logic.Scaled) : l.Scaled := by
  rcases h.transitionSet with hset | ⟨trans, adj, hrun⟩
  · exact hs.congr hset
  · obtain ⟨l1, hrun1, h1⟩ := hs.adapt (trans, adj)
    obtain rfl := Except.ok.inj (hrun1.symm.trans hrun)
    exact h1.congr rfl

/-- Along every run the parameters keep their scale. -/
theorem scaled_run (hc : 0 < c.toNat) (hl : updates (mstarLogicInit adaptive c.toNat) us = .ok l) :
    l.Scaled := by
  induction us using List.reverseRecOn generalizing l with
  | nil =>
    obtain rfl := Except.ok.inj hl
    exact mstarLogicInit_scaled adaptive c.toNat
  | append_singleton us u ih =>
    rw [updates_concat] at hl
    obtain ⟨a, hrun, hstep⟩ := bind_eq_ok.mp hl
    rcases (sane_run hc hrun).updated hc hstep with heq | ⟨mid, hmid, rfl⟩
    · rw [heq]
      exact (ih hrun).congr rfl
    · have hcounted : (a.counted u.1 u.2).Scaled := (ih hrun).congr rfl
      exact (hmid.scaled hcounted).congr (closePhase_aged mid).2.transitionSet

/-- An adaptation depends on the parameters only. -/
theorem MstarLogic.Scaled.adapt_congr (h : l.Scaled) (hset : l'.transitionSet = l.transitionSet)
    {x : MstarTransitionId × MstarAdjustment} {a : MstarLogic} (hrun : Fomo.adapt l x = .ok a) :
    ∃ a', Fomo.adapt l' x = .ok a' ∧ a'.transitionSet = a.transitionSet := by
  have hcall : ∀ {m : MstarLogic}, m.Scaled → Fomo.adapt m x =
      .ok (({ m with lastTransition := some x.1 } : MstarLogic).setStat x.1
        (x.2.next (m.transitionSet x.1).stat)) := by
    intro m hm
    exact MstarAdjustment.call_next (l := { m with lastTransition := some x.1 }) rfl
      (hm.stat_le x.1) x.2
  obtain rfl := Except.ok.inj ((hcall h).symm.trans hrun)
  refine ⟨_, hcall (h.congr hset), ?_⟩
  simp only [MstarLogic.setStat, hset]

theorem adapts_concat (xs : List (MstarTransitionId × MstarAdjustment))
    (x : MstarTransitionId × MstarAdjustment) :
    adapts logic (xs ++ [x]) = (adapts logic xs >>= fun l => adapt l x) := by
  rw [adapts, List.foldlM_append]
  simp only [List.foldlM_cons, List.foldlM_nil, bind_pure]
  rfl

/-- The parameters of an adaptive run are those that some adaptations lead to. -/
theorem adapts_of_run (hc : 0 < c.toNat) (hl : updates (mstarLogicInit true c.toNat) us = .ok l) :
    ∃ xs l', adapts (mstarLogicInit true c.toNat) xs = .ok l' ∧
      l'.transitionSet = l.transitionSet := by
  induction us using List.reverseRecOn generalizing l with
  | nil =>
    obtain rfl := Except.ok.inj hl
    exact ⟨[], _, rfl, rfl⟩
  | append_singleton us u ih =>
    rw [updates_concat] at hl
    obtain ⟨a, hrun, hstep⟩ := bind_eq_ok.mp hl
    obtain ⟨xs, l', hxs, hset⟩ := ih hrun
    rcases (sane_run hc hrun).updated hc hstep with heq | ⟨mid, hmid, rfl⟩
    · exact ⟨xs, l', hxs, by rw [heq, hset]; rfl⟩
    · rw [(closePhase_aged mid).2.transitionSet]
      rcases hmid.transitionSet with hsame | ⟨trans, adj, hadapt⟩
      · exact ⟨xs, l', hxs, by rw [hsame, hset]; rfl⟩
      · have hcounted : (a.counted u.1 u.2).Scaled := (scaled_run hc hrun).congr rfl
        have hset' : l'.transitionSet = (a.counted u.1 u.2).transitionSet := hset
        obtain ⟨l1, hrun1, hset1⟩ := hcounted.adapt_congr hset' hadapt
        refine ⟨xs ++ [(trans, adj)], l1, ?_, hset1⟩
        rw [adapts_concat, hxs]
        exact hrun1

/-- Every sequence of adaptations answers and keeps the scale, and the value of a transition
lies between its ends exactly up to a limit of its `stat`. An adaptive run has the parameters that
one of these sequences leads to. -/
theorem mstar_parameters (logic : MstarLogic)
    (xs : List (MstarTransitionId × MstarAdjustment)) :
    (∃ l, adapts { logic with transitionSet := mstarTransitionSetInit } xs = .ok l ∧
      ∀ trans, (l.transitionSet trans).stat ≤ 1000 ∧
        (((l.transitionSet trans).min ≤ transitionValue (l.transitionSet trans) ∧
          transitionValue (l.transitionSet trans) ≤ (l.transitionSet trans).max) ↔
        (l.transitionSet trans).stat ≤ trans.statLimit)) ∧
    ∀ (c : UInt32) (us : List (Bool × Bool)) (l : MstarLogic), 0 < c.toNat →
      updates (mstarLogicInit true c.toNat) us = .ok l →
      ∃ ys l', adapts (mstarLogicInit true c.toNat) ys = .ok l' ∧
        l'.transitionSet = l.transitionSet := by
  obtain ⟨l, hrun, h⟩ := (scaled_init logic).adapts xs
  exact ⟨⟨l, hrun, fun trans => ⟨h.stat_le trans, h.value_iff trans⟩⟩,
    fun _ _ _ hc hl => adapts_of_run hc hl⟩

/-- With one slot a transition to UNIQUE is followed by a drop, and its parameter by one step. -/
theorem mstar_parameters_raised : ∃ l ys l',
    updates (mstarLogicInit true (1 : UInt32).toNat)
      [(false, false), (false, true), (false, false)] = .ok l ∧
    (l.transitionSet .unstableUniquePercent).stat = 137 ∧
    adapts (mstarLogicInit true (1 : UInt32).toNat) ys = .ok l' ∧
    l'.transitionSet = l.transitionSet := by
  obtain ⟨l, hl, hraised⟩ : ∃ l, updates (mstarLogicInit true (1 : UInt32).toNat)
      [(false, false), (false, true), (false, false)] = .ok l ∧
      (l.transitionSet .unstableUniquePercent).stat = 137 := ⟨_, rfl, rfl⟩
  obtain ⟨ys, l', hys, hset⟩ := (mstar_parameters (mstarLogicInit true 1) []).2 1 _ l (by decide) hl
  exact ⟨l, ys, l', hl, hraised, hys, hset⟩

/-- Two of the initial values are already above their ends. -/
theorem mstar_parameters_above : ¬∀ (logic l : MstarLogic)
    (xs : List (MstarTransitionId × MstarAdjustment)),
    adapts { logic with transitionSet := mstarTransitionSetInit } xs = .ok l → ∀ trans,
    (l.transitionSet trans).stat ≤ 1000 ∧
      (l.transitionSet trans).min ≤ transitionValue (l.transitionSet trans) ∧
      transitionValue (l.transitionSet trans) ≤ (l.transitionSet trans).max := by
  intro hall
  have h := hall (mstarLogicInit true 1) _ [] rfl .unstableStablePercent
  exact absurd h.2.2 (by decide)

/-! ## The ghost hits of two phases -/

theorem WindowStats.Holds.sum_le {stats : WindowStats} {size : Nat} {bits : List Nat}
    (h : stats.Holds size bits) : stats.sum ≤ size := by
  rw [h.sum]
  exact (sum_le_length h.bits).trans h.rings.fits

theorem counted_ghosts_le (hc : 0 < c.toNat)
    (hl : updates (mstarLogicInit adaptive c.toNat) us = .ok l) (u : Bool × Bool) :
    (l.counted u.1 u.2).thisPhase.ghostStats.sum ≤ c.toNat := by
  obtain ⟨l1, since, span, cleared, hclock⟩ := clock_run hc adaptive us
  obtain rfl := Except.ok.inj (hclock.run.symm.trans hl)
  exact (hclock.pushed hc c.toNat_lt u).2.sum_le

/-- After a phase end `prev_phase` has the ghost hits of the phase that ended. -/
theorem closePhase_ghosts (l : MstarLogic) :
    l.closePhase.prevPhase.ghostStats.sum = l.thisPhase.ghostStats.sum := by
  have hch : l.deciding.Changes l.closePhase := changeIfAble_changes l.deciding
  generalize l.closePhase = logic' at hch
  cases hch with
  | stay => rfl
  | change trans clear hne => rfl

theorem counted_prev (l : MstarLogic) (c g : Bool) : (l.counted c g).prevPhase = l.prevPhase := rfl

theorem counted_transitionSet (l : MstarLogic) (c g : Bool) :
    (l.counted c g).transitionSet = l.transitionSet := rfl

theorem prev_ghosts_le (hc : 0 < c.toNat)
    (hl : updates (mstarLogicInit adaptive c.toNat) us = .ok l) :
    l.prevPhase.ghostStats.sum ≤ c.toNat := by
  induction us using List.reverseRecOn generalizing l with
  | nil =>
    obtain rfl := Except.ok.inj hl
    cases adaptive
    · exact Nat.zero_le _
    · exact Nat.zero_le _
  | append_singleton us u ih =>
    rw [updates_concat] at hl
    obtain ⟨a, hrun, hstep⟩ := bind_eq_ok.mp hl
    rcases (sane_run hc hrun).updated hc hstep with heq | ⟨mid, hmid, rfl⟩
    · rw [heq, counted_prev]
      exact ih hrun
    · rw [closePhase_ghosts, hmid.thisPhase]
      exact counted_ghosts_le hc hrun u

/-- A loss of `d` ghost hits, as the subtraction and the product wrap it. -/
theorem sub32_loss {a b : Nat} (hab : a ≤ b) (hb : b < 2 ^ 32) :
    u32 (sub32 a b * 100) = u32 (2 ^ 32 - u32 (100 * (b - a))) := by
  obtain ⟨d, rfl⟩ := Nat.exists_eq_add_of_le hab
  have hsub : sub32 a (a + d) = u32 (2 ^ 32 - d) := by
    unfold sub32
    congr 1
    omega
  rw [hsub, Nat.add_sub_cancel_left]
  unfold u32
  omega

theorem improvedUnique_iff {T : Nat} (hT : l.tabu = T) (hpos : 0 < T)
    (hrate : phaseCacheHitrate l.thisPhase ≤
      transitionValue (l.transitionSet .uniqueUnstablePercent)) :
    transitionImprovedUnique l = .ok false ↔
      u32 (sub32 l.thisPhase.ghostStats.sum l.prevPhase.ghostStats.sum * 100) <
        (transitionValue (l.transitionSet .uniqueUnstableThreshold) + 1) * T := by
  have hno : ¬phaseCacheHitrate l.thisPhase >
      transitionValue (l.transitionSet .uniqueUnstablePercent) := not_lt.mpr hrate
  simp only [transitionImprovedUnique, hT, div32_of_pos hpos, ok_bind, pure_eq_ok, hno,
    decide_false, Bool.or_false, Except.ok.injEq, decide_eq_false_iff_not]
  rw [not_lt, ← Nat.lt_succ_iff, Nat.div_lt_iff_lt_mul hpos]

/-- A phase without more ghost hits and with few hits counts as no improvement exactly where
the loss of ghost hits wraps to little. For caches of an ordinary size it must be no loss. -/
theorem mstar_unique_improvement (hc : 1 ≤ c.toNat)
    (hl : updates (mstarLogicInit true c.toNat) us = .ok l)
    (hghosts : (l.counted u.1 u.2).thisPhase.ghostStats.sum ≤ l.prevPhase.ghostStats.sum)
    (hrate : phaseCacheHitrate (l.counted u.1 u.2).thisPhase ≤
      transitionValue (l.transitionSet .uniqueUnstablePercent)) :
    (transitionImprovedUnique (l.counted u.1 u.2) = .ok false ↔
      u32 (2 ^ 32 - u32 (100 * (l.prevPhase.ghostStats.sum -
          (l.counted u.1 u.2).thisPhase.ghostStats.sum))) <
        (transitionValue (l.transitionSet .uniqueUnstableThreshold) + 1) * c.toNat) ∧
    (132 * c.toNat ≤ 2 ^ 32 →
      (transitionImprovedUnique (l.counted u.1 u.2) = .ok false ↔
        (l.counted u.1 u.2).thisPhase.ghostStats.sum = l.prevPhase.ghostStats.sum)) := by
  have hprev := prev_ghosts_le hc hl
  have hlt := c.toNat_lt
  have hiff := improvedUnique_iff (l := l.counted u.1 u.2) (sane_run hc hl).tabu hc hrate
  have hloss := sub32_loss hghosts (hprev.trans_lt hlt)
  have hvalue : transitionValue (l.transitionSet .uniqueUnstableThreshold) ≤ 31 := by
    have hscaled := scaled_run hc hl
    have hstat := hscaled.stat_le .uniqueUnstableThreshold
    rw [hscaled.value_eq]
    simp only [mstarTransitionSetInit]
    omega
  rw [counted_prev, hloss, counted_transitionSet] at hiff
  refine ⟨hiff, fun hsmall => hiff.trans ?_⟩
  generalize hd : l.prevPhase.ghostStats.sum - (l.counted u.1 u.2).thisPhase.ghostStats.sum = d
  constructor
  · intro hwrap
    -- a loss of a single ghost hit already wraps beyond every threshold
    by_contra hne
    have hprod := Nat.mul_le_mul_right c.toNat (Nat.add_le_add_right hvalue 1)
    rw [u32_of_lt (n := 100 * d) (by omega), u32_of_lt (by omega)] at hwrap
    omega
  · intro heq
    obtain rfl : d = 0 := by omega
    simp only [Nat.mul_zero, u32]
    exact Nat.mul_pos (Nat.succ_pos _) hc

/-- With one slot, a ghost hit and then none count as an improvement. -/
theorem mstar_unique_improvement_wrapped : ¬∀ (c : UInt32) (us : List (Bool × Bool))
    (u : Bool × Bool) (l : MstarLogic), 1 ≤ c.toNat →
    updates (mstarLogicInit true c.toNat) us = .ok l → (l.counted u.1 u.2).tabuCounter = 0 →
    l.recentTransition = true → (l.lastTransition = some .unstableUniqueThreshold ∨
      l.lastTransition = some .unstableUniquePercent) →
    (l.counted u.1 u.2).thisPhase.ghostStats.sum ≤ l.prevPhase.ghostStats.sum →
    phaseCacheHitrate (l.counted u.1 u.2).thisPhase ≤
      transitionValue (l.transitionSet .uniqueUnstablePercent) →
    transitionImprovedUnique (l.counted u.1 u.2) = .ok false := by
  intro hall
  have h := hall 1 [(false, false), (false, true)] (false, false) _ (by decide) rfl rfl rfl
    (Or.inr rfl) (by decide) (by decide)
  have hlt := (improvedUnique_iff (T := 1) rfl (by decide) (by decide)).mp h
  exact absurd hlt (by decide)

/-- With one slot and no hits at all there is no improvement. -/
theorem mstar_unique_improvement_misses : ∃ l,
    updates (mstarLogicInit true (1 : UInt32).toNat) [(false, false), (false, false)] = .ok l ∧
    (transitionImprovedUnique (l.counted false false) = .ok false ↔
      (l.counted false false).thisPhase.ghostStats.sum = l.prevPhase.ghostStats.sum) := by
  obtain ⟨l, hl, hghosts, hrate⟩ : ∃ l, updates (mstarLogicInit true (1 : UInt32).toNat)
      [(false, false), (false, false)] = .ok l ∧
      (l.counted false false).thisPhase.ghostStats.sum ≤ l.prevPhase.ghostStats.sum ∧
      phaseCacheHitrate (l.counted false false).thisPhase ≤
        transitionValue (l.transitionSet .uniqueUnstablePercent) := by
    refine ⟨_, rfl, ?_, ?_⟩
    · decide
    · decide
  exact ⟨l, hl, (mstar_unique_improvement (u := (false, false)) (by decide) hl hghosts hrate).2
    (by decide)⟩

end Fomo
