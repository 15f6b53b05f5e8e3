import Fomo.Mstar.MstarTransitions

/-!
# The learning logic of m* (`mstar/mstar_logic.c`)

Every request pushes its hit bits into the windows and counts the tabu counter down; at
zero a new phase begins, and the logic may change state.
-/
namespace Fomo

/-- `g_hits_old = g_hits`, and the state's chance to change. -/
def MstarLogic.closePhase (logic : MstarLogic) : MstarLogic :=
  let logic := { logic with
    prevPhase := { logic.prevPhase with
      ghostStats := windowStatsCopy logic.prevPhase.ghostStats logic.thisPhase.ghostStats } }
  logic.state.changeIfAble logic

def staticNewPhase (logic : MstarLogic) : Exec MstarLogic :=
  .ok { logic with tabuCounter := logic.tabu }.closePhase

def adaptiveNewPhase (logic : MstarLogic) : Exec MstarLogic := do
  let logic := { logic with tabuCounter := logic.tabu }
  let logic ←
    if logic.recentTransition then do
      let logic := { logic with recentTransition := false }
      let lastTrans ← deref logic.lastTransition
      let trans := logic.transitionSet lastTrans
      if ← trans.wasImprovement.call logic then trans.decreaseDifficulty.call logic
      else trans.increaseDifficulty.call logic
    else .ok logic
  return logic.closePhase

def MstarLogic.enterNewPhase (logic : MstarLogic) : Exec MstarLogic :=
  if logic.adaptive then adaptiveNewPhase logic else staticNewPhase logic

/-- The logic when it decides whether a new phase begins: the bits are pushed and the tabu
counter counted down. -/
def MstarLogic.counted (logic : MstarLogic) (cacheHit ghostHit : Bool) : MstarLogic :=
  let cacheHitValue := if cacheHit then 1 else 0
  let ghostHitValue := if ghostHit then 1 else 0
  { logic with
    thisPhase :=
      { cacheStats := windowStatsPush logic.thisPhase.cacheStats cacheHitValue
        ghostStats := windowStatsPush logic.thisPhase.ghostStats ghostHitValue }
    stateStats := windowStatsPush logic.stateStats cacheHitValue
    tabuCounter := if logic.tabuCounter > 0 then logic.tabuCounter - 1 else logic.tabuCounter }

def updateMstar (logic : MstarLogic) (cacheHit ghostHit : Bool) : Exec MstarLogic :=
  let logic := logic.counted cacheHit ghostHit
  if logic.tabuCounter = 0 then logic.enterNewPhase else .ok logic

/-- The static variant sets its parameters to the old starting values. -/
def mstarLogicInit (adaptive : Bool) (cacheSize : Nat) : MstarLogic :=
  let logic : MstarLogic :=
    { thisPhase := phaseStatsInit cacheSize
      prevPhase := phaseStatsInit cacheSize
      stateStats := windowStatsInit 0
      state := .unstable
      tabu := cacheSize
      tabuCounter := u32 (2 * cacheSize)
      adaptive := adaptive
      transitionSet := mstarTransitionSetInit
      lastTransition := none
      recentTransition := false }
  if adaptive then logic
  else ((logic.setStat .unstableUniquePercent 260).setStat .uniqueUnstableThreshold 310).setStat
    .uniqueUnstablePercent 473

/-! ## What an update does -/

/-- What the logic with the tabu period `T` relies on between updates. -/
structure MstarLogic.Sane (T : Nat) (logic : MstarLogic) : Prop where
  tabu : logic.tabu = T
  stat_le : ∀ trans, (logic.transitionSet trans).stat ≤ 1000
  last : logic.recentTransition = true → ∃ trans, logic.lastTransition = some trans

variable {logic logic' : MstarLogic} {T : Nat}

theorem MstarLogic.Sane.setStat (h : logic.Sane T) (trans : MstarTransitionId) {stat : Nat}
    (hs : stat ≤ 1000) : (logic.setStat trans stat).Sane T := by
  refine ⟨h.tabu, fun t => ?_, h.last⟩
  by_cases ht : t = trans
  · subst ht
    simpa [MstarLogic.setStat] using hs
  · simpa [MstarLogic.setStat, ht] using h.stat_le t

theorem mstarTransitionSetInit_le (trans : MstarTransitionId) :
    (mstarTransitionSetInit trans).stat ≤ 1000 := by
  cases trans
  all_goals decide

theorem mstarLogicInit_sane (adaptive : Bool) (cacheSize : Nat) :
    (mstarLogicInit adaptive cacheSize).Sane cacheSize := by
  cases adaptive with
  | true => exact ⟨rfl, mstarTransitionSetInit_le, fun h => by cases h⟩
  | false =>
    apply MstarLogic.Sane.setStat _ _ (by decide)
    apply MstarLogic.Sane.setStat _ _ (by decide)
    apply MstarLogic.Sane.setStat _ _ (by decide)
    exact ⟨rfl, mstarTransitionSetInit_le, fun h => by cases h⟩

theorem MstarLogic.Sane.counted (h : logic.Sane T) (cacheHit ghostHit : Bool) :
    (logic.counted cacheHit ghostHit).Sane T := ⟨h.tabu, h.stat_le, h.last⟩

theorem counted_state (l : MstarLogic) (c g : Bool) : (l.counted c g).state = l.state := rfl

theorem counted_tabuCounter (l : MstarLogic) (c g : Bool) :
    (l.counted c g).tabuCounter = l.tabuCounter - 1 := by
  show (if l.tabuCounter > 0 then l.tabuCounter - 1 else l.tabuCounter) = _
  split <;> omega

theorem MstarImprovement.call_ok (h : logic.Sane T) (hT : 0 < T) (imp : MstarImprovement) :
    ∃ b, imp.call logic = .ok b := by
  cases imp with
  | hitrate => exact ⟨_, rfl⟩
  | unique =>
    have hpos : 0 < logic.tabu := h.tabu ▸ hT
    simp only [MstarImprovement.call, transitionImprovedUnique, div32_of_pos hpos, ok_bind,
      pure_eq_ok]
    exact ⟨_, rfl⟩

/-- A new phase restarts the counter and may then change the state. -/
inductive MstarLogic.NewPhase (T : Nat) (logic : MstarLogic) : MstarLogic → Prop
  | stay {logic' : MstarLogic} (hs : logic'.state = logic.state)
      (hc : logic'.tabuCounter = T) (hp : logic'.thisPhase = logic.thisPhase) :
      NewPhase T logic logic'
  | change {logic' : MstarLogic} (hs : logic'.state ≠ logic.state)
      (hc : logic'.tabuCounter = if logic'.state = .unstable then u32 (2 * T) else T)
      (hp : logic'.thisPhase = phaseStatsClear logic.thisPhase) : NewPhase T logic logic'

theorem MstarLogic.Sane.closePhase {l : MstarLogic} (h : l.Sane T) (hc : l.tabuCounter = T) :
    l.closePhase.Sane T ∧ l.NewPhase T l.closePhase := by
  let mid : MstarLogic := { l with
    prevPhase := { l.prevPhase with
      ghostStats := windowStatsCopy l.prevPhase.ghostStats l.thisPhase.ghostStats } }
  have hch : mid.Changes l.closePhase := changeIfAble_changes mid
  generalize l.closePhase = logic' at hch
  cases hch with
  | stay => exact ⟨⟨h.tabu, h.stat_le, h.last⟩, .stay rfl hc rfl⟩
  | @change trans next clear hne =>
    refine ⟨⟨h.tabu, h.stat_le, fun _ => ⟨trans, rfl⟩⟩, .change hne ?_ rfl⟩
    show (if next = .unstable then u32 (2 * l.tabu) else l.tabuCounter) = _
    rw [h.tabu, hc]
    rfl

/-- After a recent transition, a phase end adjusts the parameters of that transition. -/
theorem MstarLogic.Sane.adaptive_eq (h : logic.Sane T) (hT : 0 < T)
    (hr : logic.recentTransition = true) : ∃ (trans : MstarTransitionId) (adj : MstarAdjustment),
      adaptiveNewPhase logic =
        (adj.call { logic with
          tabuCounter := logic.tabu
          recentTransition := false
          lastTransition := some trans } >>= fun l => .ok l.closePhase) := by
  obtain ⟨trans, hl⟩ := h.last hr
  let mid : MstarLogic := { logic with
    tabuCounter := logic.tabu
    recentTransition := false
    lastTransition := some trans }
  have hmid : mid.Sane T := ⟨h.tabu, h.stat_le, fun hx => by cases hx⟩
  obtain ⟨b, hb⟩ := MstarImprovement.call_ok hmid hT (logic.transitionSet trans).wasImprovement
  dsimp only [mid] at hb
  cases b with
  | true =>
    refine ⟨trans, (logic.transitionSet trans).decreaseDifficulty, ?_⟩
    simp only [adaptiveNewPhase, hr, hl, deref_some, ok_bind, if_true, pure_eq_ok]
    simp only [hb, ok_bind, if_true]
  | false =>
    refine ⟨trans, (logic.transitionSet trans).increaseDifficulty, ?_⟩
    simp only [adaptiveNewPhase, hr, hl, deref_some, ok_bind, if_true, pure_eq_ok]
    simp only [hb, ok_bind, Bool.false_eq_true, if_false]

theorem MstarLogic.Sane.enterNewPhase (h : logic.Sane T) (hT : 0 < T) :
    ∃ logic', logic.enterNewPhase = .ok logic' ∧ logic'.Sane T ∧ logic.NewPhase T logic' := by
  unfold MstarLogic.enterNewPhase
  by_cases ha : logic.adaptive = true
  · rw [if_pos ha]
    by_cases hr : logic.recentTransition = true
    · obtain ⟨trans, adj, hadj⟩ := h.adaptive_eq hT hr
      let mid : MstarLogic := { logic with
        tabuCounter := logic.tabu
        recentTransition := false
        lastTransition := some trans }
      have hmid : mid.Sane T := ⟨h.tabu, h.stat_le, fun hx => by cases hx⟩
      obtain ⟨stat, hstat, hcall⟩ := MstarAdjustment.call_eq (l := mid) rfl (h.stat_le trans) adj
      obtain ⟨hsane, hnew⟩ := (hmid.setStat trans hstat).closePhase h.tabu
      refine ⟨_, by rw [hadj, hcall]; rfl, hsane, ?_⟩
      cases hnew with
      | stay hs hc hp => exact .stay hs hc hp
      | change hs hc hp => exact .change hs hc hp
    · let mid : MstarLogic := { logic with tabuCounter := logic.tabu }
      obtain ⟨hsane, hnew⟩ := MstarLogic.Sane.closePhase (l := mid)
        ⟨h.tabu, h.stat_le, h.last⟩ h.tabu
      refine ⟨mid.closePhase, ?_, hsane, ?_⟩
      · simp [adaptiveNewPhase, hr, mid]
      · cases hnew with
        | stay hs hc hp => exact .stay hs hc hp
        | change hs hc hp => exact .change hs hc hp
  · rw [if_neg ha]
    let mid : MstarLogic := { logic with tabuCounter := logic.tabu }
    obtain ⟨hsane, hnew⟩ := MstarLogic.Sane.closePhase (l := mid)
      ⟨h.tabu, h.stat_le, h.last⟩ h.tabu
    refine ⟨mid.closePhase, rfl, hsane, ?_⟩
    cases hnew with
    | stay hs hc hp => exact .stay hs hc hp
    | change hs hc hp => exact .change hs hc hp

/-- An update answers: it counts, and at zero a new phase begins. -/
theorem updateMstar_spec (h : logic.Sane T) (hT : 0 < T) (c g : Bool) :
    ∃ logic', updateMstar logic c g = .ok logic' ∧ logic'.Sane T ∧
      (((logic.counted c g).tabuCounter ≠ 0 ∧ logic' = logic.counted c g) ∨
        ((logic.counted c g).tabuCounter = 0 ∧ (logic.counted c g).NewPhase T logic')) := by
  have hc := h.counted c g
  unfold updateMstar
  by_cases h0 : (logic.counted c g).tabuCounter = 0
  · obtain ⟨logic', hrun, hsane, hnew⟩ := hc.enterNewPhase hT
    exact ⟨logic', by rw [← hrun]; exact if_pos h0, hsane, Or.inr ⟨h0, hnew⟩⟩
  · exact ⟨_, if_neg h0, hc, Or.inl ⟨h0, rfl⟩⟩

end Fomo
