import Fomo.Mstar.MstarPhase

/-!
# States and transitions of m* (`mstar/mstar_transitions.c`, `mstar/mstar_logic.h`)

A pointer to a state is its id, a pointer to a transition names the field of the
transition set it points at, and the function pointers of a transition are the names of
the functions.
-/
namespace Fomo

inductive MstarStateId
  | stable
  | unstable
  | unique
  deriving DecidableEq, Repr

/-- What `was_improvement` points at. -/
inductive MstarImprovement
  | hitrate
  | unique
  deriving DecidableEq, Repr

/-- What `increase_difficulty` and `decrease_difficulty` point at. -/
inductive MstarAdjustment
  | increaseParam
  | decreaseParam
  deriving DecidableEq, Repr

structure MstarTransition where
  min : Nat
  max : Nat
  stat : Nat
  wasImprovement : MstarImprovement
  increaseDifficulty : MstarAdjustment
  decreaseDifficulty : MstarAdjustment

/-- The fields of `struct mstar_transition_set`. -/
inductive MstarTransitionId
  | unstableStableThreshold
  | unstableStablePercent
  | unstableUniqueThreshold
  | unstableUniquePercent
  | stableUnstablePercent
  | uniqueUnstableThreshold
  | uniqueUnstablePercent
  deriving DecidableEq, Repr

/-- `struct mstar_logic`; `adaptive` says which function `enter_new_phase` points at. -/
structure MstarLogic where
  thisPhase : PhaseStats
  prevPhase : PhaseStats
  stateStats : WindowStats
  state : MstarStateId
  tabu : Nat
  tabuCounter : Nat
  adaptive : Bool
  transitionSet : MstarTransitionId → MstarTransition
  lastTransition : Option MstarTransitionId
  recentTransition : Bool

def transitionValue (trans : MstarTransition) : Nat :=
  u32 (u32 (trans.max * trans.stat) / 1000 + trans.min)

/-! ## Adaptation -/

def transitionImprovedHitrate (logic : MstarLogic) : Bool :=
  decide (phaseCacheHitrate logic.thisPhase ≥ phaseCacheHitrate logic.prevPhase)

def transitionImprovedUnique (logic : MstarLogic) : Exec Bool := do
  let thisPhaseAvg := phaseCacheHitrate logic.thisPhase
  let ghostHits := logic.thisPhase.ghostStats.sum
  let ghostHitsOld := logic.prevPhase.ghostStats.sum
  let gain ← div32 (u32 (sub32 ghostHits ghostHitsOld * 100)) logic.tabu
  return decide (gain > transitionValue (logic.transitionSet .uniqueUnstableThreshold)) ||
    decide (thisPhaseAvg > transitionValue (logic.transitionSet .uniqueUnstablePercent))

def MstarImprovement.call (logic : MstarLogic) : MstarImprovement → Exec Bool
  | .hitrate => .ok (transitionImprovedHitrate logic)
  | .unique => transitionImprovedUnique logic

/-- `trans->stat = stat`. -/
def MstarLogic.setStat (logic : MstarLogic) (trans : MstarTransitionId) (stat : Nat) :
    MstarLogic :=
  { logic with
    transitionSet := Function.update logic.transitionSet trans
      { logic.transitionSet trans with stat := stat } }

def transitionIncreaseParam (logic : MstarLogic) : Exec MstarLogic := do
  let lastTrans ← deref logic.lastTransition
  let cur := (logic.transitionSet lastTrans).stat
  if cur = 0 then return logic.setStat lastTrans 1000
  else do
    let tmp ← div32 1000 cur
    return logic.setStat lastTrans (min 1000 (u32 (cur + tmp)))

def transitionDecreaseParam (logic : MstarLogic) : Exec MstarLogic := do
  let lastTrans ← deref logic.lastTransition
  let cur := (logic.transitionSet lastTrans).stat
  -- since at max, move to the other end of the spectrum
  let cur := if cur = 1000 then 0 else cur
  let tmp ← div32 1000 (sub32 1000 cur)
  if cur > tmp then return logic.setStat lastTrans (max 0 (cur - tmp))
  else return logic.setStat lastTrans 0

def MstarAdjustment.call (logic : MstarLogic) : MstarAdjustment → Exec MstarLogic
  | .increaseParam => transitionIncreaseParam logic
  | .decreaseParam => transitionDecreaseParam logic

def mstarTransitionSetInit : MstarTransitionId → MstarTransition
  | .unstableStableThreshold => ⟨2, 20, 555, .hitrate, .decreaseParam, .increaseParam⟩
  | .unstableStablePercent => ⟨105, 150, 333, .hitrate, .increaseParam, .decreaseParam⟩
  | .unstableUniqueThreshold => ⟨20, 80, 500, .unique, .decreaseParam, .increaseParam⟩
  | .unstableUniquePercent => ⟨2, 25, 130, .unique, .decreaseParam, .increaseParam⟩
  | .stableUnstablePercent => ⟨50, 90, 500, .hitrate, .decreaseParam, .increaseParam⟩
  | .uniqueUnstableThreshold => ⟨1, 30, 0, .hitrate, .increaseParam, .decreaseParam⟩
  | .uniqueUnstablePercent => ⟨1, 20, 237, .hitrate, .increaseParam, .decreaseParam⟩

/-! ## Changing state -/

def stateTransitionTo (logic : MstarLogic) (currentTransition : MstarTransitionId)
    (nextState : MstarStateId) (clearStateStats : Bool) : MstarLogic :=
  { logic with
    lastTransition := some currentTransition
    state := nextState
    recentTransition := true
    tabuCounter := if nextState = .unstable then u32 (2 * logic.tabu) else logic.tabuCounter
    stateStats :=
      if clearStateStats then windowStatsClear logic.stateStats else logic.stateStats
    prevPhase := phaseStatsCopy logic.prevPhase logic.thisPhase
    thisPhase := phaseStatsClear logic.thisPhase }

def changeFromUnstableIfAble (logic : MstarLogic) : MstarLogic :=
  let usUnTh := transitionValue (logic.transitionSet .unstableUniqueThreshold)
  let usUnP := transitionValue (logic.transitionSet .unstableUniquePercent)
  let usSTh := transitionValue (logic.transitionSet .unstableStableThreshold)
  let usSP := transitionValue (logic.transitionSet .unstableStablePercent)
  let hrSample := phaseCacheHitrate logic.thisPhase
  let hrState := windowStatsAverageHundredths logic.stateStats
  if u32 (usUnTh * hrState) > hrSample then
    stateTransitionTo logic .unstableUniqueThreshold .unique false
  else if hrSample < usUnP then
    stateTransitionTo logic .unstableUniquePercent .unique false
  else if u32 (100 * hrSample) < u32 (u32 (100 + usSTh) * hrState) ∧
      u32 (100 * hrSample) > u32 (sub32 100 usSTh * hrState) then
    stateTransitionTo logic .unstableStableThreshold .stable true
  else if hrSample ≥ u32 (usSP * hrState) ∧ hrSample ≥ 20 then
    stateTransitionTo logic .unstableStablePercent .stable true
  else logic

def changeFromStableIfAble (logic : MstarLogic) : MstarLogic :=
  let sUsP := transitionValue (logic.transitionSet .stableUnstablePercent)
  let hrSample := phaseCacheHitrate logic.prevPhase
  let hrState := windowStatsAverageHundredths logic.stateStats
  if u32 (100 * hrSample) ≤ u32 (sUsP * hrState) then
    stateTransitionTo logic .stableUnstablePercent .unstable false
  else logic

def changeFromUniqueIfAble (logic : MstarLogic) : MstarLogic :=
  let unUsTh := transitionValue (logic.transitionSet .uniqueUnstableThreshold)
  let unUsP := transitionValue (logic.transitionSet .uniqueUnstablePercent)
  let hrSample := phaseCacheHitrate logic.thisPhase
  let filterHrSample := phaseGhostHitrate logic.thisPhase
  if u32 (unUsTh * hrSample) > u32 (100 * filterHrSample) then
    stateTransitionTo logic .uniqueUnstableThreshold .unstable false
  else if hrSample > unUsP then
    stateTransitionTo logic .uniqueUnstablePercent .unstable false
  else logic

def MstarStateId.changeIfAble (logic : MstarLogic) : MstarStateId → MstarLogic
  | .unstable => changeFromUnstableIfAble logic
  | .stable => changeFromStableIfAble logic
  | .unique => changeFromUniqueIfAble logic

/-! ## What a change of state does -/

/-- The logic stays as it is, or it changes to another state through a transition. -/
inductive MstarLogic.Changes (logic : MstarLogic) : MstarLogic → Prop
  | stay : Changes logic logic
  | change (trans : MstarTransitionId) {next : MstarStateId} (clear : Bool)
      (hne : next ≠ logic.state) : Changes logic (stateTransitionTo logic trans next clear)

theorem changeIfAble_changes (logic : MstarLogic) :
    logic.Changes (logic.state.changeIfAble logic) := by
  cases hs : logic.state with
  | unstable =>
    simp only [MstarStateId.changeIfAble, changeFromUnstableIfAble]
    split
    · exact .change _ _ (by rw [hs]; decide)
    · split
      · exact .change _ _ (by rw [hs]; decide)
      · split
        · exact .change _ _ (by rw [hs]; decide)
        · split
          · exact .change _ _ (by rw [hs]; decide)
          · exact .stay
  | stable =>
    simp only [MstarStateId.changeIfAble, changeFromStableIfAble]
    split
    · exact .change _ _ (by rw [hs]; decide)
    · exact .stay
  | unique =>
    simp only [MstarStateId.changeIfAble, changeFromUniqueIfAble]
    split
    · exact .change _ _ (by rw [hs]; decide)
    · split
      · exact .change _ _ (by rw [hs]; decide)
      · exact .stay

/-- Adapting a parameter moves the parameter, within its scale. -/
theorem MstarAdjustment.call_eq {l : MstarLogic} {trans : MstarTransitionId}
    (hl : l.lastTransition = some trans) (hs : (l.transitionSet trans).stat ≤ 1000)
    (adj : MstarAdjustment) :
    ∃ stat, stat ≤ 1000 ∧ adj.call l = .ok (l.setStat trans stat) := by
  cases adj with
  | increaseParam =>
    by_cases hcur : (l.transitionSet trans).stat = 0
    · refine ⟨1000, Nat.le_refl _, ?_⟩
      simp only [MstarAdjustment.call, transitionIncreaseParam, hl, deref_some, ok_bind,
        if_pos hcur, pure_eq_ok]
    · refine ⟨min 1000 (u32 ((l.transitionSet trans).stat +
        1000 / (l.transitionSet trans).stat)), Nat.min_le_left _ _, ?_⟩
      simp only [MstarAdjustment.call, transitionIncreaseParam, hl, deref_some, ok_bind,
        if_neg hcur, div32_of_pos (Nat.pos_of_ne_zero hcur), pure_eq_ok]
  | decreaseParam =>
    obtain ⟨cur, hcur⟩ : ∃ cur, cur = if (l.transitionSet trans).stat = 1000 then 0 else
      (l.transitionSet trans).stat := ⟨_, rfl⟩
    have hlt : cur < 1000 := by
      rw [hcur]
      split <;> omega
    have hsub : sub32 1000 cur = 1000 - cur := sub32_of_le (by omega) (by decide)
    have hpos : 0 < 1000 - cur := by omega
    simp only [MstarAdjustment.call, transitionDecreaseParam, hl, deref_some, ok_bind, ← hcur,
      hsub, div32_of_pos hpos, pure_eq_ok]
    by_cases hgt : cur > 1000 / (1000 - cur)
    · rw [if_pos hgt]
      exact ⟨_, Nat.max_le.mpr ⟨by omega, (Nat.sub_le _ _).trans (by omega)⟩, rfl⟩
    · rw [if_neg hgt]
      exact ⟨0, Nat.zero_le _, rfl⟩

end Fomo
