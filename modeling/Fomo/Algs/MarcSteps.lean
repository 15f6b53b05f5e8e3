import Fomo.Algs.MarcPolicy
import Fomo.Include.GhostQueue
import Fomo.Include.Statistics

/-!
# The ghosts of mARC

Whatever the caller asks, every call that returns keeps the hash table, the queue and the
metadata pool of mARC together. A ghost is added only for a block that is not one.
-/
namespace Fomo

namespace MarcPolicy

/-- The nucleus of mARC holds `c` metadata entries and nothing else. -/
def Ghosts (c : Nat) (s : MarcPolicy) : Prop := GhostQueue c s.nucleus s.ghostQ

/-- A transaction for `o` moves a ghost of `o`, or adds one where there is none. -/
structure Planned (s : MarcPolicy) (o : Oblock) (mt : MarcTransaction) : Prop where
  oblock : mt.oblock = o
  fresh : mt.ghostAdd = true → mt.ghostRemove = false → hashLookup s.nucleus o = none

end MarcPolicy

open MarcPolicy

variable {s s' : MarcPolicy} {mt mt' : MarcTransaction} {o : Oblock} {c : Nat} {w : Bool}
  {r : EntryRef} {result res : CacheNucleusResult}

/-! ## The transaction -/

/-- The transaction of a request once it has been counted. -/
def MarcPolicy.counted (s : MarcPolicy) (o : Oblock) (w : Bool) : MarcTransaction :=
  marcTransactionCount s (marcTransactionInit s o w)

/-- How the first half of a transaction ends: it is not evaluated, or it is and the state
stays or changes. -/
inductive MarcPolicy.Judged (s : MarcPolicy) (o : Oblock) (w : Bool) : MarcTransaction → Prop
  | counted (heval : marcEvaluates s (s.counted o w) = false) : Judged s o w (s.counted o w)
  | stayed {hrSample hrState : Nat} (heval : marcEvaluates s (s.counted o w) = true)
      (hsample : marcHrSample s (s.counted o w).cHit = .ok hrSample)
      (hstate : marcHrState s (s.counted o w).cHit = .ok hrState) :
      Judged s o w { s.counted o w with
        tabuCounter := s.tabu, saveSampleAvg := true, saveGhostHits := true }
  | changed {hrSample hrState : Nat} {next : MarcState} (hne : next ≠ s.state)
      (heval : marcEvaluates s (s.counted o w) = true)
      (hsample : marcHrSample s (s.counted o w).cHit = .ok hrSample)
      (hstate : marcHrState s (s.counted o w).cHit = .ok hrState) :
      Judged s o w { marcChangeState s { s.counted o w with
        tabuCounter := s.tabu, saveSampleAvg := true } next with saveGhostHits := true }

theorem marcTryTransition_ok {hrSample hrState : Nat}
    (hrun : marcTryTransition s mt hrSample hrState = .ok mt') :
    mt' = mt ∨ ∃ next, next ≠ s.state ∧ mt' = marcChangeState s mt next := by
  unfold marcTryTransition at hrun
  cases hs : s.state with
  | unstable =>
    simp only [hs] at hrun
    split at hrun
    · exact Or.inr ⟨.unique, by decide, (Except.ok.inj hrun).symm⟩
    · split at hrun
      · exact Or.inr ⟨.stable, by decide, (Except.ok.inj hrun).symm⟩
      · exact Or.inl (Except.ok.inj hrun).symm
  | stable =>
    simp only [hs] at hrun
    split at hrun
    · exact Or.inr ⟨.unstable, by decide, (Except.ok.inj hrun).symm⟩
    · exact Or.inl (Except.ok.inj hrun).symm
  | unique =>
    simp only [hs] at hrun
    obtain ⟨leave, _, hrun⟩ := bind_eq_ok.mp hrun
    split at hrun
    · exact Or.inr ⟨.unstable, by decide, (Except.ok.inj hrun).symm⟩
    · exact Or.inl (Except.ok.inj hrun).symm

theorem marcTransactionJudge_judged
    (hrun : marcTransactionJudge s (marcTransactionInit s o w) = .ok mt) : s.Judged o w mt := by
  unfold marcTransactionJudge at hrun
  dsimp only at hrun
  split at hrun
  · next heval =>
    obtain ⟨hrSample, hsample, hrun⟩ := bind_eq_ok.mp hrun
    obtain ⟨hrState, hstate, hrun⟩ := bind_eq_ok.mp hrun
    obtain ⟨mt1, htry, hrun⟩ := bind_eq_ok.mp hrun
    obtain rfl := Except.ok.inj hrun
    rcases marcTryTransition_ok htry with rfl | ⟨next, hne, rfl⟩
    · exact .stayed heval hsample hstate
    · exact .changed hne heval hsample hstate
  · next heval =>
    obtain rfl := Except.ok.inj hrun
    exact .counted (Bool.eq_false_of_not_eq_true heval)

/-- The plan before the ghosts are looked up. -/
structure MarcPolicy.Unrouted (s : MarcPolicy) (o : Oblock) (w : Bool) (mt : MarcTransaction) :
    Prop where
  oblock : mt.oblock = o
  write : mt.write = w
  cHit : mt.cHit = (arcApi.cacheLookup s.internal o).isSome
  ghostRemove : mt.ghostRemove = false
  ghostAdd : mt.ghostAdd = false
  filter : mt.filter = true

theorem MarcPolicy.Judged.unrouted (h : s.Judged o w mt) : s.Unrouted o w mt := by
  cases h with
  | counted heval => exact ⟨rfl, rfl, rfl, rfl, rfl, rfl⟩
  | stayed heval hsample hstate => exact ⟨rfl, rfl, rfl, rfl, rfl, rfl⟩
  | changed hne heval hsample hstate =>
    unfold marcChangeState
    split
    · exact ⟨rfl, rfl, rfl, rfl, rfl, rfl⟩
    · exact ⟨rfl, rfl, rfl, rfl, rfl, rfl⟩

/-- How the second half ends, from the first half `mt`. -/
inductive MarcPolicy.Routed (s : MarcPolicy) (mt : MarcTransaction) : MarcTransaction → Prop
  /-- A hit that lowers the ghost target. -/
  | hit {g : Nat} (hc : mt.cHit = true)
      (hg : marcGhostDecreaseSize s mt.ghostSize = .ok g) :
      Routed s mt { mt with filter := false, ghostSize := g }
  /-- There is room, and the ghosts stay as they are. -/
  | plain (hroom : arcApi.cacheIsFull s.internal = false) : Routed s mt { mt with filter := false }
  /-- A ghost goes, and in the state UNSTABLE comes back at the recent end. -/
  | ghost {g : Nat} {add : Bool} (hc : mt.cHit = false)
      (hfull : arcApi.cacheIsFull s.internal = true)
      (hghost : (hashLookup s.nucleus mt.oblock).isSome = true)
      (hg : marcGhostIncreaseSize s mt.ghostSize = .ok g)
      (hadd : add = decide (mt.state = .unstable)) :
      Routed s mt { mt with filter := false, ghostSize := g, ghostRemove := true, ghostAdd := add }
  /-- A new ghost; the request is filtered unless the state is UNSTABLE. -/
  | add {g : Nat} {filter : Bool} (hc : mt.cHit = false)
      (hfull : arcApi.cacheIsFull s.internal = true)
      (hghost : (hashLookup s.nucleus mt.oblock).isSome = false)
      (hg : marcGhostIncreaseSize s mt.ghostSize = .ok g)
      (hfilter : filter = decide (mt.state ≠ .unstable)) :
      Routed s mt { mt with filter := filter, ghostSize := g, ghostAdd := true }

theorem marcTransactionRoute_routed (h : s.Unrouted o w mt)
    (hrun : marcTransactionRoute s mt = .ok mt') : s.Routed mt mt' := by
  obtain ⟨oblock, write, tabuCounter, state, ghostSize, cHit, saveSampleAvg, sampleClear,
    sampleAvgClear, phaseClear, saveGhostHits, ghostRemove, ghostAdd, filter⟩ := mt
  obtain ⟨rfl, rfl, _, rfl, rfl, rfl⟩ := h
  unfold marcTransactionRoute at hrun
  split at hrun
  · next hst =>
    have hstable : decide (state = .unstable) = false := decide_eq_false hst
    have hfilter : decide (state ≠ .unstable) = true := decide_eq_true hst
    unfold marcTransactionRouteSettled at hrun
    split at hrun
    · next hc =>
      obtain ⟨g, hg, hrun⟩ := bind_eq_ok.mp hrun
      obtain rfl := Except.ok.inj hrun
      exact .hit hc hg
    · next hc =>
      have hc : cHit = false := Bool.eq_false_of_not_eq_true hc
      split at hrun
      · next hfull =>
        obtain ⟨g, hg, hrun⟩ := bind_eq_ok.mp hrun
        obtain rfl := Except.ok.inj hrun
        cases hgh : (hashLookup s.nucleus oblock).isSome with
        | true =>
          rw [hgh] at hg
          exact .ghost hc hfull hgh hg hstable.symm
        | false =>
          rw [hgh] at hg
          exact .add hc hfull hgh hg hfilter.symm
      · next hroom =>
        obtain rfl := Except.ok.inj hrun
        exact .plain (Bool.eq_false_of_not_eq_true hroom)
  · next hst =>
    have hunstable : decide (state = .unstable) = true := decide_eq_true (not_not.mp hst)
    have hfilter : decide (state ≠ .unstable) = false := decide_eq_false hst
    unfold marcTransactionRouteUnstable at hrun
    dsimp only at hrun
    split at hrun
    · next hfull =>
      split at hrun
      · next hc =>
        obtain ⟨g, hg, hrun⟩ := bind_eq_ok.mp hrun
        obtain rfl := Except.ok.inj hrun
        exact .hit hc hg
      · next hc =>
        have hc : cHit = false := Bool.eq_false_of_not_eq_true hc
        obtain ⟨g, hg, hrun⟩ := bind_eq_ok.mp hrun
        obtain rfl := Except.ok.inj hrun
        cases hgh : (hashLookup s.nucleus oblock).isSome with
        | true =>
          rw [hgh] at hg
          exact .ghost hc hfull hgh hg hunstable.symm
        | false =>
          rw [hgh] at hg
          exact .add hc hfull hgh hg hfilter.symm
    · next hroom =>
      obtain rfl := Except.ok.inj hrun
      exact .plain (Bool.eq_false_of_not_eq_true hroom)

/-- A whole transaction: judged, then routed. -/
theorem marcTransactionSet_ok (hrun : marcTransactionSet s (marcTransactionInit s o w) = .ok mt) :
    ∃ mt1, s.Judged o w mt1 ∧ s.Routed mt1 mt := by
  obtain ⟨mt1, hjudge, hroute⟩ := bind_eq_ok.mp hrun
  have hj := marcTransactionJudge_judged hjudge
  exact ⟨mt1, hj, marcTransactionRoute_routed hj.unrouted hroute⟩

theorem MarcPolicy.Routed.planned (h : s.Routed mt mt') (hu : s.Unrouted o w mt) :
    s.Planned o mt' := by
  obtain ⟨rfl, _, _, hrem, hadd, _⟩ := hu
  cases h with
  | hit hc hg => exact ⟨rfl, fun ha => absurd (hadd.symm.trans ha) (by decide)⟩
  | plain hroom => exact ⟨rfl, fun ha => absurd (hadd.symm.trans ha) (by decide)⟩
  | ghost hc hfull hghost hg hadd => exact ⟨rfl, fun _ hr => by cases hr⟩
  | add hc hfull hghost hg hfilter =>
    refine ⟨rfl, fun _ _ => ?_⟩
    exact Option.not_isSome_iff_eq_none.mp (by rw [hghost]; decide)

theorem marcTransactionSet_planned
    (hrun : marcTransactionSet s (marcTransactionInit s o w) = .ok mt) : s.Planned o mt := by
  obtain ⟨mt1, hj, hr⟩ := marcTransactionSet_ok hrun
  exact hr.planned hj.unrouted

/-! ## The commit -/

theorem marcCommitStats_ok (hrun : marcCommitStats s mt = .ok s') :
    s'.nucleus = s.nucleus ∧ s'.ghostQ = s.ghostQ ∧ s'.internal = s.internal := by
  obtain ⟨sample, _, hrun⟩ := bind_eq_ok.mp hrun
  dsimp only at hrun
  split at hrun
  · obtain ⟨avg, _, hrun⟩ := bind_eq_ok.mp hrun
    obtain ⟨sampleAvg, _, hrun⟩ := bind_eq_ok.mp hrun
    exact Except.ok.inj hrun ▸ ⟨rfl, rfl, rfl⟩
  · exact Except.ok.inj hrun ▸ ⟨rfl, rfl, rfl⟩

/-- Only the ghosts differ: their pool, their queue and their hits, of which none is lost. -/
inductive MarcPolicy.OnlyGhosts (s : MarcPolicy) : MarcPolicy → Prop
  | mk {cn : CacheNucleus} {q : Queue} {hits : Nat} (hstats : cn.stats = s.nucleus.stats)
      (hhits : s.ghostHits ≤ hits) :
      OnlyGhosts s { s with nucleus := cn, ghostQ := q, ghostHits := hits }

theorem marcRemoveEntry_onlyGhosts (hrun : marcRemoveEntry s r = .ok s') : s.OnlyGhosts s' := by
  obtain ⟨cn, hrem, hrun⟩ := bind_eq_ok.mp hrun
  rw [← Except.ok.inj hrun]
  exact .mk (CacheNucleus.cacheNucleusRemove_stats hrem) (Nat.le_refl _)

theorem marcCommitGhosts_onlyGhosts (hrun : marcCommitGhosts s mt = .ok s') :
    s.OnlyGhosts s' := by
  unfold marcCommitGhosts at hrun
  split at hrun
  · obtain ⟨me, _, hrun⟩ := bind_eq_ok.mp hrun
    rw [← Except.ok.inj hrun]
    exact .mk rfl (Nat.le_succ _)
  · split at hrun
    · obtain ⟨me, _, hrun⟩ := bind_eq_ok.mp hrun
      exact marcRemoveEntry_onlyGhosts hrun
    · split at hrun
      · obtain ⟨⟨cn, me⟩, hins, hrun⟩ := bind_eq_ok.mp hrun
        rw [← Except.ok.inj hrun]
        exact .mk (CacheNucleus.insertInMeta_stats hins) (Nat.le_refl _)
      · rw [← Except.ok.inj hrun]
        exact .mk rfl (Nat.le_refl _)

theorem marcCommitEvict_onlyGhosts (hrun : marcCommitEvict s = .ok s') : s.OnlyGhosts s' := by
  unfold marcCommitEvict at hrun
  split at hrun
  · obtain ⟨me, _, hrun⟩ := bind_eq_ok.mp hrun
    exact marcRemoveEntry_onlyGhosts hrun
  · rw [← Except.ok.inj hrun]
    exact .mk rfl (Nat.le_refl _)

theorem marcRemoveEntry_ghosts (h : s.Ghosts c) (hr : r ∈ s.ghostQ) :
    ∃ s', marcRemoveEntry s r = .ok s' ∧ s'.Ghosts c ∧ s'.internal = s.internal ∧
      s'.ghostQ = s.ghostQ.erase r := by
  obtain ⟨cn, hrun, hg, _⟩ := h.remove hr
  refine ⟨{ s with ghostQ := s.ghostQ.erase r, nucleus := cn }, ?_, hg, rfl, rfl⟩
  simp only [marcRemoveEntry, hrun, ok_bind, queueRemove_eq, pure_eq_ok]

theorem marcCommitGhosts_ghosts (h : s.Ghosts c) (hpl : s.Planned o mt)
    (hrun : marcCommitGhosts s mt = .ok s') : s'.Ghosts c ∧ s'.internal = s.internal := by
  unfold marcCommitGhosts at hrun
  rw [hpl.oblock] at hrun
  split at hrun
  · obtain ⟨me, hl, hrun⟩ := bind_eq_ok.mp hrun
    rw [← Except.ok.inj hrun]
    exact ⟨h.requeue (h.lookup_mem (deref_eq_ok.mp hl)), rfl⟩
  · split at hrun
    · obtain ⟨me, hl, hrun⟩ := bind_eq_ok.mp hrun
      obtain ⟨s1, hrun1, hg, hi, _⟩ :=
        marcRemoveEntry_ghosts h (h.lookup_mem (deref_eq_ok.mp hl))
      obtain rfl := Except.ok.inj (hrun.symm.trans hrun1)
      exact ⟨hg, hi⟩
    · next hrem =>
      split at hrun
      · next hadd =>
        have habs := h.wf.hashLookup_eq_none.mp (hpl.fresh hadd (by simpa using hrem))
        obtain ⟨⟨cn, me⟩, hins, hrun⟩ := bind_eq_ok.mp hrun
        exact Except.ok.inj hrun ▸ ⟨(h.inserted habs hins).1, rfl⟩
      · exact Except.ok.inj hrun ▸ ⟨h, rfl⟩

theorem marcTransactionCommit_ghosts (h : s.Ghosts c) (hpl : s.Planned o mt)
    (hrun : marcTransactionCommit s mt result = .ok (s', res)) : s'.Ghosts c := by
  obtain ⟨s1, hrun1, hrun⟩ := bind_eq_ok.mp hrun
  obtain ⟨hn, hq, _⟩ := marcCommitStats_ok hrun1
  have h1 : s1.Ghosts c := by
    unfold Ghosts
    rw [hn, hq]
    exact h
  have hpl1 : s1.Planned o mt := ⟨hpl.oblock, fun ha hr => by rw [hn]; exact hpl.fresh ha hr⟩
  obtain ⟨s2, hrun2, hrun⟩ := bind_eq_ok.mp hrun
  obtain ⟨h2, _⟩ := marcCommitGhosts_ghosts h1 hpl1 hrun2
  obtain ⟨⟨s3, res3⟩, hrun3, hrun⟩ := bind_eq_ok.mp hrun
  have h3 : s3.Ghosts c := by
    unfold marcCommitMap at hrun3
    split at hrun3
    · obtain ⟨⟨i, res4⟩, _, hrun3⟩ := bind_eq_ok.mp hrun3
      obtain ⟨rfl, _⟩ := Prod.mk.inj (Except.ok.inj hrun3)
      exact h2
    · obtain ⟨rfl, _⟩ := Prod.mk.inj (Except.ok.inj hrun3)
      exact h2.withStats _
  dsimp only at hrun
  obtain ⟨s4, hrun4, hrun⟩ := bind_eq_ok.mp hrun
  obtain ⟨rfl, _⟩ := Prod.mk.inj (Except.ok.inj hrun)
  unfold marcCommitEvict at hrun4
  split at hrun4
  · obtain ⟨me, hpeek, hrun4⟩ := bind_eq_ok.mp hrun4
    obtain ⟨s5, hrun5, h5, _⟩ :=
      marcRemoveEntry_ghosts h3 (List.mem_of_mem_head? (deref_eq_ok.mp hpeek))
    exact Except.ok.inj (hrun5.symm.trans hrun4) ▸ h5
  · exact Except.ok.inj hrun4 ▸ h3

/-! ## The calls -/

/-- Asking ARC for its next victim changes nothing. -/
theorem arcNextVictimApi_same {a a' : ArcPolicy} {op : CacheNucleusOperation}
    {v : Option EntryRef} (hrun : arcNextVictimApi a o = .ok (a', op, v)) : a' = a := by
  obtain ⟨at', _, hrun⟩ := bind_eq_ok.mp hrun
  split at hrun
  · split at hrun
    · exact (Prod.mk.inj (Except.ok.inj hrun)).1.symm
    · split at hrun
      · exact (Prod.mk.inj (Except.ok.inj hrun)).1.symm
      · exact (Prod.mk.inj (Except.ok.inj hrun)).1.symm
  · exact (Prod.mk.inj (Except.ok.inj hrun)).1.symm

theorem marcTransactionIsLegal_ok {legal : Bool}
    (hrun : marcTransactionIsLegal s mt = .ok (s', legal)) : s' = s := by
  unfold marcTransactionIsLegal at hrun
  split at hrun
  · exact (Prod.mk.inj (Except.ok.inj hrun)).1.symm
  · obtain ⟨⟨i, op, v⟩, hv, hrun⟩ := bind_eq_ok.mp hrun
    obtain ⟨rfl, _⟩ := Prod.mk.inj (Except.ok.inj hrun)
    rw [arcNextVictimApi_same hv]

/-- A request that returns is refused or committed. -/
theorem marcMapApi_ok (hrun : marcMapApi s o w result = .ok (s', res)) :
    ∃ mt, marcTransactionSet s (marcTransactionInit s o w) = .ok mt ∧
      ((marcTransactionIsLegal s mt = .ok (s, false) ∧ s' = s ∧
          res = { result with op := .fail }) ∨
        (marcTransactionIsLegal s mt = .ok (s, true) ∧
          marcTransactionCommit s mt result = .ok (s', res))) := by
  obtain ⟨mt, hset, hrun⟩ := bind_eq_ok.mp hrun
  obtain ⟨⟨s1, legal⟩, hleg, hrun⟩ := bind_eq_ok.mp hrun
  obtain rfl := marcTransactionIsLegal_ok hleg
  refine ⟨mt, hset, ?_⟩
  cases legal with
  | true => exact Or.inr ⟨hleg, hrun⟩
  | false =>
    obtain ⟨rfl, rfl⟩ := Prod.mk.inj (Except.ok.inj hrun)
    exact Or.inl ⟨hleg, rfl, rfl⟩

theorem marcMapApi_ghosts (h : s.Ghosts c)
    (hrun : marcMapApi s o w result = .ok (s', res)) : s'.Ghosts c := by
  obtain ⟨mt, hset, ⟨_, rfl, _⟩ | ⟨_, hcommit⟩⟩ := marcMapApi_ok hrun
  · exact h
  · exact marcTransactionCommit_ghosts h (marcTransactionSet_planned hset) hcommit

theorem marcNextVictimApi_ghosts {op : CacheNucleusOperation} {v : Option EntryRef}
    (h : s.Ghosts c) (hrun : marcNextVictimApi s o = .ok (s', op, v)) : s'.Ghosts c := by
  obtain ⟨mt, _, hrun⟩ := bind_eq_ok.mp hrun
  obtain ⟨⟨s1, legal⟩, hleg, hrun⟩ := bind_eq_ok.mp hrun
  rw [← marcTransactionIsLegal_ok hleg] at h
  dsimp only at hrun
  split at hrun
  · split at hrun
    · obtain ⟨⟨i, op1, v1⟩, _, hrun⟩ := bind_eq_ok.mp hrun
      obtain ⟨rfl, _⟩ := Prod.mk.inj (Except.ok.inj hrun)
      exact h
    · obtain ⟨rfl, _⟩ := Prod.mk.inj (Except.ok.inj hrun)
      exact h
  · obtain ⟨rfl, _⟩ := Prod.mk.inj (Except.ok.inj hrun)
    exact h

/-- Every call keeps the ghosts together. -/
theorem marc_keeps (c : Nat) : marcApi.Keeps (MarcPolicy.Ghosts c) where
  nextVictim := fun h hrun => marcNextVictimApi_ghosts h hrun
  call := by
    intro s call s' x h hrun
    cases call with
    | map o w result =>
      obtain ⟨res, _, hmap⟩ := Policy.call_map.mp hrun
      exact marcMapApi_ghosts h hmap
    | setTime time => exact (Prod.mk.inj (Except.ok.inj hrun)).1 ▸ h.withTime time
    | _ =>
      -- ARC is all that changes
      obtain ⟨s1, hrun1, heq⟩ := map_eq_ok.mp hrun
      obtain ⟨i, _, hrun1⟩ := bind_eq_ok.mp hrun1
      exact (Prod.mk.inj heq).1 ▸ Except.ok.inj hrun1 ▸ h

/-! ## Creation -/

def marcPools (c : UInt32) : PoolId → Nat
  | .cache => 0
  | .metadata => c.toNat

theorem marcPools_lt (c : UInt32) (p : PoolId) : marcPools c p < 2 ^ 32 := by
  cases p with
  | cache => exact Nat.zero_lt_succ _
  | metadata => exact c.toNat_lt

theorem marcInit_eq (c m : UInt32) (arc : ArcPolicy) : marcInit c m arc = .ok
    { nucleus := freshNucleus 0 m.toNat (marcPools c), internal := arc, tabu := c.toNat
      tabuCounter := 2 * c.toNat, state := .unstable, ghostQ := [], ghostSize := c.toNat
      ghostHits := 0, ghostHitsOld := 0, sample := Tools.windowStatsInit c.toNat
      sampleAvg := Tools.windowStatsInit 1, phaseHits := 0, phaseIos := 0 } := by
  rw [marcInit, policyInit_eq (n := marcPools c) ?_ (marcPools_lt c)]
  · rfl
  · intro p
    cases p <;> rfl

theorem marcInit_ghosts {c m : UInt32} {arc : ArcPolicy} (hrun : marcInit c m arc = .ok s) :
    s.Ghosts c.toNat ∧ s.internal = arc := by
  rw [marcInit_eq] at hrun
  rw [← Except.ok.inj hrun]
  have hfree : ∀ r, ((freshNucleus 0 m.toNat (marcPools c)).entry r).allocated = false :=
    fun _ => rfl
  refine ⟨⟨freshNucleus_wf (marcPools_lt c), List.nodup_nil, fun r => ?_, rfl, rfl⟩, rfl⟩
  rw [hfree]
  simp

end Fomo
