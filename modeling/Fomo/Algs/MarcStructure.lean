import Fomo.Algs.ArcStructure
import Fomo.Algs.MarcSteps
import Fomo.Algs.Prediction

/-!
# The structural invariant of mARC

The target of the ghosts stays between a tenth of the cache and the whole cache, and at most
nine tenths once a ghost was added. The ghosts never outgrow those nine tenths, so the pool of
the ghosts never runs out.
-/
namespace Fomo

namespace MarcPolicy

/-- What the hit rates are computed from. -/
structure Samples (c : Nat) (s : MarcPolicy) : Prop where
  tabu : s.tabu = c
  sample : ∃ l, s.sample.Holds c l
  sampleAvg : ∃ l, s.sampleAvg.Holds 1 l
  hits : s.ghostHitsOld ≤ s.ghostHits

/-- mARC over a cache of `c` blocks. -/
structure Bounded (c : Nat) (s : MarcPolicy) : Prop where
  arc : s.internal.Bounded c c
  ghosts : s.Ghosts c
  samples : s.Samples c
  lower : c / 10 ≤ s.ghostSize
  upper : s.ghostSize ≤ c
  length : s.ghostQ.length ≤ 9 * c / 10

/-- A transaction for `o` whose target is in its bounds, and that removes a known ghost only. -/
structure Sized (c : Nat) (s : MarcPolicy) (o : Oblock) (mt : MarcTransaction) : Prop where
  planned : s.Planned o mt
  known : mt.ghostRemove = true → (hashLookup s.nucleus o).isSome = true
  lower : c / 10 ≤ mt.ghostSize
  upper : mt.ghostSize ≤ c
  add : mt.ghostAdd = true → mt.ghostSize ≤ 9 * c / 10

end MarcPolicy

open MarcPolicy

variable {s s' : MarcPolicy} {mt mt' : MarcTransaction} {o : Oblock} {c g : Nat} {w : Bool}
  {result res : CacheNucleusResult}

/-! ## The target of the ghosts -/

theorem marcGhostDecreaseSize_spec (hcs : s.internal.nucleus.cacheSize = c) (hc : c < 2 ^ 32)
    (hup : g ≤ c) : ∃ g', marcGhostDecreaseSize s g = .ok g' ∧ c / 10 ≤ g' ∧ g' ≤ c := by
  unfold marcGhostDecreaseSize
  simp only [hcs]
  by_cases hg : g = c
  · rw [if_pos hg]
    exact ⟨_, rfl, Nat.le_refl _, Nat.div_le_self _ _⟩
  · rw [if_neg hg, sub64_of_le hup, div64_of_pos (by omega), ok_bind]
    generalize c / (c - g) = tmp
    split
    · next htmp =>
      rw [sub64_of_le htmp, max32_of_lt (by omega) (by omega)]
      exact ⟨_, rfl, Nat.le_max_left _ _, Nat.max_le.mpr (And.intro (by omega) (by omega))⟩
    · exact ⟨_, rfl, Nat.le_refl _, Nat.div_le_self _ _⟩

theorem marcGhostIncreaseSize_spec (h : s.Bounded c) (hc10 : 10 ≤ c) (hc : 4 * c < 2 ^ 32)
    (hlow : c / 10 ≤ g) (hup : g ≤ c) :
    ∃ g', marcGhostIncreaseSize s g = .ok g' ∧ c / 10 ≤ g' ∧ g' ≤ 9 * c / 10 := by
  have hdiv : c / g ≤ c := Nat.div_le_self _ _
  unfold marcGhostIncreaseSize
  simp only [h.arc.cacheSize]
  rw [div64_of_pos (by omega), ok_bind]
  generalize c / g = tmp at hdiv
  rw [min32_of_lt (by omega) (by omega)]
  exact ⟨_, rfl, Nat.le_min.mpr (And.intro (by omega) (by omega)), Nat.min_le_left _ _⟩

/-! ## The transaction -/

theorem marcHrSample_ok (h : s.Samples c) (hc : 0 < c) (hit : Bool) :
    ∃ hr, marcHrSample s hit = .ok hr := by
  obtain ⟨l, hl⟩ := h.sample
  exact ⟨_, div64_of_pos (by rw [hl.size_eq]; exact hc)⟩

theorem marcHrState_ok (s : MarcPolicy) (hit : Bool) : ∃ hr, marcHrState s hit = .ok hr :=
  ⟨_, div64_of_pos (Nat.succ_pos _)⟩

theorem marcTryTransition_total (h : s.Samples c) (hc : 0 < c) (mt : MarcTransaction)
    (hrSample hrState : Nat) : ∃ mt', marcTryTransition s mt hrSample hrState = .ok mt' := by
  unfold marcTryTransition
  cases hs : s.state with
  | unstable =>
    dsimp only
    split
    · exact ⟨_, rfl⟩
    · split
      · exact ⟨_, rfl⟩
      · exact ⟨_, rfl⟩
  | stable =>
    dsimp only
    split
    · exact ⟨_, rfl⟩
    · exact ⟨_, rfl⟩
  | unique =>
    dsimp only
    rw [marcUniqUnstCheck, h.tabu, div64_of_pos hc, ok_bind, pure_eq_ok, ok_bind]
    split
    · exact ⟨_, rfl⟩
    · exact ⟨_, rfl⟩

theorem marcTransactionJudge_total (h : s.Samples c) (hc : 0 < c) (o : Oblock) (w : Bool) :
    ∃ mt, marcTransactionJudge s (marcTransactionInit s o w) = .ok mt := by
  unfold marcTransactionJudge
  dsimp only
  split
  · obtain ⟨hrSample, h1⟩ := marcHrSample_ok h hc
      (marcTransactionCount s (marcTransactionInit s o w)).cHit
    obtain ⟨hrState, h2⟩ := marcHrState_ok s
      (marcTransactionCount s (marcTransactionInit s o w)).cHit
    obtain ⟨mt', h3⟩ := marcTryTransition_total h hc { marcTransactionCount s
      (marcTransactionInit s o w) with tabuCounter := s.tabu, saveSampleAvg := true }
      hrSample hrState
    exact ⟨_, by simp only [marcTransactionEvaluate, h1, h2, h3, ok_bind]; rfl⟩
  · exact ⟨_, rfl⟩

/-- A judged transaction keeps the target or lowers it to a tenth of the cache. -/
theorem MarcPolicy.Judged.ghostSize (h : s.Judged o w mt) :
    mt.ghostSize = s.ghostSize ∨ mt.ghostSize = s.internal.nucleus.cacheSize / 10 := by
  cases h with
  | counted heval => exact Or.inl rfl
  | stayed heval hsample hstate => exact Or.inl rfl
  | changed hne heval hsample hstate =>
    unfold marcChangeState
    split
    · exact Or.inr rfl
    · exact Or.inl rfl

theorem MarcPolicy.Judged.ghostSize_le (hj : s.Judged o w mt)
    (hcs : s.internal.nucleus.cacheSize = c) (hup : s.ghostSize ≤ c) : mt.ghostSize ≤ c := by
  rcases hj.ghostSize with hg | hg
  · rw [hg]
    exact hup
  · rw [hg, hcs]
    exact Nat.div_le_self _ _

theorem MarcPolicy.Judged.bounds (hj : s.Judged o w mt) (h : s.Bounded c) :
    c / 10 ≤ mt.ghostSize ∧ mt.ghostSize ≤ c := by
  refine ⟨?_, hj.ghostSize_le h.arc.cacheSize h.upper⟩
  rcases hj.ghostSize with hg | hg
  · rw [hg]
    exact h.lower
  · rw [hg, h.arc.cacheSize]

theorem marcTransactionRoute_total (h : s.Bounded c) (hc10 : 10 ≤ c) (hc : 4 * c < 2 ^ 32)
    (hlow : c / 10 ≤ mt.ghostSize) (hup : mt.ghostSize ≤ c) :
    ∃ mt', marcTransactionRoute s mt = .ok mt' := by
  obtain ⟨gd, hdec, _⟩ := marcGhostDecreaseSize_spec h.arc.cacheSize (by omega) hup
  obtain ⟨gi, hinc, _⟩ := marcGhostIncreaseSize_spec h hc10 hc hlow hup
  unfold marcTransactionRoute
  split
  · unfold marcTransactionRouteSettled
    split
    · rw [hdec]
      exact ⟨_, rfl⟩
    · split
      · dsimp only
        cases (hashLookup s.nucleus mt.oblock).isSome with
        | true =>
          simp only [if_true]
          rw [hinc]
          exact ⟨_, rfl⟩
        | false =>
          simp only [Bool.false_eq_true, if_false]
          rw [hinc]
          exact ⟨_, rfl⟩
      · exact ⟨_, rfl⟩
  · unfold marcTransactionRouteUnstable
    dsimp only
    split
    · split
      · rw [hdec]
        exact ⟨_, rfl⟩
      · cases (hashLookup s.nucleus mt.oblock).isSome with
        | true =>
          simp only [if_true]
          rw [hinc]
          exact ⟨_, rfl⟩
        | false =>
          simp only [Bool.false_eq_true, if_false]
          rw [hinc]
          exact ⟨_, rfl⟩
    · exact ⟨_, rfl⟩

theorem MarcPolicy.Routed.sized (hr : s.Routed mt mt') (hj : s.Judged o w mt) (h : s.Bounded c)
    (hc10 : 10 ≤ c) (hc : 4 * c < 2 ^ 32) : s.Sized c o mt' := by
  obtain ⟨hlow, hup⟩ := hj.bounds h
  have hu := hj.unrouted
  have hpl := hr.planned hu
  cases hr with
  | @hit g hcached hg =>
    obtain ⟨g', hg', hlow', hup'⟩ := marcGhostDecreaseSize_spec h.arc.cacheSize (by omega) hup
    obtain rfl := Except.ok.inj (hg.symm.trans hg')
    exact ⟨hpl, fun hx => absurd (hu.ghostRemove.symm.trans hx) (by decide), hlow', hup',
      fun hx => absurd (hu.ghostAdd.symm.trans hx) (by decide)⟩
  | plain hroom =>
    exact ⟨hpl, fun hx => absurd (hu.ghostRemove.symm.trans hx) (by decide), hlow, hup,
      fun hx => absurd (hu.ghostAdd.symm.trans hx) (by decide)⟩
  | @ghost g add hcached hfull hghost hg hadd =>
    obtain ⟨g', hg', hlow', hup'⟩ := marcGhostIncreaseSize_spec h hc10 hc hlow hup
    obtain rfl := Except.ok.inj (hg.symm.trans hg')
    exact ⟨hpl, fun _ => hu.oblock ▸ hghost, hlow', by dsimp only; omega, fun _ => hup'⟩
  | @add g filter hcached hfull hghost hg hfilter =>
    obtain ⟨g', hg', hlow', hup'⟩ := marcGhostIncreaseSize_spec h hc10 hc hlow hup
    obtain rfl := Except.ok.inj (hg.symm.trans hg')
    exact ⟨hpl, fun hx => absurd (hu.ghostRemove.symm.trans hx) (by decide), hlow',
      by dsimp only; omega, fun _ => hup'⟩

theorem marcTransactionSet_sized (h : s.Bounded c) (hc10 : 10 ≤ c) (hc : 4 * c < 2 ^ 32)
    (o : Oblock) (w : Bool) :
    ∃ mt, marcTransactionSet s (marcTransactionInit s o w) = .ok mt ∧ s.Sized c o mt := by
  obtain ⟨mt1, hjudge⟩ := marcTransactionJudge_total h.samples (by omega) o w
  have hj := marcTransactionJudge_judged hjudge
  obtain ⟨hlow, hup⟩ := hj.bounds h
  obtain ⟨mt, hroute⟩ := marcTransactionRoute_total h hc10 hc hlow hup
  refine ⟨mt, by rw [marcTransactionSet, hjudge, ok_bind, hroute], ?_⟩
  exact (marcTransactionRoute_routed hj.unrouted hroute).sized hj h hc10 hc

/-! ## The commit -/

/-- The staged values are taken over. -/
theorem marcCommitStats_spec (h : s.Samples c) (mt : MarcTransaction) :
    ∃ s', marcCommitStats s mt = .ok s' ∧ s'.internal = s.internal ∧
      s'.nucleus = s.nucleus ∧ s'.ghostQ = s.ghostQ ∧ s'.ghostSize = mt.ghostSize ∧
      s'.Samples c := by
  obtain ⟨l, hl⟩ := h.sample
  obtain ⟨la, hla⟩ := h.sampleAvg
  have hc := Nat.zero_lt_of_lt hl.rings.start_lt
  obtain ⟨sample, hpush, hsample⟩ := hl.push mt.cHit.toNat
  have hcleared : ∀ b1 b2 : Bool, ∃ l, (if b2 then
      Tools.windowStatsClear (if b1 then Tools.windowStatsClear sample else sample)
      else if b1 then Tools.windowStatsClear sample else sample).Holds c l := by
    intro b1 b2
    cases b2 with
    | true =>
      cases b1 with
      | true => exact ⟨[], (hsample.clear hc).clear hc⟩
      | false => exact ⟨[], hsample.clear hc⟩
    | false =>
      cases b1 with
      | true => exact ⟨[], hsample.clear hc⟩
      | false => exact ⟨_, hsample⟩
  have hhits : (if mt.saveGhostHits then s.ghostHits else s.ghostHitsOld) ≤ s.ghostHits := by
    split
    · exact Nat.le_refl _
    · exact h.hits
  unfold marcCommitStats
  rw [hpush, ok_bind]
  dsimp only
  by_cases hsave : mt.saveSampleAvg = true
  · obtain ⟨avg, hpush', havg⟩ := hla.push (100 * sample.sum / sample.size)
    rw [if_pos hsave, div64_of_pos (by rw [hsample.size_eq]; exact hc), ok_bind, hpush', ok_bind]
    exact ⟨_, rfl, rfl, rfl, rfl, rfl, h.tabu, hcleared _ _, ⟨_, havg⟩, hhits⟩
  · rw [if_neg hsave, ok_bind]
    exact ⟨_, rfl, rfl, rfl, rfl, rfl, h.tabu, hcleared _ _, ⟨_, hla⟩, hhits⟩

theorem MarcPolicy.OnlyGhosts.samples (h : s.OnlyGhosts s') (hs : s.Samples c) :
    s'.Samples c ∧ s'.ghostSize = s.ghostSize := by
  cases h with
  | mk hstats hhits => exact ⟨⟨hs.tabu, hs.sample, hs.sampleAvg, hs.hits.trans hhits⟩, rfl⟩

/-- The ghosts grow by one at most, and by none when no ghost is added. -/
theorem marcCommitGhosts_spec (hg : s.Ghosts c) (hs : s.Samples c) (hsz : s.Sized c o mt)
    (hlen : s.ghostQ.length < c) :
    ∃ s', marcCommitGhosts s mt = .ok s' ∧ s'.Ghosts c ∧ s'.internal = s.internal ∧
      s'.ghostSize = s.ghostSize ∧ s'.Samples c ∧
      s'.ghostQ.length ≤ s.ghostQ.length + mt.ghostAdd.toNat := by
  have hpl := hsz.planned
  unfold marcCommitGhosts
  rw [hpl.oblock]
  cases hrem : mt.ghostRemove with
  | true =>
    obtain ⟨me, hl⟩ := Option.isSome_iff_exists.mp (hsz.known hrem)
    have hme := hg.lookup_mem hl
    cases hadd : mt.ghostAdd with
    | true =>
      rw [Bool.true_and, if_pos rfl, hl]
      refine ⟨_, rfl, hg.requeue hme, rfl, rfl, ⟨hs.tabu, hs.sample, hs.sampleAvg, ?_⟩, ?_⟩
      · exact Nat.le_succ_of_le hs.hits
      · show (s.ghostQ.erase me ++ [me]).length ≤ _
        rw [List.length_append, List.length_erase_of_mem hme]
        simp only [List.length_singleton, Bool.toNat_true]
        omega
    | false =>
      obtain ⟨s', hrun, hg', hi, hq⟩ := marcRemoveEntry_ghosts hg hme
      obtain ⟨hs', hsize⟩ := (marcRemoveEntry_onlyGhosts hrun).samples hs
      rw [Bool.and_false, if_neg (by decide), if_pos rfl, hl, deref_some, ok_bind]
      refine ⟨s', hrun, hg', hi, hsize, hs', ?_⟩
      rw [hq]
      exact Nat.le_add_right_of_le List.length_erase_le
  | false =>
    rw [Bool.false_and, if_neg (by decide), if_neg (by decide)]
    cases hadd : mt.ghostAdd with
    | true =>
      obtain ⟨cn, me, hins, hg', _⟩ := hg.insert hlen
        (hg.wf.hashLookup_eq_none.mp (hpl.fresh hadd hrem))
      rw [if_pos rfl, hins]
      refine ⟨_, rfl, hg', rfl, rfl, ⟨hs.tabu, hs.sample, hs.sampleAvg, hs.hits⟩, ?_⟩
      simp
    | false =>
      rw [if_neg (by decide)]
      exact ⟨s, rfl, hg, rfl, rfl, hs, Nat.le_add_right _ _⟩

/-- A filtered request leaves ARC as it is. -/
theorem marcCommitMap_spec (mt : MarcTransaction) (hg : s.Ghosts c) (hs : s.Samples c)
    (ha : s.internal.Bounded c c) (hc0 : 1 ≤ c) (hc : 4 * c < 2 ^ 32)
    (result : CacheNucleusResult) :
    ∃ s' res, marcCommitMap s mt result = .ok (s', res) ∧ s'.Ghosts c ∧ s'.Samples c ∧
      s'.internal.Bounded c c ∧ s'.ghostSize = s.ghostSize ∧ s'.ghostQ = s.ghostQ := by
  have hs' : ∀ cn i, ({ s with nucleus := cn, internal := i } : MarcPolicy).Samples c :=
    fun _ _ => ⟨hs.tabu, hs.sample, hs.sampleAvg, hs.hits⟩
  unfold marcCommitMap
  split
  · have hcalls : arcCalls s.internal (.map mt.oblock mt.write result) := trivial
    obtain ⟨a', x, hcall, ha'⟩ := ha.call (by omega) (Nat.le_refl c) hcalls
    obtain ⟨res, _, hmap⟩ := Policy.call_map.mp hcall
    rw [hmap]
    exact ⟨_, res, rfl, hg, hs' _ _, ha', rfl, rfl⟩
  · exact ⟨_, _, rfl, hg.withStats _, hs' _ _, ha, rfl, rfl⟩

/-- One ghost goes when there are more than the target. -/
theorem marcCommitEvict_spec (hg : s.Ghosts c) (hs : s.Samples c) :
    ∃ s', marcCommitEvict s = .ok s' ∧ s'.Ghosts c ∧ s'.Samples c ∧
      s'.internal = s.internal ∧ s'.ghostSize = s.ghostSize ∧
      s'.ghostQ.length ≤ s.ghostQ.length ∧
      s'.ghostQ.length ≤ max s.ghostSize (s.ghostQ.length - 1) := by
  unfold marcCommitEvict
  rw [queueLength_eq]
  split
  · next hlong =>
    obtain ⟨me, q, hq⟩ := List.exists_cons_of_length_pos (by omega : 0 < s.ghostQ.length)
    have hme : me ∈ s.ghostQ := hq ▸ List.mem_cons_self
    obtain ⟨s', hrun, hg', hi, hq'⟩ := marcRemoveEntry_ghosts hg hme
    obtain ⟨hs', hsize⟩ := (marcRemoveEntry_onlyGhosts hrun).samples hs
    refine ⟨s', ?_, hg', hs', hi, hsize, ?_, ?_⟩
    · rw [marcGhostEvict, hq, queuePeek_cons, deref_some, ok_bind, hrun]
    · rw [hq']
      exact List.length_erase_le
    · rw [hq', List.length_erase_of_mem hme]
      exact Nat.le_max_right _ _
  · next hshort =>
    exact ⟨s, rfl, hg, hs, rfl, rfl, Nat.le_refl _, by omega⟩

theorem marcTransactionCommit_spec (h : s.Bounded c) (hsz : s.Sized c o mt) (hc10 : 10 ≤ c)
    (hc : 4 * c < 2 ^ 32) (result : CacheNucleusResult) :
    ∃ s' res, marcTransactionCommit s mt result = .ok (s', res) ∧ s'.Bounded c ∧
      s'.ghostSize = mt.ghostSize := by
  have hlen := h.length
  have hlow := hsz.lower
  have hup := hsz.upper
  obtain ⟨s1, h1, hi1, hn1, hq1, hg1, hs1⟩ := marcCommitStats_spec h.samples mt
  have hgh1 : s1.Ghosts c := by
    rw [Ghosts, hn1, hq1]
    exact h.ghosts
  have hsz1 : s1.Sized c o mt := by
    refine ⟨⟨hsz.planned.oblock, fun ha hr => ?_⟩, fun hr => ?_, hlow, hup, hsz.add⟩
    · rw [hn1]
      exact hsz.planned.fresh ha hr
    · rw [hn1]
      exact hsz.known hr
  obtain ⟨s2, h2, hgh2, hi2, hg2, hs2, hl2⟩ :=
    marcCommitGhosts_spec hgh1 hs1 hsz1 (by rw [hq1]; omega)
  obtain ⟨s3, res, h3, hgh3, hs3, ha3, hg3, hq3⟩ := marcCommitMap_spec mt hgh2 hs2
    (by rw [hi2, hi1]; exact h.arc) (by omega) hc result
  obtain ⟨s4, h4, hgh4, hs4, hi4, hg4, hle4, hl4⟩ := marcCommitEvict_spec hgh3 hs3
  have hsize : s4.ghostSize = mt.ghostSize := by rw [hg4, hg3, hg2, hg1]
  have hsize3 : s3.ghostSize = mt.ghostSize := by rw [hg3, hg2, hg1]
  refine ⟨s4, res, ?_, ⟨hi4 ▸ ha3, hgh4, hs4, by rw [hsize]; exact hlow,
    by rw [hsize]; exact hup, ?_⟩, hsize⟩
  · simp only [marcTransactionCommit, h1, h2, h3, h4, ok_bind, pure_eq_ok]
  -- only a request that lowered the target to nine tenths brings a ghost
  · rw [hq3] at hle4 hl4
    rw [hsize3] at hl4
    rw [hq1] at hl2
    cases hadd : mt.ghostAdd with
    | true =>
      have := hsz.add hadd
      rw [hadd, Bool.toNat_true] at hl2
      omega
    | false =>
      rw [hadd, Bool.toNat_false] at hl2
      omega

/-! ## Runs -/

/-- The calls that make up a run. -/
def marcRequests (marc : MarcPolicy) : Call → Prop
  | .map _ _ _ => True
  | .migrated o => marc.internal.nucleus.MayMigrate o
  | _ => False

/-- Every request answers; the target moves only when the request is committed. -/
theorem MarcPolicy.Bounded.map (h : s.Bounded c) (hc10 : 10 ≤ c) (hc : 4 * c < 2 ^ 32)
    (o : Oblock) (w : Bool) (result : CacheNucleusResult) :
    ∃ s' res mt, marcMapApi s o w result = .ok (s', res) ∧ s'.Bounded c ∧
      marcTransactionSet s (marcTransactionInit s o w) = .ok mt ∧ s.Sized c o mt ∧
      (res.op ≠ .fail → s'.ghostSize = mt.ghostSize) := by
  obtain ⟨mt, hset, hsz⟩ := marcTransactionSet_sized h hc10 hc o w
  obtain ⟨s1, res1, hcommit, h1, hsize⟩ := marcTransactionCommit_spec h hsz hc10 hc result
  obtain ⟨legal, hleg⟩ : ∃ legal, marcTransactionIsLegal s mt = .ok (s, legal) := by
    unfold marcTransactionIsLegal
    split
    · exact ⟨true, rfl⟩
    · obtain ⟨op, v, hv⟩ := arcNextVictimApi_state h.arc.inv mt.oblock
      rw [show arcApi.nextVictim s.internal mt.oblock = _ from hv]
      exact ⟨_, rfl⟩
  cases legal with
  | true =>
    refine ⟨s1, res1, mt, ?_, h1, hset, hsz, fun _ => hsize⟩
    simp only [marcMapApi, hset, hleg, hcommit, ok_bind, if_true]
  | false =>
    refine ⟨s, { result with op := .fail }, mt, ?_, h, hset, hsz, fun hop => (hop rfl).elim⟩
    simp only [marcMapApi, hset, hleg, ok_bind, Bool.false_eq_true, if_false, pure_eq_ok]

theorem MarcPolicy.Bounded.call (h : s.Bounded c) (hc10 : 10 ≤ c) (hc : 4 * c < 2 ^ 32)
    {call : Call} (hg : marcRequests s call) :
    ∃ s' x, marcApi.call s call = .ok (s', x) ∧ s'.Bounded c := by
  cases call with
  | map o w result =>
    obtain ⟨s', res, _, hmap, h', _⟩ := h.map hc10 hc o w result
    exact ⟨s', _, Policy.call_map.mpr ⟨res, rfl, hmap⟩, h'⟩
  | migrated o =>
    have hcalls : arcCalls s.internal (.migrated o) := hg
    obtain ⟨a', x, hcall, ha'⟩ := h.arc.call (by omega) (Nat.le_refl c) hcalls
    obtain ⟨i, hi, heq⟩ := map_eq_ok.mp hcall
    obtain ⟨rfl, _⟩ := Prod.mk.inj heq
    have hrun : marcMigratedApi s o = .ok { s with internal := i } := by
      rw [marcMigratedApi, hi]
      rfl
    exact ⟨_, none, map_eq_ok.mpr ⟨_, hrun, rfl⟩, ha', h.ghosts,
      ⟨h.samples.tabu, h.samples.sample, h.samples.sampleAvg, h.samples.hits⟩, h.lower, h.upper,
      h.length⟩
  | insert o cb => exact hg.elim
  | remove o keep => exact hg.elim
  | remap a b => exact hg.elim
  | setTime t => exact hg.elim

theorem marcCreate_bounded {c : UInt32} (hc0 : 0 < c.toNat) (hinit : marcCreate c c = .ok s) :
    s.Bounded c.toNat := by
  obtain ⟨arc, harc, hinit⟩ := bind_eq_ok.mp hinit
  obtain ⟨hgh, hi⟩ := marcInit_ghosts hinit
  rw [marcInit_eq] at hinit
  obtain rfl := Except.ok.inj hinit
  exact ⟨arcCreate_bounded harc, hgh, ⟨rfl, ⟨[], Tools.windowStatsInit_holds hc0⟩,
    ⟨[], Tools.windowStatsInit_holds Nat.one_pos⟩, Nat.le_refl _⟩, Nat.div_le_self _ _,
    Nat.le_refl _, Nat.zero_le _⟩

theorem MarcPolicy.Bounded.of_reachable {c : UInt32} {s0 : MarcPolicy} (hc10 : 10 ≤ c.toNat)
    (hc : 4 * c.toNat < 2 ^ 32) (hinit : marcCreate c c = .ok s0)
    (hs : (marcApi.system marcRequests).Reachable s0 s) : s.Bounded c.toNat := by
  apply hs.invariant (marcCreate_bounded (by omega) hinit)
  intro a call b x ha hg hcall
  obtain ⟨b', x', hcall', hb⟩ := ha.call hc10 hc hg
  obtain ⟨rfl, _⟩ := Prod.mk.inj (Except.ok.inj (hcall.symm.trans hcall'))
  exact hb

/-- The structural invariant of mARC, over every interleaving of requests and completed
migrations. -/
theorem marc_structure {c : UInt32} {s0 : MarcPolicy} (hc10 : 10 ≤ c.toNat)
    (hc : 4 * c.toNat < 2 ^ 32) (hinit : marcCreate c c = .ok s0)
    (hs : (marcApi.system marcRequests).Reachable s0 s) :
    c.toNat / 10 ≤ s.ghostSize ∧ s.ghostSize ≤ c.toNat ∧
    (∀ o w result s' res mt, marcMapApi s o w result = .ok (s', res) → res.op ≠ .fail →
      marcTransactionSet s (marcTransactionInit s o w) = .ok mt → mt.ghostAdd = true →
      s'.ghostSize ≤ 9 * c.toNat / 10) ∧
    (∀ r, r ∈ s.nucleus.ht ↔ r ∈ s.ghostQ) ∧
    (∀ r, r ∈ s.ghostQ ↔ r.pool = .metadata ∧ (s.nucleus.entry r).allocated = true) ∧
    s.nucleus.ht.Nodup ∧ s.ghostQ.Nodup ∧
    (s.ghostQ.map fun r => (s.nucleus.entry r).oblock).Nodup ∧
    queueLength s.ghostQ ≤ 9 * c.toNat / 10 ∧
    (∀ o, ∃ x, insertInMeta s.nucleus o = .ok x) ∧
    (∀ o w mt, marcTransactionJudge s (marcTransactionInit s o w) = .ok mt →
      0 < mt.ghostSize ∧ mt.ghostSize ≤ s.internal.nucleus.cacheSize) ∧
    Tools.windowStatsPeek s.sample ≤ s.sample.sum ∧ 0 < s.sample.size ∧
    Tools.windowStatsPeek s.sampleAvg ≤ s.sampleAvg.sum ∧ 0 < s.sampleAvg.size ∧
    s.ghostHitsOld ≤ s.ghostHits ∧ 0 < s.tabu ∧
    ∀ call, marcRequests s call → ∃ s' x, marcApi.call s call = .ok (s', x) := by
  have h := Bounded.of_reachable hc10 hc hinit hs
  have hlen := h.length
  obtain ⟨l, hl⟩ := h.samples.sample
  obtain ⟨la, hla⟩ := h.samples.sampleAvg
  refine ⟨h.lower, h.upper, ?_, fun r => (h.ghosts.wf.mem_ht r).trans (h.ghosts.mem r).symm,
    fun r => ⟨fun hr => ⟨h.ghosts.pool_eq hr, (h.ghosts.mem r).mp hr⟩,
      fun hr => (h.ghosts.mem r).mpr hr.2⟩, h.ghosts.wf.ht_nodup, h.ghosts.nodup,
    h.ghosts.oblocks_nodup, hlen, ?_, ?_, hl.peek_le, ?_, hla.peek_le, ?_, h.samples.hits, ?_, ?_⟩
  · intro o w result s' res mt hmap hop hset hadd
    obtain ⟨s1, res1, mt1, hmap1, _, hset1, hsz, hsize⟩ := h.map hc10 hc o w result
    obtain ⟨rfl, rfl⟩ := Prod.mk.inj (Except.ok.inj (hmap.symm.trans hmap1))
    obtain rfl := Except.ok.inj (hset.symm.trans hset1)
    rw [hsize hop]
    exact hsz.add hadd
  · intro o
    have hpart := h.ghosts.free_append_queue
    obtain ⟨i, rest, hfree⟩ := List.exists_cons_of_length_pos
      (by omega : 0 < (s.nucleus.pool .metadata).free.length)
    rw [insertInMeta, allocPoolEntry, allocEntry, hfree]
    exact ⟨_, rfl⟩
  · intro o w mt hjudge
    obtain ⟨hlow, hup⟩ := (marcTransactionJudge_judged hjudge).bounds h
    rw [h.arc.cacheSize]
    exact ⟨by omega, hup⟩
  · rw [hl.size_eq]
    omega
  · rw [hla.size_eq]
    exact Nat.one_pos
  · rw [h.samples.tabu]
    omega
  · intro call hg
    obtain ⟨s', x, hcall, _⟩ := h.call hc10 hc hg
    exact ⟨s', x, hcall⟩

/-- Ten blocks fill the cache, one of them settles, and an unknown one takes its slot. -/
def marcFilling : List Call :=
  [.map 0 false {}, .map 1 false {}, .map 2 false {}, .map 3 false {}, .map 4 false {},
    .map 5 false {}, .map 6 false {}, .map 7 false {}, .map 8 false {}, .map 9 false {},
    .migrated 0, .map 10 false {}]

/-- The full cache of ten slots, with a ghost. -/
theorem marc_structure_settled : ∃ s0 s, marcCreate 10 10 = .ok s0 ∧
    (marcApi.system marcRequests).Reachable s0 s ∧ cacheIsFull s.internal.nucleus = true ∧
    s.ghostQ.map (fun r => (s.nucleus.entry r).oblock) = [10] ∧
    (∀ r, r ∈ s.nucleus.ht ↔ r ∈ s.ghostQ) ∧ 1 ≤ s.ghostSize := by
  obtain ⟨s0, hinit, hadm, s, ws, hexec, hfull, hghosts⟩ : ∃ s0, marcCreate 10 10 = .ok s0 ∧
      (marcApi.system marcRequests).Admits s0 marcFilling ∧
      ∃ s ws, (marcApi.system marcRequests).exec s0 marcFilling = .ok (s, ws) ∧
        cacheIsFull s.internal.nucleus = true ∧
        s.ghostQ.map (fun r => (s.nucleus.entry r).oblock) = [10] := by
    refine ⟨_, rfl, ?_, _, _, rfl, rfl, rfl⟩
    -- only the completed migration asks for a state
    iterate 10 refine And.intro trivial ?_
    exact And.intro (Exists.intro 9 (And.intro (And.intro rfl rfl) rfl))
      (And.intro trivial trivial)
  have hrun := (Lib.System.Run.of_exec hadm hexec).reachable
  obtain ⟨hlow, _, _, hht, _⟩ := marc_structure (by decide) (by decide) hinit hrun
  exact ⟨s0, s, hinit, hrun, hfull, hghosts, hht, hlow⟩

end Fomo
