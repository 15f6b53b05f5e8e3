import Fomo.DmcachePolicy.BaseLocates
import Fomo.Algs.MarcStructure
import Fomo.Wrapper.WrapperStatistics

/-!
# mARC under dmcache_base

A cached block is one of ARC. The windows and the ghost target are as a hit needs them, whatever
happened to the ghosts in between.
-/
namespace Fomo

variable {s s' : MarcPolicy} {mt mt' : MarcTransaction} {o : Oblock} {cb : Cblock} {c g : Nat}
  {w : Bool} {result res : CacheNucleusResult}

namespace MarcPolicy

/-- What a request computes with: the windows, and a target that fits the cache. -/
structure Measured (c : Nat) (s : MarcPolicy) : Prop where
  samples : s.Samples c
  ghostSize_le : s.ghostSize ≤ c

/-- mARC over ARC with `c` slots. -/
structure Located (c : Nat) (s : MarcPolicy) : Prop where
  arc : s.internal.Sized c
  ghosts : s.Ghosts c
  measured : 0 < c → s.Measured c

theorem Measured.withInternal (h : s.Measured c) (a : ArcPolicy) :
    ({ s with internal := a } : MarcPolicy).Measured c :=
  ⟨⟨h.samples.tabu, h.samples.sample, h.samples.sampleAvg, h.samples.hits⟩, h.ghostSize_le⟩

theorem Located.withInternal (h : s.Located c) {a : ArcPolicy} (ha : a.Sized c) :
    ({ s with internal := a } : MarcPolicy).Located c :=
  ⟨ha, h.ghosts, fun hc => (h.measured hc).withInternal a⟩

theorem Located.pos (h : s.Located c) (hcb : s.internal.nucleus.Caches o cb) : 0 < c := by
  have hlt := h.arc.inv.wf.lt_of_allocated hcb.1
  rw [h.arc.cacheEntries] at hlt
  exact Nat.zero_lt_of_lt hlt

theorem Located.lt (h : s.Located c) : c < 2 ^ 32 := by
  have hlt := (h.arc.inv.wf.pools .cache).nr_lt
  rwa [h.arc.cacheEntries] at hlt

/-! ## The target of the ghosts -/

theorem increase_le (hcs : s.internal.nucleus.cacheSize = c)
    (hrun : marcGhostIncreaseSize s g = .ok mt.ghostSize) : mt.ghostSize ≤ c := by
  obtain ⟨tmp, _, hrun⟩ := bind_eq_ok.mp hrun
  rw [← Except.ok.inj hrun, hcs]
  have := u32_le (9 * c / 10)
  exact (Nat.min_le_left _ _).trans (by omega)

theorem Routed.ghostSize_le (hr : s.Routed mt mt') (hcs : s.internal.nucleus.cacheSize = c)
    (hc : c < 2 ^ 32) (hup : mt.ghostSize ≤ c) : mt'.ghostSize ≤ c := by
  cases hr with
  | @hit g hcached hg =>
    obtain ⟨g', hg', _, hup'⟩ := marcGhostDecreaseSize_spec hcs hc hup
    exact Except.ok.inj (hg'.symm.trans hg) ▸ hup'
  | plain hroom => exact hup
  | ghost hcached hfull hghost hg hadd => exact increase_le hcs hg
  | add hcached hfull hghost hg hfilter => exact increase_le hcs hg

/-! ## The commit -/

theorem Measured.onlyGhosts (h : s.Measured c) (hg : s.OnlyGhosts s') : s'.Measured c := by
  obtain ⟨hs, hsize⟩ := hg.samples h.samples
  exact ⟨hs, hsize ▸ h.ghostSize_le⟩

theorem Measured.commitMap (h : s.Measured c)
    (hrun : marcCommitMap s mt result = .ok (s', res)) : s'.Measured c := by
  have hs := h.samples
  unfold marcCommitMap at hrun
  split at hrun
  · obtain ⟨x, _, hrun⟩ := bind_eq_ok.mp hrun
    obtain ⟨rfl, _⟩ := Prod.mk.inj (Except.ok.inj hrun)
    exact h.withInternal x.1
  · obtain ⟨rfl, _⟩ := Prod.mk.inj (Except.ok.inj hrun)
    exact ⟨⟨hs.tabu, hs.sample, hs.sampleAvg, hs.hits⟩, h.ghostSize_le⟩

theorem Measured.commit (h : s.Measured c) (hg : mt.ghostSize ≤ c)
    (hrun : marcTransactionCommit s mt result = .ok (s', res)) : s'.Measured c := by
  obtain ⟨s1, h1, hrun⟩ := bind_eq_ok.mp hrun
  obtain ⟨t1, h1', _, _, _, hsize, hs1⟩ := marcCommitStats_spec h.samples mt
  obtain rfl := Except.ok.inj (h1'.symm.trans h1)
  obtain ⟨s2, h2, hrun⟩ := bind_eq_ok.mp hrun
  obtain ⟨⟨s3, res3⟩, h3, hrun⟩ := bind_eq_ok.mp hrun
  obtain ⟨s4, h4, hrun⟩ := bind_eq_ok.mp hrun
  obtain ⟨rfl, _⟩ := Prod.mk.inj (Except.ok.inj hrun)
  have hm1 : t1.Measured c := ⟨hs1, hsize.symm ▸ hg⟩
  have hm2 := hm1.onlyGhosts (marcCommitGhosts_onlyGhosts h2)
  exact (hm2.commitMap h3).onlyGhosts (marcCommitEvict_onlyGhosts h4)

theorem Located.map (h : s.Located c)
    (hrun : marcMapApi s o w result = .ok (s', res)) : s'.Located c := by
  have hgh := marcMapApi_ghosts h.ghosts hrun
  obtain ⟨mt, hset, ⟨_, rfl, _⟩ | ⟨_, hcommit⟩⟩ := marcMapApi_ok hrun
  · exact h
  · obtain ⟨mt1, hj, hr⟩ := marcTransactionSet_ok hset
    refine ⟨?_, hgh, fun hc => ?_⟩
    · rcases marcTransactionCommit_aside hcommit with ⟨_, _, hi, _⟩ | ⟨_, _, hmap⟩
      · exact hi ▸ h.arc
      · exact ((arc_serves_sized c).map h.arc hmap).2
    · have hm := h.measured hc
      exact hm.commit (hr.ghostSize_le h.arc.cacheSize h.lt
        (hj.ghostSize_le h.arc.cacheSize hm.ghostSize_le)) hcommit

/-! ## Hits -/

/-- The transaction of a request for a cached block goes to ARC and leaves the ghosts alone. -/
theorem Located.transaction (h : s.Located c) (hcb : s.internal.nucleus.Caches o cb) (w : Bool) :
    ∃ mt, marcTransactionSet s (marcTransactionInit s o w) = .ok mt ∧ mt.oblock = o ∧
      mt.write = w ∧ mt.filter = false ∧ mt.ghostRemove = false ∧ mt.ghostAdd = false := by
  have hc := h.pos hcb
  have hm := h.measured hc
  obtain ⟨mt1, hjudge⟩ := marcTransactionJudge_total hm.samples hc o w
  have hj := marcTransactionJudge_judged hjudge
  have hu := hj.unrouted
  have hhit : mt1.cHit = true := by
    rw [hu.cHit, (arc_locates c).lookup_caches h.arc hcb]
    rfl
  obtain ⟨g, hdec, _⟩ := marcGhostDecreaseSize_spec h.arc.cacheSize h.lt
    (hj.ghostSize_le h.arc.cacheSize hm.ghostSize_le)
  obtain ⟨mt, hroute⟩ : ∃ mt, marcTransactionRoute s mt1 = .ok mt := by
    unfold marcTransactionRoute marcTransactionRouteSettled marcTransactionRouteUnstable
    simp only [hhit, if_true, hdec, ok_bind]
    split
    · exact ⟨_, rfl⟩
    · split
      · exact ⟨_, rfl⟩
      · exact ⟨_, rfl⟩
  refine ⟨mt, by rw [marcTransactionSet, hjudge, ok_bind, hroute], ?_⟩
  cases marcTransactionRoute_routed hu hroute with
  | hit hcached hg => exact ⟨hu.oblock, hu.write, rfl, hu.ghostRemove, hu.ghostAdd⟩
  | plain hroom => exact ⟨hu.oblock, hu.write, rfl, hu.ghostRemove, hu.ghostAdd⟩
  | ghost hcached => exact absurd (hcached.symm.trans hhit) (by decide)
  | add hcached => exact absurd (hcached.symm.trans hhit) (by decide)

/-- A request for a cached block is a hit of ARC. -/
theorem Located.hit (h : s.Located c) (result : CacheNucleusResult)
    (hcb : s.internal.nucleus.Caches o cb) : ∃ s' res,
      marcMapApi s o false result = .ok (s', res) ∧ res.op = .hit ∧ res.cblock = cb ∧
      s'.internal.nucleus.Cached o := by
  obtain ⟨mt, hset, hob, hw, hf, hrem, hadd⟩ := h.transaction hcb false
  have hm := h.measured (h.pos hcb)
  have hl := h.arc.inv.wf.caches_iff.mp hcb
  have hv : arcApi.nextVictim s.internal mt.oblock = .ok (s.internal, .hit, none) :=
    hob.symm ▸ arcNextVictimApi_hit h.arc.inv hl rfl
  obtain ⟨a, res, hmap, hop, hloc, hcached⟩ := (arc_locates c).hit (arc_answers c) result h.arc hcb
  obtain ⟨s1, h1, hi1, hn1, hq1, _, hs1⟩ := marcCommitStats_spec hm.samples mt
  have hgh : ({ s1 with internal := a } : MarcPolicy).Ghosts c := by
    show GhostQueue c s1.nucleus s1.ghostQ
    rw [hn1, hq1]
    exact h.ghosts
  obtain ⟨s2, h2, _, _, hi2, _⟩ := marcCommitEvict_spec hgh
    ⟨hs1.tabu, hs1.sample, hs1.sampleAvg, hs1.hits⟩
  refine ⟨s2, res, ?_, hop, hloc, ?_⟩
  · have hasked : arcApi.map s1.internal mt.oblock mt.write result = .ok (a, res) := by
      rw [hi1, hob, hw]
      exact hmap
    simp only [marcMapApi, hset, ok_bind, marcTransactionIsLegal, hf, Bool.false_eq_true, if_false,
      hv, marcTransactionCommit, h1, marcCommitGhosts, hrem, hadd, marcCommitMap, Bool.not_false,
      if_true, hasked, pure_eq_ok, h2, Bool.and_false]
    rfl
  · rw [hi2]
    exact hcached

end MarcPolicy

open MarcPolicy

theorem marc_locates (c : Nat) : marcApi.Locates (MarcPolicy.Located c) true where
  entryAt := fun s => (arc_locates c).entryAt s.internal
  owner_setTime := fun s time => (arc_locates c).owner_setTime s.internal time
  lookup := fun h => (arc_locates c).lookup h.arc
  infer := fun h _ => inferPoolCblock_of_empty h.ghosts.cache_empty
  setTime := by
    intro s time h
    refine ⟨(arc_locates c).setTime time h.arc, h.ghosts.withTime time, fun hc => ?_⟩
    have hm := h.measured hc
    exact ⟨⟨hm.samples.tabu, hm.samples.sample, hm.samples.sampleAvg, hm.samples.hits⟩,
      hm.ghostSize_le⟩
  marks := fun dirty wb h => h.withInternal ((arc_locates c).marks dirty wb h.arc)
  map := fun h hmap => h.map hmap
  hits := by
    intro s s' o cb result res h hc hmap
    obtain ⟨s1, res1, hmap1, hhit⟩ := h.hit result hc
    obtain ⟨rfl, rfl⟩ := Prod.mk.inj (Except.ok.inj (hmap1.symm.trans hmap))
    exact hhit
  migrated := by
    intro s s' o h hrun
    obtain ⟨a, ha, hrun⟩ := bind_eq_ok.mp hrun
    exact Except.ok.inj hrun ▸ h.withInternal ((arc_locates c).migrated h.arc ha)
  insert := by
    intro s s' o cb h hmay hrun
    obtain ⟨a, ha, hrun⟩ := bind_eq_ok.mp hrun
    exact Except.ok.inj hrun ▸ h.withInternal ((arc_locates c).insert h.arc hmay ha)
  remove := by
    intro s s' o h hrun
    obtain ⟨a, ha, hrun⟩ := bind_eq_ok.mp hrun
    exact Except.ok.inj hrun ▸ h.withInternal ((arc_locates c).remove h.arc ha)
  force := by
    intro s s1 s2 a b h hrem hremap
    obtain ⟨a1, ha1, hrem⟩ := bind_eq_ok.mp hrem
    obtain rfl := Except.ok.inj hrem
    obtain ⟨a2, ha2, hremap⟩ := bind_eq_ok.mp hremap
    obtain rfl := Except.ok.inj hremap
    exact h.withInternal ((arc_locates c).force h.arc ha1 ha2)

theorem marc_answers (c : Nat) : marcApi.Answers (MarcPolicy.Located c) := by
  intro s o result h hcached
  obtain ⟨cb, hc⟩ := hcached
  obtain ⟨s', res, hmap, _⟩ := h.hit result hc
  exact ⟨s', res, hmap⟩

theorem arcCreate_sized {n : UInt32} {s : ArcPolicy} (hinit : arcCreate n n = .ok s) :
    s.Sized n.toNat := by
  have hb := arcCreate_bounded hinit
  refine ⟨hb.inv, hb.cacheSize, ?_⟩
  rw [arcCreate_eq] at hinit
  exact Except.ok.inj hinit ▸ rfl

theorem marcCreate_located {n : UInt32} (hinit : marcCreate n n = .ok s) :
    s.Located n.toNat := by
  have hinit' := hinit
  obtain ⟨arc, harc, hrun⟩ := bind_eq_ok.mp hinit'
  obtain ⟨hgh, hi⟩ := marcInit_ghosts hrun
  refine ⟨hi ▸ arcCreate_sized harc, hgh, fun hc => ?_⟩
  have hb := marcCreate_bounded hc hinit
  exact ⟨hb.samples, hb.upper⟩

end Fomo
