import Fomo.Algs.ServingContract
import Fomo.Include.Statistics

/-!
# What the base policies count

Every commit counts its request once, as a hit, a miss or a filtered one. A victim and a
cached block that is removed count as a demotion, except a removed block that still migrates.
-/
namespace Fomo

open CacheNucleus

variable {o : Oblock} {w : Bool} {r : EntryRef} {result res : CacheNucleusResult}

/-! ## LRU -/

section Lru

variable {s s' : LruPolicy}

theorem lruRemoveEntry_stats (hrun : lruRemoveEntry s r = .ok s') : s'.nucleus.stats =
    if (s.nucleus.entry r).migrating then s.nucleus.stats else s.nucleus.incDemotions.stats := by
  obtain ⟨cn, hrem, hrun⟩ := bind_eq_ok.mp hrun
  rw [← Except.ok.inj hrun]
  refine (cacheNucleusRemove_stats hrem).trans ?_
  split
  · rfl
  · rfl

/-- The victim is settled. -/
theorem lruEvict_stats (h : s.Inv) (hrun : lruEvict s result = .ok (s', res)) :
    s'.nucleus.stats = s.nucleus.incDemotions.stats ∧ res.op = result.op := by
  obtain ⟨⟨v, q⟩, hpop, hrun⟩ := bind_eq_ok.mp hrun
  obtain ⟨s1, hrem, hrun⟩ := bind_eq_ok.mp hrun
  obtain ⟨rfl, rfl⟩ := Prod.mk.inj (Except.ok.inj hrun)
  have hstats := lruRemoveEntry_stats hrem
  have hset : (s.nucleus.entry v).migrating = false := by
    cases hq : s.lruQ with
    | nil => rw [hq] at hpop; cases hpop
    | cons x q' =>
      rw [hq, queuePop_cons] at hpop
      obtain ⟨rfl, _⟩ := Prod.mk.inj (Except.ok.inj hpop)
      exact ((h.mem_queue x).mp (hq ▸ List.mem_cons_self)).2
  dsimp only at hstats
  rw [hset] at hstats
  exact ⟨hstats, rfl⟩

theorem lruInsert_stats (hrun : lruInsert s o result = .ok (s', res)) :
    s'.nucleus.stats = s.nucleus.stats ∧ res.op = result.op := by
  obtain ⟨⟨cn, e, res1⟩, hins, hrun⟩ := bind_eq_ok.mp hrun
  obtain ⟨cn1, hmig, hrun⟩ := bind_eq_ok.mp hrun
  obtain ⟨rfl, rfl⟩ := Prod.mk.inj (Except.ok.inj hrun)
  exact ⟨(migratingCacheEntry_stats hmig).trans (insertInCache_stats hins), insertInCache_op hins⟩

theorem lruHit_stats (hrun : lruHit s o result = .ok (s', res)) :
    s'.nucleus.stats = s.nucleus.stats ∧ res.op = result.op := by
  obtain ⟨e, _, hrun⟩ := bind_eq_ok.mp hrun
  obtain ⟨cb, _, hrun⟩ := bind_eq_ok.mp hrun
  dsimp only at hrun
  split at hrun
  · obtain ⟨rfl, rfl⟩ := Prod.mk.inj (Except.ok.inj hrun)
    exact ⟨rfl, rfl⟩
  · obtain ⟨rfl, rfl⟩ := Prod.mk.inj (Except.ok.inj hrun)
    exact ⟨rfl, rfl⟩

theorem lruTransactionCommit_stats {lt : LruTransaction} (h : s.Inv)
    (hrun : lruTransactionCommit s lt result = .ok (s', res)) :
    s'.nucleus.incIos.stats = s.nucleus.stats.after res.op := by
  unfold lruTransactionCommit at hrun
  split at hrun
  · obtain ⟨⟨s1, res1⟩, hhit, hrun⟩ := bind_eq_ok.mp hrun
    obtain ⟨rfl, rfl⟩ := Prod.mk.inj (Except.ok.inj hrun)
    obtain ⟨hstats, hop⟩ := lruHit_stats hhit
    simp only [hop, incIos, incHits, hstats, PolicyStats.after]
  · dsimp only at hrun
    split at hrun
    · obtain ⟨⟨s1, res1⟩, hev, hrun⟩ := bind_eq_ok.mp hrun
      obtain ⟨⟨s2, res2⟩, hins, hrun⟩ := bind_eq_ok.mp hrun
      obtain ⟨rfl, rfl⟩ := Prod.mk.inj (Except.ok.inj hrun)
      obtain ⟨hstats, hop⟩ := lruInsert_stats hins
      obtain ⟨hstats1, hop1⟩ := lruEvict_stats h hev
      simp only [hop, hop1, incIos, incMisses, hstats, hstats1, incDemotions, PolicyStats.after]
    · rw [ok_bind] at hrun
      obtain ⟨⟨s2, res2⟩, hins, hrun⟩ := bind_eq_ok.mp hrun
      obtain ⟨rfl, rfl⟩ := Prod.mk.inj (Except.ok.inj hrun)
      obtain ⟨hstats, hop⟩ := lruInsert_stats hins
      simp only [hop, incIos, incMisses, hstats, PolicyStats.after]

theorem lruMapApi_stats (h : s.Inv) (hrun : lruMapApi s o w result = .ok (s', res)) :
    s'.nucleus.stats = s.nucleus.stats.after res.op := by
  unfold lruMapApi at hrun
  dsimp only at hrun
  split at hrun
  · obtain ⟨⟨s1, res1⟩, hcommit, hrun⟩ := bind_eq_ok.mp hrun
    obtain ⟨rfl, rfl⟩ := Prod.mk.inj (Except.ok.inj hrun)
    exact (dirtyWork_stats _ o w).trans (lruTransactionCommit_stats h hcommit)
  · obtain ⟨rfl, rfl⟩ := Prod.mk.inj (Except.ok.inj hrun)
    rfl

theorem lru_counts : lruApi.Counts LruPolicy.Inv where
  map := lruMapApi_stats
  migrated := by
    intro s s' o _ hrun
    obtain ⟨⟨cn, e⟩, hmig, hrun⟩ := bind_eq_ok.mp hrun
    rw [← Except.ok.inj hrun]
    show cn.incPromotions.stats = s.nucleus.incPromotions.stats
    simp only [incPromotions, migratedCacheEntry_stats hmig]
  insert := by
    intro s s' o cb _ hrun
    obtain ⟨⟨cn, e⟩, hins, hrun⟩ := bind_eq_ok.mp hrun
    rw [← Except.ok.inj hrun]
    exact insertInCacheAt_stats hins
  remove := by
    intro s s' o cb keep h hc hrun
    have hrun : lruRemoveApi s o keep = .ok s' := hrun
    rw [lruRemoveApi, h.wf.caches_iff.mp hc] at hrun
    exact lruRemoveEntry_stats hrun

end Lru

/-! ## LFU -/

section Lfu

variable {s s' : LfuPolicy}

theorem lfuRemoveEntry_stats (hrun : lfuRemoveEntry s r = .ok s') : s'.nucleus.stats =
    if (s.nucleus.entry r).migrating then s.nucleus.stats else s.nucleus.incDemotions.stats := by
  unfold lfuRemoveEntry at hrun
  dsimp only at hrun
  split at hrun
  · next hm =>
    rw [ok_bind] at hrun
    obtain ⟨cn, hrem, hrun⟩ := bind_eq_ok.mp hrun
    rw [← Except.ok.inj hrun, if_pos hm]
    exact cacheNucleusRemove_stats hrem
  · next hm =>
    obtain ⟨heap, _, hrun⟩ := bind_eq_ok.mp hrun
    rw [ok_bind] at hrun
    obtain ⟨cn, hrem, hrun⟩ := bind_eq_ok.mp hrun
    rw [← Except.ok.inj hrun, if_neg hm]
    exact cacheNucleusRemove_stats hrem

theorem lfuEvict_stats (h : s.Inv) (hrun : lfuEvict s result = .ok (s', res)) :
    s'.nucleus.stats = s.nucleus.incDemotions.stats ∧ res.op = .replace := by
  obtain ⟨v, hmin, hrun⟩ := bind_eq_ok.mp hrun
  obtain ⟨s1, hrem, hrun⟩ := bind_eq_ok.mp hrun
  obtain ⟨rfl, rfl⟩ := Prod.mk.inj (Except.ok.inj hrun)
  have hpos : s.heap.size > 0 := by
    rw [gt_iff_lt, Nat.pos_iff_ne_zero]
    intro hz
    rw [heapMin, if_pos hz] at hmin
    cases hmin
  obtain ⟨x, hx, hmem⟩ := h.placed.min hpos
  rw [hx] at hmin
  obtain rfl := Except.ok.inj hmin
  have hstats := lfuRemoveEntry_stats hrem
  rw [((h.mem_heap x).mp hmem).2] at hstats
  exact ⟨hstats, rfl⟩

theorem lfuHit_stats (hrun : lfuHit s o result = .ok (s', res)) :
    s'.nucleus.stats = s.nucleus.stats ∧ res.op = .hit := by
  obtain ⟨e, _, hrun⟩ := bind_eq_ok.mp hrun
  obtain ⟨cb, _, hrun⟩ := bind_eq_ok.mp hrun
  obtain ⟨s1, hheap, hrun⟩ := bind_eq_ok.mp hrun
  obtain ⟨rfl, rfl⟩ := Prod.mk.inj (Except.ok.inj hrun)
  refine ⟨?_, rfl⟩
  unfold lfuHeapify at hheap
  split at hheap
  · rw [← Except.ok.inj hheap]
    rfl
  · obtain ⟨heap, _, hheap⟩ := bind_eq_ok.mp hheap
    rw [← Except.ok.inj hheap]
    rfl

theorem lfuInsert_stats (hrun : lfuInsert s o result = .ok (s', res)) :
    s'.nucleus.stats = s.nucleus.stats ∧ res.op = result.op := by
  obtain ⟨⟨cn, e, res1⟩, hins, hrun⟩ := bind_eq_ok.mp hrun
  obtain ⟨cn1, hmig, hrun⟩ := bind_eq_ok.mp hrun
  obtain ⟨rfl, rfl⟩ := Prod.mk.inj (Except.ok.inj hrun)
  have hstats : cn.stats = s.nucleus.stats := insertInCache_stats hins
  exact ⟨(migratingCacheEntry_stats hmig).trans hstats, insertInCache_op hins⟩

theorem lfuTransactionCommit_stats {lt : LfuTransaction} (h : s.Inv)
    (hlt : lt.hit = true → lt.evict = false)
    (hrun : lfuTransactionCommit s lt result = .ok (s', res)) :
    s'.nucleus.incIos.stats = s.nucleus.stats.after res.op := by
  unfold lfuTransactionCommit at hrun
  dsimp only at hrun
  split at hrun
  · next hev =>
    have hhit : lt.hit = false := by
      cases hx : lt.hit with
      | false => rfl
      | true => rw [hlt hx] at hev; cases hev
    obtain ⟨⟨s1, res1⟩, hev, hrun⟩ := bind_eq_ok.mp hrun
    rw [hhit] at hrun
    obtain ⟨⟨s2, res2⟩, hins, hrun⟩ := bind_eq_ok.mp hrun
    obtain ⟨rfl, rfl⟩ := Prod.mk.inj (Except.ok.inj hrun)
    obtain ⟨hstats, hop⟩ := lfuInsert_stats hins
    obtain ⟨hstats1, hop1⟩ := lfuEvict_stats h hev
    simp only [hop, hop1, incIos, incMisses, hstats, hstats1, incDemotions, PolicyStats.after]
  · rw [ok_bind] at hrun
    dsimp only at hrun
    split at hrun
    · obtain ⟨⟨s2, res2⟩, hhit, hrun⟩ := bind_eq_ok.mp hrun
      obtain ⟨rfl, rfl⟩ := Prod.mk.inj (Except.ok.inj hrun)
      obtain ⟨hstats, hop⟩ := lfuHit_stats hhit
      simp only [hop, incIos, incHits, hstats, PolicyStats.after]
    · obtain ⟨⟨s2, res2⟩, hins, hrun⟩ := bind_eq_ok.mp hrun
      obtain ⟨rfl, rfl⟩ := Prod.mk.inj (Except.ok.inj hrun)
      obtain ⟨hstats, hop⟩ := lfuInsert_stats hins
      simp only [hop, incIos, incMisses, hstats, PolicyStats.after]

/-- A hit evicts nothing. -/
theorem lfuTransactionSet_hit (s : LfuPolicy) (o : Oblock) :
    (lfuTransactionSet s (lfuTransactionInit o)).hit = true →
      (lfuTransactionSet s (lfuTransactionInit o)).evict = false := by
  intro hhit
  unfold lfuTransactionSet at hhit ⊢
  split
  · rfl
  · next hno =>
    rw [if_neg hno] at hhit
    split at hhit
    · cases hhit
    · cases hhit

theorem lfuMapApi_stats (h : s.Inv) (hrun : lfuMapApi s o w result = .ok (s', res)) :
    s'.nucleus.stats = s.nucleus.stats.after res.op := by
  unfold lfuMapApi at hrun
  dsimp only at hrun
  split at hrun
  · obtain ⟨⟨s1, res1⟩, hcommit, hrun⟩ := bind_eq_ok.mp hrun
    obtain ⟨rfl, rfl⟩ := Prod.mk.inj (Except.ok.inj hrun)
    exact (dirtyWork_stats _ o w).trans
      (lfuTransactionCommit_stats h (lfuTransactionSet_hit s o) hcommit)
  · obtain ⟨rfl, rfl⟩ := Prod.mk.inj (Except.ok.inj hrun)
    rfl

theorem lfu_counts (lt : LfuTransaction) (n : Nat) :
    (lfuApi lt).Counts (LfuPolicy.Sized n) where
  map := fun h => lfuMapApi_stats h.inv
  migrated := by
    intro s s' o _ hrun
    obtain ⟨⟨cn, e⟩, hmig, hrun⟩ := bind_eq_ok.mp hrun
    obtain ⟨heap, _, hrun⟩ := bind_eq_ok.mp hrun
    rw [← Except.ok.inj hrun]
    show cn.incPromotions.stats = s.nucleus.incPromotions.stats
    simp only [incPromotions, migratedCacheEntry_stats hmig]
  insert := by
    intro s s' o cb _ hrun
    obtain ⟨⟨cn, e⟩, hins, hrun⟩ := bind_eq_ok.mp hrun
    obtain ⟨heap, _, hrun⟩ := bind_eq_ok.mp hrun
    rw [← Except.ok.inj hrun]
    show cn.stats = s.nucleus.stats
    exact insertInCacheAt_stats hins
  remove := by
    intro s s' o cb keep h hc hrun
    have hrun : lfuRemoveApi s o keep = .ok s' := hrun
    rw [lfuRemoveApi, h.inv.wf.caches_iff.mp hc] at hrun
    exact lfuRemoveEntry_stats hrun

end Lfu

/-! ## ARC -/

section Arc

open ArcPolicy

variable {s s' : ArcPolicy} {list : ArcList} {at' : ArcTransaction}

/-- A ghost that is freed is no demotion. -/
theorem arcRemoveEntry_stats (hrun : arcRemoveEntry s r = .ok s') : s'.nucleus.stats =
    if (s.nucleus.entry r).migrating ∨ r.pool = .metadata then s.nucleus.stats
    else s.nucleus.incDemotions.stats := by
  unfold arcRemoveEntry at hrun
  dsimp only at hrun
  split at hrun
  · cases hrun
  · obtain ⟨cn, hrem, hrun⟩ := bind_eq_ok.mp hrun
    rw [← Except.ok.inj hrun]
    refine (cacheNucleusRemove_stats hrem).trans ?_
    by_cases hm : (s.nucleus.entry r).migrating = true
    · simp [setLength, setLoc, hm]
    · cases hp : r.pool with
      | cache => simp [setLength, setLoc, unqueue, hm, hp, inCache]
      | metadata => simp [setLength, setLoc, unqueue, hm, hp, inCache]

/-- Only what leaves a list of cached blocks is a demotion. -/
theorem arcEvict_stats (h : s.Inv) (hrun : arcEvict s list result = .ok (s', res)) :
    s'.nucleus.stats = (if list.pool = .metadata then s.nucleus.stats
      else s.nucleus.incDemotions.stats) ∧ res.op = result.op := by
  obtain ⟨⟨v, q⟩, hpop, hrun⟩ := bind_eq_ok.mp hrun
  obtain ⟨s1, hrem, hrun⟩ := bind_eq_ok.mp hrun
  obtain ⟨rfl, rfl⟩ := Prod.mk.inj (Except.ok.inj hrun)
  have hmem : v ∈ s.arcQ list := by
    cases hq : s.arcQ list with
    | nil => rw [hq] at hpop; cases hpop
    | cons x q' =>
      rw [hq, queuePop_cons] at hpop
      obtain ⟨rfl, _⟩ := Prod.mk.inj (Except.ok.inj hpop)
      exact List.mem_cons_self
  have hset := ((h.queued.mem list v).mp hmem).2.1
  have hstats := arcRemoveEntry_stats hrem
  dsimp only at hstats
  rw [hset, h.pool_of_mem hmem] at hstats
  refine ⟨hstats.trans ?_, rfl⟩
  simp only [Bool.false_eq_true, false_or]

theorem arcGhost_stats (hrun : arcGhost s o list = .ok s') :
    s'.nucleus.stats = s.nucleus.stats := by
  obtain ⟨⟨cn, e⟩, hins, hrun⟩ := bind_eq_ok.mp hrun
  have hins : allocPoolEntry s.nucleus .metadata o = .ok (cn, e) := hins
  rw [← Except.ok.inj hrun]
  simp only [arcSetForList_null, push]
  exact allocPoolEntry_stats hins

theorem arcArrive_stats (hrun : arcArrive s o list result = .ok (s', res)) :
    s'.nucleus.stats = s.nucleus.stats ∧ res.op = result.op := by
  obtain ⟨⟨cn, e, res1⟩, hins, hrun⟩ := bind_eq_ok.mp hrun
  obtain ⟨cn1, hmig, hrun⟩ := bind_eq_ok.mp hrun
  obtain ⟨rfl, rfl⟩ := Prod.mk.inj (Except.ok.inj hrun)
  simp only [arcSetForList_null] at hmig
  exact ⟨(migratingCacheEntry_stats hmig).trans (insertInCache_stats hins), insertInCache_op hins⟩

theorem arcTouch_stats (hrun : arcTouch s r list result = .ok (s', res)) :
    s'.nucleus.stats = s.nucleus.stats ∧ res.op = result.op := by
  have hsame : (arcSetForList s r list).nucleus = s.nucleus := by
    unfold arcSetForList
    split
    · rfl
    · rfl
  obtain ⟨cb, _, hrun⟩ := bind_eq_ok.mp hrun
  dsimp only at hrun
  split at hrun
  · obtain ⟨rfl, rfl⟩ := Prod.mk.inj (Except.ok.inj hrun)
    exact ⟨congrArg CacheNucleus.stats hsame, rfl⟩
  · obtain ⟨rfl, rfl⟩ := Prod.mk.inj (Except.ok.inj hrun)
    exact ⟨congrArg CacheNucleus.stats hsame, rfl⟩

theorem arcMetaEvict_stats (h : s.Inv) (hl : list = .null ∨ list.pool = .metadata)
    (hrun : arcMetaEvict s list result = .ok s') : s'.nucleus.stats = s.nucleus.stats := by
  unfold arcMetaEvict at hrun
  split at hrun
  · next hne =>
    obtain ⟨⟨s1, res1⟩, hev, hrun⟩ := bind_eq_ok.mp hrun
    obtain rfl := Except.ok.inj hrun
    have hstats := (arcEvict_stats h hev).1
    rwa [if_pos (hl.resolve_left hne)] at hstats
  · rw [Except.ok.inj hrun]

theorem arcMakeRoom_stats (h : s.Inv)
    (hce : at'.cacheEvict = .null ∨ at'.cacheEvict = .t1 ∨ at'.cacheEvict = .t2)
    (hrun : arcMakeRoom s at' result = .ok (s', res)) :
    s'.nucleus.stats = (if at'.cacheEvict = .null then s.nucleus.stats
      else s.nucleus.incDemotions.stats) ∧ res.op = result.op := by
  have hpool : at'.cacheEvict.pool ≠ .metadata := by
    rcases hce with hx | hx | hx
    all_goals rw [hx]; decide
  unfold arcMakeRoom at hrun
  split at hrun
  · next hne =>
    obtain ⟨⟨s1, res1⟩, hev, hrun⟩ := bind_eq_ok.mp hrun
    obtain ⟨hstats, hop⟩ := arcEvict_stats h hev
    rw [if_neg hpool] at hstats
    rw [if_neg hne]
    dsimp only at hrun
    split at hrun
    · obtain ⟨s2, hghost, hrun⟩ := bind_eq_ok.mp hrun
      obtain ⟨rfl, rfl⟩ := Prod.mk.inj (Except.ok.inj hrun)
      exact ⟨(arcGhost_stats hghost).trans hstats, hop⟩
    · obtain ⟨rfl, rfl⟩ := Prod.mk.inj (Except.ok.inj hrun)
      exact ⟨hstats, hop⟩
  · next hnull =>
    obtain ⟨rfl, rfl⟩ := Prod.mk.inj (Except.ok.inj hrun)
    rw [if_pos (not_not.mp hnull)]
    exact ⟨rfl, rfl⟩

theorem arcTransactionCommit_miss_stats (h : s.Inv) (hpl : s.Planned o at')
    (hrun : arcTransactionCommit s at' result = .ok (s', res)) :
    s'.nucleus.incIos.stats = s.nucleus.stats.after res.op := by
  rw [arcTransactionCommit_miss hpl] at hrun
  have h0 := h.aim at'.p
  obtain ⟨s1, hforget, hrun⟩ := bind_eq_ok.mp hrun
  obtain ⟨s2, hmeta, hrun⟩ := bind_eq_ok.mp hrun
  obtain ⟨⟨s3, res3⟩, hroom, hrun⟩ := bind_eq_ok.mp hrun
  have h1 : s1.Inv := by
    obtain ⟨x, hx, hs⟩ := arcForget_spec h0 o
    obtain rfl := Except.ok.inj (hforget.symm.trans hx)
    exact hs.inv h0
  have hl : at'.metaEvict = .null ∨ at'.metaEvict.pool = .metadata :=
    hpl.metaEvict.imp_right And.left
  have h2 : s2.Inv := by
    by_cases hne : at'.metaEvict ≠ .null → s1.arcQ at'.metaEvict ≠ []
    · obtain ⟨x, hx, hs⟩ := arcMetaEvict_spec h1 at'.metaEvict _ hne
      obtain rfl := Except.ok.inj (hmeta.symm.trans hx)
      exact hs.inv h1
    · obtain ⟨hne, hq⟩ := Classical.not_imp.mp hne
      rw [arcMetaEvict_nil hne (not_not.mp hq)] at hmeta
      cases hmeta
  have e1 : s1.nucleus.stats = s.nucleus.incMisses.stats := by
    unfold arcForget at hforget
    have hlook : hashLookup (s.aim at'.p).nucleus o = hashLookup s.nucleus o := rfl
    rw [hlook] at hforget
    cases hx : hashLookup s.nucleus o with
    | none =>
      rw [hx] at hforget
      rw [← Except.ok.inj hforget]
      rfl
    | some r =>
      rw [hx] at hforget
      have hstats := arcRemoveEntry_stats hforget
      rwa [if_pos (Or.inr (hpl.uncached r hx))] at hstats
  have e2 := arcMetaEvict_stats h1 hl hmeta
  obtain ⟨e3, hop3⟩ := arcMakeRoom_stats h2 hpl.cacheEvict hroom
  obtain ⟨e4, hop4⟩ := arcArrive_stats hrun
  rw [hop4, hop3]
  by_cases hc : at'.cacheEvict = .null
  · rw [if_pos hc] at e3
    simp only [hc, if_true, incIos, e4, e3, e2, e1, incMisses, PolicyStats.after]
  · rw [if_neg hc] at e3
    simp only [hc, if_false, incIos, e4, e3, incDemotions, e2, e1, incMisses, PolicyStats.after]

theorem arcMapApi_stats (h : s.Inv) (hrun : arcMapApi s o w result = .ok (s', res)) :
    s'.nucleus.stats = s.nucleus.stats.after res.op := by
  obtain ⟨at', hset, hst⟩ := arcTransactionSet_staged h o
  rw [arcMapApi, hset, ok_bind] at hrun
  split at hrun
  · obtain ⟨⟨s1, res1⟩, hcommit, hrun⟩ := bind_eq_ok.mp hrun
    obtain ⟨rfl, rfl⟩ := Prod.mk.inj (Except.ok.inj hrun)
    refine (dirtyWork_stats _ o w).trans ?_
    rcases hst.hit_or_planned h with ⟨r, hl, hp, rfl⟩ | hpl
    · have hloc := h.loc_of_cached (h.wf.hashLookup_eq_some.mp hl).1 hp
      rw [arcTransactionCommit_touch hl hloc] at hcommit
      obtain ⟨hstats, hop⟩ := arcTouch_stats hcommit
      simp only [hop, incIos, hstats, counted, incHits, PolicyStats.after]
    · exact arcTransactionCommit_miss_stats h hpl hcommit
  · obtain ⟨rfl, rfl⟩ := Prod.mk.inj (Except.ok.inj hrun)
    rfl

/-- The history of a removed block is no demotion. -/
theorem arcRemoveApi_stats {cb : Cblock} {keep : Bool} (h : s.Inv) (hc : s.nucleus.Caches o cb)
    (hrun : arcRemoveApi s o keep = .ok s') : s'.nucleus.stats =
      if (s.nucleus.entry ⟨.cache, cb⟩).migrating then s.nucleus.stats
      else s.nucleus.incDemotions.stats := by
  obtain ⟨s1, hrem, hs⟩ := arcRemoveEntry_spec h hc.1
  have hstats := arcRemoveEntry_stats hrem
  simp only [reduceCtorEq, or_false] at hstats
  rw [← hstats]
  simp only [arcRemoveApi, h.wf.caches_iff.mp hc, deref_some, ok_bind, hrem] at hrun
  split at hrun
  · split at hrun
    · obtain ⟨⟨s2, res2⟩, hev, hrun⟩ := bind_eq_ok.mp hrun
      have hev := (arcEvict_stats hs.inv hev).1
      have hpool : (if s.loc ⟨.cache, cb⟩ = .t1 then ArcList.b1 else .b2).pool = .metadata := by
        split
        · rfl
        · rfl
      rw [if_pos hpool] at hev
      exact (arcGhost_stats hrun).trans hev
    · exact arcGhost_stats hrun
  · rw [← Except.ok.inj hrun]

theorem arc_counts : arcApi.Counts ArcPolicy.Inv where
  map := arcMapApi_stats
  migrated := by
    intro s s' o _ hrun
    have hrun : arcMigratedApi s o = .ok s' := hrun
    unfold arcMigratedApi at hrun
    cases hl : hashLookup s.nucleus o with
    | none => rw [hl] at hrun; cases hrun
    | some e =>
      rw [hl] at hrun
      obtain ⟨_, _, hrun⟩ := bind_eq_ok.mp hrun
      obtain ⟨⟨cn, ae⟩, hmig, hrun⟩ := bind_eq_ok.mp hrun
      obtain ⟨_, _, hrun⟩ := bind_eq_ok.mp hrun
      rw [← Except.ok.inj hrun]
      show cn.incPromotions.stats = s.nucleus.incPromotions.stats
      simp only [incPromotions, migratedCacheEntry_stats hmig]
  insert := by
    intro s s' o cb _ hrun
    obtain ⟨⟨cn, e⟩, hins, hrun⟩ := bind_eq_ok.mp hrun
    rw [← Except.ok.inj hrun]
    simp only [arcSetForList_null, push]
    exact insertInCacheAt_stats hins
  remove := arcRemoveApi_stats

end Arc

/-! ## LARC -/

section Larc

open LarcPolicy

variable {s s' : LarcPolicy} {g : Nat}

theorem larcRemoveEntry_stats (hrun : larcRemoveEntry s r = .ok s') : s'.nucleus.stats =
    if (s.nucleus.entry r).migrating ∨ r.pool = .metadata then s.nucleus.stats
    else s.nucleus.incDemotions.stats := by
  obtain ⟨cn, hrem, hrun⟩ := bind_eq_ok.mp hrun
  rw [← Except.ok.inj hrun]
  refine (cacheNucleusRemove_stats hrem).trans ?_
  by_cases hm : (s.nucleus.entry r).migrating = true
  · simp [hm]
  · cases hp : r.pool with
    | cache => simp [hm, hp, inCache]
    | metadata => simp [hm, hp, inCache]

/-- The victim is settled. -/
theorem larcEvict_stats (h : s.Inv) (hrun : larcEvict s s.larcQ result = .ok (s', res)) :
    s'.nucleus.stats = s.nucleus.incDemotions.stats := by
  obtain ⟨v, hpeek, hrun⟩ := bind_eq_ok.mp hrun
  obtain ⟨s1, hrem, hrun⟩ := bind_eq_ok.mp hrun
  obtain ⟨rfl, rfl⟩ := Prod.mk.inj (Except.ok.inj hrun)
  have hmem : v ∈ s.queue .cache := by
    cases hq : s.larcQ with
    | nil => rw [hq] at hpeek; cases hpeek
    | cons x q =>
      rw [hq, queuePeek_cons] at hpeek
      obtain rfl := Except.ok.inj hpeek
      exact (show s.queue .cache = x :: q from hq) ▸ List.mem_cons_self
  obtain ⟨_, hset, hpool⟩ := (h.queued.mem .cache v).mp hmem
  have hstats := larcRemoveEntry_stats hrem
  rw [hset, hpool] at hstats
  exact hstats

/-- Trimming the ghosts is no demotion. -/
theorem larcTrim_stats {q : Queue} (hq : ∀ x ∈ q, x.pool = .metadata)
    (hrun : larcEvict s q result = .ok (s', res)) : s'.nucleus.stats = s.nucleus.stats := by
  obtain ⟨v, hpeek, hrun⟩ := bind_eq_ok.mp hrun
  obtain ⟨s1, hrem, hrun⟩ := bind_eq_ok.mp hrun
  obtain ⟨rfl, rfl⟩ := Prod.mk.inj (Except.ok.inj hrun)
  have hmem : v ∈ q := by
    cases q with
    | nil => cases hpeek
    | cons x q =>
      rw [queuePeek_cons] at hpeek
      obtain rfl := Except.ok.inj hpeek
      exact List.mem_cons_self
  have hstats := larcRemoveEntry_stats hrem
  rwa [if_pos (Or.inr (hq v hmem))] at hstats

def larcMakeRoom (larc : LarcPolicy) (evict : Bool) (result : CacheNucleusResult) :
    Exec (LarcPolicy × CacheNucleusResult) :=
  if evict then do
    let (larc, result) ← larcEvict larc larc.larcQ { result with op := .new }
    return (larc, { result with op := .replace })
  else .ok (larc, { result with op := .new })

def larcForget (larc : LarcPolicy) (o : Oblock) (ghost : Bool) : Exec LarcPolicy :=
  if ghost then do
    let le ← deref (hashLookup larc.nucleus o)
    larcRemoveEntry larc le
  else .ok larc

def larcArrive (larc : LarcPolicy) (o : Oblock) (result : CacheNucleusResult) :
    Exec (LarcPolicy × CacheNucleusResult) := do
  let (nucleus, le, result) ← insertInCache larc.nucleus o result
  let nucleus ← migratingCacheEntry nucleus le
  let larc := { larc with nucleus := nucleus.incMisses }
  if (larc.nucleus.entry le).migrating then return (larc, result)
  else return ({ larc with larcQ := queuePush larc.larcQ le }, result)

/-- The commit of a request that enters the cache. -/
theorem larcTransactionCommit_enter (s : LarcPolicy) (o : Oblock) (g : Nat) (evict ghost : Bool)
    (result : CacheNucleusResult) :
    larcTransactionCommit s { larcTransactionInit s o with
        gSize := g, cEvict := evict, gHit := ghost, dest := .q } result = (do
      let (larc, result) ← larcMakeRoom (s.aim g) evict result
      let larc ← larcForget larc o ghost
      larcArrive larc o result) := by
  cases evict <;> cases ghost <;>
    simp [larcTransactionCommit, larcTransactionInit, larcMakeRoom, larcForget, larcArrive, aim]

theorem larcForget_stats {ghost : Bool} (hun : ∀ r ∈ hashLookup s.nucleus o, r.pool = .metadata)
    (hrun : larcForget s o ghost = .ok s') : s'.nucleus.stats = s.nucleus.stats := by
  unfold larcForget at hrun
  split at hrun
  · obtain ⟨x, hx, hrun⟩ := bind_eq_ok.mp hrun
    cases hl : hashLookup s.nucleus o with
    | none => rw [hl] at hx; cases hx
    | some r =>
      rw [hl] at hx
      obtain rfl := Except.ok.inj hx
      have hstats := larcRemoveEntry_stats hrun
      rwa [if_pos (Or.inr (hun r hl))] at hstats
  · rw [Except.ok.inj hrun]

theorem larcArrive_stats (hrun : larcArrive s o result = .ok (s', res)) :
    s'.nucleus.stats = s.nucleus.incMisses.stats ∧ res.op = result.op := by
  obtain ⟨⟨cn, e, res1⟩, hins, hrun⟩ := bind_eq_ok.mp hrun
  obtain ⟨cn1, hmig, hrun⟩ := bind_eq_ok.mp hrun
  have hstats : cn1.incMisses.stats = s.nucleus.incMisses.stats := by
    simp only [incMisses, migratingCacheEntry_stats hmig, insertInCache_stats hins]
  dsimp only at hrun
  split at hrun
  · obtain ⟨rfl, rfl⟩ := Prod.mk.inj (Except.ok.inj hrun)
    exact ⟨hstats, insertInCache_op hins⟩
  · obtain ⟨rfl, rfl⟩ := Prod.mk.inj (Except.ok.inj hrun)
    exact ⟨hstats, insertInCache_op hins⟩

/-- Making room demotes the victim and leaves the ghosts. -/
theorem larcMakeRoom_stats {evict : Bool} (h : s.Inv)
    (hun : ∀ r ∈ hashLookup s.nucleus o, r.pool = .metadata)
    (hrun : larcMakeRoom s evict result = .ok (s', res)) :
    s'.nucleus.stats = (if evict then s.nucleus.incDemotions.stats else s.nucleus.stats) ∧
      res.op = (if evict then .replace else .new) ∧
      ∀ r ∈ hashLookup s'.nucleus o, r.pool = .metadata := by
  cases evict with
  | false =>
    obtain ⟨rfl, rfl⟩ := Prod.mk.inj (Except.ok.inj hrun)
    exact ⟨rfl, rfl, hun⟩
  | true =>
    obtain ⟨⟨s1, res1⟩, hev, hrun⟩ := bind_eq_ok.mp hrun
    obtain ⟨rfl, rfl⟩ := Prod.mk.inj (Except.ok.inj hrun)
    refine ⟨larcEvict_stats h hev, rfl, ?_⟩
    cases hq : s.larcQ with
    | nil =>
      rw [hq] at hev
      cases hev
    | cons v q =>
      obtain ⟨x, hx, hs⟩ := larcEvict_spec h (p := .cache) hq { result with op := .new }
      obtain ⟨rfl, _⟩ := Prod.mk.inj (Except.ok.inj (hev.symm.trans hx))
      intro r hr
      have hlook := hs.rewrites.hashLookup h.wf o
      rw [if_neg (by simp [freedEntry])] at hlook
      split at hlook
      · rw [hlook] at hr
        cases hr
      · rw [hlook] at hr
        exact hun r hr

theorem larcTransactionCommit_enter_stats {evict ghost : Bool} (h : s.Inv)
    (hun : ∀ r ∈ hashLookup s.nucleus o, r.pool = .metadata)
    (hrun : larcTransactionCommit s { larcTransactionInit s o with
        gSize := g, cEvict := evict, gHit := ghost, dest := .q } result = .ok (s', res)) :
    s'.nucleus.incIos.stats = s.nucleus.stats.after res.op := by
  rw [larcTransactionCommit_enter] at hrun
  obtain ⟨⟨s1, res1⟩, hroom, hrun⟩ := bind_eq_ok.mp hrun
  obtain ⟨s2, hforget, hrun⟩ := bind_eq_ok.mp hrun
  obtain ⟨e1, hop1, hun1⟩ := larcMakeRoom_stats (h.aim g) hun hroom
  have e2 := larcForget_stats hun1 hforget
  obtain ⟨e3, hop3⟩ := larcArrive_stats hrun
  rw [hop3, hop1]
  cases evict with
  | false => simp only [incIos, e3, incMisses, e2, e1, Bool.false_eq_true, if_false,
      PolicyStats.after, aim]
  | true => simp only [incIos, e3, incMisses, e2, e1, if_true, incDemotions, PolicyStats.after, aim]

/-- The commit of a hit. -/
theorem larcTransactionCommit_hit_stats
    (hrun : larcTransactionCommit s { larcTransactionInit s o with
        cHit := true, gSize := g, dest := .q } result = .ok (s', res)) :
    s'.nucleus.incIos.stats = s.nucleus.stats.after res.op := by
  simp only [larcTransactionCommit, larcTransactionInit, Bool.false_eq_true, if_false, if_true,
    ok_bind] at hrun
  obtain ⟨le, _, hrun⟩ := bind_eq_ok.mp hrun
  obtain ⟨cb, _, hrun⟩ := bind_eq_ok.mp hrun
  obtain ⟨rfl, rfl⟩ := Prod.mk.inj (Except.ok.inj hrun)
  split
  · rfl
  · rfl

theorem larcTransactionCommit_filter_stats {trim : Bool} (h : s.Inv)
    (hrun : larcTransactionCommit s { larcTransactionInit s o with
        gSize := g, dest := .g, gEvict := trim } result = .ok (s', res)) :
    s'.nucleus.incIos.stats = s.nucleus.stats.after res.op := by
  rw [larcTransactionCommit_filter] at hrun
  obtain ⟨⟨cn, le⟩, hins, hrun⟩ := bind_eq_ok.mp hrun
  have hins : allocPoolEntry s.nucleus .metadata o = .ok (cn, le) := hins
  have e1 := allocPoolEntry_stats hins
  have hghosts : ∀ x ∈ queuePush s.larcG le, x.pool = .metadata := by
    intro x hx
    rcases List.mem_append.mp hx with hx | hx
    · exact ((h.queued.mem .metadata x).mp hx).2.2
    · rw [List.mem_singleton.mp hx]
      exact allocPoolEntry_pool hins
  dsimp only at hrun
  split at hrun
  · obtain ⟨⟨s1, res1⟩, hev, hrun⟩ := bind_eq_ok.mp hrun
    obtain ⟨rfl, rfl⟩ := Prod.mk.inj (Except.ok.inj hrun)
    have e2 := larcTrim_stats hghosts hev
    simp only [incIos, e2, incFilters, e1, PolicyStats.after]
  · obtain ⟨rfl, rfl⟩ := Prod.mk.inj (Except.ok.inj hrun)
    simp only [incIos, incFilters, e1, PolicyStats.after]

theorem larcMapApi_stats (h : s.Inv) (hrun : larcMapApi s o w result = .ok (s', res)) :
    s'.nucleus.stats = s.nucleus.stats.after res.op := by
  obtain ⟨lt, hset, hrun⟩ := bind_eq_ok.mp hrun
  dsimp only at hrun
  split at hrun
  · obtain ⟨⟨s1, res1⟩, hcommit, hrun⟩ := bind_eq_ok.mp hrun
    obtain ⟨rfl, rfl⟩ := Prod.mk.inj (Except.ok.inj hrun)
    refine (dirtyWork_stats _ o w).trans ?_
    unfold larcTransactionSet at hset
    dsimp only at hset
    split at hset
    · obtain ⟨g, _, hset⟩ := bind_eq_ok.mp hset
      obtain rfl := Except.ok.inj hset
      exact larcTransactionCommit_hit_stats hcommit
    · next hun =>
      have hun : ∀ r ∈ hashLookup s.nucleus o, r.pool = .metadata := by
        intro r hr
        have hr : hashLookup s.nucleus o = some r := hr
        cases hp : r.pool with
        | metadata => rfl
        | cache =>
          refine absurd ?_ hun
          rw [show (larcTransactionInit s o).oblock = o from rfl, hr, inCache, Option.any_some, hp]
          rfl
      obtain ⟨g, _, hset⟩ := bind_eq_ok.mp hset
      split at hset
      · obtain rfl := Except.ok.inj hset
        exact larcTransactionCommit_enter_stats h hun hcommit
      · split at hset
        · obtain rfl := Except.ok.inj hset
          exact larcTransactionCommit_enter_stats h hun hcommit
        · obtain rfl := Except.ok.inj hset
          exact larcTransactionCommit_filter_stats h hcommit
  · obtain ⟨rfl, rfl⟩ := Prod.mk.inj (Except.ok.inj hrun)
    rfl

theorem larc_counts : larcApi.Counts LarcPolicy.Inv where
  map := larcMapApi_stats
  migrated := by
    intro s s' o _ hrun
    have hrun : larcMigratedApi s o = .ok s' := hrun
    unfold larcMigratedApi at hrun
    cases hl : hashLookup s.nucleus o with
    | none => rw [hl] at hrun; cases hrun
    | some e =>
      rw [hl] at hrun
      obtain ⟨_, _, hrun⟩ := bind_eq_ok.mp hrun
      obtain ⟨⟨cn, ae⟩, hmig, hrun⟩ := bind_eq_ok.mp hrun
      rw [← Except.ok.inj hrun]
      show cn.incPromotions.stats = s.nucleus.incPromotions.stats
      simp only [incPromotions, migratedCacheEntry_stats hmig]
  insert := by
    intro s s' o cb _ hrun
    obtain ⟨⟨cn, e⟩, hins, hrun⟩ := bind_eq_ok.mp hrun
    rw [← Except.ok.inj hrun]
    exact insertInCacheAt_stats hins
  remove := by
    intro s s' o cb keep h hc hrun
    have hrun : larcRemoveApi s o keep = .ok s' := hrun
    rw [larcRemoveApi, h.wf.caches_iff.mp hc, deref_some, ok_bind] at hrun
    have hstats := larcRemoveEntry_stats hrun
    simp only [reduceCtorEq, or_false] at hstats
    exact hstats

end Larc

/-! ## All of them -/

/-- The counters of the base policies, read as not having wrapped, balance over every run of
requests, completed migrations, preloads and removals. -/
theorem statistics_balance (c m : UInt32) (lt : LfuTransaction) :
    (∀ s0 t s, lruCreate c m = .ok s0 →
      (lruApi.system fun s => servingCalls s.nucleus).Run s0 t s →
      s.nucleus.stats.Balances t s.nucleus.settledBlocks) ∧
    (∀ s0 t s, lfuCreate c m = .ok s0 →
      ((lfuApi lt).system fun s => servingCalls s.nucleus).Run s0 t s →
      s.nucleus.stats.Balances t s.nucleus.settledBlocks) ∧
    (∀ s0 t s, arcCreate c m = .ok s0 →
      (arcApi.system fun s => servingCalls s.nucleus).Run s0 t s →
      s.nucleus.stats.Balances t s.nucleus.settledBlocks) ∧
    ∀ s0 t s, larcCreate c m = .ok s0 →
      (larcApi.system fun s => servingCalls s.nucleus).Run s0 t s →
      s.nucleus.stats.Balances t s.nucleus.settledBlocks := by
  refine ⟨?_, ?_, ?_, ?_⟩
  · intro s0 t s hinit hrun
    have h0 := (lruInit_spec hinit).1
    obtain rfl := Except.ok.inj ((lruInit_eq c).symm.trans hinit)
    exact lru_counts.balanced lru_serves h0 rfl (settledBlocks_fresh _ _ _) hrun
  · intro s0 t s hinit hrun
    obtain ⟨hinv, hslots, _⟩ := lfuInit_spec hinit
    obtain rfl := Except.ok.inj ((lfuInit_eq c).symm.trans hinit)
    exact (lfu_counts lt c.toNat).balanced (lfu_serves lt c.toNat) ⟨hinv, hslots⟩ rfl
      (settledBlocks_fresh _ _ _) hrun
  · intro s0 t s hinit hrun
    have h0 := (arcCreate_inv hinit).1
    obtain rfl := Except.ok.inj ((arcCreate_eq c m).symm.trans hinit)
    exact arc_counts.balanced arc_serves h0 rfl (settledBlocks_fresh _ _ _) hrun
  · intro s0 t s hinit hrun
    have h0 := (larcCreate_bounded hinit).inv
    obtain rfl := Except.ok.inj ((larcCreate_eq c m).symm.trans hinit)
    exact larc_counts.balanced larc_serves h0 rfl (settledBlocks_fresh _ _ _) hrun

/-- LRU of one slot: a preload, its removal, a block that comes in and settles, and one that
takes its slot. -/
theorem statistics_balance_replaced : ∃ s0 t s, lruCreate 1 0 = .ok s0 ∧
    (lruApi.system fun s => servingCalls s.nucleus).Run s0 t s ∧ t.length = 5 ∧
    s.nucleus.stats.Balances t s.nucleus.settledBlocks := by
  have hinit := lruInit_eq 1
  generalize hs0 : ({ nucleus := _, lruQ := _ } : LruPolicy) = s0 at hinit
  have hadm : (lruApi.system fun s => servingCalls s.nucleus).Admits s0
      [.insert 9 0, .remove 9 false, .map 5 true {}, .migrated 5, .map 6 false {}] := by
    subst hs0
    refine And.intro (And.intro (freshNucleus_absent _ _ _ _) (And.intro (by decide) rfl)) ?_
    refine And.intro (Exists.intro 0 (And.intro rfl rfl)) ?_
    refine And.intro trivial ?_
    exact And.intro (Exists.intro 0 (And.intro (And.intro rfl rfl) rfl))
      (And.intro trivial trivial)
  obtain ⟨s, ws, hexec, hlen⟩ : ∃ s ws, (lruApi.system fun s => servingCalls s.nucleus).exec s0
      [.insert 9 0, .remove 9 false, .map 5 true {}, .migrated 5, .map 6 false {}] =
        .ok (s, ws) ∧ ws.length = 5 := by
    subst hs0
    exact ⟨_, _, rfl, rfl⟩
  have hrun := Lib.System.Run.of_exec hadm hexec
  refine ⟨s0, _, s, hinit, hrun, ?_, (statistics_balance 1 0 (lfuTransactionInit 0)).1 s0 _ s
    hinit hrun⟩
  rw [List.length_zip, hlen]
  rfl

end Fomo
