import Fomo.Algs.LruSteps
import Fomo.Algs.LfuWraps
import Fomo.Algs.ArcStructure
import Fomo.Algs.LarcBounds
import Fomo.Include.Contract

/-!
# The contract of a request, policy by policy

Whatever a policy does to its queues and ghosts, a request rewrites at most one slot of
the cache: that of its block, a free one, or that of the victim. In ARC and LARC the slot
of the victim is the one the new block gets because the entries freed and taken between
the two lie in the metadata pool. In LFU a request that returns does so too; over `2 ^ 31` slots
one for a cached block may not return.
-/
namespace Fomo

variable {o : Oblock} {w : Bool} {result res : CacheNucleusResult}

theorem CacheNucleus.Wf.not_cached {cn : CacheNucleus} (h : cn.Wf)
    (hun : ∀ r ∈ hashLookup cn o, r.pool = .metadata) : ¬cn.Cached o := by
  rintro ⟨cb, hc⟩
  have := hun _ (h.caches_iff.mp hc)
  cases this

/-! ## LRU and LFU -/

theorem LruPolicy.MapCase.effect {s s' : LruPolicy} (h : s.Inv)
    (hcase : s.MapCase o w result (.ok (s', res))) :
    s.nucleus.Effect o w s'.nucleus res ∧ s'.Inv := by
  cases hcase with
  | hit hl hs =>
    have hc := h.wf.caches_iff.mpr hl
    exact ⟨.hit rfl hc hs.rewrites.setsSlot ⟨hc.1, hc.2, rfl, rfl⟩, hs.inv⟩
  | new habs hf hs =>
    obtain ⟨hcb, hfree⟩ := (h.wf.mem_free (r := ⟨.cache, _⟩)).mp (hf ▸ List.mem_cons_self)
    exact ⟨.new rfl habs.not_cached hcb hfree hs.rewrites.setsSlot
      ⟨rfl, rfl, rfl, rfl⟩, hs.inv⟩
  | replace habs hf hq hs =>
    obtain ⟨ha, hm⟩ := (h.mem_queue _).mp (hq ▸ List.mem_cons_self)
    exact ⟨.replace rfl habs.not_cached ⟨ha, rfl⟩ hm rfl hs.rewrites.setsSlot
      ⟨rfl, rfl, rfl, rfl⟩, hs.inv⟩
  | fail habs hf hq => exact ⟨.pass (Or.inr rfl) habs.not_cached fun _ => rfl, h⟩

theorem LfuPolicy.MapCase.effect {s s' : LfuPolicy} (h : s.Inv)
    (hcase : s.MapCase o w result (.ok (s', res))) :
    s.nucleus.Effect o w s'.nucleus res ∧ s'.Inv := by
  cases hcase with
  | hit hl hs =>
    have hc := h.wf.caches_iff.mpr hl
    exact ⟨.hit rfl hc hs.rewrites.setsSlot ⟨hc.1, hc.2, rfl, rfl⟩, hs.inv⟩
  | new habs hf hs =>
    obtain ⟨hcb, hfree⟩ := (h.wf.mem_free (r := ⟨.cache, _⟩)).mp (hf ▸ List.mem_cons_self)
    exact ⟨.new rfl habs.not_cached hcb hfree hs.rewrites.setsSlot
      ⟨rfl, rfl, rfl, rfl⟩, hs.inv⟩
  | replace habs hf hmin hmem hs =>
    obtain ⟨ha, hm⟩ := (h.mem_heap _).mp hmem
    exact ⟨.replace rfl habs.not_cached ⟨ha, rfl⟩ hm rfl hs.rewrites.setsSlot
      ⟨rfl, rfl, rfl, rfl⟩, hs.inv⟩
  | fail habs hf hz => exact ⟨.pass (Or.inr rfl) habs.not_cached fun _ => rfl, h⟩

/-! ## ARC -/

namespace ArcPolicy

variable {s s' : ArcPolicy} {at' : ArcTransaction} {old : Oblock} {cb : Cblock}

/-- The block of a miss gets a free slot, or that of the victim. -/
theorem Missed.slot (hmiss : s.Missed o w at' old cb s') (h : s.Inv) (hpl : s.Planned o at') :
    (∃ e : Entry, e.Holds o true w ∧ s.nucleus.SetsSlot cb e s'.nucleus) ∧
      (queuePeek (s.arcQ at'.cacheEvict) = none → ∃ rest,
        (s.nucleus.pool .cache).free = cb :: rest) ∧
      ∀ v, queuePeek (s.arcQ at'.cacheEvict) = some v → v = ⟨.cache, cb⟩ := by
  obtain ⟨hm, forget, hq1, metaEvict, hq2, evict, ghost, free, arrive⟩ := hmiss
  rename_i s1 s2 s3 s4 rest
  have h0 := h.aim at'.p
  have h1 := forget.inv h0
  have h2 := metaEvict.inv h1
  obtain ⟨_, he1, hf1⟩ := forget.cache h0 hpl.uncached
  obtain ⟨_, he2, hf2⟩ := metaEvict.cache h1 (hpl.ghost_pool h)
  obtain ⟨he4, hf4⟩ := ghost.cache
  have hslot : s4.nucleus.SetsSlot cb _ s'.nucleus := arrive.rewrites.setsSlot
  have hother : ∀ b, s2.nucleus.entry ⟨.cache, b⟩ = s.nucleus.entry ⟨.cache, b⟩ := fun b =>
    (he2 b).trans (he1 b)
  have hvpool := hpl.victim_pool h
  generalize queuePeek (s.arcQ at'.cacheEvict) = x at evict hvpool
  cases evict with
  | none =>
    refine ⟨⟨_, s4.nucleus.arriving_holds ⟨.cache, cb⟩ o w, hslot.of_others fun b _ => ?_⟩,
      fun _ => ⟨rest, ?_⟩, fun v hv => nomatch hv⟩
    · exact (he4 b).trans (hother b)
    · exact (hf1.symm.trans hf2.symm).trans (hf4.symm.trans free)
  | @some v _ ha hs =>
    obtain ⟨vp, vi⟩ := v
    obtain rfl : vp = .cache := hvpool _ rfl
    -- the slot freed last is the one taken next
    obtain rfl : vi = cb := by
      have := hs.rewrites.free
      rw [← hf4, free] at this
      exact (List.cons.inj this).1.symm
    refine ⟨⟨_, s4.nucleus.arriving_holds ⟨.cache, vi⟩ o w, hslot.of_others fun b hb => ?_⟩,
      (fun hx => nomatch hx), fun v hv => ?_⟩
    · exact (he4 b).trans ((hs.rewrites.setsSlot.other b hb).trans (hother b))
    · exact (Option.some.inj hv).symm

theorem MapCase.effect (h : s.Inv) (hcase : s.MapCase o w result (.ok (s', res))) :
    s.nucleus.Effect o w s'.nucleus res ∧ s'.Inv := by
  cases hcase with
  | @hit r _ hl hp hs =>
    obtain ⟨rp, cb⟩ := r
    obtain rfl : rp = .cache := hp
    have hc := h.wf.caches_iff.mpr hl
    exact ⟨.hit rfl hc hs.rewrites.setsSlot ⟨hc.1, hc.2, rfl, rfl⟩, hs.inv⟩
  | @miss at' _ cb res hst hpl hne hres hmiss =>
    have hno := h.wf.not_cached hpl.uncached
    obtain ⟨⟨e, he, hs⟩, hnone, hsome⟩ := hmiss.slot h hpl
    have hinv : s'.Inv := by
      obtain ⟨_, _, _, _, _, _, _, _, arrive⟩ := hmiss
      exact arrive.inv
    refine ⟨?_, hinv⟩
    by_cases hc : at'.cacheEvict = .null
    · have hpeek : queuePeek (s.arcQ at'.cacheEvict) = none := by
        rw [hc, h.arcQ_null]
        rfl
      obtain ⟨rest, hf⟩ := hnone hpeek
      obtain ⟨hcb, hfree⟩ := (h.wf.mem_free (r := ⟨.cache, cb⟩)).mp (hf ▸ List.mem_cons_self)
      rw [hpeek, if_pos hc] at hres
      subst hres
      exact .new rfl hno hcb hfree hs he
    · obtain ⟨v, q, hq⟩ := List.exists_cons_of_ne_nil (hne hc)
      obtain ⟨ha, hm, _⟩ := h.head hq
      obtain rfl := hsome v (by rw [hq, queuePeek_cons])
      rw [hq, queuePeek_cons, if_neg hc] at hres
      subst hres
      exact .replace rfl hno ⟨ha, rfl⟩ hm rfl hs he
  | refused hst hpl hc hq =>
    exact ⟨.pass (Or.inr rfl) (h.wf.not_cached hpl.uncached) fun _ => rfl, h⟩

end ArcPolicy

/-! ## LARC -/

namespace LarcPolicy

variable {s s' : LarcPolicy}

theorem MapCase.effect (h : s.Inv) (hcase : s.MapCase o w result (.ok (s', res))) :
    s.nucleus.Effect o w s'.nucleus res ∧ s'.Inv := by
  cases hcase with
  | @hit r g _ hl hp hg hs =>
    obtain ⟨rp, cb⟩ := r
    obtain rfl : rp = .cache := hp
    have hc := h.wf.caches_iff.mpr hl
    have hslot : s.nucleus.SetsSlot cb _ s'.nucleus := hs.rewrites.setsSlot
    exact ⟨.hit rfl hc hslot ⟨hc.1, hc.2, rfl, rfl⟩, hs.inv⟩
  | @take victim g s1 s2 _ cb rest res hun hg hv evict forget free arrive hres =>
    have h0 := h.aim g
    have h1 := evict.inv h0
    have hno := h.wf.not_cached hun
    have hghost : ∀ r ∈ hashLookup s.nucleus o, r.pool ≠ .cache := by
      intro r hr
      rw [hun r hr]
      decide
    obtain ⟨_, hf2, he2⟩ := forget.other h1 hghost
    have hslot : s2.nucleus.SetsSlot cb _ s'.nucleus := arrive.rewrites.setsSlot
    refine ⟨?_, arrive.inv⟩
    cases evict with
    | none =>
      rcases hv with ⟨_, hroom⟩ | ⟨v, q, hx, _⟩
      · have hf : (s.nucleus.pool .cache).free = cb :: rest := hf2.symm.trans free
        obtain ⟨hcb, hfree⟩ := (h.wf.mem_free (r := ⟨.cache, cb⟩)).mp (hf ▸ List.mem_cons_self)
        subst hres
        exact .new rfl hno hcb hfree (hslot.of_others fun b _ => he2 b)
          (s2.nucleus.arriving_holds ⟨.cache, cb⟩ o w)
      · cases hx
    | @some v _ ha hs =>
      rcases hv with ⟨hx, _⟩ | ⟨v', q, hx, hfull, hq, _⟩
      · cases hx
      · obtain rfl := Option.some.inj hx
        obtain ⟨_, hm, hp⟩ := h.head (p := .cache) hq
        obtain ⟨vp, vi⟩ := v
        obtain rfl : vp = .cache := hp
        obtain rfl : vi = cb := by
          have := hs.rewrites.free
          rw [← hf2, free] at this
          exact (List.cons.inj this).1.symm
        subst hres
        refine .replace rfl hno ⟨ha, rfl⟩ hm rfl (hslot.of_others fun b hb => ?_)
          (s2.nucleus.arriving_holds ⟨.cache, vi⟩ o w)
        exact (he2 b).trans (hs.rewrites.setsSlot.other b hb)
  | @filter i g rest s1 s2 habs hfull hg hf ghost trim =>
    have hinv : s2.Inv := trim.inv ghost.inv
    refine ⟨.pass (Or.inl rfl) habs.not_cached fun b => ?_,
      hinv.withTarget s2.gSize s2.nucleus.incIos.stats⟩
    have htrim : ∀ r ∈ (if s.larcG.length + 1 > g then
        queuePeek (s.larcG ++ [⟨.metadata, i⟩]) else none), r.pool ≠ .cache := by
      intro r hr
      split at hr
      · have hmem : r ∈ s1.queue .metadata := by
          rw [ghost.queue, Function.update_self]
          exact List.mem_of_mem_head? hr
        rw [((ghost.inv.queued.mem .metadata r).mp hmem).2.2]
        decide
      · cases hr
    obtain ⟨_, _, he⟩ := trim.other ghost.inv htrim
    exact (he b).trans (ghost.rewrites.entry_of_ne (by simp))
  | @refused r g hl hp hfull hg hq =>
    refine ⟨.pass (Or.inr rfl) (h.wf.not_cached fun x hx => ?_) fun _ => rfl, h⟩
    rw [hl] at hx
    exact Option.some.inj hx ▸ hp

end LarcPolicy

/-! ## The contract in every reachable state -/

theorem lru_sound : lruApi.Sound LruPolicy.Inv where
  wf := fun h => h.wf
  map := by
    intro s s' o w result res h hmap
    have hcase := lruMapApi_case h o w result
    rw [show lruMapApi s o w result = _ from hmap] at hcase
    exact hcase.effect h
  map_cached := by
    intro s o w result h _
    have hcase := lruMapApi_case h o w result
    generalize hx : lruMapApi s o w result = x at hcase
    cases hcase
    all_goals exact ⟨_, _, hx⟩
  migrated := by
    intro s o cb h hc hm
    obtain ⟨s', hrun, hs⟩ := lruMigratedApi_spec h (h.wf.caches_iff.mp hc) hm
    exact ⟨s', _, hrun, hs.inv, hs.rewrites.setsSlot, hc.1, hc.2, rfl, rfl⟩
  insert := by
    intro s o cb h ⟨habs, hcb, hfree⟩
    obtain ⟨s', hrun, hs⟩ := lruInsertApi_spec h hcb hfree habs
    exact ⟨s', _, hrun, hs.inv, hs.rewrites.setsSlot, rfl, rfl, h.wf.not_migrating hfree, rfl⟩
  setTime := fun time h => ⟨h.wf.withTime time, h.meta_empty, h.queue_nodup, h.mem_queue⟩

theorem lfu_sound (lt : LfuTransaction) {n : Nat} (hn : n < 2 ^ 31) :
    (lfuApi lt).Sound (LfuPolicy.Sized n) where
  wf := fun h => h.inv.wf
  map := by
    intro s s' o w result res h hmap
    have hcase := lfuMapApi_case h.inv o w result
    rw [show lfuMapApi s o w result = _ from hmap] at hcase
    obtain ⟨heff, hinv⟩ := hcase.effect h.inv
    exact ⟨heff, hinv, (hcase.nrEntries .cache).trans h.cacheEntries⟩
  map_cached := fun w result h _ => lfuMapApi_returns h.inv (h.size_lt hn) _ w result
  migrated := by
    intro s o cb h hc hm
    obtain ⟨s', hrun, hs⟩ := lfuMigratedApi_spec h.inv (h.inv.wf.caches_iff.mp hc) hm
    exact ⟨s', _, hrun, h.step hs, hs.rewrites.setsSlot, hc.1, hc.2, rfl, rfl⟩
  insert := by
    intro s o cb h ⟨habs, hcb, hfree⟩
    obtain ⟨s', hrun, hs⟩ := lfuInsertApi_spec h.inv hcb hfree habs
    exact ⟨s', _, hrun, h.step hs, hs.rewrites.setsSlot, rfl, rfl,
      h.inv.wf.not_migrating hfree, rfl⟩
  setTime := fun time h => ⟨lfuSetTime_inv h.inv lt time, h.cacheEntries⟩

theorem arc_sound : arcApi.Sound ArcPolicy.Inv where
  wf := fun h => h.wf
  map := by
    intro s s' o w result res h hmap
    have hcase := arcMapApi_case h o w result
    rw [show arcMapApi s o w result = _ from hmap] at hcase
    exact hcase.effect h
  map_cached := by
    intro s o w result h ⟨cb, hc⟩
    have hl := h.wf.caches_iff.mp hc
    have hcase := arcMapApi_case h o w result
    generalize hx : arcMapApi s o w result = x at hcase
    cases hcase with
    | hit hl hp hs => exact ⟨_, _, hx⟩
    | miss hst hpl hne hres hmiss => exact ⟨_, _, hx⟩
    | refused hst hpl hc hq => exact ⟨_, _, hx⟩
    | stuck hst hpl hstuck => cases hpl.uncached _ hl
  migrated := by
    intro s o cb h hc hm
    obtain ⟨s', hrun, hs⟩ := arcMigratedApi_spec h (h.wf.caches_iff.mp hc) rfl hm
    exact ⟨s', _, hrun, hs.inv, hs.rewrites.setsSlot, hc.1, hc.2, rfl, rfl⟩
  insert := by
    intro s o cb h ⟨habs, hcb, hfree⟩
    obtain ⟨s', hrun, hs⟩ := arcInsertApi_spec h hcb hfree habs
    exact ⟨s', _, hrun, hs.inv, hs.rewrites.setsSlot, rfl, rfl, h.wf.not_migrating hfree, rfl⟩
  setTime := fun time h =>
    ⟨h.wf.withTime time, ⟨h.queued.nodup, h.queued.mem⟩, h.home, h.settled, h.length⟩

theorem larc_sound {m : Nat} (hm : 10 ≤ m) : larcApi.Sound (LarcPolicy.Bounded m) where
  wf := fun h => h.inv.wf
  map := by
    intro s s' o w result res h hmap
    have hcase := larcMapApi_case h.inv o w result
    rw [show larcMapApi s o w result = _ from hmap] at hcase
    exact ⟨(hcase.effect h.inv).1, h.map hm hcase⟩
  map_cached := by
    intro s o w result h ⟨cb, hc⟩
    obtain ⟨g, hg, _⟩ := h.decrease hm
    have hcase := larcMapApi_hit h.inv (h.inv.wf.caches_iff.mp hc) rfl hg w result
    generalize hx : larcMapApi s o w result = x at hcase
    cases hcase with
    | stuck hstuck =>
      have hl := h.inv.wf.caches_iff.mp hc
      rcases hstuck with ⟨_, hd⟩ | ⟨hun, _⟩ | hf
      · rw [hg] at hd
        cases hd
      · cases hun _ hl
      · exact absurd hf (h.free_ne_nil hm)
    | _ => exact ⟨_, _, hx⟩
  migrated := by
    intro s o cb h hc hmig
    obtain ⟨s', hrun, hs⟩ := larcMigratedApi_spec h.inv (h.inv.wf.caches_iff.mp hc) rfl hmig
    have hb := h.step hs (Function.update_of_ne (by decide) _ _)
    exact ⟨s', _, hrun, hb, hs.rewrites.setsSlot, hc.1, hc.2, rfl, rfl⟩
  insert := by
    intro s o cb h ⟨habs, hcb, hfree⟩
    obtain ⟨s', hrun, hs⟩ := larcInsertApi_spec h.inv hcb hfree habs
    have hb := h.step hs (Function.update_of_ne (by decide) _ _)
    exact ⟨s', _, hrun, hb, hs.rewrites.setsSlot, rfl, rfl, h.inv.wf.not_migrating hfree, rfl⟩
  setTime := fun time h =>
    ⟨⟨h.inv.wf.withTime time, ⟨h.inv.queued.nodup, h.inv.queued.mem⟩, h.inv.settled⟩, h.metaSize,
      h.metaEntries, h.gSize_le, h.le_gSize, h.ghosts⟩

/-- Over `2 ^ 31` equal blocks the request for the last one does not return. -/
theorem LfuPolicy.Crowd.not_meetsContract {lt : LfuTransaction} {s : LfuPolicy}
    {g : LfuAccesses} (h : s.Crowd (fun _ => 0) (2 ^ 31)) (hc : s.Counted g) :
    ¬(lfuApi lt).MeetsContract s := by
  intro hmeets
  have hl := h.lookup hc.inv (by omega : 2 ^ 31 - 1 < 2 ^ 31)
  obtain ⟨s', res, hmap⟩ := (hmeets _ false {}).2 ⟨_, hc.inv.wf.caches_iff.mpr hl⟩
  rw [show (lfuApi lt).map s _ false {} = _ from (h.endless hc).2 false {}] at hmap
  cases hmap

/-- The base policies meet the contract after any interleaving of requests, completed
migrations, preloads and settings of the time; LFU does so exactly if it has fewer than `2 ^ 31`
slots. -/
theorem map_contract {c m : UInt32} (hm : 10 ≤ m.toNat) :
    (∀ s0 s, lruCreate c m = .ok s0 →
      (lruApi.system fun s => contractCalls s.nucleus).Reachable s0 s →
      lruApi.MeetsContract s) ∧
    (∀ lt, (∀ s0 s, lfuCreate c m = .ok s0 →
      ((lfuApi lt).system fun s => contractCalls s.nucleus).Reachable s0 s →
      (lfuApi lt).MeetsContract s) ↔ c.toNat < 2 ^ 31) ∧
    (∀ s0 s, arcCreate c m = .ok s0 →
      (arcApi.system fun s => contractCalls s.nucleus).Reachable s0 s →
      arcApi.MeetsContract s) ∧
    ∀ s0 s, larcCreate c m = .ok s0 →
      (larcApi.system fun s => contractCalls s.nucleus).Reachable s0 s →
      larcApi.MeetsContract s := by
  refine ⟨fun s0 s h0 hs => ?_, fun lt => ⟨fun hall => ?_, fun hsmall s0 s h0 hs => ?_⟩,
    fun s0 s h0 hs => ?_, fun s0 s h0 hs => ?_⟩
  · exact lru_sound.meetsContract (lru_sound.reachable (lruInit_spec h0).1 hs)
  · by_contra hbig
    obtain ⟨s0, hinit⟩ : ∃ s0, lfuCreate c m = .ok s0 := ⟨_, lfuInit_eq c⟩
    obtain ⟨s, g, hs, hcrowd, hcount⟩ :=
      LfuPolicy.Crowd.reachable lt hinit (n := 2 ^ 31) (not_lt.mp hbig)
    exact hcrowd.not_meetsContract hcount (hall s0 s hinit hs)
  · obtain ⟨hinv, hslots, _⟩ := lfuInit_spec h0
    exact (lfu_sound lt hsmall).meetsContract
      ((lfu_sound lt hsmall).reachable ⟨hinv, hslots⟩ hs)
  · exact arc_sound.meetsContract (arc_sound.reachable (arcCreate_inv h0).1 hs)
  · exact (larc_sound hm).meetsContract ((larc_sound hm).reachable (larcCreate_bounded h0) hs)

/-- A block is admitted by LRU and settles; the next request for it hits. -/
theorem map_contract_hit : ∃ s0 s, lruCreate 2 10 = .ok s0 ∧
    (lruApi.system fun s => contractCalls s.nucleus).Reachable s0 s ∧
    s.nucleus.Cached 5 ∧ lruApi.MeetsContract s := by
  have hinit : lruCreate 2 10 = _ := lruInit_eq 2
  generalize hs0 : ({ nucleus := _, lruQ := _ } : LruPolicy) = s0 at hinit
  have hadm : (lruApi.system fun s => contractCalls s.nucleus).Admits s0
      [.map 5 true {}, .migrated 5] := by
    subst hs0
    exact And.intro trivial (And.intro (Exists.intro 1 (And.intro (And.intro rfl rfl) rfl)) trivial)
  obtain ⟨s, ws, hexec, hc⟩ : ∃ s ws, (lruApi.system fun s => contractCalls s.nucleus).exec s0
      [.map 5 true {}, .migrated 5] = .ok (s, ws) ∧ s.nucleus.Caches 5 1 := by
    subst hs0
    exact ⟨_, _, rfl, rfl, rfl⟩
  have hrun := (Lib.System.Run.of_exec hadm hexec).reachable
  exact ⟨s0, s, hinit, hrun, ⟨1, hc⟩, (map_contract (m := 10) (by decide)).1 s0 s hinit hrun⟩

/-- `2 ^ 31` blocks are preloaded into LFU, and the last one is requested: `heapify` takes its entry
from the last place to the root and down again, for good. -/
theorem map_contract_endless : ∃ s0 s, lfuCreate 0x80000000 0x80000000 = .ok s0 ∧
    ((lfuApi (lfuTransactionInit 0)).system fun s => contractCalls s.nucleus).Reachable s0 s ∧
    s.nucleus.Cached 0x7fffffff ∧
    (∀ fuel, heapMoveDown (lfuCompare (s.touch ⟨.cache, 2 ^ 31 - 1⟩ 2).nucleus) fuel
      (s.touch ⟨.cache, 2 ^ 31 - 1⟩ 2).heap (2 ^ 31 - 1) = .error .outOfFuel) ∧
    (∀ w result, lfuMapApi s 0x7fffffff w result = .error .outOfFuel) ∧
    ¬(lfuApi (lfuTransactionInit 0)).MeetsContract s := by
  obtain ⟨s0, hinit⟩ : ∃ s0, lfuCreate 0x80000000 0x80000000 = .ok s0 :=
    ⟨_, lfuInit_eq 0x80000000⟩
  obtain ⟨s, g, hs, h, hc⟩ := LfuPolicy.Crowd.reachable (lfuTransactionInit 0) hinit
    (n := 2 ^ 31) (by decide)
  have hl := h.lookup hc.inv (by omega : 2 ^ 31 - 1 < 2 ^ 31)
  obtain ⟨hend, hmap⟩ := h.endless hc
  exact ⟨s0, s, hinit, hs, ⟨_, hc.inv.wf.caches_iff.mpr hl⟩, hend, hmap, h.not_meetsContract hc⟩

end Fomo
