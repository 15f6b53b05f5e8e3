import Fomo.DmcachePolicy.Locates
import Fomo.Algs.ServingContract

/-!
# The base policies under dmcache_base

LRU, LFU, ARC and LARC keep their invariants under marks, renamings and the removal of any
known block, and they answer every request for a cached block.
-/
namespace Fomo

variable {cn cn' : CacheNucleus} {o a b : Oblock} {cb : Cblock} {r : EntryRef}

/-! ## What the policies share -/

theorem CacheNucleus.Wf.withMarks (h : cn.Wf) (dirty : EntryRef → Bool) (wb : WritebackTracker) :
    (cn.withMarks dirty wb).Wf where
  pools := fun p =>
    ⟨(h.pools p).nr_lt, (h.pools p).free_nodup, (h.pools p).mem_free,
      (h.pools p).lt_of_allocated, (h.pools p).migrating_nodup, (h.pools p).mem_migrating,
      (h.pools p).allocated_of_migrating, (h.pools p).nr_allocated, (h.pools p).nr_migrating⟩
  start := h.start
  ht_nodup := h.ht_nodup
  mem_ht := h.mem_ht
  inj := h.inj

/-- A completion that returned was one of a migrating block. -/
theorem CacheNucleus.Wf.mayMigrate (h : cn.Wf) {x : CacheNucleus × EntryRef}
    (hrun : Fomo.migratedCacheEntry cn (Fomo.hashLookup cn o) = .ok x) : cn.MayMigrate o := by
  cases hl : Fomo.hashLookup cn o with
  | none =>
    rw [hl] at hrun
    cases hrun
  | some r =>
    rw [hl] at hrun
    obtain ⟨_, hp, hrun⟩ := bind_eq_ok.mp hrun
    obtain ⟨ep, hmig, _⟩ := bind_eq_ok.mp hrun
    obtain ⟨_, _, hmig⟩ := bind_eq_ok.mp hmig
    obtain ⟨_, _, hmig⟩ := bind_eq_ok.mp hmig
    obtain ⟨_, hm, _⟩ := bind_eq_ok.mp hmig
    obtain ⟨p, i⟩ := r
    obtain rfl : p = .cache := logAssert_eq_ok.mp hp
    have hm := logAssert_eq_ok.mp hm
    exact ⟨i, h.caches_iff.mpr hl, hm⟩

/-- A policy whose entries lie in the pools of its own nucleus, and what it keeps beyond the
requests. -/
structure Policy.Holds {σ : Type} (P : Policy σ) (I : σ → Prop) : Prop where
  entryAt : ∀ s, P.entryAt s = (P.nucleus s).entry
  owner : P.owner = P.nucleus
  cacheLookup : ∀ s, P.cacheLookup s = defaultCacheLookup (P.nucleus s)
  nucleus_setTime : ∀ s time, P.nucleus (P.setTime s time) = { P.nucleus s with time := time }
  setTime : ∀ {s} time, I s → I (P.setTime s time)
  marks : ∀ {s} dirty wb, I s → I (P.setOwner s ((P.nucleus s).withMarks dirty wb))
  migrates : ∀ {s s' o}, I s → P.migrated s o = .ok s' → (P.nucleus s).MayMigrate o
  remove : ∀ {s s' o}, I s → P.remove s o false = .ok s' → I s' ∧ (P.nucleus s').Absent o
  remap : ∀ {s s' a b}, I s → (P.nucleus s).Absent b → P.remap s a b = .ok s' → I s'

theorem Policy.Serves.locates {σ : Type} {P : Policy σ} {I : σ → Prop} (h : P.Serves I)
    (hh : P.Holds I) : P.Locates I false where
  entryAt := fun s => by rw [hh.owner, hh.entryAt]
  owner_setTime := fun s time => by rw [hh.owner, hh.nucleus_setTime]
  lookup := by
    intro s o e hi
    rw [hh.owner, hh.cacheLookup]
    exact (h.wf hi).defaultCacheLookup_eq_some
  infer := by
    intro s o cb hi hc
    rw [hh.owner] at hc
    exact inferPoolCblock_of_lt ((h.wf hi).start .cache) rfl ((h.wf hi).lt_of_allocated hc.1)
  setTime := hh.setTime
  marks := by
    intro s dirty wb hi
    rw [hh.owner]
    exact hh.marks dirty wb hi
  map := fun hi hmap => (h.map hi hmap).2
  hits := by
    intro s s' o cb result res hi hc hmap
    rw [hh.owner] at hc ⊢
    have heff := (h.map hi hmap).1
    have hop := heff.hit_iff.mpr ⟨cb, hc⟩
    refine ⟨hop, ?_, heff.cached (by rw [hop]; decide)⟩
    cases heff with
    | hit _ hc' hs he => exact hc'.unique (h.wf hi) hc
    | new hx => exact absurd (hop.symm.trans hx) (by decide)
    | replace hx => exact absurd (hop.symm.trans hx) (by decide)
    | pass hx =>
      rcases hx with hx | hx
      · exact absurd (hop.symm.trans hx) (by decide)
      · exact absurd (hop.symm.trans hx) (by decide)
  migrated := by
    intro s s' o hi hrun
    obtain ⟨cb, hc, hm⟩ := hh.migrates hi hrun
    exact (h.migrated hi hc hm hrun).1
  insert := by
    intro s s' o cb hi hmay hrun
    rw [hh.owner] at hmay
    exact (h.insert hi hmay hrun).1
  remove := fun hi hrun => (hh.remove hi hrun).1
  force := by
    intro s s1 s2 a b hi hrem hremap
    obtain ⟨hi1, habs⟩ := hh.remove hi hrem
    exact hh.remap hi1 habs hremap

/-! ## LRU -/

namespace LruPolicy

/-- LRU with `c` slots. -/
structure Sized (c : Nat) (s : LruPolicy) : Prop where
  inv : s.Inv
  cacheEntries : (s.nucleus.pool .cache).nrEntries = c

theorem Sized.step {s s' : LruPolicy} {c : Nat} {e : Entry} {free : List Nat} {q : Queue}
    (h : s.Sized c) (hs : s.Step r e free q s') : s'.Sized c :=
  ⟨hs.inv, (hs.rewrites.nrEntries _).trans h.cacheEntries⟩

end LruPolicy

theorem lru_serves_sized (c : Nat) : lruApi.Serves (LruPolicy.Sized c) where
  wf := fun h => h.inv.wf
  map := by
    intro s s' o w result res h hmap
    refine ⟨(lru_serves.map h.inv hmap).1, ?_⟩
    have hcase := lruMapApi_case h.inv o w result
    rw [show lruMapApi s o w result = _ from hmap] at hcase
    cases hcase with
    | hit hl hs => exact h.step hs
    | new habs hf hs => exact h.step hs
    | replace habs hf hq hs => exact h.step hs
    | fail habs hf hq => exact h
  migrated := by
    intro s s' o cb h hc hm hrun
    obtain ⟨r, _, hs⟩ := lruMigratedApi_step h.inv hrun
    exact ⟨h.step hs, (lru_serves.migrated h.inv hc hm hrun).2⟩
  insert := by
    intro s s' o cb h hmay hrun
    obtain ⟨s1, hrun1, hs⟩ := lruInsertApi_spec h.inv hmay.2.1 hmay.2.2 hmay.1
    obtain rfl := Except.ok.inj (hrun.symm.trans hrun1)
    exact ⟨h.step hs, (lru_serves.insert h.inv hmay hrun).2⟩
  remove := by
    intro s s' o cb keep h hc hrun
    obtain ⟨s1, hrun1, hs⟩ := lruRemoveApi_spec h.inv (h.inv.wf.caches_iff.mp hc) keep
    obtain rfl := Except.ok.inj (hrun.symm.trans hrun1)
    exact ⟨h.step hs, (lru_serves.remove h.inv hc hrun).2⟩

theorem lru_locates (c : Nat) : lruApi.Locates (LruPolicy.Sized c) false := by
  refine (lru_serves_sized c).locates ⟨fun _ => rfl, rfl, fun _ => rfl, fun _ _ => rfl,
    fun time h => ⟨lru_sound.setTime time h.inv, h.cacheEntries⟩, fun dirty wb h => ?_,
    fun h hrun => ?_, fun h hrun => ?_, fun h habs hrun => ?_⟩
  · exact ⟨⟨h.inv.wf.withMarks dirty wb, h.inv.meta_empty, h.inv.queue_nodup, h.inv.mem_queue⟩,
      h.cacheEntries⟩
  · obtain ⟨x, hmig, _⟩ := bind_eq_ok.mp hrun
    exact h.inv.wf.mayMigrate hmig
  · rename_i s s' o
    have hrun : lruRemoveApi s o false = .ok s' := hrun
    cases hl : hashLookup s.nucleus o with
    | none =>
      rw [lruRemoveApi, hl] at hrun
      cases hrun
    | some r =>
      obtain ⟨s1, hrun1, hs⟩ := lruRemoveApi_spec h.inv hl false
      obtain rfl := Except.ok.inj (hrun1.symm.trans hrun)
      exact ⟨h.step hs, h.inv.wf.absent_of_freed hl hs.rewrites rfl⟩
  · obtain ⟨cn, hcn, _⟩ := bind_eq_ok.mp hrun
    obtain ⟨r, hl, _⟩ := h.inv.wf.remapped habs hcn
    obtain ⟨s1, hrun1, hs⟩ := lruRemap_spec h.inv hl habs
    obtain rfl := Except.ok.inj (hrun1.symm.trans hrun)
    exact h.step hs

theorem lru_answers (c : Nat) : lruApi.Answers (LruPolicy.Sized c) :=
  fun result h hcached => lru_sound.map_cached false result h.inv hcached

/-! ## LFU -/

theorem lfu_locates (lt : LfuTransaction) (c : Nat) :
    (lfuApi lt).Locates (LfuPolicy.Sized c) false := by
  refine (lfu_serves lt c).locates ⟨fun _ => rfl, rfl, fun _ => rfl, fun _ _ => rfl,
    fun time h => ⟨lfuSetTime_inv h.inv lt time, h.cacheEntries⟩, fun dirty wb h => ?_,
    fun h hrun => ?_, fun h hrun => ?_, fun h habs hrun => ?_⟩
  · exact ⟨⟨h.inv.wf.withMarks dirty wb, h.inv.meta_empty, h.inv.placed, h.inv.capacity,
      h.inv.mem_heap⟩, h.cacheEntries⟩
  · obtain ⟨x, hmig, _⟩ := bind_eq_ok.mp hrun
    exact h.inv.wf.mayMigrate hmig
  · obtain ⟨r, hl, _⟩ := bind_eq_ok.mp hrun
    have hl := deref_eq_ok.mp hl
    rcases lfuRemoveApi_spec h.inv hl false with ⟨herr, _⟩ | ⟨s1, hrun1, hs⟩
    · exact nomatch herr.symm.trans hrun
    · obtain rfl := Except.ok.inj (hrun1.symm.trans hrun)
      exact ⟨h.step hs, h.inv.wf.absent_of_freed hl hs.rewrites rfl⟩
  · rename_i s s' a b
    obtain ⟨cn, hcn, hrun⟩ := bind_eq_ok.mp hrun
    rw [← Except.ok.inj hrun]
    obtain ⟨r, _, hrw⟩ := h.inv.wf.remapped habs hcn
    exact ⟨h.inv.rewrites hrw h.inv.placed rfl (h.inv.mem_heap r) fun _ _ => Iff.rfl,
      (hrw.nrEntries _).trans h.cacheEntries⟩

/-- Over fewer than `2 ^ 31` slots no request for a cached block runs in circles. -/
theorem lfu_answers (lt : LfuTransaction) {c : Nat} (hc : c < 2 ^ 31) :
    (lfuApi lt).Answers (LfuPolicy.Sized c) :=
  fun result h hcached => (lfu_sound lt hc).map_cached false result h hcached

/-! ## ARC -/

namespace ArcPolicy

/-- ARC with `c` slots. -/
structure Sized (c : Nat) (s : ArcPolicy) : Prop where
  inv : s.Inv
  cacheSize : s.nucleus.cacheSize = c
  cacheEntries : (s.nucleus.pool .cache).nrEntries = c

variable {s s' : ArcPolicy} {c : Nat}

theorem Sized.sizes (h : s.Sized c) (hinv : s'.Inv) (hs : SameSizes s s') : s'.Sized c :=
  ⟨hinv, hs.cacheSize.trans h.cacheSize, (hs.nrEntries _).trans h.cacheEntries⟩

theorem Sized.step {e : Entry} {list : ArcList} {free : List Nat} {q : ArcList → Queue}
    (h : s.Sized c) (hs : s.Step r e list free q s') : s'.Sized c := h.sizes hs.inv hs.sizes

theorem Sized.remove (h : s.Sized c) {keep : Bool} (hl : hashLookup s.nucleus o = some r)
    (hp : r.pool = .cache) (hrun : arcRemoveApi s o keep = .ok s') : s'.Sized c := by
  have hcase := arcRemoveApi_case h.inv hl hp keep
  rw [hrun] at hcase
  cases hcase with
  | plain hs => exact h.step hs
  | room hs hf ghost => exact h.sizes (ghost.inv hs.inv) (hs.sizes.trans ghost.sizes)
  | evict hs hf hq hg evict ghost =>
    exact h.sizes (ghost.inv evict.inv) (hs.sizes.trans (evict.sizes.trans ghost.sizes))

end ArcPolicy

theorem arc_serves_sized (c : Nat) : arcApi.Serves (ArcPolicy.Sized c) where
  wf := fun h => h.inv.wf
  map := by
    intro s s' o w result res h hmap
    refine ⟨(arc_serves.map h.inv hmap).1, ?_⟩
    have hcase := arcMapApi_case h.inv o w result
    rw [show arcMapApi s o w result = _ from hmap] at hcase
    cases hcase with
    | hit hl hp hs => exact h.step hs
    | miss hst hpl hne hres hmiss =>
      have hs := hmiss.sizes
      exact ⟨hmiss.inv, hs.cacheSize.trans h.cacheSize, (hs.nrEntries _).trans h.cacheEntries⟩
    | refused hst hpl hc hq => exact h
  migrated := by
    intro s s' o cb h hc hm hrun
    obtain ⟨r, _, hs⟩ := arcMigratedApi_step h.inv hrun
    exact ⟨h.step hs, (arc_serves.migrated h.inv hc hm hrun).2⟩
  insert := by
    intro s s' o cb h hmay hrun
    obtain ⟨s1, hrun1, hs⟩ := arcInsertApi_spec h.inv hmay.2.1 hmay.2.2 hmay.1
    obtain rfl := Except.ok.inj (hrun.symm.trans hrun1)
    exact ⟨h.step hs, (arc_serves.insert h.inv hmay hrun).2⟩
  remove := fun h hc hrun =>
    ⟨h.remove (h.inv.wf.caches_iff.mp hc) rfl hrun, (arc_serves.remove h.inv hc hrun).2⟩

theorem arc_locates (c : Nat) : arcApi.Locates (ArcPolicy.Sized c) false := by
  refine (arc_serves_sized c).locates ⟨fun _ => rfl, rfl, fun _ => rfl, fun _ _ => rfl,
    fun time h => ⟨arc_sound.setTime time h.inv, h.cacheSize, h.cacheEntries⟩,
    fun dirty wb h => ?_, fun h hrun => ?_, fun h hrun => ?_, fun h habs hrun => ?_⟩
  · exact ⟨⟨h.inv.wf.withMarks dirty wb, ⟨h.inv.queued.nodup, h.inv.queued.mem⟩, h.inv.home,
      h.inv.settled, h.inv.length⟩, h.cacheSize, h.cacheEntries⟩
  · rename_i s s' o
    have hrun : arcMigratedApi s o = .ok s' := hrun
    cases hl : hashLookup s.nucleus o with
    | none =>
      rw [arcMigratedApi, hl] at hrun
      cases hrun
    | some r =>
      rw [arcMigratedApi, hl] at hrun
      obtain ⟨_, _, hrun⟩ := bind_eq_ok.mp hrun
      obtain ⟨x, hmig, _⟩ := bind_eq_ok.mp hrun
      exact h.inv.wf.mayMigrate (hl ▸ hmig)
  · rename_i s s' o
    obtain ⟨r, hl, _⟩ := bind_eq_ok.mp hrun
    have hl := deref_eq_ok.mp hl
    obtain ⟨s1, hrun1, hs⟩ := arcRemoveEntry_spec h.inv (h.inv.wf.hashLookup_eq_some.mp hl).1
    have hrun' : arcApi.remove s o false = .ok s1 := by
      show arcRemoveApi s o false = _
      simp [arcRemoveApi, hl, hrun1]
    obtain rfl := Except.ok.inj (hrun'.symm.trans hrun)
    exact ⟨h.step hs, h.inv.wf.absent_of_freed hl hs.rewrites rfl⟩
  · obtain ⟨cn, hcn, _⟩ := bind_eq_ok.mp hrun
    obtain ⟨r, hl, _⟩ := h.inv.wf.remapped habs hcn
    obtain ⟨s1, hrun1, hs⟩ := arcRemap_spec h.inv hl habs
    obtain rfl := Except.ok.inj (hrun1.symm.trans hrun)
    exact h.step hs

theorem arc_answers (c : Nat) : arcApi.Answers (ArcPolicy.Sized c) :=
  fun result h hcached => arc_sound.map_cached false result h.inv hcached

/-! ## LARC -/

namespace LarcPolicy

variable {s s' : LarcPolicy} {m g : Nat}

/-- LARC with `m` metadata and as many cache entries. -/
structure Aimed (m : Nat) (s : LarcPolicy) : Prop where
  inv : s.Inv
  metaSize : s.nucleus.metaSize = m
  cacheEntries : (s.nucleus.pool .cache).nrEntries = m
  gSize_le : s.gSize ≤ 9 * m / 10

theorem Aimed.pos (h : s.Aimed m) (ha : (s.nucleus.entry ⟨.cache, cb⟩).allocated = true) :
    0 < m := by
  have hlt := h.inv.wf.lt_of_allocated ha
  rw [h.cacheEntries] at hlt
  exact Nat.zero_lt_of_lt hlt

theorem Aimed.decrease (h : s.Aimed m) (hm : 0 < m) :
    ∃ g, larcDecreaseGSize s = .ok g ∧ g ≤ 9 * m / 10 ∧ m / 10 ≤ g := by
  have hlt := (h.inv.wf.pools .cache).nr_lt
  rw [h.cacheEntries] at hlt
  exact larcDecreaseGSize_spec h.metaSize hlt hm h.gSize_le

theorem Aimed.shrinks (h : s.Aimed m) (hs : Shrinks (s.aim g) s') (hinv : s'.Inv)
    (hle : g ≤ 9 * m / 10) : s'.Aimed m :=
  ⟨hinv, hs.metaSize.trans h.metaSize, (hs.nrEntries _).trans h.cacheEntries, hs.gSize.symm ▸ hle⟩

theorem Aimed.step (h : s.Aimed m) {e : Entry} {free : List Nat} {q : PoolId → Queue}
    (hs : s.Step r e free q s') : s'.Aimed m :=
  ⟨hs.inv, hs.rewrites.metaSize.trans h.metaSize, (hs.rewrites.nrEntries _).trans h.cacheEntries,
    hs.gSize.symm ▸ h.gSize_le⟩

theorem Aimed.map (h : s.Aimed m) {w : Bool} {result res : CacheNucleusResult}
    (hc : s.MapCase o w result (.ok (s', res))) : s'.Aimed m := by
  cases hc with
  | @hit r g s' hl hp hg hs =>
    obtain ⟨p, i⟩ := r
    obtain rfl : p = .cache := hp
    obtain ⟨g', hg', hle, _⟩ := h.decrease (h.pos (h.inv.wf.hashLookup_eq_some.mp hl).1)
    obtain rfl := Except.ok.inj (hg.symm.trans hg')
    exact ⟨hs.inv, hs.rewrites.metaSize.trans h.metaSize,
      (hs.rewrites.nrEntries _).trans h.cacheEntries, hs.gSize.symm ▸ hle⟩
  | take hun hg hv evict forget free arrive hres =>
    exact h.shrinks ((evict.shrinks.trans forget.shrinks).trans (arrive.shrinks (le_refl _)))
      arrive.inv (larcIncreaseGSize_le h.metaSize hg)
  | @filter i g rest s1 s2 habs hfull hg hf ghost trim =>
    have hs := trim.shrinks
    refine ⟨(trim.inv ghost.inv).withTarget s2.gSize s2.nucleus.incIos.stats, ?_, ?_, ?_⟩
    · exact (hs.metaSize.trans ghost.rewrites.metaSize).trans h.metaSize
    · exact ((hs.nrEntries _).trans (ghost.rewrites.nrEntries _)).trans h.cacheEntries
    · show s2.gSize ≤ _
      rw [hs.gSize, ghost.gSize]
      exact larcIncreaseGSize_le h.metaSize hg
  | refused hl hp hfull hg hq => exact h

end LarcPolicy

open LarcPolicy

theorem larcCreate_aimed {c : UInt32} {s : LarcPolicy} (h : larcCreate c c = .ok s) :
    s.Aimed c.toNat := by
  have hb := larcCreate_bounded h
  refine ⟨hb.inv, hb.metaSize, ?_, hb.gSize_le⟩
  rw [larcCreate_eq] at h
  obtain rfl := Except.ok.inj h
  rfl

theorem larc_serves_aimed (m : Nat) : larcApi.Serves (LarcPolicy.Aimed m) where
  wf := fun h => h.inv.wf
  map := by
    intro s s' o w result res h hmap
    have hcase := larcMapApi_case h.inv o w result
    rw [show larcMapApi s o w result = _ from hmap] at hcase
    exact ⟨(larc_serves.map h.inv hmap).1, h.map hcase⟩
  migrated := by
    intro s s' o cb h hc hm hrun
    obtain ⟨s1, hrun1, hs⟩ := larcMigratedApi_spec h.inv (h.inv.wf.caches_iff.mp hc) rfl hm
    obtain rfl := Except.ok.inj (hrun.symm.trans hrun1)
    exact ⟨h.step hs, (larc_serves.migrated h.inv hc hm hrun).2⟩
  insert := by
    intro s s' o cb h hmay hrun
    obtain ⟨s1, hrun1, hs⟩ := larcInsertApi_spec h.inv hmay.2.1 hmay.2.2 hmay.1
    obtain rfl := Except.ok.inj (hrun.symm.trans hrun1)
    exact ⟨h.step hs, (larc_serves.insert h.inv hmay hrun).2⟩
  remove := by
    intro s s' o cb keep h hc hrun
    have hrun' := hrun
    obtain ⟨r, hl, hrun'⟩ := bind_eq_ok.mp hrun'
    obtain ⟨s1, hrun1, hs⟩ :=
      larcRemoveEntry_spec h.inv (h.inv.wf.hashLookup_eq_some.mp (deref_eq_ok.mp hl)).1
    obtain rfl := Except.ok.inj (hrun'.symm.trans hrun1)
    exact ⟨h.step hs, (larc_serves.remove h.inv hc hrun).2⟩

theorem larc_locates (m : Nat) : larcApi.Locates (LarcPolicy.Aimed m) false := by
  refine (larc_serves_aimed m).locates ⟨fun _ => rfl, rfl, fun _ => rfl, fun _ _ => rfl,
    fun time h => ?_, fun dirty wb h => ?_, fun h hrun => ?_, fun h hrun => ?_,
    fun h habs hrun => ?_⟩
  · exact ⟨⟨h.inv.wf.withTime time, ⟨h.inv.queued.nodup, h.inv.queued.mem⟩, h.inv.settled⟩,
      h.metaSize, h.cacheEntries, h.gSize_le⟩
  · exact ⟨⟨h.inv.wf.withMarks dirty wb, ⟨h.inv.queued.nodup, h.inv.queued.mem⟩, h.inv.settled⟩,
      h.metaSize, h.cacheEntries, h.gSize_le⟩
  · rename_i s s' o
    have hrun : larcMigratedApi s o = .ok s' := hrun
    cases hl : hashLookup s.nucleus o with
    | none =>
      rw [larcMigratedApi, hl] at hrun
      cases hrun
    | some r =>
      rw [larcMigratedApi, hl] at hrun
      obtain ⟨_, _, hrun⟩ := bind_eq_ok.mp hrun
      obtain ⟨x, hmig, _⟩ := bind_eq_ok.mp hrun
      exact h.inv.wf.mayMigrate (hl ▸ hmig)
  · obtain ⟨r, hl, hrun⟩ := bind_eq_ok.mp hrun
    have hl := deref_eq_ok.mp hl
    obtain ⟨s1, hrun1, hs⟩ := larcRemoveEntry_spec h.inv (h.inv.wf.hashLookup_eq_some.mp hl).1
    obtain rfl := Except.ok.inj (hrun1.symm.trans hrun)
    exact ⟨h.step hs, h.inv.wf.absent_of_freed hl hs.rewrites rfl⟩
  · rename_i s s' a b
    obtain ⟨cn, hcn, hrun⟩ := bind_eq_ok.mp hrun
    rw [← Except.ok.inj hrun]
    obtain ⟨r, _, hrw⟩ := h.inv.wf.remapped habs hcn
    exact h.step (@LarcPolicy.Inv.step _ { s with nucleus := cn } _ _ _ h.inv hrw
      (h.inv.queued.same hrw (g := EntryRef.pool) (fun _ _ => rfl) rfl rfl rfl) rfl
      fun hx => h.inv.settled r hx)

theorem larc_answers (m : Nat) : larcApi.Answers (LarcPolicy.Aimed m) := by
  intro s o result h hcached
  obtain ⟨cb, hc⟩ := hcached
  have hc : s.nucleus.Caches o cb := hc
  obtain ⟨g, hg, _⟩ := h.decrease (h.pos hc.1)
  obtain ⟨s', hrun, _⟩ :=
    larcMapApi_hit_spec h.inv (h.inv.wf.caches_iff.mp hc) rfl hg false result
  exact ⟨s', _, hrun⟩

end Fomo
