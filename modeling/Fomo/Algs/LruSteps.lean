import Fomo.Algs.LruPolicy
import Fomo.Include.NucleusSpec

/-!
# The calls of LRU

The hash table chains the cached blocks, the queue lists the settled ones. One lemma
per call says which entry it rewrites and how the queue changes; a request hits,
takes a free slot, takes the slot of the head of the queue, or fails.
-/
namespace Fomo

namespace LruPolicy

/-- The queue holds exactly the settled entries. -/
structure Inv (s : LruPolicy) : Prop where
  wf : s.nucleus.Wf
  meta_empty : (s.nucleus.pool .metadata).nrEntries = 0
  queue_nodup : s.lruQ.Nodup
  mem_queue : ∀ r, r ∈ s.lruQ ↔
    (s.nucleus.entry r).allocated = true ∧ (s.nucleus.entry r).migrating = false

variable {s s' : LruPolicy} {r : EntryRef} {o : Oblock}

theorem Inv.pool_eq (h : s.Inv) (ha : (s.nucleus.entry r).allocated = true) : r.pool = .cache := by
  have hlt := h.wf.lt_of_allocated ha
  cases hp : r.pool with
  | cache => rfl
  | metadata => rw [hp, h.meta_empty] at hlt; omega

theorem Inv.lookup (h : s.Inv) (hl : hashLookup s.nucleus o = some r) : r.pool = .cache ∧
    (s.nucleus.entry r).allocated = true ∧ (s.nucleus.entry r).oblock = o := by
  obtain ⟨ha, ho⟩ := h.wf.hashLookup_eq_some.mp hl
  exact ⟨h.pool_eq ha, ha, ho⟩

theorem Inv.nodup_touch (h : s.Inv) (r : EntryRef) : (s.lruQ.erase r ++ [r]).Nodup := by
  refine List.nodup_append.mpr ⟨h.queue_nodup.erase r, List.nodup_singleton r, ?_⟩
  intro x hx y hy
  rw [List.mem_singleton] at hy
  rintro rfl
  exact h.queue_nodup.not_mem_erase (hy ▸ hx)

/-- The invariant after a rewrite, from where the queue then lists the entry. -/
theorem Inv.rewrites (h : s.Inv) {e : Entry} {free : List Nat}
    (hrw : s.nucleus.Rewrites r e free s'.nucleus) (hnd : s'.lruQ.Nodup)
    (hself : r ∈ s'.lruQ ↔ e.allocated = true ∧ e.migrating = false)
    (hother : ∀ x, x ≠ r → (x ∈ s'.lruQ ↔ x ∈ s.lruQ)) : s'.Inv where
  wf := hrw.wf
  meta_empty := by rw [hrw.nrEntries]; exact h.meta_empty
  queue_nodup := hnd
  mem_queue := fun x => by
    by_cases hx : x = r
    · subst hx; rw [hrw.entry_self]; exact hself
    · rw [hrw.entry_of_ne hx, hother x hx]; exact h.mem_queue x

/-- `s'` is `s` with the entry `r` rewritten to `e`, the free list of the cache and the
queue replaced. -/
structure Step (s : LruPolicy) (r : EntryRef) (e : Entry) (free : List Nat) (queue : Queue)
    (s' : LruPolicy) : Prop where
  inv : s'.Inv
  rewrites : s.nucleus.Rewrites r e free s'.nucleus
  queue : s'.lruQ = queue

/-- The four ways a request for `o` ends. -/
inductive MapCase (s : LruPolicy) (o : Oblock) (w : Bool) (result : CacheNucleusResult) :
    Exec (LruPolicy × CacheNucleusResult) → Prop
  | hit {cb} {s' : LruPolicy} (hl : hashLookup s.nucleus o = some ⟨.cache, cb⟩)
      (hs : s.Step ⟨.cache, cb⟩
        { s.nucleus.entry ⟨.cache, cb⟩ with dirty := (s.nucleus.entry ⟨.cache, cb⟩).dirty || w }
        (s.nucleus.pool .cache).free
        (if (s.nucleus.entry ⟨.cache, cb⟩).migrating then s.lruQ
          else s.lruQ.erase ⟨.cache, cb⟩ ++ [⟨.cache, cb⟩]) s') :
      MapCase s o w result (.ok (s', { result with op := .hit, cblock := cb }))
  | new {cb rest} {s' : LruPolicy} (habs : s.nucleus.Absent o)
      (hf : (s.nucleus.pool .cache).free = cb :: rest)
      (hs : s.Step ⟨.cache, cb⟩
        { s.nucleus.arrivingEntry ⟨.cache, cb⟩ o with dirty := w } rest s.lruQ s') :
      MapCase s o w result (.ok (s', { result with op := .new, cblock := cb }))
  | replace {cb q} {s' : LruPolicy} (habs : s.nucleus.Absent o)
      (hf : (s.nucleus.pool .cache).free = []) (hq : s.lruQ = ⟨.cache, cb⟩ :: q)
      (hs : s.Step ⟨.cache, cb⟩
        { s.nucleus.arrivingEntry ⟨.cache, cb⟩ o with dirty := w } [] q s') :
      MapCase s o w result (.ok (s', { result with
        op := .replace
        oldOblock := (s.nucleus.entry ⟨.cache, cb⟩).oblock
        dirtyEviction := (s.nucleus.entry ⟨.cache, cb⟩).dirty
        cblock := cb }))
  | fail (habs : s.nucleus.Absent o) (hf : (s.nucleus.pool .cache).free = [])
      (hq : s.lruQ = []) :
      MapCase s o w result (.ok (s, { result with op := .fail }))

end LruPolicy

open LruPolicy

variable {s s' : LruPolicy} {r : EntryRef} {o : Oblock}

/-! ## The commit branches -/

theorem lruRemoveEntry_spec (h : s.Inv) (ha : (s.nucleus.entry r).allocated = true) :
    ∃ s', lruRemoveEntry s r = .ok s' ∧ s.Step r (s.nucleus.freedEntry r)
      (r.index :: (s.nucleus.pool .cache).free) (s.lruQ.erase r) s' := by
  -- a migrating entry is in no queue, so taking it out of the queue changes nothing
  obtain ⟨st, hrun0⟩ : ∃ st, lruRemoveEntry s r = (do
      let nucleus ← cacheNucleusRemove { s.nucleus with stats := st } r
      return { s with nucleus := nucleus, lruQ := s.lruQ.erase r }) := by
    by_cases hm : (s.nucleus.entry r).migrating = true
    · have hni : r ∉ s.lruQ := fun hmem => by
        have := ((h.mem_queue r).mp hmem).2
        simp [hm] at this
      refine ⟨s.nucleus.stats, ?_⟩
      simp only [lruRemoveEntry, hm, if_true, List.erase_of_not_mem hni]
    · refine ⟨s.nucleus.incDemotions.stats, ?_⟩
      simp only [lruRemoveEntry, hm, if_false, queueRemove_eq, Bool.false_eq_true]
      rfl
  obtain ⟨cn, hrun, hrw⟩ := (h.wf.withStats st).cacheNucleusRemove (r := r) ha
  have hrw := hrw.ofStats
  refine ⟨{ s with nucleus := cn, lruQ := s.lruQ.erase r }, by rw [hrun0, hrun]; rfl, ?_, ?_, rfl⟩
  · refine h.rewrites hrw (h.queue_nodup.erase r) ?_ fun x hx => ?_
    · simp [h.queue_nodup.mem_erase_iff, CacheNucleus.freedEntry]
    · simp [h.queue_nodup.mem_erase_iff, hx]
  · rw [← h.pool_eq ha]
    exact hrw

/-- `lru_evict` frees the slot of the head of the queue and reports what it held. -/
theorem lruEvict_spec (h : s.Inv) {q : Queue} (hq : s.lruQ = r :: q)
    (result : CacheNucleusResult) :
    ∃ s', lruEvict s result = .ok (s', { result with
        oldOblock := (s.nucleus.entry r).oblock
        dirtyEviction := (s.nucleus.entry r).dirty }) ∧
      s.Step r (s.nucleus.freedEntry r) (r.index :: (s.nucleus.pool .cache).free) q s' := by
  have hmem := (h.mem_queue r).mp (by simp [hq])
  -- the entry is unlinked by the pop; removing it from the queue again does nothing
  have hnd : (r :: q).Nodup := hq ▸ h.queue_nodup
  have hni : r ∉ q := (List.nodup_cons.mp hnd).1
  obtain ⟨s', hrun, hs⟩ := lruRemoveEntry_spec h hmem.1
  rw [hq, List.erase_cons_head] at hs
  refine ⟨s', ?_, hs⟩
  have hpop : lruRemoveEntry { s with lruQ := q } r = lruRemoveEntry s r := by
    simp [lruRemoveEntry, hmem.2, hq, List.erase_of_not_mem hni]
  simp only [lruEvict, hq, queuePop_cons, deref_some, ok_bind, hpop, hrun, pure_eq_ok]

/-- `lru_insert` takes the first free slot. -/
theorem lruInsert_spec (h : s.Inv) {cb : Cblock} {rest : List Nat}
    (hf : (s.nucleus.pool .cache).free = cb :: rest) (habs : s.nucleus.Absent o)
    (result : CacheNucleusResult) :
    ∃ s', lruInsert s o result = .ok (s', { result with cblock := cb }) ∧
      s.Step ⟨.cache, cb⟩ (s.nucleus.arrivingEntry ⟨.cache, cb⟩ o) rest s.lruQ s' := by
  obtain ⟨cn1, cn', hrun1, hrun2, hrw⟩ := h.wf.insertMigrating hf habs result
  refine ⟨{ s with nucleus := cn' }, ?_, ?_, hrw, rfl⟩
  · simp only [lruInsert, hrun1, ok_bind, hrun2, pure_eq_ok]
  · refine h.rewrites hrw h.queue_nodup ?_ fun x _ => Iff.rfl
    have hfree := h.wf.mem_free (r := ⟨.cache, cb⟩) |>.mp (by simp [hf])
    simp [h.mem_queue, hfree.2, CacheNucleus.arrivingEntry]

/-- `lru_hit` moves a settled entry to the recent end. -/
theorem lruHit_spec (h : s.Inv) {cb : Cblock} (hl : hashLookup s.nucleus o = some ⟨.cache, cb⟩)
    (result : CacheNucleusResult) :
    ∃ s', lruHit s o result = .ok (s', { result with cblock := cb }) ∧
      s.Step ⟨.cache, cb⟩ (s.nucleus.entry ⟨.cache, cb⟩) (s.nucleus.pool .cache).free
        (if (s.nucleus.entry ⟨.cache, cb⟩).migrating then s.lruQ
          else s.lruQ.erase ⟨.cache, cb⟩ ++ [⟨.cache, cb⟩]) s' := by
  obtain ⟨_, ha, _⟩ := h.lookup hl
  have hrefl := h.wf.rewrites_self ⟨.cache, cb⟩
  have hrun : lruHit s o result = .ok ({ s with
      lruQ := if (s.nucleus.entry ⟨.cache, cb⟩).migrating then s.lruQ
        else s.lruQ.erase ⟨.cache, cb⟩ ++ [⟨.cache, cb⟩] }, { result with cblock := cb }) := by
    simp only [lruHit, hl, deref_some, ok_bind, h.wf.inferCacheCblock, queueRemove_eq,
      queuePush_eq]
    split <;> rfl
  refine ⟨_, hrun, h.rewrites hrefl ?_ ?_ ?_, hrefl, rfl⟩
  all_goals split
  · exact h.queue_nodup
  · exact h.nodup_touch _
  · exact h.mem_queue _
  · next hm => simp [ha, hm]
  · exact fun x _ => Iff.rfl
  · exact fun x hx => by simp [h.queue_nodup.mem_erase_iff, hx]

/-! ## The calls -/

/-- Statistics and dirty work at the end of a request. -/
theorem LruPolicy.Step.finish {e : Entry} {free : List Nat} {q : Queue} {cb : Cblock}
    (hs : s.Step ⟨.cache, cb⟩ e free q s') (h : s.Inv) (ha : e.allocated = true)
    (ho : e.oblock = o) (w : Bool) (stats : PolicyStats) :
    s.Step ⟨.cache, cb⟩ { e with dirty := e.dirty || w } free q
      { s' with nucleus := dirtyWork { s'.nucleus with stats := stats } o w } := by
  have hrw := hs.rewrites.withStats stats
  have hl := hrw.wf.hashLookup_eq_some (o := o) |>.mpr (by rw [hrw.entry_self]; exact ⟨ha, ho⟩)
  have hd := hrw.wf.dirtyWork_cache hl rfl w
  rw [hrw.entry_self, hrw.free] at hd
  have hq : ∀ r, r ∈ q ↔
      (s'.nucleus.entry r).allocated = true ∧ (s'.nucleus.entry r).migrating = false :=
    fun r => by rw [← hs.queue]; exact hs.inv.mem_queue r
  refine ⟨h.rewrites (hrw.trans hd) ?_ ?_ fun x hx => ?_, hrw.trans hd, hs.queue⟩
  · exact hs.inv.queue_nodup
  · rw [hs.queue, hq, hs.rewrites.entry_self]
  · rw [hs.queue, hq, hs.rewrites.entry_of_ne hx, h.mem_queue]

theorem lruMapApi_case (h : s.Inv) (o : Oblock) (w : Bool) (result : CacheNucleusResult) :
    MapCase s o w result (lruMapApi s o w result) := by
  cases hl : hashLookup s.nucleus o with
  | some r =>
    obtain ⟨hp, ha, ho⟩ := h.lookup hl
    obtain ⟨rp, cb⟩ := r
    obtain rfl : rp = .cache := hp
    obtain ⟨s1, hrun, hs⟩ := lruHit_spec h hl { result with op := .hit }
    have hs2 := hs.finish h ha ho w s1.nucleus.incHits.incIos.stats
    simp only [lruMapApi, lruTransactionSet, lruTransactionInit, hl, Option.isSome_some, if_true,
      lruTransactionIsLegal, Bool.false_eq_true, if_false, lruTransactionCommit, hrun, ok_bind,
      pure_eq_ok]
    exact .hit hl hs2
  | none =>
    have habs := h.wf.hashLookup_eq_none.mp hl
    cases hf : (s.nucleus.pool .cache).free with
    | cons cb rest =>
      obtain ⟨s1, hrun, hs⟩ := lruInsert_spec h hf habs { result with op := .new }
      have hs2 := hs.finish h rfl rfl w s1.nucleus.incMisses.incIos.stats
      simp only [lruMapApi, lruTransactionSet, lruTransactionInit, hl, Option.isSome_none,
        Bool.false_eq_true, if_false, cacheIsFull, epoolEmpty, hf, List.isEmpty_cons,
        lruTransactionIsLegal, if_true, lruTransactionCommit, hrun, ok_bind, pure_eq_ok]
      exact .new habs hf hs2
    | nil =>
      cases hq : s.lruQ with
      | nil =>
        simp only [lruMapApi, lruTransactionSet, lruTransactionInit, hl, Option.isSome_none,
          Bool.false_eq_true, if_false, cacheIsFull, epoolEmpty, hf, List.isEmpty_nil, hq,
          lruTransactionIsLegal, if_true, queueLength_eq, List.length_nil, gt_iff_lt,
          lt_self_iff_false, decide_false, pure_eq_ok]
        exact .fail habs hf hq
      | cons r q =>
        have hmem := (h.mem_queue r).mp (by simp [hq])
        have hp := h.pool_eq hmem.1
        obtain ⟨rp, cb⟩ := r
        obtain rfl : rp = .cache := hp
        obtain ⟨s1, hrun1, hs1⟩ := lruEvict_spec h hq { result with op := .replace }
        rw [hf] at hs1
        have habs1 := hs1.rewrites.absent habs (by simp [CacheNucleus.freedEntry])
        obtain ⟨s2, hrun2, hs2⟩ := lruInsert_spec hs1.inv hs1.rewrites.free habs1 { result with
          op := .replace
          oldOblock := (s.nucleus.entry ⟨.cache, cb⟩).oblock
          dirtyEviction := (s.nucleus.entry ⟨.cache, cb⟩).dirty }
        have harrive : s1.nucleus.arrivingEntry ⟨.cache, cb⟩ o =
            s.nucleus.arrivingEntry ⟨.cache, cb⟩ o := by
          simp [CacheNucleus.arrivingEntry, CacheNucleus.freshEntry, hs1.rewrites.entry_self,
            CacheNucleus.freedEntry]
        rw [harrive, hs1.queue] at hs2
        have hs2' : s.Step ⟨.cache, cb⟩ (s.nucleus.arrivingEntry ⟨.cache, cb⟩ o) [] q s2 :=
          ⟨hs2.inv, hs1.rewrites.trans hs2.rewrites, hs2.queue⟩
        have hs3 := hs2'.finish h rfl rfl w s2.nucleus.incMisses.incIos.stats
        simp only [lruMapApi, lruTransactionSet, lruTransactionInit, hl, Option.isSome_none,
          Bool.false_eq_true, if_false, cacheIsFull, epoolEmpty, hf, List.isEmpty_nil, hq,
          lruTransactionIsLegal, if_true, queueLength_eq, List.length_cons, gt_iff_lt,
          Nat.zero_lt_succ, decide_true, lruTransactionCommit, hrun1, hrun2, ok_bind, pure_eq_ok]
        exact .replace habs hf hq hs3

/-- A completed migration puts the entry at the recent end. -/
theorem lruMigratedApi_spec (h : s.Inv) (hl : hashLookup s.nucleus o = some r)
    (hm : (s.nucleus.entry r).migrating = true) :
    ∃ s', lruMigratedApi s o = .ok s' ∧ s.Step r { s.nucleus.entry r with migrating := false }
      (s.nucleus.pool .cache).free (s.lruQ ++ [r]) s' := by
  obtain ⟨hp, ha, _⟩ := h.lookup hl
  obtain ⟨cn, hrun, hrw⟩ := h.wf.migratedCacheEntry hp hm
  rw [hp] at hrw
  have hrw' := hrw.withStats cn.incPromotions.stats
  have hni : r ∉ s.lruQ := fun hmem => by
    have := ((h.mem_queue r).mp hmem).2
    simp [hm] at this
  refine ⟨{ s with lruQ := s.lruQ ++ [r], nucleus := cn.incPromotions },
    by simp only [lruMigratedApi, hl, hrun, ok_bind, queuePush_eq, pure_eq_ok],
    h.rewrites hrw' ?_ ?_ fun x hx => ?_, hrw', rfl⟩
  · have := h.nodup_touch r
    rwa [List.erase_of_not_mem hni] at this
  · simp [ha]
  · simp [hx]

/-- Anything else is refused by an assertion. -/
theorem lruMigratedApi_fault (h : s.Inv)
    (hm : ∀ r, hashLookup s.nucleus o = some r → (s.nucleus.entry r).migrating = false) :
    lruMigratedApi s o = .error .assertion := by
  cases hl : hashLookup s.nucleus o with
  | none => simp [lruMigratedApi, hl, migratedCacheEntry]
  | some r =>
    obtain ⟨hp, ha, _⟩ := h.lookup hl
    obtain ⟨rp, i⟩ := r
    obtain rfl : rp = .cache := hp
    have ha' : ((s.nucleus.pool .cache).entries i).allocated = true := ha
    have hm' : ((s.nucleus.pool .cache).entries i).migrating = false := hm _ hl
    simp [lruMigratedApi, hl, migratedCacheEntry, migratedEntry, logAssert, ha', hm',
      (h.wf.pools .cache).nr_allocated_pos ha']

/-- A completed migration that returns completed one. -/
theorem lruMigratedApi_step (h : s.Inv) (hrun : lruMigratedApi s o = .ok s') :
    ∃ r, hashLookup s.nucleus o = some r ∧ s.Step r { s.nucleus.entry r with migrating := false }
      (s.nucleus.pool .cache).free (s.lruQ ++ [r]) s' := by
  by_cases hm : ∀ r, hashLookup s.nucleus o = some r → (s.nucleus.entry r).migrating = false
  · rw [lruMigratedApi_fault h hm] at hrun
    cases hrun
  · obtain ⟨r, hr⟩ := Classical.not_forall.mp hm
    obtain ⟨hl, hr⟩ := Classical.not_imp.mp hr
    obtain ⟨s1, hrun1, hs⟩ := lruMigratedApi_spec h hl (by simpa using hr)
    obtain rfl := Except.ok.inj (hrun1.symm.trans hrun)
    exact ⟨r, hl, hs⟩

theorem lruRemoveApi_spec (h : s.Inv) (hl : hashLookup s.nucleus o = some r) (keep : Bool) :
    ∃ s', lruRemoveApi s o keep = .ok s' ∧ s.Step r (s.nucleus.freedEntry r)
      (r.index :: (s.nucleus.pool .cache).free) (s.lruQ.erase r) s' := by
  simp only [lruRemoveApi, hl]
  exact lruRemoveEntry_spec h (h.lookup hl).2.1

/-- A preload takes the given slot and counts as a touch. -/
theorem lruInsertApi_spec (h : s.Inv) {cb : Cblock}
    (hcb : cb < (s.nucleus.pool .cache).nrEntries)
    (hfree : (s.nucleus.entry ⟨.cache, cb⟩).allocated = false) (habs : s.nucleus.Absent o) :
    ∃ s', lruInsertApi s o cb = .ok s' ∧
      s.Step ⟨.cache, cb⟩ (s.nucleus.freshEntry ⟨.cache, cb⟩ o)
        ((s.nucleus.pool .cache).free.erase cb) (s.lruQ ++ [⟨.cache, cb⟩]) s' := by
  obtain ⟨cn, hrun, hrw⟩ := h.wf.allocPoolEntryAt hcb hfree habs
  have hni : (⟨.cache, cb⟩ : EntryRef) ∉ s.lruQ := fun hmem => by
    have := ((h.mem_queue _).mp hmem).1
    simp [hfree] at this
  refine ⟨{ s with nucleus := cn, lruQ := s.lruQ ++ [⟨.cache, cb⟩] },
    by simp only [lruInsertApi, insertInCacheAt, hrun, ok_bind, queuePush_eq, pure_eq_ok],
    h.rewrites hrw ?_ ?_ fun x hx => ?_, hrw, rfl⟩
  · have := h.nodup_touch ⟨.cache, cb⟩
    rwa [List.erase_of_not_mem hni] at this
  · simp [CacheNucleus.freshEntry, h.wf.not_migrating hfree]
  · simp [hx]

theorem lruRemap_spec (h : s.Inv) {a b : Oblock} (hl : hashLookup s.nucleus a = some r)
    (habs : s.nucleus.Absent b) :
    ∃ s', lruApi.remap s a b = .ok s' ∧ s.Step r { s.nucleus.entry r with oblock := b }
      (s.nucleus.pool .cache).free s.lruQ s' := by
  obtain ⟨cn, hrun, hrw⟩ := h.wf.defaultRemap hl habs
  rw [(h.lookup hl).1] at hrw
  refine ⟨{ s with nucleus := cn }, by simp [lruApi, hrun],
    h.rewrites hrw h.queue_nodup ?_ fun x _ => Iff.rfl, hrw, rfl⟩
  exact h.mem_queue r

/-! ## Initialisation -/

theorem lruInit_eq (c : UInt32) : lruInit c = .ok
    { nucleus := freshNucleus c.toNat 0 fun p => if p = .cache then c.toNat else 0
      lruQ := [] } := by
  have hn : ∀ p : PoolId, (if p = .cache then c.toNat else 0) < 2 ^ 32 := fun p => by
    have := c.toNat_lt
    split <;> omega
  rw [lruInit, policyInit_eq (n := fun p => if p = .cache then c.toNat else 0) ?_ hn]
  · rfl
  · intro p
    cases p <;> rfl

theorem lruInit_spec {c : UInt32} (h : lruInit c = .ok s) : s.Inv ∧ s.lruQ = [] ∧
    (s.nucleus.pool .cache).nrEntries = c.toNat ∧ ∀ o, s.nucleus.Absent o := by
  rw [lruInit_eq] at h
  obtain rfl := Except.ok.inj h
  have hn : ∀ p : PoolId, (if p = .cache then c.toNat else 0) < 2 ^ 32 := fun p => by
    have := c.toNat_lt
    split <;> omega
  refine ⟨⟨freshNucleus_wf hn, rfl, List.nodup_nil, ?_⟩, rfl, rfl, freshNucleus_absent _ _ _⟩
  intro r
  simp [freshNucleus, CacheNucleus.entry, freshPool]

end Fomo
