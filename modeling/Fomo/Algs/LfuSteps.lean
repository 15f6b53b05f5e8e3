import Fomo.Algs.LfuPolicy
import Fomo.Include.NucleusSpec

/-!
# The calls of LFU

The hash table chains the cached blocks, the heap holds the settled ones. One lemma per
call says which entry it rewrites and which key it leaves; a request hits, takes a free
slot, takes the slot of the least item of the heap, or fails. With `2 ^ 31` items in the heap
a hit may not return, with more neither may an eviction nor a removal.
-/
namespace Fomo

namespace LfuPolicy

/-- The heap holds exactly the settled entries. -/
structure Inv (s : LfuPolicy) : Prop where
  wf : s.nucleus.Wf
  meta_empty : (s.nucleus.pool .metadata).nrEntries = 0
  placed : s.heap.Placed
  capacity : s.heap.capacity = (s.nucleus.pool .cache).nrEntries
  mem_heap : ∀ r, s.heap.Mem r ↔
    (s.nucleus.entry r).allocated = true ∧ (s.nucleus.entry r).migrating = false

variable {s s' : LfuPolicy} {r : EntryRef} {o : Oblock}

theorem Inv.pool_eq (h : s.Inv) (ha : (s.nucleus.entry r).allocated = true) : r.pool = .cache := by
  have hlt := h.wf.lt_of_allocated ha
  cases hp : r.pool with
  | cache => rfl
  | metadata => rw [hp, h.meta_empty] at hlt; omega

theorem Inv.lookup (h : s.Inv) (hl : hashLookup s.nucleus o = some r) : r.pool = .cache ∧
    (s.nucleus.entry r).allocated = true ∧ (s.nucleus.entry r).oblock = o := by
  obtain ⟨ha, ho⟩ := h.wf.hashLookup_eq_some.mp hl
  exact ⟨h.pool_eq ha, ha, ho⟩

/-- The members of the heap are as many slots of the cache. -/
theorem Inv.slots (h : s.Inv) : ∃ l : List EntryRef, l.length = s.heap.size ∧
    (∀ x ∈ l, s.heap.Mem x ∧ x.pool = .cache ∧
      x.index < (s.nucleus.pool .cache).nrEntries) ∧ (l.map EntryRef.index).Nodup := by
  obtain ⟨l, hnd, hlen, hmem⟩ := h.placed.members
  have hcache : ∀ x ∈ l, x.pool = .cache ∧ x.index < (s.nucleus.pool .cache).nrEntries := by
    intro x hx
    have ha := ((h.mem_heap x).mp (hmem x hx)).1
    have hp := h.pool_eq ha
    exact ⟨hp, hp ▸ h.wf.lt_of_allocated ha⟩
  refine ⟨l, hlen, fun x hx => ⟨hmem x hx, hcache x hx⟩, ?_⟩
  refine hnd.map_on fun x hx y hy hxy => ?_
  have hxp := (hcache x hx).1
  have hyp := (hcache y hy).1
  cases x; cases y; simp_all

theorem Inv.heap_size_le (h : s.Inv) : s.heap.size ≤ (s.nucleus.pool .cache).nrEntries := by
  obtain ⟨l, hlen, hslots, hidx⟩ := h.slots
  have hle := EntryPool.length_le_of_nodup hidx fun i hi => by
    obtain ⟨x, hx, rfl⟩ := List.mem_map.mp hi
    exact (hslots x hx).2.2
  rw [List.length_map, hlen] at hle
  exact hle

/-- There is room in the heap for an entry of the cache that is not in it. -/
theorem Inv.room (h : s.Inv) {cb : Cblock} (hcb : cb < (s.nucleus.pool .cache).nrEntries)
    (hni : ¬s.heap.Mem ⟨.cache, cb⟩) : s.heap.size < s.heap.capacity := by
  obtain ⟨l, hlen, hslots, hidx⟩ := h.slots
  have hni' : cb ∉ l.map EntryRef.index := by
    intro hm
    obtain ⟨x, hx, hxi⟩ := List.mem_map.mp hm
    obtain rfl : x = ⟨.cache, cb⟩ := by
      have hxp := (hslots x hx).2.1
      cases x; simp_all
    exact hni (hslots _ hx).1
  have hle := EntryPool.length_le_of_nodup (n := (s.nucleus.pool .cache).nrEntries)
    (List.nodup_cons.mpr ⟨hni', hidx⟩) (by
      intro i hi
      rcases List.mem_cons.mp hi with rfl | hi
      · exact hcb
      · obtain ⟨x, hx, rfl⟩ := List.mem_map.mp hi
        exact (hslots x hx).2.2)
  rw [List.length_cons, List.length_map, hlen] at hle
  rw [h.capacity]
  omega

/-- The invariant after a rewrite, from whether the heap then holds the entry. -/
theorem Inv.rewrites (h : s.Inv) {e : Entry} {free : List Nat}
    (hrw : s.nucleus.Rewrites r e free s'.nucleus) (hp : s'.heap.Placed)
    (hcap : s'.heap.capacity = s.heap.capacity)
    (hself : s'.heap.Mem r ↔ e.allocated = true ∧ e.migrating = false)
    (hother : ∀ x, x ≠ r → (s'.heap.Mem x ↔ s.heap.Mem x)) : s'.Inv where
  wf := hrw.wf
  meta_empty := by rw [hrw.nrEntries]; exact h.meta_empty
  placed := hp
  capacity := by rw [hcap, hrw.nrEntries]; exact h.capacity
  mem_heap := fun x => by
    by_cases hx : x = r
    · subst hx; rw [hrw.entry_self]; exact hself
    · rw [hrw.entry_of_ne hx, hother x hx]; exact h.mem_heap x

/-- `s'` is `s` with the entry `r` rewritten to `e`, its key and the free list of the
cache replaced. -/
structure Step (s : LfuPolicy) (r : EntryRef) (e : Entry) (free : List Nat) (key : Nat)
    (s' : LfuPolicy) : Prop where
  inv : s'.Inv
  rewrites : s.nucleus.Rewrites r e free s'.nucleus
  key : ∀ x, (s'.heap.head x).key = if x = r then key else (s.heap.head x).key

/-- Two steps on one entry are one. -/
theorem Step.trans {s'' : LfuPolicy} {e e' : Entry} {free free' : List Nat} {key key' : Nat}
    (h : s.Step r e free key s') (h' : s'.Step r e' free' key' s'') :
    s.Step r e' free' key' s'' where
  inv := h'.inv
  rewrites := h.rewrites.trans h'.rewrites
  key := fun x => by
    rw [h'.key, h.key]
    split <;> rfl

/-- The entry `r` as a request for `o` brings it in at the time of the nucleus. -/
def arriving (s : LfuPolicy) (r : EntryRef) (o : Oblock) : Entry :=
  { s.nucleus.arrivingEntry r o with time := s.nucleus.time }

/-- The four ways a request for `o` ends, and those it does not return from. -/
inductive MapCase (s : LfuPolicy) (o : Oblock) (w : Bool) (result : CacheNucleusResult) :
    Exec (LfuPolicy × CacheNucleusResult) → Prop
  | hit {cb : Cblock} {s' : LfuPolicy} (hl : hashLookup s.nucleus o = some ⟨.cache, cb⟩)
      (hs : s.Step ⟨.cache, cb⟩
        { s.nucleus.entry ⟨.cache, cb⟩ with
          time := s.nucleus.time, dirty := (s.nucleus.entry ⟨.cache, cb⟩).dirty || w }
        (s.nucleus.pool .cache).free (u32 ((s.heap.head ⟨.cache, cb⟩).key + 1)) s') :
      MapCase s o w result (.ok (s', { result with op := .hit, cblock := cb }))
  | new {cb : Cblock} {rest : List Nat} {s' : LfuPolicy} (habs : s.nucleus.Absent o)
      (hf : (s.nucleus.pool .cache).free = cb :: rest)
      (hs : s.Step ⟨.cache, cb⟩ { s.arriving ⟨.cache, cb⟩ o with dirty := w } rest 1 s') :
      MapCase s o w result (.ok (s', { result with op := .new, cblock := cb }))
  | replace {cb : Cblock} {s' : LfuPolicy} (habs : s.nucleus.Absent o)
      (hf : (s.nucleus.pool .cache).free = []) (hm : heapMin s.heap = some ⟨.cache, cb⟩)
      (hmem : s.heap.Mem ⟨.cache, cb⟩)
      (hs : s.Step ⟨.cache, cb⟩ { s.arriving ⟨.cache, cb⟩ o with dirty := w } [] 1 s') :
      MapCase s o w result (.ok (s', { result with
        op := .replace
        oldOblock := (s.nucleus.entry ⟨.cache, cb⟩).oblock
        dirtyEviction := (s.nucleus.entry ⟨.cache, cb⟩).dirty
        cblock := cb }))
  | fail (habs : s.nucleus.Absent o) (hf : (s.nucleus.pool .cache).free = [])
      (hz : s.heap.size = 0) :
      MapCase s o w result (.ok (s, { result with op := .fail }))
  | stuck (hbig : 2 ^ 31 ≤ s.heap.size) (hevict : s.nucleus.Absent o → 2 ^ 31 < s.heap.size) :
      MapCase s o w result (.error .outOfFuel)

end LfuPolicy

open LfuPolicy

variable {s s' : LfuPolicy} {r : EntryRef} {o : Oblock}

/-! ## The commit branches -/

/-- No entry is below itself. -/
theorem lfuCompare_self (cn : CacheNucleus) (head : EntryRef → HeapHead) (x : EntryRef) :
    ¬lfuCompare cn head x x < 0 := by
  simp [lfuCompare, diff32]

theorem lfuRemoveEntry_spec (h : s.Inv) (ha : (s.nucleus.entry r).allocated = true) :
    lfuRemoveEntry s r = .error .outOfFuel ∧ 2 ^ 31 < s.heap.size ∨
      ∃ s', lfuRemoveEntry s r = .ok s' ∧ s.Step r (s.nucleus.freedEntry r)
        (r.index :: (s.nucleus.pool .cache).free) (s.heap.head r).key s' := by
  -- a migrating entry is not in the heap
  have hheap : lfuRemoveEntry s r = .error .outOfFuel ∧ 2 ^ 31 < s.heap.size ∨
      ∃ st heap', lfuRemoveEntry s r = (do
        let nucleus ← cacheNucleusRemove { s.nucleus with stats := st } r
        return { nucleus := nucleus, heap := heap' }) ∧
      heap'.Placed ∧ heap'.capacity = s.heap.capacity ∧
      (∀ x, heap'.Mem x ↔ x ≠ r ∧ s.heap.Mem x) ∧
      ∀ x, (heap'.head x).key = (s.heap.head x).key := by
    by_cases hm : (s.nucleus.entry r).migrating = true
    · have hni : ¬s.heap.Mem r := fun hmem => by
        have := ((h.mem_heap r).mp hmem).2
        simp [hm] at this
      refine Or.inr ⟨s.nucleus.stats, s.heap, ?_, h.placed, rfl, fun x => ⟨?_, And.right⟩,
        fun x => rfl⟩
      · simp only [lfuRemoveEntry, hm, if_true, ok_bind]
      · intro hx
        refine ⟨?_, hx⟩
        rintro rfl
        exact hni hx
    · have hset : (s.nucleus.entry r).migrating = false := by simpa using hm
      rcases h.placed.delete (f := lfuCompare s.nucleus) ((h.mem_heap r).mpr ⟨ha, hset⟩)
        (lfuCompare_self _) with ⟨herr, hbig⟩ | ⟨heap', hrun, hp, _, hcap, hmem, hkey⟩
      · refine Or.inl ⟨?_, hbig⟩
        simp only [lfuRemoveEntry, hset, if_false, Bool.false_eq_true, herr]
        rfl
      · refine Or.inr ⟨s.nucleus.incDemotions.stats, heap', ?_, hp, hcap, hmem, hkey⟩
        simp only [lfuRemoveEntry, hset, if_false, Bool.false_eq_true, hrun, ok_bind]
        rfl
  refine hheap.imp_right ?_
  rintro ⟨st, heap', hrun0, hp, hcap, hmem, hkey⟩
  obtain ⟨cn, hrun, hrw⟩ := (h.wf.withStats st).cacheNucleusRemove (r := r) ha
  have hrw := hrw.ofStats
  have hinv : (⟨cn, heap'⟩ : LfuPolicy).Inv := by
    apply h.rewrites hrw hp hcap
    · rw [hmem]
      simp [CacheNucleus.freedEntry]
    · intro x hx
      rw [hmem]
      simp [hx]
  refine ⟨⟨cn, heap'⟩, by rw [hrun0, hrun]; rfl, hinv, ?_, fun x => ?_⟩
  · rw [← h.pool_eq ha]
    exact hrw
  · rw [hkey]
    split
    · next hx => rw [hx]
    · rfl

/-- An eviction frees the slot of the least item of the heap and reports what it held. -/
theorem lfuEvict_spec (h : s.Inv) (hm : heapMin s.heap = some r) (hmem : s.heap.Mem r)
    (result : CacheNucleusResult) :
    lfuEvict s result = .error .outOfFuel ∧ 2 ^ 31 < s.heap.size ∨
      ∃ s', lfuEvict s result = .ok (s', { result with
          op := .replace
          oldOblock := (s.nucleus.entry r).oblock
          dirtyEviction := (s.nucleus.entry r).dirty }) ∧
        s.Step r (s.nucleus.freedEntry r) (r.index :: (s.nucleus.pool .cache).free)
          (s.heap.head r).key s' := by
  rcases lfuRemoveEntry_spec h ((h.mem_heap r).mp hmem).1 with ⟨herr, hbig⟩ | ⟨s', hrun, hs⟩
  · refine Or.inl ⟨?_, hbig⟩
    simp only [lfuEvict, hm, deref_some, ok_bind, herr, error_bind]
  · refine Or.inr ⟨s', ?_, hs⟩
    simp only [lfuEvict, hm, deref_some, ok_bind, hrun, pure_eq_ok]

/-- A touch stamps the entry and sets its key. -/
theorem LfuPolicy.Inv.touch (h : s.Inv) (r : EntryRef) (key : Nat) :
    s.Step r { s.nucleus.entry r with time := s.nucleus.time } (s.nucleus.pool r.pool).free key
      (s.touch r key) := by
  obtain ⟨hp, _, hmem⟩ := h.placed.setKey r key
  have hrw := h.wf.setEntry (r := r) (e := { s.nucleus.entry r with time := s.nucleus.time })
    rfl rfl rfl
  refine ⟨h.rewrites hrw hp rfl ?_ fun x _ => hmem x, hrw, fun x => ?_⟩
  · exact (hmem r).trans (h.mem_heap r)
  · by_cases hx : x = r
    · subst hx
      simp [LfuPolicy.touch, Heap.setKey]
    · simp [LfuPolicy.touch, Heap.setKey, hx]

theorem LfuPolicy.Inv.rearrange (h : s.Inv) {heap' : Heap EntryRef}
    (hr : s.heap.Rearranges heap') : ({ s with heap := heap' } : LfuPolicy).Inv where
  wf := h.wf
  meta_empty := h.meta_empty
  placed := hr.placed
  capacity := hr.capacity.trans h.capacity
  mem_heap := fun r => (hr.mem r).trans (h.mem_heap r)

/-- Restoring the heap moves its items only. -/
theorem lfuHeapify_spec (h : s.Inv) (r : EntryRef) :
    lfuHeapify s r = .error .outOfFuel ∧ 2 ^ 31 ≤ s.heap.size ∨
      ∃ heap', lfuHeapify s r = .ok { s with heap := heap' } ∧ s.heap.Rearranges heap' := by
  by_cases hm : (s.nucleus.entry r).migrating = true
  · exact Or.inr ⟨s.heap, by rw [lfuHeapify, if_pos hm], h.placed.refl⟩
  · rcases h.placed.heapify (f := lfuCompare s.nucleus) (s.heap.head r).index with
      ⟨herr, hbig⟩ | ⟨heap', hrun, hr⟩
    · exact Or.inl ⟨by rw [lfuHeapify, if_neg hm, herr, error_bind], hbig⟩
    · exact Or.inr ⟨heap', by rw [lfuHeapify, if_neg hm, hrun, ok_bind, pure_eq_ok], hr⟩

/-- `lfuHit` stamps the entry and counts the access. -/
theorem lfuHit_spec (h : s.Inv) {cb : Cblock} (hl : hashLookup s.nucleus o = some ⟨.cache, cb⟩)
    (result : CacheNucleusResult) :
    lfuHit s o result = .error .outOfFuel ∧ 2 ^ 31 ≤ s.heap.size ∨
      ∃ s', lfuHit s o result = .ok (s', { result with op := .hit, cblock := cb }) ∧
        s.Step ⟨.cache, cb⟩ { s.nucleus.entry ⟨.cache, cb⟩ with time := s.nucleus.time }
          (s.nucleus.pool .cache).free (u32 ((s.heap.head ⟨.cache, cb⟩).key + 1)) s' := by
  have h1 := h.touch ⟨.cache, cb⟩ (u32 ((s.heap.head ⟨.cache, cb⟩).key + 1))
  rcases lfuHeapify_spec h1.inv ⟨.cache, cb⟩ with ⟨herr, hbig⟩ | ⟨heap', hrun, hr⟩
  · refine Or.inl ⟨?_, hbig⟩
    simp only [lfuHit, hl, deref_some, ok_bind, h.wf.inferCacheCblock, herr, error_bind]
  · refine Or.inr ⟨_, ?_, h1.inv.rearrange hr, h1.rewrites, fun x => (hr.key x).trans (h1.key x)⟩
    simp only [lfuHit, hl, deref_some, ok_bind, h.wf.inferCacheCblock, hrun, pure_eq_ok]

/-- `lfuInsert` takes the first free slot. -/
theorem lfuInsert_spec (h : s.Inv) {cb : Cblock} {rest : List Nat}
    (hf : (s.nucleus.pool .cache).free = cb :: rest) (habs : s.nucleus.Absent o)
    (result : CacheNucleusResult) :
    ∃ s', lfuInsert s o result = .ok (s', { result with cblock := cb }) ∧
      s.Step ⟨.cache, cb⟩ (s.arriving ⟨.cache, cb⟩ o) rest 1 s' := by
  have hfree := h.wf.mem_free (r := ⟨.cache, cb⟩) |>.mp (by simp [hf])
  have hni : ¬s.heap.Mem ⟨.cache, cb⟩ := fun hm => by
    have := ((h.mem_heap _).mp hm).1
    simp [hfree.2] at this
  obtain ⟨cn1, hrun1, hrw1⟩ := h.wf.insertInCache hf habs result
  obtain ⟨hp, _, hmem⟩ := h.placed.setKey ⟨.cache, cb⟩ 1
  let s1 := ({ s with nucleus := cn1 } : LfuPolicy).touch ⟨.cache, cb⟩ 1
  have hrw2 := hrw1.wf.setEntry (r := ⟨.cache, cb⟩)
    (e := { cn1.entry ⟨.cache, cb⟩ with time := cn1.time }) rfl rfl rfl
  have he : s1.nucleus.entry ⟨.cache, cb⟩ =
      { s.nucleus.freshEntry ⟨.cache, cb⟩ o with time := s.nucleus.time } := by
    rw [show s1.nucleus.entry ⟨.cache, cb⟩ = _ from hrw2.entry_self, hrw1.entry_self, hrw1.time]
  have hfresh : (s.nucleus.freshEntry ⟨.cache, cb⟩ o).migrating = false :=
    h.wf.not_migrating hfree.2
  obtain ⟨cn3, hrun3, hrw3⟩ := hrw2.wf.migratingCacheEntry (r := ⟨.cache, cb⟩) rfl
    (by show (s1.nucleus.entry ⟨.cache, cb⟩).allocated = true; rw [he]; rfl)
    (by show (s1.nucleus.entry ⟨.cache, cb⟩).migrating = false; rw [he]; exact hfresh)
  have hrw : s.nucleus.Rewrites ⟨.cache, cb⟩ (s.arriving ⟨.cache, cb⟩ o) rest cn3 := by
    have := hrw1.trans (hrw2.trans hrw3)
    rw [show (cn1.setEntry ⟨.cache, cb⟩ _).entry ⟨.cache, cb⟩ = _ from he, hrw2.free,
      hrw1.free] at this
    exact this
  refine ⟨{ s1 with nucleus := cn3 }, ?_, h.rewrites hrw hp rfl ?_ fun x _ => hmem x, hrw,
    fun x => ?_⟩
  · simp only [lfuInsert, hrun1, ok_bind]
    show (do let nucleus ← migratingCacheEntry s1.nucleus ⟨.cache, cb⟩; _) = _
    rw [show migratingCacheEntry s1.nucleus ⟨.cache, cb⟩ = _ from hrun3]
    rfl
  · refine iff_of_false (fun hm => hni ((hmem _).mp hm)) ?_
    simp [LfuPolicy.arriving, CacheNucleus.arrivingEntry]
  · by_cases hx : x = ⟨.cache, cb⟩
    · subst hx
      simp [s1, LfuPolicy.touch, Heap.setKey]
    · simp [s1, LfuPolicy.touch, Heap.setKey, hx]

/-! ## The calls -/

/-- Statistics and dirty work at the end of a request. -/
theorem LfuPolicy.Step.finish {e : Entry} {free : List Nat} {key : Nat} {cb : Cblock}
    (hs : s.Step ⟨.cache, cb⟩ e free key s') (h : s.Inv) (ha : e.allocated = true)
    (ho : e.oblock = o) (w : Bool) (stats : PolicyStats) :
    s.Step ⟨.cache, cb⟩ { e with dirty := e.dirty || w } free key
      { s' with nucleus := dirtyWork { s'.nucleus with stats := stats } o w } := by
  have hrw := hs.rewrites.withStats stats
  have hl := hrw.wf.hashLookup_eq_some (o := o) |>.mpr (by rw [hrw.entry_self]; exact ⟨ha, ho⟩)
  have hd := hrw.wf.dirtyWork_cache hl rfl w
  rw [hrw.entry_self, hrw.free] at hd
  have hcap : s'.heap.capacity = s.heap.capacity := by
    rw [hs.inv.capacity, h.capacity, hs.rewrites.nrEntries]
  refine ⟨h.rewrites (hrw.trans hd) hs.inv.placed hcap ?_ fun x hx => ?_, hrw.trans hd, hs.key⟩
  · rw [hs.inv.mem_heap, hs.rewrites.entry_self]
  · rw [hs.inv.mem_heap, hs.rewrites.entry_of_ne hx, h.mem_heap]

theorem lfuMapApi_case (h : s.Inv) (o : Oblock) (w : Bool) (result : CacheNucleusResult) :
    MapCase s o w result (lfuMapApi s o w result) := by
  cases hl : hashLookup s.nucleus o with
  | some r =>
    obtain ⟨hp, ha, ho⟩ := h.lookup hl
    obtain ⟨rp, cb⟩ := r
    obtain rfl : rp = .cache := hp
    rcases lfuHit_spec h hl { result with op := .new } with ⟨herr, hbig⟩ | ⟨s1, hrun, hs⟩
    · simp only [lfuMapApi, lfuTransactionSet, lfuTransactionInit, hl, Option.isSome_some,
        if_true, lfuTransactionIsLegal, Bool.false_eq_true, if_false, lfuTransactionCommit, herr,
        ok_bind, error_bind]
      exact .stuck hbig fun habs => absurd ho (habs _ ha)
    · have hs2 := hs.finish h ha ho w s1.nucleus.incHits.incIos.stats
      simp only [lfuMapApi, lfuTransactionSet, lfuTransactionInit, hl, Option.isSome_some,
        if_true, lfuTransactionIsLegal, Bool.false_eq_true, if_false, lfuTransactionCommit, hrun,
        ok_bind, pure_eq_ok]
      exact .hit hl hs2
  | none =>
    have habs := h.wf.hashLookup_eq_none.mp hl
    cases hf : (s.nucleus.pool .cache).free with
    | cons cb rest =>
      obtain ⟨s1, hrun, hs⟩ := lfuInsert_spec h hf habs { result with op := .new }
      have hs2 := hs.finish h rfl rfl w s1.nucleus.incMisses.incIos.stats
      simp only [lfuMapApi, lfuTransactionSet, lfuTransactionInit, hl, Option.isSome_none,
        Bool.false_eq_true, if_false, cacheIsFull, epoolEmpty, hf, List.isEmpty_cons,
        lfuTransactionIsLegal, if_true, lfuTransactionCommit, hrun, ok_bind, pure_eq_ok]
      exact .new habs hf hs2
    | nil =>
      by_cases hz : s.heap.size = 0
      · have hz' : ¬s.heap.size > 0 := by omega
        simp only [lfuMapApi, lfuTransactionSet, lfuTransactionInit, hl, Option.isSome_none,
          Bool.false_eq_true, if_false, cacheIsFull, epoolEmpty, hf, List.isEmpty_nil,
          lfuTransactionIsLegal, if_true, hz', decide_false, pure_eq_ok]
        exact .fail habs hf hz
      · have hpos : s.heap.size > 0 := by omega
        obtain ⟨r, hmin, hmem⟩ := h.placed.min hpos
        have hr := (h.mem_heap r).mp hmem
        have hp := h.pool_eq hr.1
        obtain ⟨rp, cb⟩ := r
        obtain rfl : rp = .cache := hp
        rcases lfuEvict_spec h hmin hmem { result with op := .new } with
          ⟨herr, hbig⟩ | ⟨s1, hrun1, hs1⟩
        · simp only [lfuMapApi, lfuTransactionSet, lfuTransactionInit, hl, Option.isSome_none,
            Bool.false_eq_true, if_false, cacheIsFull, epoolEmpty, hf, List.isEmpty_nil,
            lfuTransactionIsLegal, if_true, hpos, decide_true, lfuTransactionCommit, herr,
            error_bind]
          exact .stuck hbig.le fun _ => hbig
        rw [hf] at hs1
        have habs1 := hs1.rewrites.absent habs (by simp [CacheNucleus.freedEntry])
        obtain ⟨s2, hrun2, hs2⟩ := lfuInsert_spec hs1.inv hs1.rewrites.free habs1 { result with
          op := .replace
          oldOblock := (s.nucleus.entry ⟨.cache, cb⟩).oblock
          dirtyEviction := (s.nucleus.entry ⟨.cache, cb⟩).dirty }
        have harrive : s1.arriving ⟨.cache, cb⟩ o = s.arriving ⟨.cache, cb⟩ o := by
          simp [LfuPolicy.arriving, CacheNucleus.arrivingEntry, CacheNucleus.freshEntry,
            hs1.rewrites.entry_self, hs1.rewrites.time, CacheNucleus.freedEntry]
        rw [harrive] at hs2
        have hs3 := (hs1.trans hs2).finish h rfl rfl w s2.nucleus.incMisses.incIos.stats
        simp only [lfuMapApi, lfuTransactionSet, lfuTransactionInit, hl, Option.isSome_none,
          Bool.false_eq_true, if_false, cacheIsFull, epoolEmpty, hf, List.isEmpty_nil,
          lfuTransactionIsLegal, if_true, hpos, decide_true, lfuTransactionCommit, hrun1, hrun2,
          ok_bind, pure_eq_ok]
        exact .replace habs hf hmin hmem hs3

/-- A completed migration puts the entry in the heap under the key it had. -/
theorem lfuMigratedApi_spec (h : s.Inv) (hl : hashLookup s.nucleus o = some r)
    (hm : (s.nucleus.entry r).migrating = true) :
    ∃ s', lfuMigratedApi s o = .ok s' ∧ s.Step r { s.nucleus.entry r with migrating := false }
      (s.nucleus.pool .cache).free (s.heap.head r).key s' := by
  obtain ⟨hp, ha, _⟩ := h.lookup hl
  obtain ⟨rp, cb⟩ := r
  obtain rfl : rp = .cache := hp
  obtain ⟨cn, hrun, hrw⟩ := h.wf.migratedCacheEntry rfl hm
  have hrw' := hrw.withStats cn.incPromotions.stats
  have hni : ¬s.heap.Mem ⟨.cache, cb⟩ := fun hmem => by
    have := ((h.mem_heap _).mp hmem).2
    simp [hm] at this
  obtain ⟨heap', hrun2, hp', _, hcap, hmem, hkey⟩ := h.placed.insert (f := lfuCompare cn)
    hni (h.room (h.wf.lt_of_allocated ha) hni) (s.heap.head ⟨.cache, cb⟩).key
  refine ⟨{ nucleus := cn.incPromotions, heap := heap' },
    by simp only [lfuMigratedApi, hl, hrun, hrun2, ok_bind, pure_eq_ok],
    h.rewrites hrw' hp' hcap ?_ fun x hx => ?_, hrw', hkey⟩
  · rw [hmem]
    simp [ha]
  · rw [hmem]
    simp [hx]

theorem lfuRemoveApi_spec (h : s.Inv) (hl : hashLookup s.nucleus o = some r) (keep : Bool) :
    lfuRemoveApi s o keep = .error .outOfFuel ∧ 2 ^ 31 < s.heap.size ∨
      ∃ s', lfuRemoveApi s o keep = .ok s' ∧ s.Step r (s.nucleus.freedEntry r)
        (r.index :: (s.nucleus.pool .cache).free) (s.heap.head r).key s' := by
  simp only [lfuRemoveApi, hl, deref_some, ok_bind]
  exact lfuRemoveEntry_spec h (h.lookup hl).2.1

/-- The number of slots stays. -/
theorem LfuPolicy.MapCase.nrEntries {w : Bool} {result res : CacheNucleusResult}
    (hcase : s.MapCase o w result (.ok (s', res))) (p : PoolId) :
    (s'.nucleus.pool p).nrEntries = (s.nucleus.pool p).nrEntries := by
  cases hcase with
  | hit hl hs => exact hs.rewrites.nrEntries p
  | new habs hf hs => exact hs.rewrites.nrEntries p
  | replace habs hf hm hmem hs => exact hs.rewrites.nrEntries p
  | fail habs hf hz => rfl

/-- With fewer than `2 ^ 31` items in the heap every request returns. -/
theorem lfuMapApi_returns (h : s.Inv) (hsmall : s.heap.size < 2 ^ 31) (o : Oblock) (w : Bool)
    (result : CacheNucleusResult) : ∃ s' res, lfuMapApi s o w result = .ok (s', res) := by
  have hcase := lfuMapApi_case h o w result
  generalize hx : lfuMapApi s o w result = x at hcase
  cases hcase with
  | stuck hbig => exact absurd hsmall (Nat.not_lt.mpr hbig)
  | _ => exact ⟨_, _, rfl⟩

theorem lfuRemoveApi_returns (h : s.Inv) (hsmall : s.heap.size < 2 ^ 31)
    (hl : hashLookup s.nucleus o = some r) (keep : Bool) :
    ∃ s', lfuRemoveApi s o keep = .ok s' ∧ s.Step r (s.nucleus.freedEntry r)
      (r.index :: (s.nucleus.pool .cache).free) (s.heap.head r).key s' :=
  (lfuRemoveApi_spec h hl keep).resolve_left fun hx => absurd hx.2 hsmall.not_gt

/-- LFU with `n` slots. -/
structure LfuPolicy.Sized (n : Nat) (s : LfuPolicy) : Prop where
  inv : s.Inv
  cacheEntries : (s.nucleus.pool .cache).nrEntries = n

/-- With too few slots no index of the heap wraps. -/
theorem LfuPolicy.Sized.size_lt {n : Nat} (h : s.Sized n) (hn : n < 2 ^ 31) :
    s.heap.size < 2 ^ 31 :=
  (h.inv.heap_size_le.trans_eq h.cacheEntries).trans_lt hn

theorem LfuPolicy.Sized.step {n : Nat} {e : Entry} {free : List Nat} {key : Nat} (h : s.Sized n)
    (hs : s.Step r e free key s') : s'.Sized n :=
  ⟨hs.inv, (hs.rewrites.nrEntries .cache).trans h.cacheEntries⟩

/-- A preload takes the given slot and counts as one access. -/
theorem lfuInsertApi_spec (h : s.Inv) {cb : Cblock}
    (hcb : cb < (s.nucleus.pool .cache).nrEntries)
    (hfree : (s.nucleus.entry ⟨.cache, cb⟩).allocated = false) (habs : s.nucleus.Absent o) :
    ∃ s', lfuInsertApi s o cb = .ok s' ∧ s.Step ⟨.cache, cb⟩
      { s.nucleus.freshEntry ⟨.cache, cb⟩ o with time := s.nucleus.time }
      ((s.nucleus.pool .cache).free.erase cb) 1 s' := by
  obtain ⟨cn1, hrun1, hrw1⟩ := h.wf.allocPoolEntryAt hcb hfree habs
  have hni : ¬s.heap.Mem ⟨.cache, cb⟩ := fun hm => by
    have := ((h.mem_heap _).mp hm).1
    simp [hfree] at this
  obtain ⟨hp, hidx, hmem⟩ := h.placed.setKey ⟨.cache, cb⟩ 1
  let s1 := ({ s with nucleus := cn1 } : LfuPolicy).touch ⟨.cache, cb⟩ 1
  have hrw2 := hrw1.wf.setEntry (r := ⟨.cache, cb⟩)
    (e := { cn1.entry ⟨.cache, cb⟩ with time := cn1.time }) rfl rfl rfl
  have hrw := (hrw1.trans hrw2).congr (d := { s.nucleus.freshEntry ⟨.cache, cb⟩ o with
    time := s.nucleus.time }) (by rw [hrw1.entry_self, hrw1.time]) hrw1.free
  obtain ⟨heap', hrun2, hp', _, hcap, hmem', hkey⟩ := hp.insert (f := lfuCompare s1.nucleus)
    (fun hm => hni ((hmem _).mp hm)) (h.room hcb hni) 1
  have hkey1 : ∀ x, (heap'.head x).key =
      if x = ⟨.cache, cb⟩ then 1 else (s.heap.head x).key := by
    intro x
    rw [hkey]
    by_cases hx : x = ⟨.cache, cb⟩
    · rw [if_pos hx, if_pos hx]
    · rw [if_neg hx, if_neg hx]
      simp [Heap.setKey, hx]
  refine ⟨{ s1 with heap := heap' }, ?_, h.rewrites hrw hp' hcap ?_ fun x hx => ?_, hrw, hkey1⟩
  · simp only [lfuInsertApi, insertInCacheAt, hrun1, ok_bind]
    show (do let heap ← heapInsert (lfuCompare s1.nucleus) s1.heap ⟨.cache, cb⟩ 1; _) = _
    rw [show heapInsert (lfuCompare s1.nucleus) s1.heap ⟨.cache, cb⟩ 1 = _ from hrun2]
    rfl
  · rw [hmem']
    simp [CacheNucleus.freshEntry, h.wf.not_migrating hfree]
  · rw [hmem', hmem]
    simp [hx]

theorem lfuSetTime_inv (h : s.Inv) (lt : LfuTransaction) (time : Nat) :
    ((lfuApi lt).setTime s time).Inv :=
  ⟨⟨h.wf.pools, h.wf.start, h.wf.ht_nodup, h.wf.mem_ht, h.wf.inj⟩, h.meta_empty, h.placed,
    h.capacity, h.mem_heap⟩

/-! ## Initialisation -/

theorem lfuInit_eq (c : UInt32) : lfuInit c = .ok
    { nucleus := freshNucleus c.toNat 0 fun p => if p = .cache then c.toNat else 0,
      heap := { capacity := c.toNat } } := by
  have hn : ∀ p : PoolId, (if p = .cache then c.toNat else 0) < 2 ^ 32 := fun p => by
    have := c.toNat_lt
    split <;> omega
  simp only [lfuInit, heapInit, heapSetCompare, heapBuild, if_true, ok_bind]
  rw [policyInit_eq (n := fun p => if p = .cache then c.toNat else 0) ?_ hn]
  · rfl
  · intro p
    cases p <;> rfl

theorem lfuInit_spec {c : UInt32} (h : lfuInit c = .ok s) : s.Inv ∧
    (s.nucleus.pool .cache).nrEntries = c.toNat ∧ ∀ o, s.nucleus.Absent o := by
  rw [lfuInit_eq] at h
  obtain rfl := Except.ok.inj h
  have hn : ∀ p : PoolId, (if p = .cache then c.toNat else 0) < 2 ^ 32 := fun p => by
    have := c.toNat_lt
    split <;> omega
  refine ⟨⟨freshNucleus_wf hn, rfl, fun i hi => absurd hi (Nat.not_lt_zero i), rfl, ?_⟩, rfl,
    freshNucleus_absent _ _ _⟩
  intro r
  simp [freshNucleus, CacheNucleus.entry, freshPool, Heap.Mem]

end Fomo
