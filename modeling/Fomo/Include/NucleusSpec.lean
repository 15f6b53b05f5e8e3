import Fomo.Include.Nucleus

/-!
# What the nucleus operations do to a well-formed nucleus

In a well-formed nucleus the hash table chains exactly the allocated entries and no
two of them share an oblock. Every operation rewrites one entry and the free list of
its pool; `Rewrites` says so, and each operation has one lemma in that form.
-/
namespace Fomo

namespace CacheNucleus

/-- The hash table is exactly the allocated entries, each under its own oblock. -/
structure Wf (cn : CacheNucleus) : Prop where
  pools : ∀ p, (cn.pool p).Wf
  start : ∀ p, (cn.pool p).startingIndex = 0
  ht_nodup : cn.ht.Nodup
  mem_ht : ∀ r, r ∈ cn.ht ↔ (cn.entry r).allocated = true
  inj : ∀ r r', (cn.entry r).allocated = true → (cn.entry r').allocated = true →
    (cn.entry r).oblock = (cn.entry r').oblock → r = r'

/-- `o` names no allocated entry, cached or not. -/
def Absent (cn : CacheNucleus) (o : Oblock) : Prop :=
  ∀ r, (cn.entry r).allocated = true → (cn.entry r).oblock ≠ o

/-- `cn'` is `cn` with the entry `r` rewritten to `e` and the free list of its pool
replaced. -/
structure Rewrites (cn : CacheNucleus) (r : EntryRef) (e : Entry) (free : List Nat)
    (cn' : CacheNucleus) : Prop where
  wf : cn'.Wf
  entry : cn'.entry = Function.update cn.entry r e
  free : (cn'.pool r.pool).free = free
  free_of_ne : ∀ p, p ≠ r.pool → (cn'.pool p).free = (cn.pool p).free
  nrEntries : ∀ p, (cn'.pool p).nrEntries = (cn.pool p).nrEntries
  cacheSize : cn'.cacheSize = cn.cacheSize
  metaSize : cn'.metaSize = cn.metaSize
  time : cn'.time = cn.time

variable {cn cn' : CacheNucleus} {p : PoolId} {r r' : EntryRef} {e : Entry} {o : Oblock}
  {free : List Nat}

theorem Wf.poolWf (h : cn.Wf) (r : EntryRef) : (cn.pool r.pool).Wf := h.pools r.pool

theorem Wf.lt_of_allocated (h : cn.Wf) (ha : (cn.entry r).allocated = true) :
    r.index < (cn.pool r.pool).nrEntries := (h.pools r.pool).lt_of_allocated r.index ha

theorem Wf.allocated_of_migrating (h : cn.Wf) (hm : (cn.entry r).migrating = true) :
    (cn.entry r).allocated = true := (h.pools r.pool).allocated_of_migrating r.index hm

theorem Wf.not_migrating (h : cn.Wf) (ha : (cn.entry r).allocated = false) :
    (cn.entry r).migrating = false := (h.pools r.pool).not_migrating ha

theorem Wf.mem_free (h : cn.Wf) : r.index ∈ (cn.pool r.pool).free ↔
    r.index < (cn.pool r.pool).nrEntries ∧ (cn.entry r).allocated = false :=
  (h.pools r.pool).mem_free r.index

/-- A duplicate-free list of the allocated entries of one pool counts them. -/
theorem Wf.length_eq_nrAllocated (h : cn.Wf) {l : List EntryRef} (hl : l.Nodup)
    (hm : ∀ r, r ∈ l ↔ r.pool = p ∧ (cn.entry r).allocated = true) :
    l.length = (cn.pool p).nrAllocated := by
  have hidx : (l.map EntryRef.index).Nodup := by
    refine hl.map_on fun x hx y hy hxy => ?_
    have hx' := ((hm x).mp hx).1
    have hy' := ((hm y).mp hy).1
    cases x; cases y; simp_all
  have hlen := (h.pools p).length_eq_nrAllocated hidx fun i => by
    constructor
    · intro hi
      obtain ⟨⟨_, i⟩, hr, rfl⟩ := List.mem_map.mp hi
      obtain ⟨rfl, ha⟩ := (hm _).mp hr
      exact ha
    · exact fun ha => List.mem_map.mpr ⟨⟨p, i⟩, (hm _).mpr ⟨rfl, ha⟩, rfl⟩
  rwa [List.length_map] at hlen

/-- Statistics are no part of the structural invariant. -/
theorem Wf.withStats (h : cn.Wf) (stats : PolicyStats) : ({ cn with stats := stats }).Wf :=
  ⟨h.pools, h.start, h.ht_nodup, h.mem_ht, h.inj⟩

theorem Wf.withTime (h : cn.Wf) (time : Nat) : ({ cn with time := time }).Wf :=
  ⟨h.pools, h.start, h.ht_nodup, h.mem_ht, h.inj⟩

theorem Wf.withWb (h : cn.Wf) (wb : WritebackTracker) : ({ cn with wb := wb }).Wf :=
  ⟨h.pools, h.start, h.ht_nodup, h.mem_ht, h.inj⟩

/-! ## Lookups -/

theorem Wf.hashLookup_eq_some (h : cn.Wf) :
    hashLookup cn o = some r ↔ (cn.entry r).allocated = true ∧ (cn.entry r).oblock = o := by
  constructor
  · intro hl
    have hmem := List.mem_of_find?_eq_some hl
    have ho := List.find?_some hl
    exact ⟨(h.mem_ht r).mp hmem, by simpa using ho⟩
  · rintro ⟨ha, ho⟩
    have hmem := (h.mem_ht r).mpr ha
    cases hl : hashLookup cn o with
    | none =>
      have hn := List.find?_eq_none.mp hl r hmem
      simp [ho] at hn
    | some r' =>
      have hmem' := List.mem_of_find?_eq_some hl
      have ho' : (cn.entry r').oblock = o := by simpa using List.find?_some hl
      rw [h.inj r' r ((h.mem_ht r').mp hmem') ha (ho'.trans ho.symm)]

theorem Wf.hashLookup_eq_none (h : cn.Wf) : hashLookup cn o = none ↔ cn.Absent o := by
  constructor
  · intro hl r ha ho
    simp [h.hashLookup_eq_some.mpr ⟨ha, ho⟩] at hl
  · intro habs
    cases hl : hashLookup cn o with
    | none => rfl
    | some r =>
      obtain ⟨ha, ho⟩ := h.hashLookup_eq_some.mp hl
      exact absurd ho (habs r ha)

theorem Wf.hashLookup_self (h : cn.Wf) (ha : (cn.entry r).allocated = true) :
    hashLookup cn (cn.entry r).oblock = some r := h.hashLookup_eq_some.mpr ⟨ha, rfl⟩

namespace Rewrites

variable (h : cn.Rewrites r e free cn')
include h

theorem entry_self : cn'.entry r = e := by simp [h.entry]

theorem entry_of_ne (hr : r' ≠ r) : cn'.entry r' = cn.entry r' := by simp [h.entry, hr]

/-- Lookups after a rewrite, from the lookups before it. -/
theorem hashLookup (hw : cn.Wf) (o : Oblock) : Fomo.hashLookup cn' o =
    if e.allocated = true ∧ e.oblock = o then some r
    else if Fomo.hashLookup cn o = some r then none else Fomo.hashLookup cn o := by
  split
  · next he => exact h.wf.hashLookup_eq_some.mpr (by rw [h.entry_self]; exact he)
  · next he =>
    have hother : ∀ x, Fomo.hashLookup cn' o = some x → x ≠ r := by
      rintro x hx rfl
      have := h.wf.hashLookup_eq_some.mp hx
      rw [h.entry_self] at this
      exact he this
    split
    · next hr =>
      cases hx : Fomo.hashLookup cn' o with
      | none => rfl
      | some x =>
        have hne := hother x hx
        have hx' := h.wf.hashLookup_eq_some.mp hx
        rw [h.entry_of_ne hne] at hx'
        have := hw.hashLookup_eq_some.mpr hx'
        rw [hr] at this
        exact absurd (Option.some.inj this).symm hne
    · next hr =>
      cases hx : Fomo.hashLookup cn o with
      | none =>
        rw [h.wf.hashLookup_eq_none]
        intro x hxa hxo
        have hx' := h.wf.hashLookup_eq_some.mpr ⟨hxa, hxo⟩
        rw [h.entry_of_ne (hother x hx')] at hxa hxo
        exact hw.hashLookup_eq_none.mp hx x hxa hxo
      | some x =>
        have hne : x ≠ r := by rintro rfl; exact hr hx
        rw [h.wf.hashLookup_eq_some, h.entry_of_ne hne]
        exact hw.hashLookup_eq_some.mp hx

theorem withStats (stats : PolicyStats) : cn.Rewrites r e free { cn' with stats := stats } :=
  ⟨h.wf.withStats stats, h.entry, h.free, h.free_of_ne, h.nrEntries, h.cacheSize, h.metaSize,
    h.time⟩

theorem withWb (wb : WritebackTracker) : cn.Rewrites r e free { cn' with wb := wb } :=
  ⟨h.wf.withWb wb, h.entry, h.free, h.free_of_ne, h.nrEntries, h.cacheSize, h.metaSize, h.time⟩

omit h in
theorem ofStats {stats : PolicyStats}
    (h : ({ cn with stats := stats } : CacheNucleus).Rewrites r e free cn') :
    cn.Rewrites r e free cn' :=
  ⟨h.wf, h.entry, h.free, h.free_of_ne, h.nrEntries, h.cacheSize, h.metaSize, h.time⟩

omit h in
theorem ofWb {wb : WritebackTracker}
    (h : ({ cn with wb := wb } : CacheNucleus).Rewrites r e free cn') :
    cn.Rewrites r e free cn' :=
  ⟨h.wf, h.entry, h.free, h.free_of_ne, h.nrEntries, h.cacheSize, h.metaSize, h.time⟩

theorem congr {d : Entry} {l : List Nat} (he : e = d) (hf : free = l) :
    cn.Rewrites r d l cn' := by
  subst he hf
  exact h

/-- Two rewrites of one entry are one. -/
theorem trans {e' : Entry} {free' : List Nat} {cn'' : CacheNucleus}
    (h' : cn'.Rewrites r e' free' cn'') : cn.Rewrites r e' free' cn'' where
  wf := h'.wf
  entry := by rw [h'.entry, h.entry, Function.update_idem]
  free := h'.free
  free_of_ne := fun p hp => (h'.free_of_ne p hp).trans (h.free_of_ne p hp)
  nrEntries := fun p => (h'.nrEntries p).trans (h.nrEntries p)
  cacheSize := h'.cacheSize.trans h.cacheSize
  metaSize := h'.metaSize.trans h.metaSize
  time := h'.time.trans h.time

/-- An oblock stays absent when the rewritten entry does not take it. -/
theorem absent (ho : cn.Absent o) (he : e.allocated = true → e.oblock ≠ o) : cn'.Absent o := by
  intro x hx
  by_cases hxr : x = r
  · subst hxr
    rw [h.entry_self] at hx ⊢
    exact he hx
  · rw [h.entry_of_ne hxr] at hx ⊢
    exact ho x hx

end Rewrites

/-- Freeing the only entry of an oblock makes it absent. -/
theorem Wf.absent_of_freed (h : cn.Wf) (hl : hashLookup cn o = some r)
    (hrw : cn.Rewrites r e free cn') (he : e.allocated = false) : cn'.Absent o := by
  intro x hx hxo
  by_cases hxr : x = r
  · subst hxr
    rw [hrw.entry_self, he] at hx
    exact absurd hx (by simp)
  · rw [hrw.entry_of_ne hxr] at hx hxo
    obtain ⟨ha, ho⟩ := h.hashLookup_eq_some.mp hl
    exact hxr (h.inj x r hx ha (hxo.trans ho.symm))

/-! ## The operations -/

/-- A rewrite that leaves the pools well formed and the table unchanged, of an entry
that keeps its place in it. -/
theorem Wf.rewrites_of_setPool (h : cn.Wf) {ep : EntryPool} (hw : ep.Wf)
    (he : ep.entries = Function.update (cn.pool r.pool).entries r.index e)
    (hn : ep.nrEntries = (cn.pool r.pool).nrEntries)
    (hs : ep.startingIndex = (cn.pool r.pool).startingIndex)
    (ha : e.allocated = (cn.entry r).allocated) (ho : e.oblock = (cn.entry r).oblock) :
    cn.Rewrites r e ep.free (cn.setPool r.pool ep) := by
  have hentry := entry_setPool he
  have hkey : ∀ x, ((cn.setPool r.pool ep).entry x).allocated = (cn.entry x).allocated ∧
      ((cn.setPool r.pool ep).entry x).oblock = (cn.entry x).oblock := by
    intro x
    by_cases hx : x = r
    · subst hx; simp [hentry, ha, ho]
    · simp [hentry, hx]
  refine ⟨⟨?_, ?_, h.ht_nodup, ?_, ?_⟩, hentry, by simp, ?_, ?_, rfl, rfl, rfl⟩
  · intro p
    by_cases hp : p = r.pool
    · subst hp; simpa using hw
    · simpa [hp] using h.pools p
  · intro p
    by_cases hp : p = r.pool
    · subst hp; simpa [hs] using h.start _
    · simpa [hp] using h.start p
  · intro x; rw [(hkey x).1]; exact h.mem_ht x
  · intro x y hx hy hxy
    rw [(hkey x).1] at hx
    rw [(hkey y).1] at hy
    rw [(hkey x).2, (hkey y).2] at hxy
    exact h.inj x y hx hy hxy
  · intro p hp; simp [hp]
  · intro p
    by_cases hp : p = r.pool
    · subst hp; simp [hn]
    · simp [hp]

/-- Writing fields of an entry that neither the pools nor the table look at. -/
theorem Wf.setEntry (h : cn.Wf) (ha : e.allocated = (cn.entry r).allocated)
    (hm : e.migrating = (cn.entry r).migrating) (ho : e.oblock = (cn.entry r).oblock) :
    cn.Rewrites r e (cn.pool r.pool).free (cn.setEntry r e) :=
  h.rewrites_of_setPool ((h.poolWf r).set ha hm) rfl rfl rfl ha ho

/-- Nothing rewritten. -/
theorem Wf.rewrites_self (h : cn.Wf) (r : EntryRef) :
    cn.Rewrites r (cn.entry r) (cn.pool r.pool).free cn :=
  ⟨h, (Function.update_eq_self r cn.entry).symm, rfl, fun _ _ => rfl, fun _ => rfl, rfl, rfl, rfl⟩

theorem Wf.migratingCacheEntry (h : cn.Wf) (hp : r.pool = .cache)
    (ha : (cn.entry r).allocated = true) (hm : (cn.entry r).migrating = false) :
    ∃ cn', Fomo.migratingCacheEntry cn r = .ok cn' ∧
      cn.Rewrites r { cn.entry r with migrating := true } (cn.pool r.pool).free cn' := by
  obtain ⟨rp, ri⟩ := r
  obtain rfl : rp = .cache := hp
  obtain ⟨ep, hrun, hwf, he, hf, hn, hs⟩ := (h.pools .cache).migratingEntry ha hm
  refine ⟨cn.setPool .cache ep, by simp [Fomo.migratingCacheEntry, logAssert, hrun], ?_⟩
  rw [← hf]
  exact h.rewrites_of_setPool hwf he hn hs rfl rfl

theorem Wf.migratedCacheEntry (h : cn.Wf) (hp : r.pool = .cache)
    (hm : (cn.entry r).migrating = true) :
    ∃ cn', Fomo.migratedCacheEntry cn (some r) = .ok (cn', r) ∧
      cn.Rewrites r { cn.entry r with migrating := false } (cn.pool r.pool).free cn' := by
  obtain ⟨rp, ri⟩ := r
  obtain rfl : rp = .cache := hp
  obtain ⟨ep, hrun, hwf, he, hf, hn, hs⟩ := (h.pools .cache).migratedEntry hm
  refine ⟨cn.setPool .cache ep, by simp [Fomo.migratedCacheEntry, logAssert, hrun], ?_⟩
  rw [← hf]
  exact h.rewrites_of_setPool hwf he hn hs rfl rfl

/-- Chaining a fresh entry under an oblock that no allocated entry has. -/
theorem Wf.rewrites_of_alloc (h : cn.Wf) {ep : EntryPool} (hw : ep.Wf)
    (he : ep.entries = Function.update (cn.pool r.pool).entries r.index e)
    (hn : ep.nrEntries = (cn.pool r.pool).nrEntries)
    (hs : ep.startingIndex = (cn.pool r.pool).startingIndex)
    (hfresh : (cn.entry r).allocated = false) (ha : e.allocated = true)
    (habs : cn.Absent e.oblock) :
    cn.Rewrites r e ep.free (hashInsert (cn.setPool r.pool ep) r) := by
  have hentry : (hashInsert (cn.setPool r.pool ep) r).entry = Function.update cn.entry r e :=
    entry_setPool he
  have hni : r ∉ cn.ht := fun hm => by
    have := (h.mem_ht r).mp hm
    simp [hfresh] at this
  refine ⟨⟨?_, ?_, ?_, ?_, ?_⟩, hentry, by simp [hashInsert], ?_, ?_, rfl, rfl, rfl⟩
  · intro p
    by_cases hp : p = r.pool
    · subst hp; simpa [hashInsert] using hw
    · simpa [hashInsert, hp] using h.pools p
  · intro p
    by_cases hp : p = r.pool
    · subst hp; simpa [hashInsert, hs] using h.start _
    · simpa [hashInsert, hp] using h.start p
  · exact List.nodup_cons.mpr ⟨hni, h.ht_nodup⟩
  · intro x
    rw [hentry]
    by_cases hx : x = r
    · subst hx; simp [hashInsert, ha]
    · simpa [hashInsert, hx] using h.mem_ht x
  · intro x y hx hy hxy
    rw [hentry] at hx hy hxy
    by_cases hxr : x = r <;> by_cases hyr : y = r
    · rw [hxr, hyr]
    · subst hxr
      simp only [Function.update_self, ne_eq, hyr, not_false_eq_true,
        Function.update_of_ne] at hx hy hxy
      exact absurd hxy.symm (habs y hy)
    · subst hyr
      simp only [Function.update_self, ne_eq, hxr, not_false_eq_true,
        Function.update_of_ne] at hx hy hxy
      exact absurd hxy (habs x hx)
    · simp only [ne_eq, hxr, hyr, not_false_eq_true, Function.update_of_ne] at hx hy hxy
      exact h.inj x y hx hy hxy
  · intro p hp; simp [hashInsert, hp]
  · intro p
    by_cases hp : p = r.pool
    · subst hp; simp [hashInsert, hn]
    · simp [hashInsert, hp]

/-- The free entry `r`, taken for the oblock `o`. -/
def freshEntry (cn : CacheNucleus) (r : EntryRef) (o : Oblock) : Entry :=
  { cn.entry r with allocated := true, oblock := o, dirty := false }

theorem Wf.rewrites_allocThis (h : cn.Wf) (hi : r.index ∈ (cn.pool r.pool).free)
    (habs : cn.Absent o) :
    cn.Rewrites r (cn.freshEntry r o) ((cn.pool r.pool).free.erase r.index)
      (hashInsert (cn.setPool r.pool ((allocThisEntry (cn.pool r.pool) r.index).set r.index
        { (allocThisEntry (cn.pool r.pool) r.index).entries r.index with
          oblock := o, dirty := false })) r) := by
  have hw := (h.poolWf r).allocThisEntry hi
  have hset := hw.set (i := r.index) (e := { (Fomo.allocThisEntry (cn.pool r.pool) r.index).entries
    r.index with oblock := o, dirty := false }) rfl rfl
  refine h.rewrites_of_alloc (e := cn.freshEntry r o) hset ?_ rfl rfl (h.mem_free.mp hi).2 rfl habs
  simp [allocThisEntry, freshEntry, CacheNucleus.entry]

theorem Wf.allocPoolEntry (h : cn.Wf) {i : Nat} {rest : List Nat}
    (hf : (cn.pool p).free = i :: rest) (habs : cn.Absent o) :
    ∃ cn', Fomo.allocPoolEntry cn p o = .ok (cn', ⟨p, i⟩) ∧
      cn.Rewrites ⟨p, i⟩ (cn.freshEntry ⟨p, i⟩ o) rest cn' := by
  have hrw := h.rewrites_allocThis (r := ⟨p, i⟩) (by simp [hf]) habs
  refine ⟨_, ?_, by simpa [hf] using hrw⟩
  simp only [Fomo.allocPoolEntry, allocEntry, hf]

theorem allocPoolEntry_nil (hf : (cn.pool p).free = []) :
    Fomo.allocPoolEntry cn p o = .error .assertion := by
  simp only [Fomo.allocPoolEntry, allocEntry, hf]

theorem Wf.allocPoolEntryAt (h : cn.Wf) {cb : Cblock} (hcb : cb < (cn.pool p).nrEntries)
    (hfree : (cn.entry ⟨p, cb⟩).allocated = false) (habs : cn.Absent o) :
    ∃ cn', Fomo.allocPoolEntryAt cn p o cb = .ok (cn', ⟨p, cb⟩) ∧
      cn.Rewrites ⟨p, cb⟩ (cn.freshEntry ⟨p, cb⟩ o) ((cn.pool p).free.erase cb) cn' := by
  have hat := epoolAt_zero (h.start p) (h.pools p).nr_lt hcb
  have hfree' : ((cn.pool p).entries cb).allocated = false := hfree
  refine ⟨_, ?_, h.rewrites_allocThis (r := ⟨p, cb⟩) (h.mem_free.mpr ⟨hcb, hfree⟩) habs⟩
  simp only [Fomo.allocPoolEntryAt, allocParticularEntry, hat, deref_some, ok_bind,
    logAssert_true hfree', pure_eq_ok]

theorem Wf.insertInMeta (h : cn.Wf) {i : Nat} {rest : List Nat}
    (hf : (cn.pool .metadata).free = i :: rest) (habs : cn.Absent o) :
    ∃ cn', Fomo.insertInMeta cn o = .ok (cn', ⟨.metadata, i⟩) ∧
      cn.Rewrites ⟨.metadata, i⟩ (cn.freshEntry ⟨.metadata, i⟩ o) rest cn' :=
  h.allocPoolEntry hf habs

theorem Wf.insertInCache (h : cn.Wf) {i : Nat} {rest : List Nat}
    (hf : (cn.pool .cache).free = i :: rest) (habs : cn.Absent o) (result : CacheNucleusResult) :
    ∃ cn', Fomo.insertInCache cn o result =
        .ok (cn', ⟨.cache, i⟩, { result with cblock := i }) ∧
      cn.Rewrites ⟨.cache, i⟩ (cn.freshEntry ⟨.cache, i⟩ o) rest cn' := by
  obtain ⟨cn', hrun, hrw⟩ := h.allocPoolEntry hf habs
  exact ⟨cn', by simp [Fomo.insertInCache, hrun, inferCblock, hrw.wf.start], hrw⟩

/-- The entry `r` as a miss for `o` leaves it: taken and migrating. -/
def arrivingEntry (cn : CacheNucleus) (r : EntryRef) (o : Oblock) : Entry :=
  { cn.freshEntry r o with migrating := true }

/-- `insert_in_cache` followed by `migrating_entry`. -/
theorem Wf.insertMigrating (h : cn.Wf) {i : Nat} {rest : List Nat}
    (hf : (cn.pool .cache).free = i :: rest) (habs : cn.Absent o) (result : CacheNucleusResult) :
    ∃ cn1 cn', Fomo.insertInCache cn o result =
        .ok (cn1, ⟨.cache, i⟩, { result with cblock := i }) ∧
      Fomo.migratingCacheEntry cn1 ⟨.cache, i⟩ = .ok cn' ∧
      cn.Rewrites ⟨.cache, i⟩ (cn.arrivingEntry ⟨.cache, i⟩ o) rest cn' := by
  obtain ⟨cn1, hrun1, hrw1⟩ := h.insertInCache hf habs result
  have hfresh := (h.mem_free (r := ⟨.cache, i⟩)).mp (by simp [hf])
  have he := hrw1.entry_self
  obtain ⟨cn', hrun2, hrw2⟩ := hrw1.wf.migratingCacheEntry (r := ⟨.cache, i⟩) rfl
    (by rw [he]; rfl) (by rw [he]; exact h.not_migrating hfresh.2)
  refine ⟨cn1, cn', hrun1, hrun2, ?_⟩
  rw [he, hrw1.free] at hrw2
  exact hrw1.trans hrw2

theorem Wf.inferCacheCblock (h : cn.Wf) (hp : r.pool = .cache) :
    Fomo.inferCacheCblock cn r = .ok r.index := by
  simp [Fomo.inferCacheCblock, logAssert_true hp, inferCblock, h.start]

/-- The entry `r` after it has been freed. -/
def freedEntry (cn : CacheNucleus) (r : EntryRef) : Entry :=
  { cn.entry r with allocated := false, migrating := false }

theorem Wf.cacheNucleusRemove (h : cn.Wf) (ha : (cn.entry r).allocated = true) :
    ∃ cn', Fomo.cacheNucleusRemove cn r = .ok cn' ∧
      cn.Rewrites r (cn.freedEntry r) (r.index :: (cn.pool r.pool).free) cn' := by
  obtain ⟨ep, hrun, hwf, he, hf, hn, hs⟩ := (h.poolWf r).freeEntry ha
  have hmem := (h.mem_ht r).mpr ha
  let cn1 : CacheNucleus := { cn with ht := cn.ht.erase r, wb := cn.wb.remove r }
  have hentry : (cn1.setPool r.pool ep).entry = Function.update cn.entry r (cn.freedEntry r) :=
    @entry_setPool cn1 ep r _ he
  refine ⟨cn1.setPool r.pool ep, ?_, ⟨?_, ?_, ?_, ?_, ?_⟩, hentry, by simp [hf], ?_, ?_, rfl,
    rfl, rfl⟩
  · have hrun1 : Fomo.freeEntry (cn1.pool r.pool) r.index = .ok ep := hrun
    have hmem1 : r ∈ (wbRemove cn r).ht := hmem
    simp only [Fomo.cacheNucleusRemove, hashRemove, if_pos hmem1, ok_bind]
    show (do let ep ← Fomo.freeEntry (cn1.pool r.pool) r.index; _) = _
    rw [hrun1]
    rfl
  · intro p
    by_cases hp : p = r.pool
    · subst hp; simpa using hwf
    · simpa [hp] using h.pools p
  · intro p
    by_cases hp : p = r.pool
    · subst hp; simpa [hs] using h.start _
    · simpa [hp] using h.start p
  · exact h.ht_nodup.erase r
  · intro x
    rw [hentry]
    simp only [setPool_ht, cn1, h.ht_nodup.mem_erase_iff, h.mem_ht]
    by_cases hx : x = r
    · subst hx; simp [freedEntry]
    · simp [hx]
  · intro x y hx hy hxy
    rw [hentry] at hx hy hxy
    have hxr : x ≠ r := by rintro rfl; simp [freedEntry] at hx
    have hyr : y ≠ r := by rintro rfl; simp [freedEntry] at hy
    simp only [ne_eq, hxr, hyr, not_false_eq_true, Function.update_of_ne] at hx hy hxy
    exact h.inj x y hx hy hxy
  · intro p hp; simp [cn1, hp]
  · intro p
    by_cases hp : p = r.pool
    · subst hp; simp [hn]
    · simp [cn1, hp]

/-- A ghost of the oblock of a cached entry that is removed next is a ghost taken after the
removal. -/
theorem Wf.insertInMeta_remove (h : cn.Wf) (hp : r.pool = .cache)
    (ha : (cn.entry r).allocated = true) {i : Nat} {rest : List Nat}
    (hf : (cn.pool .metadata).free = i :: rest) :
    ∃ cn1, Fomo.insertInMeta cn (cn.entry r).oblock = .ok (cn1, ⟨.metadata, i⟩) ∧
      ∀ st, ∃ cn2 cn3, cn.Rewrites r (cn.freedEntry r) (r.index :: (cn.pool r.pool).free) cn2 ∧
        cn2.Rewrites ⟨.metadata, i⟩ (cn2.freshEntry ⟨.metadata, i⟩ (cn.entry r).oblock) rest cn3 ∧
        Fomo.cacheNucleusRemove { cn1 with stats := st } r = .ok cn3 := by
  refine ⟨_, by simp only [Fomo.insertInMeta, Fomo.allocPoolEntry, allocEntry, hf]; rfl, ?_⟩
  intro st
  obtain ⟨cn2, hrun2, hrw2⟩ := (h.withStats st).cacheNucleusRemove (r := r) ha
  have habs : cn2.Absent (cn.entry r).oblock :=
    (h.withStats st).absent_of_freed ((h.withStats st).hashLookup_self ha) hrw2 rfl
  have hf2 : (cn2.pool .metadata).free = i :: rest :=
    (hrw2.free_of_ne .metadata (by rw [hp]; decide)).trans hf
  obtain ⟨cn3, hrun3, hrw3⟩ := hrw2.wf.insertInMeta hf2 habs
  refine ⟨cn2, cn3, hrw2.ofStats, hrw3, ?_⟩
  have hmem := (h.mem_ht r).mpr ha
  have hne : (⟨.metadata, i⟩ : EntryRef) ≠ r := by
    rintro rfl
    cases hp
  obtain ⟨ep, hrun, _⟩ := (h.pools .cache).freeEntry (i := r.index) (by
    have heq : cn.entry r = (cn.pool .cache).entries r.index := by rw [← hp]; rfl
    rw [← heq]
    exact ha)
  simp only [Fomo.cacheNucleusRemove, wbRemove, hashRemove, hmem, if_true, ok_bind, hp, hrun,
    pure_eq_ok, Except.ok.injEq] at hrun2
  subst hrun2
  simp only [Fomo.insertInMeta, Fomo.allocPoolEntry, allocEntry, hf2, Except.ok.injEq,
    Prod.mk.injEq, and_true] at hrun3
  subst hrun3
  have hmem' : r ∈ (⟨.metadata, i⟩ : EntryRef) :: cn.ht := List.mem_cons_of_mem _ hmem
  simp [Fomo.cacheNucleusRemove, wbRemove, hashRemove, hashInsert, hmem, hp, hrun, setPool,
    List.erase_cons_tail, hne, Function.update_comm]

/-- `default_remap` renames the entry of a present oblock to one no entry has. -/
theorem Wf.defaultRemap (h : cn.Wf) {a b : Oblock} (hl : Fomo.hashLookup cn a = some r)
    (habs : cn.Absent b) :
    ∃ cn', Fomo.defaultRemap cn a b = .ok cn' ∧
      cn.Rewrites r { cn.entry r with oblock := b } (cn.pool r.pool).free cn' := by
  obtain ⟨ha, _⟩ := h.hashLookup_eq_some.mp hl
  have hmem := (h.mem_ht r).mpr ha
  let cn1 : CacheNucleus := { cn with ht := cn.ht.erase r }
  let cn2 := hashInsert (cn1.setEntry r { cn.entry r with oblock := b }) r
  have hentry : cn2.entry = Function.update cn.entry r { cn.entry r with oblock := b } :=
    @entry_setEntry cn1 r _
  have hset : ∀ p, (cn2.pool p).Wf ∧ (cn2.pool p).startingIndex = 0 ∧
      (cn2.pool p).free = (cn.pool p).free ∧ (cn2.pool p).nrEntries = (cn.pool p).nrEntries := by
    intro p
    show ((Function.update cn.pool r.pool _) p).Wf ∧ _
    by_cases hp : p = r.pool
    · subst hp
      refine ⟨?_, by simpa [cn2, hashInsert, CacheNucleus.setEntry, cn1] using h.start _, ?_, ?_⟩
      · simpa using (h.poolWf r).set (i := r.index) (e := { cn.entry r with oblock := b }) rfl rfl
      · simp [cn2, hashInsert, CacheNucleus.setEntry, cn1]
      · simp [cn2, hashInsert, CacheNucleus.setEntry, cn1]
    · refine ⟨by simpa [hp] using h.pools p, ?_, ?_, ?_⟩
      · simpa [cn2, hashInsert, CacheNucleus.setEntry, cn1, hp] using h.start p
      · simp [cn2, hashInsert, CacheNucleus.setEntry, cn1, hp]
      · simp [cn2, hashInsert, CacheNucleus.setEntry, cn1, hp]
  refine ⟨cn2, ?_, ⟨fun p => (hset p).1, fun p => (hset p).2.1, ?_, ?_, ?_⟩, hentry,
    (hset _).2.2.1, fun p _ => (hset p).2.2.1, fun p => (hset p).2.2.2, rfl, rfl, rfl⟩
  · simp only [Fomo.defaultRemap, hl, deref_some, ok_bind, hashRemove, if_pos hmem, pure_eq_ok]
    rfl
  · refine List.nodup_cons.mpr ⟨?_, h.ht_nodup.erase r⟩
    exact h.ht_nodup.not_mem_erase
  · intro x
    rw [hentry]
    show x ∈ r :: cn.ht.erase r ↔ _
    rw [List.mem_cons, h.ht_nodup.mem_erase_iff, h.mem_ht]
    by_cases hx : x = r
    · subst hx; simp [ha]
    · simp [hx]
  · intro x y hx hy hxy
    rw [hentry] at hx hy hxy
    by_cases hxr : x = r <;> by_cases hyr : y = r
    · rw [hxr, hyr]
    · subst hxr
      simp only [Function.update_self, ne_eq, hyr, not_false_eq_true,
        Function.update_of_ne] at hx hy hxy
      exact absurd hxy.symm (habs y hy)
    · subst hyr
      simp only [Function.update_self, ne_eq, hxr, not_false_eq_true,
        Function.update_of_ne] at hx hy hxy
      exact absurd hxy (habs x hx)
    · simp only [ne_eq, hxr, hyr, not_false_eq_true, Function.update_of_ne] at hx hy hxy
      exact h.inj x y hx hy hxy

/-- A renaming that returned gave a known entry another name. -/
theorem Wf.remapped (h : cn.Wf) {a b : Oblock} (habs : cn.Absent b)
    (hrun : Fomo.defaultRemap cn a b = .ok cn') : ∃ r, Fomo.hashLookup cn a = some r ∧
      cn.Rewrites r { cn.entry r with oblock := b } (cn.pool r.pool).free cn' := by
  obtain ⟨r, hl, _⟩ := bind_eq_ok.mp hrun
  have hl := deref_eq_ok.mp hl
  obtain ⟨cn1, hrun1, hrw⟩ := h.defaultRemap hl habs
  obtain rfl := Except.ok.inj (hrun1.symm.trans hrun)
  exact ⟨r, hl, hrw⟩

theorem Wf.defaultCacheLookup_eq_some (h : cn.Wf) :
    Fomo.defaultCacheLookup cn o = some r ↔
      r.pool = .cache ∧ (cn.entry r).allocated = true ∧ (cn.entry r).oblock = o := by
  rw [← h.hashLookup_eq_some]
  unfold Fomo.defaultCacheLookup
  cases hl : Fomo.hashLookup cn o with
  | none => simp [inCache]
  | some x =>
    by_cases hp : x.pool = .cache
    · simp only [inCache, Option.any_some, hp, decide_true, if_true, Option.some.injEq]
      constructor
      · rintro rfl
        exact ⟨hp, rfl⟩
      · exact fun hx => hx.2
    · simp only [inCache, Option.any_some, hp, decide_false, Bool.false_eq_true, if_false,
        reduceCtorEq, Option.some.injEq, false_iff, not_and]
      rintro hr rfl
      exact hp hr

/-- The dirty work of a cached block. -/
theorem Wf.dirtyWork_cache (h : cn.Wf) (hl : Fomo.hashLookup cn o = some r)
    (hp : r.pool = .cache) (w : Bool) :
    cn.Rewrites r { cn.entry r with dirty := (cn.entry r).dirty || w } (cn.pool r.pool).free
      (Fomo.dirtyWork cn o w) := by
  simp only [Fomo.dirtyWork, hl, hp, if_true]
  simpa only [hp] using h.setEntry (e := { cn.entry r with dirty := (cn.entry r).dirty || w })
    rfl rfl rfl

theorem dirtyWork_of_none (hl : Fomo.hashLookup cn o = none) (w : Bool) :
    Fomo.dirtyWork cn o w = cn := by
  simp only [Fomo.dirtyWork, hl]

theorem dirtyWork_of_meta (hl : Fomo.hashLookup cn o = some r) (hp : r.pool = .metadata)
    (w : Bool) : Fomo.dirtyWork cn o w = cn := by
  simp [Fomo.dirtyWork, hl, hp]

end CacheNucleus

/-! ## Initialisation -/

/-- A nucleus whose pools hold `cacheSize` and `metaSize` free entries. -/
def freshNucleus (cacheSize metaSize : Nat) (pool : PoolId → Nat) : CacheNucleus where
  cacheSize := cacheSize
  metaSize := metaSize
  pool := fun p => freshPool (pool p)

theorem policyInit_eq {cn : CacheNucleus} {c m : Nat} {n : PoolId → Nat}
    (hp : ∀ p, cn.pool p = epoolCreate {} (n p)) (hn : ∀ p, n p < 2 ^ 32) :
    policyInit cn c m = .ok (freshNucleus c m n) := by
  have hpool : Function.update (Function.update cn.pool .cache (freshPool (n .cache))) .metadata
      (freshPool (n .metadata)) = fun p => freshPool (n p) := by
    funext p
    cases p <;> simp
  simp [policyInit, hp, epoolInit_create (hn _), freshNucleus, hpool, CacheNucleus.setPool]

theorem freshNucleus_absent (c m : Nat) (n : PoolId → Nat) (o : Oblock) :
    (freshNucleus c m n).Absent o := by
  intro r hr
  simp [freshNucleus, CacheNucleus.entry, freshPool] at hr

theorem freshNucleus_wf {c m : Nat} {pool : PoolId → Nat} (hp : ∀ p, pool p < 2 ^ 32) :
    (freshNucleus c m pool).Wf := by
  constructor
  · exact fun p => freshPool_wf (hp p)
  · exact fun p => rfl
  · exact List.nodup_nil
  · intro r; simp [freshNucleus, CacheNucleus.entry, freshPool]
  · intro r r' hr; simp [freshNucleus, CacheNucleus.entry, freshPool] at hr

end Fomo
