import Fomo.Algs.LarcPolicy
import Fomo.Include.Queued

/-!
# What the LARC operations do

The settled entries of a pool stand in the queue of that pool. A request hits, admits
its block into free room or into the slot of the head of the queue, leaves a ghost of
it, or fails.
-/
namespace Fomo

namespace LarcPolicy

/-- The queue of the settled entries of a pool. -/
def queue (s : LarcPolicy) : PoolId → Queue
  | .cache => s.larcQ
  | .metadata => s.larcG

structure Inv (s : LarcPolicy) : Prop where
  wf : s.nucleus.Wf
  queued : Queued s.nucleus EntryRef.pool s.queue
  settled : ∀ r, r.pool = .metadata → (s.nucleus.entry r).migrating = false

/-- `s'` is `s` with the entry `r` rewritten to `e`, the free list of its pool and the
queues replaced. -/
structure Step (s : LarcPolicy) (r : EntryRef) (e : Entry) (free : List Nat)
    (q : PoolId → Queue) (s' : LarcPolicy) : Prop where
  inv : s'.Inv
  rewrites : s.nucleus.Rewrites r e free s'.nucleus
  queue : s'.queue = q
  gSize : s'.gSize = s.gSize

variable {s s' : LarcPolicy} {r : EntryRef} {e : Entry} {free : List Nat} {o : Oblock}
  {p : PoolId}

theorem Inv.step (h : s.Inv) (hrw : s.nucleus.Rewrites r e free s'.nucleus)
    (hq : Queued s'.nucleus EntryRef.pool s'.queue) (hg : s'.gSize = s.gSize)
    (hset : r.pool = .metadata → e.migrating = false) : s.Step r e free s'.queue s' := by
  refine ⟨⟨hrw.wf, hq, ?_⟩, hrw, rfl, hg⟩
  intro x hx
  by_cases hxr : x = r
  · subst hxr
    rw [hrw.entry_self]
    exact hset hx
  · rw [hrw.entry_of_ne hxr]
    exact h.settled x hx

/-- The ghost target and the statistics are no part of the invariant. -/
theorem Inv.withTarget (h : s.Inv) (g : Nat) (stats : PolicyStats) :
    ({ s with gSize := g, nucleus := { s.nucleus with stats := stats } } : LarcPolicy).Inv :=
  ⟨h.wf.withStats stats, ⟨h.queued.nodup, h.queued.mem⟩, h.settled⟩

/-- The head of a queue is settled, in the pool of the queue. -/
theorem Inv.head (h : s.Inv) {q : Queue} (hq : s.queue p = r :: q) :
    (s.nucleus.entry r).allocated = true ∧ (s.nucleus.entry r).migrating = false ∧ r.pool = p :=
  (h.queued.mem p r).mp (by rw [hq]; exact List.mem_cons_self)

/-- `s'` is `s` with the entry `r` freed. -/
def Frees (s : LarcPolicy) (r : EntryRef) (s' : LarcPolicy) : Prop :=
  s.Step r (s.nucleus.freedEntry r) (r.index :: (s.nucleus.pool r.pool).free)
    (fun p => (s.queue p).erase r) s'

/-- The entry, if there is one, has been freed. -/
inductive FreesAny (s : LarcPolicy) : Option EntryRef → LarcPolicy → Prop
  | none : FreesAny s none s
  | some {r : EntryRef} {s' : LarcPolicy} (ha : (s.nucleus.entry r).allocated = true)
      (hs : s.Frees r s') : FreesAny s (some r) s'

theorem FreesAny.inv {x : Option EntryRef} (hs : s.FreesAny x s') (h : s.Inv) : s'.Inv := by
  cases hs with
  | none => exact h
  | some ha hs => exact hs.inv

theorem FreesAny.absent {x : Option EntryRef} (hs : s.FreesAny x s')
    (ho : s.nucleus.Absent o) : s'.nucleus.Absent o := by
  cases hs with
  | none => exact ho
  | some ha hs => exact hs.rewrites.absent ho fun hx => nomatch hx

/-- Freeing an entry leaves the other pool as it was. -/
theorem FreesAny.other {x : Option EntryRef} (hs : s.FreesAny x s') (h : s.Inv)
    (hx : ∀ r ∈ x, r.pool ≠ p) :
    s'.queue p = s.queue p ∧ (s'.nucleus.pool p).free = (s.nucleus.pool p).free ∧
      ∀ i, s'.nucleus.entry ⟨p, i⟩ = s.nucleus.entry ⟨p, i⟩ := by
  cases hs with
  | none => exact ⟨rfl, rfl, fun _ => rfl⟩
  | @some r s' ha hs =>
    have hp := hx r rfl
    refine ⟨?_, hs.rewrites.free_of_ne p (Ne.symm hp), fun i => hs.rewrites.entry_of_ne ?_⟩
    · rw [hs.queue]
      exact List.erase_of_not_mem fun hr => hp ((h.queued.mem p r).mp hr).2.2
    · rintro rfl
      exact hp rfl

/-- Forgetting the entry of `o` makes it absent. -/
theorem FreesAny.absent_lookup {x : Option EntryRef} (hs : s.FreesAny x s') (h : s.Inv)
    (hx : hashLookup s.nucleus o = x) : s'.nucleus.Absent o := by
  cases hs with
  | none => exact h.wf.hashLookup_eq_none.mp hx
  | some ha hs => exact h.wf.absent_of_freed hx hs.rewrites rfl

/-- What the result says about the victim. -/
def evicted (s : LarcPolicy) (result : CacheNucleusResult) : Option EntryRef → CacheNucleusResult
  | none => result
  | some v => { result with
      oldOblock := (s.nucleus.entry v).oblock
      dirtyEviction := (s.nucleus.entry v).dirty }

/-- The queues after the cached entry `r` has been touched. -/
def touchedQ (s : LarcPolicy) (r : EntryRef) : PoolId → Queue :=
  if (s.nucleus.entry r).migrating then s.queue
  else Function.update (fun p => (s.queue p).erase r) r.pool ((s.queue r.pool).erase r ++ [r])

end LarcPolicy

open LarcPolicy

variable {s s' : LarcPolicy} {r : EntryRef} {o : Oblock}

/-! ## Freeing and taking entries -/

theorem larcRemoveEntry_spec (h : s.Inv) (ha : (s.nucleus.entry r).allocated = true) :
    ∃ s', larcRemoveEntry s r = .ok s' ∧ s.Frees r s' := by
  -- a migrating entry is in no queue, and demotions do not matter
  obtain ⟨st, hrun0⟩ : ∃ st, larcRemoveEntry s r = (do
      let nucleus ← cacheNucleusRemove { s.nucleus with stats := st } r
      return { s with
        nucleus := nucleus
        larcQ := s.larcQ.erase r
        larcG := s.larcG.erase r }) := by
    by_cases hm : (s.nucleus.entry r).migrating = true
    · have hq : s.larcQ.erase r = s.larcQ :=
        List.erase_of_not_mem (h.queued.not_mem_of_migrating hm .cache)
      have hg : s.larcG.erase r = s.larcG :=
        List.erase_of_not_mem (h.queued.not_mem_of_migrating hm .metadata)
      exact ⟨s.nucleus.stats, by simp only [larcRemoveEntry, hm, if_true, hq, hg]⟩
    · by_cases hp : r.pool = .cache
      · exact ⟨s.nucleus.incDemotions.stats, by
          simp [larcRemoveEntry, hm, inCache, hp, CacheNucleus.incDemotions]⟩
      · exact ⟨s.nucleus.stats, by simp [larcRemoveEntry, hm, inCache, hp]⟩
  obtain ⟨cn, hrun, hrw⟩ := (h.wf.withStats st).cacheNucleusRemove (r := r) ha
  have hrw := hrw.ofStats
  let s' : LarcPolicy := { s with
    nucleus := cn
    larcQ := s.larcQ.erase r
    larcG := s.larcG.erase r }
  have hqueue : s'.queue = fun p => (s.queue p).erase r := by
    funext p
    cases p <;> rfl
  have hq : Queued s'.nucleus EntryRef.pool s'.queue := by
    rw [hqueue]
    exact h.queued.drop hrw (fun _ _ => rfl) (Or.inl rfl)
  have hs := h.step hrw hq rfl (fun _ => rfl)
  rw [hqueue] at hs
  exact ⟨s', by rw [hrun0, hrun]; rfl, hs⟩

theorem larcEvict_spec (h : s.Inv) {p : PoolId} {q : Queue} (hq : s.queue p = r :: q)
    (result : CacheNucleusResult) :
    ∃ s', larcEvict s (s.queue p) result = .ok (s', s.evicted result (some r)) ∧
      s.Frees r s' := by
  obtain ⟨ha, _, _⟩ := h.head hq
  obtain ⟨s', hrun, hs⟩ := larcRemoveEntry_spec h ha
  exact ⟨s', by simp [larcEvict, hq, hrun, evicted], hs⟩

/-- A ghost of `o` at the recent end. -/
theorem larcGhost_spec (h : s.Inv) {i : Nat} {rest : List Nat}
    (hf : (s.nucleus.pool .metadata).free = i :: rest) (habs : s.nucleus.Absent o) :
    ∃ cn, insertInMeta s.nucleus o = .ok (cn, ⟨.metadata, i⟩) ∧
      s.Step ⟨.metadata, i⟩ (s.nucleus.freshEntry ⟨.metadata, i⟩ o) rest
        (Function.update s.queue .metadata (s.larcG ++ [⟨.metadata, i⟩]))
        { s with nucleus := cn.incFilters, larcG := queuePush s.larcG ⟨.metadata, i⟩ } := by
  obtain ⟨cn, hrun, hrw⟩ := h.wf.insertInMeta hf habs
  have hrw' := hrw.withStats cn.incFilters.stats
  have hfree := (h.wf.mem_free (r := ⟨.metadata, i⟩)).mp (hf ▸ List.mem_cons_self)
  have hm := h.wf.not_migrating hfree.2
  let s' : LarcPolicy :=
    { s with nucleus := cn.incFilters, larcG := queuePush s.larcG ⟨.metadata, i⟩ }
  have hqueue : s'.queue = Function.update s.queue .metadata (s.larcG ++ [⟨.metadata, i⟩]) := by
    funext p
    cases p <;> rfl
  have hq : Queued s'.nucleus EntryRef.pool s'.queue := by
    rw [hqueue]
    exact h.queued.push hrw' (fun _ _ => rfl) (h.queued.not_mem_of_free hfree.2) rfl hm rfl
  have hs := h.step (e := s.nucleus.freshEntry ⟨.metadata, i⟩ o) hrw' hq rfl (fun _ => hm)
  rw [hqueue] at hs
  exact ⟨cn, hrun, hs⟩

/-- `o` takes the first free slot and starts to migrate. -/
theorem larcArrive_spec (h : s.Inv) {cb : Cblock} {rest : List Nat}
    (hf : (s.nucleus.pool .cache).free = cb :: rest) (habs : s.nucleus.Absent o)
    (result : CacheNucleusResult) :
    ∃ cn1 cn, insertInCache s.nucleus o result =
        .ok (cn1, ⟨.cache, cb⟩, { result with cblock := cb }) ∧
      migratingCacheEntry cn1 ⟨.cache, cb⟩ = .ok cn ∧
      (cn.entry ⟨.cache, cb⟩).migrating = true ∧
      s.Step ⟨.cache, cb⟩ (s.nucleus.arrivingEntry ⟨.cache, cb⟩ o) rest s.queue
        { s with nucleus := cn.incMisses } := by
  obtain ⟨cn1, cn, hrun1, hrun2, hrw⟩ := h.wf.insertMigrating hf habs result
  have hrw' := hrw.withStats cn.incMisses.stats
  have hfree := (h.wf.mem_free (r := ⟨.cache, cb⟩)).mp (hf ▸ List.mem_cons_self)
  let s' : LarcPolicy := { s with nucleus := cn.incMisses }
  have hq : Queued s'.nucleus EntryRef.pool s'.queue :=
    h.queued.keep hrw' (fun _ _ => rfl) (h.queued.not_mem_of_free hfree.2) (Or.inr rfl)
  have hs : s.Step _ _ _ s'.queue s' := h.step hrw' hq rfl (fun hx => nomatch hx)
  refine ⟨cn1, cn, hrun1, hrun2, ?_, hs⟩
  rw [hrw.entry_self]
  rfl

/-- Statistics and dirty work at the end of a request. -/
theorem LarcPolicy.Step.finish {e : Entry} {free : List Nat} {q : PoolId → Queue}
    (hs : s.Step r e free q s') (hp : r.pool = .cache) (ha : e.allocated = true)
    (ho : e.oblock = o) (w : Bool) :
    s.Step r { e with dirty := e.dirty || w } free q
      { s' with nucleus := dirtyWork s'.nucleus.incIos o w } := by
  have hrw := hs.rewrites.withStats s'.nucleus.incIos.stats
  have hl := hrw.wf.hashLookup_eq_some (o := o) |>.mpr (by rw [hrw.entry_self]; exact ⟨ha, ho⟩)
  have hd := hrw.wf.dirtyWork_cache hl hp w
  rw [hrw.entry_self, hrw.free] at hd
  have hr : s'.nucleus.entry r = e := hs.rewrites.entry_self
  have hd' : s'.nucleus.Rewrites r { e with dirty := e.dirty || w } free
      (dirtyWork s'.nucleus.incIos o w) := hd.ofStats
  let s2 : LarcPolicy := { s' with nucleus := dirtyWork s'.nucleus.incIos o w }
  have hq : Queued s2.nucleus EntryRef.pool s2.queue := by
    apply hs.inv.queued.same hd' (fun x _ => rfl)
    · rw [hr]
    · rw [hr]
    · rfl
  have hstep : s'.Step r { e with dirty := e.dirty || w } free s2.queue s2 := by
    apply hs.inv.step hd' hq rfl
    intro hx
    rw [hp] at hx
    cases hx
  exact ⟨hstep.inv, hrw.trans hd, hs.queue, hs.gSize⟩

/-! ## The other calls -/

theorem larcMigratedApi_spec (h : s.Inv) (hl : hashLookup s.nucleus o = some r)
    (hp : r.pool = .cache) (hm : (s.nucleus.entry r).migrating = true) :
    ∃ s', larcMigratedApi s o = .ok s' ∧
      s.Step r { s.nucleus.entry r with migrating := false } (s.nucleus.pool r.pool).free
        (Function.update s.queue .cache (s.larcQ ++ [r])) s' := by
  have ha := (h.wf.hashLookup_eq_some.mp hl).1
  obtain ⟨cn, hrun, hrw⟩ := h.wf.migratedCacheEntry hp hm
  have hrw' := hrw.withStats cn.incPromotions.stats
  let s' : LarcPolicy := { s with nucleus := cn.incPromotions, larcQ := queuePush s.larcQ r }
  have hqueue : s'.queue = Function.update s.queue .cache (s.larcQ ++ [r]) := by
    funext p
    cases p <;> rfl
  have hq : Queued s'.nucleus EntryRef.pool s'.queue := by
    rw [hqueue]
    exact h.queued.push hrw' (fun _ _ => rfl) (h.queued.not_mem_of_migrating hm) ha rfl hp
  have hs := h.step hrw' hq rfl (fun _ => rfl)
  rw [hqueue] at hs
  refine ⟨s', ?_, hs⟩
  simp only [larcMigratedApi, hl, logAssert_true hm, ok_bind, hrun, pure_eq_ok, s']

theorem larcInsertApi_spec (h : s.Inv) {cb : Cblock}
    (hcb : cb < (s.nucleus.pool .cache).nrEntries)
    (hfree : (s.nucleus.entry ⟨.cache, cb⟩).allocated = false) (habs : s.nucleus.Absent o) :
    ∃ s', larcInsertApi s o cb = .ok s' ∧
      s.Step ⟨.cache, cb⟩ (s.nucleus.freshEntry ⟨.cache, cb⟩ o)
        ((s.nucleus.pool .cache).free.erase cb)
        (Function.update s.queue .cache (s.larcQ ++ [⟨.cache, cb⟩])) s' := by
  obtain ⟨cn, hrun, hrw⟩ := h.wf.allocPoolEntryAt hcb hfree habs
  have hm := h.wf.not_migrating hfree
  let s' : LarcPolicy := { s with nucleus := cn, larcQ := queuePush s.larcQ ⟨.cache, cb⟩ }
  have hqueue : s'.queue = Function.update s.queue .cache (s.larcQ ++ [⟨.cache, cb⟩]) := by
    funext p
    cases p <;> rfl
  have hq : Queued s'.nucleus EntryRef.pool s'.queue := by
    rw [hqueue]
    exact h.queued.push hrw (fun _ _ => rfl) (h.queued.not_mem_of_free hfree) rfl hm rfl
  have hs := h.step (e := s.nucleus.freshEntry ⟨.cache, cb⟩ o) hrw hq rfl (fun _ => hm)
  rw [hqueue] at hs
  refine ⟨s', ?_, hs⟩
  simp only [larcInsertApi, insertInCacheAt, hrun, ok_bind, pure_eq_ok, s']

/-! ## A request -/

/-- The state a request commits from. -/
def LarcPolicy.aim (s : LarcPolicy) (g : Nat) : LarcPolicy := { s with gSize := g }

theorem LarcPolicy.Inv.aim (h : s.Inv) (g : Nat) : (s.aim g).Inv := h.withTarget g s.nucleus.stats

/-- The ways a request for `o` ends. -/
inductive LarcPolicy.MapCase (s : LarcPolicy) (o : Oblock) (w : Bool)
    (result : CacheNucleusResult) : Exec (LarcPolicy × CacheNucleusResult) → Prop
  | hit {r : EntryRef} {g : Nat} {s' : LarcPolicy} (hl : hashLookup s.nucleus o = some r)
      (hp : r.pool = .cache) (hg : larcDecreaseGSize s = .ok g)
      (hs : (s.aim g).Step r
        { s.nucleus.entry r with dirty := (s.nucleus.entry r).dirty || w }
        (s.nucleus.pool r.pool).free (s.touchedQ r) s') :
      MapCase s o w result (.ok (s', { result with op := .hit, cblock := r.index }))
  /-- Free room, or a ghost of `o` in a full cache: then the head of the queue goes. -/
  | take {victim : Option EntryRef} {g : Nat} {s1 s2 s' : LarcPolicy} {cb : Cblock}
      {rest : List Nat} {res : CacheNucleusResult}
      (hun : ∀ r ∈ hashLookup s.nucleus o, r.pool = .metadata)
      (hg : larcIncreaseGSize s = .ok g)
      (hv : (victim = none ∧ (s.nucleus.pool .cache).free ≠ []) ∨
        ∃ v q, victim = some v ∧ (s.nucleus.pool .cache).free = [] ∧ s.larcQ = v :: q ∧
          (hashLookup s.nucleus o).isSome)
      (evict : (s.aim g).FreesAny victim s1)
      (forget : s1.FreesAny (hashLookup s.nucleus o) s2)
      (free : (s2.nucleus.pool .cache).free = cb :: rest)
      (arrive : s2.Step ⟨.cache, cb⟩
        { s2.nucleus.arrivingEntry ⟨.cache, cb⟩ o with dirty := w } rest s2.queue s')
      (hres : res = s.evicted result victim) :
      MapCase s o w result (.ok (s', { res with
        op := victim.elim .new fun _ => .replace
        cblock := cb }))
  /-- A full cache and no ghost: `o` becomes one, and the oldest goes if there are too many. -/
  | filter {i g : Nat} {rest : List Nat} {s1 s2 : LarcPolicy} (habs : s.nucleus.Absent o)
      (hfull : (s.nucleus.pool .cache).free = []) (hg : larcIncreaseGSize s = .ok g)
      (hf : (s.nucleus.pool .metadata).free = i :: rest)
      (ghost : (s.aim g).Step ⟨.metadata, i⟩ (s.nucleus.freshEntry ⟨.metadata, i⟩ o) rest
        (Function.update s.queue .metadata (s.larcG ++ [⟨.metadata, i⟩])) s1)
      (trim : s1.FreesAny
        (if s.larcG.length + 1 > g then queuePeek (s.larcG ++ [⟨.metadata, i⟩]) else none) s2) :
      MapCase s o w result
        (.ok ({ s2 with nucleus := s2.nucleus.incIos }, { result with op := .filter }))
  | refused {r : EntryRef} {g : Nat} (hl : hashLookup s.nucleus o = some r)
      (hp : r.pool = .metadata) (hfull : (s.nucleus.pool .cache).free = [])
      (hg : larcIncreaseGSize s = .ok g) (hq : s.larcQ = []) :
      MapCase s o w result (.ok (s, { result with op := .fail }))
  /-- A ghost target that cannot be computed, or no room for the ghost. -/
  | stuck {f : Fault}
      (hstuck : ((∃ r, hashLookup s.nucleus o = some r ∧ r.pool = .cache) ∧
          larcDecreaseGSize s = .error f) ∨
        ((∀ r ∈ hashLookup s.nucleus o, r.pool = .metadata) ∧ larcIncreaseGSize s = .error f) ∨
        (s.nucleus.pool .metadata).free = []) :
      MapCase s o w result (.error f)

/-- A hit moves a settled entry to the recent end. -/
theorem larcMapApi_hit_spec (h : s.Inv) (hl : hashLookup s.nucleus o = some r)
    (hp : r.pool = .cache) {g : Nat} (hg : larcDecreaseGSize s = .ok g) (w : Bool)
    (result : CacheNucleusResult) :
    ∃ s', larcMapApi s o w result = .ok (s', { result with op := .hit, cblock := r.index }) ∧
      (s.aim g).Step r { s.nucleus.entry r with dirty := (s.nucleus.entry r).dirty || w }
        (s.nucleus.pool r.pool).free (s.touchedQ r) s' := by
  obtain ⟨ha, ho⟩ := h.wf.hashLookup_eq_some.mp hl
  have h0 := h.aim g
  let s1 : LarcPolicy := { s with
    gSize := g
    nucleus := s.nucleus.incHits
    larcQ := s.touchedQ r .cache
    larcG := s.touchedQ r .metadata }
  have hrw : (s.aim g).nucleus.Rewrites r (s.nucleus.entry r) (s.nucleus.pool r.pool).free
      s1.nucleus := (h.wf.rewrites_self r).withStats s.nucleus.incHits.stats
  have hqueue : s1.queue = s.touchedQ r := by
    funext p
    cases p <;> rfl
  have hq : Queued s1.nucleus EntryRef.pool s1.queue := by
    rw [hqueue]
    unfold touchedQ
    split
    · next hm =>
      exact h0.queued.keep hrw (fun _ _ => rfl) (h0.queued.not_mem_of_migrating hm) (Or.inr hm)
    · next hm => exact h0.queued.touch hrw (fun _ _ => rfl) ha (by simpa using hm) rfl
  have hs := h0.step (e := s.nucleus.entry r) hrw hq rfl fun hx => h.settled r hx
  rw [hqueue] at hs
  have hfin := hs.finish hp ha ho w
  have hrun : larcMapApi s o w result = .ok
      ({ s1 with nucleus := dirtyWork s1.nucleus.incIos o w },
        { result with op := .hit, cblock := r.index }) := by
    have hinfer := h.wf.inferCacheCblock hp
    by_cases hm : (s.nucleus.entry r).migrating = true
    · simp [larcMapApi, larcTransactionSet, larcTransactionInit, hl, inCache, hp, hg,
        larcTransactionIsLegal, larcTransactionCommit, hinfer, hm, s1, touchedQ,
        LarcPolicy.queue]
    · simp [larcMapApi, larcTransactionSet, larcTransactionInit, hl, inCache, hp, hg,
        larcTransactionIsLegal, larcTransactionCommit, hinfer, hm, s1, touchedQ,
        LarcPolicy.queue]
  exact ⟨_, hrun, hfin⟩

theorem larcMapApi_hit (h : s.Inv) (hl : hashLookup s.nucleus o = some r) (hp : r.pool = .cache)
    {g : Nat} (hg : larcDecreaseGSize s = .ok g) (w : Bool) (result : CacheNucleusResult) :
    s.MapCase o w result (larcMapApi s o w result) := by
  obtain ⟨s', hrun, hs⟩ := larcMapApi_hit_spec h hl hp hg w result
  rw [hrun]
  exact .hit hl hp hg hs

/-- The commit of a request that enters the cache, once room has been made. -/
theorem larcTransactionCommit_take (result : CacheNucleusResult) {g : Nat} {ghost evict : Bool}
    {s1 s2 : LarcPolicy} {res : CacheNucleusResult}
    (hev : (evict = false ∧ s1 = s.aim g ∧ res = { result with op := .new }) ∨
      (evict = true ∧ ∃ res', larcEvict (s.aim g) s.larcQ { result with op := .new } =
        .ok (s1, res') ∧ res = { res' with op := .replace }))
    (hfo : (ghost = false ∧ s2 = s1) ∨ (ghost = true ∧ ∃ r, hashLookup s1.nucleus o = some r ∧
      larcRemoveEntry s1 r = .ok s2))
    (h2 : s2.Inv) (habs : s2.nucleus.Absent o) {cb : Cblock} {rest : List Nat}
    (hf : (s2.nucleus.pool .cache).free = cb :: rest) :
    ∃ s', larcTransactionCommit s { larcTransactionInit s o with
        gSize := g, cEvict := evict, gHit := ghost, dest := .q } result =
        .ok (s', { res with cblock := cb }) ∧
      s2.Step ⟨.cache, cb⟩ (s2.nucleus.arrivingEntry ⟨.cache, cb⟩ o) rest s2.queue s' := by
  obtain ⟨cn1, cn, hrun3, hrun4, hm, hs⟩ := larcArrive_spec h2 hf habs res
  have hm' : ((cn.incMisses).entry ⟨.cache, cb⟩).migrating = true := hm
  refine ⟨_, ?_, hs⟩
  have haim : ∀ x, { s with gSize := x } = s.aim x := fun _ => rfl
  rcases hev with ⟨rfl, rfl, rfl⟩ | ⟨rfl, res', hrun1, rfl⟩
  · rcases hfo with ⟨rfl, rfl⟩ | ⟨rfl, r, hl, hrun2⟩
    · simp [larcTransactionCommit, larcTransactionInit, haim, hrun3, hrun4, hm']
    · simp [larcTransactionCommit, larcTransactionInit, haim, hl, hrun2, hrun3, hrun4, hm']
  · rcases hfo with ⟨rfl, rfl⟩ | ⟨rfl, r, hl, hrun2⟩
    · simp [larcTransactionCommit, larcTransactionInit, haim, hrun1, hrun3, hrun4, hm']
    · simp [larcTransactionCommit, larcTransactionInit, haim, hrun1, hl, hrun2, hrun3, hrun4, hm']

/-- The transaction of a block that is not cached but may enter. -/
theorem larcTransactionSet_take (hun : ∀ r ∈ hashLookup s.nucleus o, r.pool = .metadata)
    {g : Nat} (hg : larcIncreaseGSize s = .ok g)
    (hin : (hashLookup s.nucleus o).isSome ∨ (s.nucleus.pool .cache).free ≠ []) :
    larcTransactionSet s (larcTransactionInit s o) = .ok { larcTransactionInit s o with
      gSize := g
      cEvict := (hashLookup s.nucleus o).isSome && cacheIsFull s.nucleus
      gHit := (hashLookup s.nucleus o).isSome
      dest := .q } := by
  cases hl : hashLookup s.nucleus o with
  | some r =>
    have hp := hun r hl
    simp [larcTransactionSet, larcTransactionInit, hl, inCache, inMeta, hp, hg]
  | none =>
    rw [hl] at hin
    have hroom : (s.nucleus.pool .cache).free.isEmpty = false := by
      rcases hin with hx | hx
      · cases hx
      · cases hf : (s.nucleus.pool .cache).free with
        | nil => exact absurd hf hx
        | cons a l => rfl
    simp [larcTransactionSet, larcTransactionInit, hl, inCache, inMeta, hg, cacheIsFull,
      epoolEmpty, hroom]

theorem larcMapApi_take (h : s.Inv) (hun : ∀ r ∈ hashLookup s.nucleus o, r.pool = .metadata)
    {g : Nat} (hg : larcIncreaseGSize s = .ok g)
    (hin : (hashLookup s.nucleus o).isSome ∨ (s.nucleus.pool .cache).free ≠ []) (w : Bool)
    (result : CacheNucleusResult) : s.MapCase o w result (larcMapApi s o w result) := by
  have h0 := h.aim g
  have hset := larcTransactionSet_take hun hg hin
  by_cases hfull : (s.nucleus.pool .cache).free = []
  · -- a ghost of `o` takes the slot of the head of the queue
    have hsome : (hashLookup s.nucleus o).isSome = true := by
      rcases hin with hx | hx
      · exact hx
      · exact absurd hfull hx
    obtain ⟨x, hl⟩ := Option.isSome_iff_exists.mp hsome
    have hxp := hun x hl
    have hev : ((hashLookup s.nucleus o).isSome && cacheIsFull s.nucleus) = true := by
      simp [hsome, cacheIsFull, epoolEmpty, hfull]
    rw [hev, hsome] at hset
    cases hq : s.larcQ with
    | nil =>
      have hrun : larcMapApi s o w result = .ok (s, { result with op := .fail }) := by
        simp [larcMapApi, hset, larcTransactionIsLegal, hq]
      rw [hrun]
      exact .refused hl hxp hfull hg hq
    | cons v q =>
      obtain ⟨s1, hrun1, hs1⟩ := larcEvict_spec h0 (p := .cache) hq { result with op := .new }
      obtain ⟨hva, _, hvp⟩ := h0.head (p := .cache) hq
      have hxv : x ≠ v := by
        rintro rfl
        rw [hvp] at hxp
        cases hxp
      have hl1 : hashLookup s1.nucleus o = some x := by
        have hne : hashLookup (s.aim g).nucleus o ≠ some v := fun hx =>
          hxv (Option.some.inj (hl.symm.trans hx))
        have := hs1.rewrites.hashLookup h0.wf o
        rw [if_neg hne] at this
        exact this.trans hl
      have hxa := (hs1.inv.wf.hashLookup_eq_some.mp hl1).1
      obtain ⟨s2, hrun2, hs2⟩ := larcRemoveEntry_spec hs1.inv hxa
      have habs2 := hs1.inv.wf.absent_of_freed hl1 hs2.rewrites rfl
      have hfree : (s2.nucleus.pool .cache).free = [v.index] := by
        have e1 := hs2.rewrites.free_of_ne .cache (by rw [hxp]; decide)
        have e2 := hs1.rewrites.free
        rw [hvp] at e2
        have e3 : ((s.aim g).nucleus.pool .cache).free = [] := hfull
        rw [e1, e2, e3]
      obtain ⟨s3, hrun3, hs3⟩ := larcTransactionCommit_take result (Or.inr ⟨rfl, _, hrun1, rfl⟩)
        (Or.inr ⟨rfl, x, hl1, hrun2⟩) hs2.inv habs2 hfree
      have hrun : larcMapApi s o w result = .ok
          ({ s3 with nucleus := dirtyWork s3.nucleus.incIos o w },
            { s.evicted result (some v) with op := .replace, cblock := v.index }) := by
        simp only [larcMapApi, hset, ok_bind, larcTransactionIsLegal, hq, if_true,
          queueLength_eq, List.length_cons, gt_iff_lt, Nat.zero_lt_succ, decide_true, hrun3,
          pure_eq_ok]
        rfl
      have hforget : s1.FreesAny (hashLookup s.nucleus o) s2 := hl ▸ .some hxa hs2
      rw [hrun]
      exact .take hun hg (Or.inr ⟨v, q, rfl, hfull, hq, hsome⟩) (.some hva hs1) hforget hfree
        (hs3.finish rfl rfl rfl w) rfl
  · have hev : ((hashLookup s.nucleus o).isSome && cacheIsFull s.nucleus) = false := by
      obtain ⟨a, l, hf⟩ := List.exists_cons_of_ne_nil hfull
      simp [cacheIsFull, epoolEmpty, hf]
    rw [hev] at hset
    obtain ⟨cb, rest, hf⟩ := List.exists_cons_of_ne_nil hfull
    obtain ⟨s2, hfo, hforget⟩ : ∃ s2, (((hashLookup s.nucleus o).isSome = false ∧ s2 = s.aim g) ∨
        ((hashLookup s.nucleus o).isSome = true ∧ ∃ r, hashLookup (s.aim g).nucleus o = some r ∧
          larcRemoveEntry (s.aim g) r = .ok s2)) ∧
        (s.aim g).FreesAny (hashLookup s.nucleus o) s2 := by
      cases hl : hashLookup s.nucleus o with
      | none => exact ⟨_, Or.inl ⟨rfl, rfl⟩, .none⟩
      | some x =>
        have hxa := (h.wf.hashLookup_eq_some.mp hl).1
        obtain ⟨s2, hrun2, hs2⟩ := larcRemoveEntry_spec h0 (r := x) hxa
        exact ⟨s2, Or.inr ⟨rfl, x, hl, hrun2⟩, .some hxa hs2⟩
    have habs2 := hforget.absent_lookup h0 rfl
    have hfree := (hforget.other h0 fun r hr => by rw [hun r hr]; decide).2.1.trans hf
    obtain ⟨s3, hrun3, hs3⟩ := larcTransactionCommit_take result (Or.inl ⟨rfl, rfl, rfl⟩) hfo
      (hforget.inv h0) habs2 hfree
    have hrun : larcMapApi s o w result = .ok
        ({ s3 with nucleus := dirtyWork s3.nucleus.incIos o w },
          { result with op := .new, cblock := cb }) := by
      simp only [larcMapApi, hset, ok_bind, larcTransactionIsLegal, Bool.false_eq_true, if_false,
        if_true, hrun3, pure_eq_ok]
    rw [hrun]
    exact .take hun hg (Or.inl ⟨rfl, hfull⟩) .none hforget hfree (hs3.finish rfl rfl rfl w) rfl

/-- The commit of a request that only leaves a ghost. -/
theorem larcTransactionCommit_filter (s : LarcPolicy) (o : Oblock) (g : Nat) (trim : Bool)
    (result : CacheNucleusResult) :
    larcTransactionCommit s { larcTransactionInit s o with
        gSize := g, dest := .g, gEvict := trim } result = (do
      let (nucleus, le) ← insertInMeta s.nucleus o
      let larc := { s.aim g with nucleus := nucleus.incFilters, larcG := queuePush s.larcG le }
      let result := { result with op := .filter }
      if trim then do
        let (larc, _) ← larcEvict larc larc.larcG result
        return (larc, result)
      else return (larc, result)) := by
  simp [larcTransactionCommit, larcTransactionInit, aim]

/-- A block that is neither cached nor a ghost leaves a ghost in front of a full cache. -/
theorem larcMapApi_filter (h : s.Inv) (habs : s.nucleus.Absent o)
    (hfull : (s.nucleus.pool .cache).free = []) {g : Nat} (hg : larcIncreaseGSize s = .ok g)
    (w : Bool) (result : CacheNucleusResult) :
    s.MapCase o w result (larcMapApi s o w result) := by
  have h0 := h.aim g
  have hl := h.wf.hashLookup_eq_none.mpr habs
  have hset : larcTransactionSet s (larcTransactionInit s o) = .ok { larcTransactionInit s o with
      gSize := g, dest := .g, gEvict := decide (s.larcG.length + 1 > g) } := by
    simp [larcTransactionSet, larcTransactionInit, hl, inCache, inMeta, hg, cacheIsFull,
      epoolEmpty, hfull]
  have hleg : larcTransactionIsLegal s { larcTransactionInit s o with
      gSize := g, dest := .g, gEvict := decide (s.larcG.length + 1 > g) } = true := by
    simp [larcTransactionIsLegal, larcTransactionInit]
  simp only [larcMapApi, hset, ok_bind, hleg, if_true, larcTransactionCommit_filter]
  cases hf : (s.nucleus.pool .metadata).free with
  | nil =>
    have hfail : insertInMeta s.nucleus o = .error .assertion :=
      CacheNucleus.allocPoolEntry_nil hf
    rw [hfail]
    exact .stuck (Or.inr (Or.inr hf))
  | cons i rest =>
    obtain ⟨cn, hrun1, hs1⟩ := larcGhost_spec h0 hf habs
    have hrun1' : insertInMeta s.nucleus o = .ok (cn, ⟨.metadata, i⟩) := hrun1
    let s1 : LarcPolicy :=
      { s.aim g with nucleus := cn.incFilters, larcG := queuePush s.larcG ⟨.metadata, i⟩ }
    have hs1' : (s.aim g).Step ⟨.metadata, i⟩ _ rest _ s1 := hs1
    -- the new ghost keeps the queue from being empty
    obtain ⟨v, q, hq⟩ : ∃ v q, s.larcG ++ [⟨.metadata, i⟩] = v :: q := by
      cases s.larcG with
      | nil => exact ⟨_, _, rfl⟩
      | cons v q => exact ⟨v, _, rfl⟩
    have hq1 : s1.queue .metadata = v :: q := hq
    obtain ⟨s2, hrun2, hs2⟩ := larcEvict_spec hs1'.inv hq1 { result with op := .filter }
    have hva := (hs1'.inv.head hq1).1
    obtain ⟨s3, hrun3, htrim⟩ : ∃ s3, (if decide (s.larcG.length + 1 > g) = true then do
          let (larc, _) ← larcEvict s1 s1.larcG { result with op := .filter }
          return (larc, { result with op := .filter })
        else return (s1, { result with op := .filter }) :
          Exec (LarcPolicy × CacheNucleusResult)) = .ok (s3, { result with op := .filter }) ∧
        s1.FreesAny (if s.larcG.length + 1 > g then
          queuePeek (s.larcG ++ [⟨.metadata, i⟩]) else none) s3 := by
      by_cases htrim : s.larcG.length + 1 > g
      · rw [if_pos (decide_eq_true htrim), if_pos htrim, hq, queuePeek_cons]
        exact ⟨s2, by rw [show s1.larcG = s1.queue .metadata from rfl, hrun2]; rfl,
          .some hva hs2⟩
      · rw [if_neg (by simpa using htrim), if_neg htrim]
        exact ⟨s1, rfl, .none⟩
    -- the cache is untouched, so `o` names a ghost or nothing and there is no dirty work
    have htrimp : ∀ x ∈ (if s.larcG.length + 1 > g then
        queuePeek (s.larcG ++ [⟨.metadata, i⟩]) else none), x.pool ≠ .cache := by
      intro x hx
      split at hx
      · have hmem : x ∈ s1.queue .metadata := List.mem_of_mem_head? hx
        rw [((hs1'.inv.queued.mem .metadata x).mp hmem).2.2]
        decide
      · cases hx
    have hcache := (htrim.other hs1'.inv htrimp).2.2
    have hghost : ∀ x, hashLookup s3.nucleus o = some x → x.pool = .metadata := by
      intro x hx
      obtain ⟨hxa, hxo⟩ := (htrim.inv hs1'.inv).wf.hashLookup_eq_some.mp hx
      obtain ⟨xp, xi⟩ := x
      cases xp with
      | metadata => rfl
      | cache =>
        rw [hcache xi, hs1'.rewrites.entry_of_ne (by simp)] at hxa hxo
        exact absurd hxo (habs _ hxa)
    have hdirty : dirtyWork s3.nucleus.incIos o w = s3.nucleus.incIos := by
      cases hx : hashLookup s3.nucleus.incIos o with
      | none => exact CacheNucleus.dirtyWork_of_none hx w
      | some x => exact CacheNucleus.dirtyWork_of_meta hx (hghost x hx) w
    simp only [hrun1', ok_bind]
    have hrun : (do
        let x ← (if decide (s.larcG.length + 1 > g) = true then do
            let (larc, _) ← larcEvict s1 s1.larcG { result with op := .filter }
            return (larc, { result with op := .filter })
          else return (s1, { result with op := .filter }) : Exec (LarcPolicy × CacheNucleusResult))
        return ({ x.1 with nucleus := dirtyWork x.1.nucleus.incIos o w }, x.2)) =
        (.ok ({ s3 with nucleus := s3.nucleus.incIos }, { result with op := .filter }) :
          Exec (LarcPolicy × CacheNucleusResult)) := by
      rw [hrun3, ok_bind, hdirty]
      rfl
    exact hrun ▸ .filter habs hfull hg hf hs1 htrim

theorem larcMapApi_case (h : s.Inv) (o : Oblock) (w : Bool) (result : CacheNucleusResult) :
    s.MapCase o w result (larcMapApi s o w result) := by
  by_cases hc : ∃ r, hashLookup s.nucleus o = some r ∧ r.pool = .cache
  · obtain ⟨r, hl, hp⟩ := hc
    cases hg : larcDecreaseGSize s with
    | ok g => exact larcMapApi_hit h hl hp hg w result
    | error f =>
      have hrun : larcMapApi s o w result = .error f := by
        simp [larcMapApi, larcTransactionSet, larcTransactionInit, hl, inCache, hp, hg]
      rw [hrun]
      exact .stuck (Or.inl ⟨⟨r, hl, hp⟩, hg⟩)
  · have hun : ∀ r ∈ hashLookup s.nucleus o, r.pool = .metadata := by
      intro r hr
      cases hp : r.pool with
      | metadata => rfl
      | cache => exact absurd ⟨r, hr, hp⟩ hc
    cases hg : larcIncreaseGSize s with
    | ok g =>
      by_cases hin : (hashLookup s.nucleus o).isSome ∨ (s.nucleus.pool .cache).free ≠ []
      · exact larcMapApi_take h hun hg hin w result
      · have hnone : hashLookup s.nucleus o = none := by
          cases hl : hashLookup s.nucleus o with
          | none => rfl
          | some r => exact absurd (Or.inl (by rw [hl]; rfl)) hin
        have hfull : (s.nucleus.pool .cache).free = [] := by
          by_contra hx
          exact hin (Or.inr hx)
        exact larcMapApi_filter h (h.wf.hashLookup_eq_none.mp hnone) hfull hg w result
    | error f =>
      have hun' : inCache (hashLookup s.nucleus o) = false := by
        cases hl : hashLookup s.nucleus o with
        | none => rfl
        | some r => simp [inCache, hun r hl]
      have hrun : larcMapApi s o w result = .error f := by
        simp [larcMapApi, larcTransactionSet, larcTransactionInit, hun', hg]
      rw [hrun]
      exact .stuck (Or.inr (Or.inl ⟨hun, hg⟩))

end Fomo
