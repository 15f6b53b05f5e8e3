import Fomo.Include.Epool
import Mathlib.Logic.Equiv.Basic

/-!
# The cache nucleus (`cache_nucleus_struct.h`, `cache_nucleus_internal.h`, `tools/queue.h`)

The data part of `struct cache_nucleus` and the functions every policy is built from.
A pointer to an entry is the pool it lies in and its index there, so `in_pool` reads
the pool off. A queue lists its items from head (least recent) to tail; an item's
`parent_queue` is the queue that lists it. The hash table is the list of the entries
chained in it, whatever their buckets; a lookup compares the entries' own oblocks.
-/
namespace Fomo

inductive PoolId
  | cache
  | metadata
  deriving DecidableEq, Repr

/-- `struct entry *`, never `NULL`. -/
structure EntryRef where
  pool : PoolId
  index : Nat
  deriving DecidableEq, Repr

/-! ## Queues -/

abbrev Queue := List EntryRef

def queuePush (q : Queue) (r : EntryRef) : Queue := q ++ [r]

/-- Does nothing when the item is in no queue. -/
def queueRemove (q : Queue) (r : EntryRef) : Queue := q.erase r

def queuePeek (q : Queue) : Option EntryRef := q.head?

def queueLength (q : Queue) : Nat := q.length

def queuePop (q : Queue) : Option (EntryRef × Queue) :=
  match queuePeek q with
  | none => none
  | some r => some (r, queueRemove q r)

/-- The two items, both in the queue, exchange their places. -/
def queueSwap (q : Queue) (itemOld itemNew : EntryRef) : Queue := q.map (Equiv.swap itemOld itemNew)

@[simp] theorem queuePush_eq (q : Queue) (r : EntryRef) : queuePush q r = q ++ [r] := rfl
@[simp] theorem queueRemove_eq (q : Queue) (r : EntryRef) : queueRemove q r = q.erase r := rfl
@[simp] theorem queuePeek_nil : queuePeek [] = none := rfl
@[simp] theorem queuePeek_cons (r : EntryRef) (q : Queue) : queuePeek (r :: q) = some r := rfl
@[simp] theorem queueLength_eq (q : Queue) : queueLength q = q.length := rfl
@[simp] theorem queuePop_nil : queuePop [] = none := rfl
@[simp] theorem queuePop_cons (r : EntryRef) (q : Queue) : queuePop (r :: q) = some (r, q) := by
  simp [queuePop]

/-! ## The writeback tracker (`writeback_tracker.h`) -/

/-- `struct writeback_tracker`. -/
structure WritebackTracker where
  clean : Queue := []
  dirty : Queue := []
  metadata : Queue := []

/-- `queue_remove(&e->wb_list)`: the entry leaves the queue that lists it, if any. -/
def WritebackTracker.remove (wb : WritebackTracker) (r : EntryRef) : WritebackTracker where
  clean := queueRemove wb.clean r
  dirty := queueRemove wb.dirty r
  metadata := queueRemove wb.metadata r

/-! ## The structure -/

/-- `struct policy_stats`. Its counters are unsigned and wrap. -/
structure PolicyStats where
  ios : Nat := 0
  hits : Nat := 0
  misses : Nat := 0
  filters : Nat := 0
  promotions : Nat := 0
  demotions : Nat := 0
  privateStat : Nat := 0
  deriving DecidableEq, Repr

/-- `struct cache_nucleus` without its function pointers. `pool .cache` is its
`cache_pool`, `pool .metadata` its `meta_pool`. `wb` is the tracker in whose queues the
entries of these pools are linked through their `wb_list`; the caller owns its heads. -/
structure CacheNucleus where
  metaSize : Nat := 0
  cacheSize : Nat := 0
  pool : PoolId → EntryPool := fun _ => {}
  stats : PolicyStats := {}
  ht : List EntryRef := []
  time : Nat := 0
  wb : WritebackTracker := {}

namespace CacheNucleus

def entry (cn : CacheNucleus) (r : EntryRef) : Entry := (cn.pool r.pool).entries r.index

def setPool (cn : CacheNucleus) (p : PoolId) (ep : EntryPool) : CacheNucleus :=
  { cn with pool := Function.update cn.pool p ep }

/-- Write through a pointer to an entry. -/
def setEntry (cn : CacheNucleus) (r : EntryRef) (e : Entry) : CacheNucleus :=
  cn.setPool r.pool ((cn.pool r.pool).set r.index e)

def incIos (cn : CacheNucleus) : CacheNucleus :=
  { cn with stats := { cn.stats with ios := u32 (cn.stats.ios + 1) } }

def incHits (cn : CacheNucleus) : CacheNucleus :=
  { cn with stats := { cn.stats with hits := u32 (cn.stats.hits + 1) } }

def incMisses (cn : CacheNucleus) : CacheNucleus :=
  { cn with stats := { cn.stats with misses := u32 (cn.stats.misses + 1) } }

def incFilters (cn : CacheNucleus) : CacheNucleus :=
  { cn with stats := { cn.stats with filters := u32 (cn.stats.filters + 1) } }

def incPromotions (cn : CacheNucleus) : CacheNucleus :=
  { cn with stats := { cn.stats with promotions := u32 (cn.stats.promotions + 1) } }

def incDemotions (cn : CacheNucleus) : CacheNucleus :=
  { cn with stats := { cn.stats with demotions := u32 (cn.stats.demotions + 1) } }

end CacheNucleus

/-! ## The hash table (`tools/hashtable.h`) -/

def hashInsert (cn : CacheNucleus) (r : EntryRef) : CacheNucleus := { cn with ht := r :: cn.ht }

def hashLookup (cn : CacheNucleus) (oblock : Oblock) : Option EntryRef :=
  cn.ht.find? fun r => decide ((cn.entry r).oblock = oblock)

/-- Unchaining an entry that is in no bucket writes through a null `pprev`. -/
def hashRemove (cn : CacheNucleus) (r : EntryRef) : Exec CacheNucleus :=
  if r ∈ cn.ht then .ok { cn with ht := cn.ht.erase r } else .error .nullPointer

/-! ## Common internal functions -/

def allocPoolEntry (cn : CacheNucleus) (p : PoolId) (oblock : Oblock) :
    Exec (CacheNucleus × EntryRef) :=
  match allocEntry (cn.pool p) with
  | none => .error .assertion
  | some (ep, i) =>
    let cn := cn.setPool p (ep.set i { ep.entries i with oblock := oblock, dirty := false })
    .ok (hashInsert cn ⟨p, i⟩, ⟨p, i⟩)

def allocPoolEntryAt (cn : CacheNucleus) (p : PoolId) (oblock : Oblock) (cblock : Cblock) :
    Exec (CacheNucleus × EntryRef) := do
  let (ep, i) ← allocParticularEntry (cn.pool p) cblock
  let cn := cn.setPool p (ep.set i { ep.entries i with oblock := oblock, dirty := false })
  return (hashInsert cn ⟨p, i⟩, ⟨p, i⟩)

def insertInMeta (cn : CacheNucleus) (oblock : Oblock) : Exec (CacheNucleus × EntryRef) :=
  allocPoolEntry cn .metadata oblock

/-- `in_pool(&bp->meta_pool, e)`, false for `NULL`. -/
def inMeta (e : Option EntryRef) : Bool := e.any fun r => r.pool = .metadata

def metaIsFull (cn : CacheNucleus) : Bool := epoolEmpty (cn.pool .metadata)

def insertInCache (cn : CacheNucleus) (oblock : Oblock) (result : CacheNucleusResult) :
    Exec (CacheNucleus × EntryRef × CacheNucleusResult) := do
  let (cn, r) ← allocPoolEntry cn .cache oblock
  return (cn, r, { result with cblock := inferCblock (cn.pool .cache) r.index })

def insertInCacheAt (cn : CacheNucleus) (oblock : Oblock) (cblock : Cblock) :
    Exec (CacheNucleus × EntryRef) :=
  allocPoolEntryAt cn .cache oblock cblock

def inCache (e : Option EntryRef) : Bool := e.any fun r => r.pool = .cache

def cacheIsFull (cn : CacheNucleus) : Bool := epoolEmpty (cn.pool .cache)

def wbRemove (cn : CacheNucleus) (r : EntryRef) : CacheNucleus := { cn with wb := cn.wb.remove r }

def cacheNucleusRemove (cn : CacheNucleus) (r : EntryRef) : Exec CacheNucleus := do
  let cn := wbRemove cn r
  let cn ← hashRemove cn r
  let ep ← freeEntry (cn.pool r.pool) r.index
  return cn.setPool r.pool ep

/-- `infer_cblock(&bp->cache_pool, e)`. -/
def inferCacheCblock (cn : CacheNucleus) (r : EntryRef) : Exec Cblock := do
  logAssert (r.pool = .cache)
  return inferCblock (cn.pool .cache) r.index

/-- `migrating_entry(&bp->cache_pool, e)`. -/
def migratingCacheEntry (cn : CacheNucleus) (r : EntryRef) : Exec CacheNucleus := do
  logAssert (r.pool = .cache)
  let ep ← migratingEntry (cn.pool .cache) r.index
  return cn.setPool .cache ep

/-- `migrated_entry(&bp->cache_pool, e)`. A `NULL` entry is in no pool. -/
def migratedCacheEntry (cn : CacheNucleus) (e : Option EntryRef) :
    Exec (CacheNucleus × EntryRef) :=
  match e with
  | none => .error .assertion
  | some r => do
    logAssert (r.pool = .cache)
    let ep ← migratedEntry (cn.pool .cache) r.index
    return (cn.setPool .cache ep, r)

/-- The "dirty work" at the end of every policy's map: a cached block is dirty once
it has been written. -/
def dirtyWork (cn : CacheNucleus) (oblock : Oblock) (write : Bool) : CacheNucleus :=
  match hashLookup cn oblock with
  | none => cn
  | some r =>
    if r.pool = .cache then
      cn.setEntry r { cn.entry r with dirty := (cn.entry r).dirty || write }
    else cn

/-! ## Default API functions -/

def defaultCacheLookup (cn : CacheNucleus) (oblock : Oblock) : Option EntryRef :=
  let e := hashLookup cn oblock
  if inCache e then e else none

def defaultMetaLookup (cn : CacheNucleus) (oblock : Oblock) : Option EntryRef :=
  let e := hashLookup cn oblock
  if inMeta e then e else none

def defaultCblockLookup (cn : CacheNucleus) (cblock : Cblock) : Option EntryRef :=
  (epoolAt (cn.pool .cache) cblock).map fun i => ⟨.cache, i⟩

def defaultRemap (cn : CacheNucleus) (currentOblock newOblock : Oblock) : Exec CacheNucleus := do
  let r ← deref (hashLookup cn currentOblock)
  let cn ← hashRemove cn r
  return hashInsert (cn.setEntry r { cn.entry r with oblock := newOblock }) r

def defaultGetStats (cn : CacheNucleus) (stats : PolicyStats) : PolicyStats where
  ios := u32 (stats.ios + cn.stats.ios)
  hits := u32 (stats.hits + cn.stats.hits)
  misses := u32 (stats.misses + cn.stats.misses)
  filters := u32 (stats.filters + cn.stats.filters)
  promotions := u32 (stats.promotions + cn.stats.promotions)
  demotions := u32 (stats.demotions + cn.stats.demotions)
  privateStat := u32 (stats.privateStat + cn.stats.privateStat)

def defaultSetTime (cn : CacheNucleus) (time : Nat) : CacheNucleus := { cn with time := time }

def defaultResidency (cn : CacheNucleus) : Nat := (cn.pool .cache).nrAllocated

def defaultCacheIsFull (cn : CacheNucleus) : Bool := cacheIsFull cn

def defaultInferCblock (cn : CacheNucleus) (r : EntryRef) : Exec Cblock := inferCacheCblock cn r

/-! ## Initialisation -/

/-- `policy_init`; the allocation of the hash table is taken to succeed. `epool_init` leaves
every entry in no writeback queue. -/
def policyInit (cn : CacheNucleus) (cacheSize metaSize : Nat) : Exec CacheNucleus := do
  let cachePool ← epoolInit (cn.pool .cache) 0
  let metaPool ← epoolInit (cn.pool .metadata) 0
  return { (cn.setPool .cache cachePool).setPool .metadata metaPool with
    stats := {}, ht := [], cacheSize := cacheSize, metaSize := metaSize, time := 0, wb := {} }

/-! ## Reading back an updated nucleus -/

namespace CacheNucleus

variable {cn cn' : CacheNucleus} {p q : PoolId} {ep : EntryPool} {r : EntryRef} {e : Entry}

@[simp] theorem setPool_pool : (cn.setPool p ep).pool = Function.update cn.pool p ep := rfl
@[simp] theorem setPool_ht : (cn.setPool p ep).ht = cn.ht := rfl
@[simp] theorem setPool_stats : (cn.setPool p ep).stats = cn.stats := rfl
@[simp] theorem setPool_time : (cn.setPool p ep).time = cn.time := rfl
@[simp] theorem setPool_cacheSize : (cn.setPool p ep).cacheSize = cn.cacheSize := rfl
@[simp] theorem setPool_metaSize : (cn.setPool p ep).metaSize = cn.metaSize := rfl

@[simp] theorem setEntry_ht : (cn.setEntry r e).ht = cn.ht := rfl

theorem entry_setPool (he : ep.entries = Function.update (cn.pool r.pool).entries r.index e) :
    (cn.setPool r.pool ep).entry = Function.update cn.entry r e := by
  funext x
  obtain ⟨xp, xi⟩ := x
  obtain ⟨rp, ri⟩ := r
  by_cases hp : xp = rp
  · subst hp
    by_cases hi : xi = ri
    · subst hi; simp [entry, he]
    · simp [entry, he, hi]
  · simp [entry, hp]

theorem entry_setEntry : (cn.setEntry r e).entry = Function.update cn.entry r e :=
  entry_setPool rfl

end CacheNucleus

end Fomo
