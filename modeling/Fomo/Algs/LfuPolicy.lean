import Fomo.Include.Api
import Fomo.Include.Heap

/-!
# LFU (`algs/lfu/lfu_policy.c`, `algs/lfu/lfu_policy_struct.h`)

The heap holds the settled entries of the cache by the number of their accesses, older
accesses first. The `heap_head` of a `struct lfu_entry` is kept with the heap.
-/
namespace Fomo

/-- `struct lfu_policy`. -/
structure LfuPolicy where
  nucleus : CacheNucleus
  heap : Heap EntryRef

/-- An unsigned difference, returned as an `int`. -/
def diff32 (a b : Nat) : Int := Int.bmod (a - b) (2 ^ 32)

def lfuCompare (cn : CacheNucleus) : HeapCompare EntryRef := fun head a b =>
  if (head a).key = (head b).key then diff32 (cn.entry a).time (cn.entry b).time
  else diff32 (head a).key (head b).key

structure LfuTransaction where
  oblock : Oblock
  hit : Bool
  evict : Bool

def lfuTransactionInit (oblock : Oblock) : LfuTransaction where
  oblock := oblock
  hit := false
  evict := false

def lfuTransactionSet (lfu : LfuPolicy) (lt : LfuTransaction) : LfuTransaction :=
  if (hashLookup lfu.nucleus lt.oblock).isSome then { lt with hit := true }
  else if cacheIsFull lfu.nucleus then { lt with evict := true }
  else lt

def lfuTransactionIsLegal (lfu : LfuPolicy) (lt : LfuTransaction) : Bool :=
  if lt.evict then decide (lfu.heap.size > 0) else true

/-- `e->time = cn->time` and the new key of the entry. -/
def LfuPolicy.touch (lfu : LfuPolicy) (e : EntryRef) (key : Nat) : LfuPolicy where
  nucleus := lfu.nucleus.setEntry e { lfu.nucleus.entry e with time := lfu.nucleus.time }
  heap := lfu.heap.setKey e key

def lfuRemoveEntry (lfu : LfuPolicy) (e : EntryRef) : Exec LfuPolicy := do
  let lfu ←
    if (lfu.nucleus.entry e).migrating then .ok lfu
    else do
      let heap ← heapDelete (lfuCompare lfu.nucleus) lfu.heap e
      .ok { nucleus := lfu.nucleus.incDemotions, heap := heap }
  let nucleus ← cacheNucleusRemove lfu.nucleus e
  return { lfu with nucleus := nucleus }

def lfuEvict (lfu : LfuPolicy) (result : CacheNucleusResult) :
    Exec (LfuPolicy × CacheNucleusResult) := do
  let demoted ← deref (heapMin lfu.heap)
  let result := { result with
    oldOblock := (lfu.nucleus.entry demoted).oblock
    dirtyEviction := (lfu.nucleus.entry demoted).dirty }
  let lfu ← lfuRemoveEntry lfu demoted
  return (lfu, { result with op := .replace })

/-- The heap is restored around a settled entry whose key went up. -/
def lfuHeapify (lfu : LfuPolicy) (e : EntryRef) : Exec LfuPolicy :=
  if (lfu.nucleus.entry e).migrating then .ok lfu
  else do
    let heap ← heapify (lfuCompare lfu.nucleus) lfu.heap (lfu.heap.head e).index
    return { lfu with heap := heap }

def lfuHit (lfu : LfuPolicy) (oblock : Oblock) (result : CacheNucleusResult) :
    Exec (LfuPolicy × CacheNucleusResult) := do
  let e ← deref (hashLookup lfu.nucleus oblock)
  let cblock ← inferCacheCblock lfu.nucleus e
  let lfu ← lfuHeapify (lfu.touch e (u32 ((lfu.heap.head e).key + 1))) e
  return (lfu, { result with cblock := cblock, op := .hit })

def lfuInsert (lfu : LfuPolicy) (oblock : Oblock) (result : CacheNucleusResult) :
    Exec (LfuPolicy × CacheNucleusResult) := do
  let (nucleus, e, result) ← insertInCache lfu.nucleus oblock result
  let lfu := { lfu with nucleus := nucleus }.touch e 1
  let nucleus ← migratingCacheEntry lfu.nucleus e
  return ({ lfu with nucleus := nucleus }, result)

def lfuTransactionCommit (lfu : LfuPolicy) (lt : LfuTransaction) (result : CacheNucleusResult) :
    Exec (LfuPolicy × CacheNucleusResult) := do
  let result := { result with op := .new }
  let (lfu, result) ← if lt.evict then lfuEvict lfu result else .ok (lfu, result)
  if lt.hit then
    let (lfu, result) ← lfuHit lfu lt.oblock result
    return ({ lfu with nucleus := lfu.nucleus.incHits }, result)
  else
    let (lfu, result) ← lfuInsert lfu lt.oblock result
    return ({ lfu with nucleus := lfu.nucleus.incMisses }, result)

def lfuRemoveApi (lfu : LfuPolicy) (oblock : Oblock) (_removeToHistory : Bool) :
    Exec LfuPolicy := do
  let e ← deref (hashLookup lfu.nucleus oblock)
  lfuRemoveEntry lfu e

def lfuInsertApi (lfu : LfuPolicy) (oblock : Oblock) (cblock : Cblock) : Exec LfuPolicy := do
  let (nucleus, e) ← insertInCacheAt lfu.nucleus oblock cblock
  let lfu := { lfu with nucleus := nucleus }.touch e 1
  let heap ← heapInsert (lfuCompare lfu.nucleus) lfu.heap e 1
  return { lfu with heap := heap }

def lfuMigratedApi (lfu : LfuPolicy) (oblock : Oblock) : Exec LfuPolicy := do
  let (nucleus, e) ← migratedCacheEntry lfu.nucleus (hashLookup lfu.nucleus oblock)
  let heap ← heapInsert (lfuCompare nucleus) lfu.heap e (lfu.heap.head e).key
  return { nucleus := nucleus.incPromotions, heap := heap }

def lfuMapApi (lfu : LfuPolicy) (oblock : Oblock) (write : Bool) (result : CacheNucleusResult) :
    Exec (LfuPolicy × CacheNucleusResult) :=
  let lt := lfuTransactionSet lfu (lfuTransactionInit oblock)
  if lfuTransactionIsLegal lfu lt then do
    let (lfu, result) ← lfuTransactionCommit lfu lt result
    return ({ lfu with nucleus := dirtyWork lfu.nucleus.incIos oblock write }, result)
  else return (lfu, { result with op := .fail })

/-- The flags of the transaction record are not initialised here: `lt` is what they hold. -/
def lfuNextVictimApi (lt : LfuTransaction) (lfu : LfuPolicy) (oblock : Oblock) :
    Exec (LfuPolicy × CacheNucleusOperation × Option EntryRef) :=
  let lt := lfuTransactionSet lfu { lt with oblock := oblock }
  if lfuTransactionIsLegal lfu lt then
    if lt.evict then .ok (lfu, .replace, heapMin lfu.heap)
    else if lt.hit then .ok (lfu, .hit, none)
    else .ok (lfu, .new, none)
  else .ok (lfu, .fail, none)

/-- The function table `lfu_init` installs. -/
def lfuApi (lt : LfuTransaction) : Policy LfuPolicy where
  nucleus := LfuPolicy.nucleus
  entryAt := fun lfu => lfu.nucleus.entry
  owner := LfuPolicy.nucleus
  setOwner := fun lfu nucleus => { lfu with nucleus := nucleus }
  map := lfuMapApi
  remove := lfuRemoveApi
  insert := lfuInsertApi
  migrated := lfuMigratedApi
  cacheLookup := fun lfu => defaultCacheLookup lfu.nucleus
  metaLookup := fun lfu => defaultMetaLookup lfu.nucleus
  cblockLookup := fun lfu => defaultCblockLookup lfu.nucleus
  remap := fun lfu currentOblock newOblock => do
    let nucleus ← defaultRemap lfu.nucleus currentOblock newOblock
    return { lfu with nucleus := nucleus }
  getStats := fun lfu => defaultGetStats lfu.nucleus
  setTime := fun lfu time => { lfu with nucleus := defaultSetTime lfu.nucleus time }
  residency := fun lfu => defaultResidency lfu.nucleus
  cacheIsFull := fun lfu => defaultCacheIsFull lfu.nucleus
  inferCblock := fun lfu => defaultInferCblock lfu.nucleus
  nextVictim := lfuNextVictimApi lt

def lfuInit (cacheSize : UInt32) : Exec LfuPolicy := do
  let nucleus := ({} : CacheNucleus).setPool .cache (epoolCreate {} cacheSize.toNat)
  let heap := heapInit {} cacheSize.toNat
  -- the heap that is built anew is empty
  let heap ← heapSetCompare (lfuCompare nucleus) (2 ^ 32) heap
  let nucleus ← policyInit nucleus cacheSize.toNat 0
  return { nucleus := nucleus, heap := heap }

def lfuCreate (cacheSize _metaSize : UInt32) : Exec LfuPolicy := lfuInit cacheSize

end Fomo
