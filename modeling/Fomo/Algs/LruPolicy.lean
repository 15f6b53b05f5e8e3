import Fomo.Include.Api

/-!
# LRU (`algs/lru/lru_policy.c`, `algs/lru/lru_policy_struct.h`)

The queue lists the settled entries of the cache, least recent first. An entry joins
it when its migration completes.
-/
namespace Fomo

/-- `struct lru_policy`. -/
structure LruPolicy where
  nucleus : CacheNucleus
  lruQ : Queue

structure LruTransaction where
  oblock : Oblock
  evict : Bool
  hit : Bool

def lruTransactionInit (oblock : Oblock) : LruTransaction where
  oblock := oblock
  evict := false
  hit := false

def lruTransactionSet (lru : LruPolicy) (lt : LruTransaction) : LruTransaction :=
  if (hashLookup lru.nucleus lt.oblock).isSome then { lt with hit := true }
  else { lt with evict := cacheIsFull lru.nucleus }

def lruTransactionIsLegal (lru : LruPolicy) (lt : LruTransaction) : Bool :=
  if lt.evict then decide (queueLength lru.lruQ > 0) else true

def lruRemoveEntry (lru : LruPolicy) (e : EntryRef) : Exec LruPolicy := do
  let lru :=
    if (lru.nucleus.entry e).migrating then lru
    else { lru with lruQ := queueRemove lru.lruQ e, nucleus := lru.nucleus.incDemotions }
  let nucleus ← cacheNucleusRemove lru.nucleus e
  return { lru with nucleus := nucleus }

def lruEvict (lru : LruPolicy) (result : CacheNucleusResult) :
    Exec (LruPolicy × CacheNucleusResult) := do
  let (demoted, lruQ) ← deref (queuePop lru.lruQ)
  let lru := { lru with lruQ := lruQ }
  let result := { result with
    oldOblock := (lru.nucleus.entry demoted).oblock
    dirtyEviction := (lru.nucleus.entry demoted).dirty }
  let lru ← lruRemoveEntry lru demoted
  return (lru, result)

def lruInsert (lru : LruPolicy) (oblock : Oblock) (result : CacheNucleusResult) :
    Exec (LruPolicy × CacheNucleusResult) := do
  let (nucleus, e, result) ← insertInCache lru.nucleus oblock result
  let nucleus ← migratingCacheEntry nucleus e
  return ({ lru with nucleus := nucleus }, result)

def lruHit (lru : LruPolicy) (oblock : Oblock) (result : CacheNucleusResult) :
    Exec (LruPolicy × CacheNucleusResult) := do
  let e ← deref (hashLookup lru.nucleus oblock)
  let cblock ← inferCacheCblock lru.nucleus e
  let result := { result with cblock := cblock }
  if (lru.nucleus.entry e).migrating then return (lru, result)
  else return ({ lru with lruQ := queuePush (queueRemove lru.lruQ e) e }, result)

def lruTransactionCommit (lru : LruPolicy) (lt : LruTransaction) (result : CacheNucleusResult) :
    Exec (LruPolicy × CacheNucleusResult) :=
  if lt.hit then do
    let (lru, result) ← lruHit lru lt.oblock { result with op := .hit }
    return ({ lru with nucleus := lru.nucleus.incHits }, result)
  else do
    let (lru, result) ←
      if lt.evict then lruEvict lru { result with op := .replace }
      else .ok (lru, { result with op := .new })
    let (lru, result) ← lruInsert lru lt.oblock result
    return ({ lru with nucleus := lru.nucleus.incMisses }, result)

def lruRemoveApi (lru : LruPolicy) (oblock : Oblock) (_removeToHistory : Bool) :
    Exec LruPolicy :=
  match hashLookup lru.nucleus oblock with
  | none => .error .assertion
  | some e => lruRemoveEntry lru e

def lruInsertApi (lru : LruPolicy) (oblock : Oblock) (cblock : Cblock) : Exec LruPolicy := do
  let (nucleus, e) ← insertInCacheAt lru.nucleus oblock cblock
  return { lru with nucleus := nucleus, lruQ := queuePush lru.lruQ e }

def lruMigratedApi (lru : LruPolicy) (oblock : Oblock) : Exec LruPolicy := do
  let (nucleus, e) ← migratedCacheEntry lru.nucleus (hashLookup lru.nucleus oblock)
  return { lru with lruQ := queuePush lru.lruQ e, nucleus := nucleus.incPromotions }

def lruMapApi (lru : LruPolicy) (oblock : Oblock) (write : Bool) (result : CacheNucleusResult) :
    Exec (LruPolicy × CacheNucleusResult) :=
  let lt := lruTransactionSet lru (lruTransactionInit oblock)
  if lruTransactionIsLegal lru lt then do
    let (lru, result) ← lruTransactionCommit lru lt result
    return ({ lru with nucleus := dirtyWork lru.nucleus.incIos oblock write }, result)
  else return (lru, { result with op := .fail })

def lruNextVictimApi (lru : LruPolicy) (oblock : Oblock) :
    Exec (LruPolicy × CacheNucleusOperation × Option EntryRef) :=
  let lt := lruTransactionSet lru (lruTransactionInit oblock)
  if lruTransactionIsLegal lru lt then
    if lt.hit then .ok (lru, .hit, none)
    else if lt.evict then .ok (lru, .replace, queuePeek lru.lruQ)
    else .ok (lru, .new, none)
  else .ok (lru, .fail, none)

/-- The function table `lru_init` installs. -/
def lruApi : Policy LruPolicy where
  nucleus := LruPolicy.nucleus
  entryAt := fun lru => lru.nucleus.entry
  owner := LruPolicy.nucleus
  setOwner := fun lru nucleus => { lru with nucleus := nucleus }
  map := lruMapApi
  remove := lruRemoveApi
  insert := lruInsertApi
  migrated := lruMigratedApi
  cacheLookup := fun lru => defaultCacheLookup lru.nucleus
  metaLookup := fun lru => defaultMetaLookup lru.nucleus
  cblockLookup := fun lru => defaultCblockLookup lru.nucleus
  remap := fun lru currentOblock newOblock => do
    let nucleus ← defaultRemap lru.nucleus currentOblock newOblock
    return { lru with nucleus := nucleus }
  getStats := fun lru => defaultGetStats lru.nucleus
  setTime := fun lru time => { lru with nucleus := defaultSetTime lru.nucleus time }
  residency := fun lru => defaultResidency lru.nucleus
  cacheIsFull := fun lru => defaultCacheIsFull lru.nucleus
  inferCblock := fun lru => defaultInferCblock lru.nucleus
  nextVictim := lruNextVictimApi

def lruInit (cacheSize : UInt32) : Exec LruPolicy := do
  let nucleus := ({} : CacheNucleus).setPool .cache (epoolCreate {} cacheSize.toNat)
  let nucleus ← policyInit nucleus cacheSize.toNat 0
  return { nucleus := nucleus, lruQ := [] }

def lruCreate (cacheSize _metaSize : UInt32) : Exec LruPolicy := lruInit cacheSize

end Fomo
