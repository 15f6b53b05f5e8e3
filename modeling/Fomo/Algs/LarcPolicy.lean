import Fomo.Include.Api

/-!
# LARC (`algs/larc/larc_policy.c`, `algs/larc/larc_policy_struct.h`)

A queue of the settled cached blocks and a queue of ghosts. A block enters a full cache
only when it is a ghost; `g_size`, the number of ghosts to keep, follows the requests.
-/
namespace Fomo

/-- `enum larc_list`. -/
inductive LarcList
  | q
  | g
  | null
  deriving DecidableEq, Repr

/-- `struct larc_policy`. -/
structure LarcPolicy where
  nucleus : CacheNucleus
  larcQ : Queue
  larcG : Queue
  gSize : Nat

structure LarcTransaction where
  oblock : Oblock
  gSize : Nat
  cHit : Bool
  cEvict : Bool
  gHit : Bool
  gEvict : Bool
  dest : LarcList

def larcTransactionInit (larc : LarcPolicy) (oblock : Oblock) : LarcTransaction where
  oblock := oblock
  gSize := larc.gSize
  cHit := false
  cEvict := false
  gHit := false
  gEvict := false
  dest := .null

def larcIncreaseGSize (larc : LarcPolicy) : Exec Nat := do
  let cSize := larc.nucleus.metaSize
  let gSize := larc.gSize
  let quot ← div32 cSize gSize
  return min (u32 (9 * cSize) / 10) (u32 (gSize + quot))

def larcDecreaseGSize (larc : LarcPolicy) : Exec Nat := do
  let cSize := larc.nucleus.metaSize
  let gSize := larc.gSize
  let tmp ← div32 cSize (sub32 cSize gSize)
  if tmp < gSize then return max (cSize / 10) (gSize - tmp)
  else return cSize / 10

def larcTransactionSet (larc : LarcPolicy) (lt : LarcTransaction) : Exec LarcTransaction := do
  let cn := larc.nucleus
  let e := hashLookup cn lt.oblock
  if inCache e then
    let gSize ← larcDecreaseGSize larc
    return { lt with cHit := true, gSize := gSize, dest := .q }
  else
    let gSize ← larcIncreaseGSize larc
    let lt := { lt with gSize := gSize }
    if inMeta e then return { lt with gHit := true, dest := .q, cEvict := cacheIsFull cn }
    else if !cacheIsFull cn then return { lt with dest := .q }
    else return { lt with
      dest := .g
      gEvict := decide (queueLength larc.larcG + 1 > lt.gSize) }

def larcTransactionIsLegal (larc : LarcPolicy) (lt : LarcTransaction) : Bool :=
  if lt.cEvict then decide (queueLength larc.larcQ > 0) else true

def larcRemoveEntry (larc : LarcPolicy) (le : EntryRef) : Exec LarcPolicy := do
  let larc :=
    if (larc.nucleus.entry le).migrating then larc
    else
      let larc := { larc with
        larcQ := queueRemove larc.larcQ le
        larcG := queueRemove larc.larcG le }
      if inCache (some le) then { larc with nucleus := larc.nucleus.incDemotions } else larc
  let nucleus ← cacheNucleusRemove larc.nucleus le
  return { larc with nucleus := nucleus }

/-- `q` is one of the two queues. A caller that passes `NULL` for the result drops the one
returned. -/
def larcEvict (larc : LarcPolicy) (q : Queue) (result : CacheNucleusResult) :
    Exec (LarcPolicy × CacheNucleusResult) := do
  let le ← deref (queuePeek q)
  let result := { result with
    oldOblock := (larc.nucleus.entry le).oblock
    dirtyEviction := (larc.nucleus.entry le).dirty }
  let larc ← larcRemoveEntry larc le
  return (larc, result)

def larcTransactionCommit (larc : LarcPolicy) (lt : LarcTransaction)
    (result : CacheNucleusResult) : Exec (LarcPolicy × CacheNucleusResult) := do
  let larc := { larc with gSize := lt.gSize }
  let (larc, result) ←
    if lt.cEvict then do
      let (larc, result) ← larcEvict larc larc.larcQ { result with op := .new }
      .ok (larc, { result with op := .replace })
    else .ok (larc, { result with op := .new })
  let larc ←
    if lt.gHit then do
      let le ← deref (hashLookup larc.nucleus lt.oblock)
      larcRemoveEntry larc le
    else .ok larc
  let (larc, result) ←
    if lt.dest = .q then
      if lt.cHit then do
        let le ← deref (hashLookup larc.nucleus lt.oblock)
        let cblock ← inferCacheCblock larc.nucleus le
        let result := { result with cblock := cblock, op := .hit }
        let larc :=
          if (larc.nucleus.entry le).migrating then larc
          else { larc with
            larcQ := queuePush (queueRemove larc.larcQ le) le
            larcG := queueRemove larc.larcG le }
        .ok ({ larc with nucleus := larc.nucleus.incHits }, result)
      else do
        let (nucleus, le, result) ← insertInCache larc.nucleus lt.oblock result
        let nucleus ← migratingCacheEntry nucleus le
        let larc := { larc with nucleus := nucleus.incMisses }
        -- the new entry migrates, so it is not queued here
        if (larc.nucleus.entry le).migrating then .ok (larc, result)
        else .ok ({ larc with larcQ := queuePush larc.larcQ le }, result)
    else do
      let (nucleus, le) ← insertInMeta larc.nucleus lt.oblock
      let larc := { larc with nucleus := nucleus.incFilters, larcG := queuePush larc.larcG le }
      .ok (larc, { result with op := .filter })
  if lt.gEvict then do
    let (larc, _) ← larcEvict larc larc.larcG result
    return (larc, result)
  else return (larc, result)

def larcRemoveApi (larc : LarcPolicy) (oblock : Oblock) (_removeToHistory : Bool) :
    Exec LarcPolicy := do
  let le ← deref (hashLookup larc.nucleus oblock)
  larcRemoveEntry larc le

def larcInsertApi (larc : LarcPolicy) (oblock : Oblock) (cblock : Cblock) : Exec LarcPolicy := do
  let (nucleus, le) ← insertInCacheAt larc.nucleus oblock cblock
  return { larc with nucleus := nucleus, larcQ := queuePush larc.larcQ le }

def larcMigratedApi (larc : LarcPolicy) (oblock : Oblock) : Exec LarcPolicy :=
  match hashLookup larc.nucleus oblock with
  | none => .error .assertion
  | some e => do
    logAssert ((larc.nucleus.entry e).migrating = true)
    let (nucleus, le) ← migratedCacheEntry larc.nucleus (some e)
    return { larc with nucleus := nucleus.incPromotions, larcQ := queuePush larc.larcQ le }

def larcMapApi (larc : LarcPolicy) (oblock : Oblock) (write : Bool)
    (result : CacheNucleusResult) : Exec (LarcPolicy × CacheNucleusResult) := do
  let lt ← larcTransactionSet larc (larcTransactionInit larc oblock)
  if larcTransactionIsLegal larc lt then do
    let (larc, result) ← larcTransactionCommit larc lt result
    return ({ larc with nucleus := dirtyWork larc.nucleus.incIos oblock write }, result)
  else return (larc, { result with op := .fail })

/-- It answers `FILTER` for every request that neither evicts nor hits a ghost. -/
def larcNextVictimApi (larc : LarcPolicy) (oblock : Oblock) :
    Exec (LarcPolicy × CacheNucleusOperation × Option EntryRef) := do
  let lt ← larcTransactionSet larc (larcTransactionInit larc oblock)
  if larcTransactionIsLegal larc lt then
    if lt.cEvict then return (larc, .replace, queuePeek larc.larcQ)
    else if lt.gHit then return (larc, .new, none)
    else return (larc, .filter, none)
  else return (larc, .fail, none)

/-- The function table `larc_init` installs. -/
def larcApi : Policy LarcPolicy where
  nucleus := LarcPolicy.nucleus
  entryAt := fun larc => larc.nucleus.entry
  owner := LarcPolicy.nucleus
  setOwner := fun larc nucleus => { larc with nucleus := nucleus }
  map := larcMapApi
  remove := larcRemoveApi
  insert := larcInsertApi
  migrated := larcMigratedApi
  cacheLookup := fun larc => defaultCacheLookup larc.nucleus
  metaLookup := fun larc => defaultMetaLookup larc.nucleus
  cblockLookup := fun larc => defaultCblockLookup larc.nucleus
  remap := fun larc currentOblock newOblock => do
    let nucleus ← defaultRemap larc.nucleus currentOblock newOblock
    return { larc with nucleus := nucleus }
  getStats := fun larc => defaultGetStats larc.nucleus
  setTime := fun larc time => { larc with nucleus := defaultSetTime larc.nucleus time }
  residency := fun larc => defaultResidency larc.nucleus
  cacheIsFull := fun larc => defaultCacheIsFull larc.nucleus
  inferCblock := fun larc => defaultInferCblock larc.nucleus
  nextVictim := larcNextVictimApi

def larcInit (cacheSize metaSize : UInt32) : Exec LarcPolicy := do
  let nucleus := (({} : CacheNucleus).setPool .cache (epoolCreate {} cacheSize.toNat)).setPool
    .metadata (epoolCreate {} metaSize.toNat)
  let nucleus ← policyInit nucleus cacheSize.toNat metaSize.toNat
  return { nucleus := nucleus, larcQ := [], larcG := [], gSize := metaSize.toNat / 10 }

def larcCreate (cacheSize metaSize : UInt32) : Exec LarcPolicy := larcInit cacheSize metaSize

end Fomo
