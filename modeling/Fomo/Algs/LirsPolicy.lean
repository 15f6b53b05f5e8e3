import Fomo.Include.Api

/-!
# LIRS (`algs/lirs/lirs_policy.c`, `algs/lirs/lirs_policy_struct.h`)

The recency stack `S` lists the blocks of low inter-reference recency (LIR), and above the
oldest of them those of high recency (HIR), cached or ghosts. `R` lists the HIR entries of `S`,
`Q` the cached HIR entries in the order of their eviction, `G` the ghosts.
-/
namespace Fomo

/-- `struct lirs_policy`, with the `is_HIR` field of every `struct lirs_entry`. -/
structure LirsPolicy where
  nucleus : CacheNucleus
  q : Queue
  s : Queue
  r : Queue
  g : Queue
  hirLimit : Nat
  lirCount : Nat
  sLen : Nat
  sMaxlen : Nat
  lastOblock : Oblock
  isHIR : EntryRef → Bool

/-- The queue flags `LIRS_G_FLAG` to `LIRS_S_FLAG`. -/
structure LirsFlags where
  g : Bool := false
  q : Bool := false
  r : Bool := false
  s : Bool := false

structure LirsTransaction where
  oblock : Oblock
  isRepeat : Bool
  hirEvict : Bool
  lirEvict : Bool
  isHIR : Bool
  hirRemove : Bool
  hirAdd : Bool
  lirSLru : Bool

def lirsTransactionInit (oblock : Oblock) : LirsTransaction where
  oblock := oblock
  isRepeat := false
  hirEvict := false
  lirEvict := false
  isHIR := true
  hirRemove := false
  hirAdd := false
  lirSLru := false

/-- The last test asks whether the head of `S`, not the entry of the request, is in `S`. -/
def lirsTransactionSet (lirs : LirsPolicy) (lt : LirsTransaction) : Exec LirsTransaction := do
  let cn := lirs.nucleus
  let e := hashLookup cn lt.oblock
  if lt.oblock = lirs.lastOblock then return { lt with isRepeat := true }
  else
    let lt := { lt with isHIR := (e.map lirs.isHIR).getD lt.isHIR }
    let lt :=
      if !inCache e then
        if cacheIsFull cn then { lt with hirEvict := true }
        else if sub32 cn.cacheSize (defaultResidency cn) > lirs.hirLimit then
          { lt with isHIR := false }
        else lt
      else if lt.isHIR then { lt with hirRemove := true }
      else lt
    let le := queuePeek lirs.s
    let lt := { lt with lirSLru := le.any fun le => decide (lt.oblock = (cn.entry le).oblock) }
    if e.isSome && lt.isHIR then do
      let le ← deref le
      if le ∈ lirs.s then
        return { lt with
          isHIR := false
          lirEvict := decide (u32 (lirs.lirCount + 1) > sub32 cn.cacheSize lirs.hirLimit) }
      else return { lt with hirAdd := true }
    else if lt.isHIR then return { lt with hirAdd := true }
    else return lt

def lirsTransactionIsLegal (lirs : LirsPolicy) (lt : LirsTransaction) : Bool :=
  (!lt.hirEvict || decide (queueLength lirs.q > 0)) &&
    (!lt.lirEvict || decide (queueLength lirs.s > 0))

def lirsRemoveFromQueues (lirs : LirsPolicy) (le : EntryRef) : LirsPolicy :=
  let lirs := { lirs with
    q := queueRemove lirs.q le
    g := queueRemove lirs.g le
    r := queueRemove lirs.r le }
  if le ∈ lirs.s then { lirs with s := queueRemove lirs.s le, sLen := dec32 lirs.sLen }
  else lirs

def lirsPushToQueues (lirs : LirsPolicy) (le : EntryRef) (flags : LirsFlags) :
    Exec LirsPolicy := do
  logAssert ((flags.g && flags.q) = false)
  return { lirs with
    g := if flags.g then queuePush lirs.g le else lirs.g
    q := if flags.q then queuePush lirs.q le else lirs.q
    r := if flags.r then queuePush lirs.r le else lirs.r
    s := if flags.s then queuePush lirs.s le else lirs.s }

def lirsRemoveEntry (lirs : LirsPolicy) (le : EntryRef) : Exec LirsPolicy := do
  let lirs := lirsRemoveFromQueues lirs le
  let lirs := if !lirs.isHIR le then { lirs with lirCount := dec32 lirs.lirCount } else lirs
  let lirs :=
    if inCache (some le) && !(lirs.nucleus.entry le).migrating then
      { lirs with nucleus := lirs.nucleus.incDemotions }
    else lirs
  let nucleus ← cacheNucleusRemove lirs.nucleus le
  return { lirs with nucleus := nucleus }

def lirsGEvict (lirs : LirsPolicy) : Exec LirsPolicy := do
  let le ← deref (queuePeek lirs.g)
  lirsRemoveEntry lirs le

/-- For a moment the ghost and the cached entry share the oblock. -/
def lirsReplaceWithMeta (lirs : LirsPolicy) (cacheLe : EntryRef) : Exec LirsPolicy := do
  let oblock := (lirs.nucleus.entry cacheLe).oblock
  logAssert (cacheLe ∈ lirs.s)
  logAssert (lirs.isHIR cacheLe = true)
  logAssert (inCache (some cacheLe) = true)
  let lirs ← if metaIsFull lirs.nucleus then lirsGEvict lirs else .ok lirs
  let (nucleus, metaLe) ← insertInMeta lirs.nucleus oblock
  let lirs := { lirs with nucleus := nucleus, isHIR := Function.update lirs.isHIR metaLe true }
  let lirs ← lirsPushToQueues lirs metaLe { g := true, r := true, s := true }
  let lirs := { lirs with sLen := u32 (lirs.sLen + 1) }
  let lirs := { lirs with
    r := queueSwap lirs.r cacheLe metaLe
    s := queueSwap lirs.s cacheLe metaLe }
  lirsRemoveEntry lirs cacheLe

def lirsQEvict (lirs : LirsPolicy) (result : CacheNucleusResult) :
    Exec (LirsPolicy × CacheNucleusResult) := do
  let le ← deref (queuePeek lirs.q)
  let result := { result with
    oldOblock := (lirs.nucleus.entry le).oblock
    dirtyEviction := (lirs.nucleus.entry le).dirty }
  let lirs ← if le ∈ lirs.s then lirsReplaceWithMeta lirs le else lirsRemoveEntry lirs le
  return (lirs, result)

def lirsREvict (lirs : LirsPolicy) : Exec LirsPolicy := do
  let le ← deref (queuePeek lirs.r)
  let lirs := { lirs with
    s := queueRemove lirs.s le
    r := queueRemove lirs.r le
    sLen := dec32 lirs.sLen }
  if !inCache (some le) then lirsRemoveEntry lirs le else return lirs

def lirsSEvict (lirs : LirsPolicy) : Exec LirsPolicy := do
  let le ← deref (queuePeek lirs.s)
  logAssert (lirs.isHIR le = false)
  logAssert (inCache (some le) = true)
  let lirs := { lirs with
    isHIR := Function.update lirs.isHIR le true
    lirCount := dec32 lirs.lirCount }
  lirsPushToQueues (lirsRemoveFromQueues lirs le) le { q := true }

def lirsFindLastLirLruLoop (lirs : LirsPolicy) : Nat → Exec LirsPolicy
  | 0 => .error .outOfFuel
  | fuel + 1 =>
    match queuePeek lirs.s with
    | none => .ok lirs
    | some le =>
      if lirs.isHIR le then do
        logAssert (queuePeek lirs.r = some le)
        let lirs ← lirsREvict lirs
        lirsFindLastLirLruLoop lirs fuel
      else .ok lirs

/-- Every round takes an entry out of `S`. -/
def lirsFindLastLirLru (lirs : LirsPolicy) : Exec LirsPolicy :=
  lirsFindLastLirLruLoop lirs (lirs.s.length + 1)

def lirsPruneS (lirs : LirsPolicy) : Exec LirsPolicy :=
  if lirs.sLen ≤ lirs.sMaxlen then .ok lirs else lirsREvict lirs

/-- The commit takes the entry of the request, if there is one, out of the lists. -/
def lirsTransactionTake (lirs : LirsPolicy) (e : Option EntryRef) : Exec LirsPolicy :=
  match e with
  | none => .ok lirs
  | some le =>
    if inMeta (some le) then lirsRemoveEntry lirs le
    else if inCache (some le) && !(lirs.nucleus.entry le).migrating then
      .ok (lirsRemoveFromQueues lirs le)
    else if (lirs.nucleus.entry le).migrating then .ok { lirs with sLen := dec32 lirs.sLen }
    else .ok lirs

/-- The commit brings a new block or a ghost into the cache; `is_HIR` is the status the entry
of the request had. -/
def lirsTransactionEnter (lirs : LirsPolicy) (lt : LirsTransaction) (e : Option EntryRef)
    (isHIR : Bool) (result : CacheNucleusResult) :
    Exec (LirsPolicy × EntryRef × CacheNucleusResult) :=
  if e.isNone || inMeta e then do
    let (nucleus, le, result) ← insertInCache lirs.nucleus lt.oblock result
    let lirs := { lirs with
      nucleus := nucleus
      isHIR := Function.update lirs.isHIR le lt.isHIR
      lirCount := if !lt.isHIR then u32 (lirs.lirCount + 1) else lirs.lirCount }
    let nucleus ← migratingCacheEntry lirs.nucleus le
    return ({ lirs with nucleus := nucleus }, le, result)
  else do
    let le ← deref e
    if isHIR then
      return ({ lirs with
        isHIR := Function.update lirs.isHIR le false
        lirCount := u32 (lirs.lirCount + 1) }, le, result)
    else return (lirs, le, result)

def lirsTransactionDemote (lirs : LirsPolicy) (lt : LirsTransaction) : Exec LirsPolicy :=
  if lt.lirEvict then do
    let lirs ← lirsSEvict lirs
    lirsFindLastLirLru lirs
  else .ok lirs

def lirsTransactionPush (lirs : LirsPolicy) (lt : LirsTransaction) (le : EntryRef) :
    Exec LirsPolicy :=
  if !(lirs.nucleus.entry le).migrating then
    if lt.isHIR then lirsPushToQueues lirs le { q := true, r := true, s := true }
    else lirsPushToQueues lirs le { s := true }
  else .ok lirs

/-- A hit leaves `result.cblock` as it was passed in, and so does a repeated oblock. -/
def lirsTransactionCommit (lirs : LirsPolicy) (lt : LirsTransaction)
    (result : CacheNucleusResult) : Exec (LirsPolicy × CacheNucleusResult) := do
  let e := hashLookup lirs.nucleus lt.oblock
  let isHIR := (e.map lirs.isHIR).getD true
  let cached := inCache e
  let lirs := { lirs with
    nucleus := if cached then lirs.nucleus.incHits else lirs.nucleus.incMisses }
  let result := { result with
    op := if cached then .hit else if lt.hirEvict then .replace else .new }
  if lt.isRepeat then return (lirs, result)
  else do
    let lirs ← lirsTransactionTake { lirs with lastOblock := lt.oblock } e
    let lirs ← if lt.lirSLru then lirsFindLastLirLru lirs else .ok lirs
    let (lirs, result) ← if lt.hirEvict then lirsQEvict lirs result else .ok (lirs, result)
    let (lirs, le, result) ← lirsTransactionEnter lirs lt e isHIR result
    let lirs ← lirsTransactionDemote lirs lt
    let lirs ← lirsTransactionPush lirs lt le
    let lirs ← lirsPruneS { lirs with sLen := u32 (lirs.sLen + 1) }
    return (lirs, result)

def lirsRemoveApi (lirs : LirsPolicy) (oblock : Oblock) (removeToHistory : Bool) :
    Exec LirsPolicy := do
  let le ← deref (hashLookup lirs.nucleus oblock)
  let lirs ←
    if inCache (some le) then
      if removeToHistory && (lirs.isHIR le && decide (le ∈ lirs.s)) then
        lirsReplaceWithMeta lirs le
      else lirsRemoveEntry lirs le
    else lirsRemoveEntry lirs le
  lirsPruneS lirs

def lirsInsertApi (lirs : LirsPolicy) (oblock : Oblock) (cblock : Cblock) : Exec LirsPolicy := do
  let (nucleus, le) ← insertInCacheAt lirs.nucleus oblock cblock
  let lirs := { lirs with nucleus := nucleus }
  let lirs ←
    if sub32 nucleus.cacheSize (defaultResidency nucleus) > lirs.hirLimit then
      lirsPushToQueues { lirs with
        isHIR := Function.update lirs.isHIR le false
        lirCount := u32 (lirs.lirCount + 1) } le { s := true }
    else
      lirsPushToQueues { lirs with isHIR := Function.update lirs.isHIR le true } le
        { q := true, r := true, s := true }
  return { lirs with sLen := u32 (lirs.sLen + 1) }

def lirsMigratedApi (lirs : LirsPolicy) (oblock : Oblock) : Exec LirsPolicy :=
  match hashLookup lirs.nucleus oblock with
  | none => .error .assertion
  | some e => do
    logAssert ((lirs.nucleus.entry e).migrating = true)
    let (nucleus, le) ← migratedCacheEntry lirs.nucleus (some e)
    let lirs := { lirs with nucleus := nucleus }
    let lirs ←
      if lirs.isHIR le then lirsPushToQueues lirs le { q := true, r := true, s := true }
      else lirsPushToQueues lirs le { s := true }
    return { lirs with nucleus := lirs.nucleus.incPromotions }

def lirsMapApi (lirs : LirsPolicy) (oblock : Oblock) (write : Bool)
    (result : CacheNucleusResult) : Exec (LirsPolicy × CacheNucleusResult) := do
  let lt ← lirsTransactionSet lirs (lirsTransactionInit oblock)
  if lirsTransactionIsLegal lirs lt then do
    let (lirs, result) ← lirsTransactionCommit lirs lt result
    return ({ lirs with nucleus := dirtyWork lirs.nucleus.incIos oblock write }, result)
  else return (lirs, { result with op := .fail })

def lirsNextVictimApi (lirs : LirsPolicy) (oblock : Oblock) :
    Exec (LirsPolicy × CacheNucleusOperation × Option EntryRef) := do
  let lt ← lirsTransactionSet lirs (lirsTransactionInit oblock)
  if lirsTransactionIsLegal lirs lt then
    if (defaultCacheLookup lirs.nucleus oblock).isSome then return (lirs, .hit, none)
    else if lt.hirEvict then return (lirs, .replace, queuePeek lirs.q)
    else return (lirs, .new, none)
  else return (lirs, .fail, none)

/-- The function table `lirs_init` installs. -/
def lirsApi : Policy LirsPolicy where
  nucleus := LirsPolicy.nucleus
  entryAt := fun lirs => lirs.nucleus.entry
  owner := LirsPolicy.nucleus
  setOwner := fun lirs nucleus => { lirs with nucleus := nucleus }
  map := lirsMapApi
  remove := lirsRemoveApi
  insert := lirsInsertApi
  migrated := lirsMigratedApi
  cacheLookup := fun lirs => defaultCacheLookup lirs.nucleus
  metaLookup := fun lirs => defaultMetaLookup lirs.nucleus
  cblockLookup := fun lirs => defaultCblockLookup lirs.nucleus
  remap := fun lirs currentOblock newOblock => do
    let nucleus ← defaultRemap lirs.nucleus currentOblock newOblock
    return { lirs with nucleus := nucleus }
  getStats := fun lirs => defaultGetStats lirs.nucleus
  setTime := fun lirs time => { lirs with nucleus := defaultSetTime lirs.nucleus time }
  residency := fun lirs => defaultResidency lirs.nucleus
  cacheIsFull := fun lirs => defaultCacheIsFull lirs.nucleus
  inferCblock := fun lirs => defaultInferCblock lirs.nucleus
  nextVictim := lirsNextVictimApi

def lirsInit (cacheSize metaSize : UInt32) : Exec LirsPolicy := do
  let nucleus := (({} : CacheNucleus).setPool .cache (epoolCreate {} cacheSize.toNat)).setPool
    .metadata (epoolCreate {} metaSize.toNat)
  let nucleus ← policyInit nucleus cacheSize.toNat metaSize.toNat
  return {
    nucleus := nucleus
    q := [], s := [], r := [], g := []
    hirLimit := max 2 (cacheSize.toNat / 100)
    lirCount := 0
    sLen := 0
    sMaxlen := u32 (2 * cacheSize.toNat)
    lastOblock := 0 - 1
    isHIR := fun _ => false }

def lirsCreate (cacheSize metaSize : UInt32) : Exec LirsPolicy := lirsInit cacheSize metaSize

end Fomo
