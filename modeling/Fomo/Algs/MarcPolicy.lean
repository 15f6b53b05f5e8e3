import Fomo.Include.WindowStats
import Fomo.Algs.ArcPolicy

/-!
# mARC (`algs/marc/marc_policy.c`, `algs/marc/marc_policy_struct.h`)

mARC wraps ARC and filters misses of a full cache unless the workload looks unstable. It
judges the workload by the hit rates of a window of requests and of the phase under way. Its
64-bit counters are taken as natural numbers.
-/
namespace Fomo

/-- `enum marc_state`. -/
inductive MarcState
  | unstable
  | stable
  | unique
  deriving DecidableEq, Repr

/-- `struct marc_policy`. -/
structure MarcPolicy where
  nucleus : CacheNucleus
  internal : ArcPolicy
  tabu : Nat
  tabuCounter : Nat
  state : MarcState
  ghostQ : Queue
  ghostSize : Nat
  ghostHits : Nat
  ghostHitsOld : Nat
  sample : Tools.WindowStats
  sampleAvg : Tools.WindowStats
  phaseHits : Nat
  phaseIos : Nat

structure MarcTransaction where
  oblock : Oblock
  write : Bool
  tabuCounter : Nat
  state : MarcState
  ghostSize : Nat
  cHit : Bool
  saveSampleAvg : Bool
  sampleClear : Bool
  sampleAvgClear : Bool
  phaseClear : Bool
  saveGhostHits : Bool
  ghostRemove : Bool
  ghostAdd : Bool
  filter : Bool

def marcTransactionInit (marc : MarcPolicy) (oblock : Oblock) (write : Bool) :
    MarcTransaction where
  oblock := oblock
  write := write
  tabuCounter := marc.tabuCounter
  state := marc.state
  ghostSize := marc.ghostSize
  cHit := false
  saveSampleAvg := false
  sampleClear := false
  sampleAvgClear := false
  phaseClear := false
  saveGhostHits := false
  ghostRemove := false
  ghostAdd := false
  filter := true

def marcChangeState (marc : MarcPolicy) (mt : MarcTransaction) (state : MarcState) :
    MarcTransaction :=
  let mt :=
    if state ≠ .unstable then { mt with ghostSize := marc.internal.nucleus.cacheSize / 10 }
    else { mt with tabuCounter := 2 * marc.tabu }
  { mt with
    state := state
    sampleClear := true
    sampleAvgClear := true
    phaseClear := decide (state ≠ .stable) }

def marcGhostDecreaseSize (marc : MarcPolicy) (ghostSize : Nat) : Exec Nat :=
  let cacheSize := marc.internal.nucleus.cacheSize
  if ghostSize = cacheSize then .ok (cacheSize / 10)
  else do
    let tmp ← div64 cacheSize (sub64 cacheSize ghostSize)
    if ghostSize ≥ tmp then return max32 (cacheSize / 10) (sub64 ghostSize tmp)
    else return cacheSize / 10

def marcGhostIncreaseSize (marc : MarcPolicy) (ghostSize : Nat) : Exec Nat := do
  let cacheSize := marc.internal.nucleus.cacheSize
  let tmp ← div64 cacheSize ghostSize
  return min32 (9 * cacheSize / 10) (ghostSize + tmp)

def marcUnstUniqCheck (hrSample hrState : Nat) : Bool :=
  decide (hrState / 2 > hrSample) || decide (hrSample < 5)

def marcUnstStabCheck (hrSample hrState : Nat) : Bool :=
  (decide (hrState < 11 * hrSample / 10) && decide (hrState > 9 * hrSample / 10)) ||
    (decide (hrSample ≥ hrState) && decide (hrSample ≥ 20))

def marcStabUnstCheck (hrSample hrState : Nat) : Bool := decide (hrSample ≤ 7 * hrState / 10)

def marcUniqUnstCheck (marc : MarcPolicy) (hrSample : Nat) : Exec Bool := do
  let filterHr ← div64 (sub64 marc.ghostHits marc.ghostHitsOld * 100) marc.tabu
  return decide (filterHr > 10) || decide (hrSample > 5)

def marcTryTransition (marc : MarcPolicy) (mt : MarcTransaction) (hrSample hrState : Nat) :
    Exec MarcTransaction :=
  match marc.state with
  | .unstable =>
    if marcUnstUniqCheck hrSample hrState then .ok (marcChangeState marc mt .unique)
    else if marcUnstStabCheck hrSample hrState then .ok (marcChangeState marc mt .stable)
    else .ok mt
  | .stable =>
    if marcStabUnstCheck hrSample hrState then .ok (marcChangeState marc mt .unstable)
    else .ok mt
  | .unique => do
    let leave ← marcUniqUnstCheck marc hrSample
    if leave then return marcChangeState marc mt .unstable else return mt

/-- The cache lookup of a transaction, and the request it counts against the tabu. -/
def marcTransactionCount (marc : MarcPolicy) (mt : MarcTransaction) : MarcTransaction := { mt with
  tabuCounter := if marc.tabuCounter > 0 then mt.tabuCounter - 1 else mt.tabuCounter
  cHit := (arcApi.cacheLookup marc.internal mt.oblock).isSome }

/-- `hr_sample`: the window with this request and without the one about to fall out. -/
def marcHrSample (marc : MarcPolicy) (cHit : Bool) : Exec Nat :=
  div64 (100 * (sub64 marc.sample.sum (Tools.windowStatsPeek marc.sample) + cHit.toNat))
    marc.sample.size

/-- `hr_state`. -/
def marcHrState (marc : MarcPolicy) (cHit : Bool) : Exec Nat :=
  div64 (100 * (marc.phaseHits + cHit.toNat)) (marc.phaseIos + 1)

def marcTransactionEvaluate (marc : MarcPolicy) (mt : MarcTransaction) :
    Exec MarcTransaction := do
  let mt := { mt with tabuCounter := marc.tabu, saveSampleAvg := true }
  let hrSample ← marcHrSample marc mt.cHit
  let hrState ← marcHrState marc mt.cHit
  let mt ← marcTryTransition marc mt hrSample hrState
  return { mt with saveGhostHits := true }

/-- Whether a counted transaction is evaluated. -/
def marcEvaluates (marc : MarcPolicy) (mt : MarcTransaction) : Bool :=
  decide (mt.tabuCounter = 0) && decide (u32 (marc.sample.len + 1) ≥ marc.sample.size)

/-- The first half of `marc_transaction_set`: whether the state changes. -/
def marcTransactionJudge (marc : MarcPolicy) (mt : MarcTransaction) : Exec MarcTransaction :=
  let mt := marcTransactionCount marc mt
  if marcEvaluates marc mt then marcTransactionEvaluate marc mt else .ok mt

def marcTransactionRouteSettled (marc : MarcPolicy) (mt : MarcTransaction) :
    Exec MarcTransaction :=
  if mt.cHit then do
    let ghostSize ← marcGhostDecreaseSize marc mt.ghostSize
    return { mt with filter := false, ghostSize := ghostSize }
  else if arcApi.cacheIsFull marc.internal then do
    let gHit := (hashLookup marc.nucleus mt.oblock).isSome
    let mt := if gHit then { mt with ghostRemove := true } else mt
    let mt := if gHit then { mt with filter := false } else { mt with ghostAdd := true }
    let ghostSize ← marcGhostIncreaseSize marc mt.ghostSize
    return { mt with ghostSize := ghostSize }
  else .ok { mt with filter := false }

def marcTransactionRouteUnstable (marc : MarcPolicy) (mt : MarcTransaction) :
    Exec MarcTransaction :=
  let mt := { mt with filter := false }
  if arcApi.cacheIsFull marc.internal then
    if mt.cHit then do
      let ghostSize ← marcGhostDecreaseSize marc mt.ghostSize
      return { mt with ghostSize := ghostSize }
    else do
      let gHit := (hashLookup marc.nucleus mt.oblock).isSome
      let mt := if gHit then { mt with ghostRemove := true } else mt
      let ghostSize ← marcGhostIncreaseSize marc mt.ghostSize
      return { mt with ghostAdd := true, ghostSize := ghostSize }
  else .ok mt

/-- The second half: whether ARC gets the request, and what becomes of the ghosts. -/
def marcTransactionRoute (marc : MarcPolicy) (mt : MarcTransaction) : Exec MarcTransaction :=
  if mt.state ≠ .unstable then marcTransactionRouteSettled marc mt
  else marcTransactionRouteUnstable marc mt

def marcTransactionSet (marc : MarcPolicy) (mt : MarcTransaction) : Exec MarcTransaction := do
  let mt ← marcTransactionJudge marc mt
  marcTransactionRoute marc mt

def marcTransactionIsLegal (marc : MarcPolicy) (mt : MarcTransaction) :
    Exec (MarcPolicy × Bool) :=
  if mt.filter then .ok (marc, true)
  else do
    let (internal, op, _) ← arcApi.nextVictim marc.internal mt.oblock
    return ({ marc with internal := internal }, decide (op ≠ .fail))

def marcRemoveEntry (marc : MarcPolicy) (me : EntryRef) : Exec MarcPolicy := do
  let marc := { marc with ghostQ := queueRemove marc.ghostQ me }
  let nucleus ← cacheNucleusRemove marc.nucleus me
  return { marc with nucleus := nucleus }

def marcGhostEvict (marc : MarcPolicy) : Exec MarcPolicy := do
  let me ← deref (queuePeek marc.ghostQ)
  marcRemoveEntry marc me

/-- The commit up to the ghosts. `sample_avg_clear` clears `sample` once more. -/
def marcCommitStats (marc : MarcPolicy) (mt : MarcTransaction) : Exec MarcPolicy := do
  let sample ← Tools.windowStatsPush marc.sample mt.cHit.toNat
  let sampleAvg ←
    if mt.saveSampleAvg then do
      let avg ← div64 (100 * sample.sum) sample.size
      Tools.windowStatsPush marc.sampleAvg avg
    else .ok marc.sampleAvg
  let sample := if mt.sampleClear then Tools.windowStatsClear sample else sample
  let sample := if mt.sampleAvgClear then Tools.windowStatsClear sample else sample
  return { marc with
    tabuCounter := mt.tabuCounter
    ghostSize := mt.ghostSize
    state := mt.state
    sample := sample
    sampleAvg := sampleAvg
    phaseHits := if mt.phaseClear then 0 else marc.phaseHits + mt.cHit.toNat
    phaseIos := if mt.phaseClear then 0 else marc.phaseIos + 1
    ghostHitsOld := if mt.saveGhostHits then marc.ghostHits else marc.ghostHitsOld }

def marcCommitGhosts (marc : MarcPolicy) (mt : MarcTransaction) : Exec MarcPolicy :=
  if mt.ghostRemove && mt.ghostAdd then do
    let me ← deref (hashLookup marc.nucleus mt.oblock)
    return { marc with
      ghostHits := marc.ghostHits + 1
      ghostQ := queuePush (queueRemove marc.ghostQ me) me }
  else if mt.ghostRemove then do
    let me ← deref (hashLookup marc.nucleus mt.oblock)
    marcRemoveEntry marc me
  else if mt.ghostAdd then do
    let (nucleus, me) ← insertInMeta marc.nucleus mt.oblock
    return { marc with nucleus := nucleus, ghostQ := queuePush marc.ghostQ me }
  else .ok marc

def marcCommitMap (marc : MarcPolicy) (mt : MarcTransaction) (result : CacheNucleusResult) :
    Exec (MarcPolicy × CacheNucleusResult) :=
  if !mt.filter then do
    let (internal, result) ← arcApi.map marc.internal mt.oblock mt.write result
    return ({ marc with internal := internal }, result)
  else
    .ok ({ marc with nucleus := marc.nucleus.incFilters }, { result with op := .filter })

def marcCommitEvict (marc : MarcPolicy) : Exec MarcPolicy :=
  if queueLength marc.ghostQ > marc.ghostSize then marcGhostEvict marc else .ok marc

def marcTransactionCommit (marc : MarcPolicy) (mt : MarcTransaction)
    (result : CacheNucleusResult) : Exec (MarcPolicy × CacheNucleusResult) := do
  let marc ← marcCommitStats marc mt
  let marc ← marcCommitGhosts marc mt
  let (marc, result) ← marcCommitMap marc mt result
  let marc ← marcCommitEvict marc
  return (marc, result)

def marcRemoveApi (marc : MarcPolicy) (oblock : Oblock) (removeToHistory : Bool) :
    Exec MarcPolicy := do
  let internal ← arcApi.remove marc.internal oblock removeToHistory
  return { marc with internal := internal }

def marcInsertApi (marc : MarcPolicy) (oblock : Oblock) (cblock : Cblock) : Exec MarcPolicy := do
  let internal ← arcApi.insert marc.internal oblock cblock
  return { marc with internal := internal }

def marcMigratedApi (marc : MarcPolicy) (oblock : Oblock) : Exec MarcPolicy := do
  let internal ← arcApi.migrated marc.internal oblock
  return { marc with internal := internal }

def marcMapApi (marc : MarcPolicy) (oblock : Oblock) (write : Bool)
    (result : CacheNucleusResult) : Exec (MarcPolicy × CacheNucleusResult) := do
  let mt ← marcTransactionSet marc (marcTransactionInit marc oblock write)
  let (marc, legal) ← marcTransactionIsLegal marc mt
  if legal then marcTransactionCommit marc mt result
  else return (marc, { result with op := .fail })

/-- The ghosts of mARC keep the old name. -/
def marcRemapApi (marc : MarcPolicy) (currentOblock newOblock : Oblock) : Exec MarcPolicy := do
  let internal ← arcApi.remap marc.internal currentOblock newOblock
  return { marc with internal := internal }

def marcGetStatsApi (marc : MarcPolicy) (stats : PolicyStats) : PolicyStats :=
  let stats := arcApi.getStats marc.internal stats
  { stats with filters := u32 (stats.filters + marc.nucleus.stats.filters) }

def marcSetTimeApi (marc : MarcPolicy) (time : Nat) : MarcPolicy :=
  { marc with
    internal := arcApi.setTime marc.internal time
    nucleus := { marc.nucleus with time := time } }

def marcNextVictimApi (marc : MarcPolicy) (oblock : Oblock) :
    Exec (MarcPolicy × CacheNucleusOperation × Option EntryRef) := do
  let mt ← marcTransactionSet marc (marcTransactionInit marc oblock false)
  let (marc, legal) ← marcTransactionIsLegal marc mt
  if legal then
    if !mt.filter then do
      let (internal, op, victim) ← arcApi.nextVictim marc.internal oblock
      return ({ marc with internal := internal }, op, victim)
    else return (marc, .filter, none)
  else return (marc, .fail, none)

/-- The function table `marc_init` installs. -/
def marcApi : Policy MarcPolicy where
  nucleus := MarcPolicy.nucleus
  entryAt := fun marc => arcApi.entryAt marc.internal
  owner := fun marc => arcApi.owner marc.internal
  setOwner := fun marc nucleus => { marc with internal := arcApi.setOwner marc.internal nucleus }
  map := marcMapApi
  remove := marcRemoveApi
  insert := marcInsertApi
  migrated := marcMigratedApi
  cacheLookup := fun marc => arcApi.cacheLookup marc.internal
  metaLookup := fun marc => arcApi.metaLookup marc.internal
  cblockLookup := fun marc => arcApi.cblockLookup marc.internal
  remap := marcRemapApi
  getStats := marcGetStatsApi
  setTime := marcSetTimeApi
  residency := fun marc => arcApi.residency marc.internal
  cacheIsFull := fun marc => arcApi.cacheIsFull marc.internal
  inferCblock := fun marc => arcApi.inferCblock marc.internal
  nextVictim := marcNextVictimApi

/-- The pool of the ghosts has `cache_size` entries, and there is no pool for a cache. -/
def marcInit (cacheSize metaSize : UInt32) (arc : ArcPolicy) : Exec MarcPolicy := do
  let nucleus := ({} : CacheNucleus).setPool .metadata (epoolCreate {} cacheSize.toNat)
  let nucleus ← policyInit nucleus 0 metaSize.toNat
  return {
    nucleus := nucleus
    internal := arc
    tabu := cacheSize.toNat
    tabuCounter := 2 * cacheSize.toNat
    state := .unstable
    ghostQ := []
    ghostSize := cacheSize.toNat
    ghostHits := 0
    ghostHitsOld := 0
    sample := Tools.windowStatsInit cacheSize.toNat
    sampleAvg := Tools.windowStatsInit 1
    phaseHits := 0
    phaseIos := 0 }

def marcCreate (cacheSize metaSize : UInt32) : Exec MarcPolicy := do
  let arc ← arcCreate cacheSize metaSize
  marcInit cacheSize metaSize arc

end Fomo
