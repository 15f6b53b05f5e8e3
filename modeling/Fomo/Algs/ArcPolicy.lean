import Fomo.Include.Api

/-!
# ARC (`algs/arc/arc_policy.c`, `algs/arc/arc_policy_struct.h`)

Four queues, two of cached blocks (`T1`, `T2`) and two of ghosts (`B1`, `B2`). An entry
carries the list it belongs to in `loc`, also while it migrates and is in no queue;
`length` counts the entries of a list, queued or migrating.
-/
namespace Fomo

/-- `enum arc_list`. -/
inductive ArcList
  | t1
  | t2
  | b1
  | b2
  | null
  deriving DecidableEq, Repr

/-- `struct arc_policy`, with the `loc` of every `struct arc_entry`. -/
structure ArcPolicy where
  nucleus : CacheNucleus
  arcQ : ArcList → Queue
  p : Nat
  length : ArcList → Nat
  loc : EntryRef → ArcList

structure ArcTransaction where
  oblock : Oblock
  p : Nat
  currentLoc : ArcList
  dest : ArcList
  cacheEvict : ArcList
  evictT1ToB1 : Bool
  metaEvict : ArcList

namespace ArcPolicy

def setLoc (arc : ArcPolicy) (e : EntryRef) (list : ArcList) : ArcPolicy :=
  { arc with loc := Function.update arc.loc e list }

def setLength (arc : ArcPolicy) (list : ArcList) (n : Nat) : ArcPolicy :=
  { arc with length := Function.update arc.length list n }

/-- `queue_push(&arc->arc_q[list], &ae->arc_list)`. -/
def push (arc : ArcPolicy) (list : ArcList) (e : EntryRef) : ArcPolicy :=
  { arc with arcQ := Function.update arc.arcQ list (queuePush (arc.arcQ list) e) }

/-- `queue_remove(&ae->arc_list)`: out of whichever queue lists it. -/
def unqueue (arc : ArcPolicy) (e : EntryRef) : ArcPolicy :=
  { arc with arcQ := fun list => queueRemove (arc.arcQ list) e }

end ArcPolicy

def arcTransactionInit (arc : ArcPolicy) (oblock : Oblock) : ArcTransaction where
  oblock := oblock
  p := arc.p
  currentLoc := .null
  dest := .null
  cacheEvict := .null
  evictT1ToB1 := false
  metaEvict := .null

def arcReplace (arc : ArcPolicy) (at' : ArcTransaction) : ArcTransaction :=
  let t1Len := arc.length .t1
  if t1Len ≥ 1 ∧ ((at'.currentLoc = .b2 ∧ t1Len = at'.p) ∨ t1Len > at'.p) then
    { at' with cacheEvict := .t1, evictT1ToB1 := true }
  else { at' with cacheEvict := .t2 }

def arcTransactionSet (arc : ArcPolicy) (at' : ArcTransaction) : Exec ArcTransaction :=
  let cacheSize := arc.nucleus.cacheSize
  let t1Len := arc.length .t1
  let t2Len := arc.length .t2
  let b1Len := arc.length .b1
  let b2Len := arc.length .b2
  let l1Len := u32 (t1Len + b1Len)
  let l2Len := u32 (t2Len + b2Len)
  match hashLookup arc.nucleus at'.oblock with
  | some e =>
    let at' := { at' with currentLoc := arc.loc e }
    if inCache (some e) then .ok { at' with dest := .t2 }
    else if arc.loc e = .b1 then do
      let delta ← div32 b2Len b1Len
      let at' := { at' with p := min cacheSize (u32 (arc.p + max delta 1)) }
      return { arcReplace arc at' with dest := .t2 }
    else do
      let delta ← div32 b1Len b2Len
      let tmp := max delta 1
      let at' := { at' with p := if arc.p > tmp then arc.p - tmp else 0 }
      return { arcReplace arc at' with dest := .t2 }
  | none =>
    let at' : ArcTransaction :=
      if l1Len = cacheSize then
        if t1Len < cacheSize then arcReplace arc { at' with metaEvict := .b1 }
        else { at' with cacheEvict := .t1 }
      else if l1Len < cacheSize ∧ u32 (l1Len + l2Len) ≥ cacheSize then
        let at' : ArcTransaction :=
          if u32 (l1Len + l2Len) = u32 (2 * cacheSize) then { at' with metaEvict := .b2 } else at'
        arcReplace arc at'
      else at'
    .ok { at' with dest := .t1 }

def arcTransactionIsLegal (arc : ArcPolicy) (at' : ArcTransaction) : Bool :=
  if at'.cacheEvict ≠ .null then decide (queueLength (arc.arcQ at'.cacheEvict) > 0) else true

def arcRemoveEntry (arc : ArcPolicy) (ae : EntryRef) : Exec ArcPolicy :=
  let list := arc.loc ae
  if list = .null then .error .outOfBounds
  else do
    let arc := arc.setLength list (dec32 (arc.length list))
    let arc :=
      if (arc.nucleus.entry ae).migrating then arc
      else
        let arc := arc.unqueue ae
        if inCache (some ae) then { arc with nucleus := arc.nucleus.incDemotions } else arc
    let arc := arc.setLoc ae .null
    let nucleus ← cacheNucleusRemove arc.nucleus ae
    return { arc with nucleus := nucleus }

/-- A caller that passes `NULL` for the result drops the one returned. -/
def arcEvict (arc : ArcPolicy) (list : ArcList) (result : CacheNucleusResult) :
    Exec (ArcPolicy × CacheNucleusResult) := do
  let (ae, q) ← deref (queuePop (arc.arcQ list))
  let arc := { arc with arcQ := Function.update arc.arcQ list q }
  let result := { result with
    oldOblock := (arc.nucleus.entry ae).oblock
    dirtyEviction := (arc.nucleus.entry ae).dirty }
  let arc ← arcRemoveEntry arc ae
  return (arc, result)

def arcSetForList (arc : ArcPolicy) (ae : EntryRef) (list : ArcList) : ArcPolicy :=
  let arc :=
    if arc.loc ae ≠ .null then arc.setLength (arc.loc ae) (dec32 (arc.length (arc.loc ae)))
    else arc
  let arc := arc.setLoc ae list
  arc.setLength list (arc.length list + 1)

def arcTransactionCommit (arc : ArcPolicy) (at' : ArcTransaction) (result : CacheNucleusResult) :
    Exec (ArcPolicy × CacheNucleusResult) := do
  let e := hashLookup arc.nucleus at'.oblock
  let hit : Bool := decide (at'.currentLoc = .t1 ∨ at'.currentLoc = .t2)
  let migrating := e.any fun e => (arc.nucleus.entry e).migrating
  let arc := { arc with p := at'.p }
  let result : CacheNucleusResult :=
    if hit then { result with op := .hit }
    else if at'.cacheEvict ≠ .null then { result with op := .replace }
    else { result with op := .new }
  let arc := { arc with
    nucleus := if hit then arc.nucleus.incHits else arc.nucleus.incMisses }
  -- remove from metadata ahead of time
  let arc ← match e, hit with
    | some ae, false => arcRemoveEntry arc ae
    | _, _ => .ok arc
  let arc ←
    if at'.metaEvict ≠ .null then do
      let (arc, _) ← arcEvict arc at'.metaEvict result
      .ok arc
    else .ok arc
  let (arc, result) ←
    if at'.cacheEvict ≠ .null then do
      let (arc, result) ← arcEvict arc at'.cacheEvict result
      if at'.evictT1ToB1 ∨ at'.cacheEvict = .t2 then do
        let (nucleus, metaAe) ← insertInMeta arc.nucleus result.oldOblock
        let metaDest := if at'.cacheEvict = .t2 then ArcList.b2 else .b1
        let arc := arcSetForList ({ arc with nucleus := nucleus }.setLoc metaAe .null) metaAe
          metaDest
        .ok (arc.push metaDest metaAe, result)
      else .ok (arc, result)
    else .ok (arc, result)
  if hit then do
    let ae ← deref e
    let arc := arcSetForList arc ae at'.dest
    let cblock ← inferCacheCblock arc.nucleus ae
    let result := { result with cblock := cblock }
    if migrating then return (arc, result)
    else return ((arc.unqueue ae).push at'.dest ae, result)
  else do
    let (nucleus, ae, result) ← insertInCache arc.nucleus at'.oblock result
    let arc := arcSetForList ({ arc with nucleus := nucleus }.setLoc ae .null) ae at'.dest
    let nucleus ← migratingCacheEntry arc.nucleus ae
    return ({ arc with nucleus := nucleus }, result)

def arcRemoveApi (arc : ArcPolicy) (oblock : Oblock) (removeToHistory : Bool) :
    Exec ArcPolicy := do
  let ae ← deref (hashLookup arc.nucleus oblock)
  let loc := arc.loc ae
  let arc ← arcRemoveEntry arc ae
  if inCache (some ae) ∧ removeToHistory then do
    let dest := if loc = .t1 then ArcList.b1 else .b2
    let arc ←
      if metaIsFull arc.nucleus then do
        let (arc, _) ← arcEvict arc dest {}
        .ok arc
      else .ok arc
    let (nucleus, ae) ← insertInMeta arc.nucleus oblock
    let arc := arcSetForList ({ arc with nucleus := nucleus }.setLoc ae .null) ae dest
    return arc.push dest ae
  else return arc

def arcInsertApi (arc : ArcPolicy) (oblock : Oblock) (cblock : Cblock) : Exec ArcPolicy := do
  let (nucleus, ae) ← insertInCacheAt arc.nucleus oblock cblock
  let arc := arcSetForList ({ arc with nucleus := nucleus }.setLoc ae .null) ae .t1
  return arc.push .t1 ae

def arcMigratedApi (arc : ArcPolicy) (oblock : Oblock) : Exec ArcPolicy :=
  match hashLookup arc.nucleus oblock with
  | none => .error .assertion
  | some e => do
    logAssert ((arc.nucleus.entry e).migrating = true)
    let (nucleus, ae) ← migratedCacheEntry arc.nucleus (some e)
    logAssert (arc.loc ae ≠ .null)
    return { arc with nucleus := nucleus.incPromotions }.push (arc.loc ae) ae

def arcMapApi (arc : ArcPolicy) (oblock : Oblock) (write : Bool) (result : CacheNucleusResult) :
    Exec (ArcPolicy × CacheNucleusResult) := do
  let at' ← arcTransactionSet arc (arcTransactionInit arc oblock)
  if arcTransactionIsLegal arc at' then do
    let (arc, result) ← arcTransactionCommit arc at' result
    return ({ arc with nucleus := dirtyWork arc.nucleus.incIos oblock write }, result)
  else return (arc, { result with op := .fail })

def arcNextVictimApi (arc : ArcPolicy) (oblock : Oblock) :
    Exec (ArcPolicy × CacheNucleusOperation × Option EntryRef) := do
  let at' ← arcTransactionSet arc (arcTransactionInit arc oblock)
  if arcTransactionIsLegal arc at' then
    if at'.currentLoc = .t1 ∨ at'.currentLoc = .t2 then return (arc, .hit, none)
    else if at'.cacheEvict ≠ .null then
      return (arc, .replace, queuePeek (arc.arcQ at'.cacheEvict))
    else return (arc, .new, none)
  else return (arc, .fail, none)

/-- The function table `arc_init` installs. -/
def arcApi : Policy ArcPolicy where
  nucleus := ArcPolicy.nucleus
  entryAt := fun arc => arc.nucleus.entry
  owner := ArcPolicy.nucleus
  setOwner := fun arc nucleus => { arc with nucleus := nucleus }
  map := arcMapApi
  remove := arcRemoveApi
  insert := arcInsertApi
  migrated := arcMigratedApi
  cacheLookup := fun arc => defaultCacheLookup arc.nucleus
  metaLookup := fun arc => defaultMetaLookup arc.nucleus
  cblockLookup := fun arc => defaultCblockLookup arc.nucleus
  remap := fun arc currentOblock newOblock => do
    let nucleus ← defaultRemap arc.nucleus currentOblock newOblock
    return { arc with nucleus := nucleus }
  getStats := fun arc => defaultGetStats arc.nucleus
  setTime := fun arc time => { arc with nucleus := defaultSetTime arc.nucleus time }
  residency := fun arc => defaultResidency arc.nucleus
  cacheIsFull := fun arc => defaultCacheIsFull arc.nucleus
  inferCblock := fun arc => defaultInferCblock arc.nucleus
  nextVictim := arcNextVictimApi

def arcInit (cacheSize metaSize : UInt32) : Exec ArcPolicy := do
  let nucleus := (({} : CacheNucleus).setPool .cache (epoolCreate {} cacheSize.toNat)).setPool
    .metadata (epoolCreate {} metaSize.toNat)
  let nucleus ← policyInit nucleus cacheSize.toNat metaSize.toNat
  return { nucleus := nucleus, arcQ := fun _ => [], p := 0, length := fun _ => 0
           loc := fun _ => .t1 }

def arcCreate (cacheSize metaSize : UInt32) : Exec ArcPolicy := arcInit cacheSize metaSize

end Fomo
