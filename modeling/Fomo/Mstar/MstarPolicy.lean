import Fomo.Include.Api
import Fomo.Mstar.MstarLogic

/-!
# m* (`mstar/mstar_policy.c`, `mstar/mstar_policy_struct.h`)

m* wraps a policy and keeps ghosts of blocks it has filtered. Its learning logic decides
which misses reach the internal policy, and its ghost list grows on misses and shrinks on
hits.
-/
namespace Fomo

/-- `struct mstar_policy` over the state of the internal policy. -/
structure MstarPolicy (σ : Type) where
  nucleus : CacheNucleus
  mstarG : Queue
  ghostSize : Nat
  internal : σ
  logic : MstarLogic

variable {σ : Type} (P : Policy σ)

def mstarOnlyRemove (mstar : MstarPolicy σ) (me : EntryRef) : Exec (MstarPolicy σ) := do
  let mstar := { mstar with mstarG := queueRemove mstar.mstarG me }
  let nucleus ← cacheNucleusRemove mstar.nucleus me
  return { mstar with nucleus := nucleus }

def mstarRemove (mstar : MstarPolicy σ) (oblock : Oblock) (removeToHistory : Bool) :
    Exec (MstarPolicy σ) := do
  let mstar ← match hashLookup mstar.nucleus oblock, removeToHistory with
    | some metaE, false => mstarOnlyRemove mstar metaE
    | _, _ => .ok mstar
  let internal ← P.remove mstar.internal oblock removeToHistory
  return { mstar with internal := internal }

def mstarInsert (mstar : MstarPolicy σ) (oblock : Oblock) (cblock : Cblock) :
    Exec (MstarPolicy σ) := do
  let internal ← P.insert mstar.internal oblock cblock
  return { mstar with internal := internal }

def mstarMigrated (mstar : MstarPolicy σ) (oblock : Oblock) : Exec (MstarPolicy σ) := do
  let internal ← P.migrated mstar.internal oblock
  return { mstar with internal := internal }

/-- Evicts from the metadata of m* only. -/
def mstarEvict (mstar : MstarPolicy σ) : Exec (MstarPolicy σ) :=
  match queuePop mstar.mstarG with
  | none => .error .assertion
  | some (me, q) => mstarOnlyRemove { mstar with mstarG := q } me

def mstarGhostLengthControl (mstar : MstarPolicy σ) : Exec (MstarPolicy σ) :=
  if queueLength mstar.mstarG > mstar.ghostSize then mstarEvict mstar else .ok mstar

def mstarIncreaseGhostSize (mstar : MstarPolicy σ) : Exec (MstarPolicy σ) := do
  let cacheSize := mstar.nucleus.metaSize
  let ghostSize := mstar.ghostSize
  logAssert (ghostSize > 0)
  let tmp ← div32 cacheSize ghostSize
  return { mstar with ghostSize := min (u32 (9 * cacheSize) / 10) (u32 (ghostSize + tmp)) }

def mstarDecreaseGhostSize (mstar : MstarPolicy σ) : Exec (MstarPolicy σ) := do
  let cacheSize := mstar.nucleus.metaSize
  let ghostSize := mstar.ghostSize
  logAssert (cacheSize > ghostSize)
  let tmp ← div32 cacheSize (cacheSize - ghostSize)
  if ghostSize ≥ tmp then
    return { mstar with ghostSize := max (cacheSize / 10) (ghostSize - tmp) }
  else return { mstar with ghostSize := cacheSize / 10 }

/-- `insert_in_meta` and the push on `mstar_g`. -/
def mstarPushGhost (mstar : MstarPolicy σ) (oblock : Oblock) : Exec (MstarPolicy σ) := do
  let (nucleus, me) ← insertInMeta mstar.nucleus oblock
  return { mstar with nucleus := nucleus, mstarG := queuePush mstar.mstarG me }

/-- `policy_map(internal_policy, …)`. -/
def mstarMapInternal (mstar : MstarPolicy σ) (oblock : Oblock) (write : Bool)
    (result : CacheNucleusResult) : Exec (MstarPolicy σ × CacheNucleusResult) := do
  let (internal, result) ← P.map mstar.internal oblock write result
  return ({ mstar with internal := internal }, result)

def mstarGhostMiss (mstar : MstarPolicy σ) (oblock : Oblock) (write : Bool)
    (result : CacheNucleusResult) : Exec (MstarPolicy σ × CacheNucleusResult) :=
  if P.cacheIsFull mstar.internal then do
    let mstar ← mstarPushGhost mstar oblock
    let mstar ← mstarIncreaseGhostSize mstar
    if mstar.logic.state ≠ .unstable then
      return ({ mstar with nucleus := mstar.nucleus.incFilters.incIos }, result)
    else mstarMapInternal P mstar oblock write result
  else mstarMapInternal P mstar oblock write result

def mstarGhostHit (mstar : MstarPolicy σ) (oblock : Oblock) (write : Bool)
    (result : CacheNucleusResult) : Exec (MstarPolicy σ × CacheNucleusResult) := do
  let mstar ←
    if P.cacheIsFull mstar.internal then do
      let e ← deref (hashLookup mstar.nucleus oblock)
      let mstar ← mstarOnlyRemove mstar e
      let mstar ←
        if mstar.logic.state = .unstable then mstarPushGhost mstar oblock else .ok mstar
      mstarIncreaseGhostSize mstar
    else .ok mstar
  mstarMapInternal P mstar oblock write result

def mstarHit (mstar : MstarPolicy σ) (oblock : Oblock) (write : Bool)
    (result : CacheNucleusResult) : Exec (MstarPolicy σ × CacheNucleusResult) := do
  let (mstar, result) ← mstarMapInternal P mstar oblock write result
  if mstar.logic.state ≠ .unstable ∨ P.cacheIsFull mstar.internal then do
    let mstar ← mstarDecreaseGhostSize mstar
    return (mstar, result)
  else return (mstar, result)

/-- The hit or miss part of `mstar_map`. -/
def mstarServe (mstar : MstarPolicy σ) (oblock : Oblock) (write cacheHit ghostHit : Bool)
    (result : CacheNucleusResult) : Exec (MstarPolicy σ × CacheNucleusResult) :=
  if cacheHit then mstarHit P mstar oblock write result
  else if ghostHit then mstarGhostHit P mstar oblock write result
  else mstarGhostMiss P mstar oblock write result

def mstarMap (mstar : MstarPolicy σ) (oblock : Oblock) (write : Bool)
    (result : CacheNucleusResult) : Exec (MstarPolicy σ × CacheNucleusResult) := do
  let cacheHit := (P.cacheLookup mstar.internal oblock).isSome
  let ghostHit := (hashLookup mstar.nucleus oblock).isSome
  let result := { result with op := .filter }
  let (mstar, result) ← mstarServe P mstar oblock write cacheHit ghostHit result
  let mstar ← mstarGhostLengthControl mstar
  let logic ← updateMstar mstar.logic cacheHit ghostHit
  return ({ mstar with logic := logic }, result)

def mstarRemap (mstar : MstarPolicy σ) (currentOblock newOblock : Oblock) :
    Exec (MstarPolicy σ) := do
  let e ← deref (hashLookup mstar.nucleus currentOblock)
  let nucleus ← hashRemove mstar.nucleus e
  let nucleus := nucleus.setEntry e { nucleus.entry e with oblock := newOblock }
  let mstar := { mstar with nucleus := hashInsert nucleus e }
  let internal ← P.remap mstar.internal currentOblock newOblock
  return { mstar with internal := internal }

def mstarGetStats (mstar : MstarPolicy σ) (stats : PolicyStats) : PolicyStats :=
  let stats := P.getStats mstar.internal stats
  { stats with filters := u32 (stats.filters + mstar.nucleus.stats.filters) }

def mstarSetTime (mstar : MstarPolicy σ) (time : Nat) : MstarPolicy σ :=
  { mstar with
    internal := P.setTime mstar.internal time
    nucleus := { mstar.nucleus with time := time } }

def mstarNextVictim (mstar : MstarPolicy σ) (oblock : Oblock) :
    Exec (MstarPolicy σ × CacheNucleusOperation × Option EntryRef) := do
  let metaHit := (hashLookup mstar.nucleus oblock).isSome
  let internalHit := (P.cacheLookup mstar.internal oblock).isSome
  if internalHit ∨ metaHit ∨ mstar.logic.state = .unstable then
    let (internal, op, victim) ← P.nextVictim mstar.internal oblock
    return ({ mstar with internal := internal }, op, victim)
  else return (mstar, .filter, none)

/-- The function table `mstar_init` installs. -/
def mstarApi : Policy (MstarPolicy σ) where
  nucleus := MstarPolicy.nucleus
  entryAt := fun mstar => P.entryAt mstar.internal
  owner := fun mstar => P.owner mstar.internal
  setOwner := fun mstar nucleus => { mstar with internal := P.setOwner mstar.internal nucleus }
  map := mstarMap P
  remove := mstarRemove P
  insert := mstarInsert P
  migrated := mstarMigrated P
  cacheLookup := fun mstar => P.cacheLookup mstar.internal
  metaLookup := fun mstar => P.metaLookup mstar.internal
  cblockLookup := fun mstar => P.cblockLookup mstar.internal
  remap := mstarRemap P
  getStats := mstarGetStats P
  setTime := mstarSetTime P
  residency := fun mstar => P.residency mstar.internal
  cacheIsFull := fun mstar => P.cacheIsFull mstar.internal
  inferCblock := fun mstar => P.inferCblock mstar.internal
  nextVictim := mstarNextVictim P

def mstarInit (cacheSize : UInt32) (internal : σ) (adaptive : Bool) : Exec (MstarPolicy σ) := do
  let nucleus := ({} : CacheNucleus).setPool .metadata (epoolCreate {} cacheSize.toNat)
  let logic := mstarLogicInit adaptive cacheSize.toNat
  let nucleus ← policyInit nucleus 0 cacheSize.toNat
  return {
    nucleus := nucleus
    mstarG := []
    ghostSize := u32 (9 * cacheSize.toNat) / 10
    internal := internal
    logic := logic }

def mstarCreate (cacheSize metaSize : UInt32) (policyCreate : UInt32 → UInt32 → Exec σ)
    (adaptive : Bool) : Exec (MstarPolicy σ) := do
  let internal ← policyCreate cacheSize metaSize
  mstarInit cacheSize internal adaptive

end Fomo
