import Fomo.Include.Api

/-!
# FOMO (`fomo/fomo_policy.c`, `fomo/fomo_policy_struct.h`)

FOMO wraps a policy and decides which misses may reach it. It keeps a history of the
oblocks that missed and switches between filtering and inserting once per period. The
counters are far from their word sizes: `period_size` is at most `2^32 / 100`.
-/
namespace Fomo

inductive FomoState
  | filter
  | insert
  deriving DecidableEq, Repr

/-- `struct fomo_policy` over the state of the internal policy. -/
structure FomoPolicy (σ : Type) where
  nucleus : CacheNucleus
  fomoMh : Queue
  ghostSize : Nat
  internal : σ
  state : FomoState
  counter : Nat
  periodSize : Nat
  cHits : Nat
  mhHits : Nat
  mhHitsTotal : Nat

structure FomoTransaction where
  oblock : Oblock
  filter : Bool
  state : FomoState
  cHit : Bool
  mhHit : Bool
  cHits : Nat
  mhHits : Nat
  mhHitsTotal : Nat
  counter : Nat

variable {σ : Type} (P : Policy σ)

def fomoRemoveEntry (fomo : FomoPolicy σ) (fe : EntryRef) : Exec (FomoPolicy σ) := do
  let fomo := { fomo with fomoMh := queueRemove fomo.fomoMh fe }
  let nucleus ← cacheNucleusRemove fomo.nucleus fe
  return { fomo with nucleus := nucleus }

def fomoRemove (fomo : FomoPolicy σ) (oblock : Oblock) (removeToHistory : Bool) :
    Exec (FomoPolicy σ) := do
  let fomo ← match hashLookup fomo.nucleus oblock, removeToHistory with
    | some fe, false => fomoRemoveEntry fomo fe
    | _, _ => .ok fomo
  let internal ← P.remove fomo.internal oblock removeToHistory
  return { fomo with internal := internal }

def fomoTransactionInit (fomo : FomoPolicy σ) (oblock : Oblock) : FomoTransaction where
  oblock := oblock
  filter := true
  state := fomo.state
  cHit := false
  mhHit := false
  cHits := fomo.cHits
  mhHits := fomo.mhHits
  mhHitsTotal := fomo.mhHitsTotal
  counter := fomo.counter

/-- The vote at the end of a period. -/
def fomoDetermineState (fomo : FomoPolicy σ) (ft : FomoTransaction) : FomoState :=
  if ft.state = .filter ∧ ft.mhHits > 50 * fomo.periodSize ∧ ft.cHits < ft.mhHits then .insert
  else if ft.state = .insert ∧ ft.cHits ≥ ft.mhHits then .filter
  else ft.state

def fomoTransactionSet (fomo : FomoPolicy σ) (ft : FomoTransaction) : FomoTransaction :=
  let cHit := (P.cacheLookup fomo.internal ft.oblock).isSome
  let mhHit := (hashLookup fomo.nucleus ft.oblock).isSome
  let ft := { ft with cHit := cHit, mhHit := mhHit }
  let ft : FomoTransaction :=
    if ft.cHit then { ft with cHits := ft.cHits + 1000, filter := false } else ft
  let ft : FomoTransaction :=
    if ft.mhHit then
      { ft with
        mhHits := ft.mhHits + 1000, filter := false, mhHitsTotal := ft.mhHitsTotal + 1 }
    else ft
  let ft := { ft with counter := ft.counter + 1 }
  let ft : FomoTransaction :=
    if ft.counter % fomo.periodSize = 0 then
      -- the internal nucleus' own cache_pool, not policy_cache_is_full
      let ft : FomoTransaction :=
        if cacheIsFull (P.nucleus fomo.internal) then
          { ft with state := fomoDetermineState fomo ft }
        else ft
      { ft with cHits := 0, mhHits := 0, counter := 0 }
    else ft
  if ft.state = .insert then { ft with filter := false } else ft

def fomoTransactionIsLegal (fomo : FomoPolicy σ) (ft : FomoTransaction) :
    Exec (FomoPolicy σ × Bool) :=
  if ft.filter then .ok (fomo, true)
  else do
    let (internal, op, _) ← P.nextVictim fomo.internal ft.oblock
    return ({ fomo with internal := internal }, decide (op ≠ .fail))

/-- The four history branches of `fomo_transaction_commit`. -/
def fomoCommitHistory (fomo : FomoPolicy σ) (ft : FomoTransaction) : Exec (FomoPolicy σ) :=
  if ft.cHit then
    if ft.mhHit then do
      let fe ← deref (hashLookup fomo.nucleus ft.oblock)
      fomoRemoveEntry fomo fe
    else .ok fomo
  else if ft.mhHit then do
    let fe ← deref (hashLookup fomo.nucleus ft.oblock)
    if fomo.state = .filter then fomoRemoveEntry fomo fe
    else
      return { fomo with fomoMh := queuePush (queueRemove fomo.fomoMh fe) fe }
  else do
    let fomo ←
      if queueLength fomo.fomoMh = fomo.ghostSize then do
        let lru ← deref (queuePeek fomo.fomoMh)
        fomoRemoveEntry fomo lru
      else .ok fomo
    let (nucleus, fe) ← insertInMeta fomo.nucleus ft.oblock
    return { fomo with nucleus := nucleus, fomoMh := queuePush fomo.fomoMh fe }

def fomoTransactionCommit (fomo : FomoPolicy σ) (ft : FomoTransaction)
    (result : CacheNucleusResult) : Exec (FomoPolicy σ × CacheNucleusResult) := do
  let fomo := { fomo with
    counter := ft.counter, cHits := ft.cHits, mhHits := ft.mhHits, state := ft.state
    mhHitsTotal := ft.mhHitsTotal }
  let fomo ← fomoCommitHistory fomo ft
  if ft.filter then
    return ({ fomo with nucleus := fomo.nucleus.incFilters }, { result with op := .filter })
  else
    let (internal, result) ← P.map fomo.internal ft.oblock false result
    return ({ fomo with internal := internal }, result)

/-- The write flag stays behind: the internal policy is always asked to map a read. -/
def fomoMap (fomo : FomoPolicy σ) (oblock : Oblock) (_write : Bool)
    (result : CacheNucleusResult) : Exec (FomoPolicy σ × CacheNucleusResult) := do
  let result := { result with op := .fail }
  let ft := fomoTransactionSet P fomo (fomoTransactionInit fomo oblock)
  let (fomo, legal) ← fomoTransactionIsLegal P fomo ft
  if legal then fomoTransactionCommit P fomo ft result
  else return (fomo, { result with op := .fail })

def fomoInsert (fomo : FomoPolicy σ) (oblock : Oblock) (cblock : Cblock) :
    Exec (FomoPolicy σ) := do
  let internal ← P.insert fomo.internal oblock cblock
  return { fomo with internal := internal }

def fomoMigrated (fomo : FomoPolicy σ) (oblock : Oblock) : Exec (FomoPolicy σ) := do
  let internal ← P.migrated fomo.internal oblock
  return { fomo with internal := internal }

/-- The history entry under `new_oblock` goes first, then the one under
`current_oblock` takes its name. -/
def fomoRemap (fomo : FomoPolicy σ) (currentOblock newOblock : Oblock) :
    Exec (FomoPolicy σ) := do
  let fomo ← match hashLookup fomo.nucleus newOblock with
    | some fe => fomoRemoveEntry fomo fe
    | none => .ok fomo
  let fomo ← match hashLookup fomo.nucleus currentOblock with
    | some fe => do
      let nucleus ← hashRemove fomo.nucleus fe
      let nucleus := nucleus.setEntry fe { nucleus.entry fe with oblock := newOblock }
      .ok { fomo with nucleus := hashInsert nucleus fe }
    | none => .ok fomo
  let internal ← P.remap fomo.internal currentOblock newOblock
  return { fomo with internal := internal }

def fomoGetStats (fomo : FomoPolicy σ) (stats : PolicyStats) : PolicyStats :=
  let stats := P.getStats fomo.internal stats
  { stats with filters := u32 (stats.filters + fomo.nucleus.stats.filters) }

def fomoSetTime (fomo : FomoPolicy σ) (time : Nat) : FomoPolicy σ :=
  { fomo with
    nucleus := { fomo.nucleus with time := time }
    internal := P.setTime fomo.internal time }

def fomoNextVictim (fomo : FomoPolicy σ) (oblock : Oblock) :
    Exec (FomoPolicy σ × CacheNucleusOperation × Option EntryRef) := do
  let ft := fomoTransactionSet P fomo (fomoTransactionInit fomo oblock)
  let (fomo, legal) ← fomoTransactionIsLegal P fomo ft
  if legal then
    if ft.filter then return (fomo, .filter, none)
    else
      let (internal, op, victim) ← P.nextVictim fomo.internal oblock
      return ({ fomo with internal := internal }, op, victim)
  else return (fomo, .fail, none)

/-- The function table `fomo_init` installs. -/
def fomoApi : Policy (FomoPolicy σ) where
  nucleus := FomoPolicy.nucleus
  entryAt := fun fomo => P.entryAt fomo.internal
  owner := fun fomo => P.owner fomo.internal
  setOwner := fun fomo nucleus => { fomo with internal := P.setOwner fomo.internal nucleus }
  map := fomoMap P
  remove := fomoRemove P
  insert := fomoInsert P
  migrated := fomoMigrated P
  cacheLookup := fun fomo => P.cacheLookup fomo.internal
  metaLookup := fun fomo => P.metaLookup fomo.internal
  cblockLookup := fun fomo => P.cblockLookup fomo.internal
  remap := fomoRemap P
  getStats := fomoGetStats P
  setTime := fomoSetTime P
  residency := fun fomo => P.residency fomo.internal
  cacheIsFull := fun fomo => P.cacheIsFull fomo.internal
  inferCblock := fun fomo => P.inferCblock fomo.internal
  nextVictim := fomoNextVictim P

def fomoInit (cacheSize : UInt32) (internal : σ) : Exec (FomoPolicy σ) := do
  let nucleus := ({} : CacheNucleus).setPool .metadata (epoolCreate {} cacheSize.toNat)
  let nucleus ← policyInit nucleus 0 cacheSize.toNat
  return {
    nucleus := nucleus
    fomoMh := []
    ghostSize := cacheSize.toNat
    internal := internal
    state := .insert
    counter := 0
    periodSize := max (cacheSize.toNat / 100) 1
    cHits := 0
    mhHits := 0
    mhHitsTotal := 0 }

def fomoCreate (cacheSize metaSize : UInt32) (policyCreate : UInt32 → UInt32 → Exec σ) :
    Exec (FomoPolicy σ) := do
  let internal ← policyCreate cacheSize metaSize
  fomoInit cacheSize internal

end Fomo
