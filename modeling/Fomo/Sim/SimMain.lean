import Fomo.Include.Api
import Fomo.Sim.SimMigrationTracker
import Fomo.TraceReader.TraceReader

/-!
# The simulator (`sim/main.c`)

The simulator runs a trace through a policy, one access at a time, with a sampling rate of 1.
It completes the migration of a block that came in, at once or after a delay, and it removes the
block of an access now and then.
-/
namespace Fomo

/-- The options a run depends on. -/
structure SimOptions where
  migrationDelay : UInt64
  removeRate : Int

structure SimStats where
  writeHits : Nat := 0
  writeMisses : Nat := 0
  readHits : Nat := 0
  readMisses : Nat := 0
  dirtyEvicts : Nat := 0

/-- `struct random_state`. `drawn` counts the calls of `random()`. -/
structure RandomState where
  prevRandom : Nat := 0
  seed : Nat := 0
  drawn : Nat := 0

/-- The globals of the simulator and its policy. `mTracker` is `none` as long as `m_tracker` is
not initialised: its table is `NULL` then. -/
structure Sim (σ : Type) where
  bp : σ
  mTracker : Option MigrationTracker
  randomRemove : RandomState
  simStats : SimStats

/-- `random_int`, where `random` holds the values that `random()` returns. -/
def randomInt (random : Nat → Nat) (state : RandomState) : RandomState × Nat :=
  let randomVal := u32 (random state.drawn)
  ({ state with prevRandom := randomVal, drawn := state.drawn + 1 }, randomVal)

/-- An `unsigned` passed as an `int`. -/
def toInt32 (n : Nat) : Int := if n < 2 ^ 31 then n else n - (2 ^ 32 : Nat)

def removeNow (options : SimOptions) (random : Nat → Nat) (state : RandomState) (time : Nat) :
    RandomState × Bool :=
  if options.removeRate = 0 then (state, false)
  else if options.removeRate > 0 then
    (state, decide ((toInt32 time).tmod options.removeRate = 0))
  else
    let (state, randomVal) := randomInt random state
    (state, decide ((randomVal : Int).tmod (-options.removeRate) = 0))

def SimStats.countHit (stats : SimStats) (write : Bool) : SimStats :=
  if write then { stats with writeHits := stats.writeHits + 1 }
  else { stats with readHits := stats.readHits + 1 }

def SimStats.countMiss (stats : SimStats) (write : Bool) : SimStats :=
  if write then { stats with writeMisses := stats.writeMisses + 1 }
  else { stats with readMisses := stats.readMisses + 1 }

variable {σ : Type} (P : Policy σ) (options : SimOptions) (random : Nat → Nat)

/-- A block that migrates is not asked for again. The operation of its result is the one of an
empty record, which is a hit. -/
def simMap (sim : Sim σ) (read : TraceReaderResult) (result : CacheNucleusResult) :
    Exec (Sim σ × CacheNucleusResult) :=
  if (P.cacheLookup sim.bp read.oblock).any fun e => (P.entryAt sim.bp e).migrating then
    .ok ({ sim with simStats := sim.simStats.countHit read.write }, result)
  else do
    let (bp, result) ← P.map sim.bp read.oblock read.write result
    let stats :=
      if result.op = .hit then sim.simStats.countHit read.write
      else sim.simStats.countMiss read.write
    let stats :=
      if result.dirtyEviction then { stats with dirtyEvicts := stats.dirtyEvicts + 1 } else stats
    return ({ sim with bp := bp, simStats := stats }, result)

/-- The block came in and migrates. -/
def CacheNucleusResult.admitted (result : CacheNucleusResult) : Bool :=
  decide (result.op = .new) || decide (result.op = .replace)

/-- The migrations that complete at this access, and the one that begins. -/
def simMigrate (sim : Sim σ) (time : Nat) (read : TraceReaderResult)
    (result : CacheNucleusResult) : Exec (Sim σ) :=
  if options.migrationDelay = 0 then
    if result.admitted then do
      let bp ← P.migrated sim.bp read.oblock
      return { sim with bp := bp }
    else .ok sim
  else do
    let tracker ← deref sim.mTracker
    let (tracker, migrated) ← migrationNext tracker time
    let bp ← match migrated with
      | some oblock =>
        if (P.cacheLookup sim.bp oblock).isSome then P.migrated sim.bp oblock else .ok sim.bp
      | none => .ok sim.bp
    let tracker ←
      if result.admitted then migrationAdd tracker time read.oblock else .ok tracker
    return { sim with bp := bp, mTracker := some tracker }

/-- Using the table of a tracker that is not initialised dereferences `NULL`. -/
def simRemove (sim : Sim σ) (time : Nat) (read : TraceReaderResult) : Exec (Sim σ) :=
  let (state, now) := removeNow options random sim.randomRemove time
  let sim := { sim with randomRemove := state }
  if now && (P.cacheLookup sim.bp read.oblock).isSome then do
    let tracker ← deref sim.mTracker
    let tracker ← migrationRemove tracker read.oblock
    let bp ← P.remove sim.bp read.oblock true
    return { sim with bp := bp, mTracker := some tracker }
  else .ok sim

/-- One access, of the entry that was read from the trace. -/
def simAccess (sim : Sim σ) (time : Nat) (read : TraceReaderResult) : Exec (Sim σ) := do
  let sim := { sim with bp := P.setTime sim.bp time }
  let (sim, result) ← simMap P sim read {}
  let sim ← simMigrate P options sim time read result
  simRemove P options random sim time read

/-- `sim_prep` and `policy_prep`, the policy being created already. The tracker is not
initialised without a delay. -/
def simPrep (bp : σ) : Exec (Sim σ) := do
  let sim : Sim σ :=
    { bp := bp, mTracker := none, randomRemove := { seed := 123 }, simStats := {} }
  if options.migrationDelay = 0 then return sim
  else
    let tracker ← migrationTrackerInit (u32 options.migrationDelay.toNat)
    return { sim with mTracker := some tracker }

/-- The loop of `main`, over the globals and the time of the next access. -/
def simSystem : Lib.System (Sim σ × Nat) TraceReaderResult Unit Fault where
  guard := fun _ _ => True
  step := fun state read =>
    (simAccess P options random state.1 state.2 read).map fun sim =>
      ((sim, u32 (state.2 + 1)), ())

end Fomo
