import Fomo.Sim.EntryTable
import Fomo.Sim.SimHoardRuns

/-!
# The LIR and HIR counts (`sim/sim_lir_hir_count.h`)

The simulator counts, among the blocks accessed last, those that were accessed once and those that
were accessed more often since they came into the cache or back among these blocks.
-/
namespace Fomo

open Lib (mostRecent)

/-- `struct lir_hir_tracker`. `freq` and `inCache` are the members of that name of the entries. -/
structure LirHirTracker where
  table : EntryTable
  q : List Nat
  freq : Nat → Nat
  inCache : Nat → Bool
  lirCount : Nat
  hirCount : Nat

/-- The entry is no longer counted. -/
def lirHirUncount (lhTracker : LirHirTracker) (lhe : Nat) : LirHirTracker :=
  let lhTracker :=
    if lhTracker.freq lhe = 1 then { lhTracker with hirCount := dec32 lhTracker.hirCount }
    else if lhTracker.freq lhe > 1 then { lhTracker with lirCount := dec32 lhTracker.lirCount }
    else lhTracker
  { lhTracker with
    inCache := Function.update lhTracker.inCache lhe false
    freq := Function.update lhTracker.freq lhe 0 }

/-- The block accessed longest ago loses its entry. -/
def lirHirEvict (lhTracker : LirHirTracker) : Exec LirHirTracker := do
  let evictLhe ← deref lhTracker.q.head?
  let lhTracker := lirHirUncount { lhTracker with q := lhTracker.q.tail } evictLhe
  let table ← lhTracker.table.remove evictLhe
  return { lhTracker with table := table }

/-- An entry is freed when there is none left. -/
def lirHirMakeRoom (lhTracker : LirHirTracker) : Exec LirHirTracker :=
  if epoolEmpty lhTracker.table.entryPool then lirHirEvict lhTracker else .ok lhTracker

/-- The entry of the block, at the end of the queue, and whether it was among the last ones. -/
def lirHirAccess (lhTracker : LirHirTracker) (oblock : Oblock) :
    Exec (LirHirTracker × Nat × Bool) :=
  match lhTracker.table.lookup oblock with
  | some lhe => .ok ({ lhTracker with q := lhTracker.q.erase lhe ++ [lhe] }, lhe, true)
  | none => do
    let lhTracker ← lirHirMakeRoom lhTracker
    match lhTracker.table.alloc oblock with
    | none => .error .assertion
    | some (table, lhe) => .ok ({ lhTracker with
        table := table
        q := lhTracker.q ++ [lhe]
        inCache := Function.update lhTracker.inCache lhe false
        freq := Function.update lhTracker.freq lhe 0 }, lhe, false)

def lirHirSet (lhTracker : LirHirTracker) (lhe : Nat) (inCache : Bool) (freq : Nat) :
    LirHirTracker :=
  { lhTracker with
    inCache := Function.update lhTracker.inCache lhe inCache
    freq := Function.update lhTracker.freq lhe freq }

/-- The entry of a block that comes in, or comes back among the last ones. -/
def lirHirEnter (lhTracker : LirHirTracker) (lhe : Nat) : LirHirTracker :=
  { lirHirSet lhTracker lhe true 1 with hirCount := u32 (lhTracker.hirCount + 1) }

def lirHirHit (lhTracker : LirHirTracker) (lhe : Nat) (inLastN : Bool) : LirHirTracker :=
  if !inLastN then lirHirEnter lhTracker lhe
  else if lhTracker.inCache lhe then
    let freq := u32 (lhTracker.freq lhe + 1)
    let lhTracker := lirHirSet lhTracker lhe true freq
    if freq = 2 then { lhTracker with
      hirCount := dec32 lhTracker.hirCount
      lirCount := u32 (lhTracker.lirCount + 1) }
    else lhTracker
  else lhTracker

/-- The victim of a replacement. -/
def lirHirForget (lhTracker : LirHirTracker) (oldOblock : Oblock) : LirHirTracker :=
  match lhTracker.table.lookup oldOblock with
  | some evictLhe => lirHirUncount lhTracker evictLhe
  | none => lhTracker

/-- A replacement goes on as a new block does. -/
def lirHirTrackerUpdate (lhTracker : LirHirTracker) (oblock : Oblock)
    (result : CacheNucleusResult) : Exec LirHirTracker := do
  let (lhTracker, lhe, inLastN) ← lirHirAccess lhTracker oblock
  match result.op with
  | .hit => return lirHirHit lhTracker lhe inLastN
  | .filter | .fail => return lirHirSet lhTracker lhe false 0
  | .replace => return lirHirEnter (lirHirForget lhTracker result.oldOblock) lhe
  | .new => return lirHirEnter lhTracker lhe

def lirHirTrackerInit (cacheSize : UInt32) : Exec LirHirTracker := do
  let table ← EntryTable.init cacheSize.toNat
  return {
    table := table
    q := []
    freq := fun _ => 0
    inCache := fun _ => false
    lirCount := 0
    hirCount := 0 }

def lirHirRun (lhTracker : LirHirTracker) (t : List HoardAccess) : Exec LirHirTracker :=
  t.foldlM (fun lhTracker a => lirHirTrackerUpdate lhTracker a.1 a.2) lhTracker

/-! ## What is counted -/

/-- The accesses to a cached block since it came in or came back among the last ones, which are
`recent`; none for a block that is not cached. -/
def heatStep (recent : List Oblock) (heat : Oblock → Nat) (a : HoardAccess) : Oblock → Nat :=
  match a.2.op with
  | .hit => Function.update heat a.1 (if a.1 ∈ recent then heat a.1 + 1 else 1)
  | .new => Function.update heat a.1 1
  | .replace => Function.update (Function.update heat a.2.oldOblock 0) a.1 1
  | .filter | .fail => heat

/-- The last `n` blocks and the accesses to them, after the accesses `t`. -/
def lirHirTrace (n : Nat) (t : List HoardAccess) : List Oblock × (Oblock → Nat) :=
  t.foldl (fun x a => (Lib.trim n (x.1.erase a.1 ++ [a.1]), heatStep x.1 x.2 a)) ([], fun _ => 0)

/-- The blocks whose accesses meet `p`. -/
def heated (p : Nat → Bool) (recent : Finset Oblock) (heat : Oblock → Nat) : Finset Oblock :=
  recent.filter fun o => p (heat o) = true

theorem heated_card_update (p : Nat → Bool) {recent : Finset Oblock} (heat : Oblock → Nat)
    {o : Oblock} (ho : o ∈ recent) (v : Nat) :
    (heated p recent (Function.update heat o v)).card =
      (heated p (recent.erase o) heat).card + if p v = true then 1 else 0 := by
  have hrest : heated p (recent.erase o) (Function.update heat o v) =
      heated p (recent.erase o) heat := by
    refine Finset.filter_congr fun a ha => ?_
    rw [Function.update_of_ne (Finset.ne_of_mem_erase ha)]
  rw [heated, ← Finset.insert_erase ho, Finset.filter_insert, Function.update_self,
    Finset.erase_insert (Finset.notMem_erase o recent), ← heated, hrest]
  split
  · refine Finset.card_insert_of_notMem fun hmem => ?_
    exact Finset.notMem_erase o recent (Finset.mem_of_mem_filter o hmem)
  · rfl

theorem heated_card_erase (p : Nat → Bool) {recent : Finset Oblock} (heat : Oblock → Nat)
    {o : Oblock} (ho : o ∈ recent) : (heated p recent heat).card =
      (heated p (recent.erase o) heat).card + if p (heat o) = true then 1 else 0 := by
  have h := heated_card_update p heat ho (heat o)
  rwa [Function.update_eq_self] at h

end Fomo
