import Fomo.Sim.EntryTable
import Fomo.Sim.SimHoardRuns

/-!
# The recency classifier (`sim/sim_recency_classifier.h`)

The simulator sorts the accesses by whether they hit and by which of the last blocks accessed,
inserted, evicted and filtered they are for. A block has an entry as long as one of the four queues
holds it, and its flags say which.
-/
namespace Fomo

open Lib (mostRecent)

/-- `enum recency_type`. The fifth value has no queue. -/
inductive RecencyType
  | accessed
  | inserted
  | evicted
  | filtered
  deriving DecidableEq, Repr

def RecencyType.toNat : RecencyType → Nat
  | accessed => 0
  | inserted => 1
  | evicted => 2
  | filtered => 3

def recencyTypeFlag (rType : RecencyType) : BitVec 32 := 2 <<< rType.toNat

/-- `struct recency_classifier`. `recencyFlags` is the member of that name of the entries, and an
entry is in the queue of a type when its list of the type is linked there. -/
structure RecencyClassifier where
  table : EntryTable
  q : RecencyType → List Nat
  recencyFlags : Nat → BitVec 32
  count : List Nat
  cacheSize : Nat

/-- The entry at the head of a queue that is too long leaves it, and an orphan is freed. -/
def recencyClassifierTrim (rClass : RecencyClassifier) (rType : RecencyType) :
    Exec RecencyClassifier :=
  if (rClass.q rType).length > rClass.cacheSize then do
    let evictedRe ← deref (rClass.q rType).head?
    let flags := rClass.recencyFlags evictedRe &&& ~~~recencyTypeFlag rType
    let rClass := { rClass with
      q := Function.update rClass.q rType (rClass.q rType).tail
      recencyFlags := Function.update rClass.recencyFlags evictedRe flags }
    if flags = 0 then do
      let table ← rClass.table.remove evictedRe
      return { rClass with table := table }
    else return rClass
  else .ok rClass

def recencyClassifierPushToQueue (rClass : RecencyClassifier) (rType : RecencyType) (re : Nat) :
    Exec RecencyClassifier :=
  recencyClassifierTrim { rClass with
    q := Function.update rClass.q rType ((rClass.q rType).erase re ++ [re])
    recencyFlags := Function.update rClass.recencyFlags re
      (rClass.recencyFlags re ||| recencyTypeFlag rType) } rType

/-- The entry of a block, or a new one. -/
def recencyClassifierEntry (rClass : RecencyClassifier) (oblock : Oblock) :
    Exec (RecencyClassifier × Nat) :=
  match rClass.table.lookup oblock with
  | some e => .ok (rClass, e)
  | none =>
    match rClass.table.alloc oblock with
    | none => .error .assertion
    | some (table, e) => .ok ({ rClass with table := table }, e)

/-- `++count[classification]`, in an array of 32. -/
def recencyClassifierCount (rClass : RecencyClassifier) (classification : BitVec 32) :
    Exec RecencyClassifier :=
  if classification.toNat < rClass.count.length then
    .ok { rClass with count := rClass.count.modify classification.toNat fun n => u32 (n + 1) }
  else .error .outOfBounds

/-- A replacement goes on as a new block does, with the entry of the accessed block. -/
def recencyClassifierUpdate (rClass : RecencyClassifier) (oblock : Oblock)
    (result : CacheNucleusResult) : Exec RecencyClassifier :=
  if result.op = .fail then .ok rClass
  else do
    let (rClass, re) ← recencyClassifierEntry rClass oblock
    let classification := rClass.recencyFlags re
    let rClass ← recencyClassifierPushToQueue rClass .accessed re
    match result.op with
    | .hit => recencyClassifierCount rClass (classification ||| 1)
    | .filter => do
      let rClass ← recencyClassifierPushToQueue rClass .filtered re
      recencyClassifierCount rClass classification
    | .replace => do
      let (rClass, evictedRe) ← recencyClassifierEntry rClass result.oldOblock
      let rClass ← recencyClassifierPushToQueue rClass .evicted evictedRe
      let rClass ← recencyClassifierPushToQueue rClass .inserted re
      recencyClassifierCount rClass classification
    | .new => do
      let rClass ← recencyClassifierPushToQueue rClass .inserted re
      recencyClassifierCount rClass classification
    | .fail => .error .assertion

/-- `count` is what the counters were before: `init` sets four of the 32. -/
def recencyClassifierInit (count : List Nat) (cacheSize : UInt32) : Exec RecencyClassifier := do
  let table ← EntryTable.init (u32 (4 * cacheSize.toNat + 2))
  return {
    table := table
    q := fun _ => []
    recencyFlags := fun _ => 0
    count := List.replicate 4 0 ++ count.drop 4
    cacheSize := cacheSize.toNat }

def recencyRun (rClass : RecencyClassifier) (t : List HoardAccess) : Exec RecencyClassifier :=
  t.foldlM (fun rClass a => recencyClassifierUpdate rClass a.1 a.2) rClass

/-! ## What is classified -/

/-- The blocks to which an access does what the type says. -/
def recencyEvents (rType : RecencyType) (a : HoardAccess) : List Oblock :=
  match rType, a.2.op with
  | .accessed, .hit | .accessed, .filter | .accessed, .new | .accessed, .replace => [a.1]
  | .inserted, .new | .inserted, .replace => [a.1]
  | .evicted, .replace => [a.2.oldOblock]
  | .filtered, .filter => [a.1]
  | _, _ => []

/-- The last `n` blocks to which that happened. -/
def recencyWindow (n : Nat) (t : List HoardAccess) (rType : RecencyType) : List Oblock :=
  mostRecent n (t.flatMap (recencyEvents rType))

/-- The flags of an entry in the queues `p`. -/
def flagsOf (p : RecencyType → Bool) : BitVec 32 :=
  (if p .accessed then 0b10 else 0) ||| (if p .inserted then 0b100 else 0) |||
    (if p .evicted then 0b1000 else 0) ||| (if p .filtered then 0b10000 else 0)

/-- The class of an access after the accesses `t`. -/
def recencyClass (n : Nat) (t : List HoardAccess) (a : HoardAccess) : BitVec 32 :=
  flagsOf (fun rType => decide (a.1 ∈ recencyWindow n t rType)) ||| if a.2.op = .hit then 1 else 0

/-- The accesses of the class `k` among `t`. -/
def recencyCount (n : Nat) (t : List HoardAccess) (k : Nat) : Nat :=
  (List.range t.length).countP fun i =>
    t[i]?.any fun a => decide (a.2.op ≠ .fail) && decide ((recencyClass n (t.take i) a).toNat = k)

/-! ## The flags -/

section Flags

variable {p : RecencyType → Bool} {rType : RecencyType}

theorem flagsOf_set (p : RecencyType → Bool) (rType : RecencyType) :
    flagsOf p ||| recencyTypeFlag rType = flagsOf (Function.update p rType true) := by
  unfold flagsOf
  cases rType
  all_goals
    simp only [Function.update_apply, reduceCtorEq, if_true, if_false]
    generalize p .accessed = a
    generalize p .inserted = i
    generalize p .evicted = e
    generalize p .filtered = f
    revert a i e f
    decide

theorem flagsOf_clear (p : RecencyType → Bool) (rType : RecencyType) :
    flagsOf p &&& ~~~recencyTypeFlag rType = flagsOf (Function.update p rType false) := by
  unfold flagsOf
  cases rType
  all_goals
    simp only [Function.update_apply, reduceCtorEq, if_true, if_false]
    generalize p .accessed = a
    generalize p .inserted = i
    generalize p .evicted = e
    generalize p .filtered = f
    revert a i e f
    decide

theorem flagsOf_eq_zero : flagsOf p = 0 ↔ ∀ rType, p rType = false := by
  constructor
  · intro h rType
    unfold flagsOf at h
    generalize ha : p .accessed = a at h
    generalize hi : p .inserted = i at h
    generalize he : p .evicted = e at h
    generalize hf : p .filtered = f at h
    have hall : a = false ∧ i = false ∧ e = false ∧ f = false := by
      clear ha hi he hf
      revert a i e f
      decide
    cases rType with
    | accessed => exact ha.trans hall.1
    | inserted => exact hi.trans hall.2.1
    | evicted => exact he.trans hall.2.2.1
    | filtered => exact hf.trans hall.2.2.2
  · intro h
    simp only [flagsOf, h]
    rfl

/-- A class is a place of the array of counters. -/
theorem flagsOf_lt (p : RecencyType → Bool) (hit : Bool) :
    (flagsOf p ||| if hit then 1 else 0).toNat < 32 := by
  unfold flagsOf
  generalize p .accessed = a
  generalize p .inserted = i
  generalize p .evicted = e
  generalize p .filtered = f
  revert a i e f hit
  decide

end Flags

end Fomo
