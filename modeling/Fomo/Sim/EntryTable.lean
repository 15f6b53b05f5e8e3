import Fomo.Sim.SimHoardSteps

/-!
# The tables of the simulator's trackers

Each tracker has a hash table and a pool of entries, one for each block it knows. What was said of
the hoard tracker's holds of each.
-/
namespace Fomo

/-- The members `ht` and `entry_pool` of a tracker. -/
structure EntryTable where
  ht : List Nat
  entryPool : EntryPool

namespace EntryTable

/-- The table in a hoard tracker that has nothing else. -/
def hoard (table : EntryTable) : HoardTracker where
  ht := table.ht
  entryPool := table.entryPool
  q := []
  freq := fun _ => 0
  inCache := fun _ => false
  count := 0
  cacheSize := 0

/-- `hash_lookup` -/
def lookup (table : EntryTable) (oblock : Oblock) : Option Nat :=
  table.ht.find? fun i => decide ((table.entryPool.entries i).oblock = oblock)

/-- `hash_remove` and `free_entry`. -/
def remove (table : EntryTable) (e : Nat) : Exec EntryTable :=
  if e ∈ table.ht then do
    let pool ← freeEntry table.entryPool e
    return { ht := table.ht.erase e, entryPool := pool }
  else .error .nullPointer

/-- `alloc_entry` and `hash_insert`. -/
def alloc (table : EntryTable) (oblock : Oblock) : Option (EntryTable × Nat) :=
  match allocEntry table.entryPool with
  | none => none
  | some (pool, e) => some ({
      ht := e :: table.ht
      entryPool := pool.set e { pool.entries e with oblock := oblock } }, e)

/-- `ht_init`, `epool_create` and `epool_init`. The allocations are taken to succeed. -/
def init (size : Nat) : Exec EntryTable := do
  let pool ← epoolInit (epoolCreate {} size) 0
  return { ht := [], entryPool := pool }

def oblock (table : EntryTable) (e : Nat) : Oblock := (table.entryPool.entries e).oblock

/-- The table has an entry for each block of `tracked`. -/
def Tracks (tracked : Finset Oblock) (table : EntryTable) : Prop := table.hoard.Table tracked

variable {table table' : EntryTable} {tracked : Finset Oblock} {o : Oblock} {i j n : Nat}

theorem Tracks.lookup_eq_some (h : table.Tracks tracked) :
    table.lookup o = some i ↔ i ∈ table.ht ∧ table.oblock i = o :=
  HoardTracker.Table.lookup_eq_some h

theorem Tracks.lookup_eq_none (h : table.Tracks tracked) : table.lookup o = none ↔ o ∉ tracked :=
  HoardTracker.Table.lookup_eq_none h

theorem Tracks.exists_lookup (h : table.Tracks tracked) (ho : o ∈ tracked) :
    ∃ i, table.lookup o = some i ∧ i ∈ table.ht ∧ table.oblock i = o :=
  HoardTracker.Table.exists_lookup h ho

theorem Tracks.nodup (h : table.Tracks tracked) : table.ht.Nodup :=
  HoardTracker.Table.ht_nodup h

theorem Tracks.inj (h : table.Tracks tracked) (hi : i ∈ table.ht) (hj : j ∈ table.ht)
    (heq : table.oblock i = table.oblock j) : i = j :=
  HoardTracker.Table.inj h i hi j hj heq

theorem Tracks.mem_tracked (h : table.Tracks tracked) (hi : i ∈ table.ht) :
    table.oblock i ∈ tracked :=
  (HoardTracker.Table.tracked h _).mpr ⟨i, hi, rfl⟩

theorem Tracks.card_eq (h : table.Tracks tracked) : tracked.card = table.entryPool.nrAllocated :=
  HoardTracker.Table.card_eq h

/-- An entry that is removed takes its block out. -/
theorem Tracks.remove (h : table.Tracks tracked) (hi : i ∈ table.ht) :
    ∃ table', table.remove i = .ok table' ∧ table'.Tracks (tracked.erase (table.oblock i)) ∧
      table'.entryPool.nrEntries = table.entryPool.nrEntries ∧ table'.ht = table.ht.erase i ∧
      table'.oblock = table.oblock := by
  obtain ⟨h', hrun, htab, hrest, hht, hob⟩ := HoardTracker.Table.remove h hi
  rw [hoardRemove, if_pos (show i ∈ table.hoard.ht from hi)] at hrun
  obtain ⟨pool, hfree, hrun⟩ := bind_eq_ok.mp hrun
  have hfree : freeEntry table.entryPool i = .ok pool := hfree
  obtain rfl := Except.ok.inj hrun
  refine ⟨{ ht := table.ht.erase i, entryPool := pool }, ?_, htab.congr rfl rfl, hrest.nrEntries,
    rfl, hob⟩
  rw [EntryTable.remove, if_pos hi, hfree]
  rfl

/-- A new entry for a block that is not known. -/
theorem Tracks.alloc (h : table.Tracks tracked) (ho : o ∉ tracked)
    (hroom : tracked.card < table.entryPool.nrEntries) : ∃ table' i,
    table.alloc o = some (table', i) ∧ table'.Tracks (insert o tracked) ∧
      table'.entryPool.nrEntries = table.entryPool.nrEntries ∧ table'.ht = i :: table.ht ∧
      i ∉ table.ht ∧ table'.oblock = Function.update table.oblock i o := by
  obtain ⟨h', i, halloc, htab, hrest, hht, hni, hob⟩ := HoardTracker.Table.alloc h ho hroom
  rw [hoardAlloc] at halloc
  cases hpool : allocEntry table.entryPool with
  | none =>
    have hpool : allocEntry table.hoard.entryPool = none := hpool
    rw [hpool] at halloc
    cases halloc
  | some x =>
    obtain ⟨pool, e⟩ := x
    have hpool' : allocEntry table.hoard.entryPool = some (pool, e) := hpool
    rw [hpool'] at halloc
    obtain ⟨rfl, rfl⟩ := Prod.mk.inj (Option.some.inj halloc)
    exact ⟨{ ht := e :: table.ht, entryPool := pool.set e { pool.entries e with oblock := o } }, e,
      by rw [EntryTable.alloc, hpool], htab.congr rfl rfl, hrest.nrEntries, rfl, hni, hob⟩

theorem init_spec (hn : n < 2 ^ 32) : ∃ table, init n = .ok table ∧ table.Tracks ∅ ∧
    table.entryPool.nrEntries = n ∧ table.ht = [] := by
  have hinit : init n = .ok { ht := [], entryPool := freshPool n } := by
    rw [init, epoolInit_create hn]
    rfl
  refine ⟨_, hinit, ⟨freshPool_wf hn, List.nodup_nil, fun i => ?_, fun i hi => ?_, fun o => ?_⟩,
    rfl, rfl⟩
  · show i ∈ [] ↔ _
    simp [hoard, freshPool]
  · cases hi
  · show o ∈ ∅ ↔ ∃ i ∈ [], _
    simp

end EntryTable

end Fomo
