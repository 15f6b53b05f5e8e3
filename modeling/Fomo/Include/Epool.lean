import Fomo.Include.Common
import Mathlib.Data.List.Nodup
import Mathlib.Data.List.Perm.Subperm
import Mathlib.Data.List.Range

/-!
# Entry pools (`entry.h`, `tools/epool.h`)

A pool owns an array of entries. A free entry stands in the LIFO free list, a
migrating one in the migrating list, any other in neither. Pointers into a pool are
indices of its array; the list fields of an entry are represented by membership.
-/
namespace Fomo

/-- `struct entry`. The fields have the zeroes of `mem_alloc` as defaults. -/
structure Entry where
  oblock : Oblock := 0
  time : Nat := 0
  dirty : Bool := false
  allocated : Bool := false
  migrating : Bool := false
  deriving DecidableEq, Repr

/-- `struct entry_pool`. -/
structure EntryPool where
  entries : Nat → Entry := fun _ => {}
  free : List Nat := []
  migrating : List Nat := []
  nrAllocated : Nat := 0
  nrMigrating : Nat := 0
  nrEntries : Nat := 0
  startingIndex : Nat := 0

namespace EntryPool

def set (ep : EntryPool) (i : Nat) (e : Entry) : EntryPool :=
  { ep with entries := Function.update ep.entries i e }

end EntryPool

def epoolCreate (ep : EntryPool) (nrEntries : Nat) : EntryPool :=
  { ep with entries := fun _ => {}, nrEntries := nrEntries, startingIndex := 0 }

/-- The index is converted in 32-bit arithmetic, so one below `starting_index` wraps
to a large value. -/
def epoolAt (ep : EntryPool) (index : Cblock) : Option Nat :=
  let convertedIndex := u32 (index + 2 ^ 32 - ep.startingIndex)
  if convertedIndex ≥ ep.nrEntries then none else some convertedIndex

/-- The loop of `epool_init` after its first `k` iterations. -/
def epoolInitLoop (ep : EntryPool) : Nat → Exec EntryPool
  | 0 => .ok { ep with free := [], migrating := [] }
  | k + 1 => do
    let ep ← epoolInitLoop ep k
    let i ← deref (epoolAt ep k)
    let e := { ep.entries i with dirty := false, allocated := false, migrating := false }
    return { ep.set i e with free := i :: ep.free }

def epoolInit (ep : EntryPool) (startingIndex : Nat) : Exec EntryPool := do
  let ep ← epoolInitLoop ep ep.nrEntries
  return { ep with nrAllocated := 0, nrMigrating := 0, startingIndex := startingIndex }

/-- `list_del_init(&e->pool_list)` takes the entry out of the free list. A free entry is linked
in no other list, so initialising its `ht_list` and `wb_list` changes nothing. -/
def allocThisEntry (ep : EntryPool) (i : Nat) : EntryPool :=
  { ep.set i { ep.entries i with allocated := true } with
    free := ep.free.erase i
    nrAllocated := ep.nrAllocated + 1 }

/-- `NULL` when the free list is empty. -/
def allocEntry (ep : EntryPool) : Option (EntryPool × Nat) :=
  match ep.free with
  | [] => none
  | i :: _ => some (allocThisEntry ep i, i)

def allocParticularEntry (ep : EntryPool) (cblock : Cblock) : Exec (EntryPool × Nat) := do
  let i ← deref (epoolAt ep cblock)
  logAssert ((ep.entries i).allocated = false)
  return (allocThisEntry ep i, i)

def epoolEmpty (ep : EntryPool) : Bool := ep.free.isEmpty

/-- The byte offset of the entry divided by the stride of the array is its index. In
a pool of one entry the stride is read past the pointer array, but the offset is 0. -/
def inferCblock (ep : EntryPool) (i : Nat) : Cblock := i + ep.startingIndex

def migratingEntry (ep : EntryPool) (i : Nat) : Exec EntryPool := do
  logAssert (0 < ep.nrAllocated)
  logAssert ((ep.entries i).allocated = true)
  return { ep.set i { ep.entries i with migrating := true } with
    nrMigrating := ep.nrMigrating + 1
    migrating := i :: ep.migrating }

def migratedEntry (ep : EntryPool) (i : Nat) : Exec EntryPool := do
  logAssert (0 < ep.nrAllocated)
  logAssert ((ep.entries i).allocated = true)
  logAssert ((ep.entries i).migrating = true)
  return { ep.set i { ep.entries i with migrating := false } with
    nrMigrating := dec32 ep.nrMigrating
    migrating := ep.migrating.erase i }

def freeEntry (ep : EntryPool) (i : Nat) : Exec EntryPool := do
  logAssert (0 < ep.nrAllocated)
  let e := ep.entries i
  let ep := { ep.set i { e with allocated := false, migrating := false } with
    nrAllocated := dec32 ep.nrAllocated
    free := i :: ep.free }
  if e.migrating then
    return { ep with nrMigrating := dec32 ep.nrMigrating, migrating := ep.migrating.erase i }
  else
    return ep

/-! ## The partition invariant -/

/-- Free, migrating and settled entries partition the array, and the two counters
count what they name. -/
structure EntryPool.Wf (ep : EntryPool) : Prop where
  nr_lt : ep.nrEntries < 2 ^ 32
  free_nodup : ep.free.Nodup
  mem_free : ∀ i, i ∈ ep.free ↔ i < ep.nrEntries ∧ (ep.entries i).allocated = false
  lt_of_allocated : ∀ i, (ep.entries i).allocated = true → i < ep.nrEntries
  migrating_nodup : ep.migrating.Nodup
  mem_migrating : ∀ i, i ∈ ep.migrating ↔ (ep.entries i).migrating = true
  allocated_of_migrating : ∀ i, (ep.entries i).migrating = true → (ep.entries i).allocated = true
  nr_allocated : ep.nrAllocated + ep.free.length = ep.nrEntries
  nr_migrating : ep.nrMigrating = ep.migrating.length

namespace EntryPool

variable {ep ep' : EntryPool} {i j : Nat} {e : Entry}

@[simp] theorem set_entries : (ep.set i e).entries = Function.update ep.entries i e := rfl
@[simp] theorem set_free : (ep.set i e).free = ep.free := rfl
@[simp] theorem set_migrating : (ep.set i e).migrating = ep.migrating := rfl
@[simp] theorem set_nrAllocated : (ep.set i e).nrAllocated = ep.nrAllocated := rfl
@[simp] theorem set_nrMigrating : (ep.set i e).nrMigrating = ep.nrMigrating := rfl
@[simp] theorem set_nrEntries : (ep.set i e).nrEntries = ep.nrEntries := rfl
@[simp] theorem set_startingIndex : (ep.set i e).startingIndex = ep.startingIndex := rfl

theorem length_le_of_nodup {l : List Nat} {n : Nat} (hl : l.Nodup) (hn : ∀ i ∈ l, i < n) :
    l.length ≤ n := by
  have hsub : l ⊆ List.range n := fun i hi => List.mem_range.mpr (hn i hi)
  simpa using (hl.subperm hsub).length_le

theorem Wf.migrating_length_le (h : ep.Wf) : ep.migrating.length ≤ ep.nrEntries :=
  length_le_of_nodup h.migrating_nodup fun i hi =>
    h.lt_of_allocated i (h.allocated_of_migrating i ((h.mem_migrating i).mp hi))

theorem Wf.not_migrating (h : ep.Wf) (ha : (ep.entries i).allocated = false) :
    (ep.entries i).migrating = false := by
  by_contra hm
  have := h.allocated_of_migrating i (by simpa using hm)
  simp [ha] at this

theorem Wf.free_length_lt (h : ep.Wf) (ha : (ep.entries i).allocated = true) :
    ep.free.length < ep.nrEntries := by
  have hlt := h.lt_of_allocated i ha
  have hni : i ∉ ep.free := fun hm => by
    have := ((h.mem_free i).mp hm).2
    simp [ha] at this
  have hcons : (i :: ep.free).length ≤ ep.nrEntries := by
    apply length_le_of_nodup (List.nodup_cons.mpr ⟨hni, h.free_nodup⟩)
    intro j hj
    rcases List.mem_cons.mp hj with rfl | hj
    · exact hlt
    · exact ((h.mem_free j).mp hj).1
  simpa [Nat.succ_le_iff] using hcons

theorem Wf.migrating_length_lt (h : ep.Wf) (ha : (ep.entries i).allocated = true)
    (hm : (ep.entries i).migrating = false) : ep.migrating.length < ep.nrEntries := by
  have hni : i ∉ ep.migrating := fun hi => by
    have := (h.mem_migrating i).mp hi
    simp [hm] at this
  have hcons : (i :: ep.migrating).length ≤ ep.nrEntries := by
    apply length_le_of_nodup (List.nodup_cons.mpr ⟨hni, h.migrating_nodup⟩)
    intro j hj
    rcases List.mem_cons.mp hj with rfl | hj
    · exact h.lt_of_allocated j ha
    · exact h.lt_of_allocated j (h.allocated_of_migrating j ((h.mem_migrating j).mp hj))
  simpa [Nat.succ_le_iff] using hcons

theorem Wf.nr_allocated_pos (h : ep.Wf) (ha : (ep.entries i).allocated = true) :
    0 < ep.nrAllocated := by
  have h1 := h.free_length_lt ha
  have h2 := h.nr_allocated
  omega

/-- A duplicate-free list of the allocated entries has the length the counter says. -/
theorem Wf.length_eq_nrAllocated (h : ep.Wf) {l : List Nat} (hl : l.Nodup)
    (hm : ∀ i, i ∈ l ↔ (ep.entries i).allocated = true) : l.length = ep.nrAllocated := by
  have hperm : (ep.free ++ l).Perm (List.range ep.nrEntries) := by
    rw [List.perm_ext_iff_of_nodup _ List.nodup_range]
    · intro i
      rw [List.mem_append, h.mem_free, hm, List.mem_range]
      cases ha : (ep.entries i).allocated
      · simp
      · simpa using h.lt_of_allocated i ha
    · refine List.nodup_append.mpr ⟨h.free_nodup, hl, ?_⟩
      rintro i hi _ hj rfl
      have := ((h.mem_free i).mp hi).2
      simp [(hm i).mp hj] at this
  have hlen := hperm.length_eq
  have hnr := h.nr_allocated
  rw [List.length_append, List.length_range] at hlen
  omega

/-- A field the pool does not look at may be rewritten freely. -/
theorem Wf.set (h : ep.Wf) (ha : e.allocated = (ep.entries i).allocated)
    (hm : e.migrating = (ep.entries i).migrating) : (ep.set i e).Wf := by
  have hall : ∀ j, ((ep.set i e).entries j).allocated = (ep.entries j).allocated := by
    intro j
    by_cases hj : j = i
    · subst hj; simpa using ha
    · simp [hj]
  have hmig : ∀ j, ((ep.set i e).entries j).migrating = (ep.entries j).migrating := by
    intro j
    by_cases hj : j = i
    · subst hj; simpa using hm
    · simp [hj]
  constructor
  · exact h.nr_lt
  · exact h.free_nodup
  · intro j; rw [hall]; exact h.mem_free j
  · intro j; rw [hall]; exact h.lt_of_allocated j
  · exact h.migrating_nodup
  · intro j; rw [hmig]; exact h.mem_migrating j
  · intro j; rw [hmig, hall]; exact h.allocated_of_migrating j
  · exact h.nr_allocated
  · exact h.nr_migrating

theorem Wf.allocThisEntry (h : ep.Wf) (hi : i ∈ ep.free) : (allocThisEntry ep i).Wf := by
  have hfree := (h.mem_free i).mp hi
  have hmig := h.not_migrating hfree.2
  have hmigEq : ∀ j, ((Fomo.allocThisEntry ep i).entries j).migrating =
      (ep.entries j).migrating := by
    intro j
    by_cases hj : j = i <;> simp [Fomo.allocThisEntry, hj]
  have hallEq : ∀ j, ((Fomo.allocThisEntry ep i).entries j).allocated =
      (decide (j = i) || (ep.entries j).allocated) := by
    intro j
    by_cases hj : j = i <;> simp [Fomo.allocThisEntry, hj]
  constructor
  · exact h.nr_lt
  · exact h.free_nodup.erase i
  · intro j
    rw [hallEq]
    show j ∈ ep.free.erase i ↔ j < ep.nrEntries ∧ _
    rw [h.free_nodup.mem_erase_iff, h.mem_free]
    by_cases hj : j = i <;> simp [hj]
  · intro j
    rw [hallEq]
    by_cases hj : j = i
    · subst hj; exact fun _ => hfree.1
    · simp only [hj, decide_false, Bool.false_or]
      exact h.lt_of_allocated j
  · exact h.migrating_nodup
  · intro j; rw [hmigEq]; exact h.mem_migrating j
  · intro j
    rw [hmigEq, hallEq]
    intro hm
    simp [h.allocated_of_migrating j hm]
  · show ep.nrAllocated + 1 + (ep.free.erase i).length = ep.nrEntries
    have hlen := List.length_erase_of_mem hi
    have hpos := List.length_pos_of_mem hi
    have := h.nr_allocated
    omega
  · exact h.nr_migrating

theorem migratingEntry_eq (h0 : 0 < ep.nrAllocated) (ha : (ep.entries i).allocated = true) :
    migratingEntry ep i = .ok { ep.set i { ep.entries i with migrating := true } with
      nrMigrating := ep.nrMigrating + 1
      migrating := i :: ep.migrating } := by
  rw [migratingEntry, logAssert_true h0, logAssert_true ha]
  simp

theorem migratedEntry_eq (h0 : 0 < ep.nrAllocated) (ha : (ep.entries i).allocated = true)
    (hm : (ep.entries i).migrating = true) :
    migratedEntry ep i = .ok { ep.set i { ep.entries i with migrating := false } with
      nrMigrating := dec32 ep.nrMigrating
      migrating := ep.migrating.erase i } := by
  rw [migratedEntry, logAssert_true h0, logAssert_true ha, logAssert_true hm]
  simp

theorem freeEntry_eq (h0 : 0 < ep.nrAllocated) :
    freeEntry ep i = .ok { ep.set i
        { ep.entries i with allocated := false, migrating := false } with
      nrAllocated := dec32 ep.nrAllocated
      free := i :: ep.free
      nrMigrating := if (ep.entries i).migrating then dec32 ep.nrMigrating else ep.nrMigrating
      migrating := if (ep.entries i).migrating then ep.migrating.erase i else ep.migrating } := by
  rw [freeEntry, logAssert_true h0]
  cases hm : (ep.entries i).migrating <;> simp [hm]

/-- What `migrating_entry` does to an allocated, settled entry. -/
theorem Wf.migratingEntry (h : ep.Wf) (ha : (ep.entries i).allocated = true)
    (hm : (ep.entries i).migrating = false) :
    ∃ ep', Fomo.migratingEntry ep i = .ok ep' ∧ ep'.Wf ∧
      ep'.entries = Function.update ep.entries i { ep.entries i with migrating := true } ∧
      ep'.free = ep.free ∧ ep'.nrEntries = ep.nrEntries ∧
      ep'.startingIndex = ep.startingIndex := by
  refine ⟨_, migratingEntry_eq (h.nr_allocated_pos ha) ha, ?_, rfl, rfl, rfl, rfl⟩
  have hni : i ∉ ep.migrating := fun hi => by
    have := (h.mem_migrating i).mp hi
    simp [hm] at this
  constructor
  · exact h.nr_lt
  · exact h.free_nodup
  · intro j
    by_cases hj : j = i
    · subst hj; simpa [ha] using h.mem_free j
    · simpa [hj] using h.mem_free j
  · intro j
    by_cases hj : j = i
    · subst hj; exact fun _ => h.lt_of_allocated j ha
    · simpa [hj] using h.lt_of_allocated j
  · exact List.nodup_cons.mpr ⟨hni, h.migrating_nodup⟩
  · intro j
    by_cases hj : j = i
    · subst hj; simp
    · simpa [hj] using h.mem_migrating j
  · intro j
    by_cases hj : j = i
    · subst hj; simp [ha]
    · simpa [hj] using h.allocated_of_migrating j
  · exact h.nr_allocated
  · simp [h.nr_migrating]

/-- What `migrated_entry` does to a migrating entry. -/
theorem Wf.migratedEntry (h : ep.Wf) (hm : (ep.entries i).migrating = true) :
    ∃ ep', Fomo.migratedEntry ep i = .ok ep' ∧ ep'.Wf ∧
      ep'.entries = Function.update ep.entries i { ep.entries i with migrating := false } ∧
      ep'.free = ep.free ∧ ep'.nrEntries = ep.nrEntries ∧
      ep'.startingIndex = ep.startingIndex := by
  have ha := h.allocated_of_migrating i hm
  have hi := (h.mem_migrating i).mpr hm
  refine ⟨_, migratedEntry_eq (h.nr_allocated_pos ha) ha hm, ?_, rfl, rfl, rfl, rfl⟩
  constructor
  · exact h.nr_lt
  · exact h.free_nodup
  · intro j
    by_cases hj : j = i
    · subst hj; simpa [ha] using h.mem_free j
    · simpa [hj] using h.mem_free j
  · intro j
    by_cases hj : j = i
    · subst hj; exact fun _ => h.lt_of_allocated j ha
    · simpa [hj] using h.lt_of_allocated j
  · exact h.migrating_nodup.erase i
  · intro j
    show j ∈ ep.migrating.erase i ↔ _
    rw [h.migrating_nodup.mem_erase_iff, h.mem_migrating]
    by_cases hj : j = i <;> simp [hj]
  · intro j
    by_cases hj : j = i
    · subst hj; simp
    · simpa [hj] using h.allocated_of_migrating j
  · exact h.nr_allocated
  · show dec32 ep.nrMigrating = (ep.migrating.erase i).length
    have hlen := List.length_erase_of_mem hi
    have hpos := List.length_pos_of_mem hi
    have hle := h.migrating_length_le
    have hlt := h.nr_lt
    rw [h.nr_migrating, dec32_of_pos hpos (by omega), hlen]

/-- What `free_entry` does to an allocated entry, migrating or not. -/
theorem Wf.freeEntry (h : ep.Wf) (ha : (ep.entries i).allocated = true) :
    ∃ ep', Fomo.freeEntry ep i = .ok ep' ∧ ep'.Wf ∧
      ep'.entries = Function.update ep.entries i
        { ep.entries i with allocated := false, migrating := false } ∧
      ep'.free = i :: ep.free ∧ ep'.nrEntries = ep.nrEntries ∧
      ep'.startingIndex = ep.startingIndex := by
  have hpos := h.nr_allocated_pos ha
  have hni : i ∉ ep.free := fun hi => by
    have := ((h.mem_free i).mp hi).2
    simp [ha] at this
  refine ⟨_, freeEntry_eq hpos, ?_, rfl, rfl, rfl, rfl⟩
  have hn := h.nr_lt
  -- the migrating list loses `i` in either case: a settled entry is not in it
  have hmg : (if (ep.entries i).migrating then ep.migrating.erase i else ep.migrating) =
      ep.migrating.erase i := by
    split
    · rfl
    · next hm =>
      have hni : i ∉ ep.migrating := fun hi => hm ((h.mem_migrating i).mp hi)
      exact (List.erase_of_not_mem hni).symm
  have hnm : (if (ep.entries i).migrating then dec32 ep.nrMigrating else ep.nrMigrating) =
      (ep.migrating.erase i).length := by
    have hle := h.migrating_length_le
    rw [← hmg, h.nr_migrating]
    split
    · next hm =>
      have hi := (h.mem_migrating i).mpr hm
      rw [dec32_of_pos (List.length_pos_of_mem hi) (by omega), List.length_erase_of_mem hi]
    · rfl
  rw [hmg, hnm]
  constructor
  · exact hn
  · exact List.nodup_cons.mpr ⟨hni, h.free_nodup⟩
  · intro j
    by_cases hj : j = i
    · subst hj; simp [h.lt_of_allocated j ha]
    · simpa [hj] using h.mem_free j
  · intro j
    by_cases hj : j = i
    · subst hj; simp
    · simpa [hj] using h.lt_of_allocated j
  · exact h.migrating_nodup.erase i
  · intro j
    simp only [h.migrating_nodup.mem_erase_iff, h.mem_migrating]
    by_cases hj : j = i <;> simp [hj]
  · intro j
    by_cases hj : j = i
    · subst hj; simp
    · simpa [hj] using h.allocated_of_migrating j
  · have h1 := h.nr_allocated
    simp only [List.length_cons, set_nrEntries,
      dec32_of_pos hpos (show ep.nrAllocated ≤ 2 ^ 32 by omega)]
    omega
  · rfl

end EntryPool

/-! ## Initialisation -/

theorem epoolAt_zero {ep : EntryPool} {i : Nat} (h0 : ep.startingIndex = 0)
    (hn : ep.nrEntries < 2 ^ 32) (hi : i < ep.nrEntries) : epoolAt ep i = some i := by
  have hu : u32 (i + 2 ^ 32 - ep.startingIndex) = i := by
    unfold u32
    omega
  simp only [epoolAt, hu, ge_iff_le, ite_eq_right_iff]
  omega

/-- Initialising a pool of pristine entries from index 0 pushes them on the free list
in order, so the last entry of the array is the first one handed out. -/
theorem epoolInitLoop_eq {ep : EntryPool} (h0 : ep.startingIndex = 0)
    (hn : ep.nrEntries < 2 ^ 32) (he : ep.entries = fun _ => {}) :
    ∀ k ≤ ep.nrEntries, epoolInitLoop ep k =
      .ok { ep with free := (List.range k).reverse, migrating := [] } := by
  intro k
  induction k with
  | zero => intro _; simp [epoolInitLoop]
  | succ k ih =>
    intro hk
    have hat : epoolAt { ep with free := (List.range k).reverse, migrating := [] } k = some k :=
      epoolAt_zero h0 hn (by show k < ep.nrEntries; omega)
    simp only [epoolInitLoop, ih (by omega), ok_bind, hat, deref_some, pure_eq_ok]
    simp [EntryPool.set, he, List.range_succ]

theorem epoolInit_eq {ep : EntryPool} (h0 : ep.startingIndex = 0)
    (hn : ep.nrEntries < 2 ^ 32) (he : ep.entries = fun _ => {}) :
    epoolInit ep 0 = .ok { ep with
      free := (List.range ep.nrEntries).reverse, migrating := []
      nrAllocated := 0, nrMigrating := 0, startingIndex := 0 } := by
  simp [epoolInit, epoolInitLoop_eq h0 hn he _ le_rfl]

/-- A pool of `n` free entries, as `epool_create` and `epool_init` leave it. -/
def freshPool (n : Nat) : EntryPool := { nrEntries := n, free := (List.range n).reverse }

theorem freshPool_wf {n : Nat} (hn : n < 2 ^ 32) : (freshPool n).Wf := by
  refine ⟨hn, ?_, ?_, ?_, ?_, ?_, ?_, ?_, ?_⟩ <;>
    simp [freshPool, List.nodup_reverse, List.nodup_range]

theorem epoolInit_create {n : Nat} (hn : n < 2 ^ 32) :
    epoolInit (epoolCreate {} n) 0 = .ok (freshPool n) :=
  epoolInit_eq rfl hn rfl

end Fomo
