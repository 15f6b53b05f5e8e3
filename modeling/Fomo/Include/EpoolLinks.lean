import Fomo.Include.Epool
import Fomo.Lib.LinkedRing

/-!
# Entry pools in memory (`tools/epool.h`, `kernel/list.h`)

Every entry has one list node, linked in the free list, in the migrating list or to itself. The
calls of the pool on these nodes act as those on the lists.
-/
namespace Fomo.EpoolLinks

open Lib

/-- The heads `free` and `migrating` of a pool and the `pool_list` nodes of its entries. -/
inductive PoolNode
  | free
  | migrating
  | entry (i : Nat)
  deriving DecidableEq

/-- `struct entry_pool` with the list nodes it links. The `ht_list` and `wb_list` of an entry,
which the pool only initialises, are left out. -/
structure PoolMem where
  links : Links PoolNode := { next := fun _ => none, prev := fun _ => none }
  entries : Nat → Entry := fun _ => {}
  nrAllocated : Nat := 0
  nrMigrating : Nat := 0
  nrEntries : Nat := 0
  startingIndex : Nat := 0

def PoolMem.set (m : PoolMem) (i : Nat) (e : Entry) : PoolMem :=
  { m with entries := Function.update m.entries i e }

def epoolCreate (m : PoolMem) (nrEntries : Nat) : PoolMem :=
  { m with entries := fun _ => {}, nrEntries := nrEntries, startingIndex := 0 }

def epoolAt (m : PoolMem) (index : Cblock) : Option Nat :=
  let convertedIndex := sub32 index m.startingIndex
  if convertedIndex ≥ m.nrEntries then none else some convertedIndex

/-- The loop of `epool_init` after its first `k` iterations. -/
def epoolInitLoop (m : PoolMem) : Nat → Exec PoolMem
  | 0 => .ok { m with links := (m.links.init .free).init .migrating }
  | k + 1 => do
    let m ← epoolInitLoop m k
    let i ← deref (epoolAt m k)
    let links ← deref (m.links.add (.entry i) .free)
    let e := { m.entries i with dirty := false, allocated := false, migrating := false }
    return { m.set i e with links := links }

def epoolInit (m : PoolMem) (startingIndex : Nat) : Exec PoolMem := do
  let m ← epoolInitLoop m m.nrEntries
  return { m with nrAllocated := 0, nrMigrating := 0, startingIndex := startingIndex }

/-- `list_entry(r, struct entry, pool_list)` of a node of an entry. -/
def listEntry : PoolNode → Exec Nat
  | .entry i => .ok i
  | .free => .error .outOfBounds
  | .migrating => .error .outOfBounds

def listPop (m : PoolMem) (lh : PoolNode) : Exec (PoolMem × PoolNode) := do
  let r ← deref (m.links.next lh)
  let links ← deref (m.links.delInit r)
  return ({ m with links := links }, r)

def allocThisEntry (m : PoolMem) (i : Nat) : Exec PoolMem := do
  let links ← deref (m.links.delInit (.entry i))
  return { m.set i { m.entries i with allocated := true } with
    links := links
    nrAllocated := u32 (m.nrAllocated + 1) }

def allocEntry (m : PoolMem) : Exec (PoolMem × Option Nat) :=
  if m.links.empty .free then .ok (m, none)
  else do
    let (m, r) ← listPop m .free
    let e ← listEntry r
    let m ← allocThisEntry m e
    return (m, some e)

def allocParticularEntry (m : PoolMem) (cblock : Cblock) : Exec (PoolMem × Nat) := do
  let e ← deref (epoolAt m cblock)
  logAssert ((m.entries e).allocated = false)
  let m ← allocThisEntry m e
  return (m, e)

/-- `in_pool(ep, e)` for a pointer to the entry `i`. -/
def inPool (m : PoolMem) (i : Nat) : Prop := i < m.nrEntries

instance (m : PoolMem) (i : Nat) : Decidable (inPool m i) := inferInstanceAs (Decidable (_ < _))

def migratingEntry (m : PoolMem) (i : Nat) : Exec PoolMem := do
  logAssert (inPool m i)
  logAssert (0 < m.nrAllocated)
  logAssert ((m.entries i).allocated = true)
  let links ← deref (m.links.add (.entry i) .migrating)
  return { m.set i { m.entries i with migrating := true } with
    links := links
    nrMigrating := u32 (m.nrMigrating + 1) }

def migratedEntry (m : PoolMem) (i : Nat) : Exec PoolMem := do
  logAssert (inPool m i)
  logAssert (0 < m.nrAllocated)
  logAssert ((m.entries i).allocated = true)
  logAssert ((m.entries i).migrating = true)
  let links ← deref (m.links.delInit (.entry i))
  return { m.set i { m.entries i with migrating := false } with
    links := links
    nrMigrating := dec32 m.nrMigrating }

def freeEntry (m : PoolMem) (i : Nat) : Exec PoolMem := do
  logAssert (inPool m i)
  logAssert (0 < m.nrAllocated)
  let m := { m with nrAllocated := dec32 m.nrAllocated }
  let m := m.set i { m.entries i with allocated := false }
  let m ←
    if (m.entries i).migrating then do
      let links ← deref (m.links.delInit (.entry i))
      pure { m.set i { m.entries i with migrating := false } with
        links := links
        nrMigrating := dec32 m.nrMigrating }
    else .ok m
  let links ← deref (m.links.add (.entry i) .free)
  return { m with links := links }

/-! ## The lists in memory -/

/-- A list of the pool, or the node of an entry that is linked to itself. -/
inductive PoolRing
  | free
  | migrating
  | own (i : Nat)
  deriving DecidableEq

def ring (ep : EntryPool) : PoolRing → List PoolNode
  | .free => .free :: ep.free.map .entry
  | .migrating => .migrating :: ep.migrating.map .entry
  | .own i =>
    if (ep.entries i).allocated && !(ep.entries i).migrating then [.entry i] else []

/-- The memory holds the pool `ep`. -/
structure PoolMem.Holds (m : PoolMem) (ep : EntryPool) : Prop where
  links : m.links.Holds (ring ep)
  entries : m.entries = ep.entries
  nr_allocated : m.nrAllocated = ep.nrAllocated
  nr_migrating : m.nrMigrating = ep.nrMigrating
  nr_entries : m.nrEntries = ep.nrEntries
  starting_index : m.startingIndex = ep.startingIndex

variable {m m' : PoolMem} {ep ep' : EntryPool} {i j n t : Nat} {l : List Nat} {h : PoolNode}

theorem listDel_entries (hl : l.Nodup) (hh : h ≠ .entry i) :
    listDel (h :: l.map .entry) (.entry i) = h :: (l.erase i).map PoolNode.entry := by
  rw [hl.erase_eq_filter, listDel, List.filter_cons_of_pos (by simpa using hh), List.filter_map]
  congr 2
  refine List.filter_congr fun x _ => ?_
  by_cases hx : x = i <;> simp [hx]

/-- The two pools agree but for the entry `i`. -/
def AgreesOff (ep ep' : EntryPool) (i : Nat) : Prop := ∀ k, k ≠ i → ep'.entries k = ep.entries k

theorem ring_own_of_ne (h : AgreesOff ep ep' i) (hj : j ≠ i) :
    ring ep' (.own j) = ring ep (.own j) := by
  simp only [ring, h j hj]

theorem entry_not_mem_own (hj : j ≠ i) : PoolNode.entry i ∉ ring ep (.own j) := by
  simp only [ring]
  split
  · simpa using Ne.symm hj
  · exact List.not_mem_nil

/-- What `list_del_init` makes of the lists: the entry is allocated and settled. -/
theorem ring_settle (ep ep' : EntryPool) (i : Nat) (hf : ep.free.Nodup) (hm : ep.migrating.Nodup)
    (hfree : ep'.free = ep.free.erase i) (hmigrating : ep'.migrating = ep.migrating.erase i)
    (hoff : AgreesOff ep ep' i) (ha : (ep'.entries i).allocated = true)
    (hs : (ep'.entries i).migrating = false) :
    ring ep' = Function.update (fun k => listDel (ring ep k) (.entry i)) (.own i) [.entry i] := by
  funext k
  cases k with
  | free =>
    rw [Function.update_of_ne (by simp)]
    simp only [ring, hfree, listDel_entries hf (fun h : PoolNode.free = .entry i => by cases h)]
  | migrating =>
    rw [Function.update_of_ne (by simp)]
    simp only [ring, hmigrating,
      listDel_entries hm (fun h : PoolNode.migrating = .entry i => by cases h)]
  | own j =>
    by_cases hj : j = i
    · subst hj
      simp [ring, ha, hs]
    · rw [Function.update_of_ne (by simpa using hj), ring_own_of_ne hoff hj,
        listDel_of_not_mem (entry_not_mem_own hj)]

/-- What `list_add` to the free list makes of the lists: the entry is not allocated. -/
theorem ring_free (ep ep' : EntryPool) (i : Nat) (hfree : ep'.free = i :: ep.free)
    (hmigrating : ep'.migrating = ep.migrating) (hoff : AgreesOff ep ep' i)
    (ha : (ep'.entries i).allocated = false) :
    ring ep' = fun k => listAdd (Function.update (ring ep) (.own i) [] k) (.entry i) .free := by
  funext k
  cases k with
  | free =>
    rw [Function.update_of_ne (by simp)]
    simp only [ring, hfree, List.map_cons]
    rw [listAdd_head (by simp)]
  | migrating =>
    rw [Function.update_of_ne (by simp), listAdd_of_not_mem (by simp [ring])]
    simp only [ring, hmigrating]
  | own j =>
    by_cases hj : j = i
    · subst hj
      simp [ring, ha, listAdd]
    · rw [Function.update_of_ne (by simpa using hj), ring_own_of_ne hoff hj, listAdd_of_not_mem]
      simp only [ring]
      split <;> simp

/-- What `list_add` to the migrating list makes of the lists. -/
theorem ring_migrating (ep ep' : EntryPool) (i : Nat) (hfree : ep'.free = ep.free)
    (hmigrating : ep'.migrating = i :: ep.migrating) (hoff : AgreesOff ep ep' i)
    (hs : (ep'.entries i).migrating = true) :
    ring ep' = fun k =>
      listAdd (Function.update (ring ep) (.own i) [] k) (.entry i) .migrating := by
  funext k
  cases k with
  | free =>
    rw [Function.update_of_ne (by simp), listAdd_of_not_mem (by simp [ring])]
    simp only [ring, hfree]
  | migrating =>
    rw [Function.update_of_ne (by simp)]
    simp only [ring, hmigrating, List.map_cons]
    rw [listAdd_head (by simp)]
  | own j =>
    by_cases hj : j = i
    · subst hj
      simp [ring, hs, listAdd]
    · rw [Function.update_of_ne (by simpa using hj), ring_own_of_ne hoff hj, listAdd_of_not_mem]
      simp only [ring]
      split <;> simp

/-! ## The calls -/

variable {links : Links PoolNode}

theorem ring_own (ha : (ep.entries i).allocated = true) (hs : (ep.entries i).migrating = false) :
    ring ep (.own i) = [.entry i] := by
  simp [ring, ha, hs]

theorem PoolMem.Holds.inPool (hm : m.Holds ep) (hi : i < ep.nrEntries) : inPool m i := by
  rw [EpoolLinks.inPool, hm.nr_entries]
  exact hi

theorem allocThisEntry_eq (hdel : m.links.delInit (.entry i) = some links) :
    EpoolLinks.allocThisEntry m i = .ok { m.set i { m.entries i with allocated := true } with
      links := links
      nrAllocated := u32 (m.nrAllocated + 1) } := by
  rw [EpoolLinks.allocThisEntry, hdel]
  rfl

/-- `list_del_init` on a node of the free list. -/
theorem PoolMem.Holds.delInit_free (hm : m.Holds ep) (hw : ep.Wf) (hi : i ∈ ep.free) :
    ∃ links, m.links.delInit (.entry i) = some links ∧
      links.Holds (ring (Fomo.allocThisEntry ep i)) := by
  have hfree := (hw.mem_free i).mp hi
  have hs := hw.not_migrating hfree.2
  have hni : i ∉ ep.migrating := fun h => by
    rw [(hw.mem_migrating i).mp h] at hs
    cases hs
  obtain ⟨links, hdel, hl⟩ := hm.links.delInit (i := .free) (x := .entry i)
    (by simpa [ring] using hi) (by simp [ring]) (.own i) (by simp [ring, hfree.2])
  refine ⟨links, hdel, ?_⟩
  rw [ring_settle ep (Fomo.allocThisEntry ep i) i hw.free_nodup hw.migrating_nodup rfl
    (List.erase_of_not_mem hni).symm]
  · exact hl
  · exact fun k hk => Function.update_of_ne hk _ _
  · simp [Fomo.allocThisEntry]
  · simpa [Fomo.allocThisEntry] using hs

/-- `alloc_this_entry` takes a free entry. -/
theorem PoolMem.Holds.allocThisEntry (hm : m.Holds ep) (hw : ep.Wf) (hi : i ∈ ep.free)
    (hl : links.Holds (ring (Fomo.allocThisEntry ep i))) :
    { m.set i { m.entries i with allocated := true } with
      links := links
      nrAllocated := u32 (m.nrAllocated + 1) : PoolMem }.Holds (Fomo.allocThisEntry ep i) := by
  have hnr : u32 (m.nrAllocated + 1) = ep.nrAllocated + 1 := by
    have h1 := hw.nr_allocated
    have h2 := List.length_pos_of_mem hi
    have h3 := hw.nr_lt
    rw [hm.nr_allocated, u32_of_lt (by omega)]
  refine ⟨hl, ?_, hnr, hm.nr_migrating, hm.nr_entries, hm.starting_index⟩
  simp only [Fomo.allocThisEntry, PoolMem.set, EntryPool.set, hm.entries]

theorem PoolMem.Holds.allocEntry_nil (hm : m.Holds ep) (hf : ep.free = []) :
    EpoolLinks.allocEntry m = .ok (m, none) := by
  have hempty : m.links.empty .free = true := by
    rw [hm.links.empty (i := .free) (h := .free) rfl, hf]
    rfl
  rw [EpoolLinks.allocEntry, if_pos hempty]

/-- `alloc_entry` hands out the first entry of the free list. -/
theorem PoolMem.Holds.allocEntry_cons (hm : m.Holds ep) (hw : ep.Wf) (hf : ep.free = i :: l) :
    ∃ m', EpoolLinks.allocEntry m = .ok (m', some i) ∧ m'.Holds (Fomo.allocThisEntry ep i) := by
  have hi : i ∈ ep.free := by
    rw [hf]
    exact List.mem_cons_self
  obtain ⟨links, hdel, hl⟩ := hm.delInit_free hw hi
  refine ⟨_, ?_, hm.allocThisEntry hw hi hl⟩
  have hempty : m.links.empty .free = false := by
    rw [hm.links.empty (i := .free) (h := .free) rfl, hf]
    rfl
  have hnext : m.links.next .free = some (.entry i) :=
    hm.links.next_head (i := .free) (by rw [ring, hf]; rfl)
  -- the node is linked to itself when `alloc_this_entry` deletes it once more
  have hagain : links.delInit (.entry i) = some links := by
    refine hl.delInit_alone (i := .own i) (ring_own ?_ ?_)
    · simp [Fomo.allocThisEntry]
    · simpa [Fomo.allocThisEntry] using hw.not_migrating ((hw.mem_free i).mp hi).2
  rw [EpoolLinks.allocEntry, hempty, if_neg Bool.false_ne_true]
  simp only [listPop, hnext, hdel, deref_some, ok_bind, pure_eq_ok, listEntry]
  rw [allocThisEntry_eq (m := { m with links := links }) hagain]
  rfl

theorem epoolAt_eq (hm : m.Holds ep) (index : Cblock) :
    epoolAt m index = Fomo.epoolAt ep index := by
  rw [epoolAt, Fomo.epoolAt, sub32, hm.nr_entries, hm.starting_index]

theorem epoolAt_lt {index : Cblock} (h : Fomo.epoolAt ep index = some i) : i < ep.nrEntries := by
  unfold Fomo.epoolAt at h
  dsimp only at h
  split at h
  · cases h
  · obtain rfl := Option.some.inj h
    omega

theorem PoolMem.Holds.allocParticularEntry (hm : m.Holds ep) (hw : ep.Wf) {c : Cblock}
    (hat : Fomo.epoolAt ep c = some i) (ha : (ep.entries i).allocated = false) :
    ∃ m', EpoolLinks.allocParticularEntry m c = .ok (m', i) ∧
      m'.Holds (Fomo.allocThisEntry ep i) := by
  have hi : i ∈ ep.free := (hw.mem_free i).mpr ⟨epoolAt_lt hat, ha⟩
  obtain ⟨links, hdel, hl⟩ := hm.delInit_free hw hi
  refine ⟨_, ?_, hm.allocThisEntry hw hi hl⟩
  rw [EpoolLinks.allocParticularEntry, epoolAt_eq hm, hat, deref_some, ok_bind,
    logAssert_true (by rw [hm.entries, ha]), ok_bind, allocThisEntry_eq hdel]
  rfl

theorem migratingEntry_eq (hi : inPool m i) (h0 : 0 < m.nrAllocated)
    (ha : (m.entries i).allocated = true)
    (hadd : m.links.add (.entry i) .migrating = some links) :
    EpoolLinks.migratingEntry m i = .ok { m.set i { m.entries i with migrating := true } with
      links := links
      nrMigrating := u32 (m.nrMigrating + 1) } := by
  rw [EpoolLinks.migratingEntry, logAssert_true hi, logAssert_true h0, logAssert_true ha, hadd]
  rfl

/-- A node linked to itself can be added to a list. -/
theorem not_mem_forget (hl : links.Holds (ring ep)) (ha : (ep.entries i).allocated = true)
    (hs : (ep.entries i).migrating = false) (k : PoolRing) :
    PoolNode.entry i ∉ Function.update (ring ep) (.own i) [] k := by
  intro hk
  by_cases hki : k = .own i
  · subst hki
    rw [Function.update_self] at hk
    cases hk
  · rw [Function.update_of_ne hki] at hk
    refine hki (hl.disjoint k (.own i) (.entry i) hk ?_)
    rw [ring_own ha hs]
    exact List.mem_singleton_self _

/-- `migrating_entry` links the settled entry into the migrating list. -/
theorem PoolMem.Holds.migratingEntry (hm : m.Holds ep) (hw : ep.Wf)
    (ha : (ep.entries i).allocated = true) (hs : (ep.entries i).migrating = false) :
    ∃ m' ep', EpoolLinks.migratingEntry m i = .ok m' ∧ Fomo.migratingEntry ep i = .ok ep' ∧
      m'.Holds ep' := by
  have hpos := hw.nr_allocated_pos ha
  have hlt := hw.lt_of_allocated i ha
  obtain ⟨links, hadd, hl⟩ := (hm.links.forget (.own i)).add (i := .migrating) (x := .migrating)
    (by rw [Function.update_of_ne (by simp)]; exact List.mem_cons_self)
    (not_mem_forget hm.links ha hs)
  have hnr : u32 (m.nrMigrating + 1) = ep.nrMigrating + 1 := by
    have h1 := hw.migrating_length_lt ha hs
    have h2 := hw.nr_lt
    rw [hm.nr_migrating, hw.nr_migrating, u32_of_lt (by omega)]
  refine ⟨_, _, migratingEntry_eq (hm.inPool hlt) (hm.nr_allocated ▸ hpos)
    (hm.entries ▸ ha) hadd, EntryPool.migratingEntry_eq hpos ha, ?_, ?_, hm.nr_allocated, hnr,
    hm.nr_entries, hm.starting_index⟩
  · refine Eq.subst (motive := links.Holds) (ring_migrating ep _ i ?_ ?_ ?_ ?_).symm hl
    · rfl
    · rfl
    · exact fun k hk => Function.update_of_ne hk _ _
    · simp
  · simp only [PoolMem.set, EntryPool.set, hm.entries]

theorem migratedEntry_eq (hi : inPool m i) (h0 : 0 < m.nrAllocated)
    (ha : (m.entries i).allocated = true) (hs : (m.entries i).migrating = true)
    (hdel : m.links.delInit (.entry i) = some links) :
    EpoolLinks.migratedEntry m i = .ok { m.set i { m.entries i with migrating := false } with
      links := links
      nrMigrating := dec32 m.nrMigrating } := by
  rw [EpoolLinks.migratedEntry, logAssert_true hi, logAssert_true h0, logAssert_true ha,
    logAssert_true hs, hdel]
  rfl

/-- `list_del_init` on a node of the migrating list. -/
theorem PoolMem.Holds.delInit_migrating (hm : m.Holds ep) (hw : ep.Wf)
    (hs : (ep.entries i).migrating = true) : ∃ links, m.links.delInit (.entry i) = some links ∧
      links.Holds (ring { ep.set i { ep.entries i with migrating := false } with
        nrMigrating := dec32 ep.nrMigrating
        migrating := ep.migrating.erase i }) := by
  have ha := hw.allocated_of_migrating i hs
  have hni : i ∉ ep.free := fun h => by
    rw [((hw.mem_free i).mp h).2] at ha
    cases ha
  obtain ⟨links, hdel, hl⟩ := hm.links.delInit (i := .migrating) (x := .entry i)
    (by simpa [ring] using (hw.mem_migrating i).mpr hs) (by simp [ring]) (.own i)
    (by simp [ring, hs])
  refine ⟨links, hdel, ?_⟩
  refine Eq.subst (motive := links.Holds)
    (ring_settle ep _ i hw.free_nodup hw.migrating_nodup ?_ ?_ ?_ ?_ ?_).symm hl
  · exact (List.erase_of_not_mem hni).symm
  · rfl
  · exact fun k hk => Function.update_of_ne hk _ _
  · simpa using ha
  · simp

/-- `migrated_entry` takes the entry off the migrating list. -/
theorem PoolMem.Holds.migratedEntry (hm : m.Holds ep) (hw : ep.Wf)
    (hs : (ep.entries i).migrating = true) :
    ∃ m' ep', EpoolLinks.migratedEntry m i = .ok m' ∧ Fomo.migratedEntry ep i = .ok ep' ∧
      m'.Holds ep' := by
  have ha := hw.allocated_of_migrating i hs
  have hpos := hw.nr_allocated_pos ha
  have hlt := hw.lt_of_allocated i ha
  obtain ⟨links, hdel, hl⟩ := hm.delInit_migrating hw hs
  refine ⟨_, _, migratedEntry_eq (hm.inPool hlt) (hm.nr_allocated ▸ hpos)
    (hm.entries ▸ ha) (hm.entries ▸ hs) hdel, EntryPool.migratedEntry_eq hpos ha hs, hl, ?_,
    hm.nr_allocated, congrArg dec32 hm.nr_migrating, hm.nr_entries, hm.starting_index⟩
  simp only [PoolMem.set, EntryPool.set, hm.entries]

theorem freeEntry_eq_settled (hi : inPool m i) (h0 : 0 < m.nrAllocated)
    (hs : (m.entries i).migrating = false) (hadd : m.links.add (.entry i) .free = some links) :
    EpoolLinks.freeEntry m i = .ok { m.set i { m.entries i with allocated := false } with
      links := links
      nrAllocated := dec32 m.nrAllocated } := by
  rw [EpoolLinks.freeEntry, logAssert_true hi, logAssert_true h0]
  simp [PoolMem.set, hs, hadd]

theorem freeEntry_eq_migrating {links' : Links PoolNode} (hi : inPool m i) (h0 : 0 < m.nrAllocated)
    (hs : (m.entries i).migrating = true) (hdel : m.links.delInit (.entry i) = some links)
    (hadd : links.add (.entry i) .free = some links') :
    EpoolLinks.freeEntry m i = .ok { m.set i
        { m.entries i with allocated := false, migrating := false } with
      links := links'
      nrAllocated := dec32 m.nrAllocated
      nrMigrating := dec32 m.nrMigrating } := by
  rw [EpoolLinks.freeEntry, logAssert_true hi, logAssert_true h0]
  simp [PoolMem.set, hs, hdel, hadd]

theorem add_free (hl : links.Holds (ring ep)) (ha : (ep.entries i).allocated = true)
    (hs : (ep.entries i).migrating = false) (hfree : ep'.free = i :: ep.free)
    (hmigrating : ep'.migrating = ep.migrating) (hoff : AgreesOff ep ep' i)
    (ha' : (ep'.entries i).allocated = false) :
    ∃ links', links.add (.entry i) .free = some links' ∧ links'.Holds (ring ep') := by
  obtain ⟨links', hadd, hl'⟩ := (hl.forget (.own i)).add (i := .free) (x := .free)
    (by rw [Function.update_of_ne (by simp)]; exact List.mem_cons_self) (not_mem_forget hl ha hs)
  refine ⟨links', hadd, ?_⟩
  rw [ring_free ep ep' i hfree hmigrating hoff ha']
  exact hl'

theorem freeEntry_fields (hpos : 0 < ep.nrAllocated) (i : Nat) :
    ∃ ep', Fomo.freeEntry ep i = .ok ep' ∧
      ep'.entries = Function.update ep.entries i
        { ep.entries i with allocated := false, migrating := false } ∧
      ep'.free = i :: ep.free ∧
      ep'.migrating =
        (if (ep.entries i).migrating then ep.migrating.erase i else ep.migrating) ∧
      ep'.nrAllocated = dec32 ep.nrAllocated ∧
      ep'.nrMigrating =
        (if (ep.entries i).migrating then dec32 ep.nrMigrating else ep.nrMigrating) ∧
      ep'.nrEntries = ep.nrEntries ∧ ep'.startingIndex = ep.startingIndex :=
  ⟨_, EntryPool.freeEntry_eq hpos, rfl, rfl, rfl, rfl, rfl, rfl, rfl⟩

/-- `free_entry` puts the entry at the head of the free list, off the migrating list if it is
in there. -/
theorem PoolMem.Holds.freeEntry (hm : m.Holds ep) (hw : ep.Wf)
    (ha : (ep.entries i).allocated = true) :
    ∃ m' ep', EpoolLinks.freeEntry m i = .ok m' ∧ Fomo.freeEntry ep i = .ok ep' ∧
      m'.Holds ep' := by
  have hpos := hw.nr_allocated_pos ha
  have hlt := hm.inPool (hw.lt_of_allocated i ha)
  have hpos' : 0 < m.nrAllocated := hm.nr_allocated ▸ hpos
  obtain ⟨ep', hrun, hentries, hfree, hmigrating, hnr, hnm, hn, hstart⟩ := freeEntry_fields hpos i
  have hoff : AgreesOff ep ep' i := fun k hk => by rw [hentries, Function.update_of_ne hk]
  have ha' : (ep'.entries i).allocated = false := by rw [hentries, Function.update_self]
  have hdec : dec32 m.nrAllocated = ep'.nrAllocated := by rw [hm.nr_allocated, hnr]
  have hn' : m.nrEntries = ep'.nrEntries := hm.nr_entries.trans hn.symm
  have hstart' : m.startingIndex = ep'.startingIndex := hm.starting_index.trans hstart.symm
  cases hs : (ep.entries i).migrating with
  | false =>
    rw [hs, if_neg Bool.false_ne_true] at hmigrating hnm
    obtain ⟨links, hadd, hl⟩ := add_free hm.links ha hs hfree hmigrating hoff ha'
    refine ⟨_, ep', freeEntry_eq_settled hlt hpos' (hm.entries ▸ hs) hadd, hrun, hl, ?_, hdec,
      hm.nr_migrating.trans hnm.symm, hn', hstart'⟩
    rw [hentries, ← hs]
    simp only [PoolMem.set, hm.entries]
  | true =>
    rw [hs, if_pos rfl] at hmigrating hnm
    obtain ⟨links, hdel, hl⟩ := hm.delInit_migrating hw hs
    obtain ⟨links', hadd, hl'⟩ := add_free hl (by simpa using ha) (by simp) hfree hmigrating
      (fun k hk => (hoff k hk).trans (Function.update_of_ne hk _ _).symm) ha'
    refine ⟨_, ep', freeEntry_eq_migrating hlt hpos' (hm.entries ▸ hs) hdel hadd, hrun, hl', ?_,
      hdec, (congrArg dec32 hm.nr_migrating).trans hnm.symm, hn', hstart'⟩
    rw [hentries]
    simp only [PoolMem.set, hm.entries]

end Fomo.EpoolLinks
