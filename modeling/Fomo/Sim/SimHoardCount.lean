import Fomo.Include.Epool
import Fomo.Lib.KeyedList
import Fomo.Lib.MostRecent
import Mathlib.Data.Finset.Card

/-!
# The hoard tracker (`sim/sim_hoard_count.h`)

The simulator counts the cached blocks that have been accessed twice since they came in, but not
lately. The tracker keeps an entry for every cached block and for the blocks of its queue, which
are those accessed last.
-/
namespace Fomo

/-- `struct hoard_tracker`. The tracker entries are entries of the pool, and `freq` and `inCache`
are their fields of that name. -/
structure HoardTracker where
  ht : List Nat
  entryPool : EntryPool
  q : List Nat
  freq : Nat → Nat
  inCache : Nat → Bool
  count : Nat
  cacheSize : Nat

/-- `hash_lookup` in the table of the tracker. -/
def hoardLookup (hTracker : HoardTracker) (oblock : Oblock) : Option Nat :=
  hTracker.ht.find? fun i => decide ((hTracker.entryPool.entries i).oblock = oblock)

/-- `hash_remove` and `free_entry`. -/
def hoardRemove (hTracker : HoardTracker) (he : Nat) : Exec HoardTracker :=
  if he ∈ hTracker.ht then do
    let pool ← freeEntry hTracker.entryPool he
    return { hTracker with ht := hTracker.ht.erase he, entryPool := pool }
  else .error .nullPointer

/-- A new entry of the pool, in the table. -/
def hoardAlloc (hTracker : HoardTracker) (oblock : Oblock) : Option (HoardTracker × Nat) :=
  match allocEntry hTracker.entryPool with
  | none => none
  | some (pool, he) => some ({ hTracker with
      entryPool := pool.set he { pool.entries he with oblock := oblock }
      ht := he :: hTracker.ht }, he)

/-- `queue_remove`, if the entry is queued, and `queue_push`. -/
def hoardPush (hTracker : HoardTracker) (he : Nat) : HoardTracker :=
  { hTracker with q := hTracker.q.erase he ++ [he] }

def hoardTrackerHit (hTracker : HoardTracker) (e : Option Nat) : Exec HoardTracker :=
  match e with
  | none => .error .assertion
  | some he => do
    logAssert (hTracker.inCache he = true)
    let hTracker :=
      if he ∉ hTracker.q ∧ hTracker.freq he > 1 then
        { hTracker with count := dec32 hTracker.count }
      else hTracker
    let hTracker := hoardPush hTracker he
    return { hTracker with
      freq := Function.update hTracker.freq he (u32 (hTracker.freq he + 1)) }

def hoardTrackerFilter (hTracker : HoardTracker) (oblock : Oblock) (e : Option Nat) :
    Exec HoardTracker :=
  match e with
  | none =>
    match hoardAlloc hTracker oblock with
    | none => .error .assertion
    | some (hTracker, he) => .ok (hoardPush { hTracker with
        inCache := Function.update hTracker.inCache he false
        freq := Function.update hTracker.freq he 0 } he)
  | some he => .ok (hoardPush hTracker he)

/-- The block replaced is no longer cached; it stays in the queue if it is there. -/
def hoardTrackerEvict (hTracker : HoardTracker) (oldOblock : Oblock) : Exec HoardTracker :=
  match hoardLookup hTracker oldOblock with
  | none => .error .assertion
  | some evictedHe =>
    if evictedHe ∉ hTracker.q then
      hoardRemove (if hTracker.freq evictedHe > 1 then
        { hTracker with count := dec32 hTracker.count } else hTracker) evictedHe
    else .ok { hTracker with
      inCache := Function.update hTracker.inCache evictedHe false
      freq := Function.update hTracker.freq evictedHe 0 }

/-- A failed allocation is not looked at here. -/
def hoardTrackerEnter (hTracker : HoardTracker) (oblock : Oblock) (e : Option Nat) :
    Exec HoardTracker := do
  let (hTracker, he) ←
    match e with
    | some he => do
      logAssert (he ∈ hTracker.q)
      pure (hTracker, he)
    | none => deref (hoardAlloc hTracker oblock)
  return hoardPush { hTracker with
    freq := Function.update hTracker.freq he 1
    inCache := Function.update hTracker.inCache he true } he

/-- At most one entry leaves the queue. -/
def hoardTrackerTrim (hTracker : HoardTracker) : Exec HoardTracker :=
  if hTracker.q.length > u32 (2 * hTracker.cacheSize) then do
    let eHe ← deref hTracker.q.head?
    let hTracker := { hTracker with q := hTracker.q.erase eHe }
    if hTracker.inCache eHe then
      if hTracker.freq eHe > 1 then
        return { hTracker with count := u32 (hTracker.count + 1) }
      else return hTracker
    else hoardRemove hTracker eHe
  else .ok hTracker

/-- A replacement goes on as a new block does, with the entry looked up before. -/
def hoardTrackerUpdate (hTracker : HoardTracker) (oblock : Oblock)
    (result : CacheNucleusResult) : Exec HoardTracker := do
  let e := hoardLookup hTracker oblock
  let hTracker ←
    match result.op with
    | .hit => hoardTrackerHit hTracker e
    | .filter | .fail => hoardTrackerFilter hTracker oblock e
    | .replace => do
      let hTracker ← hoardTrackerEvict hTracker result.oldOblock
      hoardTrackerEnter hTracker oblock e
    | .new => hoardTrackerEnter hTracker oblock e
  hoardTrackerTrim hTracker

/-- The allocations are taken to succeed. -/
def hoardTrackerInit (cacheSize : UInt32) : Exec HoardTracker := do
  let pool ← epoolInit (epoolCreate {} (u32 (3 * cacheSize.toNat + 1))) 0
  return {
    ht := []
    entryPool := pool
    q := []
    freq := fun _ => 0
    inCache := fun _ => false
    count := 0
    cacheSize := cacheSize.toNat }

/-! ## The accesses -/

abbrev HoardAccess := Oblock × CacheNucleusResult

/-- The blocks cached after one more access. -/
def cachedStep (cached : Finset Oblock) (a : HoardAccess) : Finset Oblock :=
  match a.2.op with
  | .new => insert a.1 cached
  | .replace => insert a.1 (cached.erase a.2.oldOblock)
  | _ => cached

def hoardCached (t : List HoardAccess) : Finset Oblock := t.foldl cachedStep ∅

/-- The accesses to a cached block since it came in, after one more access. -/
def freqStep (freq : Oblock → Nat) (a : HoardAccess) : Oblock → Nat :=
  match a.2.op with
  | .hit => Function.update freq a.1 (freq a.1 + 1)
  | .new | .replace => Function.update freq a.1 1
  | _ => freq

def hoardFreq (t : List HoardAccess) : Oblock → Nat := t.foldl freqStep fun _ => 0

/-- The access is one of a cache of `n` entries that holds the blocks `cached`. -/
def Serves (n : Nat) (cached : Finset Oblock) (a : HoardAccess) : Prop :=
  match a.2.op with
  | .hit => a.1 ∈ cached
  | .new => a.1 ∉ cached ∧ cached.card < n
  | .replace => a.1 ∉ cached ∧ a.2.oldOblock ∈ cached
  | .filter | .fail => a.1 ∉ cached

/-- The accesses are those of one cache of `n` entries. -/
inductive Consistent (n : Nat) : List HoardAccess → Prop
  | nil : Consistent n []
  | snoc {t : List HoardAccess} {a : HoardAccess} : Consistent n t → Serves n (hoardCached t) a →
      Consistent n (t ++ [a])

/-- The blocks among `cached` that have been accessed twice and are not in `recent`. The
frequency is an `unsigned`. -/
def hoarded (cached : Finset Oblock) (freq : Oblock → Nat) (recent : List Oblock) :
    Finset Oblock := cached.filter fun o => 1 < u32 (freq o) ∧ o ∉ recent

def hoardRun (hTracker : HoardTracker) (t : List HoardAccess) : Exec HoardTracker :=
  t.foldlM (fun hTracker a => hoardTrackerUpdate hTracker a.1 a.2) hTracker

/-! ## The table -/

namespace HoardTracker

def oblock (h : HoardTracker) (i : Nat) : Oblock := (h.entryPool.entries i).oblock

/-- The table chains the entries in use, one for each block of `tracked`. -/
structure Table (tracked : Finset Oblock) (h : HoardTracker) : Prop where
  pool : h.entryPool.Wf
  ht_nodup : h.ht.Nodup
  mem_ht : ∀ i, i ∈ h.ht ↔ (h.entryPool.entries i).allocated = true
  inj : ∀ i ∈ h.ht, ∀ j ∈ h.ht, h.oblock i = h.oblock j → i = j
  tracked : ∀ o, o ∈ tracked ↔ ∃ i ∈ h.ht, h.oblock i = o

variable {h h' : HoardTracker} {tracked : Finset Oblock} {o : Oblock} {i j : Nat}

theorem Table.lookup_eq_some (ht : h.Table tracked) :
    hoardLookup h o = some i ↔ i ∈ h.ht ∧ h.oblock i = o := by
  constructor
  · intro hl
    exact ⟨List.mem_of_find?_eq_some hl, of_decide_eq_true (List.find?_some hl :)⟩
  · intro hi
    cases hl : hoardLookup h o with
    | none =>
      have hn := List.find?_eq_none.mp hl i hi.1
      rw [decide_eq_true_eq] at hn
      exact absurd hi.2 hn
    | some j =>
      have hj : h.oblock j = o := of_decide_eq_true (List.find?_some hl :)
      rw [ht.inj j (List.mem_of_find?_eq_some hl) i hi.1 (hj.trans hi.2.symm)]

theorem Table.lookup_eq_none (ht : h.Table tracked) : hoardLookup h o = none ↔ o ∉ tracked := by
  rw [ht.tracked]
  constructor
  · rintro hl ⟨i, hi⟩
    rw [ht.lookup_eq_some.mpr hi] at hl
    cases hl
  · intro hno
    cases hl : hoardLookup h o with
    | none => rfl
    | some i => exact absurd ⟨i, ht.lookup_eq_some.mp hl⟩ hno

theorem Table.exists_lookup (ht : h.Table tracked) (ho : o ∈ tracked) :
    ∃ i, hoardLookup h o = some i ∧ i ∈ h.ht ∧ h.oblock i = o := by
  obtain ⟨i, hi⟩ := (ht.tracked o).mp ho
  exact ⟨i, ht.lookup_eq_some.mpr hi, hi⟩

/-- An entry in use for each block. -/
theorem Table.card_eq (ht : h.Table tracked) : tracked.card = h.entryPool.nrAllocated := by
  rw [← ht.pool.length_eq_nrAllocated ht.ht_nodup ht.mem_ht]
  have hnodup : (h.ht.map h.oblock).Nodup :=
    (List.nodup_map_iff_inj_on ht.ht_nodup).mpr ht.inj
  have heq : tracked = (h.ht.map h.oblock).toFinset := by
    ext o
    rw [ht.tracked, List.mem_toFinset, List.mem_map]
  rw [heq, List.toFinset_card_of_nodup hnodup, List.length_map]

theorem Table.free_ne_nil (ht : h.Table tracked) (hroom : tracked.card < h.entryPool.nrEntries) :
    h.entryPool.free ≠ [] := by
  intro hnil
  have hnr := ht.pool.nr_allocated
  rw [hnil, List.length_nil, ← ht.card_eq] at hnr
  omega

/-- The fields that the table is about, and the rest. -/
structure SameRest (h h' : HoardTracker) : Prop where
  q : h'.q = h.q
  freq : h'.freq = h.freq
  inCache : h'.inCache = h.inCache
  count : h'.count = h.count
  cacheSize : h'.cacheSize = h.cacheSize
  nrEntries : h'.entryPool.nrEntries = h.entryPool.nrEntries

theorem Table.remove (ht : h.Table tracked) (hi : i ∈ h.ht) : ∃ h', hoardRemove h i = .ok h' ∧
    h'.Table (tracked.erase (h.oblock i)) ∧ h.SameRest h' ∧ h'.ht = h.ht.erase i ∧
    h'.oblock = h.oblock := by
  obtain ⟨pool, hfree, hwf, hentries, _, hnr, _⟩ := ht.pool.freeEntry ((ht.mem_ht i).mp hi)
  let h' : HoardTracker := { h with ht := h.ht.erase i, entryPool := pool }
  have hob : h'.oblock = h.oblock := by
    funext j
    show (pool.entries j).oblock = _
    rw [hentries]
    by_cases hj : j = i
    · rw [hj, Function.update_self]
      rfl
    · rw [Function.update_of_ne hj]
      rfl
  have hmem : ∀ j, j ∈ h'.ht ↔ j ≠ i ∧ j ∈ h.ht := fun j => ht.ht_nodup.mem_erase_iff
  refine ⟨h', by simp only [hoardRemove, hi, if_true, hfree, ok_bind, pure_eq_ok, h'],
    ⟨hwf, ht.ht_nodup.erase i, fun j => ?_, fun j hj k hk hjk => ?_, fun o => ?_⟩,
    ⟨rfl, rfl, rfl, rfl, rfl, hnr⟩, rfl, hob⟩
  · rw [hmem]
    show _ ↔ (pool.entries j).allocated = true
    rw [hentries, ht.mem_ht]
    by_cases hj : j = i
    · rw [hj, Function.update_self]
      simp
    · rw [Function.update_of_ne hj]
      simp [hj]
  · rw [hob] at hjk
    exact ht.inj j ((hmem j).mp hj).2 k ((hmem k).mp hk).2 hjk
  · rw [Finset.mem_erase, ht.tracked, hob]
    constructor
    · rintro ⟨hne, j, hj, rfl⟩
      refine ⟨j, (hmem j).mpr ⟨?_, hj⟩, rfl⟩
      rintro rfl
      exact hne rfl
    · rintro ⟨j, hj, rfl⟩
      obtain ⟨hne, hj⟩ := (hmem j).mp hj
      exact ⟨fun heq => hne (ht.inj j hj i hi heq), j, hj, rfl⟩

theorem Table.alloc (ht : h.Table tracked) (ho : o ∉ tracked)
    (hroom : tracked.card < h.entryPool.nrEntries) : ∃ h' i, hoardAlloc h o = some (h', i) ∧
    h'.Table (insert o tracked) ∧ h.SameRest h' ∧ h'.ht = i :: h.ht ∧ i ∉ h.ht ∧
    h'.oblock = Function.update h.oblock i o := by
  cases hf : h.entryPool.free with
  | nil => exact absurd hf (ht.free_ne_nil hroom)
  | cons i rest =>
    have hfree : i ∈ h.entryPool.free := by
      rw [hf]
      exact List.mem_cons_self
    have hno : (h.entryPool.entries i).allocated = false := ((ht.pool.mem_free i).mp hfree).2
    have hni : i ∉ h.ht := fun hi => by
      rw [(ht.mem_ht i).mp hi] at hno
      cases hno
    let pool := allocThisEntry h.entryPool i
    let h' : HoardTracker := { h with
      entryPool := pool.set i { pool.entries i with oblock := o }
      ht := i :: h.ht }
    have hself : h'.entryPool.entries i = { pool.entries i with oblock := o } :=
      Function.update_self ..
    have hother : ∀ j, j ≠ i → h'.entryPool.entries j = h.entryPool.entries j := by
      intro j hj
      show Function.update (Function.update _ _ _) _ _ _ = _
      rw [Function.update_of_ne hj, Function.update_of_ne hj]
    have hob : h'.oblock = Function.update h.oblock i o := by
      funext j
      by_cases hj : j = i
      · rw [hj, oblock, hself, Function.update_self]
      · rw [oblock, hother j hj, Function.update_of_ne hj]
        rfl
    have hobi : h'.oblock i = o := by rw [hob, Function.update_self]
    have hobj : ∀ j ∈ h.ht, h'.oblock j = h.oblock j := by
      intro j hj
      rw [hob, Function.update_of_ne]
      rintro rfl
      exact hni hj
    have hne : ∀ j ∈ h.ht, h.oblock j ≠ o := fun j hj heq => ho ((ht.tracked o).mpr ⟨j, hj, heq⟩)
    refine ⟨h', i, by rw [hoardAlloc, allocEntry, hf], ⟨?_, List.nodup_cons.mpr ⟨hni, ht.ht_nodup⟩,
      fun j => ?_, fun j hj k hk hjk => ?_, fun a => ?_⟩, ⟨rfl, rfl, rfl, rfl, rfl, rfl⟩, rfl, hni,
      hob⟩
    · exact (ht.pool.allocThisEntry hfree).set rfl rfl
    · by_cases hj : j = i
      · subst hj
        rw [hself]
        exact iff_of_true List.mem_cons_self (by simp [pool, allocThisEntry])
      · rw [hother j hj, List.mem_cons, ht.mem_ht]
        simp [hj]
    · rcases List.mem_cons.mp hj with hji | hjm
      · rcases List.mem_cons.mp hk with hki | hkm
        · exact hji.trans hki.symm
        · rw [hji, hobi, hobj k hkm] at hjk
          exact absurd hjk.symm (hne k hkm)
      · rcases List.mem_cons.mp hk with hki | hkm
        · rw [hki, hobi, hobj j hjm] at hjk
          exact absurd hjk (hne j hjm)
        · rw [hobj j hjm, hobj k hkm] at hjk
          exact ht.inj j hjm k hkm hjk
    · rw [Finset.mem_insert, ht.tracked]
      constructor
      · rintro (rfl | ⟨j, hj, rfl⟩)
        · exact ⟨i, List.mem_cons_self, hobi⟩
        · exact ⟨j, List.mem_cons_of_mem _ hj, hobj j hj⟩
      · rintro ⟨j, hj, rfl⟩
        rcases List.mem_cons.mp hj with rfl | hj
        · exact Or.inl hobi
        · exact Or.inr ⟨j, hj, (hobj j hj).symm⟩

end HoardTracker

end Fomo
