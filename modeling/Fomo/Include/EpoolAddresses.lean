import Fomo.Include.Epool

/-!
# The addresses of a pool (`tools/epool.h`)

`epool_at` reads the array of pointers to the entries, `infer_cblock` goes back from a pointer
to the slot by the distance of the first two.
-/
namespace Fomo.EpoolAddresses

/-- `struct entry_pool` as far as the addresses go. -/
structure PoolArray where
  entriesBegin : Nat
  entriesEnd : Nat
  nrEntries : Nat
  startingIndex : Nat
  entries : List Nat

/-- The address of the entry in the item `i` of an array at `base`. -/
def entryAddress (base size offset i : Nat) : Nat := base + i * size + offset

/-- `nrEntries` items of `size` bytes, each with its entry at `offset`. -/
def epoolCreate (base size offset nrEntries : Nat) : PoolArray where
  entriesBegin := base
  entriesEnd := base + nrEntries * size
  nrEntries := nrEntries
  startingIndex := 0
  entries := (List.range nrEntries).map (entryAddress base size offset)

/-- What `epool_init` does to these fields of a pool. -/
def epoolInit (ep : PoolArray) (startingIndex : Nat) : PoolArray :=
  { ep with startingIndex := startingIndex }

/-- `ep->entries[k]` -/
def PoolArray.read (ep : PoolArray) (k : Nat) : Exec Nat :=
  match ep.entries[k]? with
  | some e => .ok e
  | none => .error .outOfBounds

def epoolAt (ep : PoolArray) (index : Cblock) : Exec (Option Nat) :=
  let convertedIndex := sub32 index ep.startingIndex
  if convertedIndex ≥ ep.nrEntries then .ok none
  else do
    let e ← ep.read convertedIndex
    return some e

def inPool (ep : PoolArray) (e : Nat) : Prop := ep.entriesBegin ≤ e ∧ e < ep.entriesEnd

instance (ep : PoolArray) (e : Nat) : Decidable (inPool ep e) :=
  inferInstanceAs (Decidable (_ ∧ _))

def inferCblock (ep : PoolArray) (e : Nat) : Exec Cblock := do
  logAssert (inPool ep e)
  let entriesBegin ← ep.read 0
  let second ← ep.read 1
  let spaceBetween := sub64 second entriesBegin
  let slot ← div64 (sub64 e entriesBegin) spaceBetween
  return u32 (slot + ep.startingIndex)

/-! ## Slots and addresses -/

/-- A pool of `n` items that counts from `s`. -/
def poolOf (base size offset n s : Nat) : PoolArray := epoolInit (epoolCreate base size offset n) s

variable {base size offset n s i index : Nat}

theorem read_of_lt (h : i < n) :
    (poolOf base size offset n s).read i = .ok (entryAddress base size offset i) := by
  simp [PoolArray.read, poolOf, epoolInit, epoolCreate, List.getElem?_range h]

theorem read_of_ge (h : n ≤ i) :
    (poolOf base size offset n s).read i = .error .outOfBounds := by
  simp [PoolArray.read, poolOf, epoolInit, epoolCreate, h]

theorem epoolAt_slot (hi : i < n) (hs : s + n < 2 ^ 32) :
    epoolAt (poolOf base size offset n s) (s + i) =
      .ok (some (entryAddress base size offset i)) := by
  have hsub : sub32 (s + i) s = i := by
    rw [sub32_of_le (by omega) (by omega), Nat.add_sub_cancel_left]
  have hstart : (poolOf base size offset n s).startingIndex = s := rfl
  have hnr : (poolOf base size offset n s).nrEntries = n := rfl
  rw [epoolAt, hstart, hsub, hnr, if_neg (by omega), read_of_lt hi]
  rfl

theorem epoolAt_outside (hindex : index < 2 ^ 32) (hs : s + n < 2 ^ 32)
    (hout : ¬(s ≤ index ∧ index < s + n)) :
    epoolAt (poolOf base size offset n s) index = .ok none := by
  refine if_pos ?_
  show n ≤ sub32 index s
  unfold sub32 u32
  omega

theorem inPool_entry (hoff : offset < size) (hi : i < n) :
    inPool (poolOf base size offset n s) (entryAddress base size offset i) := by
  constructor
  · show base ≤ base + i * size + offset
    omega
  · show base + i * size + offset < base + n * size
    have hle : (i + 1) * size ≤ n * size := Nat.mul_le_mul_right size hi
    rw [Nat.add_mul, Nat.one_mul] at hle
    omega

/-- With two entries to measure by, the slot is found. -/
theorem inferCblock_entry (hoff : offset < size) (hi : i < n) (hn : 2 ≤ n) (hs : s + n < 2 ^ 32) :
    inferCblock (poolOf base size offset n s) (entryAddress base size offset i) =
      .ok (s + i) := by
  have hspace : sub64 (entryAddress base size offset 1) (entryAddress base size offset 0) =
      size := by
    rw [sub64_of_le (by simp only [entryAddress]; omega)]
    simp only [entryAddress]
    omega
  have hdist : sub64 (entryAddress base size offset i) (entryAddress base size offset 0) =
      i * size := by
    rw [sub64_of_le (by simp only [entryAddress]; omega)]
    simp only [entryAddress]
    omega
  rw [inferCblock, logAssert_true (inPool_entry hoff hi), ok_bind, read_of_lt (by omega), ok_bind,
    read_of_lt (by omega), ok_bind, hspace, hdist]
  dsimp only
  rw [div64_of_pos (by omega), ok_bind, Nat.mul_div_cancel _ (by omega)]
  show (.ok (u32 (i + s)) : Exec Cblock) = _
  rw [u32_of_lt (by omega), Nat.add_comm]

/-- In a pool of one entry the second pointer lies past the array. -/
theorem inferCblock_single (hoff : offset < size) :
    inferCblock (poolOf base size offset 1 s) (entryAddress base size offset 0) =
      .error .outOfBounds := by
  rw [inferCblock, logAssert_true (inPool_entry hoff Nat.one_pos), ok_bind,
    read_of_lt Nat.one_pos, ok_bind, read_of_ge (Nat.le_refl 1)]
  rfl

/-- The index arithmetic on slots is that on addresses. -/
theorem inferCblock_refines {ep : EntryPool} (hs : ep.startingIndex = s) (hoff : offset < size)
    (hi : i < n) (h2 : 2 ≤ n) (h32 : s + n < 2 ^ 32) :
    inferCblock (poolOf base size offset n s) (entryAddress base size offset i) =
      .ok (Fomo.inferCblock ep i) := by
  rw [inferCblock_entry hoff hi h2 h32, Fomo.inferCblock, hs, Nat.add_comm]

/-- Slot numbers go to entries and back, and no other number to any entry, without a read
outside the array exactly when the pool has two entries. -/
theorem inferCblock_epoolAt_iff (base size offset n s : Nat) (hoff : offset < size) (hn : 0 < n)
    (hs : s + n < 2 ^ 32) :
    ((∀ i < n, ∃ e, epoolAt (poolOf base size offset n s) (s + i) = .ok (some e) ∧
        inferCblock (poolOf base size offset n s) e = .ok (s + i)) ∧
      ∀ index < 2 ^ 32, ¬(s ≤ index ∧ index < s + n) →
        epoolAt (poolOf base size offset n s) index = .ok none) ↔ 2 ≤ n := by
  constructor
  · rintro ⟨hround, _⟩
    by_contra hlt
    obtain rfl : n = 1 := by omega
    obtain ⟨e, hat, hinfer⟩ := hround 0 Nat.one_pos
    rw [epoolAt_slot Nat.one_pos hs] at hat
    obtain rfl := Option.some.inj (Except.ok.inj hat)
    rw [inferCblock_single hoff] at hinfer
    cases hinfer
  · intro h2
    constructor
    · exact fun i hi => ⟨_, epoolAt_slot hi hs, inferCblock_entry hoff hi h2 hs⟩
    · exact fun index hindex => epoolAt_outside hindex hs

theorem inferCblock_epoolAt_two : ∃ e, epoolAt (poolOf 4096 96 8 2 7) 8 = .ok (some e) ∧
    inferCblock (poolOf 4096 96 8 2 7) e = .ok 8 :=
  ((inferCblock_epoolAt_iff 4096 96 8 2 7 (by decide) (by decide) (by decide)).mpr
    (by decide)).1 1 (by decide)

theorem inferCblock_one_entry : ∃ e, epoolAt (poolOf 4096 96 8 1 0) 0 = .ok (some e) ∧
    inferCblock (poolOf 4096 96 8 1 0) e = .error .outOfBounds := ⟨_, rfl, rfl⟩

end Fomo.EpoolAddresses
