import Fomo.Include.HeapRuns
import Fomo.Include.HeapSinks

/-!
# Where an index wraps

With `2^31` items the right child of the last one is the root: `heapify` after an increase of
its key may exchange the two. The heap is correct for all runs up to there.
-/
namespace Fomo

/-! ## A heap of `2^31` items -/

variable {n capacity room : Nat}

/-- Items that came in one after the other, the first under a lower key. -/
def crowd (capacity n : Nat) : Heap Nat where
  head := fun i => if i < n then { key := if i = 0 then 0 else 2, index := i } else {}
  heapArr := fun i => if i < n then some i else none
  capacity := capacity
  size := n

/-- The keys two by two. -/
def halfCompare : HeapCompare Nat := keyCompareBy (· / 2)

theorem crowd_zero (capacity : Nat) : crowd capacity 0 = heapInit {} capacity := by
  simp [crowd, heapInit]

theorem crowd_grow (capacity n : Nat) :
    (crowd capacity n).grow n (if n = 0 then 0 else 2) = crowd capacity (n + 1) := by
  refine (Heap.mk.injEq ..).mpr ⟨funext fun i => ?_, funext fun i => ?_, rfl, rfl⟩
  · by_cases hi : i = n
    · subst hi
      simp [crowd]
    · have hiff : i < n + 1 ↔ i < n := by omega
      simp [crowd, hi, hiff]
  · by_cases hi : i = n
    · subst hi
      simp [crowd]
    · have hiff : i < n + 1 ↔ i < n := by omega
      simp [crowd, hi, hiff]

theorem crowd_arr {i : Nat} (hi : i < n) : (crowd capacity n).heapArr i = some i := if_pos hi

theorem crowd_head {i : Nat} (hi : i < n) :
    (crowd capacity n).head i = { key := if i = 0 then 0 else 2, index := i } := if_pos hi

theorem crowd_placed : (crowd capacity n).Placed := fun i hi =>
  ⟨i, crowd_arr hi, congrArg HeapHead.index (crowd_head hi)⟩

theorem crowd_mem {i : Nat} : (crowd capacity n).Mem i ↔ i < n := by
  constructor
  · intro hm
    have hx := hm.2
    have hi : ((crowd capacity n).head i).index < n := hm.1
    rw [crowd_arr hi] at hx
    exact Option.some.inj hx ▸ hi
  · intro hi
    rw [Heap.Mem, crowd_head hi]
    exact ⟨hi, crowd_arr hi⟩

theorem halfCompare_neg {head : Nat → HeapHead} {a b : Nat} :
    halfCompare head a b < 0 ↔ (head a).key / 2 < (head b).key / 2 := by
  rw [halfCompare, keyCompareBy_sign, Int.sign_neg_iff]
  omega

/-- Another item stays where it comes in. -/
theorem heapInsert_crowd (hcap : n < capacity) :
    heapInsert halfCompare (crowd capacity n) n (if n = 0 then 0 else 2) =
      .ok (crowd capacity (n + 1)) := by
  have hn : n < n + 1 := Nat.lt_succ_self n
  have hout : ¬(crowd capacity n).Mem n := fun hm => Nat.lt_irrefl n (crowd_mem.mp hm)
  rw [← crowd_grow]
  refine crowd_placed.insert_stays hout hcap fun p hpar => ?_
  rw [crowd_grow] at hpar ⊢
  have hidx : ((crowd capacity (n + 1)).head n).index = n := by rw [crowd_head hn]
  obtain ⟨hpos, hp⟩ : n > 0 ∧ (n - 1) / 2 = p := by
    rw [heapParent, hidx] at hpar
    by_cases hpos : n > 0
    · rw [if_pos hpos, crowd_arr (i := (n - 1) / 2) (by omega)] at hpar
      exact ⟨hpos, Option.some.inj hpar⟩
    · rw [if_neg hpos] at hpar
      cases hpar
  rw [halfCompare_neg, crowd_head hn, crowd_head (i := p) (by omega), if_neg (by omega)]
  dsimp only
  split
  · omega
  · omega

/-- As many items as there is room for. -/
theorem run_crowd (n : Nat) (hn : n ≤ min capacity room) : ∃ t,
    (heapCalls halfCompare room).Run (heapInit {} capacity) t (crowd capacity n) := by
  induction n with
  | zero => exact ⟨[], crowd_zero capacity ▸ .nil⟩
  | succ n ih =>
    obtain ⟨t, hrun⟩ := ih (by omega)
    have hout : ¬(crowd capacity n).Mem n := fun hm => Nat.lt_irrefl n (crowd_mem.mp hm)
    have hcap : n < capacity := by omega
    have hroom : n < room := by omega
    have hg : (heapCalls halfCompare room).guard (crowd capacity n)
        (.insert n (if n = 0 then 0 else 2)) := ⟨hout, hcap, hroom⟩
    have hstep : (heapCalls halfCompare room).step (crowd capacity n)
        (.insert n (if n = 0 then 0 else 2)) = .ok (crowd capacity (n + 1), none) := by
      simp only [heapCalls, heapStep, heapInsert_crowd hcap, ok_bind, pure_eq_ok]
    exact ⟨_, hrun.snoc hg hstep⟩

/-- The last of `2^31` items with a higher key. -/
def raised (capacity : Nat) : Heap Nat := (crowd capacity (2 ^ 31)).setKey (2 ^ 31 - 1) 3

/-- The heap that `heapify` makes of it. -/
def swapped (capacity : Nat) : Heap Nat := heapSwap (raised capacity) (2 ^ 31 - 1) 0

section

variable {i : Nat}

theorem raised_arr (hi : i < 2 ^ 31) : (raised capacity).heapArr i = some i := by
  show (crowd capacity (2 ^ 31)).heapArr i = some i
  exact crowd_arr hi

theorem raised_last : (raised capacity).head (2 ^ 31 - 1) = { key := 3, index := 2 ^ 31 - 1 } := by
  rw [raised, Heap.setKey]
  simp only [Function.update_self]
  rw [crowd_head (by omega)]

theorem raised_head (hi : i < 2 ^ 31 - 1) :
    (raised capacity).head i = { key := if i = 0 then 0 else 2, index := i } := by
  rw [raised, Heap.setKey_head_of_ne (by omega), crowd_head (by omega)]

theorem raised_mem : (raised capacity).Mem (2 ^ 31 - 1) := by
  have hsize : (raised capacity).size = 2 ^ 31 := rfl
  have hidx : ((raised capacity).head (2 ^ 31 - 1)).index = 2 ^ 31 - 1 := by rw [raised_last]
  rw [Heap.Mem, hidx]
  exact ⟨by omega, raised_arr (by omega)⟩

theorem swapped_root : (swapped capacity).heapArr 0 = some (2 ^ 31 - 1) := by
  rw [swapped, Heap.swap_arr _ (by omega), raised_last, raised_head (by omega)]
  dsimp only
  rw [if_neg (by omega), if_pos rfl]

theorem swapped_last : (swapped capacity).heapArr (2 ^ 31 - 1) = some 0 := by
  rw [swapped, Heap.swap_arr _ (by omega), raised_last]
  dsimp only
  rw [if_pos rfl]

theorem swapped_arr (hpos : 0 < i) (hi : i < 2 ^ 31 - 1) :
    (swapped capacity).heapArr i = some i := by
  rw [swapped, Heap.swap_arr _ (by omega), raised_last, raised_head (by omega)]
  dsimp only
  rw [if_neg (by omega), if_neg (by omega), raised_arr (by omega)]

theorem swapped_index_last : ((swapped capacity).head (2 ^ 31 - 1)).index = 0 := by
  rw [swapped, Heap.swap_index_left, raised_head (by omega)]

theorem swapped_index_root : ((swapped capacity).head 0).index = 2 ^ 31 - 1 := by
  rw [swapped, Heap.swap_index_right, raised_last]

theorem swapped_compare (head : Nat → HeapHead)
    (hkeys : ∀ x, (head x).key = ((raised capacity).head x).key) (hi : i < 2 ^ 31 - 1) :
    halfCompare head i (2 ^ 31 - 1) < 0 ↔ i = 0 := by
  rw [halfCompare_neg, hkeys, hkeys, raised_last, raised_head hi]
  dsimp only
  split
  · next h0 => simp [h0]
  · next h0 => simp [h0]

end

theorem swapped_left : heapLeft (swapped capacity) (2 ^ 31 - 1) = some 1 := by
  have hsize : (swapped capacity).size = 2 ^ 31 := rfl
  rw [Heap.left_of_lt swapped_index_last (by omega) hsize]
  exact swapped_arr (by omega) (by omega)

theorem swapped_right : heapRight (swapped capacity) (2 ^ 31 - 1) = some 2 := by
  have hsize : (swapped capacity).size = 2 ^ 31 := rfl
  rw [Heap.right_of_lt swapped_index_last (by omega) hsize]
  exact swapped_arr (by omega) (by omega)

theorem swapped_mem : (swapped capacity).Mem (2 ^ 31 - 1) := by
  have hsize : (swapped capacity).size = 2 ^ 31 := rfl
  rw [Heap.Mem, swapped_index_last]
  exact ⟨by omega, swapped_root⟩

/-- With `2^31` items, `heapify` at the last place exchanges it with the root. -/
theorem heapify_raised (capacity : Nat) :
    heapify halfCompare (raised capacity) (2 ^ 31 - 1) = .ok (swapped capacity) := by
  have hsize : (raised capacity).size = 2 ^ 31 := rfl
  have hfuel : (2 : Nat) ^ 32 = (2 ^ 32 - 2) + 1 + 1 := by omega
  have hlast : ((raised capacity).head (2 ^ 31 - 1)).index = 2 ^ 31 - 1 := by rw [raised_last]
  have hkeys : ∀ x, ((swapped capacity).head x).key = ((raised capacity).head x).key :=
    Heap.swap_key _ _ _
  have hup : Heap.picked halfCompare (raised capacity) (2 ^ 31 - 1) = 0 := by
    rw [Heap.picked, Heap.left_of_leaf raised_mem hlast (by omega) hsize,
      Heap.right_of_last hlast hsize, raised_arr (by omega)]
    exact if_pos ((swapped_compare _ (fun _ => rfl) (by omega)).mpr rfl)
  have hkeep : ∀ {i}, 0 < i → i < 2 ^ 31 - 1 →
      heapLeast halfCompare (swapped capacity) (2 ^ 31 - 1) (some i) = 2 ^ 31 - 1 := by
    intro i hpos hi
    refine if_neg fun hlt => ?_
    have := (swapped_compare _ hkeys hi).mp hlt
    omega
  -- no item below the root is less than the one that came up
  have hstay : Heap.picked halfCompare (swapped capacity) (2 ^ 31 - 1) = 2 ^ 31 - 1 := by
    rw [Heap.picked, swapped_left, swapped_right, hkeep (by omega) (by omega),
      hkeep (by omega) (by omega)]
  have hstep := raised_mem.moveDown_swap hup (by omega) ((2 ^ 32 - 2) + 1)
  rw [hlast] at hstep
  rw [heapify, hfuel, hstep]
  exact swapped_mem.moveDown_stay hstay _

theorem swapped_min : heapMin (swapped capacity) = some (2 ^ 31 - 1) := by
  have hsize : (swapped capacity).size = 2 ^ 31 := rfl
  rw [heapMin, if_neg (by omega), swapped_root]

theorem swapped_in : inHeap (swapped capacity) (some 0) = true := by
  have hsize : (swapped capacity).size = 2 ^ 31 := rfl
  rw [Heap.inHeap_iff, Heap.Mem, swapped_index_root]
  exact ⟨by omega, swapped_last⟩

theorem swapped_less : halfCompare (swapped capacity).head 0 (2 ^ 31 - 1) < 0 :=
  (swapped_compare _ (Heap.swap_key _ _ _) (by omega)).mpr rfl

theorem halfCompare_compares : KeyCompare halfCompare :=
  keyCompareBy_compares fun _ _ h => Nat.div_le_div_right h

/-! ## All runs -/

/-- The exchange leaves an item at the root that is not the least one. -/
theorem swapped_incorrect (t : List (HeapCall Nat × Option Nat)) :
    ¬HeapCorrect halfCompare room t (swapped capacity) := by
  intro h
  have hmem := (h.inHeap 0).mp swapped_in
  have hle := (h.min _ swapped_min).2 0 hmem
  exact halfCompare_compares.total.le_iff.mp hle swapped_less

/-- A run that fills the heap with `2^31` items and increases the key of the last one. -/
theorem run_swapped (capacity room : Nat) (h : 2 ^ 31 ≤ min capacity room) : ∃ t,
    (heapCalls halfCompare room).Run (heapInit {} capacity) t (swapped capacity) := by
  obtain ⟨t, hrun⟩ := run_crowd (2 ^ 31) h
  have hmem : (crowd capacity (2 ^ 31)).Mem (2 ^ 31 - 1) := crowd_mem.mpr (by omega)
  have hkey : ((crowd capacity (2 ^ 31)).head (2 ^ 31 - 1)).key ≤ 3 := by
    rw [crowd_head (by omega)]
    dsimp only
    rw [if_neg (by omega)]
    omega
  have hg : (heapCalls halfCompare room).guard (crowd capacity (2 ^ 31))
      (.increaseKey (2 ^ 31 - 1) 3) := ⟨hmem, hkey⟩
  have hstep : (heapCalls halfCompare room).step (crowd capacity (2 ^ 31))
      (.increaseKey (2 ^ 31 - 1) 3) = .ok (swapped capacity, none) := by
    show (do
      let heap ← heapify halfCompare (raised capacity)
        ((raised capacity).head (2 ^ 31 - 1)).index
      return (heap, none)) = _
    rw [raised_last, heapify_raised]
    rfl
  exact ⟨_, hrun.snoc hg hstep⟩

/-- For a heap that holds at most `room` items at once: it keeps its members in order through
every run, exactly if there are never `2^31` items. -/
theorem heap_correct (capacity : UInt32) (room : Nat) :
    (∀ (ι : Type) [DecidableEq ι] (f : HeapCompare ι) (heap0 heap : Heap ι)
      (t : List (HeapCall ι × Option ι)), KeyCompare f →
      (heapCalls f room).Run (heapInit heap0 capacity.toNat) t heap →
      HeapCorrect f room t heap) ↔ min capacity.toNat room < 2 ^ 31 := by
  constructor
  · intro h
    by_contra hge
    obtain ⟨t, hrun⟩ := run_swapped _ _ (not_lt.mp hge)
    exact swapped_incorrect t (h Nat halfCompare {} _ t halfCompare_compares hrun)
  · intro hsmall ι _ f heap0 heap t hf hrun
    exact (HeapTracks.of_run hf hsmall hrun).correct hf hsmall

/-- The least item of `2^31` goes to the last place, under a comparison of half the keys. -/
theorem heap_correct_wraps : KeyCompare halfCompare ∧ ∃ t heap,
    (heapCalls halfCompare (2 ^ 31)).Run (heapInit {} (2 ^ 31)) t heap ∧
    heapMin heap = some (2 ^ 31 - 1) ∧ inHeap heap (some 0) = true ∧
    halfCompare heap.head 0 (2 ^ 31 - 1) < 0 ∧ ¬HeapCorrect halfCompare (2 ^ 31) t heap := by
  obtain ⟨t, hrun⟩ := run_swapped (2 ^ 31) (2 ^ 31) (Nat.le_min.mpr ⟨Nat.le_refl _, Nat.le_refl _⟩)
  exact ⟨halfCompare_compares, t, _, hrun, swapped_min, swapped_in, swapped_less,
    swapped_incorrect t⟩

end Fomo
