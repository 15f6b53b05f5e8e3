import Fomo.Include.Common
import Mathlib.Data.List.FinRange

/-!
# The heap (`tools/heap.h`)

A min-heap of items that carry a `heap_head`: a key and the index of the item in the
array. The index of a child is an `unsigned`: from `2^31` items on, that of the children of the
last ones wraps, and `heapify` may go up again. Below that it goes down and ends.
-/
namespace Fomo

/-- `struct heap_head`. -/
structure HeapHead where
  key : Nat := 0
  index : Nat := 0
  deriving DecidableEq, Repr

/-- `struct heap` over items `ι`, with the `heap_head` of every item. -/
structure Heap (ι : Type) where
  head : ι → HeapHead := fun _ => {}
  heapArr : Nat → Option ι := fun _ => none
  capacity : Nat := 0
  size : Nat := 0

/-- `heap_compare_f`. It sees the heads as they are when it is called. -/
abbrev HeapCompare (ι : Type) := (ι → HeapHead) → ι → ι → Int

variable {ι : Type}

/-- The allocation of the array is taken to succeed. -/
def heapInit (heap : Heap ι) (capacity : Nat) : Heap ι :=
  { heap with heapArr := fun _ => none, capacity := capacity, size := 0 }

def heapFull (heap : Heap ι) : Bool := heap.size = heap.capacity

def heapParent (heap : Heap ι) (child : ι) : Option ι :=
  if (heap.head child).index > 0 then heap.heapArr (((heap.head child).index - 1) / 2) else none

def heapLeft (heap : Heap ι) (parent : ι) : Option ι :=
  let index := u32 (2 * (heap.head parent).index + 1)
  if index < heap.size then heap.heapArr index else none

def heapRight (heap : Heap ι) (parent : ι) : Option ι :=
  let index := u32 (2 * (heap.head parent).index + 2)
  if index < heap.size then heap.heapArr index else none

section

variable [DecidableEq ι]

def Heap.setIndex (heap : Heap ι) (h : ι) (index : Nat) : Heap ι :=
  { heap with head := Function.update heap.head h { heap.head h with index := index } }

def Heap.setKey (heap : Heap ι) (h : ι) (key : Nat) : Heap ι :=
  { heap with head := Function.update heap.head h { heap.head h with key := key } }

def Heap.setArr (heap : Heap ι) (index : Nat) (h : Option ι) : Heap ι :=
  { heap with heapArr := Function.update heap.heapArr index h }

def heapSwap (heap : Heap ι) (a b : ι) : Heap ι :=
  let aIndex := (heap.head a).index
  let heap := heap.setIndex a (heap.head b).index
  let heap := heap.setIndex b aIndex
  let heap := heap.setArr (heap.head a).index (some a)
  heap.setArr (heap.head b).index (some b)

/-- The loop of `heap_decrease_key`. -/
def heapMoveUp (compare : HeapCompare ι) : Nat → Heap ι → ι → Option ι → Exec (Heap ι)
  | 0, _, _, _ => .error .outOfFuel
  | fuel + 1, heap, h, parent =>
    if (heap.head h).index > 0 then do
      let p ← deref parent
      if compare heap.head h p < 0 then
        let heap := heapSwap heap h p
        heapMoveUp compare fuel heap h (heapParent heap h)
      else return heap
    else return heap

def heapDecreaseKey (compare : HeapCompare ι) (heap : Heap ι) (h : ι) (key : Nat) :
    Exec (Heap ι) := do
  let parent := heapParent heap h
  logAssert (key ≤ (heap.head h).key)
  let heap := heap.setKey h key
  heapMoveUp compare ((heap.head h).index + 1) heap h parent

def heapInsert (compare : HeapCompare ι) (heap : Heap ι) (h : ι) (key : Nat) :
    Exec (Heap ι) := do
  let index := heap.size
  logAssert (heapFull heap = false)
  let heap := { heap with
    size := heap.size + 1
    head := Function.update heap.head h { key := key, index := index } }
  heapDecreaseKey compare (heap.setArr index (some h)) h key

/-- One of the comparisons of `heapify`. -/
def heapLeast (compare : HeapCompare ι) (heap : Heap ι) (min : ι) (child : Option ι) : ι :=
  match child with
  | some c => if compare heap.head c min < 0 then c else min
  | none => min

/-- `heapify` with a bound on the depth of its recursion. -/
def heapMoveDown (compare : HeapCompare ι) : Nat → Heap ι → Nat → Exec (Heap ι)
  | 0, _, _ => .error .outOfFuel
  | fuel + 1, heap, index =>
    if index ≥ heap.size then .ok heap
    else do
      let i ← deref (heap.heapArr index)
      let min := heapLeast compare heap i (heapLeft heap i)
      let min := heapLeast compare heap min (heapRight heap i)
      if min ≠ i then
        let heap := heapSwap heap i min
        heapMoveDown compare fuel heap (heap.head i).index
      else return heap

/-- Deeper than `2^32` calls, the recursion is taken not to end. -/
def heapify (compare : HeapCompare ι) (heap : Heap ι) (index : Nat) : Exec (Heap ι) :=
  heapMoveDown compare (2 ^ 32) heap index

/-- The loop of `heap_build`, with a bound on its rounds. -/
def heapBuildLoop (compare : HeapCompare ι) : Nat → Heap ι → Option ι → Exec (Heap ι)
  | _, heap, none => .ok heap
  | 0, _, some _ => .error .outOfFuel
  | fuel + 1, heap, some h => do
    let heap ← heapify compare heap (heap.head h).index
    heapBuildLoop compare fuel heap (heapParent heap h)

def heapBuild (compare : HeapCompare ι) (fuel : Nat) (heap : Heap ι) : Exec (Heap ι) :=
  if heap.size = 0 then .ok heap
  else heapBuildLoop compare fuel heap (heap.heapArr (heap.size - 1))

/-- The comparison of a heap is an argument of every call. -/
def heapSetCompare (compare : HeapCompare ι) (fuel : Nat) (heap : Heap ι) : Exec (Heap ι) :=
  heapBuild compare fuel heap

/-- On an empty heap the last item is read before the array. -/
def heapDelete (compare : HeapCompare ι) (heap : Heap ι) (h : ι) : Exec (Heap ι) :=
  if heap.size = 0 then .error .outOfBounds
  else do
    let last ← deref (heap.heapArr (heap.size - 1))
    let heap := heapSwap heap h last
    -- remove `h` from the heap
    let heap := heap.setArr (heap.head h).index none
    let heap := { heap with size := heap.size - 1 }
    if compare heap.head last h < 0 then
      heapDecreaseKey compare heap last (heap.head last).key
    else heapify compare heap (heap.head last).index

end

def heapMin (heap : Heap ι) : Option ι := if heap.size = 0 then none else heap.heapArr 0

def heapMinPop [DecidableEq ι] (compare : HeapCompare ι) (heap : Heap ι) :
    Exec (Heap ι × Option ι) :=
  match heapMin heap with
  | none => .ok (heap, none)
  | some min => do
    let heap ← heapDelete compare heap min
    return (heap, some min)

/-- `in_heap`. -/
def inHeap [DecidableEq ι] (heap : Heap ι) : Option ι → Bool
  | none => false
  | some h =>
    if (heap.head h).index ≥ heap.size then false
    else heap.heapArr (heap.head h).index = some h

/-! ## Members and their indices -/

namespace Heap

variable {heap heap' : Heap ι} {a b h x : ι} {f : HeapCompare ι}

/-- `in_heap`: the array lists the item where its head says. -/
def Mem (heap : Heap ι) (x : ι) : Prop :=
  (heap.head x).index < heap.size ∧ heap.heapArr (heap.head x).index = some x

/-- Every place of the heap holds an item that knows its place. -/
def Placed (heap : Heap ι) : Prop :=
  ∀ i < heap.size, ∃ x, heap.heapArr i = some x ∧ (heap.head x).index = i

theorem Placed.mem {i : Nat} (hp : heap.Placed) (hi : i < heap.size)
    (hx : heap.heapArr i = some x) : heap.Mem x ∧ (heap.head x).index = i := by
  obtain ⟨y, hy, hyi⟩ := hp i hi
  obtain rfl := Option.some.inj (hx.symm.trans hy)
  rw [Mem, hyi]
  exact ⟨⟨hi, hx⟩, rfl⟩

/-- Members are told apart by their index. -/
theorem Mem.unique (ha : heap.Mem a) (hb : heap.Mem b)
    (hi : (heap.head a).index = (heap.head b).index) : a = b := by
  have h1 := ha.2
  rw [hi, hb.2] at h1
  exact (Option.some.inj h1).symm

/-- `heap'` holds the members of `heap`, with their keys, in some order. -/
structure Rearranges (heap heap' : Heap ι) : Prop where
  placed : heap'.Placed
  size : heap'.size = heap.size
  capacity : heap'.capacity = heap.capacity
  mem : ∀ x, heap'.Mem x ↔ heap.Mem x
  key : ∀ x, (heap'.head x).key = (heap.head x).key

theorem inHeap_iff [DecidableEq ι] : inHeap heap (some x) = true ↔ heap.Mem x := by
  unfold inHeap Mem
  dsimp only
  split
  · next hi =>
    simp only [Bool.false_eq_true, false_iff]
    omega
  · next hi =>
    rw [decide_eq_true_iff]
    exact ⟨fun hx => ⟨by omega, hx⟩, fun hx => hx.2⟩

theorem Placed.refl (hp : heap.Placed) : heap.Rearranges heap :=
  ⟨hp, rfl, rfl, fun _ => Iff.rfl, fun _ => rfl⟩

theorem Rearranges.trans {heap'' : Heap ι} (h : heap.Rearranges heap')
    (h' : heap'.Rearranges heap'') : heap.Rearranges heap'' :=
  ⟨h'.placed, h'.size.trans h.size, h'.capacity.trans h.capacity,
    fun x => (h'.mem x).trans (h.mem x), fun x => (h'.key x).trans (h.key x)⟩

/-! ## Swaps -/

variable [DecidableEq ι]

theorem swap_index (heap : Heap ι) (a b x : ι) : ((heapSwap heap a b).head x).index =
    if x = b then (heap.head a).index else if x = a then (heap.head b).index
    else (heap.head x).index := by
  by_cases hb : x = b
  · subst hb
    simp [heapSwap, setIndex, setArr]
  · by_cases ha : x = a
    · subst ha
      simp [heapSwap, setIndex, setArr, hb]
    · simp [heapSwap, setIndex, setArr, ha, hb]

theorem swap_index_left (heap : Heap ι) (a b : ι) :
    ((heapSwap heap a b).head a).index = (heap.head b).index := by
  rw [swap_index]
  split
  · next hab => rw [hab]
  · rw [if_pos rfl]

theorem swap_index_right (heap : Heap ι) (a b : ι) :
    ((heapSwap heap a b).head b).index = (heap.head a).index := by
  rw [swap_index, if_pos rfl]

theorem swap_key (heap : Heap ι) (a b x : ι) :
    ((heapSwap heap a b).head x).key = (heap.head x).key := by
  by_cases hb : x = b
  · subst hb
    by_cases ha : x = a
    · subst ha
      simp [heapSwap, setIndex, setArr]
    · simp [heapSwap, setIndex, setArr, ha]
  · by_cases ha : x = a
    · subst ha
      simp [heapSwap, setIndex, setArr, hb]
    · simp [heapSwap, setIndex, setArr, ha, hb]

theorem swap_arr (heap : Heap ι) (hab : a ≠ b) (i : Nat) : (heapSwap heap a b).heapArr i =
    if i = (heap.head a).index then some b else if i = (heap.head b).index then some a
    else heap.heapArr i := by
  simp only [heapSwap, setIndex, setArr, Function.update_self, Function.update_of_ne hab,
    Function.update_apply]

theorem swap_self (ha : heap.Mem a) (i : Nat) :
    (heapSwap heap a a).heapArr i = heap.heapArr i := by
  simp only [heapSwap, setIndex, setArr, Function.update_self, Function.update_idem,
    Function.update_apply]
  split
  · next hi => rw [hi, ha.2]
  · rfl

/-- Swapping two members rearranges the heap. -/
theorem Placed.swap (hp : heap.Placed) (ha : heap.Mem a) (hb : heap.Mem b) :
    heap.Rearranges (heapSwap heap a b) := by
  by_cases hab : a = b
  · subst hab
    have hidx : ∀ x, ((heapSwap heap a a).head x).index = (heap.head x).index := by
      intro x
      rw [swap_index]
      split
      · next hx => rw [hx]
      · rfl
    refine ⟨fun i hi => ?_, rfl, rfl, fun x => ?_, swap_key heap a a⟩
    · obtain ⟨x, hx, hxi⟩ := hp i hi
      exact ⟨x, (swap_self ha i).trans hx, (hidx x).trans hxi⟩
    · rw [Mem, Mem, hidx, swap_self ha]
      rfl
  · have hne : (heap.head a).index ≠ (heap.head b).index := fun hi => hab (ha.unique hb hi)
    have hother : ∀ i, i ≠ (heap.head a).index → i ≠ (heap.head b).index →
        ∀ x, heap.heapArr i = some x → (heap.head x).index = i → x ≠ a ∧ x ≠ b := by
      intro i h1 h2 x _ hxi
      constructor
      · rintro rfl
        exact h1 hxi.symm
      · rintro rfl
        exact h2 hxi.symm
    refine ⟨fun i hi => ?_, rfl, rfl, fun x => ?_, swap_key heap a b⟩
    · rw [swap_arr heap hab]
      by_cases h1 : i = (heap.head a).index
      · exact ⟨b, by rw [if_pos h1], by rw [swap_index_right, h1]⟩
      · by_cases h2 : i = (heap.head b).index
        · exact ⟨a, by rw [if_neg h1, if_pos h2],
            by rw [swap_index_left, h2]⟩
        · obtain ⟨x, hx, hxi⟩ := hp i hi
          obtain ⟨hxa, hxb⟩ := hother i h1 h2 x hx hxi
          exact ⟨x, by rw [if_neg h1, if_neg h2]; exact hx,
            by rw [swap_index, if_neg hxb, if_neg hxa]; exact hxi⟩
    · rw [Mem, Mem, swap_arr heap hab, swap_index]
      by_cases hxb : x = b
      · subst hxb
        simp only [if_true]
        exact ⟨fun _ => hb, fun _ => ⟨ha.1, trivial⟩⟩
      · by_cases hxa : x = a
        · subst hxa
          simp only [if_neg hxb, if_true, if_neg (Ne.symm hne)]
          exact ⟨fun _ => ha, fun _ => ⟨hb.1, trivial⟩⟩
        · simp only [if_neg hxb, if_neg hxa]
          constructor
          · intro ⟨hi, hx⟩
            refine ⟨hi, ?_⟩
            split at hx
            · exact absurd (Option.some.inj hx).symm hxb
            · split at hx
              · exact absurd (Option.some.inj hx).symm hxa
              · exact hx
          · intro ⟨hi, hx⟩
            refine ⟨hi, ?_⟩
            rw [if_neg, if_neg]
            · exact hx
            · intro h2
              rw [h2, hb.2] at hx
              exact hxb (Option.some.inj hx).symm
            · intro h1
              rw [h1, ha.2] at hx
              exact hxa (Option.some.inj hx).symm

/-! ## The loops -/

omit [DecidableEq ι] in
/-- The parent of a member is a member above it. -/
theorem Placed.parent (hp : heap.Placed) (hh : heap.Mem h) (hpos : 0 < (heap.head h).index) :
    ∃ p, heapParent heap h = some p ∧ heap.Mem p ∧
      (heap.head p).index < (heap.head h).index := by
  have hlt : ((heap.head h).index - 1) / 2 < (heap.head h).index := by omega
  have hsize := Nat.lt_trans hlt hh.1
  obtain ⟨p, hx, hi⟩ := hp _ hsize
  refine ⟨p, by rw [heapParent, if_pos hpos, hx], (hp.mem hsize hx).1, ?_⟩
  rw [hi]
  exact hlt

/-- The loop of `heap_decrease_key` ends: the item moves to smaller indices. -/
theorem Placed.moveUp {fuel : Nat} (hp : heap.Placed) (hh : heap.Mem h)
    (hf : (heap.head h).index < fuel) : ∃ heap',
      heapMoveUp f fuel heap h (heapParent heap h) = .ok heap' ∧
      heap.Rearranges heap' := by
  induction fuel generalizing heap with
  | zero => omega
  | succ fuel ih =>
    unfold heapMoveUp
    by_cases hpos : (heap.head h).index > 0
    · obtain ⟨p, hpar, hmem, hlt⟩ := hp.parent hh hpos
      rw [if_pos hpos, hpar, deref_some, ok_bind]
      by_cases hc : f heap.head h p < 0
      · have hsw := hp.swap hh hmem
        have hidx := swap_index_left heap h p
        obtain ⟨heap', hrun, hr⟩ := ih hsw.placed ((hsw.mem h).mpr hh) (by rw [hidx]; omega)
        exact ⟨heap', by rw [if_pos hc]; exact hrun, hsw.trans hr⟩
      · exact ⟨heap, by rw [if_neg hc]; rfl, hp.refl⟩
    · exact ⟨heap, by rw [if_neg hpos]; rfl, hp.refl⟩

omit [DecidableEq ι] in
/-- A comparison of `heapify` picks the item it had or a child below it. -/
theorem least_cases (heap : Heap ι) (x : ι) (child : Option ι) :
    heapLeast f heap x child = x ∨ child = some (heapLeast f heap x child) := by
  cases child with
  | none => exact Or.inl rfl
  | some c =>
    show (if f heap.head c x < 0 then c else x) = x ∨ _
    by_cases hc : f heap.head c x < 0
    · exact Or.inr (by rw [heapLeast, if_pos hc])
    · exact Or.inl (if_neg hc)

omit [DecidableEq ι] in
/-- What `heapify` puts above an item is one of its children. -/
theorem least_child {i l c : ι} {left right : Option ι} (hl : heapLeast f heap i left = l)
    (hr : heapLeast f heap l right = c) (hc : c ≠ i) : left = some c ∨ right = some c := by
  have h1 := least_cases (f := f) heap i left
  have h2 := least_cases (f := f) heap l right
  rw [hl] at h1
  rw [hr] at h2
  rcases h2 with hcl | h2
  · rcases h1 with hli | h1
    · exact absurd (hcl.trans hli) hc
    · exact Or.inl (hcl ▸ h1)
  · exact Or.inr h2

omit [DecidableEq ι] in
/-- Where `heap__left` and `heap__right` look there is a member, or nothing. -/
theorem Placed.at_index (hp : heap.Placed) {j : Nat}
    (hx : (if j < heap.size then heap.heapArr j else none) = some x) :
    heap.Mem x ∧ (heap.head x).index = j := by
  split at hx
  · next hlt => exact hp.mem hlt hx
  · cases hx

omit [DecidableEq ι] in
theorem Placed.child_mem (hp : heap.Placed) {i : ι} (hc : heapLeft heap i = some x ∨
    heapRight heap i = some x) : heap.Mem x :=
  hc.elim (fun hx => (hp.at_index hx).1) fun hx => (hp.at_index hx).1

omit [DecidableEq ι] in
/-- Below `2^31` items the children of a member are further down. -/
theorem Placed.child (hp : heap.Placed) (hs : heap.size < 2 ^ 31) {i : ι} (hi : heap.Mem i)
    (hc : heapLeft heap i = some x ∨ heapRight heap i = some x) :
    heap.Mem x ∧ (heap.head i).index < (heap.head x).index := by
  have hlt := hi.1
  rcases hc with hx | hx
  · obtain ⟨hm, hidx⟩ := hp.at_index hx
    rw [u32_of_lt (by omega)] at hidx
    exact ⟨hm, by omega⟩
  · obtain ⟨hm, hidx⟩ := hp.at_index hx
    rw [u32_of_lt (by omega)] at hidx
    exact ⟨hm, by omega⟩

/-- However far `heapify` goes, it exchanges members only. -/
theorem Placed.moveDown (hp : heap.Placed) (fuel index : Nat) :
    heapMoveDown f fuel heap index = .error .outOfFuel ∨
      ∃ heap', heapMoveDown f fuel heap index = .ok heap' ∧ heap.Rearranges heap' := by
  induction fuel generalizing heap index with
  | zero => exact Or.inl rfl
  | succ fuel ih =>
    unfold heapMoveDown
    by_cases hi : index ≥ heap.size
    · exact Or.inr ⟨heap, if_pos hi, hp.refl⟩
    · obtain ⟨i, hx, hidx⟩ := hp index (by omega)
      have hmem := (hp.mem (by omega) hx).1
      rw [if_neg hi, hx, deref_some, ok_bind]
      dsimp only
      generalize hl : heapLeast f heap i (heapLeft heap i) = l
      generalize hr : heapLeast f heap l (heapRight heap i) = c
      by_cases hc : c ≠ i
      · have hsw := hp.swap hmem (hp.child_mem (least_child hl hr hc))
        rw [if_pos hc]
        rcases ih hsw.placed ((heapSwap heap i c).head i).index with herr | ⟨heap', hrun, hr'⟩
        · exact Or.inl herr
        · exact Or.inr ⟨heap', hrun, hsw.trans hr'⟩
      · exact Or.inr ⟨heap, by rw [if_neg hc]; rfl, hp.refl⟩

/-- Below `2^31` items `heapify` ends: the item moves to larger indices. -/
theorem Placed.moveDown_ends {fuel index : Nat} (hp : heap.Placed) (hs : heap.size < 2 ^ 31)
    (hf : heap.size - index < fuel) : heapMoveDown f fuel heap index ≠ .error .outOfFuel := by
  induction fuel generalizing heap index with
  | zero => omega
  | succ fuel ih =>
    unfold heapMoveDown
    by_cases hi : index ≥ heap.size
    · rw [if_pos hi]
      exact fun h => nomatch h
    · obtain ⟨i, hx, hidx⟩ := hp index (by omega)
      have hmem := (hp.mem (by omega) hx).1
      rw [if_neg hi, hx, deref_some, ok_bind]
      dsimp only
      generalize hl : heapLeast f heap i (heapLeft heap i) = l
      generalize hr : heapLeast f heap l (heapRight heap i) = c
      by_cases hc : c ≠ i
      · -- the least one is a child, further down
        obtain ⟨hcm, hlt⟩ := hp.child hs hmem (least_child hl hr hc)
        have hsw := hp.swap hmem hcm
        have hnew := swap_index_left heap i c
        have hf' : (heapSwap heap i c).size - ((heapSwap heap i c).head i).index < fuel := by
          rw [hsw.size, hnew]
          omega
        rw [if_pos hc]
        exact ih hsw.placed (hsw.size ▸ hs) hf'
      · rw [if_neg hc]
        exact fun h => nomatch h

/-- `heapify` rearranges the heap. With `2^31` items or more it may not end. -/
theorem Placed.heapify (hp : heap.Placed) (index : Nat) :
    Fomo.heapify f heap index = .error .outOfFuel ∧ 2 ^ 31 ≤ heap.size ∨
      ∃ heap', Fomo.heapify f heap index = .ok heap' ∧ heap.Rearranges heap' := by
  rcases hp.moveDown (f := f) (2 ^ 32) index with herr | hok
  · refine Or.inl ⟨herr, not_lt.mp fun hs => ?_⟩
    exact hp.moveDown_ends hs (by omega) herr
  · exact Or.inr hok

/-! ## The operations -/

/-- Changing keys alone. -/
theorem Placed.setKey (hp : heap.Placed) (h : ι) (key : Nat) :
    (heap.setKey h key).Placed ∧
      (∀ x, ((heap.setKey h key).head x).index = (heap.head x).index) ∧
      ∀ x, (heap.setKey h key).Mem x ↔ heap.Mem x := by
  have hidx : ∀ x, ((heap.setKey h key).head x).index = (heap.head x).index := by
    intro x
    by_cases hx : x = h
    · subst hx
      simp [Heap.setKey]
    · simp [Heap.setKey, hx]
  refine ⟨fun i hi => ?_, hidx, fun x => ?_⟩
  · obtain ⟨x, hx, hxi⟩ := hp i hi
    exact ⟨x, hx, (hidx x).trans hxi⟩
  · rw [Mem, Mem, hidx]
    exact Iff.rfl

/-- `heap_decrease_key` sifts the item up once its key is set. -/
theorem Placed.heapDecreaseKey_setKey (hp : heap.Placed) {key : Nat}
    (hk : key ≤ (heap.head h).key) : heapDecreaseKey f heap h key =
      heapMoveUp f ((heap.head h).index + 1) (heap.setKey h key) h
        (heapParent (heap.setKey h key) h) := by
  obtain ⟨_, hidx, _⟩ := hp.setKey h key
  have hpar : heapParent heap h = heapParent (heap.setKey h key) h := by
    rw [heapParent, heapParent, hidx]
    rfl
  simp only [heapDecreaseKey, logAssert_true hk, ok_bind, hpar, hidx]

theorem Placed.decreaseKey (hp : heap.Placed) (hh : heap.Mem h) {key : Nat}
    (hk : key ≤ (heap.head h).key) : ∃ heap',
      heapDecreaseKey f heap h key = .ok heap' ∧ heap'.Placed ∧
      heap'.size = heap.size ∧ heap'.capacity = heap.capacity ∧
      (∀ x, heap'.Mem x ↔ heap.Mem x) ∧
      ∀ x, (heap'.head x).key = if x = h then key else (heap.head x).key := by
  obtain ⟨hp1, hidx, hmem⟩ := hp.setKey h key
  obtain ⟨heap', hrun, hr⟩ := hp1.moveUp (f := f) ((hmem h).mpr hh)
    (Nat.lt_succ_self _)
  rw [hidx] at hrun
  refine ⟨heap', (hp.heapDecreaseKey_setKey hk).trans hrun, hr.placed, hr.size, hr.capacity,
    fun x => (hr.mem x).trans (hmem x), fun x => ?_⟩
  · rw [hr.key]
    by_cases hx : x = h
    · subst hx
      simp [Heap.setKey]
    · simp [Heap.setKey, hx]

/-- The heap with a new item in the last place. -/
def grow (heap : Heap ι) (h : ι) (key : Nat) : Heap ι :=
  { heap with
    head := Function.update heap.head h { key := key, index := heap.size }
    heapArr := Function.update heap.heapArr heap.size (some h)
    size := heap.size + 1 }

theorem grow_head (heap : Heap ι) (h : ι) (key : Nat) :
    (heap.grow h key).head h = { key := key, index := heap.size } := Function.update_self ..

theorem grow_head_of_ne (heap : Heap ι) (key : Nat) (hx : x ≠ h) :
    (heap.grow h key).head x = heap.head x := Function.update_of_ne hx ..

theorem grow_arr_of_lt (heap : Heap ι) (h : ι) (key : Nat) {i : Nat} (hi : i < heap.size) :
    (heap.grow h key).heapArr i = heap.heapArr i := Function.update_of_ne (Nat.ne_of_lt hi) ..

/-- `heap_insert` sifts the new item up from the last place. -/
theorem heapInsert_grow (hroom : heap.size < heap.capacity) (h : ι) (key : Nat) :
    heapInsert f heap h key = heapDecreaseKey f (heap.grow h key) h key := by
  have hfull : heapFull heap = false := by
    simp only [heapFull, decide_eq_false_iff_not]
    omega
  simp only [heapInsert, logAssert_true hfull, ok_bind]
  rfl

theorem Placed.grow (hp : heap.Placed) (hh : ¬heap.Mem h) (key : Nat) :
    (heap.grow h key).Placed ∧ ∀ x, (heap.grow h key).Mem x ↔ x = h ∨ heap.Mem x := by
  have hne : ∀ i x, i < heap.size → heap.heapArr i = some x → x ≠ h := by
    rintro i x hi hx rfl
    exact hh (hp.mem hi hx).1
  have hlast : (heap.grow h key).heapArr heap.size = some h := Function.update_self ..
  constructor
  · intro i hi
    by_cases hlt : i < heap.size
    · obtain ⟨x, hx, hxi⟩ := hp i hlt
      refine ⟨x, (heap.grow_arr_of_lt h key hlt).trans hx, ?_⟩
      rw [heap.grow_head_of_ne key (hne i x hlt hx)]
      exact hxi
    · obtain rfl : i = heap.size := by
        have : i < heap.size + 1 := hi
        omega
      exact ⟨h, hlast, by rw [grow_head]⟩
  · intro x
    by_cases hx : x = h
    · subst hx
      refine iff_of_true ⟨?_, ?_⟩ (Or.inl rfl)
      · rw [grow_head]
        exact Nat.lt_succ_self _
      · rw [grow_head]
        exact hlast
    · rw [Mem, heap.grow_head_of_ne key hx]
      constructor
      · intro ⟨hi, hxa⟩
        have hsz : (heap.head x).index ≠ heap.size := by
          intro heq
          rw [heq, hlast] at hxa
          exact hx (Option.some.inj hxa).symm
        have : (heap.head x).index < heap.size + 1 := hi
        rw [heap.grow_arr_of_lt h key (by omega)] at hxa
        exact Or.inr ⟨by omega, hxa⟩
      · rintro (rfl | ⟨hi, hxa⟩)
        · exact absurd rfl hx
        · exact ⟨Nat.lt_succ_of_lt hi, (heap.grow_arr_of_lt h key hi).trans hxa⟩

/-- A new item in a heap that is not full. -/
theorem Placed.insert (hp : heap.Placed) (hh : ¬heap.Mem h) (hroom : heap.size < heap.capacity)
    (key : Nat) : ∃ heap', heapInsert f heap h key = .ok heap' ∧ heap'.Placed ∧
      heap'.size = heap.size + 1 ∧ heap'.capacity = heap.capacity ∧
      (∀ x, heap'.Mem x ↔ x = h ∨ heap.Mem x) ∧
      ∀ x, (heap'.head x).key = if x = h then key else (heap.head x).key := by
  obtain ⟨hp2, hmem2⟩ := hp.grow hh key
  have hkey : key ≤ ((heap.grow h key).head h).key := Nat.le_of_eq (by rw [grow_head])
  obtain ⟨heap', hrun, hp', hsize, hcap, hmem, hkeys⟩ :=
    hp2.decreaseKey (f := f) ((hmem2 h).mpr (Or.inl rfl)) hkey
  refine ⟨heap', (heapInsert_grow hroom h key).trans hrun, hp', hsize, hcap,
    fun x => (hmem x).trans (hmem2 x), fun x => ?_⟩
  rw [hkeys]
  by_cases hx : x = h
  · rw [if_pos hx, if_pos hx]
  · rw [if_neg hx, if_neg hx, heap.grow_head_of_ne key hx]

/-- The heap with `h` exchanged for the last item and dropped. -/
def shrink (heap : Heap ι) (h last : ι) : Heap ι :=
  { heapSwap heap h last with
    heapArr := Function.update (heapSwap heap h last).heapArr (heap.size - 1) none
    size := heap.size - 1 }

theorem shrink_arr_of_lt (heap : Heap ι) (h last : ι) {i : Nat} (hi : i < heap.size - 1) :
    (heap.shrink h last).heapArr i = (heapSwap heap h last).heapArr i :=
  Function.update_of_ne (Nat.ne_of_lt hi) ..

/-- `heap_delete` sifts the last item one way from the place of the item that leaves. -/
theorem Placed.heapDelete_shrink (hp : heap.Placed) (hh : heap.Mem h) :
    ∃ last, heap.Mem last ∧ (heap.head last).index = heap.size - 1 ∧
      heapDelete f heap h = if f (heap.shrink h last).head last h < 0
        then heapDecreaseKey f (heap.shrink h last) last ((heap.shrink h last).head last).key
        else Fomo.heapify f (heap.shrink h last) ((heap.shrink h last).head last).index := by
  have hpos : 0 < heap.size := Nat.lt_of_le_of_lt (Nat.zero_le _) hh.1
  obtain ⟨last, hlast, hli⟩ := hp (heap.size - 1) (by omega)
  refine ⟨last, (hp.mem (by omega) hlast).1, hli, ?_⟩
  have hhi := (swap_index_left heap h last).trans hli
  have hne : heap.size ≠ 0 := by omega
  simp only [heapDelete, if_neg hne, hlast, deref_some, ok_bind, hhi]
  rfl

theorem Placed.shrink (hp : heap.Placed) (hh : heap.Mem h) {last : ι} (hlm : heap.Mem last)
    (hli : (heap.head last).index = heap.size - 1) : (heap.shrink h last).Placed ∧
      (∀ x, (heap.shrink h last).Mem x ↔ x ≠ h ∧ heap.Mem x) ∧
      ∀ x, ((heap.shrink h last).head x).key = (heap.head x).key := by
  have hsw := hp.swap hh hlm
  have hhi := (swap_index_left heap h last).trans hli
  have hhm := (hsw.mem h).mpr hh
  refine ⟨fun i hi => ?_, fun x => ?_, hsw.key⟩
  · have hi' : i < heap.size - 1 := hi
    obtain ⟨x, hx, hxi⟩ := hsw.placed i (by rw [hsw.size]; omega)
    exact ⟨x, (heap.shrink_arr_of_lt h last hi').trans hx, hxi⟩
  · rw [← hsw.mem x]
    constructor
    · intro ⟨hi, hx⟩
      have hi' : ((heapSwap heap h last).head x).index < heap.size - 1 := hi
      refine ⟨?_, by rw [hsw.size]; omega, ?_⟩
      · rintro rfl
        omega
      · rw [← heap.shrink_arr_of_lt h last hi']
        exact hx
    · intro ⟨hne, hm⟩
      have hlt : ((heapSwap heap h last).head x).index < heap.size := hsw.size ▸ hm.1
      have hni : ((heapSwap heap h last).head x).index ≠ heap.size - 1 := by
        intro heq
        exact hne (hm.unique hhm (heq.trans hhi.symm))
      have hi' : ((heapSwap heap h last).head x).index < heap.size - 1 := by omega
      exact ⟨hi', (heap.shrink_arr_of_lt h last hi').trans hm.2⟩

/-- A member leaves, if `heapify` ends. No item is below itself for the comparison. -/
theorem Placed.delete (hp : heap.Placed) (hh : heap.Mem h)
    (hself : ∀ head x, ¬f head x x < 0) :
    heapDelete f heap h = .error .outOfFuel ∧ 2 ^ 31 < heap.size ∨ ∃ heap',
      heapDelete f heap h = .ok heap' ∧ heap'.Placed ∧ heap'.size = heap.size - 1 ∧
      heap'.capacity = heap.capacity ∧ (∀ x, heap'.Mem x ↔ x ≠ h ∧ heap.Mem x) ∧
      ∀ x, (heap'.head x).key = (heap.head x).key := by
  obtain ⟨last, hlm, hli, hrun0⟩ := hp.heapDelete_shrink (f := f) hh
  obtain ⟨hp2, hmem2, hkey2⟩ := hp.shrink hh hlm hli
  rw [hrun0]
  by_cases hc : f (heap.shrink h last).head last h < 0
  · have hne : last ≠ h := by
      intro heq
      rw [heq] at hc
      exact hself _ _ hc
    obtain ⟨heap', hrun, hp', hsize, hcap, hmem, hkeys⟩ :=
      hp2.decreaseKey (f := f) ((hmem2 last).mpr ⟨hne, hlm⟩) (Nat.le_refl _)
    refine Or.inr ⟨heap', by rw [if_pos hc, hrun], hp', hsize, hcap,
      fun x => (hmem x).trans (hmem2 x), fun x => ?_⟩
    rw [hkeys]
    split
    · next hx => rw [hx]; exact hkey2 last
    · exact hkey2 x
  · rw [if_neg hc]
    rcases hp2.heapify (f := f) ((heap.shrink h last).head last).index with
      ⟨herr, hbig⟩ | ⟨heap', hrun, hr⟩
    · have hbig : 2 ^ 31 ≤ heap.size - 1 := hbig
      exact Or.inl ⟨herr, by omega⟩
    · exact Or.inr ⟨heap', hrun, hr.placed, hr.size, hr.capacity,
        fun x => (hr.mem x).trans (hmem2 x), fun x => (hr.key x).trans (hkey2 x)⟩

omit [DecidableEq ι] in
/-- The least item of a heap that is not empty is one of its members. -/
theorem Placed.min (hp : heap.Placed) (hpos : 0 < heap.size) :
    ∃ x, heapMin heap = some x ∧ heap.Mem x := by
  obtain ⟨x, hx, _⟩ := hp 0 hpos
  refine ⟨x, ?_, (hp.mem hpos hx).1⟩
  rw [heapMin, if_neg (Nat.pos_iff_ne_zero.mp hpos)]
  exact hx

omit [DecidableEq ι] in
/-- The array lists as many members as the heap is long, each once. -/
theorem Placed.members (hp : heap.Placed) :
    ∃ l : List ι, l.Nodup ∧ l.length = heap.size ∧ ∀ x ∈ l, heap.Mem x := by
  choose f harr hidx using hp
  refine ⟨List.ofFn fun i : Fin heap.size => f i i.2, ?_, List.length_ofFn, ?_⟩
  · apply List.nodup_ofFn.mpr
    intro i j hij
    have hij : f i i.2 = f j j.2 := hij
    apply Fin.ext
    rw [← hidx i i.2, ← hidx j j.2, hij]
  · intro x hx
    obtain ⟨i, rfl⟩ := List.mem_ofFn.mp hx
    refine ⟨?_, ?_⟩
    · rw [hidx]
      exact i.2
    · rw [hidx]
      exact harr i i.2

end Heap

end Fomo
