import Fomo.Include.HeapKeys
import Fomo.Lib.Run

/-!
# Runs of the heap

Any calls on a heap that stays below `2^31` items keep its order and its members.
-/
namespace Fomo

open Lib (Since since_snoc System)

variable {ι : Type}

/-- The calls on a heap. An `increaseKey` sets the key and calls `heapify` at the index. -/
inductive HeapCall (ι : Type)
  | insert (h : ι) (key : Nat)
  | decreaseKey (h : ι) (key : Nat)
  | increaseKey (h : ι) (key : Nat)
  | delete (h : ι)
  | minPop

/-- The caller's side: items come in while there is room, and only members are changed. -/
def Heap.Allows (heap : Heap ι) (room : Nat) : HeapCall ι → Prop
  | .insert h _ => ¬heap.Mem h ∧ heap.size < heap.capacity ∧ heap.size < room
  | .decreaseKey h key => heap.Mem h ∧ key ≤ (heap.head h).key
  | .increaseKey h key => heap.Mem h ∧ (heap.head h).key ≤ key
  | .delete h => heap.Mem h
  | .minPop => True

/-- A call and its answer bring an item in. -/
def HeapInserts (x : ι) (c : HeapCall ι × Option ι) : Prop := ∃ key, c.1 = .insert x key

def HeapRemoves (x : ι) (c : HeapCall ι × Option ι) : Prop :=
  c.1 = .delete x ∨ c.1 = .minPop ∧ c.2 = some x

/-- Inserted, and not deleted since. -/
def HeapMember (t : List (HeapCall ι × Option ι)) (x : ι) : Prop :=
  Since (HeapInserts x) (HeapRemoves x) t

section

variable [DecidableEq ι]

def heapStep (f : HeapCompare ι) (heap : Heap ι) : HeapCall ι → Exec (Heap ι × Option ι)
  | .insert h key => do
    let heap ← heapInsert f heap h key
    return (heap, none)
  | .decreaseKey h key => do
    let heap ← heapDecreaseKey f heap h key
    return (heap, none)
  | .increaseKey h key => do
    let heap := heap.setKey h key
    let heap ← heapify f heap (heap.head h).index
    return (heap, none)
  | .delete h => do
    let heap ← heapDelete f heap h
    return (heap, none)
  | .minPop => heapMinPop f heap

/-- A heap that holds at most `room` items at once. -/
def heapCalls (f : HeapCompare ι) (room : Nat) : System (Heap ι) (HeapCall ι) (Option ι) Fault where
  guard := fun heap => heap.Allows room
  step := heapStep f

/-- What the heap is for, after the calls `t`. -/
structure HeapCorrect (f : HeapCompare ι) (room : Nat) (t : List (HeapCall ι × Option ι))
    (heap : Heap ι) : Prop where
  order : heap.InOrder f
  place : ∀ x, HeapMember t x → heap.heapArr (heap.head x).index = some x
  members : ∀ x, (∃ i, i < heap.size ∧ heap.heapArr i = some x) ↔ HeapMember t x
  inHeap : ∀ x, inHeap heap (some x) = true ↔ HeapMember t x
  min_none : heapMin heap = none ↔ ∀ x, ¬HeapMember t x
  min : ∀ x, heapMin heap = some x →
    HeapMember t x ∧ ∀ y, HeapMember t y → f heap.head x y ≤ 0
  popped : ∃ (heap' : Heap ι) (l : List ι),
    (heapCalls f room).exec heap (List.replicate (heap.size + 1) .minPop) =
      .ok (heap', l.map some ++ [none]) ∧
    l.Nodup ∧ (∀ x, x ∈ l ↔ HeapMember t x) ∧ l.Pairwise fun x y => f heap.head x y ≤ 0
  answers : ∀ e, (heapCalls f room).guard heap e → ∃ r, (heapCalls f room).step heap e = .ok r

end

/-! ## One call -/

namespace Heap

variable {heap heap' : Heap ι} {x : ι} {f : HeapCompare ι} {room : Nat} {e : HeapCall ι}
  [DecidableEq ι]

theorem minPop_empty (h0 : heap.size = 0) : heapMinPop f heap = .ok (heap, none) := by
  rw [heapMinPop, heapMin, if_pos h0]

theorem Sound.minPop (hs : heap.Sound f) (hf : TotalCompare f) (hsmall : heap.size < 2 ^ 31)
    (hpos : 0 < heap.size) : ∃ x heap', heapMin heap = some x ∧ heap.Mem x ∧
      heapMinPop f heap = .ok (heap', some x) ∧ heap'.Sound f ∧ heap'.size = heap.size - 1 ∧
      heap'.capacity = heap.capacity ∧ (∀ y, heap'.Mem y ↔ y ≠ x ∧ heap.Mem y) ∧
      ∀ y, (heap'.head y).key = (heap.head y).key := by
  obtain ⟨x, hmin, hx⟩ := hs.placed.min hpos
  obtain ⟨heap', hrun, hs', hsize, hcap, hmem, hkeys⟩ := hs.delete hf hx hsmall
  refine ⟨x, heap', hmin, hx, ?_, hs', hsize, hcap, hmem, hkeys⟩
  simp only [heapMinPop, hmin, hrun, ok_bind, pure_eq_ok]

/-- A call keeps the heap in order and moves the item it names in or out. -/
theorem step_sound (hs : heap.Sound f) (hf : KeyCompare f) (hsmall : heap.size < 2 ^ 31)
    (hg : heap.Allows room e) : ∃ heap' w, heapStep f heap e = .ok (heap', w) ∧
      heap'.Sound f ∧ heap'.capacity = heap.capacity ∧
      heap'.size ≤ max heap.size (min heap.capacity room) ∧
      ∀ x, heap'.Mem x ↔ HeapInserts x (e, w) ∨ ¬HeapRemoves x (e, w) ∧ heap.Mem x := by
  cases e with
  | insert h key =>
    obtain ⟨hh, hcap, hroom⟩ := hg
    obtain ⟨heap', hrun, hs', hsize, hcap', hmem⟩ := hs.insert hf hh hcap key
    refine ⟨heap', none, by simp only [heapStep, hrun, ok_bind, pure_eq_ok], hs', hcap',
      by omega, fun x => ?_⟩
    rw [hmem]
    simp [HeapInserts, HeapRemoves, eq_comm]
  | decreaseKey h key =>
    obtain ⟨hh, hk⟩ := hg
    obtain ⟨heap', hrun, hs', hsize, hcap', hmem⟩ := hs.decreaseKey hf hh hk
    refine ⟨heap', none, by simp only [heapStep, hrun, ok_bind, pure_eq_ok], hs', hcap',
      by omega, fun x => ?_⟩
    rw [hmem]
    simp [HeapInserts, HeapRemoves]
  | increaseKey h key =>
    obtain ⟨hh, hk⟩ := hg
    obtain ⟨heap', hrun, hs', hsize, hcap', hmem⟩ := hs.increaseKey hf hh hk hsmall
    rw [← (hs.placed.setKey h key).2.1 h] at hrun
    refine ⟨heap', none, by simp only [heapStep, hrun, ok_bind, pure_eq_ok], hs', hcap',
      by omega, fun x => ?_⟩
    rw [hmem]
    simp [HeapInserts, HeapRemoves]
  | delete h =>
    obtain ⟨heap', hrun, hs', hsize, hcap', hmem, _⟩ := hs.delete hf.total hg hsmall
    refine ⟨heap', none, by simp only [heapStep, hrun, ok_bind, pure_eq_ok], hs', hcap',
      by omega, fun x => ?_⟩
    rw [hmem]
    simp [HeapInserts, HeapRemoves, eq_comm]
  | minPop =>
    by_cases h0 : heap.size = 0
    · refine ⟨heap, none, minPop_empty h0, hs, rfl, by omega, fun x => ?_⟩
      simp [HeapInserts, HeapRemoves]
    · obtain ⟨y, heap', _, _, hrun, hs', hsize, hcap', hmem, _⟩ :=
        hs.minPop hf.total hsmall (Nat.pos_of_ne_zero h0)
      refine ⟨heap', some y, hrun, hs', hcap', by omega, fun x => ?_⟩
      rw [hmem]
      simp [HeapInserts, HeapRemoves, eq_comm]

/-- Popping until the heap is empty lists the members in order. -/
theorem Sound.popAll (hs : heap.Sound f) (hf : TotalCompare f) (hsmall : heap.size < 2 ^ 31)
    (room : Nat) :
    ∃ (heap' : Heap ι) (l : List ι),
      (heapCalls f room).exec heap (List.replicate (heap.size + 1) .minPop) =
        .ok (heap', l.map some ++ [none]) ∧
      l.Nodup ∧ (∀ x, x ∈ l ↔ heap.Mem x) ∧ l.Pairwise fun x y => f heap.head x y ≤ 0 := by
  generalize hn : heap.size = n
  induction n generalizing heap with
  | zero =>
    have hstep : (heapCalls f room).step heap .minPop = .ok (heap, none) := minPop_empty hn
    refine ⟨heap, [], ?_, List.nodup_nil, fun x => ?_, List.Pairwise.nil⟩
    · simp [System.exec, hstep, Except.map]
    · refine iff_of_false List.not_mem_nil fun hx => ?_
      have := hx.1
      omega
  | succ n ih =>
    obtain ⟨x, heap1, hmin, hx, hrun, hs1, hsize, _, hmem, hkeys⟩ := hs.minPop hf hsmall (by omega)
    obtain ⟨heap', l, hexec, hnodup, hl, hpair⟩ := ih hs1 (by omega) (by omega)
    have hstep : (heapCalls f room).step heap .minPop = .ok (heap1, some x) := hrun
    refine ⟨heap', x :: l, ?_, ?_, fun y => ?_, ?_⟩
    · rw [List.replicate_succ]
      simp [System.exec, hstep, hexec, Except.map]
    · exact List.nodup_cons.mpr ⟨fun hxl => ((hmem x).mp ((hl x).mp hxl)).1 rfl, hnodup⟩
    · rw [List.mem_cons, hl, hmem]
      by_cases hy : y = x
      · subst hy
        simp [hx]
      · simp [hy]
    · refine List.pairwise_cons.mpr ⟨fun y hy => ?_, hpair.imp fun hle => ?_⟩
      · exact hs.min hf hmin ((hmem y).mp ((hl y).mp hy)).2
      · rw [← hf.reads (hkeys _) (hkeys _)]
        exact hle

end Heap

/-! ## A run -/

/-- The heap after the calls `t`, with room for `n` items at most. -/
structure HeapTracks (f : HeapCompare ι) (n capacity : Nat) (t : List (HeapCall ι × Option ι))
    (heap : Heap ι) : Prop where
  sound : heap.Sound f
  capacity : heap.capacity = capacity
  size : heap.size ≤ n
  mem : ∀ x, heap.Mem x ↔ HeapMember t x

variable [DecidableEq ι] {heap : Heap ι} {f : HeapCompare ι} {room n capacity : Nat}
  {t : List (HeapCall ι × Option ι)}

omit [DecidableEq ι] in
theorem HeapTracks.init (heap0 : Heap ι) (f : HeapCompare ι) (n capacity : Nat) :
    HeapTracks f n capacity [] (heapInit heap0 capacity) := by
  refine ⟨⟨fun i hi => ?_, fun i a b _ hi => ?_⟩, rfl, Nat.zero_le _, fun x => ?_⟩
  · exact absurd hi (Nat.not_lt_zero i)
  · exact absurd hi (Nat.not_lt_zero i)
  · refine iff_of_false (fun hx => Nat.not_lt_zero _ hx.1) fun hm => ?_
    obtain ⟨_, _, _, heq, _⟩ := hm
    simp at heq

theorem HeapTracks.of_run (hf : KeyCompare f) (hsmall : min capacity room < 2 ^ 31)
    {heap0 : Heap ι} (h : (heapCalls f room).Run (heapInit heap0 capacity) t heap) :
    HeapTracks f (min capacity room) capacity t heap := by
  refine h.history (J := fun t heap => HeapTracks f (min capacity room) capacity t heap)
    (.init heap0 f _ capacity) fun {t a e b w} ha hg hstep => ?_
  have hsize := ha.size
  obtain ⟨b', w', hrun, hs, hcap, hb, hmem⟩ := Heap.step_sound ha.sound hf (by omega) hg
  obtain ⟨rfl, rfl⟩ := Prod.mk.inj (Except.ok.inj (hrun.symm.trans hstep))
  have hcap' := ha.capacity
  refine ⟨hs, hcap.trans hcap', by omega, fun x => ?_⟩
  rw [hmem, ha.mem]
  exact since_snoc.symm

/-- What a heap that is in order and tracks its members answers. -/
theorem HeapTracks.correct (h : HeapTracks f n capacity t heap) (hf : KeyCompare f)
    (hsmall : n < 2 ^ 31) : HeapCorrect f room t heap := by
  have hsize := h.size
  constructor
  · exact h.sound.order
  · intro x hx
    exact ((h.mem x).mpr hx).2
  · intro x
    rw [← h.mem]
    constructor
    · rintro ⟨i, hi, hx⟩
      exact (h.sound.placed.mem hi hx).1
    · intro hx
      exact ⟨_, hx.1, hx.2⟩
  · intro x
    rw [Heap.inHeap_iff, h.mem]
  · constructor
    · intro hmin x hx
      obtain ⟨y, hy, _⟩ := h.sound.placed.min (Nat.zero_lt_of_lt ((h.mem x).mpr hx).1)
      rw [hmin] at hy
      cases hy
    · intro hno
      rw [heapMin, if_pos]
      by_contra hne
      obtain ⟨y, _, hy⟩ := h.sound.placed.min (Nat.pos_of_ne_zero hne)
      exact hno y ((h.mem y).mp hy)
  · intro x hmin
    have hpos : 0 < heap.size := by
      by_contra h0
      rw [heapMin, if_pos (by omega)] at hmin
      cases hmin
    obtain ⟨y, hy, hym⟩ := h.sound.placed.min hpos
    obtain rfl := Option.some.inj (hy.symm.trans hmin)
    exact ⟨(h.mem y).mp hym, fun z hz => h.sound.min hf.total hmin ((h.mem z).mpr hz)⟩
  · obtain ⟨heap', l, hexec, hnodup, hl, hpair⟩ :=
      h.sound.popAll hf.total (by omega) room
    exact ⟨heap', l, hexec, hnodup, fun x => (hl x).trans (h.mem x), hpair⟩
  · intro e hg
    obtain ⟨heap', w, hrun, _⟩ := Heap.step_sound h.sound hf (by omega) hg
    exact ⟨_, hrun⟩

end Fomo
