import Fomo.Include.Heap
import Fomo.Lib.HeapOrder
import Mathlib.Order.WithBot

/-!
# The order of the heap

When the comparison of a heap agrees with a rank of its items, every operation restores
the order: the item that moved is sifted one way only, and the root is the least member.
-/
namespace Fomo

open Lib (above above_lt HeapOrdered OrderedOff UpOrder DownOrder SiftOrder)

variable {ι β : Type}

/-- The rank of the item in the place `i`. -/
def Heap.rankAt (heap : Heap ι) (rank : ι → β) (i : Nat) : WithTop β :=
  (heap.heapArr i).elim ⊤ fun x => rank x

namespace Heap

variable {heap heap' : Heap ι} {a b h x : ι} {f : HeapCompare ι} {rank rank' : ι → β} {i : Nat}

theorem rankAt_some (hx : heap.heapArr i = some x) : heap.rankAt rank i = rank x := by
  simp [rankAt, hx]

theorem Mem.rankAt (hx : heap.Mem x) : heap.rankAt rank (heap.head x).index = rank x :=
  rankAt_some hx.2

/-- Only the ranks of the members matter. -/
theorem Placed.rankAt_congr (hp : heap.Placed) (hi : i < heap.size)
    (hr : ∀ x, heap.Mem x → rank' x = rank x) : heap.rankAt rank' i = heap.rankAt rank i := by
  obtain ⟨x, hx, _⟩ := hp i hi
  rw [rankAt_some hx, rankAt_some hx, hr x (hp.mem hi hx).1]

variable [LinearOrder β]

/-- No item ranks below its parent. -/
def Ordered (heap : Heap ι) (rank : ι → β) : Prop :=
  HeapOrdered heap.size (heap.rankAt rank)

/-- With the keys of the heap, the comparison is that of the ranks. -/
def Compares (heap : Heap ι) (f : HeapCompare ι) (rank : ι → β) : Prop :=
  ∀ head : ι → HeapHead, (∀ x, (head x).key = (heap.head x).key) →
    ∀ a b, f head a b < 0 ↔ rank a < rank b

theorem Placed.ordered_congr (hp : heap.Placed) (ho : heap.Ordered rank)
    (hr : ∀ x, heap.Mem x → rank' x = rank x) : heap.Ordered rank' :=
  HeapOrdered.congr ho fun _ hi => hp.rankAt_congr hi hr

/-- An ordered heap, pair by pair. -/
theorem Ordered.pair (ho : heap.Ordered rank) (hpos : 0 < i) (hi : i < heap.size)
    (ha : heap.heapArr ((i - 1) / 2) = some a) (hb : heap.heapArr i = some b) :
    rank a ≤ rank b := by
  have hle := ho i hpos hi
  rw [rankAt_some hb, rankAt_some (i := above i) ha] at hle
  exact WithTop.coe_le_coe.mp hle

/-- The root is the least member. -/
theorem Ordered.min (ho : heap.Ordered rank) (hm : heapMin heap = some a) (hx : heap.Mem x) :
    rank a ≤ rank x := by
  have hne : heap.size ≠ 0 := by
    have := hx.1
    omega
  rw [heapMin, if_neg hne] at hm
  have hle := HeapOrdered.root_le ho hx.1
  rw [hx.rankAt, rankAt_some hm] at hle
  exact WithTop.coe_le_coe.mp hle

/-- A member whose rank grew may have to go down. -/
theorem Placed.raise (hp : heap.Placed) (ho : heap.Ordered rank) (hh : heap.Mem h)
    (hle : rank h ≤ rank' h) (hr : ∀ x, x ≠ h → rank' x = rank x) :
    DownOrder heap.size (heap.head h).index (heap.rankAt rank') := by
  refine HeapOrdered.raise ho ?_ fun i hi hne => ?_
  · rw [hh.rankAt, hh.rankAt]
    exact WithTop.coe_le_coe.mpr hle
  · obtain ⟨x, hx, hxi⟩ := hp i hi
    rw [rankAt_some hx, rankAt_some hx, hr x]
    rintro rfl
    exact hne hxi.symm

theorem Compares.of_keys (hf : heap.Compares f rank)
    (hk : ∀ x, (heap'.head x).key = (heap.head x).key) : heap'.Compares f rank :=
  fun head hhead => hf head fun x => (hhead x).trans (hk x)

variable [DecidableEq ι]

omit [LinearOrder β] in
theorem rankAt_swap (ha : heap.Mem a) (hb : heap.Mem b) (i : Nat) :
    (heapSwap heap a b).rankAt rank i =
      heap.rankAt rank (Equiv.swap (heap.head a).index (heap.head b).index i) := by
  by_cases hab : a = b
  · subst hab
    rw [rankAt, swap_self ha, Equiv.swap_self]
    rfl
  · rw [rankAt, swap_arr heap hab]
    by_cases h1 : i = (heap.head a).index
    · subst h1
      rw [if_pos rfl, Equiv.swap_apply_left, hb.rankAt]
      rfl
    · by_cases h2 : i = (heap.head b).index
      · subst h2
        rw [if_neg h1, if_pos rfl, Equiv.swap_apply_right, ha.rankAt]
        rfl
      · rw [if_neg h1, if_neg h2, Equiv.swap_apply_of_ne_of_ne h1 h2]
        rfl

/-! ## The loops -/

omit [DecidableEq ι] in
theorem Placed.parent_index (hp : heap.Placed) (hh : heap.Mem h)
    (hpar : heapParent heap h = some a) :
    0 < (heap.head h).index ∧ (heap.head a).index = above (heap.head h).index := by
  unfold heapParent at hpar
  split at hpar
  · next hpos =>
    exact ⟨hpos, (hp.mem (Nat.lt_trans (above_lt hpos) hh.1) hpar).2⟩
  · cases hpar

/-- The loop of `heap_decrease_key` leaves no fault. -/
theorem Placed.moveUp_ordered {fuel : Nat} (hp : heap.Placed) (hh : heap.Mem h)
    (hf : heap.Compares f rank)
    (ho : UpOrder heap.size (heap.head h).index (heap.rankAt rank))
    (hrun : heapMoveUp f fuel heap h (heapParent heap h) = .ok heap') :
    heap'.Ordered rank := by
  induction fuel generalizing heap with
  | zero => cases hrun
  | succ fuel ih =>
    unfold heapMoveUp at hrun
    by_cases hpos : (heap.head h).index > 0
    · obtain ⟨p, hpar, hmem, hlt⟩ := hp.parent hh hpos
      have hidx := (hp.parent_index hh hpar).2
      rw [if_pos hpos, hpar, deref_some, ok_bind] at hrun
      by_cases hc : f heap.head h p < 0
      · rw [if_pos hc] at hrun
        have hless := (hf heap.head (fun _ => rfl) h p).mp hc
        have hsw := hp.swap hh hmem
        have hnew : ((heapSwap heap h p).head h).index = above (heap.head h).index :=
          (swap_index_left heap h p).trans hidx
        refine ih hsw.placed ((hsw.mem h).mpr hh) (hf.of_keys hsw.key) ?_ hrun
        rw [hsw.size, hnew]
        have hmove := ho.swap hpos hh.1 (by
          rw [← hidx, hh.rankAt, hmem.rankAt]
          exact WithTop.coe_le_coe.mpr hless.le)
        simp only [← hidx, ← rankAt_swap hh hmem] at hmove
        rw [hidx] at hmove
        exact hmove
      · rw [if_neg hc] at hrun
        obtain rfl := Except.ok.inj hrun
        refine ho.finish fun _ => ?_
        rw [← hidx, hh.rankAt, hmem.rankAt]
        exact WithTop.coe_le_coe.mpr (not_lt.mp fun hlt => hc ((hf _ (fun _ => rfl) h p).mpr hlt))
    · rw [if_neg hpos] at hrun
      obtain rfl := Except.ok.inj hrun
      exact ho.finish fun h0 => absurd h0 hpos

omit [DecidableEq ι] in
/-- A comparison of `heapify` picks an item that ranks no higher than both. -/
theorem least_le (hf : heap.Compares f rank) (x : ι) (child : Option ι) :
    rank (heapLeast f heap x child) ≤ rank x ∧
      ∀ c, child = some c → rank (heapLeast f heap x child) ≤ rank c := by
  cases child with
  | none => exact ⟨le_rfl, fun c hc => by cases hc⟩
  | some c =>
    have hiff := hf heap.head (fun _ => rfl) c x
    unfold heapLeast
    dsimp only
    by_cases hc : f heap.head c x < 0
    · rw [if_pos hc]
      refine ⟨(hiff.mp hc).le, fun d hd => ?_⟩
      obtain rfl := Option.some.inj hd
      exact le_rfl
    · rw [if_neg hc]
      refine ⟨le_rfl, fun d hd => ?_⟩
      obtain rfl := Option.some.inj hd
      exact not_lt.mp fun hlt => hc (hiff.mpr hlt)

omit [DecidableEq ι] in
/-- Below `2^31` items the children of a member are the items below its place. -/
theorem Placed.child_iff (hp : heap.Placed) (hs : heap.size < 2 ^ 31) (ha : heap.Mem a) :
    heapLeft heap a = some x ∨ heapRight heap a = some x ↔
    heap.Mem x ∧ 0 < (heap.head x).index ∧ above (heap.head x).index = (heap.head a).index := by
  have hlt := ha.1
  have hat : ∀ j, (if j < heap.size then heap.heapArr j else none) = some x ↔
      heap.Mem x ∧ (heap.head x).index = j := by
    intro j
    constructor
    · exact hp.at_index
    · rintro ⟨hm, rfl⟩
      rw [if_pos hm.1]
      exact hm.2
  unfold heapLeft heapRight
  dsimp only
  rw [u32_of_lt (by omega), u32_of_lt (by omega), hat, hat, ← and_or_left]
  refine and_congr_right fun _ => ?_
  unfold above
  omega

/-- `heapify` leaves no fault below the places outside `S`, where `S` is above its start. -/
theorem Placed.moveDown_off {S : Nat → Prop} {fuel index : Nat} (hp : heap.Placed)
    (hsmall : heap.size < 2 ^ 31) (hf : heap.Compares f rank) (hS : ∀ i, S i → i < index)
    (ho : SiftOrder S heap.size index (heap.rankAt rank))
    (hrun : heapMoveDown f fuel heap index = .ok heap') :
    OrderedOff S heap'.size (heap'.rankAt rank) := by
  induction fuel generalizing heap index with
  | zero => cases hrun
  | succ fuel ih =>
    unfold heapMoveDown at hrun
    by_cases hi : index ≥ heap.size
    · rw [if_pos hi] at hrun
      obtain rfl := Except.ok.inj hrun
      refine ho.finish fun i hpos hlt habove => ?_
      have := above_lt hpos
      omega
    · obtain ⟨a, hx, rfl⟩ := hp index (by omega)
      have hmem := (hp.mem (by omega) hx).1
      rw [if_neg hi, hx, deref_some, ok_bind] at hrun
      dsimp only at hrun
      generalize hl : heapLeast f heap a (heapLeft heap a) = l at hrun
      generalize hr : heapLeast f heap l (heapRight heap a) = c at hrun
      have hleft := least_le hf a (heapLeft heap a)
      have hright := least_le hf l (heapRight heap a)
      rw [hl] at hleft
      rw [hr] at hright
      -- the item picked ranks no higher than the children
      have hmin : ∀ i, 0 < i → i < heap.size → above i = (heap.head a).index →
          (rank c : WithTop β) ≤ heap.rankAt rank i := by
        intro i hpos hlt habove
        obtain ⟨x, hxi, rfl⟩ := hp i hlt
        rw [rankAt_some hxi]
        apply WithTop.coe_le_coe.mpr
        rcases (hp.child_iff hsmall hmem).mpr ⟨(hp.mem hlt hxi).1, hpos, habove⟩ with h1 | h1
        · exact hright.1.trans (hleft.2 x h1)
        · exact hright.2 x h1
      by_cases hc : c ≠ a
      · rw [if_pos hc] at hrun
        obtain ⟨hcm, hpos, habove⟩ := (hp.child_iff hsmall hmem).mp (least_child hl hr hc)
        have hsw := hp.swap hmem hcm
        have hnew := swap_index_left heap a c
        have hdown := above_lt hpos
        rw [habove] at hdown
        refine ih hsw.placed (hsw.size ▸ hsmall) (hf.of_keys hsw.key) (fun i hi => ?_) ?_ hrun
        · rw [hnew]
          exact (hS i hi).trans hdown
        rw [hsw.size, hnew]
        have hmove := ho.swap hS hpos hcm.1 habove (by
          rw [hcm.rankAt, hmem.rankAt]
          exact WithTop.coe_le_coe.mpr (hright.1.trans hleft.1)) (by
          intro i h0 hlt hia
          rw [hcm.rankAt]
          exact hmin i h0 hlt hia)
        simp only [← rankAt_swap hmem hcm] at hmove
        exact hmove
      · rw [if_neg hc] at hrun
        obtain rfl := Except.ok.inj hrun
        obtain rfl : c = a := by simpa using hc
        refine ho.finish fun i hpos hlt habove => ?_
        rw [hmem.rankAt]
        exact hmin i hpos hlt habove

theorem Placed.moveDown_ordered {fuel index : Nat} (hp : heap.Placed)
    (hsmall : heap.size < 2 ^ 31) (hf : heap.Compares f rank)
    (ho : DownOrder heap.size index (heap.rankAt rank))
    (hrun : heapMoveDown f fuel heap index = .ok heap') : heap'.Ordered rank := by
  have hoff := hp.moveDown_off hsmall hf (fun _ h => h.elim) ho.sift hrun
  exact fun i hpos hi => hoff i hpos hi not_false

/-! ## The operations -/

theorem Placed.heapify_ordered {index : Nat} (hp : heap.Placed) (hsmall : heap.size < 2 ^ 31)
    (hf : heap.Compares f rank) (ho : DownOrder heap.size index (heap.rankAt rank))
    (hrun : Fomo.heapify f heap index = .ok heap') : heap'.Ordered rank :=
  hp.moveDown_ordered hsmall hf ho hrun

theorem setKey_self (heap : Heap ι) (h : ι) : heap.setKey h (heap.head h).key = heap := by
  simp [setKey]

/-- A new item that is not less than its parent stays in the last place. -/
theorem Placed.insert_stays (hp : heap.Placed) (hh : ¬heap.Mem h)
    (hroom : heap.size < heap.capacity) {key : Nat}
    (hstay : ∀ p, heapParent (heap.grow h key) h = some p → ¬f (heap.grow h key).head h p < 0) :
    heapInsert f heap h key = .ok (heap.grow h key) := by
  obtain ⟨hp1, hmem⟩ := hp.grow hh key
  have hkey : key ≤ ((heap.grow h key).head h).key := Nat.le_of_eq (by rw [grow_head])
  have hset := setKey_self (heap.grow h key) h
  rw [grow_head] at hset
  rw [heapInsert_grow hroom, heapDecreaseKey, logAssert_true hkey, ok_bind]
  dsimp only at hset ⊢
  rw [hset, heapMoveUp]
  by_cases hpos : ((heap.grow h key).head h).index > 0
  · obtain ⟨p, hpar, _⟩ := hp1.parent ((hmem h).mpr (Or.inl rfl)) hpos
    rw [if_pos hpos, hpar, deref_some, ok_bind, if_neg (hstay p hpar)]
    rfl
  · rw [if_neg hpos]
    rfl

theorem Placed.decreaseKey_ordered (hp : heap.Placed) (hh : heap.Mem h)
    (hf : heap.Compares f rank)
    (ho : UpOrder heap.size (heap.head h).index (heap.rankAt rank))
    (hrun : heapDecreaseKey f heap h (heap.head h).key = .ok heap') : heap'.Ordered rank := by
  simp only [heapDecreaseKey, logAssert_true (Nat.le_refl _), ok_bind, setKey_self] at hrun
  exact hp.moveUp_ordered hh hf ho hrun

/-- An item that comes in under its own key is sifted up. -/
theorem Placed.insert_ordered (hp : heap.Placed) (hh : ¬heap.Mem h)
    (hroom : heap.size < heap.capacity) (hf : heap.Compares f rank) (ho : heap.Ordered rank)
    (hrun : heapInsert f heap h (heap.head h).key = .ok heap') : heap'.Ordered rank := by
  rw [heapInsert_grow hroom] at hrun
  obtain ⟨hp1, hmem⟩ := hp.grow hh (heap.head h).key
  have hkeys : ∀ x, ((heap.grow h (heap.head h).key).head x).key = (heap.head x).key := by
    intro x
    by_cases hx : x = h
    · rw [hx, grow_head]
    · rw [heap.grow_head_of_ne _ hx]
  have hup : UpOrder (heap.size + 1) heap.size ((heap.grow h (heap.head h).key).rankAt rank) := by
    refine HeapOrdered.extend ho fun i hi => ?_
    rw [rankAt, rankAt, heap.grow_arr_of_lt h _ hi]
  refine hp1.decreaseKey_ordered ((hmem h).mpr (Or.inl rfl)) (hf.of_keys hkeys) ?_ ?_
  · rw [grow_head]
    exact hup
  · rw [hkeys]
    exact hrun

/-- The last item takes the place of the member that leaves, and is sifted one way. -/
theorem Placed.delete_ordered (hp : heap.Placed) (hh : heap.Mem h)
    (hsmall : heap.size ≤ 2 ^ 31) (hf : heap.Compares f rank) (ho : heap.Ordered rank)
    (hrun : heapDelete f heap h = .ok heap') : heap'.Ordered rank := by
  obtain ⟨last, hlm, hli, hrun0⟩ := hp.heapDelete_shrink (f := f) hh
  obtain ⟨hp1, hmem1, hkey1⟩ := hp.shrink hh hlm hli
  have hf1 := hf.of_keys hkey1
  have hlt : (heap.shrink h last).size < 2 ^ 31 := by
    have hpos := hh.1
    show heap.size - 1 < 2 ^ 31
    omega
  have hiff := hf1 (heap.shrink h last).head (fun _ => rfl) last h
  have hidx : ((heap.shrink h last).head last).index = (heap.head h).index := by
    show ((heapSwap heap h last).head last).index = _
    exact swap_index_right heap h last
  -- every other place keeps its item
  have hrest : ∀ i, i < heap.size - 1 → i ≠ (heap.head h).index →
      (heap.shrink h last).rankAt rank i = heap.rankAt rank i := by
    intro i hi hne
    have hswap : (heap.shrink h last).rankAt rank i = (heapSwap heap h last).rankAt rank i := by
      rw [rankAt, rankAt, heap.shrink_arr_of_lt h last hi]
    rw [hswap, rankAt_swap hh hlm, Equiv.swap_apply_of_ne_of_ne hne (by omega)]
  have hsmall : HeapOrdered (heap.size - 1) (heap.rankAt rank) :=
    HeapOrdered.mono ho (Nat.sub_le _ _)
  rw [hrun0] at hrun
  by_cases hlast : last = h
  · -- the item that leaves is the last one: nothing moves
    subst hlast
    rw [if_neg fun hc => lt_irrefl _ (hiff.mp hc)] at hrun
    have ho1 : HeapOrdered (heap.size - 1) ((heap.shrink last last).rankAt rank) :=
      hsmall.congr fun i hi => hrest i hi (by omega)
    exact hp1.heapify_ordered hlt hf1 (ho1.raise le_rfl fun _ _ _ => rfl) hrun
  · have hmem : (heap.shrink h last).Mem last := (hmem1 last).mpr ⟨hlast, hlm⟩
    have hplace : (heap.shrink h last).rankAt rank (heap.head h).index = rank last := by
      rw [← hidx]
      exact hmem.rankAt
    by_cases hc : f (heap.shrink h last).head last h < 0
    · rw [if_pos hc] at hrun
      refine hp1.decreaseKey_ordered hmem hf1 ?_ hrun
      rw [hidx]
      refine hsmall.lower ?_ hrest
      rw [hplace, hh.rankAt]
      exact WithTop.coe_le_coe.mpr (hiff.mp hc).le
    · rw [if_neg hc] at hrun
      refine hp1.heapify_ordered hlt hf1 ?_ hrun
      rw [hidx]
      refine hsmall.raise ?_ hrest
      rw [hplace, hh.rankAt]
      exact WithTop.coe_le_coe.mpr (not_lt.mp fun hl => hc (hiff.mpr hl))

end Heap

end Fomo
