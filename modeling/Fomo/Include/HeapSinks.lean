import Fomo.Include.HeapOrder

/-!
# Items that sink

With `2^31` items the right child of the last place is the root. `heapify` there may take an
item to the root and down again: it goes on for good if the item is above all others, and
leaves the old root below a greater item if it comes to rest elsewhere.
-/
namespace Fomo

namespace Heap

variable {ι β : Type} {heap : Heap ι} {a b c l r x : ι} {f : HeapCompare ι} {rank : ι → β}
  {i : Nat}

/-! ## The children of a place -/

theorem left_of_lt (hi : (heap.head x).index = i) (hlt : 2 * i + 1 < heap.size)
    (hsize : heap.size = 2 ^ 31) : heapLeft heap x = heap.heapArr (2 * i + 1) := by
  rw [heapLeft, hi, u32_of_lt (by omega)]
  exact if_pos hlt

theorem right_of_lt (hi : (heap.head x).index = i) (hlt : 2 * i + 2 < heap.size)
    (hsize : heap.size = 2 ^ 31) : heapRight heap x = heap.heapArr (2 * i + 2) := by
  rw [heapRight, hi, u32_of_lt (by omega)]
  exact if_pos hlt

theorem left_of_leaf (hx : heap.Mem x) (hi : (heap.head x).index = i) (hle : 2 ^ 30 ≤ i)
    (hsize : heap.size = 2 ^ 31) : heapLeft heap x = none := by
  have hlt := hx.1
  rw [heapLeft, hi, u32_of_lt (by omega)]
  exact if_neg (by omega)

theorem right_of_leaf (hi : (heap.head x).index = i) (hle : 2 ^ 30 ≤ i + 1)
    (hlt : i < 2 ^ 31 - 1) (hsize : heap.size = 2 ^ 31) : heapRight heap x = none := by
  rw [heapRight, hi, u32_of_lt (by omega)]
  exact if_neg (by omega)

/-- The index of the right child of the last place wraps. -/
theorem right_of_last (hi : (heap.head x).index = 2 ^ 31 - 1) (hsize : heap.size = 2 ^ 31) :
    heapRight heap x = heap.heapArr 0 := by
  have hwrap : u32 (2 * (2 ^ 31 - 1) + 2) = 0 := by
    unfold u32
    omega
  rw [heapRight, hi, hwrap]
  exact if_pos (by omega)

/-! ## One call of `heapify` -/

/-- The item that `heapify` puts in the place of `x`. -/
def picked (f : HeapCompare ι) (heap : Heap ι) (x : ι) : ι :=
  heapLeast f heap (heapLeast f heap x (heapLeft heap x)) (heapRight heap x)

variable [DecidableEq ι]

theorem Mem.moveDown_swap (hx : heap.Mem x) (hc : picked f heap x = c) (hne : c ≠ x)
    (fuel : Nat) : heapMoveDown f (fuel + 1) heap (heap.head x).index =
      heapMoveDown f fuel (heapSwap heap x c) ((heapSwap heap x c).head x).index := by
  subst hc
  rw [heapMoveDown, if_neg (Nat.not_le.mpr hx.1), hx.2, deref_some, ok_bind]
  exact if_pos hne

/-- One turn of `heapify` puts `c` in the place of `x` and goes on from where `c` was. -/
structure Sinks (f : HeapCompare ι) (heap heap' : Heap ι) (x c : ι) : Prop
    extends heap.Rearranges heap' where
  index : (heap'.head x).index = (heap.head c).index
  arr : ∀ i, heap'.heapArr i = if i = (heap.head x).index then some c
    else if i = (heap.head c).index then some x else heap.heapArr i
  moveDown : ∀ fuel, heapMoveDown f (fuel + 1) heap (heap.head x).index =
    heapMoveDown f fuel heap' (heap'.head x).index

theorem Placed.sinks (hp : heap.Placed) (hx : heap.Mem x) (hc : heap.Mem c)
    (hpick : picked f heap x = c) (hne : c ≠ x) : ∃ heap', heap.Sinks f heap' x c :=
  ⟨_, hp.swap hx hc, swap_index_left heap x c, swap_arr heap (Ne.symm hne),
    hx.moveDown_swap hpick hne⟩

/-- Elsewhere the places keep their items. -/
theorem Sinks.arr_of_ne {heap' : Heap ι} (h : heap.Sinks f heap' x c)
    (hx : i ≠ (heap.head x).index) (hc : i ≠ (heap.head c).index) :
    heap'.heapArr i = heap.heapArr i := by
  rw [h.arr, if_neg hx, if_neg hc]

theorem Sinks.rankAt_of_ne {heap' : Heap ι} (h : heap.Sinks f heap' x c)
    (hx : i ≠ (heap.head x).index) (hc : i ≠ (heap.head c).index) :
    heap'.rankAt rank i = heap.rankAt rank i := by
  rw [rankAt, h.arr_of_ne hx hc, rankAt]

theorem Mem.moveDown_stay (hx : heap.Mem x) (hc : picked f heap x = x) (fuel : Nat) :
    heapMoveDown f (fuel + 1) heap (heap.head x).index = .ok heap := by
  rw [heapMoveDown, if_neg (Nat.not_le.mpr hx.1), hx.2, deref_some, ok_bind]
  show (if picked f heap x ≠ x then _ else _) = _
  rw [hc, if_neg fun h => h rfl]
  rfl

section

variable [LinearOrder β]

omit [DecidableEq ι] in
theorem least_of_lt (hf : heap.Compares f rank) (hlt : rank c < rank x) :
    heapLeast f heap x (some c) = c := if_pos ((hf heap.head (fun _ => rfl) c x).mpr hlt)

omit [DecidableEq ι] in
theorem least_of_le (hf : heap.Compares f rank) {child : Option ι}
    (hle : ∀ c, child = some c → rank x ≤ rank c) : heapLeast f heap x child = x := by
  cases child with
  | none => rfl
  | some c => exact if_neg fun h => ((hf heap.head (fun _ => rfl) c x).mp h).not_ge (hle c rfl)

omit [DecidableEq ι] in
theorem picked_left (hf : heap.Compares f rank) (hl : heapLeft heap x = some l)
    (hlt : rank l < rank x) (hr : ∀ r, heapRight heap x = some r → rank l ≤ rank r) :
    picked f heap x = l := by
  rw [picked, hl, least_of_lt hf hlt, least_of_le hf hr]

omit [DecidableEq ι] in
theorem picked_right (hf : heap.Compares f rank) (hr : heapRight heap x = some r)
    (hlt : rank r < rank x) (hl : ∀ l, heapLeft heap x = some l → rank r < rank l) :
    picked f heap x = r := by
  rw [picked, hr]
  rcases least_cases (f := f) heap x (heapLeft heap x) with heq | hsome
  · rw [heq, least_of_lt hf hlt]
  · exact least_of_lt hf (hl _ hsome)

/-! ## The way down -/

/-- An item above all others goes down on the left to the last place, from there to the root,
and never comes to rest. -/
theorem Placed.sinks_forever (low : β) {k : Nat} (hp : heap.Placed) (hf : heap.Compares f rank)
    (hsize : heap.size = 2 ^ 31) (hx : heap.Mem x) (hk : k ≤ 31)
    (hi : (heap.head x).index = 2 ^ k - 1) (hlow : ∀ y, heap.Mem y → y ≠ x → rank y = low)
    (hlt : low < rank x) (fuel : Nat) :
    heapMoveDown f fuel heap (heap.head x).index = .error .outOfFuel := by
  induction fuel generalizing heap k with
  | zero => rfl
  | succ fuel ih =>
    -- whichever child is picked, the rest is as before
    have hnext : ∀ {c j}, heap.Mem c → picked f heap x = c → c ≠ x → j ≤ 31 →
        (heap.head c).index = 2 ^ j - 1 →
        heapMoveDown f (fuel + 1) heap (heap.head x).index = .error .outOfFuel := by
      intro c j hc hpick hne hj hci
      obtain ⟨heap1, hs⟩ := hp.sinks hx hc hpick hne
      rw [hs.moveDown]
      exact ih hs.placed (hf.of_keys hs.key) (hs.size.trans hsize) ((hs.mem x).mpr hx) hj
        (hs.index.trans hci) fun y hy => hlow y ((hs.mem y).mp hy)
    rcases Nat.lt_or_eq_of_le hk with hk | rfl
    · have hpow : 2 ^ (k + 1) = 2 * 2 ^ k := Nat.pow_succ'
      have hpos : 0 < 2 ^ k := Nat.two_pow_pos k
      have hle : 2 ^ (k + 1) ≤ 2 ^ 31 := Nat.pow_le_pow_right (by omega) hk
      have hchild : 2 * (2 ^ k - 1) + 1 < heap.size := by omega
      obtain ⟨l, hl, hli⟩ := hp _ hchild
      have hlm := (hp.mem hchild hl).1
      have hne : l ≠ x := by
        rintro rfl
        omega
      have hleft := (left_of_lt hi hchild hsize).trans hl
      refine hnext hlm (picked_left hf hleft ?_ fun r hr => ?_) hne hk (by omega)
      · rw [hlow l hlm hne]
        exact hlt
      · have hrm := hp.child_mem (Or.inr hr)
        rw [hlow l hlm hne]
        by_cases hrx : r = x
        · rw [hrx]
          exact hlt.le
        · exact (hlow r hrm hrx).ge
    · obtain ⟨r, hr, hri⟩ := hp 0 (by omega)
      have hrm := (hp.mem (by omega) hr).1
      have hne : r ≠ x := by
        rintro rfl
        omega
      have hright := (right_of_last hi hsize).trans hr
      refine hnext (j := 0) hrm (picked_right hf hright ?_ fun l hl => ?_) hne (by omega) hri
      · rw [hlow r hrm hne]
        exact hlt
      · rw [left_of_leaf hx hi (by omega) hsize] at hl
        cases hl

/-- From the right half, with equal items below, an item comes to rest on the left there. -/
theorem Placed.sinks_left {low : β} {k n : Nat} (hp : heap.Placed) (hf : heap.Compares f rank)
    (hsize : heap.size = 2 ^ 31) (hx : heap.Mem x) (hk : k + n = 29)
    (hi : (heap.head x).index = 3 * 2 ^ k - 1)
    (hlow : ∀ j, 3 * 2 ^ k - 1 < j → j < 2 ^ 31 - 1 → heap.rankAt rank j = low)
    (hlt : low < rank x) (fuel : Nat) (hfuel : n < fuel) : ∃ heap',
      heapMoveDown f fuel heap (heap.head x).index = .ok heap' ∧
      ∀ j, j < 3 * 2 ^ k - 1 ∨ 3 * 2 ^ 29 ≤ j → heap'.heapArr j = heap.heapArr j := by
  induction n generalizing heap k fuel with
  | zero =>
    obtain ⟨fuel, rfl⟩ := Nat.exists_eq_succ_of_ne_zero (by omega : fuel ≠ 0)
    obtain rfl : k = 29 := by omega
    refine ⟨heap, hx.moveDown_stay ?_ fuel, fun _ _ => rfl⟩
    rw [picked, left_of_leaf hx hi (by omega) hsize, right_of_leaf hi (by omega) (by omega) hsize]
    rfl
  | succ n ih =>
    obtain ⟨fuel, rfl⟩ := Nat.exists_eq_succ_of_ne_zero (by omega : fuel ≠ 0)
    have hpow : 2 ^ (k + 1) = 2 * 2 ^ k := Nat.pow_succ'
    have hpos : 0 < 2 ^ k := Nat.two_pow_pos k
    have hle : 2 ^ (k + 1) ≤ 2 ^ 29 := Nat.pow_le_pow_right (by omega) (by omega)
    have hchild : 2 * (3 * 2 ^ k - 1) + 1 < heap.size := by omega
    obtain ⟨l, hl, hli⟩ := hp _ hchild
    have hlm := (hp.mem hchild hl).1
    have hne : l ≠ x := by
      rintro rfl
      omega
    have hrank : rank l = low := by
      have h := hlow (2 * (3 * 2 ^ k - 1) + 1) (by omega) (by omega)
      rw [rankAt_some hl] at h
      exact WithTop.coe_injective h
    have hpick : picked f heap x = l := by
      refine picked_left hf ((left_of_lt hi hchild hsize).trans hl) (hrank ▸ hlt) fun r hr => ?_
      rw [right_of_lt hi (by omega) hsize] at hr
      have h := hlow (2 * (3 * 2 ^ k - 1) + 2) (by omega) (by omega)
      rw [rankAt_some hr] at h
      rw [hrank]
      exact (WithTop.coe_injective h).ge
    obtain ⟨heap1, hs⟩ := hp.sinks hx hlm hpick hne
    have hx1 := hs.index
    obtain ⟨heap', hrun, hkeep⟩ := ih (k := k + 1) hs.placed (hf.of_keys hs.key)
      (hs.size.trans hsize) ((hs.mem x).mpr hx) (by omega) (by omega)
      (fun j hj hj' => (hs.rankAt_of_ne (by omega) (by omega)).trans (hlow j (by omega) hj'))
      fuel (by omega)
    refine ⟨heap', (hs.moveDown fuel).trans hrun, fun j hj => ?_⟩
    rw [hkeep j (by omega), hs.arr_of_ne (by omega) (by omega)]

/-- The item in the last place goes to the root and down on the right; the old root stays in the
last place, though it is less than the new one. -/
theorem Placed.sinks_right {low : β} (hp : heap.Placed) (hf : heap.Compares f rank)
    (hsize : heap.size = 2 ^ 31) (hx : heap.heapArr (2 ^ 31 - 1) = some x)
    (ha : heap.heapArr 0 = some a) (hb : heap.heapArr 1 = some b) (hc : heap.heapArr 2 = some c)
    (hax : rank a < rank x) (hcb : rank c < rank b) (hbx : rank b < rank x)
    (hlow : ∀ j, 2 < j → j < 2 ^ 31 - 1 → heap.rankAt rank j = low) (hlt : low < rank x) :
    ∃ heap', Fomo.heapify f heap (2 ^ 31 - 1) = .ok heap' ∧ heap'.heapArr 0 = some c ∧
      heap'.heapArr (2 ^ 31 - 1) = some a := by
  obtain ⟨hxm, hxi⟩ := hp.mem (by omega) hx
  obtain ⟨ham, hai⟩ := hp.mem (by omega) ha
  obtain ⟨hbm, hbi⟩ := hp.mem (by omega) hb
  obtain ⟨hcm, hci⟩ := hp.mem (by omega) hc
  -- to the root
  have hne : a ≠ x := by
    rintro rfl
    omega
  have hpick : picked f heap x = a := by
    refine picked_right hf ((right_of_last hxi hsize).trans ha) hax fun l hl => ?_
    rw [left_of_leaf hxm hxi (by omega) hsize] at hl
    cases hl
  obtain ⟨heap1, hs⟩ := hp.sinks hxm ham hpick hne
  have hfuel : (2 : Nat) ^ 32 = (2 ^ 32 - 2) + 1 + 1 := by omega
  have hb1 := (hs.arr_of_ne (i := 1) (by omega) (by omega)).trans hb
  have hc1 := (hs.arr_of_ne (i := 2) (by omega) (by omega)).trans hc
  have ha1 : heap1.heapArr (2 ^ 31 - 1) = some a := by rw [hs.arr, if_pos hxi.symm]
  have hx1 := hs.index.trans hai
  have hsize1 := hs.size.trans hsize
  have hxm1 := (hs.mem x).mpr hxm
  have hf1 := hf.of_keys hs.key
  -- from the root to the right
  obtain ⟨hcm1, hci1⟩ := hs.placed.mem (by omega) hc1
  have hne1 : c ≠ x := by
    rintro rfl
    omega
  have hpick1 : picked f heap1 x = c := by
    refine picked_right hf1 ((right_of_lt hx1 (by omega) hsize1).trans hc1) (hcb.trans hbx)
      fun l hl => ?_
    rw [left_of_lt hx1 (by omega) hsize1, hb1] at hl
    exact Option.some.inj hl ▸ hcb
  obtain ⟨heap2, hs'⟩ := hs.placed.sinks hxm1 hcm1 hpick1 hne1
  have hx2 := hs'.index.trans hci1
  -- and on the left from there
  obtain ⟨heap', hrun, hkeep⟩ := hs'.placed.sinks_left (k := 0) (n := 29)
    (hf1.of_keys hs'.key) (hs'.size.trans hsize1) ((hs'.mem x).mpr hxm1) (by omega)
    (by omega) (fun j hj hj' => by
      rw [hs'.rankAt_of_ne (by omega) (by omega), hs.rankAt_of_ne (by omega) (by omega)]
      exact hlow j (by omega) hj') hlt (2 ^ 32 - 2) (by omega)
  refine ⟨heap', ?_, ?_, ?_⟩
  · rw [Fomo.heapify, hfuel, ← hxi, hs.moveDown, hs'.moveDown, hrun]
  · rw [hkeep 0 (by omega), hs'.arr, if_pos hx1.symm]
  · rw [hkeep _ (by omega), hs'.arr_of_ne (by omega) (by omega), ha1]

end

end Heap

end Fomo
