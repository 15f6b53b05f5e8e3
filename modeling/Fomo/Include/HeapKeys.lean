import Fomo.Include.HeapOrder

/-!
# Comparisons by key

What the heap asks of its comparison: a total preorder of the items and their keys, in which
a lower key makes no item greater. Every operation then restores the order of the heap. Those
that change no key do so for any total preorder.
-/
namespace Fomo

open Lib (above above_lt HeapOrdered UpOrder DownOrder)

variable {ι β : Type}

/-- A total preorder of the items and their keys: negative below, positive above. -/
structure TotalCompare (f : HeapCompare ι) : Prop where
  reads : ∀ {head head' : ι → HeapHead} {a b : ι}, (head' a).key = (head a).key →
    (head' b).key = (head b).key → f head' a b = f head a b
  sign : ∀ head a b, f head a b < 0 ↔ 0 < f head b a
  trans : ∀ {head a b c}, f head a b ≤ 0 → f head b c ≤ 0 → f head a c ≤ 0

/-- `heap_compare_f`: negative below, positive above. -/
structure KeyCompare (f : HeapCompare ι) : Prop where
  reads : ∀ {head head' : ι → HeapHead} {a b : ι}, (head' a).key = (head a).key →
    (head' b).key = (head b).key → f head' a b = f head a b
  sign : ∀ head a b, f head a b < 0 ↔ 0 < f head b a
  trans : ∀ {head a b c}, f head a b ≤ 0 → f head b c ≤ 0 → f head a c ≤ 0
  lower : ∀ {head head' : ι → HeapHead} {a b : ι}, a ≠ b → (head' a).key ≤ (head a).key →
    (head' b).key = (head b).key → (f head' a b).sign ≤ (f head a b).sign

/-- `heap_default_compare`. -/
def heapDefaultCompare : HeapCompare ι := fun head a b =>
  if (head a).key < (head b).key then -1
  else if (head a).key > (head b).key then 1
  else 0

theorem KeyCompare.total {f : HeapCompare ι} (hf : KeyCompare f) : TotalCompare f :=
  ⟨hf.reads, hf.sign, hf.trans⟩

namespace TotalCompare

variable {f : HeapCompare ι} {head : ι → HeapHead} {a b : ι}

theorem le_iff (hf : TotalCompare f) : f head a b ≤ 0 ↔ ¬f head b a < 0 := by
  rw [hf.sign head b a, not_lt]

/-- The comparison is that of ranks, as long as the keys stay. -/
theorem exists_rank (hf : TotalCompare f) (heap : Heap ι) :
    ∃ (β : Type) (_ : LinearOrder β) (rank : ι → β), heap.Compares f rank := by
  obtain ⟨β, order, rank, hrank⟩ := Lib.exists_rank (fun a b => f heap.head a b ≤ 0)
    (fun a b => by
      rw [hf.le_iff (a := b)]
      exact (lt_or_ge (f heap.head a b) 0).imp le_of_lt not_lt.mpr)
    fun _ _ _ => hf.trans
  refine ⟨β, order, rank, fun head hkeys a b => ?_⟩
  rw [hf.reads (hkeys a) (hkeys b), ← not_le (a := rank b), hrank, hf.le_iff, not_not]

/-- The other way round. -/
theorem swap (hf : TotalCompare f) : TotalCompare fun head a b => f head b a where
  reads := fun ha hb => hf.reads hb ha
  sign := fun head a b => hf.sign head b a
  trans := fun hab hbc => hf.trans hbc hab

end TotalCompare

/-- The order of two items outlasts a lower key of the first and a higher key of the second. -/
theorem KeyCompare.le_of_keys {f : HeapCompare ι} {head head' : ι → HeapHead} {a b : ι}
    (hf : KeyCompare f) (hne : a ≠ b) (ha : (head' a).key ≤ (head a).key)
    (hb : (head b).key ≤ (head' b).key) (hle : f head a b ≤ 0) : f head' a b ≤ 0 := by
  classical
  -- first the key of `a` alone
  let mid : ι → HeapHead := Function.update head a (head' a)
  have hma : mid a = head' a := Function.update_self ..
  have hmb : mid b = head b := Function.update_of_ne (Ne.symm hne) ..
  have hmid : f mid a b ≤ 0 := by
    have hlow : (f mid a b).sign ≤ (f head a b).sign :=
      hf.lower hne (by rw [hma]; exact ha) (by rw [hmb])
    exact Int.sign_nonpos_iff.mp (hlow.trans (Int.sign_nonpos_iff.mpr hle))
  by_contra hgt
  have hba : f head' b a < 0 := (hf.sign head' b a).mpr (not_le.mp hgt)
  have hlow : (f mid b a).sign ≤ (f head' b a).sign :=
    hf.lower (Ne.symm hne) (by rw [hmb]; exact hb) (by rw [hma])
  rw [Int.sign_eq_neg_one_of_neg hba] at hlow
  have hneg : f mid b a < 0 := Int.sign_neg_iff.mp (by omega)
  exact absurd hmid (not_le.mpr ((hf.sign mid b a).mp hneg))

theorem heapDefaultCompare_sign (head : ι → HeapHead) (a b : ι) :
    heapDefaultCompare head a b = (((head a).key : Int) - (head b).key).sign := by
  unfold heapDefaultCompare
  split
  · rw [Int.sign_eq_neg_one_of_neg (by omega)]
  · split
    · rw [Int.sign_eq_one_of_pos (by omega)]
    · rw [Int.sub_eq_zero_of_eq (by omega), Int.sign_zero]

/-- `heap_default_compare` on the keys as `g` reads them. -/
def keyCompareBy (g : Nat → Nat) : HeapCompare ι := fun head =>
  heapDefaultCompare fun x => { head x with key := g (head x).key }

theorem keyCompareBy_sign (g : Nat → Nat) (head : ι → HeapHead) (a b : ι) :
    keyCompareBy g head a b = ((g (head a).key : Int) - g (head b).key).sign :=
  heapDefaultCompare_sign _ a b

/-- Any monotone reading of the keys compares items as the heap asks. -/
theorem keyCompareBy_compares {g : Nat → Nat} (hg : Monotone g) :
    KeyCompare (keyCompareBy g : HeapCompare ι) := by
  constructor
  · intro head head' a b ha hb
    rw [keyCompareBy_sign, keyCompareBy_sign, ha, hb]
  · intro head a b
    rw [keyCompareBy_sign, keyCompareBy_sign, Int.sign_neg_iff, Int.sign_pos_iff]
    omega
  · intro head a b c
    rw [keyCompareBy_sign, keyCompareBy_sign, keyCompareBy_sign, Int.sign_nonpos_iff,
      Int.sign_nonpos_iff, Int.sign_nonpos_iff]
    omega
  · intro head head' a b _ ha hb
    have hle := hg ha
    rw [keyCompareBy_sign, keyCompareBy_sign, Int.sign_sign, Int.sign_sign, hb]
    rcases lt_trichotomy ((g (head a).key : Int) - g (head b).key) 0 with hlt | heq | hgt
    · rw [Int.sign_eq_neg_one_of_neg (by omega), Int.sign_eq_neg_one_of_neg hlt]
    · rw [heq, Int.sign_zero, Int.sign_nonpos_iff]
      omega
    · have htri := Int.sign_trichotomy ((g (head' a).key : Int) - g (head b).key)
      rw [Int.sign_eq_one_of_pos hgt]
      omega

theorem heapDefaultCompare_total : TotalCompare (heapDefaultCompare : HeapCompare ι) :=
  (keyCompareBy_compares (g := id) monotone_id).total

namespace Heap

variable {heap heap' : Heap ι} {a b h x : ι} {f : HeapCompare ι} {rank : ι → β} {i key : Nat}

/-- No item is less than its parent. -/
def InOrder (f : HeapCompare ι) (heap : Heap ι) : Prop :=
  ∀ i a b, 0 < i → i < heap.size → heap.heapArr ((i - 1) / 2) = some a →
    heap.heapArr i = some b → f heap.head a b ≤ 0

structure Sound (f : HeapCompare ι) (heap : Heap ι) : Prop where
  placed : heap.Placed
  order : heap.InOrder f

/-- An item and its parent. -/
theorem Sound.pair (hs : heap.Sound f) (hpos : 0 < i) (hi : i < heap.size) :
    ∃ a b, heap.heapArr (above i) = some a ∧ heap.heapArr i = some b ∧
      (heap.head a).index = above i ∧ (heap.head b).index = i ∧ a ≠ b ∧
      f heap.head a b ≤ 0 := by
  have hlt := above_lt hpos
  obtain ⟨a, ha, hai⟩ := hs.placed (above i) (by omega)
  obtain ⟨b, hb, hbi⟩ := hs.placed i hi
  refine ⟨a, b, ha, hb, hai, hbi, ?_, hs.order i a b hpos hi ha hb⟩
  rintro rfl
  omega

variable [LinearOrder β]

theorem Compares.le_iff (hc : heap.Compares f rank) (hf : TotalCompare f) :
    rank a ≤ rank b ↔ f heap.head a b ≤ 0 := by
  rw [hf.le_iff, hc heap.head (fun _ => rfl), not_lt]

theorem Placed.inOrder_iff (hp : heap.Placed) (hf : TotalCompare f) (hc : heap.Compares f rank) :
    heap.InOrder f ↔ heap.Ordered rank := by
  constructor
  · intro ho i hpos hi
    obtain ⟨a, b, ha, hb, _, _, _, hle⟩ := Sound.pair ⟨hp, ho⟩ hpos hi
    rw [rankAt_some ha, rankAt_some hb]
    exact WithTop.coe_le_coe.mpr ((hc.le_iff hf).mpr hle)
  · intro ho i a b hpos hi ha hb
    exact (hc.le_iff hf).mp (ho.pair hpos hi ha hb)

variable [DecidableEq ι]

/-! ## A key that changes -/

omit [LinearOrder β] in
theorem setKey_head_of_ne (hx : x ≠ h) : (heap.setKey h key).head x = heap.head x :=
  Function.update_of_ne hx ..

omit [LinearOrder β] in
theorem setKey_key (heap : Heap ι) (h : ι) (key : Nat) :
    ((heap.setKey h key).head h).key = key := by
  simp [setKey]

omit [LinearOrder β] in
theorem setKey_rankAt (hx : heap.heapArr i = some x) :
    (heap.setKey h key).rankAt rank i = rank x := rankAt_some hx

/-- Around the item with the new key the order is as it was. -/
theorem Sound.grand (hs : heap.Sound f) (hf : KeyCompare f) (hh : heap.Mem h)
    (hc : (heap.setKey h key).Compares f rank) (hpos : 0 < i) (hi : i < heap.size)
    (hh0 : 0 < (heap.head h).index) (hih : above i = (heap.head h).index) :
    (heap.setKey h key).rankAt rank (above (heap.head h).index) ≤
      (heap.setKey h key).rankAt rank i := by
  obtain ⟨a, b, ha, hb, hai, hbi, hab, hle⟩ := hs.pair hpos hi
  obtain ⟨p, h', hp, hh', hpi, hhi', hph, hle'⟩ := hs.pair hh0 hh.1
  obtain rfl : a = h := by
    rw [hih, hh.2] at ha
    exact (Option.some.inj ha).symm
  obtain rfl : h' = a := by
    rw [hh.2] at hh'
    exact (Option.some.inj hh').symm
  have hlt := above_lt hpos
  have hlt' := above_lt hh0
  have hpb : p ≠ b := by
    rintro rfl
    omega
  rw [setKey_rankAt hp, setKey_rankAt hb]
  refine WithTop.coe_le_coe.mpr ((hc.le_iff hf.total).mpr ?_)
  refine hf.le_of_keys hpb ?_ ?_ (hf.trans hle' hle)
  · rw [setKey_head_of_ne hph]
  · rw [setKey_head_of_ne (Ne.symm hab)]

/-- An item with a lower key may have to go up. -/
theorem Sound.lower (hs : heap.Sound f) (hf : KeyCompare f) (hh : heap.Mem h)
    (hc : (heap.setKey h key).Compares f rank) (hk : key ≤ (heap.head h).key) :
    UpOrder heap.size (heap.head h).index ((heap.setKey h key).rankAt rank) := by
  refine ⟨fun i hpos hi hne => ?_, fun i hpos hi hh0 hih => hs.grand hf hh hc hpos hi hh0 hih⟩
  obtain ⟨a, b, ha, hb, hai, hbi, hab, hle⟩ := hs.pair hpos hi
  have hbh : b ≠ h := by
    rintro rfl
    exact hne hbi.symm
  rw [setKey_rankAt ha, setKey_rankAt hb]
  refine WithTop.coe_le_coe.mpr ((hc.le_iff hf.total).mpr (hf.le_of_keys hab ?_ ?_ hle))
  · by_cases hah : a = h
    · subst hah
      rw [setKey_key]
      exact hk
    · rw [setKey_head_of_ne hah]
  · rw [setKey_head_of_ne hbh]

/-- An item with a higher key may have to go down. -/
theorem Sound.raise (hs : heap.Sound f) (hf : KeyCompare f) (hh : heap.Mem h)
    (hc : (heap.setKey h key).Compares f rank) (hk : (heap.head h).key ≤ key) :
    DownOrder heap.size (heap.head h).index ((heap.setKey h key).rankAt rank) := by
  refine ⟨fun i hpos hi hne => ?_, fun i hpos hi hh0 hih => hs.grand hf hh hc hpos hi hh0 hih⟩
  obtain ⟨a, b, ha, hb, hai, hbi, hab, hle⟩ := hs.pair hpos hi
  have hah : a ≠ h := by
    rintro rfl
    exact hne hai.symm
  rw [setKey_rankAt ha, setKey_rankAt hb]
  refine WithTop.coe_le_coe.mpr ((hc.le_iff hf.total).mpr (hf.le_of_keys hab ?_ ?_ hle))
  · rw [setKey_head_of_ne hah]
  · by_cases hbh : b = h
    · subst hbh
      rw [setKey_key]
      exact hk
    · rw [setKey_head_of_ne hbh]

/-- A new key for an item outside leaves the order alone. -/
theorem Sound.setKey (hs : heap.Sound f) (hf : KeyCompare f) (hh : ¬heap.Mem h) (key : Nat) :
    (heap.setKey h key).Sound f := by
  refine ⟨(hs.placed.setKey h key).1, fun i a b hpos hi ha hb => ?_⟩
  have hne : ∀ {j x}, j < heap.size → heap.heapArr j = some x → x ≠ h := by
    rintro j x hj hx rfl
    exact hh (hs.placed.mem hj hx).1
  have hsame : f (heap.setKey h key).head a b = f heap.head a b := by
    refine hf.reads ?_ ?_
    · rw [setKey_head_of_ne (hne (Nat.lt_trans (above_lt hpos) hi) ha)]
    · rw [setKey_head_of_ne (hne hi hb)]
  rw [hsame]
  exact hs.order i a b hpos hi ha hb

/-! ## The operations -/

omit [LinearOrder β] in
theorem heapInsert_setKey (hroom : heap.size < heap.capacity) (h : ι) (key : Nat) :
    heapInsert f (heap.setKey h key) h key = heapInsert f heap h key := by
  have hgrow : (heap.setKey h key).grow h key = heap.grow h key := by
    simp only [grow, setKey, Function.update_idem]
  have hroom' : (heap.setKey h key).size < (heap.setKey h key).capacity := hroom
  rw [heapInsert_grow hroom, heapInsert_grow hroom', hgrow]

/-- `heap_insert` of an item outside. -/
theorem Sound.insert (hs : heap.Sound f) (hf : KeyCompare f) (hh : ¬heap.Mem h)
    (hroom : heap.size < heap.capacity) (key : Nat) : ∃ heap',
      heapInsert f heap h key = .ok heap' ∧ heap'.Sound f ∧ heap'.size = heap.size + 1 ∧
      heap'.capacity = heap.capacity ∧ ∀ x, heap'.Mem x ↔ x = h ∨ heap.Mem x := by
  obtain ⟨heap', hrun, hp, hsize, hcap, hmem, hkeys⟩ := hs.placed.insert (f := f) hh hroom key
  have hs1 := hs.setKey hf hh key
  obtain ⟨β, _, rank, hc⟩ := hf.total.exists_rank (heap.setKey h key)
  have hh1 : ¬(heap.setKey h key).Mem h := fun hm => hh (((hs.placed.setKey h key).2.2 h).mp hm)
  have hrun1 : heapInsert f (heap.setKey h key) h ((heap.setKey h key).head h).key = .ok heap' := by
    rw [setKey_key, heapInsert_setKey hroom]
    exact hrun
  have ho := hs1.placed.insert_ordered hh1 hroom hc
    ((hs1.placed.inOrder_iff hf.total hc).mp hs1.order) hrun1
  have hc' : heap'.Compares f rank := by
    refine hc.of_keys fun x => ?_
    rw [hkeys]
    by_cases hx : x = h
    · rw [if_pos hx, hx, setKey_key]
    · rw [if_neg hx, setKey_head_of_ne hx]
  exact ⟨heap', hrun, ⟨hp, (hp.inOrder_iff hf.total hc').mpr ho⟩, hsize, hcap, hmem⟩

/-- `heap_decrease_key` on a member. -/
theorem Sound.decreaseKey (hs : heap.Sound f) (hf : KeyCompare f) (hh : heap.Mem h)
    (hk : key ≤ (heap.head h).key) : ∃ heap',
      heapDecreaseKey f heap h key = .ok heap' ∧ heap'.Sound f ∧ heap'.size = heap.size ∧
      heap'.capacity = heap.capacity ∧ ∀ x, heap'.Mem x ↔ heap.Mem x := by
  obtain ⟨hp1, hidx, hmem⟩ := hs.placed.setKey h key
  obtain ⟨β, _, rank, hc⟩ := hf.total.exists_rank (heap.setKey h key)
  obtain ⟨heap', hrun, hr⟩ := hp1.moveUp (f := f) ((hmem h).mpr hh) (Nat.lt_succ_self _)
  have ho := hs.lower hf hh hc hk
  rw [← hidx] at ho
  have ho' := hp1.moveUp_ordered ((hmem h).mpr hh) hc ho hrun
  rw [hidx] at hrun
  exact ⟨heap', (hs.placed.heapDecreaseKey_setKey hk).trans hrun,
    ⟨hr.placed, (hr.placed.inOrder_iff hf.total (hc.of_keys hr.key)).mpr ho'⟩, hr.size, hr.capacity,
    fun x => (hr.mem x).trans (hmem x)⟩

/-- A member whose key went up, and `heapify` at its index. -/
theorem Sound.increaseKey (hs : heap.Sound f) (hf : KeyCompare f) (hh : heap.Mem h)
    (hk : (heap.head h).key ≤ key) (hsmall : heap.size < 2 ^ 31) : ∃ heap',
      heapify f (heap.setKey h key) (heap.head h).index = .ok heap' ∧ heap'.Sound f ∧
      heap'.size = heap.size ∧ heap'.capacity = heap.capacity ∧
      ∀ x, heap'.Mem x ↔ heap.Mem x := by
  obtain ⟨hp1, hidx, hmem⟩ := hs.placed.setKey h key
  obtain ⟨β, _, rank, hc⟩ := hf.total.exists_rank (heap.setKey h key)
  obtain ⟨heap', hrun, hr⟩ :=
    (hp1.heapify (f := f) (heap.head h).index).resolve_left fun h => absurd hsmall h.2.not_gt
  have ho := hp1.heapify_ordered hsmall hc (hs.raise hf hh hc hk) hrun
  exact ⟨heap', hrun,
    ⟨hr.placed, (hr.placed.inOrder_iff hf.total (hc.of_keys hr.key)).mpr ho⟩, hr.size, hr.capacity,
    fun x => (hr.mem x).trans (hmem x)⟩

/-- `heap_delete` of a member. -/
theorem Sound.delete (hs : heap.Sound f) (hf : TotalCompare f) (hh : heap.Mem h)
    (hsmall : heap.size < 2 ^ 31) : ∃ heap',
      heapDelete f heap h = .ok heap' ∧ heap'.Sound f ∧ heap'.size = heap.size - 1 ∧
      heap'.capacity = heap.capacity ∧ (∀ x, heap'.Mem x ↔ x ≠ h ∧ heap.Mem x) ∧
      ∀ x, (heap'.head x).key = (heap.head x).key := by
  have hself : ∀ head x, ¬f head x x < 0 := by
    intro head x hlt
    exact absurd ((hf.sign head x x).mp hlt) (not_lt.mpr hlt.le)
  obtain ⟨heap', hrun, hp, hsize, hcap, hmem, hkeys⟩ :=
    (hs.placed.delete (f := f) hh hself).resolve_left fun h => absurd h.2 hsmall.not_gt
  obtain ⟨β, _, rank, hc⟩ := hf.exists_rank heap
  have ho := hs.placed.delete_ordered hh hsmall.le hc
    ((hs.placed.inOrder_iff hf hc).mp hs.order) hrun
  exact ⟨heap', hrun, ⟨hp, (hp.inOrder_iff hf (hc.of_keys hkeys)).mpr ho⟩, hsize, hcap, hmem,
    hkeys⟩

omit [DecidableEq ι] in
/-- `heap_min` is a least member. -/
theorem Sound.min (hs : heap.Sound f) (hf : TotalCompare f) (hm : heapMin heap = some a)
    (hx : heap.Mem x) : f heap.head a x ≤ 0 := by
  obtain ⟨β, _, rank, hc⟩ := hf.exists_rank heap
  exact (hc.le_iff hf).mp (((hs.placed.inOrder_iff hf hc).mp hs.order).min hm hx)

end Heap

end Fomo
