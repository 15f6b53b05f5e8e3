import Fomo.Include.HeapRuns
import Mathlib.Data.DFinsupp.WellFounded

/-!
# Building the heap (`tools/heap.h`)

`heap_build` follows the parents of the last item, which `heapify` may have moved before. The
loop comes to the places above the last one and to those that `heapify` passed, and to no
others: the order of a new comparison may be missing there.
-/
namespace Fomo

open Lib (above above_lt Over OrderedOff SiftOrder)

variable {ι β : Type} [DecidableEq ι]

/-- The item in the place is not greater than the items below it. -/
def Heap.OrderedAt (f : HeapCompare ι) (heap : Heap ι) (i : Nat) : Prop :=
  ∀ j a b, 0 < j → j < heap.size → above j = i → heap.heapArr i = some a →
    heap.heapArr j = some b → f heap.head a b ≤ 0

/-- What `heap_build` is for: the same members in order, and popped in order. -/
structure Heap.Built (f : HeapCompare ι) (heap heap' : Heap ι) : Prop where
  rearranges : heap.Rearranges heap'
  order : heap'.InOrder f
  popped : ∃ (heap'' : Heap ι) (l : List ι),
    (heapCalls f heap.size).exec heap' (List.replicate (heap.size + 1) .minPop) =
      .ok (heap'', l.map some ++ [none]) ∧
    l.Nodup ∧ (∀ x, x ∈ l ↔ heap.Mem x) ∧ l.Pairwise fun x y => f heap'.head x y ≤ 0

/-- `heap_set_compare` ends, and builds the heap. -/
def Heap.Builds (f : HeapCompare ι) (heap : Heap ι) : Prop :=
  ∃ heap' bound, (∀ fuel, bound ≤ fuel → heapSetCompare f fuel heap = .ok heap') ∧
    heap.Built f heap'

namespace Heap

variable {heap heap0 heap' : Heap ι} {f : HeapCompare ι} {rank : ι → β} {h x y : ι}
  {fuel index : Nat} [LinearOrder β]

/-! ## What `heapify` leaves -/

omit [DecidableEq ι] in
/-- A comparison of `heapify` that changes its choice picks a lesser item. -/
theorem least_lt (hf : heap.Compares f rank) {child : Option ι}
    (hne : heapLeast f heap x child ≠ x) : rank (heapLeast f heap x child) < rank x := by
  cases child with
  | none => exact absurd rfl hne
  | some c =>
    unfold heapLeast at hne ⊢
    dsimp only at hne ⊢
    by_cases hc : f heap.head c x < 0
    · rw [if_pos hc]
      exact (hf heap.head (fun _ => rfl) c x).mp hc
    · rw [if_neg hc] at hne
      exact absurd rfl hne

/-- `heapify` at `index`, where the item is `x`: the item goes down, the places before `index`
keep their items, and a lesser item takes the place unless nothing moved. -/
structure Sifts (rank : ι → β) (index : Nat) (x : ι) (heap heap' : Heap ι) : Prop where
  rearranges : heap.Rearranges heap'
  below : Over index (heap'.head x).index
  before : ∀ k < index, heap'.heapArr k = heap.heapArr k
  less : heap' = heap ∨ ∃ y, heap'.heapArr index = some y ∧ rank y < rank x

theorem Placed.sifts (hp : heap.Placed) (hsmall : heap.size < 2 ^ 31)
    (hf : heap.Compares f rank) (hi : index < heap.size)
    (hx : heap.heapArr index = some x) (hfuel : heap.size - index < fuel) :
    ∃ heap', heapMoveDown f fuel heap index = .ok heap' ∧ Sifts rank index x heap heap' := by
  induction fuel generalizing heap index with
  | zero => omega
  | succ fuel ih =>
    obtain ⟨hmem, rfl⟩ := hp.mem hi hx
    unfold heapMoveDown
    rw [if_neg (by omega), hx, deref_some, ok_bind]
    dsimp only
    generalize hl : heapLeast f heap x (heapLeft heap x) = l
    generalize hr : heapLeast f heap l (heapRight heap x) = c
    by_cases hc : c ≠ x
    · have hlt : rank c < rank x := by
        by_cases hlx : l = x
        · subst hlx
          rw [← hr] at hc ⊢
          exact least_lt hf hc
        · have h1 := (least_le hf l (heapRight heap x)).1
          have h2 : rank l < rank x := by
            rw [← hl] at hlx ⊢
            exact least_lt hf hlx
          rw [hr] at h1
          exact h1.trans_lt h2
      obtain ⟨hcm, hpos, habove⟩ := (hp.child_iff hsmall hmem).mp (least_child hl hr hc)
      have hdown := above_lt hpos
      rw [habove] at hdown
      have hsw := hp.swap hmem hcm
      have hnew := swap_index_left heap x c
      have hmem' := (hsw.mem x).mpr hmem
      obtain ⟨heap', hrun, hs⟩ := ih hsw.placed (hsw.size ▸ hsmall) (hf.of_keys hsw.key) hmem'.1
        hmem'.2 (by
          rw [hsw.size, hnew]
          omega)
      rw [hnew] at hs
      have harr := swap_arr heap (Ne.symm hc)
      refine ⟨heap', by rw [if_pos hc]; exact hrun, hsw.trans hs.rearranges, ?_, fun k hk => ?_,
        Or.inr ⟨c, ?_, hlt⟩⟩
      · refine Over.trans (.step hpos ?_) hs.below
        rw [habove]
        exact .refl
      · rw [hs.before k (hk.trans hdown), harr, if_neg hk.ne, if_neg (hk.trans hdown).ne]
      · rw [hs.before _ hdown, harr, if_pos rfl]
    · exact ⟨heap, by rw [if_neg hc]; rfl, hp.refl, .refl, fun _ _ => rfl, Or.inl rfl⟩

theorem Placed.heapify_sifts (hp : heap.Placed) (hsmall : heap.size < 2 ^ 31)
    (hf : heap.Compares f rank) (hh : heap.Mem h) : ∃ heap',
      Fomo.heapify f heap (heap.head h).index = .ok heap' ∧
      Sifts rank (heap.head h).index h heap heap' :=
  hp.sifts hsmall hf hh.1 hh.2 (by omega)

/-! ## The loop ends -/

omit [DecidableEq ι] in
theorem Placed.parent_cases (hp : heap.Placed) (hh : heap.Mem h) :
    (heap.head h).index = 0 ∧ heapParent heap h = none ∨
      ∃ p, heapParent heap h = some p ∧ heap.Mem p ∧ 0 < (heap.head h).index ∧
        (heap.head p).index = above (heap.head h).index := by
  by_cases hpos : 0 < (heap.head h).index
  · obtain ⟨p, hpar, hmem, _⟩ := hp.parent hh hpos
    exact Or.inr ⟨p, hpar, hmem, hp.parent_index hh hpar⟩
  · exact Or.inl ⟨by omega, by rw [heapParent, if_neg hpos]⟩

/-- The values of the first `n` places, counted from below. -/
def counts (count : WithTop β → Nat) (rank : ι → β) (n : Nat) (heap : Heap ι) :
    Lex (Fin n → Nat) := toLex fun i => count (heap.rankAt rank i)

omit [DecidableEq ι] in
/-- A round that moves items makes the array less in the lexicographic order. -/
theorem Sifts.counts_lt {count : WithTop β → Nat} (hr : heap0.Rearranges heap)
    (hcount : ∀ a b, a ∈ (Finset.range heap0.size).image (heap0.rankAt rank) → a < b →
      count a < count b)
    (hh : heap.Mem h) (hs : Sifts rank (heap.head h).index h heap heap')
    (hy : heap'.heapArr (heap.head h).index = some y) (hlt : rank y < rank h) :
    counts count rank heap0.size heap' < counts count rank heap0.size heap := by
  have hi : (heap.head h).index < heap0.size := hr.size ▸ hh.1
  have hy0 : heap0.Mem y := by
    have hr' := hr.trans hs.rearranges
    refine (hr'.mem y).mp (hr'.placed.mem ?_ hy).1
    rw [hr'.size]
    exact hi
  refine ⟨⟨_, hi⟩, fun k hk => ?_, ?_⟩
  · show count (heap'.rankAt rank k) = count (heap.rankAt rank k)
    rw [rankAt, hs.before k hk]
    rfl
  · show count (heap'.rankAt rank _) < count (heap.rankAt rank _)
    rw [rankAt_some hy, hh.rankAt]
    refine hcount _ _ ?_ (WithTop.coe_lt_coe.mpr hlt)
    rw [← hy0.rankAt]
    exact Finset.mem_image_of_mem _ (Finset.mem_range.mpr hy0.1)

/-- A round that moves none goes on further up. -/
theorem Rearranges.buildLoop_ends (hr : heap0.Rearranges heap) (hsmall : heap0.size < 2 ^ 31)
    (hf : heap0.Compares f rank) (hh : heap.Mem h) : ∃ heap' bound, heap0.Rearranges heap' ∧
      ∀ fuel, bound ≤ fuel → heapBuildLoop f fuel heap (some h) = .ok heap' := by
  obtain ⟨count, hcount⟩ := Lib.exists_count
    ((Finset.range heap0.size).image (heap0.rankAt rank))
  generalize hw : counts count rank heap0.size heap = w
  induction w using WellFoundedLT.induction generalizing heap h with
  | ind w ihw =>
    generalize hidx : (heap.head h).index = index
    induction index using Nat.strongRecOn generalizing h with
    | ind index ih =>
      have hsize := hr.size
      obtain ⟨heap1, hrun, hs⟩ := hr.placed.heapify_sifts (by omega) (hf.of_keys hr.key) hh
      have hr1 := hr.trans hs.rearranges
      have hh1 := (hs.rearranges.mem h).mpr hh
      have hround : ∀ fuel, heapBuildLoop f (fuel + 1) heap (some h) =
          heapBuildLoop f fuel heap1 (heapParent heap1 h) := by
        intro fuel
        simp only [heapBuildLoop, hrun, ok_bind]
      -- one more round than the rest of the loop
      have hnext : ∀ {heap' bound}, heap0.Rearranges heap' →
          (∀ fuel, bound ≤ fuel →
            heapBuildLoop f fuel heap1 (heapParent heap1 h) = .ok heap') →
          ∃ heap' bound, heap0.Rearranges heap' ∧
            ∀ fuel, bound ≤ fuel → heapBuildLoop f fuel heap (some h) = .ok heap' := by
        intro heap' bound hr' hloop
        refine ⟨heap', bound + 1, hr', fun fuel hle => ?_⟩
        obtain ⟨n, rfl⟩ := Nat.exists_eq_add_of_le' hle
        rw [← Nat.add_assoc, hround]
        exact hloop _ (Nat.le_add_left ..)
      rcases hr1.placed.parent_cases hh1 with ⟨_, hpar⟩ | ⟨p, hpar, hp, hpos, hpi⟩
      · have hdone : ∀ fuel, 0 ≤ fuel →
            heapBuildLoop f fuel heap1 (heapParent heap1 h) = .ok heap1 := by
          intro fuel _
          rw [hpar]
          cases fuel <;> rfl
        exact hnext hr1 hdone
      · rw [hpar] at hnext
        rcases hs.less with rfl | ⟨y, hy, hlt⟩
        · have hup := above_lt hpos
          rw [← hpi, hidx] at hup
          obtain ⟨heap', bound, hr', hloop⟩ := ih _ hup hp rfl
          exact hnext hr' hloop
        · have hless := hs.counts_lt hr hcount hh hy hlt
          rw [hw] at hless
          obtain ⟨heap', bound, hr', hloop⟩ := ihw _ hless hr1 hp rfl
          exact hnext hr' hloop

omit [LinearOrder β] in
/-- More rounds than it takes change nothing. -/
theorem buildLoop_more {o : Option ι} (hrun : heapBuildLoop f fuel heap o = .ok heap')
    (n : Nat) : heapBuildLoop f (fuel + n) heap o = .ok heap' := by
  induction fuel generalizing heap o with
  | zero =>
    cases o with
    | none => cases n <;> exact hrun
    | some h => cases hrun
  | succ fuel ih =>
    cases o with
    | none => cases n <;> exact hrun
    | some h =>
      rw [Nat.add_right_comm, heapBuildLoop]
      rw [heapBuildLoop] at hrun
      cases hstep : Fomo.heapify f heap (heap.head h).index with
      | error e =>
        rw [hstep] at hrun
        cases hrun
      | ok heap1 =>
        rw [hstep, ok_bind] at hrun
        rw [ok_bind]
        exact ih hrun

/-! ## The order -/

/-- What is in order off the way from the item up is in order for good. -/
theorem Placed.buildLoop_ordered (hp : heap.Placed) (hsmall : heap.size < 2 ^ 31)
    (hf : heap.Compares f rank) (hh : heap.Mem h)
    (ho : OrderedOff (fun i => Over i (heap.head h).index) heap.size (heap.rankAt rank))
    (hrun : heapBuildLoop f fuel heap (some h) = .ok heap') : heap'.Ordered rank := by
  induction fuel generalizing heap h with
  | zero => cases hrun
  | succ fuel ih =>
    obtain ⟨heap1, hrun1, hs⟩ := hp.heapify_sifts hsmall hf hh
    have hr := hs.rearranges
    have hh1 := (hr.mem h).mpr hh
    rw [heapBuildLoop, hrun1, ok_bind] at hrun
    have ho1 := hp.moveDown_off hsmall hf (fun i hi => hi.2) ho.sift hrun1
    have hover := hs.below
    rcases hr.placed.parent_cases hh1 with ⟨h0, hpar⟩ | ⟨p, hpar, hpm, hpos, hpi⟩
    · rw [hpar] at hrun
      obtain rfl : heap1 = heap' := by
        cases fuel <;> exact Except.ok.inj hrun
      have hle := hover.le
      exact fun i hpos hi => ho1 i hpos hi fun hS => by omega
    · rw [hpar] at hrun
      refine ih hr.placed (by rw [hr.size]; exact hsmall) (hf.of_keys hr.key) hpm ?_ hrun
      rw [hpi]
      refine ho1.mono fun i hi => ?_
      -- a place over the start is over the place above the end
      rcases hover.cases_above with heq | ⟨_, hover⟩
      · rw [← heq]
        exact (hi.1.cases_above.resolve_left hi.2.ne).2
      · exact hi.1.trans hover

omit [LinearOrder β] in
/-- The build is right if the places that are not above the last one are in order before. -/
theorem Placed.builds (hp : heap.Placed) (hf : TotalCompare f) (hsmall : heap.size < 2 ^ 31)
    (ho : ∀ i, 2 * i + 1 < heap.size → ¬Over i (heap.size - 1) → heap.OrderedAt f i) :
    heap.Builds f := by
  obtain ⟨β, _, rank, hc⟩ := hf.exists_rank heap
  suffices h : ∃ heap' bound, heap.Rearranges heap' ∧ heap'.Ordered rank ∧
      ∀ fuel, bound ≤ fuel → heapSetCompare f fuel heap = .ok heap' by
    obtain ⟨heap', bound, hr, hord, hrun⟩ := h
    have hs : heap'.Sound f :=
      ⟨hr.placed, (hr.placed.inOrder_iff hf (hc.of_keys hr.key)).mpr hord⟩
    obtain ⟨heap'', l, hexec, hnodup, hl, hpair⟩ := hs.popAll hf (hr.size ▸ hsmall) heap.size
    rw [hr.size] at hexec
    exact ⟨heap', bound, hrun, hr, hs.order, heap'', l, hexec, hnodup,
      fun x => (hl x).trans (hr.mem x), hpair⟩
  by_cases h0 : heap.size = 0
  · refine ⟨heap, 0, hp.refl, fun i _ hi => ?_, fun fuel _ => if_pos h0⟩
    rw [h0] at hi
    exact absurd hi (Nat.not_lt_zero i)
  · obtain ⟨h, hx, hi⟩ := hp (heap.size - 1) (by omega)
    have hh := (hp.mem (by omega) hx).1
    obtain ⟨heap', bound, hr, hloop⟩ := hp.refl.buildLoop_ends hsmall hc hh
    refine ⟨heap', bound, hr, ?_, fun fuel hle => ?_⟩
    · refine hp.buildLoop_ordered hsmall hc hh (fun i hpos hlt hoff => ?_) (hloop bound le_rfl)
      rw [hi] at hoff
      have hup : above i < heap.size := (above_lt hpos).trans hlt
      obtain ⟨a, ha, _⟩ := hp (above i) hup
      obtain ⟨b, hb, _⟩ := hp i hlt
      have hchild : 2 * above i + 1 < heap.size := by
        unfold above
        omega
      rw [rankAt_some ha, rankAt_some hb]
      exact WithTop.coe_le_coe.mpr
        ((hc.le_iff hf).mpr (ho _ hchild hoff i a b hpos hlt rfl ha hb))
    · rw [heapSetCompare, heapBuild, if_neg h0, hx]
      exact hloop fuel hle

end Heap

/-! ## Places that are missed -/

/-- The item `i` in the place `i` of an array, with its key. -/
def listed (keys : Nat → Nat) (n : Nat) : Heap Nat where
  head := fun i => { key := keys i, index := i }
  heapArr := fun i => if i < n then some i else none
  capacity := n
  size := n

variable {keys : Nat → Nat} {n i v : Nat}

theorem listed_arr (hi : i < n) : (listed keys n).heapArr i = some i := if_pos hi

theorem listed_placed (keys : Nat → Nat) (n : Nat) : (listed keys n).Placed :=
  fun i hi => ⟨i, listed_arr hi, rfl⟩

/-- `heapify` leaves a least item where it is. -/
theorem heapify_least {f : HeapCompare ι} {heap : Heap ι} {x : ι} (hi : i < heap.size)
    (hx : heap.heapArr i = some x) (hleast : ∀ c, ¬f heap.head c x < 0) :
    heapify f heap i = .ok heap := by
  have hkeep : ∀ child, heapLeast f heap x child = x := by
    intro child
    cases child with
    | none => rfl
    | some c => exact if_neg (hleast c)
  have hfuel : (2 : Nat) ^ 32 = (2 ^ 32 - 1) + 1 := by omega
  rw [heapify, hfuel, heapMoveDown, if_neg (by omega), hx, deref_some, ok_bind]
  dsimp only
  rw [hkeep, hkeep, if_neg fun h => h rfl]
  rfl

/-- All keys are equal but that of the item `v`. -/
def oneHigh (n v : Nat) : Heap Nat := listed (fun i => if i = v then 1 else 0) n

theorem oneHigh_arr (hi : i < n) : (oneHigh n v).heapArr i = some i := listed_arr hi

theorem oneHigh_least (hi : i ≠ v) (c : Nat) :
    ¬heapDefaultCompare (oneHigh n v).head c i < 0 := by
  have hkey : ((oneHigh n v).head i).key = 0 := if_neg hi
  rw [heapDefaultCompare_sign, Int.sign_neg_iff, hkey]
  omega

theorem oneHigh_orderedAt (hi : i ≠ v) : (oneHigh n v).OrderedAt heapDefaultCompare i := by
  intro j a b hpos hj habove ha hb
  have hj : j < n := hj
  have hin : i < n := habove ▸ (above_lt hpos).trans hj
  obtain rfl := Option.some.inj ((oneHigh_arr hin).symm.trans ha)
  exact heapDefaultCompare_total.le_iff.mpr (oneHigh_least hi b)

/-- The loop comes by the places above the last one, and moves nothing. -/
theorem oneHigh_buildLoop {fuel : Nat} {heap' : Heap Nat} (hv : ¬Over v (n - 1))
    (hi : Over i (n - 1)) (hn : 0 < n)
    (hrun : heapBuildLoop heapDefaultCompare fuel (oneHigh n v) (some i) = .ok heap') :
    heap' = oneHigh n v := by
  induction fuel generalizing i with
  | zero => cases hrun
  | succ fuel ih =>
    have hle := hi.le
    have hin : i < n := by omega
    have hne : i ≠ v := fun h => hv (h ▸ hi)
    have hstay : heapify heapDefaultCompare (oneHigh n v) i = .ok (oneHigh n v) :=
      heapify_least hin (oneHigh_arr hin) (oneHigh_least hne)
    have hidx : ((oneHigh n v).head i).index = i := rfl
    rw [heapBuildLoop, hidx, hstay, ok_bind, heapParent, hidx] at hrun
    by_cases hpos : i > 0
    · have hup : Over (above i) i := .step hpos .refl
      rw [if_pos hpos, oneHigh_arr (i := (i - 1) / 2) (by omega)] at hrun
      exact ih (hup.trans hi) hrun
    · rw [if_neg hpos] at hrun
      cases fuel <;> exact (Except.ok.inj hrun).symm

/-- The item with the higher key stays where it was, above a lesser one. -/
theorem oneHigh_not_builds (hv : 2 * v + 1 < n) (hover : ¬Over v (n - 1)) :
    ¬(oneHigh n v).Builds heapDefaultCompare := by
  rintro ⟨heap', bound, hrun, hbuilt⟩
  have hn : 0 < n := by omega
  have hsize : (oneHigh n v).size = n := rfl
  have hloop := hrun bound le_rfl
  rw [heapSetCompare, heapBuild, hsize, if_neg hn.ne', oneHigh_arr (by omega)] at hloop
  obtain rfl := oneHigh_buildLoop hover .refl hn hloop
  have hle := hbuilt.order (2 * v + 1) v (2 * v + 1) (by omega) hv
    (by
      rw [show (2 * v + 1 - 1) / 2 = v by omega]
      exact oneHigh_arr (by omega))
    (oneHigh_arr hv)
  rw [heapDefaultCompare_sign, Int.sign_nonpos_iff] at hle
  have hkey : ((oneHigh n v).head v).key = 1 := if_pos rfl
  have hkey' : ((oneHigh n v).head (2 * v + 1)).key = 0 := if_neg (by omega)
  rw [hkey, hkey'] at hle
  omega

/-- From six places on, one of the places 1 and 2 is missed. -/
theorem exists_missed (hn : 6 ≤ n) : ∃ i, 2 * i + 1 < n ∧ ¬Over i (n - 1) := by
  by_contra hall
  push Not at hall
  have h1 := hall 1 (by omega)
  have h2 := hall 2 (by omega)
  rcases h1.total h2 with h | h
  · rcases h.cases_above with heq | ⟨_, h⟩
    · omega
    · exact absurd h.le (by decide)
  · exact absurd h.le (by decide)

/-- Up to five places none is missed. -/
theorem over_of_le_five (hn : n ≤ 5) (hi : 2 * i + 1 < n) : Over i (n - 1) := by
  by_cases h0 : i = 0
  · rw [h0]
    exact Lib.over_zero _
  · have habove : above (n - 1) = i := by
      unfold above
      omega
    refine .step (by omega) ?_
    rw [habove]
    exact .refl

/-- `heap_build` builds every array of `n` places exactly if `n ≤ 5`. With more, the array has
to be in order at some places before, and these are the places with one below them that are not
above the last one. -/
theorem heapBuild_builds (n : Nat) :
    ((∀ (ι : Type) [DecidableEq ι] (f : HeapCompare ι) (heap : Heap ι), TotalCompare f →
      heap.Placed → heap.size = n → heap.Builds f) ↔ n ≤ 5) ∧
    ∀ P : Nat → Prop, n < 2 ^ 31 → ((∀ (ι : Type) [DecidableEq ι] (f : HeapCompare ι)
      (heap : Heap ι), TotalCompare f → heap.Placed → heap.size = n →
      (∀ i, P i → heap.OrderedAt f i) → heap.Builds f) ↔
      ∀ i, 2 * i + 1 < n → ¬Over i (n - 1) → P i) := by
  have hfails : ∀ i, 2 * i + 1 < n → ¬Over i (n - 1) → ∀ P : Nat → Prop,
      (∀ (ι : Type) [DecidableEq ι] (f : HeapCompare ι) (heap : Heap ι), TotalCompare f →
        heap.Placed → heap.size = n → (∀ i, P i → heap.OrderedAt f i) → heap.Builds f) → P i := by
    intro i hi hover P hall
    by_contra hP
    refine oneHigh_not_builds hi hover (hall Nat heapDefaultCompare _ heapDefaultCompare_total
      (listed_placed _ n) rfl fun j hj => oneHigh_orderedAt ?_)
    rintro rfl
    exact hP hj
  constructor
  · constructor
    · intro hall
      by_contra hn
      obtain ⟨i, hi, hover⟩ := exists_missed (n := n) (by omega)
      exact hfails i hi hover (fun _ => False) fun ι _ f heap hf hp hs _ => hall ι f heap hf hp hs
    · intro hn ι _ f heap hf hp hs
      subst hs
      refine hp.builds hf (by omega) fun i hi hover => absurd ?_ hover
      exact over_of_le_five hn hi
  · intro P hsmall
    constructor
    · exact fun hall i hi hover => hfails i hi hover P hall
    · intro hP ι _ f heap hf hp hs ho
      subst hs
      exact hp.builds hf hsmall fun i hi hover => ho i (hP i hi hover)

/-- The comparison of the test of `heap_set_compare`. -/
def heapReverseCompare : HeapCompare ι := fun head a b => heapDefaultCompare head b a

theorem heapBuild_builds_five : (listed (· + 1) 5).Builds heapReverseCompare ∧
    (oneHigh 6 2).Builds heapDefaultCompare := by
  refine ⟨(heapBuild_builds 5).1.mpr le_rfl Nat _ _ heapDefaultCompare_total.swap
    (listed_placed _ 5) rfl, ?_⟩
  refine ((heapBuild_builds 6).2 (· ≠ 2) (by decide)).mpr (fun i hi hover => ?_) Nat _ _
    heapDefaultCompare_total (listed_placed _ 6) rfl fun i hi => oneHigh_orderedAt hi
  rintro rfl
  exact hover (.step (by decide) .refl)

/-- Six keys in order, and the reverse comparison: the key 2 stays above the key 4. -/
theorem heapBuild_six : TotalCompare (heapReverseCompare : HeapCompare Nat) ∧
    (listed (· + 1) 6).Placed ∧
    ∃ heap', (∀ fuel, 20 ≤ fuel →
        heapSetCompare heapReverseCompare fuel (listed (· + 1) 6) = .ok heap') ∧
      (List.range 6).map heap'.heapArr = [some 5, some 1, some 2, some 3, some 4, some 0] ∧
      heapReverseCompare heap'.head 3 1 < 0 ∧
      ¬(listed (· + 1) 6).Builds heapReverseCompare := by
  obtain ⟨heap', hloop, harr, hless⟩ : ∃ heap', heapBuildLoop heapReverseCompare 20
      (listed (· + 1) 6) (some 5) = .ok heap' ∧
      (List.range 6).map heap'.heapArr = [some 5, some 1, some 2, some 3, some 4, some 0] ∧
      heapReverseCompare heap'.head 3 1 < 0 := ⟨_, rfl, by decide, by decide⟩
  have hrun : ∀ fuel, 20 ≤ fuel →
      heapSetCompare heapReverseCompare fuel (listed (· + 1) 6) = .ok heap' := by
    intro fuel hle
    obtain ⟨n, rfl⟩ := Nat.exists_eq_add_of_le hle
    exact Heap.buildLoop_more hloop n
  refine ⟨heapDefaultCompare_total.swap, listed_placed _ 6, heap', hrun, harr, hless, ?_⟩
  rintro ⟨heap'', bound, hrun', hbuilt⟩
  have heq := (hrun _ (Nat.le_add_left 20 bound)).symm.trans (hrun' _ (Nat.le_add_right bound 20))
  obtain rfl := Except.ok.inj heq
  simp only [List.range_succ, List.range_zero, List.nil_append, List.cons_append, List.map_cons,
    List.map_nil, List.cons.injEq] at harr
  have hle := hbuilt.order 3 1 3 (by decide) (by rw [hbuilt.rearranges.size]; decide) harr.2.1
    harr.2.2.2.1
  exact absurd hless (heapDefaultCompare_total.swap.le_iff.mp hle)

end Fomo
