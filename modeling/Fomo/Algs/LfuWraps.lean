import Fomo.Algs.LfuVictims
import Fomo.Include.HeapSinks

/-!
# LFU where an index of the heap wraps

Preloaded blocks stay in the heap in the order they came in. With `2 ^ 31` of them a hit on the
last one takes it to the root: it never comes to rest if the others are equal, and with some times
it leaves the least block at the bottom, so that another one is evicted.
-/
namespace Fomo

open Heap

namespace LfuPolicy

variable {s s' s0 : LfuPolicy} {g : LfuAccesses} {times : Nat → Nat} {n : Nat} {r : EntryRef}
  {o : Oblock} {cb : Cblock} {result : CacheNucleusResult} {c m : UInt32}

theorem cache_ne {i j : Nat} (hne : i ≠ j) : (⟨.cache, i⟩ : EntryRef) ≠ ⟨.cache, j⟩ :=
  fun heq => hne (congrArg EntryRef.index heq)

/-- The slots below `n` and the places of the heap hold the blocks of their numbers, accessed
once each. -/
structure Crowd (times : Nat → Nat) (n : Nat) (s : LfuPolicy) : Prop where
  size : s.heap.size = n
  item : ∀ i < n, s.heap.heapArr i = some ⟨.cache, i⟩
  rank : ∀ i < n, s.rank ⟨.cache, i⟩ = toLex (1, times i)
  block : ∀ i < n, (s.nucleus.entry ⟨.cache, i⟩).oblock = UInt64.ofNat i
  free : ∀ i, n ≤ i → (s.nucleus.entry ⟨.cache, i⟩).allocated = false

theorem Crowd.mem (h : s.Crowd times n) (hi : s.Inv) {i : Nat} (hlt : i < n) :
    s.heap.Mem ⟨.cache, i⟩ ∧ (s.heap.head ⟨.cache, i⟩).index = i :=
  hi.placed.mem (hlt.trans_eq h.size.symm) (h.item i hlt)

theorem Crowd.lookup (h : s.Crowd times n) (hi : s.Inv) {i : Nat} (hlt : i < n) :
    hashLookup s.nucleus (UInt64.ofNat i) = some ⟨.cache, i⟩ :=
  hi.wf.hashLookup_eq_some.mpr
    ⟨((hi.mem_heap _).mp (h.mem hi hlt).1).1, h.block i hlt⟩

theorem Crowd.toNat_lt (h : s.Crowd times n) (hi : s.Inv) : n < 2 ^ 32 :=
  (h.size.symm.trans_le hi.heap_size_le).trans_lt (hi.wf.pools .cache).nr_lt

theorem Crowd.toNat_oblock_lt (h : s.Crowd times n) (hi : s.Inv)
    (ha : (s.nucleus.entry r).allocated = true) : (s.nucleus.entry r).oblock.toNat < n := by
  have hp := hi.pool_eq ha
  have hbound := h.toNat_lt hi
  obtain ⟨rp, i⟩ := r
  obtain rfl : rp = .cache := hp
  by_cases hlt : i < n
  · rw [h.block i hlt, UInt64.toNat_ofNat', Nat.mod_eq_of_lt (by omega)]
    exact hlt
  · rw [h.free i (Nat.not_lt.mp hlt)] at ha
    cases ha

theorem Crowd.absent (h : s.Crowd times n) (hi : s.Inv) (ho : n ≤ o.toNat) :
    s.nucleus.Absent o := by
  intro r ha hr
  have hlt := h.toNat_oblock_lt hi ha
  rw [hr] at hlt
  omega

/-! ## How they come in -/

/-- A preload puts its entry into the heap under the key 1. -/
theorem Inv.insert_heap (h : s.Inv) (hmay : s.nucleus.MayInsert o cb)
    (hrun : lfuInsertApi s o cb = .ok s') : heapInsert (lfuCompare s'.nucleus)
      (s.heap.setKey ⟨.cache, cb⟩ 1) ⟨.cache, cb⟩ 1 = .ok s'.heap := by
  obtain ⟨habs, hcb, hfree⟩ := hmay
  obtain ⟨cn, halloc, _⟩ := h.wf.allocPoolEntryAt hcb hfree habs
  simp only [lfuInsertApi, insertInCacheAt, halloc, ok_bind] at hrun
  obtain ⟨heap', hins, hrun⟩ := bind_eq_ok.mp hrun
  obtain rfl := Except.ok.inj hrun
  exact hins

/-- A later block comes in last. -/
theorem Crowd.insert (h : s.Crowd times n) (hc : s.Counted g)
    (hn : n < (s.nucleus.pool .cache).nrEntries) (hnow : s.nucleus.time = times n)
    (hup : 0 < n → times ((n - 1) / 2) ≤ times n) : ∃ s',
      lfuInsertApi s (UInt64.ofNat n) n = .ok s' ∧ s.nucleus.MayInsert (UInt64.ofNat n) n ∧
      s'.Crowd times (n + 1) ∧ s'.Counted (g.access (UInt64.ofNat n) 1) ∧
      (s'.nucleus.pool .cache).nrEntries = (s.nucleus.pool .cache).nrEntries ∧
      s'.nucleus.time = s.nucleus.time := by
  have hfree := h.free n le_rfl
  have hbound := h.toNat_lt hc.inv
  have hmay : s.nucleus.MayInsert (UInt64.ofNat n) n := by
    refine ⟨h.absent hc.inv ?_, hn, hfree⟩
    rw [UInt64.toNat_ofNat', Nat.mod_eq_of_lt (by omega)]
  obtain ⟨s', hrun, hs, hc'⟩ := hc.insert hmay
  have hni : ¬s.heap.Mem ⟨.cache, n⟩ := fun hm => by
    have := ((hc.inv.mem_heap _).mp hm).1
    rw [hfree] at this
    cases this
  obtain ⟨hp, _, hmem⟩ := hc.inv.placed.setKey ⟨.cache, n⟩ 1
  have hne : ∀ i < n, (⟨.cache, i⟩ : EntryRef) ≠ ⟨.cache, n⟩ := fun i hi => cache_ne hi.ne
  have hsize : (s.heap.setKey ⟨.cache, n⟩ 1).size = n := h.size
  -- it is not less than its parent
  have hheap : s'.heap = (s.heap.setKey ⟨.cache, n⟩ 1).grow ⟨.cache, n⟩ 1 := by
    have hroom := hc.inv.room hn hni
    refine Except.ok.inj ((hc.inv.insert_heap hmay hrun).symm.trans
      (hp.insert_stays (fun hm => hni ((hmem _).mp hm)) hroom fun p hpar => ?_))
    rw [hc'.below.compares, hs.rank_self, hnow]
    · rw [heapParent, grow_head, hsize] at hpar
      split at hpar
      · next hpos =>
        have hpos : 0 < n := hpos
        have hlt : (n - 1) / 2 < n := by omega
        rw [grow_arr_of_lt _ _ _ (hsize.symm ▸ hlt)] at hpar
        obtain rfl := Option.some.inj ((h.item _ hlt).symm.trans hpar)
        rw [hs.rank_of_ne (hne _ hlt), h.rank _ hlt, not_lt, Prod.Lex.toLex_le_toLex]
        exact Or.inr ⟨rfl, hup hpos⟩
      · cases hpar
    · intro x
      rw [hs.key]
      by_cases hx : x = ⟨.cache, n⟩
      · rw [hx, grow_head, if_pos rfl]
      · rw [grow_head_of_ne _ _ hx, if_neg hx]
        simp [Heap.setKey, hx]
  refine ⟨s', hrun, hmay, ⟨?_, fun i hi => ?_, fun i hi => ?_, fun i hi => ?_, fun i hi => ?_⟩,
    hc', hs.rewrites.nrEntries _, hs.rewrites.time⟩
  · rw [hheap, ← hsize]
    rfl
  · rw [hheap]
    rcases Nat.lt_succ_iff_lt_or_eq.mp hi with hlt | rfl
    · rw [grow_arr_of_lt _ _ _ (hsize.symm ▸ hlt)]
      exact h.item i hlt
    · exact hsize ▸ Function.update_self ..
  · rcases Nat.lt_succ_iff_lt_or_eq.mp hi with hlt | rfl
    · rw [hs.rank_of_ne (hne i hlt)]
      exact h.rank i hlt
    · rw [hs.rank_self, hnow]
  · rcases Nat.lt_succ_iff_lt_or_eq.mp hi with hlt | rfl
    · rw [hs.rewrites.entry_of_ne (hne i hlt)]
      exact h.block i hlt
    · rw [hs.rewrites.entry_self]
      rfl
  · rw [hs.rewrites.entry_of_ne (cache_ne (by omega))]
    exact h.free i (by omega)

theorem Crowd.of_init (hinit : lfuCreate c m = .ok s) (times : Nat → Nat) : s.Crowd times 0 := by
  have heq := Except.ok.inj ((lfuInit_eq c).symm.trans hinit)
  refine ⟨by rw [← heq], fun i hi => absurd hi (Nat.not_lt_zero i),
    fun i hi => absurd hi (Nat.not_lt_zero i), fun i hi => absurd hi (Nat.not_lt_zero i),
    fun i _ => by rw [← heq]; rfl⟩

/-- Preloads alone fill the cache with equal blocks. -/
theorem Crowd.reachable (lt : LfuTransaction) (hinit : lfuCreate c m = .ok s0)
    (hn : n ≤ c.toNat) : ∃ s g,
      ((lfuApi lt).system fun s => contractCalls s.nucleus).Reachable s0 s ∧
      s.Crowd (fun _ => 0) n ∧ s.Counted g := by
  suffices h : ∃ s g, ((lfuApi lt).system fun s => contractCalls s.nucleus).Reachable s0 s ∧
      s.Crowd (fun _ => 0) n ∧ s.Counted g ∧
      (s.nucleus.pool .cache).nrEntries = c.toNat ∧ s.nucleus.time = 0 by
    obtain ⟨s, g, hs, hcrowd, hcount, _⟩ := h
    exact ⟨s, g, hs, hcrowd, hcount⟩
  induction n with
  | zero =>
    refine ⟨s0, {}, Lib.System.Reachable.refl _ _, .of_init hinit _, .of_init hinit,
      (lfuInit_spec hinit).2.1, ?_⟩
    rw [← Except.ok.inj ((lfuInit_eq c).symm.trans hinit)]
    rfl
  | succ n ih =>
    obtain ⟨s, g, hs, hcrowd, hcount, hslots, hnow⟩ := ih (by omega)
    obtain ⟨s', hrun, hmay, hcrowd', hcount', hslots', hnow'⟩ :=
      hcrowd.insert hcount (hslots ▸ hn) hnow fun _ => le_rfl
    have hg : ((lfuApi lt).system fun s => contractCalls s.nucleus).guard s
        (.insert (UInt64.ofNat n) n) := hmay
    exact ⟨s', _, hs.step hg (map_eq_ok.mpr ⟨_, hrun, rfl⟩), hcrowd', hcount',
      hslots'.trans hslots, hnow'.trans hnow⟩

/-- Preloads at any times, under the observer. -/
theorem Crowd.exists_run (lt : LfuTransaction) (hinit : lfuCreate c m = .ok s0)
    (hsmall : ∀ i, times i < 2 ^ 31) (hup : ∀ i, 0 < i → times ((i - 1) / 2) ≤ times i)
    (hn : n ≤ c.toNat) : ∃ t s g, (lfuObserved lt).Run (s0, {}) t (s, g) ∧
      s.Crowd times n ∧ s.Counted g ∧ (s.nucleus.pool .cache).nrEntries = c.toNat := by
  induction n with
  | zero => exact ⟨[], s0, {}, .nil, .of_init hinit _, .of_init hinit, (lfuInit_spec hinit).2.1⟩
  | succ n ih =>
    obtain ⟨t, s, g, hrun, hcrowd, hcount, hslots⟩ := ih (by omega)
    have htime := hcount.setTime lt (hsmall n)
    have hg : (lfuObserved lt).guard (s, g) (.setTime (times n)) := hsmall n
    have hset : (lfuObserved lt).step (s, g) (.setTime (times n)) =
        .ok (((lfuApi lt).setTime s (times n), { g with now := times n }), none) := rfl
    have hcrowd1 : ((lfuApi lt).setTime s (times n)).Crowd times n :=
      ⟨hcrowd.size, hcrowd.item, hcrowd.rank, hcrowd.block, hcrowd.free⟩
    obtain ⟨s', hins, hmay, hcrowd', hcount', hslots', _⟩ :=
      hcrowd1.insert htime (hslots ▸ hn) rfl (hup n)
    have hg' : (lfuObserved lt).guard ((lfuApi lt).setTime s (times n), { g with now := times n })
        (.insert (UInt64.ofNat n) n) := hmay
    have hstep : (lfuObserved lt).step ((lfuApi lt).setTime s (times n), { g with now := times n })
        (.insert (UInt64.ofNat n) n) =
          .ok ((s', ({ g with now := times n } : LfuAccesses).access (UInt64.ofNat n) 1), none) :=
      Lib.System.ghost_step.mpr ⟨map_eq_ok.mpr ⟨_, hins, rfl⟩, rfl⟩
    exact ⟨_, s', _, (hrun.snoc hg hset).snoc hg' hstep, hcrowd', hcount',
      hslots'.trans hslots⟩

/-! ## A hit on the last one -/

/-- A hit on a settled block sifts its entry down from where it lies. -/
theorem Inv.map_hit (h : s.Inv) (hl : hashLookup s.nucleus o = some ⟨.cache, cb⟩)
    (hset : (s.nucleus.entry ⟨.cache, cb⟩).migrating = false) {t : LfuPolicy}
    (ht : s.touch ⟨.cache, cb⟩ (u32 ((s.heap.head ⟨.cache, cb⟩).key + 1)) = t) (w : Bool)
    (result : CacheNucleusResult) : lfuMapApi s o w result = (do
      let heap ← heapify (lfuCompare t.nucleus) t.heap (t.heap.head ⟨.cache, cb⟩).index
      return ({ nucleus := dirtyWork t.nucleus.incHits.incIos o w, heap := heap },
        { result with op := .hit, cblock := cb })) := by
  have hself : (t.nucleus.entry ⟨.cache, cb⟩).migrating = false := by
    rw [← ht, (h.touch ⟨.cache, cb⟩ _).rewrites.entry_self]
    exact hset
  simp only [lfuMapApi, lfuTransactionSet, lfuTransactionInit, hl, Option.isSome_some, if_true,
    lfuTransactionIsLegal, Bool.false_eq_true, if_false, lfuTransactionCommit, lfuHit, deref_some,
    ok_bind, h.wf.inferCacheCblock, ht, lfuHeapify, hself, pure_eq_ok]
  cases heapify (lfuCompare t.nucleus) t.heap (t.heap.head ⟨.cache, cb⟩).index with
  | error e => rfl
  | ok heap => rfl

/-- The state in which the hit on the last of `2 ^ 31` blocks sifts its entry down. -/
theorem Crowd.touch_last (h : s.Crowd times (2 ^ 31)) (hc : s.Counted g) :
    ∃ t, s.touch ⟨.cache, 2 ^ 31 - 1⟩ 2 = t ∧ t.Inv ∧ t.Below ∧ t.heap.size = 2 ^ 31 ∧
      (∀ i < 2 ^ 31, t.heap.heapArr i = some ⟨.cache, i⟩) ∧
      (∀ i < 2 ^ 31 - 1, t.rank ⟨.cache, i⟩ = toLex (1, times i)) ∧
      t.rank ⟨.cache, 2 ^ 31 - 1⟩ = toLex (2, s.nucleus.time) ∧
      (∀ w result, lfuMapApi s (UInt64.ofNat (2 ^ 31 - 1)) w result = (do
        let heap ← heapify (lfuCompare t.nucleus) t.heap (2 ^ 31 - 1)
        return ({ nucleus := dirtyWork t.nucleus.incHits.incIos (UInt64.ofNat (2 ^ 31 - 1)) w,
                  heap := heap }, { result with op := .hit, cblock := 2 ^ 31 - 1 }))) := by
  have hlast : 2 ^ 31 - 1 < 2 ^ 31 := by omega
  have hmem := (h.mem hc.inv hlast).1
  have hset := (hc.inv.mem_heap _).mp hmem
  have hkey : (s.heap.head ⟨.cache, 2 ^ 31 - 1⟩).key = 1 :=
    congrArg (fun p => (ofLex p).1) (h.rank _ hlast)
  have hs := hc.inv.touch ⟨.cache, 2 ^ 31 - 1⟩ 2
  have ht : s.touch ⟨.cache, 2 ^ 31 - 1⟩ (u32 ((s.heap.head ⟨.cache, 2 ^ 31 - 1⟩).key + 1)) =
      s.touch ⟨.cache, 2 ^ 31 - 1⟩ 2 := by
    rw [hkey]
    rfl
  have hitem : ∀ i < 2 ^ 31, (s.touch ⟨.cache, 2 ^ 31 - 1⟩ 2).heap.heapArr i =
      some ⟨.cache, i⟩ := h.item
  have hsize : (s.touch ⟨.cache, 2 ^ 31 - 1⟩ 2).heap.size = 2 ^ 31 := h.size
  have hmap := hc.inv.map_hit (h.lookup hc.inv hlast) hset.2 ht
  generalize s.touch ⟨.cache, 2 ^ 31 - 1⟩ 2 = t at *
  have hidx := (hs.inv.placed.mem (hlast.trans_eq hsize.symm) (hitem _ hlast)).2
  rw [hidx] at hmap
  refine ⟨t, rfl, hs.inv, hs.below hc.below (by decide) hc.below.now, hsize, hitem,
    fun i hi => ?_, hs.rank_self, hmap⟩
  rw [hs.rank_of_ne (cache_ne (by omega)), h.rank i (by omega)]

/-- Among equal blocks the last one never comes to rest: neither `heapify` nor the request
returns. -/
theorem Crowd.endless (h : s.Crowd (fun _ => 0) (2 ^ 31)) (hc : s.Counted g) :
    (∀ fuel, heapMoveDown (lfuCompare (s.touch ⟨.cache, 2 ^ 31 - 1⟩ 2).nucleus) fuel
      (s.touch ⟨.cache, 2 ^ 31 - 1⟩ 2).heap (2 ^ 31 - 1) = .error .outOfFuel) ∧
    ∀ w result, lfuMapApi s (UInt64.ofNat (2 ^ 31 - 1)) w result = .error .outOfFuel := by
  obtain ⟨t, ht, hi, hb, hsize, hitem, hrank, hlast, hmap⟩ := h.touch_last hc
  have hlt : 2 ^ 31 - 1 < t.heap.size := by omega
  obtain ⟨hmem, hidx⟩ := hi.placed.mem hlt (hitem _ (by omega))
  have hend : ∀ fuel, heapMoveDown (lfuCompare t.nucleus) fuel t.heap (2 ^ 31 - 1) =
      .error .outOfFuel := by
    intro fuel
    rw [← hidx]
    refine hi.placed.sinks_forever (toLex (1, 0)) (k := 31) hb.compares hsize hmem le_rfl
      hidx (fun y hy hne => ?_) ?_ fuel
    · have hlty := hy.1.trans_eq hsize
      have hyi := Option.some.inj (hy.2.symm.trans (hitem _ hlty))
      rw [hyi] at hne ⊢
      refine hrank _ (Nat.lt_of_le_of_ne (by omega) ?_)
      intro heq
      exact hne (congrArg (EntryRef.mk .cache) heq)
    · rw [hlast, Prod.Lex.toLex_lt_toLex]
      exact Or.inl Nat.one_lt_two
  rw [ht]
  refine ⟨hend, fun w result => ?_⟩
  rw [hmap, heapify, hend]
  rfl

/-- The block 0 comes in first, the block 2 next, the others later. -/
def lateTimes (i : Nat) : Nat := if i = 0 then 0 else if i = 2 then 1 else 2

theorem lateTimes_up (i : Nat) (hpos : 0 < i) : lateTimes ((i - 1) / 2) ≤ lateTimes i := by
  unfold lateTimes
  split_ifs <;> omega

/-- The last one comes to rest on the right, under the block 2; the block 0 is at the bottom. -/
theorem Crowd.misplaced (h : s.Crowd lateTimes (2 ^ 31)) (hc : s.Counted g) (w : Bool)
    (result : CacheNucleusResult) : ∃ s' e free key,
      lfuMapApi s (UInt64.ofNat (2 ^ 31 - 1)) w result =
        .ok (s', { result with op := .hit, cblock := 2 ^ 31 - 1 }) ∧
      s.Step ⟨.cache, 2 ^ 31 - 1⟩ e free key s' ∧ e.allocated = true ∧
      e.oblock = UInt64.ofNat (2 ^ 31 - 1) ∧
      s'.heap.heapArr 0 = some ⟨.cache, 2⟩ ∧ s'.heap.heapArr (2 ^ 31 - 1) = some ⟨.cache, 0⟩ ∧
      s'.heap.size = 2 ^ 31 := by
  obtain ⟨t, ht, hi, hb, hsize, hitem, hrank, hlast, hmap⟩ := h.touch_last hc
  have hlow : ∀ i < 2 ^ 31 - 1, t.rank ⟨.cache, i⟩ < t.rank ⟨.cache, 2 ^ 31 - 1⟩ := by
    intro i hlt
    rw [hrank i hlt, hlast, Prod.Lex.toLex_lt_toLex]
    exact Or.inl Nat.one_lt_two
  have hright : t.rank ⟨.cache, 2⟩ < t.rank ⟨.cache, 1⟩ := by
    rw [hrank 2 (by omega), hrank 1 (by omega), Prod.Lex.toLex_lt_toLex]
    exact Or.inr ⟨rfl, by decide⟩
  have hlevel : ∀ j, 2 < j → j < 2 ^ 31 - 1 → t.heap.rankAt t.rank j = toLex (1, 2) := by
    intro j hj hlt
    rw [rankAt_some (hitem j (by omega)), hrank j hlt, lateTimes, if_neg (by omega),
      if_neg (by omega)]
  obtain ⟨heap', hrun, h0, hbottom⟩ := hi.placed.sinks_right hb.compares hsize
    (hitem _ (by omega)) (hitem 0 (by omega)) (hitem 1 (by omega)) (hitem 2 (by omega))
    (hlow 0 (by omega)) hright (hlow 1 (by omega)) hlevel (by
      rw [hlast, Prod.Lex.toLex_lt_toLex]
      exact Or.inl Nat.one_lt_two)
  obtain ⟨heap1, hrun1, hr⟩ := (hi.placed.heapify (2 ^ 31 - 1)).resolve_left fun hx =>
    nomatch hx.1.symm.trans hrun
  obtain rfl := Except.ok.inj (hrun.symm.trans hrun1)
  have hres : lfuMapApi s (UInt64.ofNat (2 ^ 31 - 1)) w result = .ok
      ({ nucleus := dirtyWork t.nucleus.incHits.incIos (UInt64.ofNat (2 ^ 31 - 1)) w,
         heap := heap' }, { result with op := .hit, cblock := 2 ^ 31 - 1 }) := by
    rw [hmap, hrun]
    rfl
  have hl := h.lookup hc.inv (by omega : 2 ^ 31 - 1 < 2 ^ 31)
  have hcase := lfuMapApi_case hc.inv (UInt64.ofNat (2 ^ 31 - 1)) w result
  rw [hres] at hcase
  cases hcase with
  | hit hl' hs =>
    obtain ⟨_, ha, ho⟩ := hc.inv.lookup hl
    exact ⟨_, _, _, _, hres, hs, ha, ho, h0, hbottom, hr.size.trans hsize⟩

/-- A heap in order has a least item at the root. -/
theorem Correct.root_le {lt : LfuTransaction} {a b : EntryRef} (h : s.Correct lt g) (hi : s.Inv)
    (ha : s.heap.heapArr 0 = some a) (hb : s.heap.Mem b) : s.rank a ≤ s.rank b := by
  have ho : s.heap.Ordered s.rank := by
    intro i hpos hlt
    have hup := Lib.above_lt hpos
    obtain ⟨p, hp, _⟩ := hi.placed (Lib.above i) (hup.trans hlt)
    obtain ⟨x, hx, _⟩ := hi.placed i hlt
    rw [rankAt_some hp, rankAt_some hx]
    exact WithTop.coe_le_coe.mpr (h.order i p x hpos hlt hp hx)
  refine ho.min ?_ hb
  rw [heapMin, if_neg (Nat.ne_zero_of_lt hb.1)]
  exact ha

/-- The state after the hit: all blocks are as they came in but the last one, and the block 2 is
at the root, the block 0 at the bottom. -/
structure Upset (s : LfuPolicy) (g : LfuAccesses) : Prop where
  inv : s.Inv
  size : s.heap.size = 2 ^ 31
  root : s.heap.heapArr 0 = some ⟨.cache, 2⟩
  bottom : s.heap.heapArr (2 ^ 31 - 1) = some ⟨.cache, 0⟩
  rank_two : s.rank ⟨.cache, 2⟩ = toLex (1, 1)
  rank_zero : s.rank ⟨.cache, 0⟩ = toLex (1, 0)
  block_two : (s.nucleus.entry ⟨.cache, 2⟩).oblock = 2
  block_zero : (s.nucleus.entry ⟨.cache, 0⟩).oblock = 0
  seen_two : toLex (g.count 2, g.last 2) = toLex (1, 1)
  seen_zero : toLex (g.count 0, g.last 0) = toLex (1, 0)
  known : ∀ r, (s.nucleus.entry r).allocated = true →
    (s.nucleus.entry r).oblock.toNat < 2 ^ 31
  used : ∀ i < 2 ^ 31, (s.nucleus.entry ⟨.cache, i⟩).allocated = true

theorem Upset.incorrect {lt : LfuTransaction} (h : s.Upset g) : ¬s.Correct lt g := by
  intro hcorrect
  have hmem := (h.inv.placed.mem (by rw [h.size]; omega) h.bottom).1
  have hle := hcorrect.root_le h.inv h.root hmem
  rw [h.rank_two, h.rank_zero, Prod.Lex.toLex_le_toLex] at hle
  omega

/-- Preloads at late times and the hit lead there. -/
theorem Upset.exists_run (lt : LfuTransaction) (hinit : lfuCreate c m = .ok s0)
    (hbig : 2 ^ 31 ≤ c.toNat) : ∃ t s g, (lfuObserved lt).Run (s0, {}) t (s, g) ∧ s.Upset g ∧
      (s.nucleus.pool .cache).nrEntries = c.toNat := by
  have htimes : ∀ i, lateTimes i < 2 ^ 31 := by
    intro i
    unfold lateTimes
    split_ifs <;> omega
  obtain ⟨t, s, g, hrun, h, hc, hslots⟩ := Crowd.exists_run lt hinit htimes lateTimes_up hbig
  obtain ⟨s', e, free, key, hmap, hs, ha, ho, h0, hbottom, hsize⟩ := h.misplaced hc false {}
  have hlast := h.lookup hc.inv (by omega : 2 ^ 31 - 1 < 2 ^ 31)
  have hg : (lfuObserved lt).guard (s, g) (.map (UInt64.ofNat (2 ^ 31 - 1)) false {}) := by
    intro r hr
    obtain rfl := Option.some.inj (hlast.symm.trans hr)
    have hkey : (s.heap.head ⟨.cache, 2 ^ 31 - 1⟩).key = 1 :=
      congrArg (fun p => (ofLex p).1) (h.rank _ (by omega))
    rw [hkey]
    decide
  have hstep : (lfuObserved lt).step (s, g) (.map (UInt64.ofNat (2 ^ 31 - 1)) false {}) = .ok
      ((s', g.access (UInt64.ofNat (2 ^ 31 - 1)) (g.count (UInt64.ofNat (2 ^ 31 - 1)) + 1)),
        some { op := .hit, cblock := 2 ^ 31 - 1 }) :=
    Lib.System.ghost_step.mpr ⟨Policy.call_map.mpr ⟨_, rfl, hmap⟩, rfl⟩
  have hseen : ∀ i, i < 2 ^ 31 - 1 → toLex (g.count (UInt64.ofNat i), g.last (UInt64.ofNat i)) =
      toLex (1, lateTimes i) := by
    intro i hi
    have hused := ((hc.inv.mem_heap _).mp (h.mem hc.inv (by omega : i < 2 ^ 31)).1).1
    have hrank := hc.rank _ hused
    rw [h.block i (by omega), h.rank i (by omega)] at hrank
    exact hrank.symm
  refine ⟨_, s', _, hrun.snoc hg hstep, ?_, (hs.rewrites.nrEntries _).trans hslots⟩
  constructor
  · exact hs.inv
  · exact hsize
  · exact h0
  · exact hbottom
  · rw [hs.rank_of_ne (cache_ne (by omega)), h.rank 2 (by omega)]
    rfl
  · rw [hs.rank_of_ne (cache_ne (by omega)), h.rank 0 (by omega)]
    rfl
  · rw [hs.rewrites.entry_of_ne (cache_ne (by omega)), h.block 2 (by omega)]
    rfl
  · rw [hs.rewrites.entry_of_ne (cache_ne (by omega)), h.block 0 (by omega)]
    rfl
  · exact hseen 2 (by omega)
  · exact hseen 0 (by omega)
  · intro r har
    by_cases hr : r = ⟨.cache, 2 ^ 31 - 1⟩
    · rw [hr, hs.rewrites.entry_self, ho]
      decide
    · rw [hs.rewrites.entry_of_ne hr] at har ⊢
      exact h.toNat_oblock_lt hc.inv har
  · intro i hi
    by_cases hlt : i = 2 ^ 31 - 1
    · rw [hlt, hs.rewrites.entry_self]
      exact ha
    · rw [hs.rewrites.entry_of_ne (cache_ne hlt)]
      exact ((hc.inv.mem_heap _).mp (h.mem hc.inv hi).1).1

end LfuPolicy

open LfuPolicy

/-- LFU under any interleaving of the calls a caller may make while keys and times stay
below `2 ^ 31`: no such call faults, the array lists the settled entries, each where its
index says, in the order of keys and times, and a replacement evicts a settled block with
the fewest accesses since it came in, the least recently accessed one among these. It is so in
every run exactly if there are fewer than `2 ^ 31` slots. -/
theorem lfu_evicts_least_accessed (lt : LfuTransaction) (c m : UInt32) :
    (∀ s0 s g t, lfuCreate c m = .ok s0 → (lfuObserved lt).Run (s0, {}) t (s, g) →
      s.Correct lt g) ↔ c.toNat < 2 ^ 31 := by
  constructor
  · intro hall
    by_contra hbig
    obtain ⟨s0, hinit⟩ : ∃ s0, lfuCreate c m = .ok s0 := ⟨_, lfuInit_eq c⟩
    obtain ⟨t, s, g, hrun, hupset, _⟩ := Upset.exists_run lt hinit (not_lt.mp hbig)
    exact hupset.incorrect (hall s0 s g t hinit hrun)
  · intro hsmall s0 s g t hinit hrun
    have hslots := (lfuInit_spec hinit).2.1
    obtain ⟨h, hs⟩ := (Counted.of_init hinit).of_run (hslots.trans_lt hsmall) hrun
    exact h.correct (h.inv.heap_size_le.trans_lt hs)

/-- With `2 ^ 31` slots the block 2 is evicted, accessed once at the time 1, and the block 0 stays,
accessed once at the time 0. -/
theorem lfu_evicts_another : ∃ s0 s g t s' res, lfuCreate 0x80000000 0 = .ok s0 ∧
    (lfuObserved (lfuTransactionInit 0)).Run (s0, {}) t (s, g) ∧
    lfuMapApi s 0x80000000 false {} = .ok (s', res) ∧ res.op = .replace ∧ res.oldOblock = 2 ∧
    toLex (g.count 2, g.last 2) = toLex (1, 1) ∧ s.nucleus.Caches 0 0 ∧ ¬s.nucleus.Migrating 0 ∧
    toLex (g.count 0, g.last 0) = toLex (1, 0) ∧ ¬s.Correct (lfuTransactionInit 0) g := by
  obtain ⟨s0, hinit⟩ : ∃ s0, lfuCreate 0x80000000 0 = .ok s0 := ⟨_, lfuInit_eq 0x80000000⟩
  obtain ⟨t, s, g, hrun, h, hslots⟩ := Upset.exists_run (lfuTransactionInit 0) hinit (by decide)
  have hsize := h.size
  have hmem := (h.inv.placed.mem (by omega) h.bottom).1
  obtain ⟨hused, hset⟩ := (h.inv.mem_heap _).mp hmem
  have habs : s.nucleus.Absent 0x80000000 := by
    intro r ha hr
    have hlt := h.known r ha
    rw [hr] at hlt
    exact absurd hlt (by decide)
  have hfull : (s.nucleus.pool .cache).free = [] := by
    refine List.eq_nil_iff_forall_not_mem.mpr fun i hi => ?_
    obtain ⟨hlt, hfree⟩ := (h.inv.wf.mem_free (r := ⟨.cache, i⟩)).mp hi
    rw [hslots] at hlt
    rw [h.used i hlt] at hfree
    cases hfree
  -- the request evicts the root
  obtain ⟨s', res, hmap, hop, hold⟩ : ∃ s' res, lfuMapApi s 0x80000000 false {} = .ok (s', res) ∧
      res.op = .replace ∧ res.oldOblock = 2 := by
    have hcase := lfuMapApi_case h.inv 0x80000000 false {}
    generalize lfuMapApi s 0x80000000 false {} = x at hcase ⊢
    cases hcase with
    | hit hl hs => rw [h.inv.wf.hashLookup_eq_none.mpr habs] at hl; cases hl
    | new _ hf hs => rw [hfull] at hf; cases hf
    | replace _ hf hm hmem hs =>
      rw [heapMin, if_neg (by omega), h.root] at hm
      obtain rfl := congrArg EntryRef.index (Option.some.inj hm)
      exact ⟨_, _, rfl, rfl, h.block_two⟩
    | fail _ hf hz => omega
    | stuck hbig hevict =>
      have := hevict habs
      omega
  refine ⟨s0, s, g, t, s', res, hinit, hrun, hmap, hop, hold, h.seen_two, ⟨hused, h.block_zero⟩,
    ?_, h.seen_zero, h.incorrect⟩
  simp [CacheNucleus.Migrating, hset]

/-- Block 5 is hit while it migrates, so block 6 is the one to go. -/
theorem lfu_evicts_least_accessed_hit : ∃ s0 s g t s' res, lfuCreate 2 0 = .ok s0 ∧
    (lfuObserved (lfuTransactionInit 0)).Run (s0, {}) t (s, g) ∧
    t.map Prod.fst =
      [.map 5 true {}, .map 6 false {}, .setTime 3, .map 5 false {}, .migrated 5, .migrated 6] ∧
    lfuMapApi s 7 false {} = .ok (s', res) ∧ res.op = .replace ∧ res.oldOblock = 6 ∧
    ∀ a b, s.nucleus.Caches a b → ¬s.nucleus.Migrating b →
      toLex (g.count 6, g.last 6) ≤ toLex (g.count a, g.last a) := by
  have hinit := lfuInit_eq 2
  generalize hs0 : ({ nucleus := _, heap := _ } : LfuPolicy) = s0 at hinit
  have hadm : (lfuObserved (lfuTransactionInit 0)).Admits (s0, {})
      [.map 5 true {}, .map 6 false {}, .setTime 3, .map 5 false {}, .migrated 5,
        .migrated 6] := by
    subst hs0
    refine And.intro ?_ (And.intro ?_ (And.intro ?_ (And.intro ?_ (And.intro ?_
      (And.intro ?_ trivial)))))
    · intro r hr
      cases hr
    · intro r hr
      cases hr
    · show 3 < 2 ^ 31
      decide
    · intro r hr
      obtain rfl : ⟨.cache, 1⟩ = r := Option.some.inj hr
      show 1 + 1 < 2 ^ 31
      decide
    · exact ⟨1, ⟨rfl, rfl⟩, rfl⟩
    · exact ⟨0, ⟨rfl, rfl⟩, rfl⟩
  obtain ⟨p, ws, hexec, hmap⟩ : ∃ p ws, (lfuObserved (lfuTransactionInit 0)).exec (s0, {})
      [.map 5 true {}, .map 6 false {}, .setTime 3, .map 5 false {}, .migrated 5, .migrated 6] =
        .ok (p, ws) ∧ ws.length = 6 ∧ ∃ s' res, lfuMapApi p.1 7 false {} = .ok (s', res) ∧
          res.op = .replace ∧ res.oldOblock = 6 := by
    subst hs0
    exact ⟨_, _, rfl, rfl, _, _, rfl, rfl, rfl⟩
  obtain ⟨hlen, s', res, hmap, hop, hold⟩ := hmap
  have hrun := Lib.System.Run.of_exec hadm hexec
  have h := (lfu_evicts_least_accessed (lfuTransactionInit 0) 2 0).mpr (by decide) _ _ _ _ hinit
    hrun
  obtain ⟨cb, _, _, _, hmin⟩ := h.victims 7 false {} s' res hmap hop
  rw [hold] at hmin
  refine ⟨_, _, _, _, s', res, hinit, hrun, ?_, hmap, hop, hold, hmin⟩
  exact List.map_fst_zip (Nat.le_of_eq hlen.symm)

end Fomo
