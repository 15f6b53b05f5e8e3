import Fomo.Algs.LfuSteps
import Fomo.Include.HeapOrder
import Mathlib.Data.Prod.Lex

/-!
# The heap order of LFU

While keys and times stay below `2 ^ 31` the comparison of LFU is that of pairs of key
and time, and with fewer than `2 ^ 31` items every call leaves the heap in this order: a
settled hit only raises the rank of its entry, a migrating entry is outside the heap.
-/
namespace Fomo

open Heap

namespace LfuPolicy

/-- Fewer accesses first, then older ones. -/
def rank (s : LfuPolicy) (r : EntryRef) : ℕ ×ₗ ℕ :=
  toLex ((s.heap.head r).key, (s.nucleus.entry r).time)

/-- Keys and times that unsigned differences tell apart. -/
structure Below (s : LfuPolicy) : Prop where
  key : ∀ r, (s.heap.head r).key < 2 ^ 31
  time : ∀ r, (s.nucleus.entry r).time < 2 ^ 31
  now : s.nucleus.time < 2 ^ 31

variable {s s' s'' : LfuPolicy} {r : EntryRef} {o : Oblock} {e : Entry} {free : List Nat}
  {key : Nat} {result res : CacheNucleusResult}

theorem Step.below (hs : s.Step r e free key s') (h : s.Below) (hkey : key < 2 ^ 31)
    (htime : e.time < 2 ^ 31) : s'.Below where
  key := fun x => by
    rw [hs.key]
    split
    · exact hkey
    · exact h.key x
  time := fun x => by
    by_cases hx : x = r
    · subst hx
      rw [hs.rewrites.entry_self]
      exact htime
    · rw [hs.rewrites.entry_of_ne hx]
      exact h.time x
  now := by
    rw [hs.rewrites.time]
    exact h.now

theorem Step.rank_of_ne (hs : s.Step r e free key s') {x : EntryRef} (hx : x ≠ r) :
    s'.rank x = s.rank x := by
  rw [rank, rank, hs.key, if_neg hx, hs.rewrites.entry_of_ne hx]

theorem Step.rank_self (hs : s.Step r e free key s') : s'.rank r = toLex (key, e.time) := by
  rw [rank, hs.key, if_pos rfl, hs.rewrites.entry_self]

/-- A step on an entry outside the heap does not touch the order. -/
theorem Step.ordered (hs : s.Step r e free key s') (hout : ¬s'.heap.Mem r)
    (ho : s'.heap.Ordered s.rank) : s'.heap.Ordered s'.rank := by
  refine hs.inv.placed.ordered_congr ho fun x hx => hs.rank_of_ne ?_
  rintro rfl
  exact hout hx

theorem Step.not_mem (hs : s.Step r e free key s')
    (h : e.allocated = false ∨ e.migrating = true) : ¬s'.heap.Mem r := by
  rw [hs.inv.mem_heap, hs.rewrites.entry_self]
  rintro ⟨ha, hm⟩
  rcases h with h | h
  · rw [h] at ha
    cases ha
  · rw [h] at hm
    cases hm

end LfuPolicy

open LfuPolicy

variable {s s' : LfuPolicy} {r : EntryRef} {o : Oblock} {w : Bool}
  {result res : CacheNucleusResult}

/-! ## The comparison -/

theorem diff32_neg {a b : Nat} (ha : a < 2 ^ 31) (hb : b < 2 ^ 31) : diff32 a b < 0 ↔ a < b := by
  unfold diff32 Int.bmod
  dsimp only
  split
  · omega
  · omega

/-- `lfu_compare` on small keys and times. -/
theorem lfuCompare_neg {cn : CacheNucleus} {head : EntryRef → HeapHead} {a b : EntryRef}
    (hk : ∀ x, (head x).key < 2 ^ 31) (ht : ∀ x, (cn.entry x).time < 2 ^ 31) :
    lfuCompare cn head a b < 0 ↔
      toLex ((head a).key, (cn.entry a).time) < toLex ((head b).key, (cn.entry b).time) := by
  rw [Prod.Lex.toLex_lt_toLex, lfuCompare]
  by_cases heq : (head a).key = (head b).key
  · rw [if_pos heq, diff32_neg (ht a) (ht b)]
    simp [heq]
  · rw [if_neg heq, diff32_neg (hk a) (hk b)]
    simp [heq]

theorem LfuPolicy.Below.compares (h : s.Below) : s.heap.Compares (lfuCompare s.nucleus) s.rank := by
  intro head hhead a b
  rw [lfuCompare_neg (fun x => by rw [hhead]; exact h.key x) h.time, hhead, hhead]
  exact Iff.rfl

/-! ## What the calls leave of the order -/

/-- An entry leaves the heap, or was not in it. -/
theorem lfuRemoveEntry_ordered (h : s.Inv) (hsmall : s.heap.size < 2 ^ 31) (hb : s.Below)
    (ho : s.heap.Ordered s.rank) (ha : (s.nucleus.entry r).allocated = true)
    (hrun : lfuRemoveEntry s r = .ok s') : s'.heap.Ordered s.rank := by
  unfold lfuRemoveEntry at hrun
  split at hrun
  · simp only [ok_bind] at hrun
    obtain ⟨cn, _, hrun⟩ := bind_eq_ok.mp hrun
    obtain rfl := Except.ok.inj hrun
    exact ho
  · next hm =>
    simp only [ok_bind] at hrun
    obtain ⟨heap', hdel, hrun⟩ := bind_eq_ok.mp hrun
    obtain ⟨cn, _, hrun⟩ := bind_eq_ok.mp hrun
    obtain rfl := Except.ok.inj hrun
    have hmem := (h.mem_heap r).mpr ⟨ha, by simpa using hm⟩
    exact h.placed.delete_ordered hmem hsmall.le hb.compares ho hdel

/-- A hit on a settled entry sifts it down. -/
theorem lfuHit_ordered (h : s.Inv) (hsmall : s.heap.size < 2 ^ 31) (hb : s.Below)
    (ho : s.heap.Ordered s.rank) (hl : hashLookup s.nucleus o = some r)
    (hkey : (s.heap.head r).key + 1 < 2 ^ 31) (hrun : lfuHit s o result = .ok (s', res)) :
    s'.heap.Ordered (s.touch r ((s.heap.head r).key + 1)).rank := by
  unfold lfuHit at hrun
  rw [hl, deref_some, ok_bind, u32_of_lt (by omega)] at hrun
  obtain ⟨cb, _, hrun⟩ := bind_eq_ok.mp hrun
  obtain ⟨s1, hheap, hrun⟩ := bind_eq_ok.mp hrun
  obtain ⟨rfl, _⟩ := Prod.mk.inj (Except.ok.inj hrun)
  have hs := h.touch r ((s.heap.head r).key + 1)
  have hle : s.rank r ≤ (s.touch r ((s.heap.head r).key + 1)).rank r := by
    rw [hs.rank_self, rank]
    apply le_of_lt
    rw [Prod.Lex.toLex_lt_toLex]
    exact Or.inl (Nat.lt_succ_self _)
  have hb' := hs.below hb hkey hb.now
  -- the places of the items are those of before
  have ho' : (s.touch r ((s.heap.head r).key + 1)).heap.Ordered s.rank := ho
  have hsize : (s.touch r ((s.heap.head r).key + 1)).heap.size < 2 ^ 31 := hsmall
  generalize s.touch r ((s.heap.head r).key + 1) = t at *
  unfold lfuHeapify at hheap
  split at hheap
  · next hm =>
    obtain rfl := Except.ok.inj hheap
    exact hs.ordered (hs.not_mem (Or.inr (by rw [← hs.rewrites.entry_self]; exact hm))) ho'
  · next hm =>
    obtain ⟨heap', hrun', hheap⟩ := bind_eq_ok.mp hheap
    obtain rfl := Except.ok.inj hheap
    have hmem : t.heap.Mem r := by
      rw [hs.inv.mem_heap]
      refine ⟨?_, by simpa using hm⟩
      rw [hs.rewrites.entry_self]
      exact (h.lookup hl).2.1
    refine hs.inv.placed.heapify_ordered hsize hb'.compares ?_ hrun'
    exact hs.inv.placed.raise ho' hmem hle fun x hx => hs.rank_of_ne hx

/-- An admitted block migrates: it is not in the heap yet. -/
theorem lfuInsert_ordered {β : Type} [LinearOrder β] {rank : EntryRef → β}
    (ho : s.heap.Ordered rank) (hrun : lfuInsert s o result = .ok (s', res)) :
    s'.heap.Ordered rank := by
  unfold lfuInsert at hrun
  obtain ⟨x, _, hrun⟩ := bind_eq_ok.mp hrun
  obtain ⟨cn, _, hrun⟩ := bind_eq_ok.mp hrun
  obtain ⟨rfl, _⟩ := Prod.mk.inj (Except.ok.inj hrun)
  exact ho

/-- A miss that is served removes the least entry if it must, then inserts. -/
theorem lfuMapApi_miss (hl : hashLookup s.nucleus o = none)
    (hrun : lfuMapApi s o w result = .ok (s', res)) : s' = s ∨ ∃ x y,
      (x.1 = s ∨ ∃ res1, lfuEvict s res1 = .ok x) ∧ lfuInsert x.1 o x.2 = .ok y ∧
        s'.heap = y.1.heap := by
  have hinsert : ∀ x : LfuPolicy × CacheNucleusResult, (do
      let y ← lfuInsert x.1 o x.2
      let y ← (.ok ({ y.1 with nucleus := y.1.nucleus.incMisses }, y.2) : Exec (LfuPolicy × _))
      .ok ({ y.1 with nucleus := dirtyWork y.1.nucleus.incIos o w }, y.2)) = .ok (s', res) →
      ∃ y, lfuInsert x.1 o x.2 = .ok y ∧ s'.heap = y.1.heap := by
    intro x hx
    obtain ⟨y, hins, hx⟩ := bind_eq_ok.mp hx
    obtain ⟨rfl, _⟩ := Prod.mk.inj (Except.ok.inj hx)
    exact ⟨y, hins, rfl⟩
  simp only [lfuMapApi, lfuTransactionSet, lfuTransactionInit, hl, Option.isSome_none,
    Bool.false_eq_true, if_false, lfuTransactionIsLegal, lfuTransactionCommit, pure_eq_ok,
    ok_bind] at hrun
  by_cases hfull : cacheIsFull s.nucleus = true
  · simp only [hfull, if_true, Bool.false_eq_true, if_false] at hrun
    split at hrun
    · rw [bind_assoc] at hrun
      obtain ⟨x, hev, hrun⟩ := bind_eq_ok.mp hrun
      rw [bind_assoc] at hrun
      obtain ⟨y, hins, hheap⟩ := hinsert x hrun
      exact Or.inr ⟨x, y, Or.inr ⟨_, hev⟩, hins, hheap⟩
    · exact Or.inl (congrArg Prod.fst (Except.ok.inj hrun)).symm
  · simp only [hfull, if_true, Bool.false_eq_true, if_false] at hrun
    rw [bind_assoc] at hrun
    obtain ⟨y, hins, hheap⟩ := hinsert (s, _) hrun
    exact Or.inr ⟨_, y, Or.inl rfl, hins, hheap⟩

/-- A hit is served by `lfuHit`. -/
theorem lfuMapApi_hit (hl : hashLookup s.nucleus o = some r)
    (hrun : lfuMapApi s o w result = .ok (s', res)) :
    ∃ x res1, lfuHit s o res1 = .ok x ∧ s'.heap = x.1.heap := by
  simp only [lfuMapApi, lfuTransactionSet, lfuTransactionInit, hl, Option.isSome_some, if_true,
    Bool.false_eq_true, if_false, lfuTransactionIsLegal, lfuTransactionCommit, pure_eq_ok,
    ok_bind] at hrun
  rw [bind_assoc] at hrun
  obtain ⟨x, hhit, hrun⟩ := bind_eq_ok.mp hrun
  obtain ⟨rfl, _⟩ := Prod.mk.inj (Except.ok.inj hrun)
  exact ⟨x, _, hhit, rfl⟩

/-- A request leaves the heap in order. -/
theorem lfuMapApi_ordered (h : s.Inv) (hsmall : s.heap.size < 2 ^ 31) (hb : s.Below)
    (ho : s.heap.Ordered s.rank)
    (hkey : ∀ r, hashLookup s.nucleus o = some r → (s.heap.head r).key + 1 < 2 ^ 31)
    (hrun : lfuMapApi s o w result = .ok (s', res)) : s'.heap.Ordered s'.rank := by
  have hmiss : hashLookup s.nucleus o = none → s'.heap.Ordered s.rank := by
    intro hl
    rcases lfuMapApi_miss hl hrun with rfl | ⟨x, y, hx, hins, hheap⟩
    · exact ho
    · rw [hheap]
      refine lfuInsert_ordered ?_ hins
      rcases hx with hx | ⟨res1, hev⟩
      · rw [hx]
        exact ho
      · unfold lfuEvict at hev
        obtain ⟨d, hd, hev⟩ := bind_eq_ok.mp hev
        obtain ⟨s1, hrem, hev⟩ := bind_eq_ok.mp hev
        obtain rfl := Except.ok.inj hev
        have hd := deref_eq_ok.mp hd
        have hpos : 0 < s.heap.size := by
          unfold heapMin at hd
          split at hd
          · cases hd
          · omega
        obtain ⟨d', hd', hmem⟩ := h.placed.min hpos
        obtain rfl := Option.some.inj (hd.symm.trans hd')
        exact lfuRemoveEntry_ordered h hsmall hb ho ((h.mem_heap d).mp hmem).1 hrem
  have hcase := lfuMapApi_case h o w result
  rw [hrun] at hcase
  cases hcase with
  | @hit cb s1 hl hs =>
    have hk := hkey _ hl
    obtain ⟨x, res1, hhit, hheap⟩ := lfuMapApi_hit hl hrun
    rw [hheap]
    have hord := lfuHit_ordered h hsmall hb ho hl hk hhit
    have hs1 := h.touch ⟨.cache, cb⟩ ((s.heap.head ⟨.cache, cb⟩).key + 1)
    refine hheap ▸ hs.inv.placed.ordered_congr (hheap ▸ hord) fun y _ => ?_
    by_cases hy : y = ⟨.cache, cb⟩
    · subst hy
      rw [hs.rank_self, hs1.rank_self, u32_of_lt (by omega)]
    · rw [hs.rank_of_ne hy, hs1.rank_of_ne hy]
  | @new cb rest s1 habs hf hs =>
    exact hs.ordered (hs.not_mem (Or.inr rfl)) (hmiss (h.wf.hashLookup_eq_none.mpr habs))
  | @replace cb s1 habs hf hm hmem hs =>
    exact hs.ordered (hs.not_mem (Or.inr rfl)) (hmiss (h.wf.hashLookup_eq_none.mpr habs))
  | fail habs hf hz => exact ho

/-- The comparison sees the times of the nucleus it is given. -/
theorem LfuPolicy.Below.compares_of_times (h : s.Below) {cn : CacheNucleus}
    (ht : ∀ x, (cn.entry x).time = (s.nucleus.entry x).time) :
    s.heap.Compares (lfuCompare cn) s.rank := by
  intro head hhead a b
  rw [lfuCompare_neg (fun x => by rw [hhead]; exact h.key x)
    (fun x => by rw [ht]; exact h.time x), hhead, hhead, ht, ht]
  exact Iff.rfl

/-- An entry comes into the heap when its migration completes. -/
theorem lfuMigratedApi_ordered (h : s.Inv) (hb : s.Below) (ho : s.heap.Ordered s.rank)
    (hl : hashLookup s.nucleus o = some r) (hm : (s.nucleus.entry r).migrating = true)
    (hrun : lfuMigratedApi s o = .ok s') : s'.heap.Ordered s'.rank := by
  obtain ⟨s1, hrun1, hs⟩ := lfuMigratedApi_spec h hl hm
  obtain rfl := Except.ok.inj (hrun1.symm.trans hrun)
  have hsame : ∀ x, s1.rank x = s.rank x := by
    intro x
    by_cases hx : x = r
    · subst hx
      rw [hs.rank_self, rank]
    · exact hs.rank_of_ne hx
  refine hs.inv.placed.ordered_congr ?_ fun x _ => hsame x
  obtain ⟨hp, ha, _⟩ := h.lookup hl
  obtain ⟨rp, cb⟩ := r
  obtain rfl : rp = .cache := hp
  have hni : ¬s.heap.Mem ⟨.cache, cb⟩ := fun hmem => by
    have := ((h.mem_heap _).mp hmem).2
    simp [hm] at this
  obtain ⟨cn, hmig, hrw⟩ := h.wf.migratedCacheEntry rfl hm
  simp only [lfuMigratedApi, hl, hmig, ok_bind] at hrun
  obtain ⟨heap', hins, hrun⟩ := bind_eq_ok.mp hrun
  obtain rfl := Except.ok.inj hrun
  refine h.placed.insert_ordered hni (h.room (h.wf.lt_of_allocated ha) hni)
    (hb.compares_of_times fun x => ?_) ho hins
  by_cases hx : x = ⟨.cache, cb⟩
  · subst hx
    rw [hrw.entry_self]
  · rw [hrw.entry_of_ne hx]

/-- A preloaded entry comes into the heap at once. -/
theorem lfuInsertApi_ordered (h : s.Inv) (hb : s.Below) (ho : s.heap.Ordered s.rank)
    {cb : Cblock} (hcb : cb < (s.nucleus.pool .cache).nrEntries)
    (hfree : (s.nucleus.entry ⟨.cache, cb⟩).allocated = false) (habs : s.nucleus.Absent o)
    (hrun : lfuInsertApi s o cb = .ok s') : s'.heap.Ordered s'.rank := by
  obtain ⟨s1, hrun1, hs⟩ := lfuInsertApi_spec h hcb hfree habs
  obtain rfl := Except.ok.inj (hrun1.symm.trans hrun)
  have hni : ¬s.heap.Mem ⟨.cache, cb⟩ := fun hm => by
    have := ((h.mem_heap _).mp hm).1
    simp [hfree] at this
  obtain ⟨cn, halloc, hrw⟩ := h.wf.allocPoolEntryAt hcb hfree habs
  simp only [lfuInsertApi, insertInCacheAt, halloc, ok_bind] at hrun
  obtain ⟨heap', hins, hrun⟩ := bind_eq_ok.mp hrun
  obtain rfl := Except.ok.inj hrun
  -- the touched entry, still outside the heap
  let t : LfuPolicy := LfuPolicy.touch { s with nucleus := cn } ⟨.cache, cb⟩ 1
  obtain ⟨hp, _, hmem⟩ := h.placed.setKey ⟨.cache, cb⟩ 1
  have hself : (t.heap.head ⟨.cache, cb⟩).key = 1 := by simp [t, LfuPolicy.touch, Heap.setKey]
  have hrank : ∀ x, LfuPolicy.rank { t with heap := heap' } x = t.rank x := by
    intro x
    have hkey := hs.key x
    by_cases hx : x = ⟨.cache, cb⟩
    · subst hx
      rw [if_pos rfl] at hkey
      exact congrArg (fun k => toLex (k, (t.nucleus.entry ⟨.cache, cb⟩).time))
        (hkey.trans hself.symm)
    · rw [if_neg hx] at hkey
      refine congrArg (fun k => toLex (k, (t.nucleus.entry x).time)) (hkey.trans ?_)
      simp [t, LfuPolicy.touch, Heap.setKey, hx]
  have hb' := hs.below hb (by decide) hb.now
  have hf : t.heap.Compares (lfuCompare t.nucleus) t.rank := by
    intro head hhead a b
    have hk : ∀ x, (head x).key < 2 ^ 31 := by
      intro x
      rw [hhead, ← show _ = (t.heap.head x).key from congrArg (fun p => (ofLex p).1) (hrank x)]
      exact hb'.key x
    rw [lfuCompare_neg hk hb'.time, hhead, hhead]
    exact Iff.rfl
  have hot : t.heap.Ordered t.rank := by
    refine hp.ordered_congr (show s.heap.Ordered s.rank from ho) fun x hx => ?_
    have hne : x ≠ ⟨.cache, cb⟩ := by
      rintro rfl
      exact hni ((hmem _).mp hx)
    rw [← hrank x]
    exact hs.rank_of_ne hne
  rw [funext hrank]
  refine hp.insert_ordered (fun hm => hni ((hmem _).mp hm)) (h.room hcb hni) hf hot ?_
  rw [show ((s.heap.setKey ⟨.cache, cb⟩ 1).head ⟨.cache, cb⟩).key = 1 from hself]
  exact hins

/-- A rollback takes the entry out of the heap. -/
theorem lfuRemoveApi_ordered (h : s.Inv) (hsmall : s.heap.size < 2 ^ 31) (hb : s.Below)
    (ho : s.heap.Ordered s.rank) (hl : hashLookup s.nucleus o = some r) (keep : Bool)
    (hrun : lfuRemoveApi s o keep = .ok s') : s'.heap.Ordered s'.rank := by
  obtain ⟨s1, hrun1, hs⟩ := lfuRemoveApi_returns h hsmall hl keep
  obtain rfl := Except.ok.inj (hrun1.symm.trans hrun)
  unfold lfuRemoveApi at hrun
  rw [hl, deref_some, ok_bind] at hrun
  exact hs.ordered (hs.not_mem (Or.inl rfl))
    (lfuRemoveEntry_ordered h hsmall hb ho (h.lookup hl).2.1 hrun)

end Fomo
