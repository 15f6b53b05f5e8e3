import Fomo.Sim.SimHoardSteps

/-!
# Runs of the hoard tracker

The queue of the tracker is `2 * cache_size` long and its pool has `3 * cache_size + 1` entries,
both computed as `unsigned`.
-/
namespace Fomo

open Lib (mostRecent)

namespace HoardTracker

variable {h h' h0 : HoardTracker} {cached : Finset Oblock} {freq : Oblock → Nat}
  {recent : List Oblock} {t : List HoardAccess} {a : HoardAccess} {n w k : Nat}

/-- One update: the access goes through the cache, and to the end of the queue. -/
theorem Holds.update (H : h.Holds cached freq recent) (hs : Serves n cached a)
    (hroom : (cached ∪ recent.toFinset).card < h.entryPool.nrEntries) :
    ∃ h', hoardTrackerUpdate h a.1 a.2 = .ok h' ∧ h.SameSizes h' ∧
      h'.Holds (cachedStep cached a) (freqStep freq a)
        (Lib.trim (u32 (2 * h.cacheSize)) (recent.erase a.1 ++ [a.1])) := by
  obtain ⟨o, result⟩ := a
  -- what an operation leaves is trimmed
  have hfinish : ∀ {h1 : HoardTracker} {cached' : Finset Oblock} {freq' : Oblock → Nat},
      h.SameSizes h1 → h1.Holds cached' freq' (recent.erase o ++ [o]) →
      ∃ h', hoardTrackerTrim h1 = .ok h' ∧ h.SameSizes h' ∧
        h'.Holds cached' freq' (Lib.trim (u32 (2 * h.cacheSize)) (recent.erase o ++ [o])) := by
    intro h1 cached' freq' hsize H1
    obtain ⟨h', hrun, hsize', H'⟩ := H1.trim
    rw [hsize.cacheSize] at H'
    exact ⟨h', hrun, hsize.trans hsize', H'⟩
  unfold Serves at hs
  unfold hoardTrackerUpdate cachedStep freqStep
  dsimp only at hs ⊢
  cases hop : result.op with
  | hit =>
    rw [hop] at hs
    obtain ⟨h1, hrun, hsize, H1⟩ := H.hit hs
    obtain ⟨h', htrim, hend⟩ := hfinish hsize H1
    exact ⟨h', by simp only [hrun, ok_bind, htrim], hend⟩
  | filter =>
    rw [hop] at hs
    obtain ⟨h1, hrun, hsize, H1⟩ := H.filter hs hroom
    obtain ⟨h', htrim, hend⟩ := hfinish hsize H1
    exact ⟨h', by simp only [hrun, ok_bind, htrim], hend⟩
  | fail =>
    rw [hop] at hs
    obtain ⟨h1, hrun, hsize, H1⟩ := H.filter hs hroom
    obtain ⟨h', htrim, hend⟩ := hfinish hsize H1
    exact ⟨h', by simp only [hrun, ok_bind, htrim], hend⟩
  | new =>
    rw [hop] at hs
    obtain ⟨h1, hrun, hsize, H1⟩ := H.enter hs.1 hroom
    obtain ⟨h', htrim, hend⟩ := hfinish hsize H1
    exact ⟨h', by simp only [hrun, ok_bind, htrim], hend⟩
  | replace =>
    rw [hop] at hs
    obtain ⟨hno, hold⟩ := hs
    obtain ⟨h0, hevict, hsize0, H0, hlookup⟩ := H.evict hold
    have hne : o ≠ result.oldOblock := fun heq => hno (heq ▸ hold)
    have hno0 : o ∉ cached.erase result.oldOblock := fun hmem => hno (Finset.mem_of_mem_erase hmem)
    have hroom0 : (cached.erase result.oldOblock ∪ recent.toFinset).card <
        h0.entryPool.nrEntries := by
      rw [hsize0.nrEntries]
      exact (Finset.card_le_card (Finset.union_subset_union_left
        (Finset.erase_subset ..))).trans_lt hroom
    obtain ⟨h1, hrun, hsize, H1⟩ := H0.enter hno0 hroom0
    rw [hlookup o hne] at hrun
    obtain ⟨h', htrim, hend⟩ := hfinish (hsize0.trans hsize) H1
    exact ⟨h', by simp only [hevict, hrun, ok_bind, htrim], hend⟩

/-- The tracker after the accesses `t`, with a queue of `w` entries and a pool of `k`. -/
structure Follows (w k : Nat) (t : List HoardAccess) (h : HoardTracker) : Prop where
  holds : h.Holds (hoardCached t) (hoardFreq t) (mostRecent w (t.map Prod.fst))
  queue : u32 (2 * h.cacheSize) = w
  pool : h.entryPool.nrEntries = k

theorem hoardCached_concat (t : List HoardAccess) (a : HoardAccess) :
    hoardCached (t ++ [a]) = cachedStep (hoardCached t) a := by
  rw [hoardCached, List.foldl_concat]
  rfl

theorem hoardFreq_concat (t : List HoardAccess) (a : HoardAccess) :
    hoardFreq (t ++ [a]) = freqStep (hoardFreq t) a := by
  rw [hoardFreq, List.foldl_concat]
  rfl

theorem hoardRun_concat (hrun : hoardRun h0 t = .ok h)
    (hstep : hoardTrackerUpdate h a.1 a.2 = .ok h') : hoardRun h0 (t ++ [a]) = .ok h' := by
  rw [hoardRun, List.foldlM_append]
  show hoardRun h0 t >>= _ = _
  rw [hrun, ok_bind, List.foldlM_cons, hstep, ok_bind]
  rfl

theorem Follows.step (H : h.Follows w k t) (hs : Serves n (hoardCached t) a)
    (hroom : (hoardCached t ∪ (mostRecent w (t.map Prod.fst)).toFinset).card < k) :
    ∃ h', hoardTrackerUpdate h a.1 a.2 = .ok h' ∧ h'.Follows w k (t ++ [a]) := by
  obtain ⟨h', hrun, hsize, H'⟩ := H.holds.update hs (by rw [H.pool]; exact hroom)
  refine ⟨h', hrun, ?_, by rw [hsize.cacheSize]; exact H.queue, hsize.nrEntries.trans H.pool⟩
  rw [hoardCached_concat, hoardFreq_concat, List.map_append, List.map_singleton,
    Lib.mostRecent_concat_trim]
  rw [H.queue] at H'
  exact H'

theorem Consistent.card_le (hc : Consistent n t) : (hoardCached t).card ≤ n := by
  induction hc with
  | nil => exact Nat.zero_le n
  | @snoc t a _ hs ih =>
    rw [hoardCached_concat]
    unfold Serves at hs
    unfold cachedStep
    cases hop : a.2.op with
    | hit => exact ih
    | filter => exact ih
    | fail => exact ih
    | new =>
      rw [hop] at hs
      exact (Finset.card_insert_le ..).trans hs.2
    | replace =>
      rw [hop] at hs
      have hcard := Finset.card_erase_add_one hs.2
      have hle := Finset.card_insert_le a.1 ((hoardCached t).erase a.2.oldOblock)
      exact hle.trans (hcard.le.trans ih)

/-- A pool with one entry more than the cache and the queue need is never exhausted. -/
theorem Follows.run (H0 : h0.Follows w k []) (hroom : n + w < k) (hc : Consistent n t) :
    ∃ h, hoardRun h0 t = .ok h ∧ h.Follows w k t := by
  induction hc with
  | nil => exact ⟨h0, rfl, H0⟩
  | @snoc t a hc hs ih =>
    obtain ⟨h, hrun, H⟩ := ih
    have hcard := Consistent.card_le hc
    have hrecent := List.toFinset_card_le (mostRecent w (t.map Prod.fst))
    have hlen := Lib.length_mostRecent w (t.map Prod.fst)
    have hunion := Finset.card_union_le (hoardCached t) (mostRecent w (t.map Prod.fst)).toFinset
    obtain ⟨h', hstep, H'⟩ := H.step hs (by omega)
    exact ⟨h', hoardRun_concat hrun hstep, H'⟩

theorem init_follows (n : UInt32) : ∃ h0, hoardTrackerInit n = .ok h0 ∧
    h0.Follows (u32 (2 * n.toNat)) (u32 (3 * n.toNat + 1)) [] := by
  have hinit : hoardTrackerInit n = .ok {
      ht := []
      entryPool := freshPool (u32 (3 * n.toNat + 1))
      q := []
      freq := fun _ => 0
      inCache := fun _ => false
      count := 0
      cacheSize := n.toNat } := by
    rw [hoardTrackerInit, epoolInit_create (u32_lt _)]
    rfl
  have hnil : mostRecent (u32 (2 * n.toNat)) (([] : List HoardAccess).map Prod.fst) = [] := by
    simp [mostRecent, List.rtake]
  refine ⟨_, hinit, ?_, rfl, rfl⟩
  rw [hnil]
  refine ⟨⟨freshPool_wf (u32_lt _), List.nodup_nil, fun i => ?_, fun i hi => ?_, fun o => ?_⟩,
    rfl, fun i hi => ?_, List.nodup_nil, fun i hi => ?_, fun i hi => ?_, rfl⟩
  · simp [freshPool]
  · cases hi
  · simp [hoardCached]
  · cases hi
  · cases hi
  · cases hi

/-- The number of entries in use. -/
theorem Follows.nrAllocated (H : h.Follows w k t) : h.entryPool.nrAllocated =
    (hoardCached t ∪ (mostRecent w (t.map Prod.fst)).toFinset).card :=
  H.holds.table.card_eq.symm

end HoardTracker

open HoardTracker

/-- What the tracker of a cache of `n` entries says after the accesses `t`. -/
structure HoardExact (n : Nat) (t : List HoardAccess) (h : HoardTracker) : Prop where
  count : h.count =
    (hoarded (hoardCached t) (hoardFreq t) (mostRecent (2 * n) (t.map Prod.fst))).card
  tracked : ∀ o, (hoardLookup h o).isSome = true ↔
    o ∈ hoardCached t ∨ o ∈ mostRecent (2 * n) (t.map Prod.fst)
  allocated : h.entryPool.nrAllocated =
    (hoardCached t ∪ (mostRecent (2 * n) (t.map Prod.fst)).toFinset).card

variable {h h0 : HoardTracker} {t : List HoardAccess} {n w k m : Nat}

theorem HoardTracker.Follows.exact (H : h.Follows (2 * n) k t) : HoardExact n t h where
  count := H.holds.count_eq
  tracked := fun o => by
    rw [← List.mem_toFinset, ← Finset.mem_union]
    cases hl : hoardLookup h o with
    | none => simp [H.holds.table.lookup_eq_none.mp hl]
    | some i =>
      obtain ⟨hi, ho⟩ := H.holds.table.lookup_eq_some.mp hl
      exact iff_of_true rfl ((H.holds.table.tracked o).mpr ⟨i, hi, ho⟩)
  allocated := H.nrAllocated

/-! ## Where the sizes wrap -/

/-- The first `k` blocks, none of which is let into the cache. -/
def filtered (k : Nat) : List HoardAccess :=
  (List.range k).map fun i => (UInt64.ofNat i, { op := .filter })

theorem filtered_succ (k : Nat) :
    filtered (k + 1) = filtered k ++ [(UInt64.ofNat k, { op := .filter })] := by
  rw [filtered, List.range_succ, List.map_append]
  rfl

theorem filtered_cached (k : Nat) : hoardCached (filtered k) = ∅ := by
  induction k with
  | zero => rfl
  | succ k ih => rw [filtered_succ, hoardCached_concat, ih]; rfl

theorem filtered_consistent (n k : Nat) : Consistent n (filtered k) := by
  induction k with
  | zero => exact .nil
  | succ k ih =>
    rw [filtered_succ]
    refine .snoc ih ?_
    rw [filtered_cached]
    exact Finset.notMem_empty _

theorem filtered_nodup (hk : k ≤ 2 ^ 64) : ((filtered k).map Prod.fst).Nodup := by
  rw [filtered, List.map_map]
  refine (List.nodup_map_iff_inj_on List.nodup_range).mpr fun i hi j hj hij => ?_
  have heq := congrArg UInt64.toNat hij
  have hi := List.mem_range.mp hi
  have hj := List.mem_range.mp hj
  simp only [Function.comp, UInt64.toNat_ofNat'] at heq
  rwa [Nat.mod_eq_of_lt (by omega), Nat.mod_eq_of_lt (by omega)] at heq

/-- A queue of `w` entries holds `min w k` of the blocks. -/
theorem filtered_card (w : Nat) (hk : k ≤ 2 ^ 64) : (hoardCached (filtered k) ∪
    (mostRecent w ((filtered k).map Prod.fst)).toFinset).card = min w k := by
  rw [filtered_cached, Finset.empty_union,
    List.toFinset_card_of_nodup (Lib.mostRecent_nodup ..), Lib.length_mostRecent,
    (filtered_nodup hk).dedup, List.length_map, filtered, List.length_map, List.length_range]

theorem filtered_run (H0 : h0.Follows w k []) (hm : m ≤ k) (hk : k < 2 ^ 32) :
    ∃ h, hoardRun h0 (filtered m) = .ok h ∧ h.Follows w k (filtered m) := by
  induction m with
  | zero => exact ⟨h0, rfl, H0⟩
  | succ m ih =>
    obtain ⟨h, hrun, H⟩ := ih (by omega)
    have hserves : Serves 0 (hoardCached (filtered m)) (UInt64.ofNat m, { op := .filter }) := by
      rw [filtered_cached]
      exact Finset.notMem_empty _
    obtain ⟨h', hstep, H'⟩ := H.step hserves (by
      rw [filtered_card w (by omega)]
      omega)
    rw [filtered_succ]
    exact ⟨h', hoardRun_concat hrun hstep, H'⟩

/-- When the queue takes more blocks than the pool has entries, the pool is exhausted. -/
theorem filtered_exhausts (H0 : h0.Follows w k []) (hw : k ≤ w) (hk : k < 2 ^ 32) :
    hoardRun h0 (filtered (k + 1)) = .error .assertion := by
  obtain ⟨h, hrun, H⟩ := filtered_run H0 le_rfl hk
  have hfree : h.entryPool.free = [] := by
    have hnr := H.holds.table.pool.nr_allocated
    rw [H.nrAllocated, filtered_card w (by omega), H.pool] at hnr
    exact List.eq_nil_of_length_eq_zero (by omega)
  have hnew : UInt64.ofNat k ∉ (filtered k).map Prod.fst := by
    have hnodup := filtered_nodup (k := k + 1) (by omega)
    rw [filtered_succ, List.map_append, List.nodup_append] at hnodup
    exact fun hmem => hnodup.2.2 _ hmem _ List.mem_cons_self rfl
  have hlookup : hoardLookup h (UInt64.ofNat k) = none := by
    rw [H.holds.table.lookup_eq_none, filtered_cached, Finset.empty_union, List.mem_toFinset]
    exact fun hmem => hnew (List.mem_dedup.mp ((List.drop_sublist _ _).subset hmem))
  have halloc : hoardAlloc h (UInt64.ofNat k) = none := by
    rw [hoardAlloc, allocEntry, hfree]
  rw [filtered_succ, hoardRun, List.foldlM_append]
  show hoardRun h0 (filtered k) >>= _ = _
  rw [hrun, ok_bind, List.foldlM_cons]
  simp only [hoardTrackerUpdate, hlookup, hoardTrackerFilter, halloc, error_bind]

/-- The hoard tracker counts exactly, and its pool lasts, for the cache sizes `n` with a pool of
`3 * n + 1` entries that fits its type, and for no others. -/
theorem hoardTracker_exact_iff (n : UInt32) :
    (∀ t, Consistent n.toNat t → ∃ h0 h, hoardTrackerInit n = .ok h0 ∧ hoardRun h0 t = .ok h ∧
      HoardExact n.toNat t h) ↔ 3 * n.toNat + 1 < 2 ^ 32 := by
  obtain ⟨h0, hinit, H0⟩ := init_follows n
  constructor
  · intro hall
    by_contra hwrap
    have hn := n.toNat_lt
    rcases Nat.lt_or_ge (u32 (2 * n.toNat)) (u32 (3 * n.toNat + 1)) with hlt | hge
    · -- the queue is too short
      obtain ⟨h1, h, hinit1, hrun, hexact⟩ := hall _
        (filtered_consistent n.toNat (u32 (2 * n.toNat) + 1))
      obtain rfl := Except.ok.inj (hinit.symm.trans hinit1)
      obtain ⟨h', hrun', H⟩ := filtered_run H0 hlt (u32_lt _)
      obtain rfl := Except.ok.inj (hrun.symm.trans hrun')
      have hcount := hexact.allocated
      have hw := u32_lt (2 * n.toNat)
      rw [H.nrAllocated, filtered_card _ (by omega), filtered_card _ (by omega)] at hcount
      have hshort : u32 (2 * n.toNat) < 2 * n.toNat := by
        by_contra hlong
        have hle := u32_le (2 * n.toNat)
        have hpool : u32 (3 * n.toNat + 1) = 3 * n.toNat + 1 - 2 ^ 32 := by
          unfold u32
          omega
        omega
      rw [Nat.min_eq_left (Nat.le_succ _), Nat.min_eq_right hshort] at hcount
      omega
    · -- the pool is too small for the queue
      obtain ⟨h1, h, hinit1, hrun, _⟩ := hall _
        (filtered_consistent n.toNat (u32 (3 * n.toNat + 1) + 1))
      obtain rfl := Except.ok.inj (hinit.symm.trans hinit1)
      rw [filtered_exhausts H0 hge (u32_lt _)] at hrun
      cases hrun
  · intro hsmall t hc
    rw [u32_of_lt hsmall, u32_of_lt (by omega)] at H0
    obtain ⟨h, hrun, H⟩ := H0.run (n := n.toNat) (by omega) hc
    exact ⟨h0, h, hinit, hrun, H.exact⟩

/-- With a pool of three entries the fourth block finds none. -/
theorem hoardTracker_three : ∃ h0, hoardTrackerInit 1431655766 = .ok h0 ∧
    h0.entryPool.nrEntries = 3 ∧ Consistent 1431655766 (filtered 4) ∧
    hoardRun h0 (filtered 4) = .error .assertion :=
  ⟨_, rfl, rfl, filtered_consistent _ 4, rfl⟩

end Fomo
