import Fomo.Sim.EntryTable
import Fomo.Sim.SimHoardRuns

/-!
# The frequency count (`sim/sim_freq_count.h`)

The simulator counts the stays of a block in the cache that reach `min_freq` accesses. The count
does not go down when such a block is evicted.
-/
namespace Fomo

/-- `struct freq_tracker`. `freq` is the member of that name of the entries. -/
structure FreqTracker where
  table : EntryTable
  freq : Nat → Nat
  minFreq : Nat
  count : Nat

def freqTrackerHit (fTracker : FreqTracker) (oblock : Oblock) : Exec FreqTracker := do
  let fe ← deref (fTracker.table.lookup oblock)
  let freq := u32 (fTracker.freq fe + 1)
  return { fTracker with
    freq := Function.update fTracker.freq fe freq
    count := if freq = fTracker.minFreq then u32 (fTracker.count + 1) else fTracker.count }

/-- The victim of a replacement loses its entry. -/
def freqTrackerEvict (fTracker : FreqTracker) (oldOblock : Oblock) : Exec FreqTracker := do
  let e ← deref (fTracker.table.lookup oldOblock)
  let table ← fTracker.table.remove e
  return { fTracker with table := table }

/-- A block that comes in has an entry with one access. -/
def freqTrackerEnter (fTracker : FreqTracker) (oblock : Oblock) : Exec FreqTracker :=
  match fTracker.table.alloc oblock with
  | none => .error .assertion
  | some (table, fe) => .ok { fTracker with
      table := table
      freq := Function.update fTracker.freq fe 1 }

/-- A replacement goes on as a new block does. -/
def freqTrackerUpdate (fTracker : FreqTracker) (oblock : Oblock) (result : CacheNucleusResult) :
    Exec FreqTracker :=
  match result.op with
  | .hit => freqTrackerHit fTracker oblock
  | .filter | .fail => .ok fTracker
  | .replace => do
    let fTracker ← freqTrackerEvict fTracker result.oldOblock
    freqTrackerEnter fTracker oblock
  | .new => freqTrackerEnter fTracker oblock

def freqTrackerInit (cacheSize minFreq : UInt32) : Exec FreqTracker := do
  let table ← EntryTable.init cacheSize.toNat
  return { table := table, freq := fun _ => 0, minFreq := minFreq.toNat, count := 0 }

def freqRun (fTracker : FreqTracker) (t : List HoardAccess) : Exec FreqTracker :=
  t.foldlM (fun fTracker a => freqTrackerUpdate fTracker a.1 a.2) fTracker

/-! ## What is counted -/

/-- The cached blocks with `k` accesses. -/
def reached (k : Nat) (cached : Finset Oblock) (freq : Oblock → Nat) : Finset Oblock :=
  cached.filter fun o => k ≤ freq o

/-- The blocks that were replaced after `k` accesses. -/
def reachedEvicted (k : Nat) (t : List HoardAccess) : Nat :=
  (List.range t.length).countP fun i =>
    t[i]?.any fun a => decide (a.2.op = .replace) &&
      decide (k ≤ hoardFreq (t.take i) a.2.oldOblock)

/-- The stays that reached `k` accesses. Those of one access are not counted when it is `k`. -/
def freqCount (k : Nat) (t : List HoardAccess) : Nat :=
  if 1 < k then (reached k (hoardCached t) (hoardFreq t)).card + reachedEvicted k t else 0

section Reached

variable {k v : Nat} {cached : Finset Oblock} {freq : Oblock → Nat} {o : Oblock}

theorem reached_update (hv : k ≤ v ↔ k ≤ freq o) :
    reached k cached (Function.update freq o v) = reached k cached freq := by
  refine Finset.filter_congr fun a _ => ?_
  by_cases ha : a = o
  · rw [ha, Function.update_self, hv]
  · rw [Function.update_of_ne ha]

theorem reached_update_gain (ho : o ∈ cached) (hv : k ≤ v) (hf : ¬k ≤ freq o) :
    (reached k cached (Function.update freq o v)).card = (reached k cached freq).card + 1 := by
  have hgain : reached k cached (Function.update freq o v) = insert o (reached k cached freq) := by
    ext a
    simp only [reached, Finset.mem_insert, Finset.mem_filter]
    by_cases ha : a = o
    · subst ha
      simp [ho, hv]
    · simp [ha]
  rw [hgain, Finset.card_insert_of_notMem]
  exact fun hmem => hf (Finset.mem_filter.mp hmem).2

theorem reached_update_of_notMem (ho : o ∉ cached) :
    reached k cached (Function.update freq o v) = reached k cached freq := by
  refine Finset.filter_congr fun a ha => ?_
  rw [Function.update_of_ne]
  rintro rfl
  exact ho ha

theorem reached_insert (hv : ¬k ≤ freq o) :
    reached k (insert o cached) freq = reached k cached freq := by
  rw [reached, Finset.filter_insert, if_neg hv, reached]

theorem reached_erase (ho : o ∈ cached) : (reached k cached freq).card =
    (reached k (cached.erase o) freq).card + if k ≤ freq o then 1 else 0 := by
  rw [reached, reached, Finset.filter_erase, ← reached]
  split
  · next hk => exact (Finset.card_erase_add_one (Finset.mem_filter.mpr ⟨ho, hk⟩)).symm
  · next hk =>
    have hno : o ∉ reached k cached freq := fun hmem => hk (Finset.mem_filter.mp hmem).2
    rw [Finset.erase_eq_of_notMem hno, add_zero]

end Reached

theorem reachedEvicted_concat (k : Nat) (t : List HoardAccess) (a : HoardAccess) :
    reachedEvicted k (t ++ [a]) = reachedEvicted k t +
      if a.2.op = .replace ∧ k ≤ hoardFreq t a.2.oldOblock then 1 else 0 := by
  rw [reachedEvicted, List.length_append, List.length_singleton, List.range_succ,
    List.countP_append, List.countP_singleton, List.take_left]
  congr 1
  · refine List.countP_congr fun i hi => ?_
    have hi := List.mem_range.mp hi
    rw [List.getElem?_append_left hi, List.take_append_of_le_length hi.le]
  · rw [List.getElem?_concat_length]
    simp

/-! ## Updates -/

namespace FreqTracker

/-- The tracker has an entry for each cached block, with its accesses. -/
structure Holds (cached : Finset Oblock) (freq : Oblock → Nat) (h : FreqTracker) : Prop where
  table : h.table.Tracks cached
  freq_eq : ∀ i ∈ h.table.ht, h.freq i = freq (h.table.oblock i)

variable {h : FreqTracker} {cached : Finset Oblock} {freq : Oblock → Nat} {o : Oblock}
  {k n : Nat} {t : List HoardAccess} {a : HoardAccess}

theorem Holds.hit (H : h.Holds cached freq) (ho : o ∈ cached) (hlt : freq o + 1 < 2 ^ 32) :
    ∃ h', freqTrackerHit h o = .ok h' ∧
      h'.Holds cached (Function.update freq o (freq o + 1)) ∧ h'.minFreq = h.minFreq ∧
      h'.table = h.table ∧
      h'.count = if freq o + 1 = h.minFreq then u32 (h.count + 1) else h.count := by
  obtain ⟨i, hl, hi, hob⟩ := H.table.exists_lookup ho
  have hf : u32 (h.freq i + 1) = freq o + 1 := by rw [H.freq_eq i hi, hob, u32_of_lt hlt]
  rw [freqTrackerHit, hl, deref_some, ok_bind, hf]
  refine ⟨_, rfl, ⟨H.table, fun j hj => ?_⟩, rfl, rfl, rfl⟩
  dsimp only at hj ⊢
  by_cases hji : j = i
  · rw [hji, Function.update_self, hob, Function.update_self]
  · have hne : h.table.oblock j ≠ o := fun heq => hji (H.table.inj hj hi (heq.trans hob.symm))
    rw [Function.update_of_ne hji, Function.update_of_ne hne, H.freq_eq j hj]

theorem Holds.evict (H : h.Holds cached freq) (ho : o ∈ cached) :
    ∃ h', freqTrackerEvict h o = .ok h' ∧ h'.Holds (cached.erase o) freq ∧
      h'.minFreq = h.minFreq ∧ h'.count = h.count ∧
      h'.table.entryPool.nrEntries = h.table.entryPool.nrEntries := by
  obtain ⟨i, hl, hi, hob⟩ := H.table.exists_lookup ho
  obtain ⟨table, hrun, htab, hnr, hht, hobt⟩ := H.table.remove hi
  rw [freqTrackerEvict, hl, deref_some, ok_bind, hrun, ok_bind]
  refine ⟨_, rfl, ⟨hob ▸ htab, fun j hj => ?_⟩, rfl, rfl, hnr⟩
  dsimp only at hj ⊢
  rw [hht] at hj
  rw [hobt]
  exact H.freq_eq j (List.mem_of_mem_erase hj)

theorem Holds.enter (H : h.Holds cached freq) (ho : o ∉ cached)
    (hroom : cached.card < h.table.entryPool.nrEntries) :
    ∃ h', freqTrackerEnter h o = .ok h' ∧ h'.Holds (insert o cached) (Function.update freq o 1) ∧
      h'.minFreq = h.minFreq ∧ h'.count = h.count ∧
      h'.table.entryPool.nrEntries = h.table.entryPool.nrEntries := by
  obtain ⟨table, i, halloc, htab, hnr, hht, hni, hob⟩ := H.table.alloc ho hroom
  rw [freqTrackerEnter, halloc]
  refine ⟨_, rfl, ⟨htab, fun j hj => ?_⟩, rfl, rfl, hnr⟩
  dsimp only at hj ⊢
  rw [hht] at hj
  rw [hob]
  rcases List.mem_cons.mp hj with rfl | hold
  · simp
  · have hji : j ≠ i := by
      rintro rfl
      exact hni hold
    have hne : h.table.oblock j ≠ o := fun heq => ho (heq ▸ H.table.mem_tracked hold)
    rw [Function.update_of_ne hji, Function.update_of_ne hji, Function.update_of_ne hne,
      H.freq_eq j hold]

theorem Holds.update (H : h.Holds cached freq)
    (hs : Serves h.table.entryPool.nrEntries cached a)
    (hcard : cached.card ≤ h.table.entryPool.nrEntries) (hlt : freq a.1 + 1 < 2 ^ 32) :
    ∃ h', freqTrackerUpdate h a.1 a.2 = .ok h' ∧ h'.Holds (cachedStep cached a) (freqStep freq a) ∧
      h'.minFreq = h.minFreq ∧ h'.table.entryPool.nrEntries = h.table.entryPool.nrEntries ∧
      h'.count = if a.2.op = .hit ∧ freq a.1 + 1 = h.minFreq then u32 (h.count + 1)
        else h.count := by
  unfold Serves at hs
  unfold cachedStep freqStep freqTrackerUpdate
  cases hop : a.2.op with
  | filter => exact ⟨h, rfl, H, rfl, rfl, by simp⟩
  | fail => exact ⟨h, rfl, H, rfl, rfl, by simp⟩
  | hit =>
    rw [hop] at hs
    obtain ⟨h', hrun, H', hmin, htable, hc⟩ := H.hit hs hlt
    refine ⟨h', hrun, H', hmin, by rw [htable], ?_⟩
    simpa using hc
  | new =>
    rw [hop] at hs
    obtain ⟨h', hrun, H', hmin, hc, hnr⟩ := H.enter hs.1 hs.2
    refine ⟨h', hrun, H', hmin, hnr, ?_⟩
    simpa using hc
  | replace =>
    rw [hop] at hs
    have hout : a.1 ∉ cached.erase a.2.oldOblock := fun hx => hs.1 (Finset.mem_of_mem_erase hx)
    have hpos := Finset.card_pos.mpr ⟨_, hs.2⟩
    obtain ⟨h1, hrun1, H1, hmin1, hc1, hnr1⟩ := H.evict hs.2
    obtain ⟨h', hrun, H', hmin, hc, hnr⟩ := H1.enter hout
      (by rw [hnr1, Finset.card_erase_of_mem hs.2]; omega)
    dsimp only
    rw [hrun1, ok_bind]
    refine ⟨h', hrun, H', hmin.trans hmin1, hnr.trans hnr1, ?_⟩
    simpa using hc.trans hc1

end FreqTracker

/-! ## Runs -/

open FreqTracker HoardTracker

variable {h h0 : FreqTracker} {k m n : Nat} {t : List HoardAccess} {a : HoardAccess}

theorem hoardFreq_pos (hc : Consistent n t) {o : Oblock} (ho : o ∈ hoardCached t) :
    0 < hoardFreq t o := by
  induction hc generalizing o with
  | nil => simp [hoardCached] at ho
  | @snoc t a _ hs ih =>
    rw [hoardCached_concat] at ho
    rw [hoardFreq_concat]
    unfold cachedStep at ho
    unfold freqStep
    cases hop : a.2.op with
    | filter =>
      rw [hop] at ho
      exact ih ho
    | fail =>
      rw [hop] at ho
      exact ih ho
    | hit =>
      rw [hop] at ho
      dsimp only
      rw [Function.update_apply]
      split
      · exact Nat.succ_pos _
      · exact ih ho
    | new =>
      rw [hop] at ho
      dsimp only
      rw [Function.update_apply]
      split
      · exact Nat.one_pos
      · next hne => exact ih ((Finset.mem_insert.mp ho).resolve_left hne)
    | replace =>
      rw [hop] at ho
      dsimp only
      rw [Function.update_apply]
      split
      · exact Nat.one_pos
      · next hne =>
        exact ih (Finset.mem_of_mem_erase ((Finset.mem_insert.mp ho).resolve_left hne))

theorem hoardFreq_le (t : List HoardAccess) (o : Oblock) : hoardFreq t o ≤ t.length := by
  induction t using List.reverseRecOn generalizing o with
  | nil => simp [hoardFreq]
  | append_singleton t a ih =>
    have ho := ih o
    have ha := ih a.1
    rw [hoardFreq_concat, List.length_append, List.length_singleton]
    unfold freqStep
    cases a.2.op with
    | filter => exact ho.trans (Nat.le_succ _)
    | fail => exact ho.trans (Nat.le_succ _)
    | hit =>
      dsimp only
      rw [Function.update_apply]
      split
      · exact Nat.succ_le_succ ha
      · exact ho.trans (Nat.le_succ _)
    | new =>
      dsimp only
      rw [Function.update_apply]
      split
      · omega
      · exact ho.trans (Nat.le_succ _)
    | replace =>
      dsimp only
      rw [Function.update_apply]
      split
      · omega
      · exact ho.trans (Nat.le_succ _)

/-- A stay is counted by the hit with which it reaches `k` accesses. -/
theorem freqCount_concat (hc : Consistent n t) (hs : Serves n (hoardCached t) a) (k : Nat) :
    freqCount k (t ++ [a]) = freqCount k t +
      if a.2.op = .hit ∧ hoardFreq t a.1 + 1 = k then 1 else 0 := by
  unfold freqCount
  by_cases hk : 1 < k
  · rw [if_pos hk, if_pos hk, hoardCached_concat, hoardFreq_concat, reachedEvicted_concat]
    unfold Serves at hs
    unfold cachedStep freqStep
    cases hop : a.2.op with
    | filter => simp
    | fail => simp
    | hit =>
      simp only [reduceCtorEq, false_and, if_false, add_zero, true_and]
      rw [hop] at hs
      by_cases hreach : hoardFreq t a.1 + 1 = k
      · rw [reached_update_gain hs hreach.ge (by omega), if_pos hreach]
        omega
      · rw [reached_update (by omega), if_neg hreach, add_zero]
    | new =>
      simp only [reduceCtorEq, false_and, if_false, add_zero]
      rw [hop] at hs
      rw [reached_insert (by rw [Function.update_self]; omega), reached_update_of_notMem hs.1]
    | replace =>
      simp only [reduceCtorEq, false_and, if_false, add_zero, true_and]
      rw [hop] at hs
      have hout : a.1 ∉ (hoardCached t).erase a.2.oldOblock := fun hx =>
        hs.1 (Finset.mem_of_mem_erase hx)
      rw [reached_insert (by rw [Function.update_self]; omega), reached_update_of_notMem hout,
        reached_erase hs.2]
      omega
  · rw [if_neg hk, if_neg hk, zero_add, if_neg]
    rintro ⟨hop, hreach⟩
    unfold Serves at hs
    rw [hop] at hs
    have hpos := hoardFreq_pos hc hs
    omega

theorem freqCount_le (hc : Consistent n t) (k : Nat) : freqCount k t ≤ t.length := by
  induction hc with
  | nil => simp [freqCount, hoardCached, reached, reachedEvicted]
  | snoc hc hs ih =>
    rw [freqCount_concat hc hs, List.length_append, List.length_singleton]
    split
    · omega
    · omega

/-- The tracker after the accesses `t`. -/
structure FreqTracker.Follows (n k : Nat) (t : List HoardAccess) (h : FreqTracker) : Prop where
  holds : h.Holds (hoardCached t) (hoardFreq t)
  nrEntries : h.table.entryPool.nrEntries = n
  minFreq : h.minFreq = k
  count : h.count = freqCount k t

theorem FreqTracker.Follows.step (H : h.Follows n k t) (hc : Consistent n t)
    (hs : Serves n (hoardCached t) a) (hlt : t.length + 1 < 2 ^ 32) :
    ∃ h', freqTrackerUpdate h a.1 a.2 = .ok h' ∧ h'.Follows n k (t ++ [a]) := by
  have hfreq := hoardFreq_le t a.1
  have hcount := freqCount_le hc k
  obtain ⟨h', hrun, H', hmin, hnr, hcnt⟩ := H.holds.update (by rw [H.nrEntries]; exact hs)
    (by rw [H.nrEntries]; exact Consistent.card_le hc) (by omega)
  refine ⟨h', hrun, ?_, hnr.trans H.nrEntries, hmin.trans H.minFreq, ?_⟩
  · rw [hoardCached_concat, hoardFreq_concat]
    exact H'
  · rw [hcnt, freqCount_concat hc hs, H.minFreq, H.count]
    split
    · exact u32_of_lt (by omega)
    · rfl

theorem freqRun_concat {h' : FreqTracker} (hrun : freqRun h0 t = .ok h)
    (hstep : freqTrackerUpdate h a.1 a.2 = .ok h') : freqRun h0 (t ++ [a]) = .ok h' := by
  rw [freqRun, List.foldlM_append]
  show freqRun h0 t >>= _ = _
  rw [hrun, ok_bind, List.foldlM_cons, hstep, ok_bind]
  rfl

theorem FreqTracker.Follows.run (H0 : h0.Follows n k []) (hc : Consistent n t)
    (hlt : t.length < 2 ^ 32) : ∃ h, freqRun h0 t = .ok h ∧ h.Follows n k t := by
  induction hc with
  | nil => exact ⟨h0, rfl, H0⟩
  | @snoc t a hc hs ih =>
    rw [List.length_append, List.length_singleton] at hlt
    obtain ⟨h, hrun, H⟩ := ih (by omega)
    obtain ⟨h', hstep, H'⟩ := H.step hc hs hlt
    exact ⟨h', freqRun_concat hrun hstep, H'⟩

/-- For the accesses of a cache of the tracker's size the count is the number of stays of a block
in the cache that reached `min_freq` accesses, those of blocks evicted since included, and it is
zero when one access is enough. -/
theorem freqTracker_exact (cacheSize minFreq : UInt32) (t : List HoardAccess)
    (hc : Consistent cacheSize.toNat t) (hlt : t.length < 2 ^ 32) :
    ∃ h0 h, freqTrackerInit cacheSize minFreq = .ok h0 ∧ freqRun h0 t = .ok h ∧
      h.count = if 1 < minFreq.toNat then
        (reached minFreq.toNat (hoardCached t) (hoardFreq t)).card +
          reachedEvicted minFreq.toNat t
      else 0 := by
  obtain ⟨table, hinit, htab, hnr, hht⟩ := EntryTable.init_spec cacheSize.toNat_lt
  have hstart : freqTrackerInit cacheSize minFreq = .ok ⟨table, fun _ => 0, minFreq.toNat, 0⟩ := by
    rw [freqTrackerInit, hinit]
    rfl
  have H0 : (FreqTracker.mk table (fun _ => 0) minFreq.toNat 0).Follows cacheSize.toNat
      minFreq.toNat [] := by
    refine ⟨⟨htab, fun i hi => ?_⟩, hnr, rfl, ?_⟩
    · rfl
    · simp [freqCount, hoardCached, reached, reachedEvicted]
  obtain ⟨h, hrun, H⟩ := H0.run hc hlt
  exact ⟨_, h, hstart, hrun, H.count⟩

/-- A block that is hit and then replaced still counts. -/
theorem freqTracker_replaced : ∃ h0 h, freqTrackerInit 1 2 = .ok h0 ∧
    freqRun h0 [(5, { op := .new }), (5, { op := .hit }),
      (7, { op := .replace, oldOblock := 5 })] = .ok h ∧
    h.count = 1 := by
  have hc : Consistent 1 [(5, { op := .new }), (5, { op := .hit }),
      (7, { op := .replace, oldOblock := 5 })] := by
    refine .snoc (t := [(5, { op := .new }), (5, { op := .hit })])
      (.snoc (t := [(5, { op := .new })]) (.snoc (t := []) .nil ?_) ?_) ?_
    · exact ⟨by decide, by decide⟩
    · show (5 : Oblock) ∈ _
      decide
    · exact ⟨by decide, by decide⟩
  obtain ⟨h0, h, hinit, hrun, hcount⟩ := freqTracker_exact 1 2 _ hc (by decide)
  exact ⟨h0, h, hinit, hrun, hcount.trans (by decide)⟩

end Fomo
