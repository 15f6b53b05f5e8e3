import Fomo.Sim.SimHoardCount

/-!
# What the hoard tracker keeps

A block crosses two boundaries: it comes into the cache and leaves it, and it comes into the
queue and leaves it. The tracker is related to the blocks cached and to those queued, and each
crossing is one step of that relation.
-/
namespace Fomo

namespace HoardTracker

/-- The tracker follows a cache with the blocks `cached`, accessed as `freq` says, and queues
`recent`. -/
structure Holds (cached : Finset Oblock) (freq : Oblock → Nat) (recent : List Oblock)
    (h : HoardTracker) : Prop where
  table : h.Table (cached ∪ recent.toFinset)
  queue : h.q.map h.oblock = recent
  q_ht : ∀ i ∈ h.q, i ∈ h.ht
  nodup : recent.Nodup
  inCache_iff : ∀ i ∈ h.ht, h.inCache i = true ↔ h.oblock i ∈ cached
  freq_eq : ∀ i ∈ h.ht, h.oblock i ∈ cached → h.freq i = u32 (freq (h.oblock i))
  count_eq : h.count = (hoarded cached freq recent).card

/-- `h'` is `h` with the entry `i` for the block `o`, which was there or is new. -/
structure Found (tracked : Finset Oblock) (o : Oblock) (i : Nat) (h h' : HoardTracker) :
    Prop where
  table : h'.Table (insert o tracked)
  rest : h.SameRest h'
  mem : i ∈ h'.ht
  oblock : h'.oblock i = o
  keep : ∀ j ∈ h.ht, j ∈ h'.ht ∧ h'.oblock j = h.oblock j
  old : ∀ j ∈ h'.ht, j ≠ i → j ∈ h.ht

variable {h h' h1 : HoardTracker} {cached cached' : Finset Oblock} {freq freq' : Oblock → Nat}
  {recent : List Oblock} {tracked : Finset Oblock} {o v : Oblock} {i j : Nat}

theorem oblock_congr (hpool : h'.entryPool = h.entryPool) : h'.oblock = h.oblock := by
  funext j
  rw [HoardTracker.oblock, hpool]
  rfl

/-- Only the table and the pool matter to it. -/
theorem Table.congr (ht : h.Table tracked) (hpool : h'.entryPool = h.entryPool)
    (hht : h'.ht = h.ht) : h'.Table tracked := by
  have hob := oblock_congr hpool
  refine ⟨?_, ?_, ?_, ?_, ?_⟩
  · rw [hpool]
    exact ht.pool
  · rw [hht]
    exact ht.ht_nodup
  · rw [hht, hpool]
    exact ht.mem_ht
  · rw [hht, hob]
    exact ht.inj
  · rw [hht, hob]
    exact ht.tracked

theorem Table.found (ht : h.Table tracked) (hi : i ∈ h.ht) :
    Found tracked (h.oblock i) i h h where
  table := by
    rw [Finset.insert_eq_of_mem ((ht.tracked _).mpr ⟨i, hi, rfl⟩)]
    exact ht
  rest := ⟨rfl, rfl, rfl, rfl, rfl, rfl⟩
  mem := hi
  oblock := rfl
  keep := fun _ hj => ⟨hj, rfl⟩
  old := fun _ hj _ => hj

theorem Table.alloc_found (ht : h.Table tracked) (ho : o ∉ tracked)
    (hroom : tracked.card < h.entryPool.nrEntries) :
    ∃ h' i, hoardAlloc h o = some (h', i) ∧ Found tracked o i h h' := by
  obtain ⟨h', i, halloc, htab, hrest, hht, hni, hob⟩ := ht.alloc ho hroom
  refine ⟨h', i, halloc, htab, hrest, ?_, by rw [hob, Function.update_self], fun j hj => ?_,
    fun j hj hne => ?_⟩
  · rw [hht]
    exact List.mem_cons_self
  · have hne : j ≠ i := by
      rintro rfl
      exact hni hj
    rw [hht, hob, Function.update_of_ne hne]
    exact ⟨List.mem_cons_of_mem _ hj, rfl⟩
  · rw [hht] at hj
    exact (List.mem_cons.mp hj).resolve_left hne

theorem Holds.mem_q (H : h.Holds cached freq recent) (hi : i ∈ h.ht) :
    i ∈ h.q ↔ h.oblock i ∈ recent := by
  rw [← H.queue, List.mem_map]
  constructor
  · exact fun hq => ⟨i, hq, rfl⟩
  · rintro ⟨j, hj, heq⟩
    rwa [← H.table.inj j (H.q_ht j hj) i hi heq]

theorem Holds.mem_tracked (H : h.Holds cached freq recent) (hi : i ∈ h.ht) :
    h.oblock i ∈ cached ∨ h.oblock i ∈ recent := by
  have hmem := (H.table.tracked _).mpr ⟨i, hi, rfl⟩
  rwa [Finset.mem_union, List.mem_toFinset] at hmem

theorem Holds.cached_lt (H : h.Holds cached freq recent) : cached.card < 2 ^ 32 := by
  have hle : cached.card ≤ (cached ∪ recent.toFinset).card :=
    Finset.card_le_card Finset.subset_union_left
  have hnr := H.table.pool.nr_allocated
  have hlt := H.table.pool.nr_lt
  rw [H.table.card_eq] at hle
  omega

theorem hoarded_card_le (cached : Finset Oblock) (freq : Oblock → Nat) (recent : List Oblock) :
    (hoarded cached freq recent).card ≤ cached.card := Finset.card_filter_le _ _

theorem mem_hoarded : o ∈ hoarded cached freq recent ↔
    o ∈ cached ∧ 1 < u32 (freq o) ∧ o ∉ recent := Finset.mem_filter

/-- A block that is accessed is no longer hoarded, whatever happens to it. -/
theorem hoarded_push (hcached : ∀ a, a ≠ o → (a ∈ cached' ↔ a ∈ cached))
    (hfreq : ∀ a, a ≠ o → freq' a = freq a) (hn : recent.Nodup) :
    hoarded cached' freq' (recent.erase o ++ [o]) = (hoarded cached freq recent).erase o := by
  ext a
  rw [Finset.mem_erase, mem_hoarded, mem_hoarded, List.mem_append, hn.mem_erase_iff]
  by_cases ha : a = o
  · simp [ha]
  · rw [hcached a ha, hfreq a ha]
    simp [ha]

/-- A block that is accessed is tracked from then on. -/
theorem tracked_push (hcached : ∀ a, a ≠ o → (a ∈ cached' ↔ a ∈ cached)) (hn : recent.Nodup) :
    insert o (cached ∪ recent.toFinset) = cached' ∪ (recent.erase o ++ [o]).toFinset := by
  ext a
  rw [Finset.mem_insert, Finset.mem_union, Finset.mem_union, List.mem_toFinset,
    List.mem_toFinset, List.mem_append, hn.mem_erase_iff]
  by_cases ha : a = o
  · simp [ha]
  · rw [hcached a ha]
    simp [ha]

/-- No entry but `i` has the block. -/
theorem Found.oblock_ne (hf : Found tracked o i h h1) : ∀ j ∈ h1.ht, j ≠ i → h1.oblock j ≠ o :=
  fun j hj hji heq => hji (hf.table.inj j hj i hf.mem (heq.trans hf.oblock.symm))

/-- Taking the entry out of the queue takes the block out. -/
theorem Found.map_erase (hf : Found tracked o i h h1) (hq : h1.q.map h1.oblock = recent)
    (hqht : ∀ j ∈ h1.q, j ∈ h1.ht) (hn : recent.Nodup) :
    (h1.q.erase i).map h1.oblock = recent.erase o := by
  by_cases hi : i ∈ h1.q
  · rw [Lib.map_erase_of_nodup (by rw [hq]; exact hn) hi, hq, hf.oblock]
  · have ho : o ∉ recent := by
      intro ho
      rw [← hq, List.mem_map] at ho
      obtain ⟨j, hj, heq⟩ := ho
      refine hf.oblock_ne j (hqht j hj) ?_ heq
      rintro rfl
      exact hi hj
    rw [List.erase_of_not_mem hi, List.erase_of_not_mem ho, hq]

/-- `--count` when a hoarded block stops being one. -/
theorem Holds.count_erase (H : h.Holds cached freq recent) (hi : i ∈ h.ht)
    (hc : h.oblock i ∈ cached) : (if i ∉ h.q ∧ h.freq i > 1 then dec32 h.count else h.count) =
      ((hoarded cached freq recent).erase (h.oblock i)).card := by
  have hiff : (i ∉ h.q ∧ h.freq i > 1) ↔ h.oblock i ∈ hoarded cached freq recent := by
    rw [mem_hoarded, H.mem_q hi, H.freq_eq i hi hc]
    exact ⟨fun hx => ⟨hc, hx.2, hx.1⟩, fun hx => ⟨hx.2.2, hx.2.1⟩⟩
  have hle := hoarded_card_le cached freq recent
  have hlt := H.cached_lt
  by_cases hmem : h.oblock i ∈ hoarded cached freq recent
  · have hpos := Finset.card_pos.mpr ⟨_, hmem⟩
    rw [if_pos (hiff.mpr hmem), H.count_eq, Finset.card_erase_of_mem hmem,
      dec32_of_pos hpos (by omega)]
  · rw [if_neg fun hx => hmem (hiff.mp hx), H.count_eq, Finset.erase_eq_of_notMem hmem]

/-- The entry of an accessed block goes to the end of the queue, with its new status. -/
theorem Holds.place (H : h.Holds cached freq recent)
    (hf : Found (cached ∪ recent.toFinset) o i h h1)
    (hcached : ∀ a, a ≠ o → (a ∈ cached' ↔ a ∈ cached)) (hfreq : ∀ a, a ≠ o → freq' a = freq a)
    (hpool : h'.entryPool = h1.entryPool) (hht : h'.ht = h1.ht) (hq : h'.q = h1.q.erase i ++ [i])
    (hself : h'.inCache i = true ↔ o ∈ cached')
    (hfself : o ∈ cached' → h'.freq i = u32 (freq' o))
    (hother : ∀ j, j ≠ i → h'.inCache j = h1.inCache j ∧ h'.freq j = h1.freq j)
    (hcount : h'.count = ((hoarded cached freq recent).erase o).card) :
    h'.Holds cached' freq' (recent.erase o ++ [o]) := by
  have hob := oblock_congr hpool
  have hqob : h1.q.map h1.oblock = recent := by
    rw [hf.rest.q, ← H.queue]
    exact List.map_congr_left fun j hj => (hf.keep j (H.q_ht j hj)).2
  have hqht : ∀ j ∈ h1.q, j ∈ h1.ht := fun j hj =>
    (hf.keep j (H.q_ht j (hf.rest.q ▸ hj))).1
  have hne := hf.oblock_ne
  have hmap := hf.map_erase hqob hqht H.nodup
  constructor
  · rw [← tracked_push hcached H.nodup]
    exact hf.table.congr hpool hht
  · rw [hq, hob, List.map_append, hmap]
    exact congrArg _ (congrArg (fun a => [a]) hf.oblock)
  · intro j hj
    rw [hq, List.mem_append, List.mem_singleton] at hj
    rw [hht]
    rcases hj with hj | rfl
    · exact hqht j (List.mem_of_mem_erase hj)
    · exact hf.mem
  · exact List.nodup_append.mpr ⟨H.nodup.erase o, List.nodup_singleton o, fun a ha b hb => by
      rw [List.mem_singleton.mp hb]
      rintro rfl
      exact H.nodup.not_mem_erase ha⟩
  · intro j hj
    rw [hht] at hj
    rw [hob]
    by_cases hji : j = i
    · rw [hji, hf.oblock]
      exact hself
    · obtain ⟨_, hkeep⟩ := hf.keep j (hf.old j hj hji)
      rw [(hother j hji).1, hf.rest.inCache, hcached _ (hne j hj hji), hkeep]
      exact H.inCache_iff j (hf.old j hj hji)
  · intro j hj
    rw [hht] at hj
    rw [hob]
    by_cases hji : j = i
    · rw [hji, hf.oblock]
      exact hfself
    · obtain ⟨_, hkeep⟩ := hf.keep j (hf.old j hj hji)
      rw [(hother j hji).2, hf.rest.freq, hcached _ (hne j hj hji), hfreq _ (hne j hj hji), hkeep]
      exact H.freq_eq j (hf.old j hj hji)
  · rw [hcount, hoarded_push hcached hfreq H.nodup]

/-! ## The cases of an update -/

/-- The sizes set when the tracker was created. -/
structure SameSizes (h h' : HoardTracker) : Prop where
  cacheSize : h'.cacheSize = h.cacheSize
  nrEntries : h'.entryPool.nrEntries = h.entryPool.nrEntries

theorem SameSizes.trans {h'' : HoardTracker} (hs : h.SameSizes h') (hs' : h'.SameSizes h'') :
    h.SameSizes h'' := ⟨hs'.cacheSize.trans hs.cacheSize, hs'.nrEntries.trans hs.nrEntries⟩

theorem SameRest.sizes (hr : h.SameRest h') : h.SameSizes h' := ⟨hr.cacheSize, hr.nrEntries⟩

theorem ite_count (h : HoardTracker) (p : Prop) [Decidable p] (n : Nat) :
    (if p then { h with count := n } else h) = { h with count := if p then n else h.count } := by
  by_cases hp : p
  · rw [if_pos hp, if_pos hp]
  · rw [if_neg hp, if_neg hp]

/-- The same but for the entry `i`, whose block is neither cached nor queued any more. -/
structure HoldsBut (i : Nat) (cached : Finset Oblock) (freq : Oblock → Nat)
    (recent : List Oblock) (h : HoardTracker) : Prop where
  table : h.Table (insert (h.oblock i) (cached ∪ recent.toFinset))
  mem : i ∈ h.ht
  out : h.oblock i ∉ cached ∧ h.oblock i ∉ recent
  queue : h.q.map h.oblock = recent
  q_ht : ∀ j ∈ h.q, j ∈ h.ht
  nodup : recent.Nodup
  inCache_iff : ∀ j ∈ h.ht, j ≠ i → (h.inCache j = true ↔ h.oblock j ∈ cached)
  freq_eq : ∀ j ∈ h.ht, j ≠ i → h.oblock j ∈ cached → h.freq j = u32 (freq (h.oblock j))
  count_eq : h.count = (hoarded cached freq recent).card

/-- The entry is removed, and the others are found as before. -/
theorem HoldsBut.remove (H : h.HoldsBut i cached freq recent) : ∃ h', hoardRemove h i = .ok h' ∧
    h.SameSizes h' ∧ h'.Holds cached freq recent ∧
    ∀ o, o ≠ h.oblock i → hoardLookup h' o = hoardLookup h o := by
  obtain ⟨h', hrun, htab, hrest, hht, hob⟩ := H.table.remove H.mem
  have hout : h.oblock i ∉ cached ∪ recent.toFinset := by
    rw [Finset.mem_union, List.mem_toFinset]
    exact fun hx => hx.elim H.out.1 H.out.2
  rw [Finset.erase_insert hout] at htab
  have hmem : ∀ j, j ∈ h'.ht ↔ j ≠ i ∧ j ∈ h.ht := fun j => by
    rw [hht]
    exact H.table.ht_nodup.mem_erase_iff
  refine ⟨h', hrun, hrest.sizes, ⟨htab, ?_, fun j hj => ?_, H.nodup, fun j hj => ?_,
    fun j hj hc => ?_, ?_⟩, fun o ho => ?_⟩
  · rw [hrest.q, hob]
    exact H.queue
  · rw [hrest.q] at hj
    refine (hmem j).mpr ⟨?_, H.q_ht j hj⟩
    rintro rfl
    exact H.out.2 (H.queue ▸ List.mem_map_of_mem hj)
  · obtain ⟨hji, hj⟩ := (hmem j).mp hj
    rw [hrest.inCache, hob]
    exact H.inCache_iff j hj hji
  · obtain ⟨hji, hj⟩ := (hmem j).mp hj
    rw [hob] at hc ⊢
    rw [hrest.freq]
    exact H.freq_eq j hj hji hc
  · rw [hrest.count]
    exact H.count_eq
  · refine Option.ext fun j => ?_
    rw [htab.lookup_eq_some, H.table.lookup_eq_some, hob, hmem]
    constructor
    · exact fun hj => ⟨hj.1.2, hj.2⟩
    · rintro ⟨hj, rfl⟩
      refine ⟨⟨?_, hj⟩, rfl⟩
      rintro rfl
      exact ho rfl

/-- A hit: the block may have been hoarded. -/
theorem Holds.hit (H : h.Holds cached freq recent) (ho : o ∈ cached) :
    ∃ h', hoardTrackerHit h (hoardLookup h o) = .ok h' ∧ h.SameSizes h' ∧
      h'.Holds cached (Function.update freq o (freq o + 1)) (recent.erase o ++ [o]) := by
  obtain ⟨i, hl, hi, rfl⟩ := H.table.exists_lookup (Finset.mem_union_left _ ho)
  have hin : h.inCache i = true := (H.inCache_iff i hi).mpr ho
  rw [hl, hoardTrackerHit, logAssert_true hin, ok_bind, ite_count]
  refine ⟨_, rfl, ⟨rfl, rfl⟩, H.place (H.table.found hi) (fun _ _ => Iff.rfl)
    (fun a ha => Function.update_of_ne ha ..) rfl rfl rfl (iff_of_true hin ho) (fun _ => ?_)
    (fun j hj => ⟨rfl, Function.update_of_ne hj ..⟩) (H.count_erase hi ho)⟩
  show Function.update h.freq i (u32 (h.freq i + 1)) i = _
  rw [Function.update_self, Function.update_self, H.freq_eq i hi ho, u32_succ]

/-- A block that is not cached is queued, with an entry of its own if it has none. -/
theorem Holds.filter (H : h.Holds cached freq recent) (ho : o ∉ cached)
    (hroom : (cached ∪ recent.toFinset).card < h.entryPool.nrEntries) :
    ∃ h', hoardTrackerFilter h o (hoardLookup h o) = .ok h' ∧ h.SameSizes h' ∧
      h'.Holds cached freq (recent.erase o ++ [o]) := by
  have hcount : h.count = ((hoarded cached freq recent).erase o).card := by
    rw [H.count_eq, Finset.erase_eq_of_notMem fun hmem => ho (mem_hoarded.mp hmem).1]
  by_cases htr : o ∈ cached ∪ recent.toFinset
  · obtain ⟨i, hl, hi, rfl⟩ := H.table.exists_lookup htr
    have hin : ¬h.inCache i = true := fun hin => ho ((H.inCache_iff i hi).mp hin)
    rw [hl]
    exact ⟨_, rfl, ⟨rfl, rfl⟩, H.place (H.table.found hi) (fun _ _ => Iff.rfl) (fun _ _ => rfl)
      rfl rfl rfl (iff_of_false hin ho) (fun hc => absurd hc ho) (fun _ _ => ⟨rfl, rfl⟩) hcount⟩
  · obtain ⟨h1, i, halloc, hf⟩ := H.table.alloc_found htr hroom
    rw [H.table.lookup_eq_none.mpr htr, hoardTrackerFilter, halloc]
    refine ⟨_, rfl, ⟨hf.rest.cacheSize, hf.rest.nrEntries⟩, H.place hf (fun _ _ => Iff.rfl)
      (fun _ _ => rfl) rfl rfl rfl ?_ (fun hc => absurd hc ho) (fun j hj =>
        ⟨Function.update_of_ne hj .., Function.update_of_ne hj ..⟩) (hf.rest.count.trans hcount)⟩
    show Function.update h1.inCache i false i = true ↔ _
    rw [Function.update_self]
    exact iff_of_false Bool.false_ne_true ho

/-- A block that comes into the cache has been accessed once. -/
theorem Holds.enter (H : h.Holds cached freq recent) (ho : o ∉ cached)
    (hroom : (cached ∪ recent.toFinset).card < h.entryPool.nrEntries) :
    ∃ h', hoardTrackerEnter h o (hoardLookup h o) = .ok h' ∧ h.SameSizes h' ∧
      h'.Holds (insert o cached) (Function.update freq o 1) (recent.erase o ++ [o]) := by
  have hcount : h.count = ((hoarded cached freq recent).erase o).card := by
    rw [H.count_eq, Finset.erase_eq_of_notMem fun hmem => ho (mem_hoarded.mp hmem).1]
  have hother : ∀ a, a ≠ o → (a ∈ insert o cached ↔ a ∈ cached) := fun a ha => by
    rw [Finset.mem_insert]
    simp [ha]
  obtain ⟨h1, i, hrun, hf⟩ : ∃ h1 i, hoardTrackerEnter h o (hoardLookup h o) =
      .ok (hoardPush { h1 with
        freq := Function.update h1.freq i 1
        inCache := Function.update h1.inCache i true } i) ∧
      Found (cached ∪ recent.toFinset) o i h h1 := by
    by_cases htr : o ∈ cached ∪ recent.toFinset
    · obtain ⟨i, hl, hi, rfl⟩ := H.table.exists_lookup htr
      have hq : i ∈ h.q := (H.mem_q hi).mpr ((H.mem_tracked hi).resolve_left ho)
      refine ⟨h, i, ?_, H.table.found hi⟩
      rw [hl, hoardTrackerEnter, logAssert_true hq]
      rfl
    · obtain ⟨h1, i, halloc, hf⟩ := H.table.alloc_found htr hroom
      refine ⟨h1, i, ?_, hf⟩
      rw [H.table.lookup_eq_none.mpr htr, hoardTrackerEnter, halloc]
      rfl
  refine ⟨_, hrun, ⟨hf.rest.cacheSize, hf.rest.nrEntries⟩, H.place hf hother
    (fun a ha => Function.update_of_ne ha ..) rfl rfl rfl ?_ (fun _ => ?_) (fun j hj =>
      ⟨Function.update_of_ne hj .., Function.update_of_ne hj ..⟩) (hf.rest.count.trans hcount)⟩
  · show Function.update h1.inCache i true i = true ↔ _
    rw [Function.update_self]
    exact iff_of_true rfl (Finset.mem_insert_self ..)
  · show Function.update h1.freq i 1 i = _
    rw [Function.update_self, Function.update_self]
    rfl

/-- A block that leaves the cache may have been hoarded, and has no entry left unless it is
queued. -/
theorem Holds.evict (H : h.Holds cached freq recent) (hv : v ∈ cached) :
    ∃ h', hoardTrackerEvict h v = .ok h' ∧ h.SameSizes h' ∧
      h'.Holds (cached.erase v) freq recent ∧ ∀ o, o ≠ v → hoardLookup h' o = hoardLookup h o := by
  obtain ⟨i, hl, hi, rfl⟩ := H.table.exists_lookup (Finset.mem_union_left _ hv)
  have hcount := H.count_erase hi hv
  have hhoarded : hoarded (cached.erase (h.oblock i)) freq recent =
      (hoarded cached freq recent).erase (h.oblock i) := by
    ext a
    rw [Finset.mem_erase, mem_hoarded, mem_hoarded, Finset.mem_erase, and_assoc]
  have hne : ∀ j ∈ h.ht, j ≠ i → h.oblock j ≠ h.oblock i := fun j hj hji heq =>
    hji (H.table.inj j hj i hi heq)
  rw [hoardTrackerEvict, hl]
  dsimp only
  by_cases hq : i ∈ h.q
  · have hrecent := (H.mem_q hi).mp hq
    have htracked : cached.erase (h.oblock i) ∪ recent.toFinset = cached ∪ recent.toFinset := by
      ext a
      rw [Finset.mem_union, Finset.mem_union, Finset.mem_erase, List.mem_toFinset]
      by_cases ha : a = h.oblock i
      · simp [ha, hrecent]
      · simp [ha]
    rw [if_neg fun hx => hx hq]
    refine ⟨_, rfl, ⟨rfl, rfl⟩, ⟨?_, H.queue, H.q_ht, H.nodup, fun j hj => ?_, fun j hj hc => ?_,
      ?_⟩, fun _ _ => rfl⟩
    · rw [htracked]
      exact H.table.congr rfl rfl
    · show Function.update h.inCache i false j = true ↔ h.oblock j ∈ _
      rw [Finset.mem_erase]
      by_cases hji : j = i
      · rw [hji, Function.update_self]
        simp
      · rw [Function.update_of_ne hji, H.inCache_iff j hj]
        exact (and_iff_right (hne j hj hji)).symm
    · show Function.update h.freq i 0 j = u32 (freq (h.oblock j))
      obtain ⟨hji, hc⟩ := Finset.mem_erase.mp hc
      rw [Function.update_of_ne fun heq => hji (congrArg h.oblock heq)]
      exact H.freq_eq j hj hc
    · rw [hhoarded, ← hcount, if_neg fun hx => hx.1 hq]
  · have hrecent : h.oblock i ∉ recent := fun hx => hq ((H.mem_q hi).mpr hx)
    have htracked : insert (h.oblock i) (cached.erase (h.oblock i) ∪ recent.toFinset) =
        cached ∪ recent.toFinset := by
      rw [← Finset.insert_union, Finset.insert_erase hv]
    rw [if_pos hq, ite_count]
    have Hbut : ({ h with count := if h.freq i > 1 then dec32 h.count else h.count } :
        HoardTracker).HoldsBut i (cached.erase (h.oblock i)) freq recent := by
      refine ⟨?_, hi, ⟨fun hx => (Finset.mem_erase.mp hx).1 rfl, hrecent⟩, H.queue, H.q_ht, H.nodup,
        fun j hj hji => ?_, fun j hj _ hc => H.freq_eq j hj (Finset.mem_of_mem_erase hc), ?_⟩
      · exact (htracked ▸ H.table).congr rfl rfl
      · show h.inCache j = true ↔ h.oblock j ∈ _
        rw [Finset.mem_erase, H.inCache_iff j hj]
        exact (and_iff_right (hne j hj hji)).symm
      · rw [hhoarded, ← hcount]
        simp only [hq, not_false_eq_true, true_and]
    obtain ⟨h', hrun, hsize, H', hlookup⟩ := Hbut.remove
    exact ⟨h', hrun, ⟨hsize.cacheSize, hsize.nrEntries⟩, H', hlookup⟩

/-- A cached block that leaves the queue is hoarded if it has been accessed twice. -/
theorem hoarded_tail (freq : Oblock → Nat) (hc : v ∈ cached) (hout : v ∉ recent) :
    (hoarded cached freq recent).card =
      if u32 (freq v) > 1 then (hoarded cached freq (v :: recent)).card + 1
      else (hoarded cached freq (v :: recent)).card := by
  have hnot : v ∉ hoarded cached freq (v :: recent) := fun hx =>
    (mem_hoarded.mp hx).2.2 List.mem_cons_self
  split
  · next hf =>
    rw [← Finset.card_insert_of_notMem hnot]
    congr 1
    ext a
    rw [Finset.mem_insert, mem_hoarded, mem_hoarded, List.mem_cons]
    by_cases ha : a = v
    · simp [ha, hc, hf, hout]
    · simp [ha]
  · next hf =>
    congr 1
    ext a
    rw [mem_hoarded, mem_hoarded, List.mem_cons]
    by_cases ha : a = v
    · simp [ha, hf]
    · simp [ha]

theorem hoarded_forget (hc : v ∉ cached) :
    hoarded cached freq recent = hoarded cached freq (v :: recent) := by
  ext a
  rw [mem_hoarded, mem_hoarded, List.mem_cons]
  by_cases ha : a = v
  · simp [ha, hc]
  · simp [ha]

/-- A block that leaves the queue is hoarded, or forgotten if it is not cached. -/
theorem Holds.trim (H : h.Holds cached freq recent) :
    ∃ h', hoardTrackerTrim h = .ok h' ∧ h.SameSizes h' ∧
      h'.Holds cached freq (Lib.trim (u32 (2 * h.cacheSize)) recent) := by
  have hlen : h.q.length = recent.length := by
    rw [← H.queue, List.length_map]
  rw [hoardTrackerTrim, hlen, Lib.trim]
  by_cases hlong : recent.length > u32 (2 * h.cacheSize)
  · rw [if_pos hlong, if_pos hlong]
    cases hq : h.q with
    | nil =>
      rw [hq, List.length_nil] at hlen
      omega
    | cons i q =>
      have hi : i ∈ h.ht := H.q_ht i (by rw [hq]; exact List.mem_cons_self)
      have hrecent : recent = h.oblock i :: q.map h.oblock := by
        rw [← H.queue, hq, List.map_cons]
      obtain ⟨hout, hnodup⟩ := List.nodup_cons.mp (hrecent ▸ H.nodup)
      have hqht : ∀ j ∈ q, j ∈ h.ht := fun j hj =>
        H.q_ht j (by rw [hq]; exact List.mem_cons_of_mem _ hj)
      rw [List.head?_cons, deref_some, ok_bind, List.erase_cons_head, hrecent, List.tail_cons]
      rw [hrecent] at H
      by_cases hc : h.oblock i ∈ cached
      · have hin : h.inCache i = true := (H.inCache_iff i hi).mpr hc
        have hkeep : ∀ n, n = (hoarded cached freq (q.map h.oblock)).card →
            ({ h with q := q, count := n } : HoardTracker).Holds cached freq
              (q.map h.oblock) := by
          intro n hn
          refine ⟨?_, rfl, hqht, hnodup, H.inCache_iff, H.freq_eq, hn⟩
          have htracked : cached ∪ (h.oblock i :: q.map h.oblock).toFinset =
              cached ∪ (q.map h.oblock).toFinset := by
            rw [List.toFinset_cons, Finset.union_insert, Finset.insert_eq_of_mem]
            exact Finset.mem_union_left _ hc
          rw [← htracked]
          exact H.table.congr rfl rfl
        have hcard := hoarded_tail freq hc hout
        rw [← H.freq_eq i hi hc, ← H.count_eq] at hcard
        simp only [hin, if_true]
        by_cases hf : h.freq i > 1
        · rw [if_pos hf] at hcard ⊢
          have hle := hoarded_card_le cached freq (q.map h.oblock)
          have hlt := H.cached_lt
          exact ⟨_, rfl, ⟨rfl, rfl⟩, hkeep _ (by rw [u32_of_lt (by omega), hcard])⟩
        · rw [if_neg hf] at hcard ⊢
          exact ⟨_, rfl, ⟨rfl, rfl⟩, hkeep _ hcard.symm⟩
      · have hin : ¬h.inCache i = true := fun hin => hc ((H.inCache_iff i hi).mp hin)
        have htracked : insert (h.oblock i) (cached ∪ (q.map h.oblock).toFinset) =
            cached ∪ (h.oblock i :: q.map h.oblock).toFinset := by
          rw [List.toFinset_cons, Finset.union_insert]
        have Hbut : ({ h with q := q } : HoardTracker).HoldsBut i cached freq
            (q.map h.oblock) := by
          refine ⟨?_, hi, ⟨hc, hout⟩, rfl, hqht, hnodup, fun j hj _ => H.inCache_iff j hj,
            fun j hj _ => H.freq_eq j hj, ?_⟩
          · exact (htracked ▸ H.table).congr rfl rfl
          · rw [hoarded_forget hc]
            exact H.count_eq
        obtain ⟨h', hrun, hsize, H', _⟩ := Hbut.remove
        exact ⟨h', by rw [if_neg hin]; exact hrun, ⟨hsize.cacheSize, hsize.nrEntries⟩, H'⟩
  · rw [if_neg hlong, if_neg hlong]
    exact ⟨h, rfl, ⟨rfl, rfl⟩, H⟩

end HoardTracker

end Fomo
