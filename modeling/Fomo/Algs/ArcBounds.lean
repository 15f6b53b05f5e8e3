import Fomo.Algs.ArcMap

/-!
# The list lengths of ARC

A length counts the entries of its list, queued or migrating. Ghosts exist only when the
cache is full; with that, the bounds on the lengths survive every step, every eviction a
transaction plans finds an entry, and every ghost finds room.
-/
namespace Fomo

namespace ArcPolicy

variable {s s' : ArcPolicy} {r : EntryRef} {e : Entry} {o : Oblock} {list l : ArcList}
  {at' : ArcTransaction} {c m : Nat}

/-! ## Lengths, queues and pools -/

/-- The entries of a list that migrate. -/
def migratingIn (s : ArcPolicy) (list : ArcList) : Nat :=
  (s.nucleus.pool list.pool).migrating.countP fun i => decide (s.loc ⟨list.pool, i⟩ = list)

theorem Inv.nodup_index (h : s.Inv) (list : ArcList) :
    ((s.arcQ list).map EntryRef.index).Nodup := by
  apply (h.queued.nodup list).map_on
  intro x hx y hy hxy
  have hpx := h.pool_of_mem hx
  have hpy := h.pool_of_mem hy
  cases x
  cases y
  simp_all

theorem Inv.mem_index (h : s.Inv) (list : ArcList) (i : Nat) :
    i ∈ (s.arcQ list).map EntryRef.index ↔ (⟨list.pool, i⟩ : EntryRef) ∈ s.arcQ list := by
  rw [List.mem_map]
  constructor
  · intro hi
    obtain ⟨x, hx, hi⟩ := hi
    have hp := h.pool_of_mem hx
    cases x
    simp_all
  · exact fun hx => ⟨_, hx, rfl⟩

/-- A length counts the queue and the migrating entries of its list. -/
theorem Inv.length_eq (h : s.Inv) (list : ArcList) :
    s.length list = queueLength (s.arcQ list) + s.migratingIn list := by
  have hw := h.wf.pools list.pool
  rw [h.length, members, Lib.slots_split _ _ fun i => (s.nucleus.entry ⟨list.pool, i⟩).migrating]
  have hmig : Lib.slots (s.nucleus.pool list.pool).nrEntries (fun i =>
      ((s.nucleus.entry ⟨list.pool, i⟩).allocated && decide (s.loc ⟨list.pool, i⟩ = list)) &&
        (s.nucleus.entry ⟨list.pool, i⟩).migrating) = s.migratingIn list := by
    rw [migratingIn, List.countP_eq_length_filter]
    apply Lib.slots_eq_length (hw.migrating_nodup.filter _)
    intro i
    rw [List.mem_filter, hw.mem_migrating]
    simp only [Bool.and_eq_true, decide_eq_true_eq]
    constructor
    · intro hx
      have ha := hw.allocated_of_migrating i hx.1
      exact ⟨hw.lt_of_allocated i ha, ⟨ha, hx.2⟩, hx.1⟩
    · exact fun hx => ⟨hx.2.2, hx.2.1.2⟩
  have hq : Lib.slots (s.nucleus.pool list.pool).nrEntries (fun i =>
      ((s.nucleus.entry ⟨list.pool, i⟩).allocated && decide (s.loc ⟨list.pool, i⟩ = list)) &&
        !(s.nucleus.entry ⟨list.pool, i⟩).migrating) = queueLength (s.arcQ list) := by
    rw [queueLength_eq, ← List.length_map EntryRef.index]
    apply Lib.slots_eq_length (h.nodup_index list)
    intro i
    rw [h.mem_index, h.queued.mem]
    simp only [Bool.and_eq_true, decide_eq_true_eq, Bool.not_eq_true']
    constructor
    · intro hx
      exact ⟨h.wf.lt_of_allocated hx.1, ⟨hx.1, hx.2.2⟩, hx.2.1⟩
    · exact fun hx => ⟨hx.2.1.1, hx.2.2, hx.2.1.2⟩
  omega

/-- Ghosts do not migrate. -/
theorem Inv.migratingIn_ghost (h : s.Inv) (hp : list.pool = .metadata) :
    s.migratingIn list = 0 := by
  rw [migratingIn, List.countP_eq_zero]
  intro i hi
  have hm := ((h.wf.pools list.pool).mem_migrating i).mp hi
  have := h.settled ⟨list.pool, i⟩ hp
  rw [show (s.nucleus.pool list.pool).entries i = s.nucleus.entry ⟨list.pool, i⟩ from rfl, this]
    at hm
  cases hm

theorem Inv.queue_ne_nil (h : s.Inv) (hp : list.pool = .metadata) (hpos : 0 < s.length list) :
    s.arcQ list ≠ [] := by
  have := h.length_eq list
  rw [h.migratingIn_ghost hp, queueLength_eq] at this
  intro hq
  rw [hq, List.length_nil] at this
  omega

/-- Two lists share each pool. -/
theorem Inv.length_pool (h : s.Inv) {p : PoolId} {x y : ArcList} (hx : x.pool = p) (hy : y.pool = p)
    (hxy : x ≠ y) (hall : ∀ z : ArcList, z ≠ .null → z.pool = p → z = x ∨ z = y) :
    s.length x + s.length y = (s.nucleus.pool p).nrAllocated := by
  subst hx
  have hw := h.wf.pools x.pool
  have hfree : (s.nucleus.pool x.pool).free.length =
      Lib.slots (s.nucleus.pool x.pool).nrEntries fun i =>
        !(s.nucleus.entry ⟨x.pool, i⟩).allocated := by
    symm
    apply Lib.slots_eq_length hw.free_nodup
    intro i
    rw [hw.mem_free]
    simp [CacheNucleus.entry]
  have hn := hw.nr_allocated
  have htot := Lib.slots_split (s.nucleus.pool x.pool).nrEntries (fun _ => true) fun i =>
    (s.nucleus.entry ⟨x.pool, i⟩).allocated
  have hsplit := Lib.slots_split (s.nucleus.pool x.pool).nrEntries (fun i =>
    (s.nucleus.entry ⟨x.pool, i⟩).allocated) fun i => decide (s.loc ⟨x.pool, i⟩ = x)
  have hyy : Lib.slots (s.nucleus.pool x.pool).nrEntries (fun i =>
      (s.nucleus.entry ⟨x.pool, i⟩).allocated && !decide (s.loc ⟨x.pool, i⟩ = x)) =
      s.members y := by
    rw [members, hy]
    apply Lib.slots_congr
    intro i _
    cases ha : (s.nucleus.entry ⟨x.pool, i⟩).allocated with
    | false => rfl
    | true =>
      obtain ⟨hnull, hpool⟩ := h.home _ ha
      rcases hall _ hnull hpool with hz | hz
      · simp [hz, hxy]
      · simp [hz, hxy.symm]
  have hall : Lib.slots (s.nucleus.pool x.pool).nrEntries (fun _ => true) =
      (s.nucleus.pool x.pool).nrEntries := by
    simp [Lib.slots]
  rw [h.length, h.length, ← hyy]
  simp only [Bool.true_and] at htot
  rw [members]
  omega

theorem Inv.length_cache (h : s.Inv) :
    s.length .t1 + s.length .t2 = (s.nucleus.pool .cache).nrAllocated := by
  apply h.length_pool (x := .t1) (y := .t2) rfl rfl (by decide)
  intro z hz hp
  cases z <;> simp_all [ArcList.pool]

theorem Inv.length_meta (h : s.Inv) :
    s.length .b1 + s.length .b2 = (s.nucleus.pool .metadata).nrAllocated := by
  apply h.length_pool (x := .b1) (y := .b2) rfl rfl (by decide)
  intro z hz hp
  cases z <;> simp_all [ArcList.pool]

/-! ## How a request changes the lengths -/

/-- `1` for the list itself. -/
def one (x l : ArcList) : Nat := if x = l then 1 else 0

theorem inList_eq_one {e : Entry} (ha : e.allocated = true) (x l : ArcList) :
    inList e x l = one x l := by
  by_cases hx : x = l
  · subst hx
    rw [inList_self ha, one, if_pos rfl]
  · rw [inList_of_ne hx, one, if_neg hx]

theorem Frees.length (hs : s.Frees r s') (h : s.Inv) (ha : (s.nucleus.entry r).allocated = true)
    (l : ArcList) : s'.length l + one (s.loc r) l = s.length l := by
  have := Step.length hs h (h.wf.lt_of_allocated ha) l
  rw [inList_eq_one ha, inList_of_free (e := CacheNucleus.freedEntry _ r) rfl] at this
  exact this

/-- Freeing the head of a queue, or nothing when there is no queue to look at. -/
theorem FreesAny.length_head (hs : s.FreesAny (queuePeek (s.arcQ list)) s') (h : s.Inv)
    (hne : list ≠ .null → s.arcQ list ≠ []) (hl : l ≠ .null) :
    s'.length l + one list l = s.length l := by
  by_cases hn : list = .null
  · subst hn
    rw [h.arcQ_null] at hs
    cases hs
    rw [one, if_neg (Ne.symm hl), Nat.add_zero]
  · obtain ⟨r, q, hq⟩ := List.exists_cons_of_ne_nil (hne hn)
    rw [hq] at hs
    cases hs with
    | some ha hs =>
      have := hs.length h ha l
      rwa [(h.head hq).2.2] at this

theorem Step.length_take {free : List Nat} {q : ArcList → Queue}
    (hs : s.Step r e list free q s') (h : s.Inv)
    (hnew : (s.nucleus.entry r).allocated = false) (ha : e.allocated = true) (l : ArcList) :
    s'.length l = s.length l + one list l := by
  have hlt := hs.inv.wf.lt_of_allocated (r := r) (by rw [hs.rewrites.entry_self]; exact ha)
  rw [hs.rewrites.nrEntries] at hlt
  have := hs.length h hlt l
  rwa [inList_of_free hnew, inList_eq_one ha] at this

/-- How many of the entries of `o` a list loses when it is forgotten. -/
def ghostIn (s : ArcPolicy) (o : Oblock) (l : ArcList) : Nat :=
  (hashLookup s.nucleus o).elim 0 fun r => one (s.loc r) l

theorem FreesAny.length_forget (hs : s.FreesAny (hashLookup s.nucleus o) s') (h : s.Inv)
    (l : ArcList) : s'.length l + s.ghostIn o l = s.length l := by
  unfold ghostIn
  cases hl : hashLookup s.nucleus o with
  | none =>
    rw [hl] at hs
    cases hs
    rfl
  | some r =>
    rw [hl] at hs
    cases hs with
    | some ha hs => exact hs.length h ha l

theorem Ghosts.length (hs : s.Ghosts o list s') (h : s.Inv) (hl : l ≠ .null) :
    s'.length l = s.length l + one list l := by
  cases hs with
  | none => rw [one, if_neg (Ne.symm hl), Nat.add_zero]
  | some hd hf hs =>
    have hfree := (h.wf.mem_free (r := ⟨.metadata, _⟩)).mp (hf ▸ List.mem_cons_self)
    exact hs.length_take h hfree.2 rfl l

/-- The lengths after a miss. -/
theorem Missed.length {w : Bool} {old : Oblock} {cb : Cblock} (hm : s.Missed o w at' old cb s')
    (h : s.Inv) (hne : at'.cacheEvict ≠ .null → s.arcQ at'.cacheEvict ≠ []) (hl : l ≠ .null) :
    s'.length l + s.ghostIn o l + one at'.metaEvict l + one at'.cacheEvict l =
      s.length l + one at'.ghostDest l + one at'.dest l := by
  obtain ⟨hmeta, hs1, hq1, hs2, hq2, hs3, hs4, hf, hs5⟩ := hm
  have h0 := h.aim at'.p
  have h1 := hs1.inv h0
  have h2 := hs2.inv h1
  have h3 := hs3.inv h2
  have h4 := hs4.inv h3
  have e1 : _ + s.ghostIn o l = s.length l := hs1.length_forget h0 l
  rw [← hq1] at hs2 hmeta
  rw [← hq2] at hs3 hne
  have e2 := hs2.length_head h1 hmeta hl
  have e3 := hs3.length_head h2 hne hl
  have e4 := hs4.length h3 hl
  have hfree := (h4.wf.mem_free (r := ⟨.cache, cb⟩)).mp (hf ▸ List.mem_cons_self)
  have e5 := hs5.length_take h4 hfree.2 rfl l
  omega

theorem Missed.inv {w : Bool} {old : Oblock} {cb : Cblock} (hm : s.Missed o w at' old cb s') :
    s'.Inv := by
  obtain ⟨-, -, -, -, -, -, -, -, hs5⟩ := hm
  exact hs5.inv

/-- The target and the sizes are the same. -/
structure SameSizes (s s' : ArcPolicy) : Prop where
  p : s'.p = s.p
  cacheSize : s'.nucleus.cacheSize = s.nucleus.cacheSize
  nrEntries : ∀ p, (s'.nucleus.pool p).nrEntries = (s.nucleus.pool p).nrEntries

theorem SameSizes.trans {s1 s2 s3 : ArcPolicy} (h : SameSizes s1 s2) (h' : SameSizes s2 s3) :
    SameSizes s1 s3 :=
  ⟨h'.p.trans h.p, h'.cacheSize.trans h.cacheSize,
    fun p => (h'.nrEntries p).trans (h.nrEntries p)⟩

theorem Step.sizes {free : List Nat} {q : ArcList → Queue} (hs : s.Step r e list free q s') :
    SameSizes s s' := ⟨hs.p, hs.rewrites.cacheSize, hs.rewrites.nrEntries⟩

theorem FreesAny.sizes {x : Option EntryRef} (hs : s.FreesAny x s') : SameSizes s s' := by
  cases hs with
  | none => exact ⟨rfl, rfl, fun _ => rfl⟩
  | some ha hs => exact hs.sizes

theorem Ghosts.sizes (hs : s.Ghosts o list s') : SameSizes s s' := by
  cases hs with
  | none => exact ⟨rfl, rfl, fun _ => rfl⟩
  | some hd hf hs => exact hs.sizes

/-- A miss leaves the target of its plan and the sizes. -/
theorem Missed.sizes {w : Bool} {old : Oblock} {cb : Cblock} (hm : s.Missed o w at' old cb s') :
    SameSizes (s.aim at'.p) s' := by
  obtain ⟨-, hs1, -, hs2, -, hs3, hs4, -, hs5⟩ := hm
  exact hs1.sizes.trans (hs2.sizes.trans (hs3.sizes.trans (hs4.sizes.trans hs5.sizes)))

/-! ## The bounds -/

/-- The invariant of ARC with `c` slots and `m` ghost entries. -/
structure Bounded (c m : Nat) (s : ArcPolicy) : Prop where
  inv : s.Inv
  cacheSize : s.nucleus.cacheSize = c
  cacheEntries : (s.nucleus.pool .cache).nrEntries = c
  metaEntries : (s.nucleus.pool .metadata).nrEntries = m
  l1 : s.length .t1 + s.length .b1 ≤ c
  total : s.length .t1 + s.length .b1 + (s.length .t2 + s.length .b2) ≤ 2 * c
  p : s.p ≤ c
  ghosts : 0 < s.length .b1 + s.length .b2 → s.length .t1 + s.length .t2 = c

theorem Bounded.cached_le (h : s.Bounded c m) : s.length .t1 + s.length .t2 ≤ c := by
  have h1 := h.inv.length_cache
  have h2 := (h.inv.wf.pools .cache).nr_allocated
  have h3 := h.cacheEntries
  omega

theorem Bounded.cached_eq (h : s.Bounded c m) :
    (s.nucleus.pool .cache).free = [] ↔ s.length .t1 + s.length .t2 = c := by
  have h1 := h.inv.length_cache
  have h2 := (h.inv.wf.pools .cache).nr_allocated
  have h3 := h.cacheEntries
  rw [← List.length_eq_zero_iff]
  omega

theorem Bounded.ghosts_eq (h : s.Bounded c m) (hf : (s.nucleus.pool .metadata).free = []) :
    s.length .b1 + s.length .b2 = m := by
  have h1 := h.inv.length_meta
  have h2 := (h.inv.wf.pools .metadata).nr_allocated
  have h3 := h.metaEntries
  rw [hf, List.length_nil] at h2
  omega

/-- Only the lengths matter for a step that keeps the target and the pools. -/
theorem Bounded.step (h : s.Bounded c m) {free : List Nat} {q : ArcList → Queue}
    (hs : s.Step r e list free q s')
    (l1 : s'.length .t1 + s'.length .b1 ≤ c)
    (total : s'.length .t1 + s'.length .b1 + (s'.length .t2 + s'.length .b2) ≤ 2 * c)
    (ghosts : 0 < s'.length .b1 + s'.length .b2 → s'.length .t1 + s'.length .t2 = c) :
    s'.Bounded c m where
  inv := hs.inv
  cacheSize := hs.rewrites.cacheSize.trans h.cacheSize
  cacheEntries := (hs.rewrites.nrEntries _).trans h.cacheEntries
  metaEntries := (hs.rewrites.nrEntries _).trans h.metaEntries
  l1 := l1
  total := total
  p := hs.p.symm ▸ h.p
  ghosts := ghosts

/-- The sums of the transaction do not wrap. -/
theorem Bounded.sums (h : s.Bounded c m) (hc : c < 2 ^ 31) :
    u32 (s.length .t1 + s.length .b1) = s.length .t1 + s.length .b1 ∧
    u32 (u32 (s.length .t1 + s.length .b1) + u32 (s.length .t2 + s.length .b2)) =
      s.length .t1 + s.length .b1 + (s.length .t2 + s.length .b2) ∧
    u32 (2 * s.nucleus.cacheSize) = 2 * c := by
  have h1 := h.l1
  have h2 := h.total
  rw [h.cacheSize, u32_of_lt (n := s.length .t1 + s.length .b1) (by omega),
    u32_of_lt (n := s.length .t2 + s.length .b2) (by omega), u32_of_lt (by omega),
    u32_of_lt (by omega)]
  exact ⟨rfl, rfl, rfl⟩

/-- The lengths that a committed plan leaves. -/
def After (s s' : ArcPolicy) (o : Oblock) (at' : ArcTransaction) : Prop :=
  ∀ l, l ≠ .null → s'.length l + s.ghostIn o l + one at'.metaEvict l + one at'.cacheEvict l =
      s.length l + one at'.ghostDest l + one at'.dest l

theorem ghostIn_of_absent (h : s.Inv) (habs : s.nucleus.Absent o) (l : ArcList) :
    s.ghostIn o l = 0 := by
  rw [ghostIn, h.wf.hashLookup_eq_none.mpr habs]
  rfl

theorem ghostIn_of_lookup (hl : hashLookup s.nucleus o = some r) (l : ArcList) :
    s.ghostIn o l = one (s.loc r) l := by
  rw [ghostIn, hl]
  rfl

/-- The target a plan sets is at most the cache size. -/
theorem Bounded.target (h : s.Bounded c m) (hst : s.Staged o at') : at'.p ≤ c := by
  have hp := h.p
  have hrep : ∀ a : ArcTransaction, (arcReplace s a).p = a.p := by
    intro a
    rcases arcReplace_cases s a with ⟨_, _, heq⟩ | ⟨_, heq⟩
    all_goals rw [heq]
  cases hst with
  | hit hl hp' => exact hp
  | b1 hl hloc =>
    show (arcReplace s _).p ≤ c
    rw [hrep, ← h.cacheSize]
    exact Nat.min_le_left _ _
  | b2 hl hloc =>
    show (arcReplace s _).p ≤ c
    rw [hrep]
    show (if _ then _ else _) ≤ c
    split
    · exact (Nat.sub_le _ _).trans hp
    · exact Nat.zero_le c
  | fullB1 habs hc ht =>
    show (arcReplace s _).p ≤ c
    rw [hrep]
    exact hp
  | fullT1 habs hc ht => exact hp
  | fullB2 habs hc hge h2 =>
    show (arcReplace s _).p ≤ c
    rw [hrep]
    exact hp
  | replace habs hc hge h2 =>
    show (arcReplace s _).p ≤ c
    rw [hrep]
    exact hp
  | room habs hc hlt => exact hp

/-- What the bounds need of the lengths after a committed plan. -/
theorem Bounded.after (h : s.Bounded c m) (hc : c < 2 ^ 31) (hst : s.Staged o at')
    (hafter : s.After s' o at') (hcur : ¬(at'.currentLoc = .t1 ∨ at'.currentLoc = .t2)) :
    s'.length .t1 + s'.length .b1 ≤ c ∧
    s'.length .t1 + s'.length .b1 + (s'.length .t2 + s'.length .b2) ≤ 2 * c ∧
    (0 < s'.length .b1 + s'.length .b2 → s'.length .t1 + s'.length .t2 = c) := by
  obtain ⟨hs1, hs2, hs3⟩ := h.sums hc
  have hl1 := h.l1
  have htot := h.total
  have hgh := h.ghosts
  have hle := h.cached_le
  have hsize := h.cacheSize
  have a1 := hafter .t1 (by decide)
  have a2 := hafter .t2 (by decide)
  have b1 := hafter .b1 (by decide)
  have b2 := hafter .b2 (by decide)
  cases hst with
  | @hit r hl hp =>
    exact absurd (h.inv.loc_of_cached (h.inv.wf.hashLookup_eq_some.mp hl).1 hp) hcur
  | b1 hl hloc =>
    rw [ghostIn_of_lookup hl, hloc] at a1 a2 b1 b2
    rcases arcReplace_cases s { arcTransactionInit s o with
        currentLoc := .b1
        p := min s.nucleus.cacheSize (u32 (s.p + max (s.length .b2 / s.length .b1) 1)) } with
      ⟨_, _, heq⟩ | ⟨_, heq⟩
    all_goals
      rw [heq] at a1 a2 b1 b2
      simp [arcTransactionInit, ArcTransaction.ghostDest, one] at a1 a2 b1 b2
      omega
  | b2 hl hloc =>
    rw [ghostIn_of_lookup hl, hloc] at a1 a2 b1 b2
    rcases arcReplace_cases s { arcTransactionInit s o with
        currentLoc := .b2
        p := if s.p > max (s.length .b1 / s.length .b2) 1 then
          s.p - max (s.length .b1 / s.length .b2) 1 else 0 } with ⟨_, _, heq⟩ | ⟨_, heq⟩
    all_goals
      rw [heq] at a1 a2 b1 b2
      simp [arcTransactionInit, ArcTransaction.ghostDest, one] at a1 a2 b1 b2
      omega
  | fullB1 habs hfull ht =>
    simp only [ghostIn_of_absent h.inv habs] at a1 a2 b1 b2
    rcases arcReplace_cases s { arcTransactionInit s o with metaEvict := .b1 } with
      ⟨_, _, heq⟩ | ⟨_, heq⟩
    all_goals
      rw [heq] at a1 a2 b1 b2
      simp [ArcTransaction.ghostDest, one] at a1 a2 b1 b2
      omega
  | fullT1 habs hfull ht =>
    simp only [ghostIn_of_absent h.inv habs] at a1 a2 b1 b2
    simp [arcTransactionInit, ArcTransaction.ghostDest, one] at a1 a2 b1 b2
    omega
  | fullB2 habs hlt hge h2 =>
    simp only [ghostIn_of_absent h.inv habs] at a1 a2 b1 b2
    rcases arcReplace_cases s { arcTransactionInit s o with metaEvict := .b2 } with
      ⟨_, _, heq⟩ | ⟨_, heq⟩
    all_goals
      rw [heq] at a1 a2 b1 b2
      simp [ArcTransaction.ghostDest, one] at a1 a2 b1 b2
      omega
  | replace habs hlt hge h2 =>
    simp only [ghostIn_of_absent h.inv habs] at a1 a2 b1 b2
    rcases arcReplace_cases s (arcTransactionInit s o) with ⟨_, _, heq⟩ | ⟨_, heq⟩
    all_goals
      rw [heq] at a1 a2 b1 b2
      simp [arcTransactionInit, ArcTransaction.ghostDest, one] at a1 a2 b1 b2
      omega
  | room habs hne hroom =>
    simp only [ghostIn_of_absent h.inv habs] at a1 a2 b1 b2
    simp [arcTransactionInit, ArcTransaction.ghostDest, one] at a1 a2 b1 b2
    omega

theorem arcReplace_metaEvict (s : ArcPolicy) (at' : ArcTransaction) :
    (arcReplace s at').metaEvict = at'.metaEvict := by
  rcases arcReplace_cases s at' with ⟨_, _, heq⟩ | ⟨_, heq⟩
  all_goals rw [heq]

theorem arcReplace_cacheEvict (s : ArcPolicy) (at' : ArcTransaction) :
    (arcReplace s at').cacheEvict ≠ .null := by
  rcases arcReplace_cases s at' with ⟨_, _, heq⟩ | ⟨_, heq⟩
  all_goals
    rw [heq]
    simp

/-- A plan that evicts from the cache and touches no ghost is not stuck. -/
theorem not_stuck_of_no_ghost (hce : at'.cacheEvict ≠ .null) (hm : at'.metaEvict = .null)
    (hgd : at'.ghostDest = .null) : ¬s.Stuck o at' := by
  rintro (⟨hme, _⟩ | ⟨hg, _⟩ | ⟨hc, _⟩)
  · exact hme hm
  · exact hg hgd
  · exact hce hc

/-- A plan that replaces for a known block counts on no ghost. -/
theorem arcReplace_known {at0 : ArcTransaction} {r : EntryRef} (hw : s.nucleus.Wf)
    (hl : hashLookup s.nucleus o = some r) (hm : at0.metaEvict = .null) :
    ¬s.Stuck o (arcReplace s at0) := by
  rintro (⟨hme, _⟩ | ⟨_, _, habs, _⟩ | ⟨hce, _⟩)
  · exact hme ((arcReplace_metaEvict s at0).trans hm)
  · rw [hw.hashLookup_eq_none.mpr habs] at hl
    cases hl
  · exact arcReplace_cacheEvict s at0 hce

/-- A plan that replaces and evicts a ghost finds one. -/
theorem arcReplace_evicts {at0 : ArcTransaction} (hm : at0.metaEvict ≠ .null)
    (hq : s.arcQ at0.metaEvict ≠ []) : ¬s.Stuck o (arcReplace s at0) := by
  rintro (⟨_, hnil⟩ | ⟨_, hme, _⟩ | ⟨hce, _⟩)
  · rw [arcReplace_metaEvict] at hnil
    exact hq hnil
  · exact hm ((arcReplace_metaEvict s at0).symm.trans hme)
  · exact arcReplace_cacheEvict s at0 hce

/-- Without migrations a length is that of its queue. -/
theorem Inv.length_of_settled (h : s.Inv) (hm : ∀ r, (s.nucleus.entry r).migrating = false)
    (list : ArcList) : s.length list = queueLength (s.arcQ list) := by
  have hmig : s.migratingIn list = 0 := by
    rw [migratingIn, List.countP_eq_zero]
    intro i hi
    have := ((h.wf.pools list.pool).mem_migrating i).mp hi
    exact absurd this (by rw [show (s.nucleus.pool list.pool).entries i =
      s.nucleus.entry ⟨list.pool, i⟩ from rfl, hm]; decide)
  rw [h.length_eq, hmig, Nat.add_zero]

/-- Without migrations a queue is empty when its list is. -/
theorem Inv.queue_nil_iff (h : s.Inv) (hm : ∀ r, (s.nucleus.entry r).migrating = false)
    (list : ArcList) : s.arcQ list = [] ↔ s.length list = 0 := by
  rw [h.length_of_settled hm, queueLength_eq, List.length_eq_zero_iff]

/-- The list REPLACE picks has an entry exactly when it prefers `T1` or `T2` has one. -/
theorem Inv.replace_iff (h : s.Inv) (hm : ∀ r, (s.nucleus.entry r).migrating = false)
    (a : ArcTransaction) :
    ((arcReplace s a).cacheEvict ≠ .null → s.arcQ (arcReplace s a).cacheEvict ≠ []) ↔
      0 < s.length .t2 ∨ (1 ≤ s.length .t1 ∧
        (a.p < s.length .t1 ∨ (s.length .t1 = a.p ∧ a.currentLoc = .b2))) := by
  have hne := arcReplace_cacheEvict s a
  rcases arcReplace_cases s a with ⟨h1, h2, heq⟩ | ⟨hno, heq⟩
  · refine iff_of_true (fun _ hq => ?_) (Or.inr ⟨h1, h2.symm.imp_right And.symm⟩)
    rw [heq] at hq
    have := (h.queue_nil_iff hm .t1).mp hq
    omega
  · rw [heq]
    constructor
    · intro hx
      refine Or.inl (Nat.pos_of_ne_zero fun h0 => ?_)
      exact hx (fun hn => by cases hn) ((h.queue_nil_iff hm .t2).mpr h0)
    · rintro (hpos | ⟨h1, h2⟩) - hq
      · have := (h.queue_nil_iff hm .t2).mp hq
        omega
      · exact hno ⟨h1, h2.symm.imp_left And.symm⟩

/-- What a plan counts on is there. -/
theorem Bounded.not_stuck (h : s.Bounded c m) (hc : c < 2 ^ 31) (hcm : c ≤ m)
    (hst : s.Staged o at') (hpl : s.Planned o at') : ¬s.Stuck o at' := by
  obtain ⟨hs1, hs2, hs3⟩ := h.sums hc
  have hl1 := h.l1
  have htot := h.total
  have hgh := h.ghosts
  have hle := h.cached_le
  have hsize := h.cacheSize
  cases hst with
  | hit hl hp =>
    have := hpl.uncached _ hl
    rw [hp] at this
    cases this
  | b1 hl hloc => exact arcReplace_known h.inv.wf hl rfl
  | b2 hl hloc => exact arcReplace_known h.inv.wf hl rfl
  | fullB1 habs hfull ht =>
    have hpos : 0 < s.length .b1 := by omega
    exact arcReplace_evicts (fun hx => by cases hx) (h.inv.queue_ne_nil rfl hpos)
  | fullT1 habs hfull ht =>
    exact not_stuck_of_no_ghost (fun hx => by cases hx) rfl
      (by simp [ArcTransaction.ghostDest, arcTransactionInit])
  | fullB2 habs hlt hge h2 =>
    have hpos : 0 < s.length .b2 := by omega
    exact arcReplace_evicts (fun hx => by cases hx) (h.inv.queue_ne_nil rfl hpos)
  | replace habs hlt hge h2 =>
    rintro (⟨hm, _⟩ | ⟨_, _, _, hf⟩ | ⟨hce, _⟩)
    · exact hm (arcReplace_metaEvict _ _)
    · -- a full metadata pool means `2 * c` entries, and then a ghost goes first
      have hghosts := h.ghosts_eq hf
      omega
    · exact arcReplace_cacheEvict _ _ hce
  | room habs hne hroom =>
    rintro (⟨hm, _⟩ | ⟨hgd, _⟩ | ⟨_, hf⟩)
    · exact hm rfl
    · simp [ArcTransaction.ghostDest, arcTransactionInit] at hgd
    · have hfull := h.cached_eq.mp hf
      omega

/-- An entry that stays in use on its list leaves the lengths alone. -/
theorem Bounded.same (h : s.Bounded c m) {free : List Nat} {q : ArcList → Queue}
    (ha : (s.nucleus.entry r).allocated = true) (hs : s.Step r e (s.loc r) free q s')
    (he : e.allocated = true) : s'.Bounded c m := by
  have hlen : ∀ l, s'.length l = s.length l := by
    intro l
    have := hs.length h.inv (h.inv.wf.lt_of_allocated ha) l
    rw [inList_eq_one ha, inList_eq_one he] at this
    omega
  apply h.step hs
  all_goals simp only [hlen]
  · exact h.l1
  · exact h.total
  · exact h.ghosts

/-- A hit moves its entry within the cached lists. -/
theorem Bounded.hit (h : s.Bounded c m) {free : List Nat} {q : ArcList → Queue}
    (ha : (s.nucleus.entry r).allocated = true) (hp : r.pool = .cache)
    (hs : s.Step r e .t2 free q s') (he : e.allocated = true) : s'.Bounded c m := by
  have hlen := hs.length h.inv (h.inv.wf.lt_of_allocated ha)
  simp only [inList_eq_one ha, inList_eq_one he] at hlen
  have hloc := h.inv.loc_of_cached ha hp
  have h1 := h.l1
  have h2 := h.total
  have h3 := h.ghosts
  have t1 := hlen .t1
  have t2 := hlen .t2
  have b1 := hlen .b1
  have b2 := hlen .b2
  rcases hloc with hl | hl
  all_goals
    rw [hl] at t1 t2 b1 b2
    simp [one] at t1 t2 b1 b2
    apply h.step hs
    all_goals omega

/-- A preload needs a free slot, and then there are no ghosts. -/
theorem Bounded.insert (h : s.Bounded c m) {free : List Nat} {q : ArcList → Queue}
    (hnew : (s.nucleus.entry r).allocated = false) (hp : r.pool = .cache)
    (hlt : r.index < (s.nucleus.pool .cache).nrEntries) (he : e.allocated = true)
    (hs : s.Step r e .t1 free q s') : s'.Bounded c m := by
  have hlen := hs.length_take h.inv hnew he
  have hroom : s.length .t1 + s.length .t2 ≠ c := by
    rw [ne_eq, ← h.cached_eq]
    intro hf
    have := (h.inv.wf.mem_free (r := r)).mpr (by rw [hp]; exact ⟨hlt, hnew⟩)
    rw [hp, hf] at this
    cases this
  have hle := h.cached_le
  have h3 := h.ghosts
  have t1 := hlen .t1
  have t2 := hlen .t2
  have b1 := hlen .b1
  have b2 := hlen .b2
  simp [one] at t1 t2 b1 b2
  apply h.step hs
  all_goals omega

end ArcPolicy

end Fomo
