import Fomo.Algs.LirsContract
import Mathlib.Data.Finset.Card
import Mathlib.Data.Finset.Insert

/-!
# The structure of synchronous LIRS

When every migration completes at once, the lists, the status bits and the two counters
agree between requests and no request fails, with two exceptions: the block that
`last_oblock` starts with cannot be the first one requested, and a stack bound that wrapped
in 32 bits is reached while `R` is empty.
-/
namespace Fomo

/-- The number of cached HIR blocks the policy keeps room for. -/
def lirsHirLimit (c : Nat) : Nat := max 2 (c / 100)

/-- `s_maxlen` as `lirs_init` computes it. -/
def lirsMaxlen (c : Nat) : Nat := u32 (2 * c)

namespace LirsPolicy

/-- The lists, the status bits and the counters agree. -/
structure Structured (c : Nat) (s : LirsPolicy) : Prop where
  marked : ∀ r, (s.nucleus.entry r).allocated = true →
    (s.isHIR r = true ↔ r ∈ s.g ∨ r.pool = .cache ∧ r ∈ s.q)
  lir : ∀ r, (s.nucleus.entry r).allocated = true → s.isHIR r = false →
    r.pool = .cache ∧ r ∈ s.s ∧ r ∉ s.q
  lirCount : s.lirCount = Lib.slots (s.nucleus.pool .cache).nrEntries s.lir
  lirLimit : s.lirCount ≤ c - s.hirLimit
  r_eq : s.r = s.s.filter s.isHIR
  bottom : ∀ l ∈ s.s.head?, s.isHIR l = false
  ghosts : ∀ r, r ∈ s.g ↔ (s.nucleus.entry r).allocated = true ∧ r.pool = .metadata
  sLen : s.sLen = s.s.length
  length : s.s.length ≤ 2 * c

/-- Between requests: `seen` are the blocks requested so far. -/
structure Synced (c m : Nat) (seen : List Oblock) (s : LirsPolicy) : Prop where
  sized : s.Sized m
  cacheSize : s.nucleus.cacheSize = c
  cacheEntries : (s.nucleus.pool .cache).nrEntries = c
  hirLimit : s.hirLimit = lirsHirLimit c
  sMaxlen : s.sMaxlen = lirsMaxlen c
  settled : ∀ r, (s.nucleus.entry r).migrating = false
  balanced : s.Balanced 0
  sLen_le : s.sLen ≤ lirsMaxlen c
  pruned : s.Pruned
  lirLimit : s.lirCount ≤ c - lirsHirLimit c
  lirCount_pos : 0 < defaultResidency s.nucleus → 0 < s.lirCount
  filling : defaultResidency s.nucleus < c →
    (∀ i, (s.nucleus.entry ⟨.metadata, i⟩).allocated = false) ∧
    (∀ a, s.nucleus.Cached a ↔ a ∈ seen) ∧ defaultResidency s.nucleus = seen.toFinset.card
  all_lir : defaultResidency s.nucleus ≤ c - lirsHirLimit c →
    ∀ i, (s.nucleus.entry ⟨.cache, i⟩).allocated = true → s.isHIR ⟨.cache, i⟩ = false
  residency_le : defaultResidency s.nucleus ≤ seen.toFinset.card
  last_none : seen = [] → s.lastOblock = 0 - 1
  last_cached : seen ≠ [] → s.nucleus.Cached s.lastOblock

variable {s s' : LirsPolicy} {x : Option EntryRef} {o a : Oblock} {c m n : Nat}
  {seen : List Oblock} {lt : LirsTransaction}

/-! ## Counting -/

/-- The residency counts the allocated slots. -/
theorem Inv.residency_eq (h : s.Inv x) : defaultResidency s.nucleus =
    Lib.slots (s.nucleus.pool .cache).nrEntries
      fun i => (s.nucleus.entry ⟨.cache, i⟩).allocated := by
  have hw := h.wf.pools .cache
  let l := (List.range (s.nucleus.pool .cache).nrEntries).filter fun i =>
    (s.nucleus.entry ⟨.cache, i⟩).allocated
  have hmem : ∀ i, i ∈ l ↔ ((s.nucleus.pool .cache).entries i).allocated = true := by
    intro i
    rw [List.mem_filter, List.mem_range]
    exact ⟨And.right, fun ha => ⟨hw.lt_of_allocated i ha, ha⟩⟩
  have hlen := hw.length_eq_nrAllocated (List.nodup_range.filter _) hmem
  rw [defaultResidency, ← hlen, Lib.slots, List.countP_eq_length_filter]

theorem Inv.lirCount_le (h : s.Inv x) : s.lirCount ≤ defaultResidency s.nucleus := by
  rw [h.lirCount, h.residency_eq]
  apply Lib.slots_mono
  intro i _ hl
  unfold lir at hl
  simp only [Bool.and_eq_true] at hl
  exact hl.1

/-- Without HIR entries in it the stack is no longer than the LIR entries are many. -/
theorem Inv.length_le (h : s.Inv x) (hr : s.r = []) : s.s.length ≤ s.lirCount := by
  have hlir : ∀ u ∈ s.s, u.pool = .cache ∧ s.lir u.index = true := by
    intro u hu
    have hset := h.of_mem_s hu
    have hhir : s.isHIR u = false := by
      by_contra hx
      have hmem := h.mem_r.mpr ⟨hu, by simpa using hx⟩
      rw [hr] at hmem
      cases hmem
    obtain ⟨up, ui⟩ := u
    cases up with
    | cache => exact ⟨rfl, by unfold lir; rw [hset.1, hhir]; rfl⟩
    | metadata =>
      have := ((h.placed _).ghost hset.1 rfl).2
      rw [hhir] at this
      cases this
  have hnd : (s.s.map EntryRef.index).Nodup := by
    refine h.s_nodup.map_on fun u hu v hv huv => ?_
    have hup := (hlir u hu).1
    have hvp := (hlir v hv).1
    cases u; cases v; simp_all
  rw [h.lirCount, ← List.length_map EntryRef.index]
  apply Lib.length_le_slots hnd
  intro i hi
  obtain ⟨u, hu, rfl⟩ := List.mem_map.mp hi
  obtain ⟨hup, hul⟩ := hlir u hu
  refine ⟨?_, hul⟩
  have := h.wf.lt_of_allocated (h.of_mem_s hu).1
  rwa [hup] at this

/-- The stack has every settled LIR entry. -/
theorem Inv.le_length (h : s.Inv x) {p : Nat → Bool}
    (hp : ∀ i, p i = true → s.Settled x ⟨.cache, i⟩ ∧ s.isHIR ⟨.cache, i⟩ = false) :
    Lib.slots n p ≤ s.s.length := by
  rw [← List.length_map EntryRef.index]
  apply Lib.slots_le_length
  intro i _ hpi
  obtain ⟨hset, hhir⟩ := hp i hpi
  exact List.mem_map.mpr ⟨_, (h.placed ⟨.cache, i⟩).mem_s hset fun _ => hhir, rfl⟩

theorem Inv.residency_add_free (h : s.Inv x) :
    defaultResidency s.nucleus + (s.nucleus.pool .cache).free.length =
      (s.nucleus.pool .cache).nrEntries := (h.wf.pools .cache).nr_allocated

theorem Synced.residency_add_free (h : s.Synced c m seen) :
    defaultResidency s.nucleus + (s.nucleus.pool .cache).free.length = c := by
  rw [h.sized.inv.residency_add_free, h.cacheEntries]

theorem Synced.size_lt (h : s.Synced c m seen) : c < 2 ^ 32 := by
  rw [← h.cacheEntries]
  exact (h.sized.inv.wf.pools .cache).nr_lt

theorem lirsHirLimit_lt (hc : 3 ≤ c) : lirsHirLimit c < c ∧ 2 ≤ lirsHirLimit c := by
  unfold lirsHirLimit
  omega

/-- The stack bound is even, so it is not the largest 32-bit value. -/
theorem lirsMaxlen_lt (c : Nat) : lirsMaxlen c < 2 ^ 32 - 1 := by
  unfold lirsMaxlen u32
  omega

/-- A cache that is not empty has a LIR entry in the stack. -/
theorem Synced.exists_lir (h : s.Synced c m seen) (hpos : 0 < defaultResidency s.nucleus) :
    ∃ i, (s.nucleus.entry ⟨.cache, i⟩).allocated = true ∧ s.isHIR ⟨.cache, i⟩ = false ∧
      ⟨.cache, i⟩ ∈ s.s := by
  have hlir := h.lirCount_pos hpos
  rw [h.sized.inv.lirCount] at hlir
  obtain ⟨i, _, hl⟩ := Lib.exists_of_slots_pos hlir
  unfold lir at hl
  simp only [Bool.and_eq_true, Bool.not_eq_true'] at hl
  refine ⟨i, hl.1, hl.2, ?_⟩
  exact (h.sized.inv.placed _).mem_s ⟨hl.1, h.settled _, by simp⟩ fun _ => hl.2

theorem Synced.residency_pos (h : s.Synced c m seen) (hc : s.nucleus.Cached a) :
    0 < defaultResidency s.nucleus := by
  obtain ⟨cb, ha, _⟩ := hc
  exact (h.sized.inv.wf.pools .cache).nr_allocated_pos ha

/-- A full cache has a settled HIR block. -/
theorem Synced.q_ne_nil (h : s.Synced c m seen) (hc : 3 ≤ c)
    (hfull : (s.nucleus.pool .cache).free = []) : s.q ≠ [] := by
  intro hq
  have hres := h.residency_add_free
  rw [hfull, List.length_nil] at hres
  have hhl := lirsHirLimit_lt hc
  have hlim := h.lirLimit
  have hall : ∀ i, (s.nucleus.entry ⟨.cache, i⟩).allocated = true →
      s.isHIR ⟨.cache, i⟩ = false := by
    intro i ha
    by_contra hx
    have hmem := (h.sized.inv.placed ⟨.cache, i⟩).mem_q.mpr
      ⟨⟨ha, h.settled _, by simp⟩, rfl, by simpa using hx⟩
    rw [hq] at hmem
    cases hmem
  have heq : s.lirCount = defaultResidency s.nucleus := by
    rw [h.sized.inv.lirCount, h.sized.inv.residency_eq]
    apply Lib.slots_congr
    intro i _
    unfold lir
    cases ha : (s.nucleus.entry ⟨.cache, i⟩).allocated with
    | false => rfl
    | true => rw [hall i ha]; rfl
  omega

/-- What holds between requests is the structure. -/
theorem Synced.structured (h : s.Synced c m seen) : s.Structured c where
  marked := fun r ha => by
    have hp := h.sized.inv.placed r
    have hset : s.Settled none r := ⟨ha, h.settled r, by simp⟩
    rw [hp.mem_q, hp.mem_g]
    cases hpool : r.pool with
    | cache => simp [hset]
    | metadata => simp [hset, (hp.ghost ha hpool).2]
  lir := fun r ha hl => by
    have hp := h.sized.inv.placed r
    have hpool : r.pool = .cache := by
      cases hx : r.pool with
      | cache => rfl
      | metadata =>
        have := (hp.ghost ha hx).2
        rw [hl] at this
        cases this
    refine ⟨hpool, hp.mem_s ⟨ha, h.settled r, by simp⟩ fun _ => hl, fun hq => ?_⟩
    have := (hp.mem_q.mp hq).2.2
    rw [hl] at this
    cases this
  lirCount := h.sized.inv.lirCount
  lirLimit := by
    rw [h.hirLimit]
    exact h.lirLimit
  r_eq := h.sized.inv.r_eq
  bottom := h.pruned
  ghosts := fun r => by
    rw [(h.sized.inv.placed r).mem_g]
    exact and_congr_left fun _ => ⟨And.left, fun ha => ⟨ha, h.settled r, by simp⟩⟩
  sLen := h.balanced.sLen
  length := by
    have h1 := h.balanced.sLen
    have h2 := h.sLen_le
    have h3 : lirsMaxlen c ≤ 2 * c := u32_le _
    omega

/-! ## The blocks seen -/

theorem seen_of_mem (ho : o ∈ seen) : (seen ++ [o]).toFinset = seen.toFinset := by
  ext a
  simp only [List.toFinset_append, Finset.mem_union, List.mem_toFinset, List.mem_singleton]
  constructor
  · rintro (ha | rfl)
    · exact ha
    · exact ho
  · exact Or.inl

theorem seen_card_le (seen os : List Oblock) :
    seen.toFinset.card ≤ (seen ++ os).toFinset.card := by
  apply Finset.card_le_card
  rw [List.toFinset_append]
  exact Finset.subset_union_left

theorem seen_of_not_mem (ho : o ∉ seen) :
    (seen ++ [o]).toFinset.card = seen.toFinset.card + 1 := by
  have hins : (seen ++ [o]).toFinset = insert o seen.toFinset := by
    ext a
    simp
  rw [hins, Finset.card_insert_of_notMem (by simpa using ho)]

/-! ## Hits -/

/-- A request that leaves the slots as they are. -/
theorem Synced.of_hit (h : s.Synced c m seen) (hc : s.nucleus.Cached o) (hs : s'.Sized m)
    (hframe : (s.counted o true).SameFrame s')
    (hentry : ∀ b, ∃ d, s'.nucleus.entry ⟨.cache, b⟩ =
      { s.nucleus.entry ⟨.cache, b⟩ with dirty := d })
    (hmeta : ∀ i, (s'.nucleus.entry ⟨.metadata, i⟩).allocated = true →
      (s.nucleus.entry ⟨.metadata, i⟩).allocated = true)
    (hfree : (s'.nucleus.pool .cache).free = (s.nucleus.pool .cache).free)
    (hbal : s'.Balanced 0) (hlen : s'.sLen ≤ lirsMaxlen c) (hpr : s'.Pruned)
    (hlim : s'.lirCount ≤ c - lirsHirLimit c) (hpos : s.lirCount ≤ s'.lirCount)
    (hall : defaultResidency s.nucleus ≤ c - lirsHirLimit c → ∀ i,
      (s.nucleus.entry ⟨.cache, i⟩).allocated = true → s'.isHIR ⟨.cache, i⟩ = false) :
    s'.Synced c m (seen ++ [o]) := by
  have hn : (s'.nucleus.pool .cache).nrEntries = c := (hframe.nrEntries _).trans h.cacheEntries
  have hres : defaultResidency s'.nucleus = defaultResidency s.nucleus := by
    have h1 := hs.inv.residency_add_free
    have h2 := h.residency_add_free
    rw [hfree, hn] at h1
    omega
  have hcaches : ∀ a cb, s'.nucleus.Caches a cb ↔ s.nucleus.Caches a cb := by
    intro a cb
    obtain ⟨d, hd⟩ := hentry cb
    unfold CacheNucleus.Caches
    rw [hd]
  have hcached : ∀ a, s'.nucleus.Cached a ↔ s.nucleus.Cached a := fun a =>
    exists_congr fun cb => hcaches a cb
  have hmem : defaultResidency s.nucleus < c → o ∈ seen := fun hx =>
    ((h.filling hx).2.1 o).mp hc
  refine ⟨hs, hframe.cacheSize.trans h.cacheSize, hn, hframe.hirLimit.trans h.hirLimit,
    hframe.sMaxlen.trans h.sMaxlen, fun r => ?_, hbal, hlen, hpr, hlim, fun hx => ?_, fun hx => ?_,
    fun hx i ha => ?_, ?_, fun hx => by simp at hx, fun _ => ?_⟩
  · obtain ⟨p, i⟩ := r
    cases p with
    | cache =>
      obtain ⟨d, hd⟩ := hentry i
      rw [hd]
      exact h.settled _
    | metadata =>
      by_cases ha : (s'.nucleus.entry ⟨.metadata, i⟩).allocated = true
      · exact ((hs.inv.placed _).ghost ha rfl).1
      · exact hs.inv.wf.not_migrating (by simpa using ha)
  · rw [hres] at hx
    have := h.lirCount_pos hx
    omega
  · rw [hres] at hx ⊢
    obtain ⟨hg, hseen, hcard⟩ := h.filling hx
    refine ⟨fun i => ?_, fun a => ?_, ?_⟩
    · by_contra ha
      have := hmeta i (by simpa using ha)
      rw [hg i] at this
      cases this
    · rw [hcached, hseen, List.mem_append, List.mem_singleton]
      exact ⟨Or.inl, fun ha => ha.elim id fun he => he ▸ hmem hx⟩
    · rw [hcard, seen_of_mem (hmem hx)]
  · obtain ⟨d, hd⟩ := hentry i
    rw [hd] at ha
    exact hall (hres ▸ hx) i ha
  · rw [hres]
    exact h.residency_le.trans (seen_card_le seen [o])
  · rw [hframe.lastOblock]
    exact (hcached o).mpr hc

/-- The bound of the stack keeps the prune from faulting, or is never reached. -/
theorem Synced.prune_ok (hinv : s'.Inv none) (hs6 : s'.sLen ≤ lirsMaxlen c + 1)
    (hmax : s'.sMaxlen = lirsMaxlen c) (hlim : s'.lirCount ≤ c - lirsHirLimit c)
    (hlen : s'.sLen ≤ s'.s.length + 1)
    (hroom : c - lirsHirLimit c < lirsMaxlen c ∨ s'.sLen ≤ lirsMaxlen c) :
    s'.sLen ≤ s'.sMaxlen ∨ s'.r ≠ [] := by
  rw [hmax]
  by_cases hle : s'.sLen ≤ lirsMaxlen c
  · exact Or.inl hle
  · right
    intro hr
    have := hinv.length_le hr
    omega

/-- Nothing is in `R` when no settled entry is HIR. -/
theorem Inv.r_nil (h : s.Inv x)
    (hlir : ∀ i, s.Settled x ⟨.cache, i⟩ → s.isHIR ⟨.cache, i⟩ = false)
    (hg : ∀ i, (s.nucleus.entry ⟨.metadata, i⟩).allocated = false) : s.r = [] := by
  rw [List.eq_nil_iff_forall_not_mem]
  intro u hu
  obtain ⟨hs, hhir⟩ := h.mem_r.mp hu
  have hset := h.of_mem_s hs
  obtain ⟨p, i⟩ := u
  cases p with
  | cache =>
    rw [hlir i hset] at hhir
    cases hhir
  | metadata =>
    have := hset.1
    rw [hg i] at this
    cases this

/-- A known HIR block finds a stack that is not empty. -/
theorem Synced.planned (h : s.Synced c m seen) (ho : o ≠ s.lastOblock)
    (hknown : (hashLookup s.nucleus o).isSome = true → 0 < defaultResidency s.nucleus) :
    ∃ lt, lirsTransactionSet s (lirsTransactionInit o) = .ok lt ∧ s.Planned o lt ∧
      (lt.lirEvict = true → s.s ≠ []) := by
  rcases lirsTransactionSet_case ho with hset | ⟨_, hnil, hsome, _⟩
  · exact hset
  · obtain ⟨i, _, _, hmem⟩ := h.exists_lir (hknown hsome)
    rw [hnil] at hmem
    cases hmem

/-- The sums of the plan do not wrap. -/
theorem Synced.lirEvict_iff (h : s.Synced c m seen) (hc : 3 ≤ c) (hpl : s.Planned o lt) :
    lt.lirEvict = true ↔ (hashLookup s.nucleus o).isSome = true ∧ s.wantsHIR o = true ∧
      s.lirCount = c - lirsHirLimit c := by
  have h1 := h.lirLimit
  have h2 := h.size_lt
  have h3 := lirsHirLimit_lt hc
  have hlc : u32 (s.lirCount + 1) = s.lirCount + 1 := u32_of_lt (by omega)
  have hl : sub32 c (lirsHirLimit c) = c - lirsHirLimit c := sub32_of_le (by omega) (by omega)
  rw [hpl.lirEvict, h.cacheSize, h.hirLimit, hlc, hl]
  simp only [Bool.and_eq_true, decide_eq_true_eq, gt_iff_lt, and_assoc]
  refine and_congr_right fun _ => and_congr_right fun _ => ?_
  omega

/-- A request from the settling of its slots (`s`) to its return. -/
structure Closed (s : LirsPolicy) (c : Nat) (lt : LirsTransaction) (r : EntryRef)
    (s' : LirsPolicy) : Prop where
  inv : s'.Inv none
  frame : s.SameFrame s'
  entry : ∀ b, ∃ d, s'.nucleus.entry ⟨.cache, b⟩ = { s.nucleus.entry ⟨.cache, b⟩ with dirty := d }
  ghosts : ∀ i, (s'.nucleus.entry ⟨.metadata, i⟩).allocated = true →
    (s.nucleus.entry ⟨.metadata, i⟩).allocated = true
  free : (s'.nucleus.pool .cache).free = (s.nucleus.pool .cache).free
  balanced : s'.Balanced (s.awaits r)
  sLen_le : s'.sLen ≤ lirsMaxlen c
  pruned : s'.Pruned
  lirCount : s'.lirCount + (if lt.lirEvict then 1 else 0) = s.lirCount
  isHIR : lt.lirEvict = false → s'.isHIR = s.isHIR
  isHIR_self : s'.isHIR r = s.isHIR r

end LirsPolicy

open LirsPolicy

/-- The end of a request between whose start and end the LIR entries are never too many. -/
theorem lirsFinish_closed {s : LirsPolicy} {r : EntryRef} {c : Nat} {lt : LirsTransaction}
    (h : s.Inv (some r)) (hp : r.pool = .cache) (ha : (s.nucleus.entry r).allocated = true)
    (hst : (s.nucleus.entry r).migrating = true ∨ lt.isHIR = false ∧ s.isHIR r = false)
    (hpr : s.Pruned) (hne : lt.lirEvict = true → s.s ≠ []) (hbal : s.Balanced 0)
    (hlen : s.sLen ≤ lirsMaxlen c) (hmax : s.sMaxlen = lirsMaxlen c)
    (hlim : s.lirCount ≤ c - lirsHirLimit c + if lt.lirEvict then 1 else 0)
    (hroom : c - lirsHirLimit c < lirsMaxlen c ∨
      ∀ s6, s.Finished lt r s6 → s6.sLen ≤ lirsMaxlen c) (o : Oblock) (w : Bool)
    (res : CacheNucleusResult) :
    ∃ s', (do
      let s6 ← s.finish lt r
      let s7 ← lirsPruneS s6
      .ok (s7.finished o w, res) : Exec (LirsPolicy × CacheNucleusResult)) = .ok (s', res) ∧
      s.Closed c lt r s' := by
  have hM := lirsMaxlen_lt c
  rcases lirsTransactionFinish_case lt h hp ha hst with ⟨s6, hrun6, hfin⟩ | ⟨_, hev, hbad⟩
  · obtain ⟨hbal6, hlen6⟩ := hfin.balanced 0 (by omega) hbal
    rw [Nat.zero_add] at hbal6
    have hlim6 : s6.lirCount ≤ c - lirsHirLimit c := by
      have := hfin.lirCount
      omega
    have hs6 : s6.sLen ≤ s6.s.length + 1 := by
      have h1 := hbal6.sLen
      have h2 := awaits_le s r
      omega
    have hmax6 : s6.sMaxlen = lirsMaxlen c := hfin.sameSlots.frame.sMaxlen.trans hmax
    obtain ⟨s7, hrun7, hinv7, htrim, hdrop⟩ := lirsPruneS_spec hfin.inv
      (Synced.prune_ok hfin.inv (by omega) hmax6 hlim6 hs6 (hroom.imp_right fun hx => hx s6 hfin))
    have hbal7 := htrim.balanced _ hbal6
    have hlen7 : s7.sLen ≤ lirsMaxlen c := by
      have h6 := hbal6.sLen
      have h7 := hbal7.sLen
      have hsub := htrim.sublist.length_le
      rw [hmax6] at hdrop
      omega
    have hdirty := hinv7.finished o w
    have hsame := hfin.sameSlots.trans htrim.sameSlots
    obtain ⟨_, hstack, hhir, hcount, hsl⟩ := hdirty.lists
    refine ⟨s7.finished o w, by rw [hrun6, ok_bind, hrun7, ok_bind], hdirty.inv,
      hsame.frame.trans hdirty.frame, fun b => ?_, fun i hi => ?_, hdirty.free.trans hsame.free,
      ⟨by rw [hsl, hstack]; exact hbal7.sLen, hsl.trans_le hbal7.le⟩, hsl.trans_le hlen7, ?_, ?_,
      fun hx => ?_, ?_⟩
    · obtain ⟨d, hd⟩ := hdirty.entry ⟨.cache, b⟩
      exact ⟨d, by rw [hd, hsame.cache b]⟩
    · obtain ⟨d, hd⟩ := hdirty.entry ⟨.metadata, i⟩
      rw [hd] at hi
      have heq := hsame.ghosts i hi
      rw [heq] at hi
      exact hi
    · unfold Pruned
      rw [hstack, hhir]
      exact htrim.pruned hfin.inv.s_nodup (hfin.pruned hpr)
    · rw [hcount, htrim.lirCount]
      exact hfin.lirCount
    · rw [hhir, htrim.isHIR]
      exact hfin.isHIR hx
    · rw [hhir, htrim.isHIR]
      exact hfin.isHIR_self
  · exact absurd ⟨hpr, hne hev⟩ hbad

variable {s s' s4 : LirsPolicy} {o : Oblock} {r : EntryRef} {c m : Nat} {seen : List Oblock}
  {lt : LirsTransaction}

namespace LirsPolicy

/-- A request for the cached block in `r`, up to the settling of its slots in `s4`. -/
structure Hitting (c m : Nat) (seen : List Oblock) (s : LirsPolicy) (o : Oblock) (r : EntryRef)
    (lt : LirsTransaction) (s4 : LirsPolicy) : Prop where
  synced : s.Synced c m seen
  lookup : hashLookup s.nucleus o = some r
  pool : r.pool = .cache
  planned : s.Planned o lt
  hit : s.Hit o r s4

namespace Hitting

theorem allocated (h : s.Hitting c m seen o r lt s4) : (s.nucleus.entry r).allocated = true :=
  (h.synced.sized.inv.wf.hashLookup_eq_some.mp h.lookup).1

theorem cached (h : s.Hitting c m seen o r lt s4) : s.nucleus.Cached o :=
  h.synced.sized.inv.cached_iff.mpr ⟨r, h.lookup, h.pool⟩

theorem entry (h : s.Hitting c m seen o r lt s4) (b : Nat) :
    s4.nucleus.entry ⟨.cache, b⟩ = s.nucleus.entry ⟨.cache, b⟩ := by
  rw [h.hit.sameSlots.cache b, counted_entry]

theorem ghosts (h : s.Hitting c m seen o r lt s4) {i : Nat}
    (hi : (s4.nucleus.entry ⟨.metadata, i⟩).allocated = true) :
    (s.nucleus.entry ⟨.metadata, i⟩).allocated = true := by
  have heq := h.hit.sameSlots.ghosts i hi
  rw [counted_entry] at heq
  rwa [heq] at hi

theorem entry_self (h : s.Hitting c m seen o r lt s4) : s4.nucleus.entry r = s.nucleus.entry r := by
  obtain ⟨p, i⟩ := r
  obtain rfl : p = .cache := h.pool
  exact h.entry i

theorem settled (h : s.Hitting c m seen o r lt s4) : (s4.nucleus.entry r).migrating = false := by
  rw [h.entry_self]
  exact h.synced.settled r

theorem isHIR_self (h : s.Hitting c m seen o r lt s4) : lt.isHIR = false ∧ s4.isHIR r = false := by
  rw [h.planned.isHIR, h.lookup, h.hit.isHIR, Function.update_self]
  simp

/-- A LIR entry gives way only to the one that was hit. -/
theorem lirEvict_iff (h : s.Hitting c m seen o r lt s4) (hc : 3 ≤ c) :
    lt.lirEvict = true ↔ s.isHIR r = true ∧ s.lirCount = c - lirsHirLimit c := by
  have hwants : s.wantsHIR o = s.isHIR r := by
    simp [wantsHIR, h.lookup, inCache, h.pool]
  rw [h.synced.lirEvict_iff hc h.planned, h.lookup, hwants]
  simp

theorem balanced (h : s.Hitting c m seen o r lt s4) : s4.Balanced 0 :=
  h.hit.balanced 0 (by rw [awaits_settled (h.synced.settled r)]; exact h.synced.balanced)

theorem sLen_le (h : s.Hitting c m seen o r lt s4) : s4.sLen ≤ lirsMaxlen c := by
  have h1 := h.balanced.sLen
  have h2 := h.synced.balanced.sLen
  have h3 := h.hit.length
  have h4 := h.synced.sLen_le
  omega

/-- The LIR entry that gives way is another one. -/
theorem s_ne_nil (h : s.Hitting c m seen o r lt s4) (hc : 3 ≤ c) (hev : lt.lirEvict = true) :
    s4.s ≠ [] := by
  obtain ⟨hr, _⟩ := (h.lirEvict_iff hc).mp hev
  obtain ⟨i, hi, hli, _⟩ := h.synced.exists_lir (h.synced.residency_pos h.cached)
  have hir : (⟨.cache, i⟩ : EntryRef) ≠ r := by
    rintro rfl
    rw [hr] at hli
    cases hli
  have hset : s4.Settled (some r) ⟨.cache, i⟩ := by
    refine ⟨?_, ?_, fun heq => hir (Option.some.inj heq).symm⟩
    · rw [h.entry]
      exact hi
    · rw [h.entry]
      exact h.synced.settled _
  have hlir : s4.isHIR ⟨.cache, i⟩ = false := by
    rw [h.hit.isHIR, Function.update_of_ne hir]
    exact hli
  exact List.ne_nil_of_mem ((h.hit.inv.placed _).mem_s hset fun _ => hlir)

theorem lirCount_le (h : s.Hitting c m seen o r lt s4) (hc : 3 ≤ c) :
    s4.lirCount ≤ c - lirsHirLimit c + if lt.lirEvict then 1 else 0 := by
  have hcount := h.hit.lirCount
  have hlim := h.synced.lirLimit
  cases hr : s.isHIR r with
  | false =>
    rw [hr] at hcount
    simp only [Bool.false_eq_true, if_false] at hcount
    omega
  | true =>
    rw [hr] at hcount
    simp only [if_true] at hcount
    by_cases hfull : s.lirCount = c - lirsHirLimit c
    · rw [if_pos ((h.lirEvict_iff hc).mpr ⟨hr, hfull⟩)]
      omega
    · omega

/-- While the LIR entries have room for all, none is HIR and none gives way. -/
theorem all_lir (h : s.Hitting c m seen o r lt s4) (hc : 3 ≤ c)
    (hres : defaultResidency s.nucleus ≤ c - lirsHirLimit c) :
    s.isHIR r = false ∧ lt.lirEvict = false ∧
      ∀ i, (s.nucleus.entry ⟨.cache, i⟩).allocated = true → s4.isHIR ⟨.cache, i⟩ = false := by
  have hlir := h.synced.all_lir hres
  have hr : s.isHIR r = false := by
    have ha := h.allocated
    have hp := h.pool
    obtain ⟨p, i⟩ := r
    obtain rfl : p = .cache := hp
    exact hlir i ha
  refine ⟨hr, ?_, fun i hi => ?_⟩
  · by_contra hev
    have hhir := ((h.lirEvict_iff hc).mp (by simpa using hev)).1
    rw [hr] at hhir
    cases hhir
  · have hsame : Function.update s.isHIR r false = s.isHIR := by
      rw [← hr, Function.update_eq_self]
    rw [h.hit.isHIR, hsame]
    exact hlir i hi

/-- Where the bound of the stack is small no entry is HIR, so the stack holds LIR entries only. -/
theorem finished_le (h : s.Hitting c m seen o r lt s4) (hc : 3 ≤ c)
    (hroom : c - lirsHirLimit c < lirsMaxlen c ∨ (seen ++ [o]).toFinset.card ≤ lirsMaxlen c) :
    c - lirsHirLimit c < lirsMaxlen c ∨
      ∀ s6, s4.Finished lt r s6 → s6.sLen ≤ lirsMaxlen c := by
  refine or_iff_not_imp_left.mpr fun hx s6 hfin => ?_
  have hseen := hroom.resolve_left hx
  have hres := h.synced.residency_le.trans ((seen_card_le seen [o]).trans hseen)
  obtain ⟨hr, hnev, hlir⟩ := h.all_lir hc (by omega)
  have hhl := lirsHirLimit_lt hc
  have hg := (h.synced.filling (by omega)).1
  have hnil : s6.r = [] := by
    apply hfin.inv.r_nil
    · intro i hi
      rw [hfin.isHIR hnev]
      have ha := hi.1
      rw [hfin.sameSlots.cache i, h.entry] at ha
      exact hlir i ha
    · intro i
      by_contra hi
      have hi : (s6.nucleus.entry ⟨.metadata, i⟩).allocated = true := by simpa using hi
      have heq := hfin.sameSlots.ghosts i hi
      rw [heq] at hi
      have := h.ghosts hi
      rw [hg i] at this
      cases this
  have hle := hfin.inv.length_le hnil
  have hM := lirsMaxlen_lt c
  have hlen := h.sLen_le
  obtain ⟨hbal, _⟩ := hfin.balanced 0 (by omega) h.balanced
  rw [awaits_settled h.settled] at hbal
  have h1 := hbal.sLen
  have h2 := hfin.lirCount
  have h3 := h.synced.sized.inv.lirCount_le
  have h4 := h.hit.lirCount
  rw [hr] at h4
  rw [hnev] at h2
  simp only [Bool.false_eq_true, if_false] at h1 h2 h4
  omega

/-- The end of the request. -/
theorem synced_closed (h : s.Hitting c m seen o r lt s4) (hc : 3 ≤ c)
    (hcl : s4.Closed c lt r s') : s'.Synced c m (seen ++ [o]) := by
  have hcount := h.hit.lirCount
  have hcount' := hcl.lirCount
  have hlim := h.lirCount_le hc
  apply h.synced.of_hit h.cached
  · refine ⟨hcl.inv, ?_⟩
    rw [hcl.frame.nrEntries, h.hit.sameSlots.frame.nrEntries, counted_pool]
    exact h.synced.sized.metaEntries
  · exact h.hit.sameSlots.frame.trans hcl.frame
  · intro b
    obtain ⟨d, hd⟩ := hcl.entry b
    exact ⟨d, by rw [hd, h.entry]⟩
  · exact fun i hi => h.ghosts (hcl.ghosts i hi)
  · rw [hcl.free, h.hit.sameSlots.free, counted_pool]
  · have hbal := hcl.balanced
    rwa [awaits_settled h.settled] at hbal
  · exact hcl.sLen_le
  · exact hcl.pruned
  · omega
  · cases hev : lt.lirEvict with
    | false =>
      rw [hev] at hcount'
      simp only [Bool.false_eq_true, if_false] at hcount'
      omega
    | true =>
      rw [((h.lirEvict_iff hc).mp hev).1] at hcount
      rw [hev] at hcount'
      simp only [if_true] at hcount hcount'
      omega
  · intro hx i hi
    obtain ⟨_, hnev, hlir⟩ := h.all_lir hc hx
    rw [hcl.isHIR hnev]
    exact hlir i hi

end Hitting

/-- A repeated request changes the counters and the dirty bit only. -/
theorem Synced.finished (h : s.Synced c m seen) (hcached : s.nucleus.Cached o)
    (ho : o = s.lastOblock) (st : PolicyStats) (w : Bool) :
    (({ s with nucleus := { s.nucleus with stats := st } } : LirsPolicy).finished o w).Synced c m
      (seen ++ [o]) := by
  have hdirty := (h.sized.inv.withStats st).finished o w
  obtain ⟨_, hstack, hhir, hcount, hsl⟩ := hdirty.lists
  apply h.of_hit hcached ⟨hdirty.inv, (hdirty.frame.nrEntries _).trans h.sized.metaEntries⟩
  · exact ⟨hdirty.frame.nrEntries, hdirty.frame.cacheSize, hdirty.frame.hirLimit,
      hdirty.frame.sMaxlen, hdirty.frame.lastOblock.trans ho.symm⟩
  · exact fun b => hdirty.entry _
  · intro i hi
    obtain ⟨d, hd⟩ := hdirty.entry ⟨.metadata, i⟩
    rw [hd] at hi
    exact hi
  · exact hdirty.free
  · refine ⟨?_, hsl.trans_le h.balanced.le⟩
    rw [hsl, hstack]
    exact h.balanced.sLen
  · exact hsl.trans_le h.sLen_le
  · unfold Pruned
    rw [hstack, hhir]
    exact h.pruned
  · exact hcount.trans_le h.lirLimit
  · exact hcount.ge
  · intro hx i hi
    rw [hhir]
    exact h.all_lir hx i hi

end LirsPolicy

/-- A request for a cached block. -/
theorem lirsMapApi_synced_hit (h : s.Synced c m seen) (hc : 3 ≤ c) (hcached : s.nucleus.Cached o)
    (hroom : c - lirsHirLimit c < lirsMaxlen c ∨ (seen ++ [o]).toFinset.card ≤ lirsMaxlen c)
    (w : Bool) : ∃ s' res, lirsMapApi s o w {} = .ok (s', res) ∧ res.op = .hit ∧
      s'.Synced c m (seen ++ [o]) := by
  have hinv := h.sized.inv
  obtain ⟨r, hl, hp⟩ := hinv.cached_iff.mp hcached
  by_cases ho : o = s.lastOblock
  · obtain ⟨st, hrun⟩ := lirsMapApi_repeat ho w {}
    exact ⟨_, _, hrun, if_pos (hinv.inCache_iff.mpr hcached), h.finished hcached ho st w⟩
  · obtain ⟨lt, hset, hpl, hs⟩ := h.planned ho fun _ => h.residency_pos hcached
    obtain ⟨s4, hhit, hmap⟩ := lirsMapApi_hit hinv hl hp hset hpl hs w {}
    have hh : s.Hitting c m seen o r lt s4 := ⟨h, hl, hp, hpl, hhit⟩
    have ha : (s4.nucleus.entry r).allocated = true := by
      rw [hh.entry_self]
      exact hh.allocated
    obtain ⟨s', hrun, hcl⟩ := lirsFinish_closed hhit.inv hp ha (Or.inr hh.isHIR_self)
      (hhit.pruned h.pruned) (hh.s_ne_nil hc) hh.balanced hh.sLen_le
      (hhit.sameSlots.frame.sMaxlen.trans h.sMaxlen) (hh.lirCount_le hc) (hh.finished_le hc hroom)
      o w { op := .hit }
    exact ⟨s', _, hmap.trans hrun, rfl, hh.synced_closed hc hcl⟩

/-! ## Misses -/

namespace LirsPolicy

/-- Ghosts stand beside a full cache only. -/
theorem Synced.full_of_ghost (h : s.Synced c m seen) (hno : ¬s.nucleus.Cached o)
    (hsome : (hashLookup s.nucleus o).isSome = true) : defaultResidency s.nucleus = c := by
  obtain ⟨r, hl⟩ := Option.isSome_iff_exists.mp hsome
  have hp := h.sized.inv.ghost_of_not_cached hno r hl
  have ha := (h.sized.inv.wf.hashLookup_eq_some.mp hl).1
  have hres := h.residency_add_free
  by_contra hx
  obtain ⟨rp, ri⟩ := r
  obtain rfl : rp = .metadata := hp
  have := (h.filling (by omega)).1 ri
  rw [ha] at this
  cases this

/-- An uncached block is wanted HIR once the LIR blocks have filled their part. -/
theorem Synced.wantsHIR_eq (h : s.Synced c m seen) (hc : 3 ≤ c) (hno : ¬s.nucleus.Cached o) :
    s.wantsHIR o = decide (c - lirsHirLimit c ≤ defaultResidency s.nucleus) := by
  have hres := h.residency_add_free
  have hhl := lirsHirLimit_lt hc
  have hlt := h.size_lt
  have hun := h.sized.inv.ghost_of_not_cached hno
  have hin : inCache (hashLookup s.nucleus o) = false := by
    cases hl : hashLookup s.nucleus o with
    | none => rfl
    | some r => simp [inCache, hun r hl]
  have hget : ((hashLookup s.nucleus o).map s.isHIR).getD true = true := by
    cases hl : hashLookup s.nucleus o with
    | none => rfl
    | some r =>
      exact ((h.sized.inv.placed r).ghost (h.sized.inv.wf.hashLookup_eq_some.mp hl).1
        (hun r hl)).2
  have hsub : sub32 c (defaultResidency s.nucleus) = c - defaultResidency s.nucleus :=
    sub32_of_le (by omega) hlt
  unfold wantsHIR
  rw [hin, hget, h.cacheSize, h.hirLimit, hsub]
  by_cases hfull : (s.nucleus.pool .cache).free = []
  · have hf : cacheIsFull s.nucleus = true := by simp [cacheIsFull, epoolEmpty, hfull]
    rw [hfull, List.length_nil] at hres
    have hge : c - lirsHirLimit c ≤ defaultResidency s.nucleus := by omega
    rw [hf, decide_eq_true hge]
    simp
  · have hf : cacheIsFull s.nucleus = false := by simp [cacheIsFull, epoolEmpty, hfull]
    rw [hf]
    by_cases hlow : c - lirsHirLimit c ≤ defaultResidency s.nucleus
    · have hge : ¬c - defaultResidency s.nucleus > lirsHirLimit c := by omega
      rw [decide_eq_true hlow, decide_eq_false hge]
      simp
    · have hgt : c - defaultResidency s.nucleus > lirsHirLimit c := by omega
      rw [decide_eq_false hlow, decide_eq_true hgt]
      simp

/-- The status an uncached block gets, and whether a LIR entry gives way to it. -/
theorem Synced.plan_miss (h : s.Synced c m seen) (hc : 3 ≤ c) (hno : ¬s.nucleus.Cached o)
    (hpl : s.Planned o lt) :
    (lt.isHIR = false ∧ lt.lirEvict = false ∧ defaultResidency s.nucleus < c - lirsHirLimit c) ∨
    (lt.isHIR = true ∧ lt.lirEvict = false ∧ c - lirsHirLimit c ≤ defaultResidency s.nucleus) ∨
    (lt.isHIR = false ∧ (lt.lirEvict = true ↔ s.lirCount = c - lirsHirLimit c) ∧
      defaultResidency s.nucleus = c) := by
  have hev := h.lirEvict_iff hc hpl
  have hw := h.wantsHIR_eq hc hno
  have hhir := hpl.isHIR
  have hhl := lirsHirLimit_lt hc
  by_cases hlow : c - lirsHirLimit c ≤ defaultResidency s.nucleus
  · rw [decide_eq_true hlow] at hw
    rw [hw] at hev hhir
    cases hl : hashLookup s.nucleus o with
    | none =>
      right; left
      rw [hl] at hhir hev
      refine ⟨hhir, ?_, hlow⟩
      by_contra hx
      cases (hev.mp (by simpa using hx)).1
    | some r =>
      right; right
      have hfull := h.full_of_ghost hno (by rw [hl]; rfl)
      rw [hl] at hhir hev
      refine ⟨hhir, ?_, hfull⟩
      simpa using hev
  · left
    rw [decide_eq_false hlow] at hw
    rw [hw] at hev hhir
    refine ⟨hhir, ?_, by omega⟩
    by_contra hx
    cases (hev.mp (by simpa using hx)).2.1

/-- The room for the LIR entries after an arrival, and what the new block adds to them. -/
theorem Synced.arrival_room (h : s.Synced c m seen) (hc : 3 ≤ c) (hno : ¬s.nucleus.Cached o)
    (hpl : s.Planned o lt) :
    s.lirCount + (if lt.isHIR then 0 else 1) ≤
        c - lirsHirLimit c + (if lt.lirEvict then 1 else 0) ∧
      0 < s.lirCount + (if lt.isHIR then 0 else 1) - (if lt.lirEvict then 1 else 0) := by
  have hlim := h.lirLimit
  have hle := h.sized.inv.lirCount_le
  have hhl := lirsHirLimit_lt hc
  have hpos := h.lirCount_pos
  rcases h.plan_miss hc hno hpl with ⟨h1, h2, h3⟩ | ⟨h1, h2, h3⟩ | ⟨h1, h2, h3⟩
  · rw [h1, h2]
    simp only [Bool.false_eq_true, if_false]
    omega
  · rw [h1, h2]
    simp only [Bool.false_eq_true, if_false, if_true]
    have := hpos (by omega)
    omega
  · have := hpos (by omega)
    rw [h1]
    simp only [Bool.false_eq_true, if_false]
    by_cases hx : lt.lirEvict = true
    · rw [if_pos hx]
      omega
    · rw [if_neg hx]
      have : s.lirCount ≠ c - lirsHirLimit c := fun heq => hx (h2.mpr heq)
      omega

/-- A LIR block was in another slot. -/
theorem Entered.ne_of_lir {i j : Nat} (hent : s.Entered o lt i s4)
    (hj : (s.nucleus.entry ⟨.cache, j⟩).allocated = true) (hlj : s.isHIR ⟨.cache, j⟩ = false) :
    j ≠ i := by
  rintro rfl
  have hl := hent.lir
  unfold LirsPolicy.lir at hl
  rw [hj, hlj] at hl
  cases hl

/-- A LIR entry other than the one in question stays in the stack. -/
theorem Entered.s_ne_nil {i : Nat} (hent : s.Entered o lt i s4)
    (h : s.Synced c m seen) (hpos : 0 < defaultResidency s.nucleus) : s4.s ≠ [] := by
  obtain ⟨j, hj, hlj, _⟩ := h.exists_lir hpos
  have hji := hent.ne_of_lir hj hlj
  have hmem : ⟨.cache, j⟩ ∈ s4.s := by
    apply (hent.inv.placed _).mem_s
    · refine ⟨by rw [hent.other j hji]; exact hj, by rw [hent.other j hji]; exact h.settled _, ?_⟩
      simp
    · intro _
      rw [hent.isHIR_other j hji]
      exact hlj
  exact List.ne_nil_of_mem hmem

theorem Entered.balanced_synced {i : Nat} {s4 : LirsPolicy} (hent : s.Entered o lt i s4)
    (h : s.Synced c m seen) : s4.Balanced 0 ∧ s4.sLen ≤ s.sLen := by
  have hM := lirsMaxlen_lt c
  have hlen := h.sLen_le
  have hbal := hent.balanced 0 (by omega) h.balanced
  have h1 := hbal.sLen
  have h2 := h.balanced.sLen
  have h3 := hent.length
  exact ⟨hbal, by omega⟩

/-- Few blocks seen: all of them are cached and LIR. -/
theorem Synced.all_lir_of_low (h : s.Synced c m seen) (hc : 3 ≤ c)
    (hlow : defaultResidency s.nucleus ≤ c - lirsHirLimit c) :
    s.r = [] ∧ s.lirCount = defaultResidency s.nucleus ∧ s.s.length = s.lirCount := by
  have hhl := lirsHirLimit_lt hc
  have hall := h.all_lir hlow
  have hnil : s.r = [] := h.sized.inv.r_nil (fun i hi => hall i hi.1) (h.filling (by omega)).1
  have hcount : s.lirCount = defaultResidency s.nucleus := by
    rw [h.sized.inv.lirCount, h.sized.inv.residency_eq]
    apply Lib.slots_congr
    intro i _
    unfold lir
    cases ha : (s.nucleus.entry ⟨.cache, i⟩).allocated with
    | false => rfl
    | true => rw [hall i ha]; rfl
  refine ⟨hnil, hcount, Nat.le_antisymm (h.sized.inv.length_le hnil) ?_⟩
  rw [h.sized.inv.lirCount]
  apply h.sized.inv.le_length
  intro i hi
  unfold lir at hi
  simp only [Bool.and_eq_true, Bool.not_eq_true'] at hi
  exact ⟨⟨hi.1, h.settled _, by simp⟩, hi.2⟩

/-- The request that brings `o` into slot `i`: planned, entered (`s4`), closed (`s8`), and its
migration complete. -/
structure Arriving (c m : Nat) (seen : List Oblock) (s : LirsPolicy) (o : Oblock)
    (lt : LirsTransaction) (i : Nat) (s4 s8 s' : LirsPolicy) : Prop where
  synced : s.Synced c m seen
  fresh : ¬s.nucleus.Cached o
  planned : s.Planned o lt
  entered : s.Entered o lt i s4
  closed : s4.Closed c lt ⟨.cache, i⟩ s8
  migrated : s8.Migrated ⟨.cache, i⟩ s'

namespace Arriving

variable {i : Nat} {s8 : LirsPolicy}

theorem frame (h : Arriving c m seen s o lt i s4 s8 s') : (s.counted o false).SameFrame s' :=
  (h.entered.frame.trans h.closed.frame).trans h.migrated.frame

theorem nrEntries (h : Arriving c m seen s o lt i s4 s8 s') (p : PoolId) :
    (s'.nucleus.pool p).nrEntries = (s.nucleus.pool p).nrEntries := by
  rw [h.frame.nrEntries, counted_pool]

theorem free (h : Arriving c m seen s o lt i s4 s8 s') :
    (s'.nucleus.pool .cache).free = (s.nucleus.pool .cache).free.tail :=
  h.migrated.rewrites.free.trans (h.closed.free.trans h.entered.free)

theorem entry_self (h : Arriving c m seen s o lt i s4 s8 s') :
    ∃ d, s'.nucleus.entry ⟨.cache, i⟩ =
      { s4.nucleus.entry ⟨.cache, i⟩ with dirty := d, migrating := false } := by
  obtain ⟨d, hd⟩ := h.closed.entry i
  exact ⟨d, by rw [h.migrated.rewrites.entry_self, hd]⟩

theorem entry_other (h : Arriving c m seen s o lt i s4 s8 s') {b : Nat} (hb : b ≠ i) :
    ∃ d, s'.nucleus.entry ⟨.cache, b⟩ = { s.nucleus.entry ⟨.cache, b⟩ with dirty := d } := by
  obtain ⟨d, hd⟩ := h.closed.entry b
  have hne : (⟨.cache, b⟩ : EntryRef) ≠ ⟨.cache, i⟩ := fun heq =>
    hb (congrArg EntryRef.index heq)
  exact ⟨d, by rw [h.migrated.rewrites.entry_of_ne hne, hd, h.entered.other b hb]⟩

theorem ghosts (h : Arriving c m seen s o lt i s4 s8 s') (hev : lt.hirEvict = false) {j : Nat}
    (hj : (s'.nucleus.entry ⟨.metadata, j⟩).allocated = true) :
    (s.nucleus.entry ⟨.metadata, j⟩).allocated = true := by
  rw [h.migrated.rewrites.entry_of_ne (by simp)] at hj
  have h4 := h.closed.ghosts j hj
  have heq := h.entered.ghosts hev j h4
  rwa [heq] at h4

theorem caches (h : Arriving c m seen s o lt i s4 s8 s') : s'.nucleus.Caches o i := by
  obtain ⟨d, hd⟩ := h.entry_self
  unfold CacheNucleus.Caches
  rw [hd]
  exact ⟨h.entered.holds.allocated, h.entered.holds.oblock⟩

/-- Whether a block was evicted can be told from the residency. -/
theorem residency (h : Arriving c m seen s o lt i s4 s8 s') :
    defaultResidency s'.nucleus =
      if (s.nucleus.pool .cache).free = [] then c else defaultResidency s.nucleus + 1 := by
  have hres := h.synced.residency_add_free
  have h1 := h.migrated.inv.residency_add_free
  rw [h.free, h.nrEntries, h.synced.cacheEntries] at h1
  cases hf : (s.nucleus.pool .cache).free with
  | nil =>
    rw [hf, List.tail_nil, List.length_nil] at h1
    rw [if_pos rfl]
    omega
  | cons a l =>
    rw [hf, List.tail_cons] at h1
    rw [hf, List.length_cons] at hres
    rw [if_neg (by simp)]
    omega

/-- A cache that is not full afterwards had room, and all it holds is what was seen. -/
theorem filling_before (h : Arriving c m seen s o lt i s4 s8 s')
    (hx : defaultResidency s'.nucleus < c) : lt.hirEvict = false ∧
      defaultResidency s.nucleus < c ∧
      defaultResidency s'.nucleus = defaultResidency s.nucleus + 1 := by
  rw [h.residency] at hx ⊢
  split at hx
  · omega
  · next hf =>
    rw [if_neg hf]
    have hev : lt.hirEvict = false := by
      rw [h.planned.hirEvict]
      simp [cacheIsFull, epoolEmpty, hf]
    exact ⟨hev, by omega, rfl⟩

theorem not_seen (h : Arriving c m seen s o lt i s4 s8 s')
    (hlt : defaultResidency s.nucleus < c) : o ∉ seen := fun hmem =>
  h.fresh (((h.synced.filling hlt).2.1 o).mpr hmem)

theorem settled (h : Arriving c m seen s o lt i s4 s8 s') (r : EntryRef) :
    (s'.nucleus.entry r).migrating = false := by
  obtain ⟨p, b⟩ := r
  cases p with
  | cache =>
    by_cases hb : b = i
    · subst hb
      obtain ⟨d, hd⟩ := h.entry_self
      rw [hd]
    · obtain ⟨d, hd⟩ := h.entry_other hb
      rw [hd]
      exact h.synced.settled _
  | metadata =>
    by_cases ha : (s'.nucleus.entry ⟨.metadata, b⟩).allocated = true
    · exact ((h.migrated.inv.placed _).ghost ha rfl).1
    · exact h.migrated.inv.wf.not_migrating (by simpa using ha)

theorem lirCount (h : Arriving c m seen s o lt i s4 s8 s') :
    s'.lirCount + (if lt.lirEvict then 1 else 0) = s.lirCount + if lt.isHIR then 0 else 1 := by
  have h1 := h.closed.lirCount
  have h2 := h.entered.lirCount
  rw [h.migrated.lirCount]
  omega

theorem balanced (h : Arriving c m seen s o lt i s4 s8 s') : s'.Balanced 0 := by
  have hbal := h.closed.balanced
  rw [awaits_migrating h.entered.holds.migrating] at hbal
  have hlen := hbal.sLen
  refine ⟨?_, ?_⟩
  · rw [h.migrated.sLen, h.migrated.stack, List.length_append, List.length_singleton]
    omega
  · rw [h.migrated.sLen]
    exact hbal.le

/-- A HIR block is pushed behind a LIR entry. -/
theorem pruned (h : Arriving c m seen s o lt i s4 s8 s') (hc : 3 ≤ c) : s'.Pruned := by
  unfold Pruned
  rw [h.migrated.isHIR, h.migrated.stack]
  by_cases hl : s8.isHIR ⟨.cache, i⟩ = false
  · exact Lib.Clear.push h.closed.pruned hl
  apply Lib.Clear.append h.closed.pruned
  rw [h.closed.isHIR_self, h.entered.isHIR] at hl
  have hhl := lirsHirLimit_lt hc
  have hlow : lt.lirEvict = false ∧ 0 < defaultResidency s.nucleus := by
    rcases h.synced.plan_miss hc h.fresh h.planned with ⟨h1, _⟩ | ⟨_, h2, h3⟩ | ⟨h1, _⟩
    · exact absurd h1 hl
    · exact ⟨h2, by omega⟩
    · exact absurd h1 hl
  obtain ⟨j, hj, hlj, _⟩ := h.synced.exists_lir hlow.2
  have hji : j ≠ i := h.entered.ne_of_lir hj hlj
  have hset : s8.Settled none ⟨.cache, j⟩ := by
    obtain ⟨d, hd⟩ := h.closed.entry j
    rw [h.entered.other j hji] at hd
    exact ⟨by rw [hd]; exact hj, by rw [hd]; exact h.synced.settled _, by simp⟩
  have hlir : s8.isHIR ⟨.cache, j⟩ = false := by
    rw [h.closed.isHIR hlow.1, h.entered.isHIR_other j hji]
    exact hlj
  exact List.ne_nil_of_mem ((h.closed.inv.placed _).mem_s hset fun _ => hlir)

/-- While the cache fills, the blocks in it are the ones seen. -/
theorem filling (h : Arriving c m seen s o lt i s4 s8 s')
    (hx : defaultResidency s'.nucleus < c) :
    (∀ j, (s'.nucleus.entry ⟨.metadata, j⟩).allocated = false) ∧
      (∀ a, s'.nucleus.Cached a ↔ a ∈ seen ++ [o]) ∧
      defaultResidency s'.nucleus = (seen ++ [o]).toFinset.card := by
  obtain ⟨hev, hlt, heq⟩ := h.filling_before hx
  obtain ⟨hg, hseen, hcard⟩ := h.synced.filling hlt
  refine ⟨fun j => ?_, fun a => ?_, ?_⟩
  · by_contra hj
    have := h.ghosts hev (by simpa using hj)
    rw [hg j] at this
    cases this
  · rw [List.mem_append, List.mem_singleton, ← hseen a]
    constructor
    · intro hcd
      obtain ⟨b, hb⟩ := hcd
      by_cases hbi : b = i
      · subst hbi
        exact Or.inr (hb.2.symm.trans h.caches.2)
      · obtain ⟨d, hd⟩ := h.entry_other hbi
        unfold CacheNucleus.Caches at hb
        rw [hd] at hb
        exact Or.inl ⟨b, hb⟩
    · rintro (⟨b, hb⟩ | rfl)
      · have hbi : b ≠ i := by
          rintro rfl
          have := h.entered.fresh hev
          rw [hb.1] at this
          cases this
        obtain ⟨d, hd⟩ := h.entry_other hbi
        refine ⟨b, ?_⟩
        unfold CacheNucleus.Caches
        rw [hd]
        exact hb
      · exact ⟨i, h.caches⟩
  · rw [heq, hcard, seen_of_not_mem (h.not_seen hlt)]

theorem all_lir (h : Arriving c m seen s o lt i s4 s8 s') (hc : 3 ≤ c)
    (hx : defaultResidency s'.nucleus ≤ c - lirsHirLimit c) (b : Nat)
    (hb : (s'.nucleus.entry ⟨.cache, b⟩).allocated = true) :
    s'.isHIR ⟨.cache, b⟩ = false := by
  have hhl := lirsHirLimit_lt hc
  obtain ⟨hev, hlt, heq⟩ := h.filling_before (by omega)
  rw [heq] at hx
  have hlow : lt.isHIR = false ∧ lt.lirEvict = false := by
    rcases h.synced.plan_miss hc h.fresh h.planned with ⟨h1, h2, _⟩ | ⟨_, _, h3⟩ | ⟨_, _, h3⟩
    · exact ⟨h1, h2⟩
    · omega
    · omega
  rw [h.migrated.isHIR, h.closed.isHIR hlow.2]
  by_cases hbi : b = i
  · rw [hbi, h.entered.isHIR, hlow.1]
  · rw [h.entered.isHIR_other b hbi]
    obtain ⟨d, hd⟩ := h.entry_other hbi
    rw [hd] at hb
    exact h.synced.all_lir (by omega) b hb

theorem residency_le (h : Arriving c m seen s o lt i s4 s8 s') :
    defaultResidency s'.nucleus ≤ (seen ++ [o]).toFinset.card := by
  have hres := h.synced.residency_add_free
  rw [h.residency]
  by_cases hf : (s.nucleus.pool .cache).free = []
  · rw [hf, List.length_nil] at hres
    rw [if_pos hf, ← hres]
    exact h.synced.residency_le.trans (seen_card_le seen [o])
  · have hpos := List.length_pos_of_ne_nil hf
    have hlt : defaultResidency s.nucleus < c := by omega
    rw [if_neg hf, seen_of_not_mem (h.not_seen hlt), (h.synced.filling hlt).2.2]

/-- The structure is back once the migration is complete. -/
theorem synced_after (h : Arriving c m seen s o lt i s4 s8 s') (hc : 3 ≤ c) :
    s'.Synced c m (seen ++ [o]) where
  sized := ⟨h.migrated.inv, (h.nrEntries _).trans h.synced.sized.metaEntries⟩
  cacheSize := h.frame.cacheSize.trans h.synced.cacheSize
  cacheEntries := (h.nrEntries _).trans h.synced.cacheEntries
  hirLimit := h.frame.hirLimit.trans h.synced.hirLimit
  sMaxlen := h.frame.sMaxlen.trans h.synced.sMaxlen
  settled := h.settled
  balanced := h.balanced
  sLen_le := by
    rw [h.migrated.sLen]
    exact h.closed.sLen_le
  pruned := h.pruned hc
  lirLimit := by
    have hcount := h.lirCount
    obtain ⟨hlim, _⟩ := h.synced.arrival_room hc h.fresh h.planned
    omega
  lirCount_pos := fun _ => by
    have hcount := h.lirCount
    obtain ⟨_, hpos⟩ := h.synced.arrival_room hc h.fresh h.planned
    omega
  filling := h.filling
  all_lir := h.all_lir hc
  residency_le := h.residency_le
  last_none := fun hx => by simp at hx
  last_cached := fun _ => by
    rw [h.frame.lastOblock]
    exact ⟨i, h.caches⟩

end Arriving

end LirsPolicy

/-- A request for a block that is not cached gets a slot. -/
theorem LirsPolicy.Synced.enters (h : s.Synced c m seen) (hc : 3 ≤ c) (hm : 0 < m)
    (hno : ¬s.nucleus.Cached o) (ho : o ≠ s.lastOblock) (w : Bool) :
    ∃ lt s4 i res, s.Planned o lt ∧ s.Entered o lt i s4 ∧ (res.op = .new ∨ res.op = .replace) ∧
      lirsMapApi s o w {} = (do
        let s6 ← s4.finish lt ⟨.cache, i⟩
        let s7 ← lirsPruneS s6
        .ok (s7.finished o w, res)) := by
  obtain ⟨lt, hset, hpl, hs⟩ := h.planned ho fun hsome => by
    rw [h.full_of_ghost hno hsome]
    omega
  have hq : lt.hirEvict = true → s.q ≠ [] := by
    intro hev
    rw [hpl.hirEvict, Bool.and_eq_true] at hev
    apply h.q_ne_nil hc
    simpa [cacheIsFull, epoolEmpty] using hev.2
  have hm' : 0 < (s.nucleus.pool .metadata).nrEntries := by rw [h.sized.metaEntries]; exact hm
  obtain ⟨s4, i, res, hent, _, hop, hmap⟩ := lirsMapApi_miss h.sized.inv
    (h.sized.inv.ghost_of_not_cached hno) hset hpl hs hq w {} (Or.inl hm')
  refine ⟨lt, s4, i, res, hpl, hent, ?_, hmap⟩
  rw [hop]
  cases lt.hirEvict
  · exact Or.inl rfl
  · exact Or.inr rfl

/-- The stack does not outgrow its bound while `R` is empty. -/
theorem LirsPolicy.Entered.room {i : Nat} {s4 : LirsPolicy} (hent : s.Entered o lt i s4)
    (h : s.Synced c m seen) (hc : 3 ≤ c) (hno : ¬s.nucleus.Cached o)
    (hroom : c - lirsHirLimit c < lirsMaxlen c ∨ (seen ++ [o]).toFinset.card ≤ lirsMaxlen c) :
    c - lirsHirLimit c < lirsMaxlen c ∨
      ∀ s6, s4.Finished lt ⟨.cache, i⟩ s6 → s6.sLen ≤ lirsMaxlen c := by
  by_cases hx : c - lirsHirLimit c < lirsMaxlen c
  · exact Or.inl hx
  right
  intro s6 hfin
  have hcard := hroom.resolve_left hx
  have hhl := lirsHirLimit_lt hc
  have hM := lirsMaxlen_lt c
  have hres := h.residency_le
  have hle := seen_card_le seen [o]
  obtain ⟨_, hseen, heq⟩ := h.filling (by omega)
  have honew : o ∉ seen := fun hmem => hno ((hseen o).mpr hmem)
  rw [seen_of_not_mem honew] at hcard
  obtain ⟨_, hcount, hstack⟩ := h.all_lir_of_low hc (by omega)
  obtain ⟨hbal4, hlen4⟩ := hent.balanced_synced h
  have hlen6 := (hfin.balanced 0 (by have := h.sLen_le; omega) hbal4).2
  have hlen := h.balanced.sLen
  omega

/-- A request for a block that is not cached, and its migration. -/
theorem lirsMapApi_synced_miss (h : s.Synced c m seen) (hc : 3 ≤ c) (hm : 0 < m)
    (hno : ¬s.nucleus.Cached o) (ho : o ≠ s.lastOblock)
    (hroom : c - lirsHirLimit c < lirsMaxlen c ∨ (seen ++ [o]).toFinset.card ≤ lirsMaxlen c)
    (w : Bool) : ∃ s8 res s', lirsMapApi s o w {} = .ok (s8, res) ∧
      (res.op = .new ∨ res.op = .replace) ∧ lirsMigratedApi s8 o = .ok s' ∧
      s'.Synced c m (seen ++ [o]) := by
  obtain ⟨lt, s4, i, res, hpl, hent, hop, hmap⟩ := h.enters hc hm hno ho w
  have hmig := hent.holds.migrating
  obtain ⟨hbal4, hlen4⟩ := hent.balanced_synced h
  obtain ⟨hlim, _⟩ := h.arrival_room hc hno hpl
  have hne : lt.lirEvict = true → s4.s ≠ [] := by
    intro hx
    apply hent.s_ne_nil h
    rcases h.plan_miss hc hno hpl with ⟨_, h2, _⟩ | ⟨_, h2, _⟩ | ⟨_, _, h3⟩
    · rw [hx] at h2
      cases h2
    · rw [hx] at h2
      cases h2
    · omega
  obtain ⟨s8, hrun, hcl⟩ := lirsFinish_closed (hent.inv.hold hmig) rfl hent.holds.allocated
    (Or.inl hmig) (hent.pruned h.pruned) hne hbal4 (hlen4.trans h.sLen_le)
    (hent.frame.sMaxlen.trans h.sMaxlen) (hent.lirCount ▸ hlim) (hent.room h hc hno hroom) o w res
  have hentry8 := hcl.entry i
  obtain ⟨d, hd⟩ := hentry8
  have hcaches : s8.nucleus.Caches o i := by
    unfold CacheNucleus.Caches
    rw [hd]
    exact ⟨hent.holds.allocated, hent.holds.oblock⟩
  obtain ⟨s', hrun', hmigr⟩ := lirsMigratedApi_spec hcl.inv (hcl.inv.wf.caches_iff.mp hcaches)
    (by rw [hd]; exact hmig)
  exact ⟨s8, res, s', hmap.trans hrun, hop, hrun',
    Arriving.synced_after ⟨h, hno, hpl, hent, hcl, hmigr⟩ hc⟩

/-! ## Runs -/

/-- One synchronous request. -/
theorem LirsPolicy.Synced.request (h : s.Synced c m seen) (hc : 3 ≤ c) (hm : 0 < m)
    (hfirst : seen = [] → o ≠ 0 - 1)
    (hroom : c - lirsHirLimit c < lirsMaxlen c ∨ (seen ++ [o]).toFinset.card ≤ lirsMaxlen c)
    (w : Bool) : ∃ s' res, lirsApi.request s (o, w) = .ok (s', res) ∧ res.op ≠ .fail ∧
      s'.Synced c m (seen ++ [o]) := by
  by_cases hcached : s.nucleus.Cached o
  · obtain ⟨s', res, hmap, hop, hs'⟩ := lirsMapApi_synced_hit h hc hcached hroom w
    refine ⟨s', res, ?_, by rw [hop]; simp, hs'⟩
    simp [Policy.request, lirsApi, hmap, hop]
  · have ho : o ≠ s.lastOblock := by
      rintro rfl
      by_cases hnil : seen = []
      · exact hfirst hnil (h.last_none hnil)
      · exact hcached (h.last_cached hnil)
    obtain ⟨s8, res, s', hmap, hop, hmig, hs'⟩ := lirsMapApi_synced_miss h hc hm hcached ho hroom w
    refine ⟨s', res, ?_, ?_, hs'⟩
    · simp [Policy.request, lirsApi, hmap, hop, hmig]
    · rcases hop with hop | hop
      · rw [hop]
        simp
      · rw [hop]
        simp

/-- One block more than the wrapped bound of the stack: the prune finds `R` empty. -/
theorem LirsPolicy.Synced.request_fault (h : s.Synced c m seen) (hc : 3 ≤ c) (hm : 0 < m)
    (hfirst : seen = [] → o ≠ 0 - 1) (hsmall : lirsMaxlen c ≤ c - lirsHirLimit c)
    (hle : seen.toFinset.card ≤ lirsMaxlen c) (hlt : lirsMaxlen c < (seen ++ [o]).toFinset.card)
    (w : Bool) : ∃ e, lirsApi.request s (o, w) = .error e := by
  have hhl := lirsHirLimit_lt hc
  have hM := lirsMaxlen_lt c
  have honew : o ∉ seen := by
    intro hmem
    rw [seen_of_mem hmem] at hlt
    omega
  rw [seen_of_not_mem honew] at hlt
  have hrle := h.residency_le
  obtain ⟨hg, hseen, heq⟩ := h.filling (by omega)
  have hno : ¬s.nucleus.Cached o := fun hx => honew ((hseen o).mp hx)
  have ho : o ≠ s.lastOblock := by
    rintro rfl
    by_cases hnil : seen = []
    · exact hfirst hnil (h.last_none hnil)
    · exact hno (h.last_cached hnil)
  obtain ⟨lt, s4, i, res, hpl, hent, _, hmap⟩ := h.enters hc hm hno ho w
  obtain ⟨_, hcount, hstack⟩ := h.all_lir_of_low hc (by omega)
  have hmig := hent.holds.migrating
  have hev : lt.lirEvict = false := by
    rcases h.plan_miss hc hno hpl with ⟨_, h2, _⟩ | ⟨_, h2, _⟩ | ⟨_, _, h3⟩
    · exact h2
    · exact h2
    · omega
  have hhev : lt.hirEvict = false := by
    have hres := h.residency_add_free
    have hne : (s.nucleus.pool .cache).free ≠ [] := by
      intro hf
      rw [hf, List.length_nil] at hres
      omega
    rw [hpl.hirEvict]
    simp [cacheIsFull, epoolEmpty, hne]
  rcases lirsTransactionFinish_case lt (hent.inv.hold hmig) rfl hent.holds.allocated
    (Or.inl hmig) with ⟨s6, hrun6, hfin⟩ | ⟨_, hx, _⟩
  · obtain ⟨hbal4, hlen4⟩ := hent.balanced_synced h
    have hbal6 := (hfin.balanced 0 (by have := h.sLen_le; omega) hbal4).1
    rw [awaits_migrating hmig] at hbal6
    have hlen6 := hbal6.sLen
    -- a slot other than the new one is in the stack, as LIR
    have hother : ∀ b, b ≠ i → s6.nucleus.entry ⟨.cache, b⟩ = s.nucleus.entry ⟨.cache, b⟩ ∧
        s6.isHIR ⟨.cache, b⟩ = s.isHIR ⟨.cache, b⟩ := by
      intro b hb
      exact ⟨(hfin.sameSlots.cache b).trans (hent.other b hb),
        by rw [hfin.isHIR hev, hent.isHIR_other b hb]⟩
    have hge : s.lirCount ≤ s6.s.length := by
      rw [h.sized.inv.lirCount]
      apply hfin.inv.le_length
      intro b hb
      have hbi : b ≠ i := by
        rintro rfl
        rw [hent.lir] at hb
        cases hb
      obtain ⟨hentry, hhir⟩ := hother b hbi
      unfold LirsPolicy.lir at hb
      simp only [Bool.and_eq_true, Bool.not_eq_true'] at hb
      exact ⟨⟨by rw [hentry]; exact hb.1, by rw [hentry]; exact h.settled _, by simp⟩,
        hhir.trans hb.2⟩
    have hnil : s6.r = [] := by
      apply hfin.inv.r_nil
      · intro b hb
        have hbi : b ≠ i := by
          rintro rfl
          have := hb.2.1
          rw [hfin.sameSlots.cache b, hmig] at this
          cases this
        obtain ⟨hentry, hhir⟩ := hother b hbi
        rw [hhir]
        exact h.all_lir (by omega) b (by rw [← hentry]; exact hb.1)
      · intro j
        by_contra hj
        have hj : (s6.nucleus.entry ⟨.metadata, j⟩).allocated = true := by simpa using hj
        have heq6 := hfin.sameSlots.ghosts j hj
        rw [heq6] at hj
        rw [hent.ghosts hhev j hj, hg j] at hj
        cases hj
    have hmax : s6.sMaxlen = lirsMaxlen c :=
      hfin.sameSlots.frame.sMaxlen.trans (hent.frame.sMaxlen.trans h.sMaxlen)
    have hprune := lirsPruneS_fault (by omega) hnil
    rw [hrun6, ok_bind, hprune] at hmap
    refine ⟨.nullPointer, ?_⟩
    simp only [Policy.request, lirsApi, hmap]
    rfl
  · rw [hev] at hx
    cases hx

/-- A sequence of synchronous requests. -/
theorem LirsPolicy.Synced.requests (hc : 3 ≤ c) (hm : 0 < m) {qs : List (Oblock × Bool)} :
    ∀ {s : LirsPolicy} {seen : List Oblock}, s.Synced c m seen →
    (seen = [] → ∀ q ∈ qs.head?, q.1 ≠ 0 - 1) →
    (c - lirsHirLimit c < lirsMaxlen c ∨
      (seen ++ qs.map Prod.fst).toFinset.card ≤ lirsMaxlen c) →
    ∃ s' results, lirsApi.requests s qs = .ok (s', results) ∧
      (∀ res ∈ results, res.op ≠ .fail) ∧ s'.Synced c m (seen ++ qs.map Prod.fst) := by
  induction qs with
  | nil =>
    intro s seen h _ _
    exact ⟨s, [], rfl, by simp, by simpa using h⟩
  | cons q qs ih =>
    intro s seen h hfirst hroom
    have happ : seen ++ (q :: qs).map Prod.fst = (seen ++ [q.1]) ++ qs.map Prod.fst := by simp
    rw [happ] at hroom ⊢
    have hroom1 := hroom.imp_right (seen_card_le (seen ++ [q.1]) (qs.map Prod.fst)).trans
    obtain ⟨s1, res, hrun1, hop, h1⟩ := h.request hc hm (fun hx => hfirst hx q rfl) hroom1 q.2
    obtain ⟨s', results, hrun, hops, h'⟩ := ih h1 (fun hx => by simp at hx) hroom
    refine ⟨s', res :: results, ?_, ?_, h'⟩
    · simp only [Policy.requests, hrun1, hrun, ok_bind, pure_eq_ok]
    · intro r hr
      rcases List.mem_cons.mp hr with rfl | hr
      · exact hop
      · exact hops r hr

/-- A sequence of requests for more blocks than the wrapped bound does not return. -/
theorem LirsPolicy.Synced.requests_fault (hc : 3 ≤ c) (hm : 0 < m)
    (hsmall : lirsMaxlen c ≤ c - lirsHirLimit c) {qs : List (Oblock × Bool)} :
    ∀ {s : LirsPolicy} {seen : List Oblock}, s.Synced c m seen →
    (seen = [] → ∀ q ∈ qs.head?, q.1 ≠ 0 - 1) → seen.toFinset.card ≤ lirsMaxlen c →
    lirsMaxlen c < (seen ++ qs.map Prod.fst).toFinset.card →
    ∃ e, lirsApi.requests s qs = .error e := by
  induction qs with
  | nil =>
    intro s seen _ _ hle hlt
    simp only [List.map_nil, List.append_nil] at hlt
    omega
  | cons q qs ih =>
    intro s seen h hfirst hle hlt
    have happ : seen ++ (q :: qs).map Prod.fst = (seen ++ [q.1]) ++ qs.map Prod.fst := by simp
    rw [happ] at hlt
    by_cases hx : (seen ++ [q.1]).toFinset.card ≤ lirsMaxlen c
    · obtain ⟨s1, res, hrun1, _, h1⟩ :=
        h.request hc hm (fun hy => hfirst hy q rfl) (Or.inr hx) q.2
      obtain ⟨e, hrun⟩ := ih h1 (fun hy => by simp at hy) hx hlt
      refine ⟨e, ?_⟩
      simp only [Policy.requests, hrun1, ok_bind, hrun]
      rfl
    · obtain ⟨e, hrun⟩ :=
        h.request_fault hc hm (fun hy => hfirst hy q rfl) hsmall hle (by omega) q.2
      refine ⟨e, ?_⟩
      simp only [Policy.requests, hrun]
      rfl

/-- Before the first request `last_oblock` stands for a block that no one requested. -/
theorem LirsPolicy.Synced.request_first (h : s.Synced c m []) (hc : 3 ≤ c) (ho : o = 0 - 1)
    (w : Bool) : ∃ e, lirsApi.request s (o, w) = .error e := by
  have hres : defaultResidency s.nucleus = 0 := by
    have := h.residency_le
    simpa using this
  have hno : ¬s.nucleus.Cached o := fun hx => by
    have := h.residency_pos hx
    omega
  have hnone : hashLookup s.nucleus o = none := by
    by_contra hx
    have hfull := h.full_of_ghost hno (Option.isSome_iff_ne_none.mpr hx)
    have hpos := Nat.lt_of_lt_of_le (by decide : 0 < 3) hc
    omega
  obtain ⟨st, hmap⟩ := lirsMapApi_repeat (ho.trans (h.last_none rfl).symm) w {}
  have hdirty := (h.sized.inv.withStats st).finished o w
  rw [hnone] at hmap
  have hgone : ∀ s', lirsMigratedApi
      (({ s with nucleus := { s.nucleus with stats := st } } : LirsPolicy).finished o w) o ≠
        .ok s' := by
    intro s' hrun
    obtain ⟨r, hl, hmig⟩ := lirsMigratedApi_ok hrun
    rw [hdirty.migrating] at hmig
    have := h.settled r
    exact Bool.false_ne_true (this.symm.trans hmig)
  cases hrun : lirsMigratedApi
      (({ s with nucleus := { s.nucleus with stats := st } } : LirsPolicy).finished o w) o with
  | ok s' => exact absurd hrun (hgone s')
  | error e =>
    refine ⟨e, ?_⟩
    simp only [Policy.request, lirsApi, hmap, ok_bind]
    simp [inCache, hrun]

theorem lirsFresh_synced (c m : UInt32) :
    (lirsFresh c m).Synced c.toNat m.toNat [] := by
  have hfree : ∀ r, ((lirsFresh c m).nucleus.entry r).allocated = false := fun _ => rfl
  refine ⟨lirsFresh_sized c m, rfl, rfl, rfl, rfl, fun _ => rfl, ⟨rfl, ?_⟩, ?_, ?_, ?_, ?_, ?_, ?_,
    ?_, fun _ => rfl, fun hx => absurd rfl hx⟩
  · exact Nat.zero_le _
  · exact Nat.zero_le _
  · intro l hl
    cases hl
  · exact Nat.zero_le _
  · intro hx
    exact absurd hx (Nat.lt_irrefl 0)
  · intro _
    refine ⟨fun i => hfree _, fun a => ?_, rfl⟩
    refine iff_of_false ?_ List.not_mem_nil
    rintro ⟨cb, hcb, _⟩
    rw [hfree] at hcb
    cases hcb
  · intro _ i hi
    rw [hfree] at hi
    cases hi
  · exact Nat.zero_le _

/-- LIRS keeps its structure and answers every request of a sequence unless the first one is
for the block `last_oblock` starts with, or the stack bound wrapped in 32 bits and the
sequence has more blocks than it. -/
theorem lirs_structure {c m : UInt32} (hc : 3 ≤ c.toNat) (hm : 1 ≤ m.toNat) {s0 : LirsPolicy}
    (hinit : lirsCreate c m = .ok s0) (qs : List (Oblock × Bool)) :
    (∀ qs', qs' <+: qs → ∃ s results, lirsApi.requests s0 qs' = .ok (s, results) ∧
      s.Structured c.toNat ∧ ∀ res ∈ results, res.op ≠ .fail) ↔
    (∀ q ∈ qs.head?, q.1 ≠ 0 - 1) ∧
      (c.toNat - lirsHirLimit c.toNat < lirsMaxlen c.toNat ∨
        (qs.map Prod.fst).toFinset.card ≤ lirsMaxlen c.toNat) := by
  rw [lirsCreate_eq] at hinit
  obtain rfl := Except.ok.inj hinit
  have h0 := lirsFresh_synced c m
  constructor
  · intro hall
    have hfirst : ∀ q ∈ qs.head?, q.1 ≠ 0 - 1 := by
      intro q hq ho
      obtain ⟨qs', rfl⟩ : ∃ qs', qs = q :: qs' := by
        cases qs with
        | nil => cases hq
        | cons a l =>
          obtain rfl : a = q := Option.some.inj hq
          exact ⟨l, rfl⟩
      obtain ⟨s, results, hrun, _⟩ := hall _ List.prefix_rfl
      obtain ⟨e, hbad⟩ := h0.request_first hc ho q.2
      simp only [Policy.requests, hbad] at hrun
      cases hrun
    refine ⟨hfirst, ?_⟩
    by_contra hx
    simp only [not_or, Nat.not_lt, Nat.not_le] at hx
    obtain ⟨e, hbad⟩ := h0.requests_fault hc hm hx.1 (fun _ => hfirst) (Nat.zero_le _) hx.2
    obtain ⟨s, results, hrun, _⟩ := hall _ List.prefix_rfl
    rw [hbad] at hrun
    cases hrun
  · rintro ⟨hfirst, hroom⟩ qs' ⟨rest, rfl⟩
    have hfirst' : ∀ q ∈ qs'.head?, q.1 ≠ 0 - 1 := by
      intro q hq
      apply hfirst q
      cases qs' with
      | nil => cases hq
      | cons a l => exact hq
    rw [List.map_append] at hroom
    obtain ⟨s, results, hrun, hops, hs⟩ := h0.requests hc hm (fun _ => hfirst')
      (hroom.imp_right (seen_card_le (qs'.map Prod.fst) (rest.map Prod.fst)).trans)
    exact ⟨s, results, hrun, hs.structured, hops⟩

/-- Five blocks on a cache of three. -/
theorem lirs_structure_five : ∃ s results, lirsApi.requests (lirsFresh 3 1)
      [(1, false), (2, true), (3, false), (4, false), (5, false)] = .ok (s, results) ∧
    s.Structured 3 ∧ ∀ res ∈ results, res.op ≠ .fail := by
  have hall := (lirs_structure (c := 3) (m := 1) (by decide) (by decide) (lirsCreate_eq 3 1)
    [(1, false), (2, true), (3, false), (4, false), (5, false)]).mpr
  refine hall ⟨fun q hq => ?_, Or.inl (by decide)⟩ _ List.prefix_rfl
  obtain rfl := Option.some.inj hq
  decide

/-- The largest block as the first one is answered as new, and its migration aborts. -/
theorem lirs_structure_first : ¬∀ (c m : UInt32) (s0 : LirsPolicy) (qs : List (Oblock × Bool)),
    3 ≤ c.toNat → 1 ≤ m.toNat → lirsCreate c m = .ok s0 →
    ∃ s results, lirsApi.requests s0 qs = .ok (s, results) ∧ s.Structured c.toNat ∧
      ∀ res ∈ results, res.op ≠ .fail := by
  intro hall
  obtain ⟨s, results, hrun, _⟩ := hall 3 1 _ [(0 - 1, false)] (by decide) (by decide)
    (lirsCreate_eq 3 1)
  have hbad : lirsApi.requests (lirsFresh 3 1) [(0 - 1, false)] = .error .assertion := rfl
  rw [hbad] at hrun
  cases hrun

end Fomo
