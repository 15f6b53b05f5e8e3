import Fomo.Algs.LirsPolicy
import Fomo.Include.Contract
import Fomo.Include.Queued
import Fomo.Lib.Count
import Fomo.Lib.Marked

/-!
# What the LIRS operations do

Where an entry is listed follows from its pool, its status and whether it is settled. An
operation changes one entry, so `Inv.change` asks only about that entry, the order of `S`
and the number of LIR entries.
-/
namespace Fomo

namespace LirsPolicy

/-- The entry is in use, not migrating and not `x`, the entry the commit holds. -/
def Settled (s : LirsPolicy) (x : Option EntryRef) (r : EntryRef) : Prop :=
  (s.nucleus.entry r).allocated = true ∧ (s.nucleus.entry r).migrating = false ∧ x ≠ some r

/-- The lists the entry is in. -/
structure Placed (s : LirsPolicy) (x : Option EntryRef) (r : EntryRef) : Prop where
  mem_q : r ∈ s.q ↔ s.Settled x r ∧ r.pool = .cache ∧ s.isHIR r = true
  mem_g : r ∈ s.g ↔ s.Settled x r ∧ r.pool = .metadata
  settled : r ∈ s.s → s.Settled x r
  mem_s : s.Settled x r → (r.pool = .cache → s.isHIR r = false) → r ∈ s.s
  ghost : (s.nucleus.entry r).allocated = true → r.pool = .metadata →
    (s.nucleus.entry r).migrating = false ∧ s.isHIR r = true

/-- The slot holds a LIR entry. -/
def lir (s : LirsPolicy) (i : Nat) : Bool :=
  (s.nucleus.entry ⟨.cache, i⟩).allocated && !s.isHIR ⟨.cache, i⟩

structure Inv (x : Option EntryRef) (s : LirsPolicy) : Prop where
  wf : s.nucleus.Wf
  q_nodup : s.q.Nodup
  g_nodup : s.g.Nodup
  s_nodup : s.s.Nodup
  r_eq : s.r = s.s.filter s.isHIR
  placed : ∀ r, s.Placed x r
  lirCount : s.lirCount = Lib.slots (s.nucleus.pool .cache).nrEntries s.lir

/-- The parameters of the policy, and the block requested last. -/
structure SameFrame (s s' : LirsPolicy) : Prop where
  nrEntries : ∀ p, (s'.nucleus.pool p).nrEntries = (s.nucleus.pool p).nrEntries
  cacheSize : s'.nucleus.cacheSize = s.nucleus.cacheSize
  hirLimit : s'.hirLimit = s.hirLimit
  sMaxlen : s'.sMaxlen = s.sMaxlen
  lastOblock : s'.lastOblock = s.lastOblock

/-- `s_len` counts `S` and `k` entries that will join it. -/
structure Balanced (k : Nat) (s : LirsPolicy) : Prop where
  sLen : s.sLen = s.s.length + k
  le : s.sLen ≤ 2 ^ 32

/-- `S` starts with a LIR entry. -/
def Pruned (s : LirsPolicy) : Prop := Lib.Clear s.isHIR s.s

variable {s s' s'' : LirsPolicy} {x y : Option EntryRef} {r u : EntryRef} {e : Entry} {o : Oblock}
  {free : List Nat} {k : Nat}

theorem SameFrame.refl (s : LirsPolicy) : s.SameFrame s := ⟨fun _ => rfl, rfl, rfl, rfl, rfl⟩

theorem SameFrame.trans (h : s.SameFrame s') (h' : s'.SameFrame s'') : s.SameFrame s'' where
  nrEntries := fun p => (h'.nrEntries p).trans (h.nrEntries p)
  cacheSize := h'.cacheSize.trans h.cacheSize
  hirLimit := h'.hirLimit.trans h.hirLimit
  sMaxlen := h'.sMaxlen.trans h.sMaxlen
  lastOblock := h'.lastOblock.trans h.lastOblock

/-! ## The invariant under one change -/

theorem Inv.lirCount_lt (h : s.Inv x) : s.lirCount < 2 ^ 32 := by
  have h1 := Lib.slots_le (s.nucleus.pool .cache).nrEntries s.lir
  have h2 := (h.wf.pools .cache).nr_lt
  have h3 := h.lirCount
  omega

/-- The status of `r` as `lir_count` sees it. -/
def counts (s : LirsPolicy) (r : EntryRef) : Nat :=
  if r.pool = .cache ∧ s.lir r.index = true then 1 else 0

/-- Rewriting the entry `r`, its status and its places in the lists. -/
theorem Inv.change (h : s.Inv x) (hrw : s.nucleus.Rewrites r e free s'.nucleus)
    (hhir : ∀ u, u ≠ r → s'.isHIR u = s.isHIR u) (hx : ∀ u, u ≠ r → (y = some u ↔ x = some u))
    (hq : s'.q.Nodup) (hg : s'.g.Nodup) (hs : s'.s.Nodup)
    (hmem : ∀ u, u ≠ r → (u ∈ s'.q ↔ u ∈ s.q) ∧ (u ∈ s'.g ↔ u ∈ s.g) ∧ (u ∈ s'.s ↔ u ∈ s.s))
    (hr : s'.r = s'.s.filter s'.isHIR) (hself : s'.Placed y r)
    (hcount : s'.lirCount + s.counts r = s.lirCount + s'.counts r) : s'.Inv y := by
  refine ⟨hrw.wf, hq, hg, hs, hr, fun u => ?_, ?_⟩
  · by_cases hu : u = r
    · exact hu ▸ hself
    · have hp := h.placed u
      have hset : s'.Settled y u ↔ s.Settled x u := by
        unfold Settled
        rw [hrw.entry_of_ne hu, ne_eq, hx u hu]
      obtain ⟨hmq, hmg, hms⟩ := hmem u hu
      constructor
      · rw [hmq, hset, hhir u hu]
        exact hp.mem_q
      · rw [hmg, hset]
        exact hp.mem_g
      · rw [hms, hset]
        exact hp.settled
      · rw [hms, hset, hhir u hu]
        exact hp.mem_s
      · rw [hrw.entry_of_ne hu, hhir u hu]
        exact hp.ghost
  · rw [hrw.nrEntries]
    have hold := h.lirCount
    have hother : ∀ i, (⟨.cache, i⟩ : EntryRef) ≠ r → s'.lir i = s.lir i := by
      intro i hi
      unfold lir
      rw [hrw.entry_of_ne hi, hhir _ hi]
    obtain ⟨rp, ri⟩ := r
    cases rp with
    | metadata =>
      have hzero : ∀ t : LirsPolicy, t.counts ⟨.metadata, ri⟩ = 0 := fun t => by simp [counts]
      rw [hzero, hzero] at hcount
      have hsame := Lib.slots_congr (n := (s.nucleus.pool .cache).nrEntries) (p := s'.lir)
        (q := s.lir) fun i _ => hother i (by simp)
      omega
    | cache =>
      have hone : ∀ t : LirsPolicy, t.counts ⟨.cache, ri⟩ = if t.lir ri = true then 1 else 0 :=
        fun t => by simp [counts]
      rw [hone, hone] at hcount
      have hne : ∀ i, i ≠ ri → s.lir i = s'.lir i := fun i hi =>
        (hother i (by simpa using hi)).symm
      by_cases hlt : ri < (s.nucleus.pool .cache).nrEntries
      · have hup := Lib.slots_update hlt hne
        omega
      · -- a slot outside the array holds nothing
        have hout : ∀ t : LirsPolicy, t.nucleus.Wf → (t.nucleus.pool .cache).nrEntries =
            (s.nucleus.pool .cache).nrEntries → t.lir ri = false := by
          intro t ht hn
          by_contra hl
          have ha : (t.nucleus.entry ⟨.cache, ri⟩).allocated = true := by
            unfold lir at hl
            simp only [Bool.not_eq_false, Bool.and_eq_true] at hl
            exact hl.1
          exact hlt (hn ▸ ht.lt_of_allocated ha)
        have hsame := Lib.slots_congr (n := (s.nucleus.pool .cache).nrEntries) (p := s'.lir)
          (q := s.lir) fun i hi => hother i (by
            intro heq
            have hir : i = ri := congrArg EntryRef.index heq
            omega)
        rw [hout s h.wf rfl, hout s' hrw.wf (hrw.nrEntries _)] at hcount
        simp only [Bool.false_eq_true, if_false] at hcount
        omega

/-- An entry that is in no list and need not be. -/
theorem Placed.nowhere (hset : ¬s.Settled x r) (hq : r ∉ s.q) (hg : r ∉ s.g) (hs : r ∉ s.s)
    (hghost : (s.nucleus.entry r).allocated = true → r.pool = .metadata →
      (s.nucleus.entry r).migrating = false ∧ s.isHIR r = true) : s.Placed x r :=
  ⟨iff_of_false hq fun h => hset h.1, iff_of_false hg fun h => hset h.1, fun h => absurd h hs,
    fun h => absurd h hset, hghost⟩

theorem settled_some (hr : (s.nucleus.entry r).migrating = true) (u : EntryRef) :
    s.Settled (some r) u ↔ s.Settled none u := by
  unfold Settled
  constructor
  · exact fun hu => ⟨hu.1, hu.2.1, by simp⟩
  · intro hu
    refine ⟨hu.1, hu.2.1, fun heq => ?_⟩
    rw [← Option.some.inj heq, hr] at hu
    cases hu.2.1

theorem Inv.recast (h : s.Inv x) (hset : ∀ u, s.Settled y u ↔ s.Settled x u) : s.Inv y := by
  refine ⟨h.wf, h.q_nodup, h.g_nodup, h.s_nodup, h.r_eq, fun u => ?_, h.lirCount⟩
  have hp := h.placed u
  exact ⟨by rw [hset]; exact hp.mem_q, by rw [hset]; exact hp.mem_g,
    by rw [hset]; exact hp.settled, by rw [hset]; exact hp.mem_s, hp.ghost⟩

/-- The commit may hold an entry that is not settled. -/
theorem Inv.hold (h : s.Inv none) (hr : (s.nucleus.entry r).migrating = true) :
    s.Inv (some r) := h.recast (settled_some hr)

theorem Inv.release (h : s.Inv (some r)) (hr : (s.nucleus.entry r).migrating = true) :
    s.Inv none := h.recast fun u => (settled_some hr u).symm

/-- Statistics are no part of the invariant. -/
theorem Inv.withStats (h : s.Inv x) (stats : PolicyStats) :
    ({ s with nucleus := { s.nucleus with stats := stats } } : LirsPolicy).Inv x :=
  ⟨h.wf.withStats stats, h.q_nodup, h.g_nodup, h.s_nodup, h.r_eq,
    fun r => ⟨(h.placed r).mem_q, (h.placed r).mem_g, (h.placed r).settled, (h.placed r).mem_s,
      (h.placed r).ghost⟩, h.lirCount⟩

/-- Neither is the count of the stack. -/
theorem Inv.withLen (h : s.Inv x) (n : Nat) : ({ s with sLen := n } : LirsPolicy).Inv x :=
  ⟨h.wf, h.q_nodup, h.g_nodup, h.s_nodup, h.r_eq,
    fun r => ⟨(h.placed r).mem_q, (h.placed r).mem_g, (h.placed r).settled, (h.placed r).mem_s,
      (h.placed r).ghost⟩, h.lirCount⟩

theorem Inv.mem_r (h : s.Inv x) : r ∈ s.r ↔ r ∈ s.s ∧ s.isHIR r = true := by
  rw [h.r_eq, List.mem_filter]

/-- A listed entry is in use. -/
theorem Inv.of_mem_q (h : s.Inv x) (hr : r ∈ s.q) :
    s.Settled x r ∧ r.pool = .cache ∧ s.isHIR r = true := (h.placed r).mem_q.mp hr

theorem Inv.of_mem_s (h : s.Inv x) (hr : r ∈ s.s) : s.Settled x r := (h.placed r).settled hr

/-! ## Lengths -/

theorem Balanced.erase (hb : s.Balanced k) (hr : r ∈ s.s) (hs : s'.s = s.s.erase r)
    (hlen : s'.sLen = dec32 s.sLen) : s'.Balanced k := by
  have hpos := List.length_pos_of_mem hr
  have hcount := List.length_erase_of_mem hr
  have h1 := hb.sLen
  have h2 := hb.le
  rw [dec32_of_pos (by omega) h2] at hlen
  exact ⟨by rw [hlen, hs, hcount]; omega, by omega⟩

theorem lirsRemoveFromQueues_eq (s : LirsPolicy) (r : EntryRef) :
    lirsRemoveFromQueues s r = { s with
      q := s.q.erase r, g := s.g.erase r, r := s.r.erase r, s := s.s.erase r
      sLen := if r ∈ s.s then dec32 s.sLen else s.sLen } := by
  by_cases hr : r ∈ s.s
  · simp [lirsRemoveFromQueues, hr]
  · simp [lirsRemoveFromQueues, hr, List.erase_of_not_mem hr]

theorem Balanced.unqueue (hb : s.Balanced k) (r : EntryRef) :
    (lirsRemoveFromQueues s r).Balanced k := by
  by_cases hr : r ∈ s.s
  · exact hb.erase hr (by rw [lirsRemoveFromQueues_eq]) (by
      rw [lirsRemoveFromQueues_eq, if_pos hr])
  · rw [lirsRemoveFromQueues_eq, if_neg hr, List.erase_of_not_mem hr]
    exact ⟨hb.sLen, hb.le⟩

/-! ## Freeing an entry -/

/-- `s'` is `s` with the entry `r` freed. -/
structure Frees (s : LirsPolicy) (x : Option EntryRef) (r : EntryRef) (s' : LirsPolicy) :
    Prop where
  inv : s'.Inv x
  rewrites : s.nucleus.Rewrites r (s.nucleus.freedEntry r)
    (r.index :: (s.nucleus.pool r.pool).free) s'.nucleus
  frame : s.SameFrame s'
  isHIR : s'.isHIR = s.isHIR
  q : s'.q = s.q.erase r
  g : s'.g = s.g.erase r
  stack : s'.s = s.s.erase r
  lirCount : s'.lirCount + s.counts r = s.lirCount
  balanced : ∀ k, s.Balanced k → s'.Balanced k

theorem counts_allocated (ha : (s.nucleus.entry r).allocated = true) :
    s.counts r = if r.pool = .cache ∧ s.isHIR r = false then 1 else 0 := by
  obtain ⟨rp, ri⟩ := r
  unfold counts lir
  cases rp with
  | metadata => simp
  | cache => simp [ha]

theorem counts_free (ha : (s.nucleus.entry r).allocated = false) : s.counts r = 0 := by
  obtain ⟨rp, ri⟩ := r
  unfold counts lir
  cases rp with
  | metadata => simp
  | cache => simp [ha]

/-- A LIR entry in use is counted. -/
theorem Inv.counts_le (h : s.Inv x) (r : EntryRef) : s.counts r ≤ s.lirCount := by
  unfold counts
  split
  · next hr =>
    obtain ⟨rp, ri⟩ := r
    obtain rfl : rp = .cache := hr.1
    have ha : (s.nucleus.entry ⟨.cache, ri⟩).allocated = true := by
      have hl := hr.2
      unfold lir at hl
      simp only [Bool.and_eq_true] at hl
      exact hl.1
    rw [h.lirCount]
    exact Lib.slots_pos (h.wf.lt_of_allocated ha) hr.2
  · exact Nat.zero_le _

/-- Leaving the lists for good. -/
theorem Inv.frees (h : s.Inv x)
    (hrw : s.nucleus.Rewrites r (s.nucleus.freedEntry r)
      (r.index :: (s.nucleus.pool r.pool).free) s'.nucleus)
    (hframe : s.SameFrame s') (hhir : s'.isHIR = s.isHIR) (hq : s'.q = s.q.erase r)
    (hg : s'.g = s.g.erase r) (hr : s'.r = s.r.erase r) (hs : s'.s = s.s.erase r)
    (hcount : s'.lirCount + s.counts r = s.lirCount)
    (hbal : ∀ k, s.Balanced k → s'.Balanced k) : s.Frees x r s' := by
  refine ⟨?_, hrw, hframe, hhir, hq, hg, hs, hcount, hbal⟩
  have hfree : (s'.nucleus.entry r).allocated = false := by
    rw [hrw.entry_self]
    rfl
  apply h.change hrw (fun u _ => by rw [hhir]) (fun u _ => Iff.rfl)
  · rw [hq]
    exact h.q_nodup.erase r
  · rw [hg]
    exact h.g_nodup.erase r
  · rw [hs]
    exact h.s_nodup.erase r
  · intro u hu
    rw [hq, hg, hs, h.q_nodup.mem_erase_iff, h.g_nodup.mem_erase_iff, h.s_nodup.mem_erase_iff]
    simp [hu]
  · rw [hr, hs, hhir, h.r_eq, Lib.filter_erase h.s_nodup]
  · apply Placed.nowhere
    · intro hset
      rw [hset.1] at hfree
      cases hfree
    · rw [hq]
      exact h.q_nodup.not_mem_erase
    · rw [hg]
      exact h.g_nodup.not_mem_erase
    · rw [hs]
      exact h.s_nodup.not_mem_erase
    · intro hal
      rw [hal] at hfree
      cases hfree
  · rw [counts_free hfree]
    omega

theorem Frees.absent (hs : s.Frees x r s') (ho : s.nucleus.Absent o) : s'.nucleus.Absent o :=
  hs.rewrites.absent ho fun hx => by cases hx

end LirsPolicy

open LirsPolicy

variable {s s' : LirsPolicy} {x : Option EntryRef} {r u : EntryRef} {o : Oblock}

/-- Demotions do not matter. -/
theorem lirsRemoveEntry_eq (s : LirsPolicy) (r : EntryRef) :
    ∃ st, lirsRemoveEntry s r = (do
      let nucleus ← cacheNucleusRemove { s.nucleus with stats := st } r
      return { lirsRemoveFromQueues s r with
        nucleus := nucleus
        lirCount := if !s.isHIR r then dec32 s.lirCount else s.lirCount }) := by
  have hhir : (lirsRemoveFromQueues s r).isHIR = s.isHIR := by rw [lirsRemoveFromQueues_eq]
  have hcn : (lirsRemoveFromQueues s r).nucleus = s.nucleus := by rw [lirsRemoveFromQueues_eq]
  have hcount : (lirsRemoveFromQueues s r).lirCount = s.lirCount := by
    rw [lirsRemoveFromQueues_eq]
  by_cases hd : (inCache (some r) && !(s.nucleus.entry r).migrating) = true
  · refine ⟨s.nucleus.incDemotions.stats, ?_⟩
    cases hr : s.isHIR r
    · simp [lirsRemoveEntry, hhir, hcn, hcount, hd, hr, CacheNucleus.incDemotions]
    · simp [lirsRemoveEntry, hhir, hcn, hcount, hd, hr, CacheNucleus.incDemotions]
  · refine ⟨s.nucleus.stats, ?_⟩
    cases hr : s.isHIR r
    · simp [lirsRemoveEntry, hhir, hcn, hcount, hd, hr]
    · simp [lirsRemoveEntry, hhir, hcn, hcount, hd, hr]

theorem lirsRemoveEntry_spec (h : s.Inv x) (ha : (s.nucleus.entry r).allocated = true) :
    ∃ s', lirsRemoveEntry s r = .ok s' ∧ s.Frees x r s' := by
  obtain ⟨st, hrun0⟩ := lirsRemoveEntry_eq s r
  obtain ⟨cn, hrun, hrw⟩ := (h.wf.withStats st).cacheNucleusRemove (r := r) ha
  have hrw : s.nucleus.Rewrites r (s.nucleus.freedEntry r)
      (r.index :: (s.nucleus.pool r.pool).free) cn := hrw.ofStats
  refine ⟨_, by rw [hrun0, hrun, ok_bind, pure_eq_ok], ?_⟩
  apply h.frees hrw
  · rw [lirsRemoveFromQueues_eq]
    exact ⟨hrw.nrEntries, hrw.cacheSize, rfl, rfl, rfl⟩
  · rw [lirsRemoveFromQueues_eq]
  · rw [lirsRemoveFromQueues_eq]
  · rw [lirsRemoveFromQueues_eq]
  · rw [lirsRemoveFromQueues_eq]
  · rw [lirsRemoveFromQueues_eq]
  · have hle := h.counts_le r
    have hlt := h.lirCount_lt
    rw [counts_allocated ha] at hle ⊢
    by_cases hp : r.pool = .cache
    · cases hr : s.isHIR r
      · simp only [hp, hr, true_and, if_true, Bool.not_false] at hle ⊢
        rw [dec32_of_pos (by omega) (by omega)]
        omega
      · simp [hp]
    · have hm : r.pool = .metadata := by
        cases hx : r.pool with
        | cache => exact absurd hx hp
        | metadata => rfl
      have hr := ((h.placed r).ghost ha hm).2
      simp [hp, hr]
  · intro k hb
    exact ⟨(hb.unqueue r).sLen, (hb.unqueue r).le⟩

/-! ## Taking entries out of the stack -/

namespace LirsPolicy

/-- Some HIR entries left `S`; the ghosts among them are free. -/
structure Trimmed (s s' : LirsPolicy) : Prop where
  cache : s.nucleus.SameCache s'.nucleus
  free : (s'.nucleus.pool .cache).free = (s.nucleus.pool .cache).free
  ghosts : ∀ i, (s'.nucleus.entry ⟨.metadata, i⟩).allocated = true →
    s'.nucleus.entry ⟨.metadata, i⟩ = s.nucleus.entry ⟨.metadata, i⟩
  frame : s.SameFrame s'
  q : s'.q = s.q
  isHIR : s'.isHIR = s.isHIR
  lirCount : s'.lirCount = s.lirCount
  sublist : s'.s.Sublist s.s
  lir : ∀ r ∈ s.s, s.isHIR r = false → r ∈ s'.s
  balanced : ∀ k, s.Balanced k → s'.Balanced k

variable {s'' : LirsPolicy}

theorem Trimmed.refl (s : LirsPolicy) : s.Trimmed s :=
  ⟨fun _ => rfl, rfl, fun _ _ => rfl, .refl s, rfl, rfl, rfl, .refl _, fun _ hr _ => hr,
    fun _ hb => hb⟩

theorem Trimmed.trans (h : s.Trimmed s') (h' : s'.Trimmed s'') : s.Trimmed s'' where
  cache := fun b => (h'.cache b).trans (h.cache b)
  free := h'.free.trans h.free
  ghosts := fun i hi => by
    have h2 := h'.ghosts i hi
    rw [h2] at hi
    exact h2.trans (h.ghosts i hi)
  frame := h.frame.trans h'.frame
  q := h'.q.trans h.q
  isHIR := h'.isHIR.trans h.isHIR
  lirCount := h'.lirCount.trans h.lirCount
  sublist := h'.sublist.trans h.sublist
  lir := fun r hr hl => h'.lir r (h.lir r hr hl) (by rw [h.isHIR]; exact hl)
  balanced := fun k hb => h'.balanced k (h.balanced k hb)

theorem Trimmed.absent (h : s.Trimmed s') (ho : s.nucleus.Absent o) : s'.nucleus.Absent o := by
  intro r hr
  obtain ⟨p, i⟩ := r
  cases p with
  | cache =>
    rw [h.cache i] at hr ⊢
    exact ho _ hr
  | metadata =>
    have heq := h.ghosts i hr
    rw [heq] at hr ⊢
    exact ho _ hr

/-- A LIR entry stays at the bottom of the stack. -/
theorem Trimmed.pruned (h : s.Trimmed s') (hd : s.s.Nodup) (hp : s.Pruned) : s'.Pruned := by
  unfold Pruned at hp ⊢
  rw [h.isHIR]
  have hsub := h.sublist
  cases hs : s.s with
  | nil =>
    rw [hs] at hsub
    rw [List.sublist_nil.mp hsub]
    exact Lib.clear_nil _
  | cons l t =>
    rw [hs] at hp hsub hd
    have hl := Lib.clear_cons.mp hp
    have hmem := h.lir l (by rw [hs]; exact List.mem_cons_self) hl
    cases hs' : s'.s with
    | nil => exact Lib.clear_nil _
    | cons a t' =>
      rw [hs'] at hsub hmem
      refine Lib.clear_cons.mpr ?_
      cases hsub with
      | cons_cons _ hsub => exact hl
      | cons _ hsub =>
        have hlt := hsub.subset hmem
        exact absurd hlt (List.nodup_cons.mp hd).1

end LirsPolicy

theorem lirsREvict_cached {rest : Queue} (hr : s.r = r :: rest)
    (hp : inCache (some r) = true) :
    lirsREvict s = .ok { s with
      s := s.s.erase r
      r := s.r.erase r
      sLen := dec32 s.sLen } := by
  simp [lirsREvict, hr, hp]

/-- A ghost is in no queue a second time. -/
theorem lirsREvict_ghost {rest : Queue} (hr : s.r = r :: rest) (hp : inCache (some r) = false)
    (hrs : r ∈ s.s) (hs : s.s.Nodup) (hnodup : s.r.Nodup) :
    lirsREvict s = lirsRemoveEntry s r := by
  have hq : lirsRemoveFromQueues { s with
      s := s.s.erase r
      r := s.r.erase r
      sLen := dec32 s.sLen } r = lirsRemoveFromQueues s r := by
    have hno : r ∉ s.s.erase r := hs.not_mem_erase
    have hno' : r ∉ s.r.erase r := hnodup.not_mem_erase
    rw [lirsRemoveFromQueues_eq, lirsRemoveFromQueues_eq, if_pos hrs]
    simp [List.erase_of_not_mem hno, List.erase_of_not_mem hno', hno]
  have hrun : lirsREvict s = lirsRemoveEntry { s with
      s := s.s.erase r
      r := s.r.erase r
      sLen := dec32 s.sLen } r := by
    simp [lirsREvict, hr, hp]
  rw [hrun]
  simp only [lirsRemoveEntry, hq]

/-- The oldest HIR entry of the stack leaves it, and is freed if it is a ghost. -/
theorem lirsREvict_spec (h : s.Inv x) {rest : Queue} (hr : s.r = r :: rest) :
    ∃ s', lirsREvict s = .ok s' ∧ s'.Inv x ∧ s.Trimmed s' ∧ s'.s = s.s.erase r := by
  obtain ⟨hrs, hhir⟩ := h.mem_r.mp (by rw [hr]; exact List.mem_cons_self)
  obtain ⟨ha, hm, hx⟩ := h.of_mem_s hrs
  let s1 : LirsPolicy := { s with
    s := queueRemove s.s r
    r := queueRemove s.r r
    sLen := dec32 s.sLen }
  have hlir : ∀ u ∈ s.s, s.isHIR u = false → u ∈ s.s.erase r := by
    intro u hu hl
    refine h.s_nodup.mem_erase_iff.mpr ⟨?_, hu⟩
    rintro rfl
    rw [hhir] at hl
    cases hl
  cases hp : r.pool with
  | cache =>
    have hin : inCache (some r) = true := by simp [inCache, hp]
    have hrun : lirsREvict s = .ok s1 := lirsREvict_cached hr hin
    have hbal : ∀ k, s.Balanced k → s1.Balanced k := fun k hb => hb.erase hrs rfl rfl
    refine ⟨s1, hrun, ?_, ⟨fun _ => rfl, rfl, fun _ _ => rfl, ⟨fun _ => rfl, rfl, rfl, rfl, rfl⟩,
      rfl, rfl, rfl, List.erase_sublist, hlir, hbal⟩, rfl⟩
    have hrw : s.nucleus.Rewrites r (s.nucleus.entry r) (s.nucleus.pool r.pool).free
        s1.nucleus := h.wf.rewrites_self r
    apply h.change hrw (fun _ _ => rfl) (fun _ _ => Iff.rfl) h.q_nodup h.g_nodup
      (h.s_nodup.erase r)
    · intro u hu
      refine ⟨Iff.rfl, Iff.rfl, ?_⟩
      exact (h.s_nodup.mem_erase_iff).trans (and_iff_right hu)
    · show s.r.erase r = (s.s.erase r).filter s.isHIR
      rw [Lib.filter_erase h.s_nodup, h.r_eq]
    · refine ⟨(h.placed r).mem_q, (h.placed r).mem_g, ?_, ?_, (h.placed r).ghost⟩
      · intro hmem
        exact absurd hmem h.s_nodup.not_mem_erase
      · intro _ hl
        have hl := hl hp
        rw [show s1.isHIR r = true from hhir] at hl
        cases hl
    · rfl
  | metadata =>
    obtain ⟨s', hrun, hf⟩ := lirsRemoveEntry_spec h ha
    have hout : inCache (some r) = false := by simp [inCache, hp]
    have hnodup : s.r.Nodup := by
      rw [h.r_eq]
      exact h.s_nodup.filter _
    have hrun' : lirsREvict s = .ok s' :=
      (lirsREvict_ghost hr hout hrs h.s_nodup hnodup).trans hrun
    have hcount : s.counts r = 0 := by simp [LirsPolicy.counts, hp]
    have hnq : r ∉ s.q := fun hq => by
      have := (h.of_mem_q hq).2.1
      rw [hp] at this
      cases this
    refine ⟨s', hrun', hf.inv, ⟨?_, ?_, ?_, hf.frame, ?_, hf.isHIR, ?_, ?_, ?_, hf.balanced⟩,
      hf.stack⟩
    · intro b
      refine hf.rewrites.entry_of_ne ?_
      rintro rfl
      cases hp
    · exact hf.rewrites.free_of_ne .cache (by rw [hp]; decide)
    · intro i hi
      by_cases hir : (⟨.metadata, i⟩ : EntryRef) = r
      · rw [hir, hf.rewrites.entry_self] at hi
        cases hi
      · exact hf.rewrites.entry_of_ne hir
    · rw [hf.q, List.erase_of_not_mem hnq]
    · have := hf.lirCount
      omega
    · rw [hf.stack]
      exact List.erase_sublist
    · intro u hu hl
      rw [hf.stack]
      exact hlir u hu hl

theorem lirsREvict_nil (hr : s.r = []) : lirsREvict s = .error .nullPointer := by
  simp [lirsREvict, hr]

/-- The HIR entries below the oldest LIR entry leave the stack. -/
theorem lirsFindLastLirLruLoop_spec {fuel : Nat} (h : s.Inv x) (hf : s.s.length < fuel) :
    ∃ s', lirsFindLastLirLruLoop s fuel = .ok s' ∧ s'.Inv x ∧ s.Trimmed s' ∧ s'.Pruned := by
  induction fuel generalizing s with
  | zero => exact absurd hf (Nat.not_lt_zero _)
  | succ fuel ih =>
    cases hs : s.s with
    | nil =>
      refine ⟨s, by simp [lirsFindLastLirLruLoop, hs], h, .refl s, ?_⟩
      unfold Pruned
      rw [hs]
      exact Lib.clear_nil _
    | cons l t =>
      cases hl : s.isHIR l with
      | false =>
        refine ⟨s, by simp [lirsFindLastLirLruLoop, hs, hl], h, .refl s, ?_⟩
        unfold Pruned
        rw [hs]
        exact Lib.clear_cons.mpr hl
      | true =>
        have hr : s.r = l :: t.filter s.isHIR := by
          rw [h.r_eq, hs, List.filter_cons_of_pos hl]
        obtain ⟨s1, hrun, hinv, htrim, hstack⟩ := lirsREvict_spec h hr
        rw [hs, List.erase_cons_head] at hstack
        rw [hs, List.length_cons] at hf
        obtain ⟨s', hrun', hinv', htrim', hpr⟩ := ih hinv (by rw [hstack]; omega)
        refine ⟨s', ?_, hinv', htrim.trans htrim', hpr⟩
        simp [lirsFindLastLirLruLoop, hs, hl, hr, logAssert, hrun, hrun']

theorem lirsFindLastLirLru_spec (h : s.Inv x) :
    ∃ s', lirsFindLastLirLru s = .ok s' ∧ s'.Inv x ∧ s.Trimmed s' ∧ s'.Pruned :=
  lirsFindLastLirLruLoop_spec h (Nat.lt_succ_self _)

/-- `lirs_prune_s` answers unless `S` is too long and holds no HIR entry. -/
theorem lirsPruneS_spec (h : s.Inv x) (hr : s.sLen ≤ s.sMaxlen ∨ s.r ≠ []) :
    ∃ s', lirsPruneS s = .ok s' ∧ s'.Inv x ∧ s.Trimmed s' ∧
      (s.sMaxlen < s.sLen → s'.s.length + 1 = s.s.length) := by
  by_cases hle : s.sLen ≤ s.sMaxlen
  · exact ⟨s, if_pos hle, h, .refl s, fun hlt => absurd hle (Nat.not_le.mpr hlt)⟩
  · obtain ⟨r, rest, hrr⟩ := List.exists_cons_of_ne_nil (hr.resolve_left hle)
    obtain ⟨s', hrun, hinv, htrim, hstack⟩ := lirsREvict_spec h hrr
    refine ⟨s', (if_neg hle).trans hrun, hinv, htrim, fun _ => ?_⟩
    have hmem := (h.mem_r.mp (by rw [hrr]; exact List.mem_cons_self)).1
    have hpos := List.length_pos_of_mem hmem
    rw [hstack, List.length_erase_of_mem hmem]
    omega

theorem lirsPruneS_fault (hlt : s.sMaxlen < s.sLen) (hr : s.r = []) :
    lirsPruneS s = .error .nullPointer := by
  rw [lirsPruneS, if_neg (Nat.not_le.mpr hlt), lirsREvict_nil hr]

/-! ## Leaving and joining the lists -/

namespace LirsPolicy

/-- Writing fields of an entry that its places do not depend on. -/
theorem Inv.rewriteEntry {cn : CacheNucleus} {e : Entry} {free : List Nat} (h : s.Inv x)
    (hrw : s.nucleus.Rewrites r e free cn) (ha : e.allocated = (s.nucleus.entry r).allocated)
    (hm : x = some r ∧ r.pool = .cache ∨ e.migrating = (s.nucleus.entry r).migrating) :
    ({ s with nucleus := cn } : LirsPolicy).Inv x := by
  let s' : LirsPolicy := { s with nucleus := cn }
  have hrw' : s.nucleus.Rewrites r e free s'.nucleus := hrw
  have hset : s'.Settled x r ↔ s.Settled x r := by
    unfold Settled
    rw [hrw'.entry_self, ha]
    rcases hm with ⟨hx, _⟩ | hm
    · simp [hx]
    · rw [hm]
  have hp := h.placed r
  apply h.change hrw' (fun _ _ => rfl) (fun _ _ => Iff.rfl) h.q_nodup h.g_nodup h.s_nodup
    (fun _ _ => ⟨Iff.rfl, Iff.rfl, Iff.rfl⟩) h.r_eq
  · refine ⟨by rw [hset]; exact hp.mem_q, by rw [hset]; exact hp.mem_g,
      by rw [hset]; exact hp.settled, by rw [hset]; exact hp.mem_s, ?_⟩
    rw [hrw'.entry_self, ha]
    intro hal hmeta
    obtain ⟨hmig, hhir⟩ := hp.ghost hal hmeta
    rcases hm with ⟨_, hc⟩ | hm
    · rw [hmeta] at hc
      cases hc
    · exact ⟨hm.trans hmig, hhir⟩
  · have hcounts : s'.counts r = s.counts r := by
      obtain ⟨rp, ri⟩ := r
      cases rp with
      | metadata => simp [counts]
      | cache =>
        unfold counts lir
        rw [hrw'.entry_self, ha]
    rw [hcounts]

/-- The entry leaves its lists and is held. -/
theorem Inv.unqueue (h : s.Inv none) (r : EntryRef)
    (hp : r.pool = .cache) : (lirsRemoveFromQueues s r).Inv (some r) := by
  rw [lirsRemoveFromQueues_eq]
  let s' : LirsPolicy := { s with
    q := s.q.erase r, g := s.g.erase r, r := s.r.erase r, s := s.s.erase r
    sLen := if r ∈ s.s then dec32 s.sLen else s.sLen }
  have hrw : s.nucleus.Rewrites r (s.nucleus.entry r) (s.nucleus.pool r.pool).free s'.nucleus :=
    h.wf.rewrites_self r
  apply h.change hrw (fun _ _ => rfl)
  · intro u hu
    simp [Ne.symm hu]
  · exact h.q_nodup.erase r
  · exact h.g_nodup.erase r
  · exact h.s_nodup.erase r
  · intro u hu
    refine ⟨h.q_nodup.mem_erase_iff.trans (and_iff_right hu),
      h.g_nodup.mem_erase_iff.trans (and_iff_right hu),
      h.s_nodup.mem_erase_iff.trans (and_iff_right hu)⟩
  · show s.r.erase r = (s.s.erase r).filter s.isHIR
    rw [Lib.filter_erase h.s_nodup, h.r_eq]
  · apply Placed.nowhere
    · exact fun hset => hset.2.2 rfl
    · exact h.q_nodup.not_mem_erase
    · exact h.g_nodup.not_mem_erase
    · exact h.s_nodup.not_mem_erase
    · intro _ hm
      rw [hp] at hm
      cases hm
  · rfl

/-- A held entry is in no list. -/
theorem Inv.held (h : s.Inv (some r)) : r ∉ s.q ∧ r ∉ s.g ∧ r ∉ s.s := by
  refine ⟨fun hr => ?_, fun hr => ?_, fun hr => ?_⟩
  · exact ((h.placed r).mem_q.mp hr).1.2.2 rfl
  · exact ((h.placed r).mem_g.mp hr).1.2.2 rfl
  · exact ((h.placed r).settled hr).2.2 rfl

/-- A slot without a LIR entry leaves room in the count. -/
theorem Inv.lirCount_succ_lt (h : s.Inv x) {i : Nat} (hi : i < (s.nucleus.pool .cache).nrEntries)
    (hl : s.lir i = false) : s.lirCount + 1 < 2 ^ 32 := by
  have hup := Lib.slots_update (q := Function.update s.lir i true) hi fun j hj => by
    rw [Function.update_of_ne hj]
  have hle := Lib.slots_le (s.nucleus.pool .cache).nrEntries (Function.update s.lir i true)
  have hlt := (h.wf.pools .cache).nr_lt
  have hcount := h.lirCount
  rw [hl, Function.update_self] at hup
  simp only [Bool.false_eq_true, if_false, if_true] at hup
  omega

/-- A held HIR entry becomes LIR. -/
theorem Inv.promote (h : s.Inv (some r)) (hp : r.pool = .cache)
    (ha : (s.nucleus.entry r).allocated = true) (hhir : s.isHIR r = true) :
    s.lirCount + 1 < 2 ^ 32 ∧ ({ s with
      isHIR := Function.update s.isHIR r false
      lirCount := u32 (s.lirCount + 1) } : LirsPolicy).Inv (some r) := by
  obtain ⟨hq, hg, hs⟩ := h.held
  have hlt : s.lirCount + 1 < 2 ^ 32 := by
    obtain ⟨rp, ri⟩ := r
    obtain rfl : rp = .cache := hp
    exact h.lirCount_succ_lt (h.wf.lt_of_allocated ha) (by simp [lir, hhir])
  let s' : LirsPolicy := { s with
    isHIR := Function.update s.isHIR r false
    lirCount := u32 (s.lirCount + 1) }
  have hrw : s.nucleus.Rewrites r (s.nucleus.entry r) (s.nucleus.pool r.pool).free s'.nucleus :=
    h.wf.rewrites_self r
  refine ⟨hlt, ?_⟩
  apply h.change hrw (fun u hu => Function.update_of_ne hu _ _) (fun _ _ => Iff.rfl) h.q_nodup
    h.g_nodup h.s_nodup (fun _ _ => ⟨Iff.rfl, Iff.rfl, Iff.rfl⟩)
  · show s.r = s.s.filter (Function.update s.isHIR r false)
    rw [h.r_eq]
    refine List.filter_congr fun u hu => ?_
    have hur : u ≠ r := fun he => hs (he ▸ hu)
    rw [Function.update_of_ne hur]
  · refine @Placed.nowhere s' _ _ (fun hset => hset.2.2 rfl) hq hg hs ?_
    intro _ hm
    rw [hp] at hm
    cases hm
  · show u32 (s.lirCount + 1) + s.counts r = s.lirCount + s'.counts r
    rw [u32_of_lt hlt, counts_allocated ha, counts_allocated (s := s') ha]
    simp [hp, hhir, s']

/-- A held entry joins the lists of its status, at the recent end. -/
def settle (s : LirsPolicy) (r : EntryRef) : LirsPolicy := { s with
  q := if s.isHIR r then s.q ++ [r] else s.q
  r := if s.isHIR r then s.r ++ [r] else s.r
  s := s.s ++ [r] }

theorem Inv.settle (h : s.Inv (some r)) (hp : r.pool = .cache)
    (ha : (s.nucleus.entry r).allocated = true) (hm : (s.nucleus.entry r).migrating = false) :
    (s.settle r).Inv none := by
  obtain ⟨hq, hg, hs⟩ := h.held
  have hrw : s.nucleus.Rewrites r (s.nucleus.entry r) (s.nucleus.pool r.pool).free
    (s.settle r).nucleus := h.wf.rewrites_self r
  have hset : (s.settle r).Settled none r := ⟨ha, hm, by simp⟩
  have hpush : ∀ l : Queue, l.Nodup → r ∉ l → (l ++ [r]).Nodup := by
    intro l hl hr
    have := Queued.nodup_touch hl r
    rwa [List.erase_of_not_mem hr] at this
  have hmem : ∀ (l : Queue) (u : EntryRef), u ≠ r → (u ∈ l ++ [r] ↔ u ∈ l) := by
    intro l u hu
    simp [hu]
  apply h.change hrw (fun _ _ => rfl)
  · intro u hu
    simp [Ne.symm hu]
  · unfold LirsPolicy.settle
    dsimp only
    split
    · exact hpush _ h.q_nodup hq
    · exact h.q_nodup
  · exact h.g_nodup
  · exact hpush _ h.s_nodup hs
  · intro u hu
    refine ⟨?_, Iff.rfl, hmem _ u hu⟩
    unfold LirsPolicy.settle
    dsimp only
    split
    · exact hmem _ u hu
    · exact Iff.rfl
  · show (if s.isHIR r then s.r ++ [r] else s.r) = (s.s ++ [r]).filter s.isHIR
    rw [List.filter_append, h.r_eq]
    cases hr : s.isHIR r
    · simp [hr]
    · simp [hr]
  · constructor
    · show r ∈ (if s.isHIR r then s.q ++ [r] else s.q) ↔ _ ∧ _ ∧ s.isHIR r = true
      cases hr : s.isHIR r
      · simp [hq]
      · simp [hset, hp]
    · show r ∈ s.g ↔ _
      simp [hg, hp]
    · exact fun _ => hset
    · intro _ _
      show r ∈ s.s ++ [r]
      simp
    · intro _ hmeta
      rw [hp] at hmeta
      cases hmeta
  · rfl

end LirsPolicy

end Fomo
