import Fomo.Algs.LruSteps
import Fomo.Include.Contract
import Fomo.Lib.MostRecent
import Fomo.Lib.KeyedList

/-!
# Synchronous LRU

When the migration of every admitted block completes before the next request, the
queue holds the oblocks that textbook LRU holds: the `cache_size` most recent distinct
ones, least recent first.
-/
namespace Fomo

namespace LruPolicy

/-- The oblocks in the queue, least recent first. -/
def recency (s : LruPolicy) : List Oblock := s.lruQ.map fun r => (s.nucleus.entry r).oblock

/-- Between requests nothing migrates, and the queue is textbook LRU after `os`. -/
structure Textbook (c : Nat) (os : List Oblock) (s : LruPolicy) : Prop where
  inv : s.Inv
  size : (s.nucleus.pool .cache).nrEntries = c
  settled : ∀ r, (s.nucleus.entry r).migrating = false
  recency : s.recency = Lib.mostRecent c os

variable {c : Nat} {os : List Oblock} {s s' : LruPolicy} {o : Oblock} {r : EntryRef}

theorem Textbook.mem_queue (h : s.Textbook c os) :
    r ∈ s.lruQ ↔ (s.nucleus.entry r).allocated = true := by
  rw [h.inv.mem_queue, h.settled r]
  simp

theorem Textbook.mem_recency (h : s.Textbook c os) :
    o ∈ s.recency ↔ ∃ r, hashLookup s.nucleus o = some r := by
  simp only [LruPolicy.recency, List.mem_map, h.mem_queue, h.inv.wf.hashLookup_eq_some]

theorem Textbook.cached_iff (h : s.Textbook c os) : s.nucleus.Cached o ↔ o ∈ s.recency := by
  rw [h.mem_recency]
  unfold CacheNucleus.Cached
  simp only [h.inv.wf.caches_iff]
  constructor
  · rintro ⟨cb, hl⟩; exact ⟨_, hl⟩
  · rintro ⟨r, hl⟩
    have hp := (h.inv.lookup hl).1
    exact ⟨r.index, by rw [hl, ← hp]⟩

theorem Textbook.absent_iff (h : s.Textbook c os) : s.nucleus.Absent o ↔ o ∉ s.recency := by
  rw [h.mem_recency, ← h.inv.wf.hashLookup_eq_none, Option.eq_none_iff_forall_ne_some]
  simp

theorem Textbook.recency_length (h : s.Textbook c os) :
    s.recency.length + (s.nucleus.pool .cache).free.length = c := by
  have hlen := h.inv.wf.length_eq_nrAllocated h.inv.queue_nodup (p := .cache) fun r => by
    rw [h.mem_queue]
    exact ⟨fun ha => ⟨h.inv.pool_eq ha, ha⟩, fun ha => ha.2⟩
  have hnr := (h.inv.wf.pools .cache).nr_allocated
  rw [h.size, ← hlen] at hnr
  rw [LruPolicy.recency, List.length_map]
  exact hnr

/-- The completion of a migration, read off the queue. -/
theorem complete_migration (h : s.Inv) (hl : hashLookup s.nucleus o = some r)
    (hm : (s.nucleus.entry r).migrating = true)
    (hother : ∀ x, x ≠ r → (s.nucleus.entry x).migrating = false) :
    ∃ s', lruMigratedApi s o = .ok s' ∧ s'.Inv ∧
      (∀ p, (s'.nucleus.pool p).nrEntries = (s.nucleus.pool p).nrEntries) ∧
      (∀ x, (s'.nucleus.entry x).migrating = false) ∧ s'.recency = s.recency ++ [o] := by
  obtain ⟨s', hrun, hs⟩ := lruMigratedApi_spec h hl hm
  have hkey : ∀ x, (s'.nucleus.entry x).oblock = (s.nucleus.entry x).oblock := by
    intro x
    by_cases hx : x = r
    · subst hx; rw [hs.rewrites.entry_self]
    · rw [hs.rewrites.entry_of_ne hx]
  refine ⟨s', hrun, hs.inv, hs.rewrites.nrEntries, fun x => ?_, ?_⟩
  · by_cases hx : x = r
    · subst hx; rw [hs.rewrites.entry_self]
    · rw [hs.rewrites.entry_of_ne hx]; exact hother x hx
  · simp only [LruPolicy.recency, hs.queue, hkey, List.map_append, List.map_cons, List.map_nil,
      (h.lookup hl).2.2]

/-- A request that admits `o`: the block arrives in the slot `r`, and its migration
completes. -/
theorem Textbook.take (h : s.Textbook c os) {e : Entry} {free : List Nat} {q : Queue}
    (hs : s.Step r e free q s') (ha : e.allocated = true) (ho : e.oblock = o)
    (hm : e.migrating = true) (hq : r ∉ q) :
    ∃ s'', lruMigratedApi s' o = .ok s'' ∧ s''.Inv ∧
      (s''.nucleus.pool .cache).nrEntries = c ∧
      (∀ x, (s''.nucleus.entry x).migrating = false) ∧
      s''.recency = q.map (fun x => (s.nucleus.entry x).oblock) ++ [o] := by
  have hl : hashLookup s'.nucleus o = some r := by
    rw [hs.inv.wf.hashLookup_eq_some, hs.rewrites.entry_self]
    exact ⟨ha, ho⟩
  obtain ⟨s'', hrun, hinv, hn, hset, hrec⟩ := complete_migration hs.inv hl
    (by rw [hs.rewrites.entry_self]; exact hm)
    fun x hx => by rw [hs.rewrites.entry_of_ne hx]; exact h.settled x
  refine ⟨s'', hrun, hinv, by rw [hn, hs.rewrites.nrEntries, h.size], hset, ?_⟩
  rw [hrec, LruPolicy.recency, hs.queue]
  refine congrArg (· ++ [o]) (List.map_congr_left fun x hx => ?_)
  rw [hs.rewrites.entry_of_ne]
  rintro rfl
  exact hq hx

end LruPolicy

open LruPolicy

variable {c : Nat} {os : List Oblock} {s s' : LruPolicy} {o : Oblock}

/-- What textbook LRU answers to a request for `o` after the requests `os`. -/
def TextbookAnswer (c : Nat) (os : List Oblock) (o : Oblock) (res : CacheNucleusResult) : Prop :=
  (res.op = .hit ↔ o ∈ Lib.mostRecent c os) ∧
  (res.op = .replace ↔ o ∉ Lib.mostRecent c os ∧ (Lib.mostRecent c os).length = c) ∧
  (res.op = .replace → (Lib.mostRecent c os).head? = some res.oldOblock) ∧
  res.op ≠ .fail

/-- Every request answers as textbook LRU, and its completion restores the invariant. -/
theorem lruMapApi_textbook (hc : 0 < c) (h : s.Textbook c os) (o : Oblock) (w : Bool)
    (result : CacheNucleusResult) : ∃ s' res, lruMapApi s o w result = .ok (s', res) ∧
      TextbookAnswer c os o res ∧
      ∃ s'', (if res.op = .new ∨ res.op = .replace then lruMigratedApi s' o else .ok s') =
        .ok s'' ∧ s''.Textbook c (os ++ [o]) := by
  have hcase := lruMapApi_case h.inv o w result
  generalize lruMapApi s o w result = x at hcase
  have hlen := h.recency_length
  rw [h.recency] at hlen
  cases hcase with
  | @hit cb s' hl hs =>
    have hmem : o ∈ Lib.mostRecent c os := h.recency ▸ h.mem_recency.mpr ⟨_, hl⟩
    obtain ⟨_, ha, ho⟩ := h.inv.lookup hl
    refine ⟨s', _, rfl, ⟨?_, ?_, ?_, ?_⟩, s', by simp, hs.inv, ?_, fun x => ?_, ?_⟩
    · simp [hmem]
    · simp [hmem]
    · simp
    · simp
    · rw [hs.rewrites.nrEntries, h.size]
    · by_cases hx : x = ⟨.cache, cb⟩
      · subst hx; rw [hs.rewrites.entry_self]; exact h.settled _
      · rw [hs.rewrites.entry_of_ne hx]; exact h.settled x
    · have hq := hs.queue
      rw [h.settled, if_neg (by simp)] at hq
      have hkey : ∀ x, (s'.nucleus.entry x).oblock = (s.nucleus.entry x).oblock := by
        intro x
        by_cases hx : x = ⟨.cache, cb⟩
        · subst hx; rw [hs.rewrites.entry_self]
        · rw [hs.rewrites.entry_of_ne hx]
      have hnd : s.recency.Nodup := h.recency ▸ Lib.mostRecent_nodup c os
      rw [Lib.mostRecent_concat_of_mem hmem, ← h.recency]
      simp only [recency, hq, hkey, List.map_append, List.map_cons, List.map_nil, ho]
      rw [Lib.map_erase_of_nodup hnd (h.mem_queue.mpr ha), ho]
  | @new cb rest s' habs hf hs =>
    have hno : o ∉ Lib.mostRecent c os := h.recency ▸ h.absent_iff.mp habs
    rw [hf, List.length_cons] at hlen
    have hcb : (⟨.cache, cb⟩ : EntryRef) ∉ s.lruQ := fun hm => by
      have := (h.inv.wf.mem_free (r := ⟨.cache, cb⟩)).mp (by simp [hf])
      simp [h.mem_queue.mp hm] at this
    obtain ⟨s'', hrun, hinv, hn, hset, hrec⟩ := h.take (o := o) hs rfl rfl rfl hcb
    refine ⟨s', _, rfl, ⟨?_, ?_, ?_, ?_⟩, s'', by simpa using hrun, hinv, hn, hset, ?_⟩
    · simp [hno]
    · simp only [reduceCtorEq, false_iff, not_and]
      intro _
      omega
    · simp
    · simp
    · rw [hrec, Lib.mostRecent_concat_of_lt hno (by omega), ← h.recency]
      rfl
  | @replace cb q s' habs hf hq hs =>
    have hno : o ∉ Lib.mostRecent c os := h.recency ▸ h.absent_iff.mp habs
    rw [hf, List.length_nil] at hlen
    have hrecq := h.recency
    rw [recency, hq, List.map_cons] at hrecq
    have hnd : (⟨.cache, cb⟩ :: q : Queue).Nodup := hq ▸ h.inv.queue_nodup
    obtain ⟨s'', hrun, hinv, hn, hset, hrec⟩ := h.take (o := o) hs rfl rfl rfl
      (List.nodup_cons.mp hnd).1
    refine ⟨s', _, rfl, ⟨?_, ?_, ?_, ?_⟩, s'', by simpa using hrun, hinv, hn, hset, ?_⟩
    · simp [hno]
    · simp only [true_iff]
      exact ⟨hno, by omega⟩
    · intro _
      rw [← hrecq]
      rfl
    · simp
    · rw [hrec, Lib.mostRecent_concat_of_full hno (by omega) hc, ← hrecq]
      rfl
  | fail habs hf hq =>
    have hrecq := h.recency
    rw [recency, hq, List.map_nil] at hrecq
    rw [hf, ← hrecq] at hlen
    simp at hlen
    omega

/-- One synchronous request. -/
theorem lruRequest_textbook (hc : 0 < c) (h : s.Textbook c os) (q : Oblock × Bool) :
    ∃ s' res, lruApi.request s q = .ok (s', res) ∧ TextbookAnswer c os q.1 res ∧
      s'.Textbook c (os ++ [q.1]) := by
  obtain ⟨s', res, hmap, hans, s'', hmig, htext⟩ := lruMapApi_textbook hc h q.1 q.2 {}
  refine ⟨s'', res, ?_, hans, htext⟩
  have hmap' : lruApi.map s q.1 q.2 {} = .ok (s', res) := hmap
  simp only [Policy.request, hmap', ok_bind]
  split at hmig
  · next hop =>
    have hmig' : lruApi.migrated s' q.1 = .ok s'' := hmig
    simp [hop, hmig']
  · next hop =>
    obtain rfl := Except.ok.inj hmig
    simp [hop]

/-- A sequence of synchronous requests. -/
theorem lruRequests_textbook (hc : 0 < c) (qs : List (Oblock × Bool)) (h : s.Textbook c os) :
    ∃ s' results, lruApi.requests s qs = .ok (s', results) ∧ (∀ res ∈ results, res.op ≠ .fail) ∧
      s'.Textbook c (os ++ qs.map Prod.fst) := by
  induction qs generalizing s os with
  | nil => exact ⟨s, [], rfl, by simp, by simpa using h⟩
  | cons q qs ih =>
    obtain ⟨s1, res, hrun1, hans, h1⟩ := lruRequest_textbook hc h q
    obtain ⟨s2, results, hrun2, hfail, h2⟩ := ih h1
    refine ⟨s2, res :: results, ?_, ?_, ?_⟩
    · simp only [Policy.requests, hrun1, hrun2, ok_bind, pure_eq_ok]
    · exact List.forall_mem_cons.mpr ⟨hans.2.2.2, hfail⟩
    · simpa using h2

theorem LruPolicy.Textbook.of_init {c : UInt32} (h : lruInit c = .ok s) :
    s.Textbook c.toNat [] := by
  obtain ⟨hinv, hq, hn, habs⟩ := lruInit_spec h
  refine ⟨hinv, hn, fun r => ?_, ?_⟩
  · refine hinv.wf.not_migrating ?_
    by_contra ha
    exact habs _ r (by simpa using ha) rfl
  · rw [LruPolicy.recency, hq]
    simp [Lib.mostRecent]

/-- Synchronous LRU is textbook LRU: the queue lists the `cache_size` most recent distinct
oblocks, and the next request is answered from that list alone. -/
theorem lru_synchronous {c : UInt32} (hc : 0 < c.toNat) {s0 : LruPolicy}
    (hinit : lruInit c = .ok s0) (qs : List (Oblock × Bool)) :
    ∃ s results, lruApi.requests s0 qs = .ok (s, results) ∧
      (∀ res ∈ results, res.op ≠ .fail) ∧
      (s.lruQ.map fun r => (s.nucleus.entry r).oblock) =
        Lib.mostRecent c.toNat (qs.map Prod.fst) ∧
      (∀ o, s.nucleus.Cached o ↔ o ∈ Lib.mostRecent c.toNat (qs.map Prod.fst)) ∧
      ∀ o w result, ∃ s' res, lruApi.map s o w result = .ok (s', res) ∧
        TextbookAnswer c.toNat (qs.map Prod.fst) o res := by
  obtain ⟨s, results, hrun, hfail, h⟩ := lruRequests_textbook hc qs (.of_init hinit)
  rw [List.nil_append] at h
  refine ⟨s, results, hrun, hfail, h.recency, fun o => by rw [h.cached_iff, h.recency],
    fun o w result => ?_⟩
  obtain ⟨s', res, hmap, hans, _⟩ := lruMapApi_textbook hc h o w result
  exact ⟨s', res, hmap, hans⟩

/-- Four requests on a cache of two blocks. -/
theorem lru_synchronous_two : ∃ s0 s results, lruInit 2 = .ok s0 ∧
    lruApi.requests s0 [(1, false), (2, true), (1, false), (3, false)] = .ok (s, results) ∧
    (s.lruQ.map fun r => (s.nucleus.entry r).oblock) = [1, 3] := by
  obtain ⟨s, results, hrun, _, hq, _⟩ := lru_synchronous (c := 2) (by decide) (lruInit_eq 2)
    [(1, false), (2, true), (1, false), (3, false)]
  exact ⟨_, s, results, lruInit_eq 2, hrun, hq⟩

end Fomo
