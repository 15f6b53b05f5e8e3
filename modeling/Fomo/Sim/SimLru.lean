import Fomo.Algs.LruSync
import Fomo.Lib.WriteBack
import Fomo.Lib.Paging
import Fomo.Sim.SimSynchronous

/-!
# Simulated LRU

Without a delay and without removals the simulator asks LRU synchronously. Its counters are then
those of a textbook write-back cache.
-/
namespace Fomo

open Lib

namespace LruPolicy

/-- Between requests nothing migrates, and the queue and the dirty bits are those of `m`. -/
structure WritesBack (c : Nat) (os : List Oblock) (m : WriteBack Oblock) (s : LruPolicy) :
    Prop where
  textbook : s.Textbook c os
  items : m.items = mostRecent c os
  dirty : ∀ r, (s.nucleus.entry r).allocated = true →
    (s.nucleus.entry r).dirty = m.mark (s.nucleus.entry r).oblock

variable {c : Nat} {os : List Oblock} {m : WriteBack Oblock} {s s' : LruPolicy} {o : Oblock}
  {r : EntryRef} {w : Bool} {res : CacheNucleusResult}

/-- A request rewrites one entry, and the dirty bit it leaves is the mark of the access. -/
theorem WritesBack.map_dirty (hc : 0 < c) (h : s.WritesBack c os m)
    (hrun : lruMapApi s o w {} = .ok (s', res)) :
    s'.Inv ∧ res.dirtyEviction = decide (m.WritesBack c o) ∧
      ∀ r, (s'.nucleus.entry r).allocated = true →
        (s'.nucleus.entry r).dirty = (m.access c o w).mark (s'.nucleus.entry r).oblock := by
  have hcase := lruMapApi_case h.textbook.inv o w {}
  have hinv := h.textbook.inv
  rw [hrun] at hcase
  have hlen := h.textbook.recency_length
  rw [h.textbook.recency, ← h.items] at hlen
  -- entries other than the rewritten one hold other blocks
  have hother : ∀ x, (s.nucleus.entry x).allocated = true → (s.nucleus.entry x).oblock ≠ o →
      (s.nucleus.entry x).dirty = (m.access c o w).mark (s.nucleus.entry x).oblock := by
    intro x ha hne
    rw [WriteBack.mark_access_of_ne hne]
    exact h.dirty x ha
  cases hcase with
  | @hit cb s' hl hs =>
    obtain ⟨_, ha, ho⟩ := hinv.lookup hl
    have hmem : o ∈ m.items := by
      rw [h.items, ← h.textbook.recency]
      exact h.textbook.mem_recency.mpr ⟨_, hl⟩
    refine ⟨hs.inv, ?_, fun x hx => ?_⟩
    · simp [WriteBack.WritesBack, hmem]
    · by_cases heq : x = ⟨.cache, cb⟩
      · subst heq
        rw [hs.rewrites.entry_self]
        simp [WriteBack.mark_access_self, ho, hmem, h.dirty _ ha]
      · rw [hs.rewrites.entry_of_ne heq] at hx ⊢
        refine hother x hx fun hxo => heq (hinv.wf.inj _ _ hx ha (hxo.trans ho.symm))
  | @new cb rest s' habs hf hs =>
    rw [hf, List.length_cons] at hlen
    have hno : o ∉ m.items := by
      rw [h.items, ← h.textbook.recency]
      exact h.textbook.absent_iff.mp habs
    refine ⟨hs.inv, ?_, fun x hx => ?_⟩
    · have hne : m.items.length ≠ c := by omega
      simp [WriteBack.WritesBack, hne]
    · by_cases heq : x = ⟨.cache, cb⟩
      · subst heq
        rw [hs.rewrites.entry_self]
        simp [WriteBack.mark_access_self, hno, CacheNucleus.arrivingEntry, CacheNucleus.freshEntry]
      · rw [hs.rewrites.entry_of_ne heq] at hx ⊢
        exact hother x hx (habs x hx)
  | @replace cb q s' habs hf hq hs =>
    rw [hf, List.length_nil] at hlen
    have hno : o ∉ m.items := by
      rw [h.items, ← h.textbook.recency]
      exact h.textbook.absent_iff.mp habs
    refine ⟨hs.inv, ?_, fun x hx => ?_⟩
    · have hhead : m.items.head? = some (s.nucleus.entry ⟨.cache, cb⟩).oblock := by
        rw [h.items, ← h.textbook.recency, LruPolicy.recency, hq]
        rfl
      have ha := h.textbook.mem_queue.mp (hq ▸ List.mem_cons_self)
      simp only [WriteBack.WritesBack, hno, hhead, Option.any_some, ← h.dirty _ ha]
      have hfull : m.items.length = c := by omega
      simp [hfull]
    · by_cases heq : x = ⟨.cache, cb⟩
      · subst heq
        rw [hs.rewrites.entry_self]
        simp [WriteBack.mark_access_self, hno, CacheNucleus.arrivingEntry, CacheNucleus.freshEntry]
      · rw [hs.rewrites.entry_of_ne heq] at hx ⊢
        exact hother x hx (habs x hx)
  | fail habs hf hq =>
    have hrec := h.textbook.recency
    rw [LruPolicy.recency, hq, List.map_nil, ← h.items] at hrec
    rw [hf, ← hrec] at hlen
    exact absurd hlen (Nat.ne_of_lt hc)

theorem WritesBack.setTime (h : s.WritesBack c os m) (time : Nat) :
    (lruApi.setTime s time).WritesBack c os m :=
  ⟨⟨lru_sound.setTime time h.textbook.inv, h.textbook.size, h.textbook.settled,
    h.textbook.recency⟩, h.items, h.dirty⟩

/-- A completed migration leaves the dirty bits. -/
theorem migrated_dirty (hinv : s.Inv) (hrun : lruMigratedApi s o = .ok s')
    (hdirty : ∀ r, (s.nucleus.entry r).allocated = true →
      (s.nucleus.entry r).dirty = m.mark (s.nucleus.entry r).oblock) (r : EntryRef)
    (ha : (s'.nucleus.entry r).allocated = true) :
    (s'.nucleus.entry r).dirty = m.mark (s'.nucleus.entry r).oblock := by
  obtain ⟨x, _, hs⟩ := lruMigratedApi_step hinv hrun
  by_cases heq : r = x
  · subst heq
    rw [hs.rewrites.entry_self] at ha ⊢
    exact hdirty r ha
  · rw [hs.rewrites.entry_of_ne heq] at ha ⊢
    exact hdirty r ha

/-- A request and the completion of its migration. -/
theorem WritesBack.request (hc : 0 < c) (h : s.WritesBack c os m) (o : Oblock) (w : Bool) :
    ∃ s' res, lruApi.request s (o, w) = .ok (s', res) ∧ (res.op = .hit ↔ o ∈ m.items) ∧
      res.dirtyEviction = decide (m.WritesBack c o) ∧
      s'.WritesBack c (os ++ [o]) (m.access c o w) := by
  obtain ⟨s1, res, hmap, hans, s2, hmig, htext⟩ := lruMapApi_textbook hc h.textbook o w {}
  obtain ⟨hinv, hevict, hdirty⟩ := h.map_dirty hc hmap
  have hmap' : lruApi.map s o w {} = .ok (s1, res) := hmap
  refine ⟨s2, res, ?_, h.items ▸ hans.1, hevict, htext,
    WriteBack.items_access h.items, ?_⟩
  · by_cases hop : res.op = .new ∨ res.op = .replace
    · rw [if_pos hop] at hmig
      have hmig' : lruApi.migrated s1 o = .ok s2 := hmig
      simp only [Policy.request, hmap', ok_bind, if_pos hop, hmig', pure_eq_ok]
    · rw [if_neg hop] at hmig
      simp only [Policy.request, hmap', ok_bind, if_neg hop, Except.ok.inj hmig, pure_eq_ok]
  · split at hmig
    · exact migrated_dirty hinv hmig hdirty
    · obtain rfl := Except.ok.inj hmig
      exact hdirty

end LruPolicy

open LruPolicy

/-- What an access adds to the counters when the cache holds what `m` holds. -/
def SimStats.access (stats : SimStats) (c : Nat) (m : WriteBack Oblock) (read : TraceReaderResult) :
    SimStats :=
  let stats :=
    if read.oblock ∈ m.items then stats.countHit read.write else stats.countMiss read.write
  if m.WritesBack c read.oblock then { stats with dirtyEvicts := stats.dirtyEvicts + 1 } else stats

/-- A hit or a miss, and maybe a dirty eviction. -/
theorem SimStats.access_eq (stats : SimStats) (c : Nat) (m : WriteBack Oblock)
    (read : TraceReaderResult) : stats.access c m read =
      { (if read.oblock ∈ m.items then stats.countHit read.write
          else stats.countMiss read.write) with
        dirtyEvicts := stats.dirtyEvicts + if m.WritesBack c read.oblock then 1 else 0 } := by
  have hcount : (if read.oblock ∈ m.items then stats.countHit read.write
      else stats.countMiss read.write).dirtyEvicts = stats.dirtyEvicts := by
    unfold SimStats.countHit SimStats.countMiss
    cases read.write with
    | false => split <;> rfl
    | true => split <;> rfl
  rw [SimStats.access, ← hcount]
  split
  · rfl
  · rfl

/-- A textbook write-back cache and the counters of the simulator, after the accesses of a trace. -/
def textbookRun (c : Nat) (trace : List TraceReaderResult) : WriteBack Oblock × SimStats :=
  trace.foldl (fun x read => (x.1.access c read.oblock read.write, x.2.access c x.1 read)) ({}, {})

variable {c : Nat} {os : List Oblock} {m : WriteBack Oblock} {sim : Sim LruPolicy}
  {options : SimOptions}

/-- One access of the simulator is one access of the textbook cache. -/
theorem simAccess_textbook (hc : 0 < c) (hdelay : options.migrationDelay = 0)
    (hremove : options.removeRate = 0) (random : Nat → Nat) (time : Nat)
    (h : sim.bp.WritesBack c os m) (read : TraceReaderResult) :
    ∃ sim', simAccess lruApi options random sim time read = .ok sim' ∧
      sim'.bp.WritesBack c (os ++ [read.oblock]) (m.access c read.oblock read.write) ∧
      sim'.simStats = sim.simStats.access c m read := by
  have h0 := h.setTime time
  obtain ⟨bp, res, hrequest, hhit, hevict, h1⟩ := h0.request hc read.oblock read.write
  refine ⟨_, simAccess_request hdelay hremove random (fun e _ => h0.textbook.settled _) hrequest,
    h1, ?_⟩
  simp only [SimStats.answer, SimStats.access, hevict, hhit, decide_eq_true_eq]

theorem textbookRun_concat (c : Nat) (trace : List TraceReaderResult) (read : TraceReaderResult) :
    textbookRun c (trace ++ [read]) =
      ((textbookRun c trace).1.access c read.oblock read.write,
        (textbookRun c trace).2.access c (textbookRun c trace).1 read) := by
  rw [textbookRun, List.foldl_append]
  rfl

theorem textbookRun_items (c : Nat) (trace : List TraceReaderResult) :
    (textbookRun c trace).1.items = mostRecent c (trace.map TraceReaderResult.oblock) := by
  induction trace using List.reverseRecOn with
  | nil => simp [textbookRun, mostRecent]
  | append_singleton trace read ih =>
    rw [textbookRun_concat, List.map_append, List.map_cons, List.map_nil]
    exact WriteBack.items_access ih

/-- The textbook cache misses where the recency list does, and it counts every access once. -/
theorem textbookRun_counts (c : Nat) (trace : List TraceReaderResult) :
    (textbookRun c trace).2.readMisses + (textbookRun c trace).2.writeMisses =
        recencyMisses c (trace.map TraceReaderResult.oblock) ∧
      (textbookRun c trace).2.readHits + (textbookRun c trace).2.readMisses =
        trace.countP (fun read => !read.write) ∧
      (textbookRun c trace).2.writeHits + (textbookRun c trace).2.writeMisses =
        trace.countP TraceReaderResult.write := by
  induction trace using List.reverseRecOn with
  | nil => exact ⟨rfl, rfl, rfl⟩
  | append_singleton trace read ih =>
    obtain ⟨hmiss, hreads, hwrites⟩ := ih
    rw [textbookRun_concat, List.map_append, List.map_cons, List.map_nil, recencyMisses_concat,
      List.countP_append, List.countP_append, List.countP_singleton, List.countP_singleton,
      ← textbookRun_items, ← hmiss, ← hreads, ← hwrites]
    generalize textbookRun c trace = x
    simp only [SimStats.access_eq]
    by_cases hmem : read.oblock ∈ x.1.items
    · cases hw : read.write with
      | false => simp [hmem, SimStats.countHit]; omega
      | true => simp [hmem, SimStats.countHit]; omega
    · cases hw : read.write with
      | false => simp [hmem, SimStats.countMiss]; omega
      | true => simp [hmem, SimStats.countMiss]; omega

/-- The main loop under LRU is a run of the textbook cache on the sample of the trace. -/
theorem simMain_textbook (hdelay : options.migrationDelay = 0) (hremove : options.removeRate = 0)
    (random : Nat → Nat) {cacheSize : UInt32} {metadataSize samplingRate : UInt64}
    (hc : 0 < cacheSize.toNat / samplingRate.toNat) {bp : LruPolicy}
    (hbp : policyPrep lruCreate cacheSize metadataSize samplingRate = .ok bp) {sim0 : Sim LruPolicy}
    (hprep : simPrep options bp = .ok sim0) (trace : List TraceReaderResult) :
    ∃ sim time, simMain lruApi options random samplingRate sim0 1 trace = .ok (sim, time) ∧
      sim.simStats = (textbookRun (cacheSize.toNat / samplingRate.toNat)
        (sampled samplingRate trace)).2 := by
  have hlt : cacheSize.toNat / samplingRate.toNat < 2 ^ 32 :=
    Nat.lt_of_le_of_lt (Nat.div_le_self _ _) cacheSize.toNat_lt
  have hsize : (UInt32.ofNat (cacheSize.toNat / samplingRate.toNat)).toNat =
      cacheSize.toNat / samplingRate.toNat := UInt32.toNat_ofNat_of_lt' hlt
  have htext : bp.Textbook (cacheSize.toNat / samplingRate.toNat) [] := by
    rw [← hsize]
    exact .of_init hbp
  have habs := (lruInit_spec hbp).2.2.2
  obtain ⟨hbp0, hstats0⟩ := simPrep_synchronous hdelay hprep
  have h0 : bp.WritesBack (cacheSize.toNat / samplingRate.toNat) [] (textbookRun
      (cacheSize.toNat / samplingRate.toNat) []).1 :=
    ⟨htext, textbookRun_items _ [], fun r ha => absurd rfl (habs _ r ha)⟩
  obtain ⟨sim, time, hrun, _, hstats⟩ := simMain_history
    (J := fun past (sim : Sim LruPolicy) => sim.bp.WritesBack
        (cacheSize.toNat / samplingRate.toNat) (past.map TraceReaderResult.oblock)
        (textbookRun (cacheSize.toNat / samplingRate.toNat) past).1 ∧
      sim.simStats = (textbookRun (cacheSize.toNat / samplingRate.toNat) past).2)
    (fun past sim time read h => by
      rw [textbookRun_concat, List.map_append, List.map_singleton, ← h.2]
      exact simAccess_textbook hc hdelay hremove random time h.1 read)
    ⟨hbp0 ▸ h0, hstats0⟩ samplingRate 1 trace
  exact ⟨sim, time, hrun, hstats⟩

/-- With neither a delay nor removals, the simulator's counters after a trace under LRU are those of
a textbook write-back cache of `cache_size / sampling_rate` blocks on the sample of the trace. It
misses an access exactly when its block is not among that many most recent ones. -/
theorem simulated_lru (hdelay : options.migrationDelay = 0) (hremove : options.removeRate = 0)
    (random : Nat → Nat) {cacheSize : UInt32} {metadataSize samplingRate : UInt64}
    (hc : 0 < cacheSize.toNat / samplingRate.toNat) {bp : LruPolicy}
    (hbp : policyPrep lruCreate cacheSize metadataSize samplingRate = .ok bp) {sim0 : Sim LruPolicy}
    (hprep : simPrep options bp = .ok sim0) (trace : List TraceReaderResult) :
    ∃ sim time, simMain lruApi options random samplingRate sim0 1 trace = .ok (sim, time) ∧
      sim.simStats = (textbookRun (cacheSize.toNat / samplingRate.toNat)
        (sampled samplingRate trace)).2 ∧
      sim.simStats.readMisses + sim.simStats.writeMisses =
        recencyMisses (cacheSize.toNat / samplingRate.toNat)
          ((sampled samplingRate trace).map TraceReaderResult.oblock) ∧
      sim.simStats.readHits + sim.simStats.readMisses =
        (sampled samplingRate trace).countP (fun read => !read.write) ∧
      sim.simStats.writeHits + sim.simStats.writeMisses =
        (sampled samplingRate trace).countP TraceReaderResult.write := by
  obtain ⟨sim, time, hrun, hstats⟩ :=
    simMain_textbook hdelay hremove random hc hbp hprep trace
  refine ⟨sim, time, hrun, hstats, ?_⟩
  rw [hstats]
  exact textbookRun_counts _ _

/-- Two slots and six accesses, of which the sample leaves out one: a block that was written is
hit, and evicted after a clean one. -/
theorem simulated_lru_sampled : ∃ bp sim0 sim time,
    policyPrep lruCreate 4 4 2 = .ok bp ∧ simPrep ⟨0, 0⟩ bp = .ok sim0 ∧
    simMain lruApi ⟨0, 0⟩ (fun _ => 0) 2 sim0 1
      [⟨0, true⟩, ⟨1, false⟩, ⟨2, false⟩, ⟨0, false⟩, ⟨3, false⟩, ⟨6, false⟩] = .ok (sim, time) ∧
    sim.simStats = { writeMisses := 1, readHits := 1, readMisses := 3, dirtyEvicts := 1 } := by
  have hbp : policyPrep lruCreate 4 4 2 = _ := lruInit_eq 2
  have hdelay : (⟨0, 0⟩ : SimOptions).migrationDelay = 0 := rfl
  obtain ⟨sim, time, hrun, hstats, _⟩ := simulated_lru hdelay rfl (fun _ => 0) (by decide) hbp rfl
    [⟨0, true⟩, ⟨1, false⟩, ⟨2, false⟩, ⟨0, false⟩, ⟨3, false⟩, ⟨6, false⟩]
  exact ⟨_, _, sim, time, hbp, rfl, hrun, hstats⟩

end Fomo
