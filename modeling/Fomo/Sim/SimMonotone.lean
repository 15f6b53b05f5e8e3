import Fomo.Lib.WriteBackInclusion
import Fomo.Sim.SimLru

/-!
# Larger simulated caches

The curve that the simulator draws under LRU falls: on one trace a larger cache never misses more
reads or writes, and never evicts more dirty blocks.
-/
namespace Fomo

open Lib

variable {c c' : Nat} {m m' : WriteBack Oblock} {stats stats' : SimStats}
  {read : TraceReaderResult}

/-- Fewer misses and more hits, of reads and of writes. -/
structure SimStats.HitsMore (stats stats' : SimStats) : Prop where
  readHits : stats.readHits ≤ stats'.readHits
  writeHits : stats.writeHits ≤ stats'.writeHits
  readMisses : stats'.readMisses ≤ stats.readMisses
  writeMisses : stats'.writeMisses ≤ stats.writeMisses

theorem SimStats.HitsMore.hit (h : stats.HitsMore stats') (write : Bool) :
    (stats.countHit write).HitsMore (stats'.countHit write) := by
  cases write with
  | false => exact ⟨Nat.succ_le_succ h.readHits, h.writeHits, h.readMisses, h.writeMisses⟩
  | true => exact ⟨h.readHits, Nat.succ_le_succ h.writeHits, h.readMisses, h.writeMisses⟩

theorem SimStats.HitsMore.miss (h : stats.HitsMore stats') (write : Bool) :
    (stats.countMiss write).HitsMore (stats'.countMiss write) := by
  cases write with
  | false => exact ⟨h.readHits, h.writeHits, Nat.succ_le_succ h.readMisses, h.writeMisses⟩
  | true => exact ⟨h.readHits, h.writeHits, h.readMisses, Nat.succ_le_succ h.writeMisses⟩

theorem SimStats.HitsMore.gain (h : stats.HitsMore stats') (write : Bool) :
    (stats.countMiss write).HitsMore (stats'.countHit write) := by
  cases write with
  | false =>
    exact ⟨Nat.le_succ_of_le h.readHits, h.writeHits, Nat.le_succ_of_le h.readMisses,
      h.writeMisses⟩
  | true =>
    exact ⟨h.readHits, Nat.le_succ_of_le h.writeHits, h.readMisses,
      Nat.le_succ_of_le h.writeMisses⟩

/-- An access that hits the smaller cache hits the larger one. -/
theorem SimStats.HitsMore.access (h : stats.HitsMore stats') (hsub : m.items ⊆ m'.items) :
    (stats.access c m read).HitsMore (stats'.access c' m' read) := by
  rw [SimStats.access_eq, SimStats.access_eq]
  by_cases hin : read.oblock ∈ m.items
  · rw [if_pos hin, if_pos (hsub hin)]
    obtain ⟨h1, h2, h3, h4⟩ := h.hit read.write
    exact ⟨h1, h2, h3, h4⟩
  · rw [if_neg hin]
    by_cases hin' : read.oblock ∈ m'.items
    · rw [if_pos hin']
      obtain ⟨h1, h2, h3, h4⟩ := h.gain read.write
      exact ⟨h1, h2, h3, h4⟩
    · rw [if_neg hin']
      obtain ⟨h1, h2, h3, h4⟩ := h.miss read.write
      exact ⟨h1, h2, h3, h4⟩

/-- Two textbook caches on one trace: the dirty evictions of the larger one, and the blocks it
still owes, are covered by those of the smaller one. -/
theorem textbookRun_monotone (hc : 0 < c) (hle : c ≤ c') (trace : List TraceReaderResult) :
    WriteBack.Includes c c' (trace.map TraceReaderResult.oblock) (textbookRun c trace).1
        (textbookRun c' trace).1 ∧
      (textbookRun c trace).2.HitsMore (textbookRun c' trace).2 ∧
      (textbookRun c' trace).2.dirtyEvicts +
          WriteBack.owed (textbookRun c trace).1 (textbookRun c' trace).1 ≤
        (textbookRun c trace).2.dirtyEvicts := by
  induction trace using List.reverseRecOn with
  | nil =>
    exact ⟨.nil c c', ⟨le_refl _, le_refl _, le_refl _, le_refl _⟩, le_refl _⟩
  | append_singleton trace read ih =>
    obtain ⟨hincl, hhits, hdirty⟩ := ih
    have howed := hincl.owed_access hc hle read.oblock read.write
    rw [textbookRun_concat, textbookRun_concat, List.map_append, List.map_singleton]
    refine ⟨hincl.access hle read.oblock read.write, hhits.access (hincl.subset hle), ?_⟩
    simp only [SimStats.access_eq]
    omega

variable {options : SimOptions}

/-- A larger cache under LRU never does worse: with neither a delay nor removals and with one
sampling rate, it misses no more reads, no more writes, and evicts no more dirty blocks. -/
theorem simulated_lru_monotone (hdelay : options.migrationDelay = 0)
    (hremove : options.removeRate = 0) (random : Nat → Nat)
    {cacheSize cacheSize' : UInt32} {metadataSize metadataSize' samplingRate : UInt64}
    (hc : 0 < cacheSize.toNat / samplingRate.toNat) (hle : cacheSize ≤ cacheSize')
    {bp bp' : LruPolicy} (hbp : policyPrep lruCreate cacheSize metadataSize samplingRate = .ok bp)
    (hbp' : policyPrep lruCreate cacheSize' metadataSize' samplingRate = .ok bp')
    {sim0 sim0' : Sim LruPolicy} (hprep : simPrep options bp = .ok sim0)
    (hprep' : simPrep options bp' = .ok sim0') (trace : List TraceReaderResult) :
    ∃ sim time sim' time', simMain lruApi options random samplingRate sim0 1 trace =
        .ok (sim, time) ∧
      simMain lruApi options random samplingRate sim0' 1 trace = .ok (sim', time') ∧
      sim.simStats.HitsMore sim'.simStats ∧
      sim'.simStats.dirtyEvicts ≤ sim.simStats.dirtyEvicts := by
  have hle' : cacheSize.toNat / samplingRate.toNat ≤ cacheSize'.toNat / samplingRate.toNat :=
    Nat.div_le_div_right (UInt32.le_iff_toNat_le.mp hle)
  obtain ⟨sim, time, hrun, hstats⟩ := simMain_textbook hdelay hremove random hc hbp hprep trace
  obtain ⟨sim', time', hrun', hstats'⟩ :=
    simMain_textbook hdelay hremove random (hc.trans_le hle') hbp' hprep' trace
  obtain ⟨_, hhits, hdirty⟩ := textbookRun_monotone hc hle' (sampled samplingRate trace)
  refine ⟨sim, time, sim', time', hrun, hrun', ?_, ?_⟩
  · rw [hstats, hstats']
    exact hhits
  · rw [hstats, hstats']
    omega

/-- One block and two blocks: the write of block 5 is evicted from the smaller cache only. -/
theorem simulated_lru_monotone_two : ∃ bp bp' sim0 sim0' sim time sim' time',
    policyPrep lruCreate 1 1 1 = .ok bp ∧ policyPrep lruCreate 2 2 1 = .ok bp' ∧
    simPrep ⟨0, 0⟩ bp = .ok sim0 ∧ simPrep ⟨0, 0⟩ bp' = .ok sim0' ∧
    simMain lruApi ⟨0, 0⟩ (fun _ => 0) 1 sim0 1 [⟨5, true⟩, ⟨6, false⟩, ⟨5, false⟩] =
      .ok (sim, time) ∧
    simMain lruApi ⟨0, 0⟩ (fun _ => 0) 1 sim0' 1 [⟨5, true⟩, ⟨6, false⟩, ⟨5, false⟩] =
      .ok (sim', time') ∧
    sim'.simStats.dirtyEvicts ≤ sim.simStats.dirtyEvicts := by
  have hbp : policyPrep lruCreate 1 1 1 = _ := lruInit_eq 1
  have hbp' : policyPrep lruCreate 2 2 1 = _ := lruInit_eq 2
  have hdelay : (⟨0, 0⟩ : SimOptions).migrationDelay = 0 := rfl
  obtain ⟨sim, time, sim', time', hrun, hrun', _, hdirty⟩ := simulated_lru_monotone hdelay rfl
    (fun _ => 0) (by decide) (by decide) hbp hbp' rfl rfl [⟨5, true⟩, ⟨6, false⟩, ⟨5, false⟩]
  exact ⟨_, _, _, _, sim, time, sim', time', hbp, hbp', rfl, rfl, hrun, hrun', hdirty⟩

end Fomo
