import Fomo.Sim.SimFile
import Fomo.Sim.SimMonotone

/-!
# The size of the working set (`workingset_size/set_size.cc`)

The program reads a trace as the simulator does and counts the distinct blocks. The count is what
every simulated LRU cache misses at least, and what one with room for all of them misses.
-/
namespace Fomo

open Lib

variable {τ κ : Type} {fmt : TraceFormat τ κ} {r : TraceReader τ κ} {c : Nat}
  {trace : List TraceReaderResult}

/-- The loop of `main`. -/
def setSizeLoop (fmt : TraceFormat τ κ) (r : TraceReader τ κ) (unique : Finset Oblock) :
    Finset Oblock :=
  match _h : traceRead fmt r with
  | (_, none) => unique
  | (r', some read) =>
    setSizeLoop fmt r' (if read.oblock ∈ unique then unique else insert read.oblock unique)
termination_by (r.file.length, r.info.left.toNat)
decreasing_by exact traceRead_progress _h

/-- The number printed for a trace. -/
def setSize (fmt : TraceFormat τ κ) (recs : List (TraceRecord τ κ)) (durationHrs : UInt32) : Nat :=
  (setSizeLoop fmt (traceInit {} recs durationHrs) ∅).card

theorem setSizeLoop_eq (hu : 0 < fmt.unit.toNat) (h : r.Fits fmt) (unique : Finset Oblock) :
    setSizeLoop fmt r unique =
      unique ∪ ((r.delivers fmt).map TraceReaderResult.oblock).toFinset := by
  induction hn : (r.delivers fmt).length using Nat.strong_induction_on generalizing r unique with
  | _ n ih =>
    obtain ⟨hhead, hfits, htail⟩ := traceRead_delivers hu h
    rw [setSizeLoop]
    split
    · next _ hread =>
      rw [hread] at hhead
      rw [List.head?_eq_none_iff.mp hhead.symm]
      simp
    · next r' read hread =>
      rw [hread] at hhead hfits htail
      obtain ⟨rest, hrest⟩ : ∃ rest, r.delivers fmt = read :: rest :=
        List.head?_eq_some_iff.mp hhead.symm
      have htail := htail (Option.some_ne_none read)
      rw [hrest, List.tail_cons] at htail
      have hinsert : (if read.oblock ∈ unique then unique else insert read.oblock unique) =
          insert read.oblock unique := by
        split
        · next hmem => exact (Finset.insert_eq_of_mem hmem).symm
        · rfl
      have hlt : (r'.delivers fmt).length < n := by
        rw [← hn, hrest, htail]
        exact Nat.lt_succ_self _
      rw [ih _ hlt hfits _ rfl, hinsert, hrest, htail, List.map_cons, List.toFinset_cons,
        Finset.insert_union, Finset.union_insert]

/-- The program counts the distinct blocks of what the reader delivers. -/
theorem setSize_eq (hu : 0 < fmt.unit.toNat) {recs : List (TraceRecord τ κ)}
    (hfits : ∀ rec ∈ recs, rec.Fits fmt.unit.toNat) (durationHrs : UInt32) :
    setSize fmt recs durationHrs = (((withinDuration fmt durationHrs recs).flatMap
      (TraceRecord.accesses fmt.unit.toNat fmt.isWrite)).map
        TraceReaderResult.oblock).toFinset.card := by
  have hready : (traceInit {} recs durationHrs).Fits fmt := hfits
  rw [setSize, setSizeLoop_eq hu hready, Finset.empty_union, traceInit_delivers]

/-- A cache with room for every block drops none. -/
theorem textbookRun_room (h : (trace.map TraceReaderResult.oblock).dedup.length ≤ c) :
    (textbookRun c trace).2.dirtyEvicts = 0 := by
  induction trace using List.reverseRecOn with
  | nil => rfl
  | append_singleton trace read ih =>
    rw [List.map_append, List.map_singleton, length_dedup_concat] at h
    have hold := ih ((Nat.le_add_right _ _).trans h)
    have hno : ¬(textbookRun c trace).1.WritesBack c read.oblock := by
      intro hwb
      obtain ⟨hnot, hfull, _⟩ := hwb
      rw [textbookRun_items] at hnot hfull
      rw [mostRecent_of_room ((Nat.le_add_right _ _).trans h)] at hnot hfull
      rw [List.mem_dedup] at hnot
      rw [if_neg hnot] at h
      omega
    rw [textbookRun_concat, SimStats.access_eq, if_neg hno]
    exact hold

/-- The number printed is the number of distinct units that the records within the duration meet.
LRU misses at least as often in the simulator, and exactly so often, without a dirty eviction, when
all of them fit. -/
def MeasuresWorkingSet (fmt : TraceFormat τ κ) (u : Nat) (isWrite : κ → Bool) : Prop :=
  ∀ (recs : List (TraceRecord τ κ)) (durationHrs : UInt32), (∀ rec ∈ recs, rec.Fits u) →
    setSize fmt recs durationHrs = (((withinDuration fmt durationHrs recs).flatMap
      (TraceRecord.accesses u isWrite)).map TraceReaderResult.oblock).toFinset.card ∧
    ∀ (options : SimOptions) (random : Nat → Nat) (cacheSize : UInt32) (metadataSize : UInt64)
      (bp : LruPolicy) (sim0 : Sim LruPolicy), options.migrationDelay = 0 →
      options.removeRate = 0 → 0 < cacheSize.toNat →
      policyPrep lruCreate cacheSize metadataSize 1 = .ok bp → simPrep options bp = .ok sim0 →
      ∃ sim time, simFile lruApi options random fmt 1 sim0 1 (traceInit {} recs durationHrs) =
          .ok (sim, time) ∧
        setSize fmt recs durationHrs ≤ sim.simStats.readMisses + sim.simStats.writeMisses ∧
        (setSize fmt recs durationHrs ≤ cacheSize.toNat →
          sim.simStats.readMisses + sim.simStats.writeMisses = setSize fmt recs durationHrs ∧
          sim.simStats.dirtyEvicts = 0)

theorem measuresWorkingSet (hu : 0 < fmt.unit.toNat) :
    MeasuresWorkingSet fmt fmt.unit.toNat fmt.isWrite := by
  intro recs durationHrs hfits
  have hsize := setSize_eq hu hfits durationHrs
  refine ⟨hsize, ?_⟩
  intro options random cacheSize metadataSize bp sim0 hdelay hremove hc hbp hprep
  have hone : cacheSize.toNat / (1 : UInt64).toNat = cacheSize.toNat := Nat.div_one _
  have hready : (traceInit {} recs durationHrs).Fits fmt := hfits
  rw [List.card_toFinset] at hsize
  generalize htrace : (withinDuration fmt durationHrs recs).flatMap
    (TraceRecord.accesses fmt.unit.toNat fmt.isWrite) = trace at hsize
  obtain ⟨sim, time, hrun, hstats⟩ :=
    simMain_textbook hdelay hremove random (hone.symm ▸ hc) hbp hprep trace
  rw [hone, sampled, if_pos rfl] at hstats
  have hmisses := (textbookRun_counts cacheSize.toNat trace).1
  refine ⟨sim, time, ?_, ?_, fun hle => ?_⟩
  · rw [simFile_eq lruApi options random hu 1 sim0 1 hready, traceInit_delivers, htrace, hrun]
  · rw [hstats, hmisses, hsize]
    exact le_recencyMisses _ _
  · rw [hsize] at hle
    rw [hstats, hmisses, hsize]
    exact ⟨recencyMisses_of_room hle, textbookRun_room hle⟩

/-- The working set of a FIU, an MSR and a VISA file, and what simulated LRU makes of it. -/
theorem working_set :
    MeasuresWorkingSet fiuFormat 8 (fun io => io.head? = some 'W') ∧
    MeasuresWorkingSet msrFormat 512 (fun io => io.head? = some 'W') ∧
    MeasuresWorkingSet visaFormat 8 (fun io => io.head? = some 'W') :=
  ⟨measuresWorkingSet (by decide), measuresWorkingSet (by decide), measuresWorkingSet (by decide)⟩

/-- Two records that meet three pages, one of them twice, and a cache of four. -/
theorem working_set_three :
    setSize fiuFormat [⟨7, 5, 12, ['W']⟩, ⟨9, 8, 8, ['R']⟩] 0 = 3 ∧
    ∃ bp sim0 sim time, policyPrep lruCreate 4 4 1 = .ok bp ∧ simPrep ⟨0, 0⟩ bp = .ok sim0 ∧
      simFile lruApi ⟨0, 0⟩ (fun _ => 0) fiuFormat 1 sim0 1
        (traceInit {} [⟨7, 5, 12, ['W']⟩, ⟨9, 8, 8, ['R']⟩] 0) = .ok (sim, time) ∧
      sim.simStats.readMisses + sim.simStats.writeMisses = 3 ∧ sim.simStats.dirtyEvicts = 0 := by
  have hbp : policyPrep lruCreate 4 4 1 = _ := lruInit_eq 4
  have hdelay : (⟨0, 0⟩ : SimOptions).migrationDelay = 0 := rfl
  obtain ⟨hcard, hsim⟩ := working_set.1 [⟨7, 5, 12, ['W']⟩, ⟨9, 8, 8, ['R']⟩] 0
    (by simp [TraceRecord.Fits])
  have hsize : setSize fiuFormat [⟨7, 5, 12, ['W']⟩, ⟨9, 8, 8, ['R']⟩] 0 = 3 := hcard
  obtain ⟨sim, time, hrun, _, hroom⟩ :=
    hsim ⟨0, 0⟩ (fun _ => 0) 4 4 _ _ hdelay rfl (by decide) hbp rfl
  rw [hsize] at hroom
  obtain ⟨hmisses, hclean⟩ := hroom (by decide)
  exact ⟨hsize, _, _, sim, time, hbp, rfl, hrun, hmisses, hclean⟩

end Fomo
