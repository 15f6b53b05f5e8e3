import Fomo.Algs.LruSteps
import Fomo.Sim.SimSampling
import Fomo.TraceReader.TraceDuration

/-!
# Simulating a trace file (`sim/main.c`)

The main loop asks the reader of the trace until the first end it reports. On a file of records it
runs over the blocks that the records meet, up to the first record past the duration.
-/
namespace Fomo

variable {τ κ : Type} {fmt : TraceFormat τ κ} {r r' : TraceReader τ κ} {read : TraceReaderResult}

/-- A reader that delivers has read on in its file or in the record at hand. -/
theorem traceRead_progress (h : traceRead fmt r = (r', some read)) :
    Prod.Lex (· < ·) (· < ·) (r'.file.length, r'.info.left.toNat)
      (r.file.length, r.info.left.toNat) := by
  unfold traceRead traceReadWith at h
  split at h
  · next hpos =>
    obtain ⟨rfl, _⟩ := Prod.mk.inj h
    apply Prod.Lex.right
    have hpos : 0 < r.info.left.toNat := UInt64.lt_iff_toNat_lt.mp hpos
    have hle : (1 : UInt64) ≤ r.info.left := UInt64.le_iff_toNat_le.mpr (Nat.succ_le_of_lt hpos)
    show (r.info.left - 1).toNat < r.info.left.toNat
    rw [UInt64.toNat_sub_of_le _ _ hle]
    exact Nat.sub_lt hpos Nat.one_pos
  · rcases hscan : traceScan r.info r.file with ⟨info, file, found⟩
    rw [hscan] at h
    obtain ⟨_, hsub, hfilter⟩ := traceScan_counts hscan
    cases found with
    | none => cases (Prod.mk.inj h).2
    | some rec =>
      obtain ⟨rfl, _⟩ := Prod.mk.inj h
      apply Prod.Lex.left
      refine hsub.length_le.lt_of_ne fun heq => ?_
      rw [hsub.eq_of_length heq] at hfilter
      exact absurd (congrArg List.length hfilter) (by simp)

/-- The reads of `sim_access` from a reader. -/
def simReadFile (fmt : TraceFormat τ κ) (samplingRate : UInt64) (r : TraceReader τ κ) :
    Option (TraceReaderResult × TraceReader τ κ) :=
  match _h : traceRead fmt r with
  | (_, none) => none
  | (r', some read) =>
    if samplingRate = 1 then some (read, r')
    else
      let read := { read with oblock := sampleOblock read.oblock }
      if read.oblock.toNat > samplingT samplingRate then simReadFile fmt samplingRate r'
      else some (read, r')
termination_by (r.file.length, r.info.left.toNat)
decreasing_by exact traceRead_progress _h

/-- A read from a reader is a read from the list of what it delivers. -/
theorem simReadFile_eq (hu : 0 < fmt.unit.toNat) (samplingRate : UInt64) (h : r.Fits fmt) :
    (simReadFile fmt samplingRate r).map (fun x => (x.1, x.2.delivers fmt)) =
        simRead samplingRate (r.delivers fmt) ∧
      ∀ x, simReadFile fmt samplingRate r = some x → x.2.Fits fmt := by
  induction hn : (r.delivers fmt).length using Nat.strong_induction_on generalizing r with
  | _ n ih =>
    obtain ⟨hhead, hfits, htail⟩ := traceRead_delivers hu h
    rw [simReadFile]
    split
    · next _ hread =>
      rw [hread] at hhead
      rw [List.head?_eq_none_iff.mp hhead.symm]
      exact ⟨rfl, fun x hx => by cases hx⟩
    · next r' read hread =>
      rw [hread] at hhead hfits htail
      have htail := htail (Option.some_ne_none read)
      obtain ⟨rest, hrest⟩ : ∃ rest, r.delivers fmt = read :: rest :=
        List.head?_eq_some_iff.mp hhead.symm
      rw [hrest, List.tail_cons] at htail
      rw [hrest, simRead]
      split
      · exact ⟨by rw [Option.map_some, htail], fun x hx => Option.some.inj hx ▸ hfits⟩
      · dsimp only
        split
        · rw [← htail]
          refine ih (r'.delivers fmt).length ?_ hfits rfl
          rw [← hn, hrest, htail]
          exact Nat.lt_succ_self _
        · exact ⟨by rw [Option.map_some, htail], fun x hx => Option.some.inj hx ▸ hfits⟩

theorem simReadFile_progress {samplingRate : UInt64}
    (h : simReadFile fmt samplingRate r = some (read, r')) :
    Prod.Lex (· < ·) (· < ·) (r'.file.length, r'.info.left.toNat)
      (r.file.length, r.info.left.toNat) := by
  induction r using simReadFile.induct fmt samplingRate with
  | case1 r r1 hread =>
    rw [simReadFile] at h
    split at h
    · cases h
    · next _ _ hread' => cases hread.symm.trans hread'
  | case2 r r1 read1 hread hone =>
    rw [simReadFile] at h
    split at h
    · next _ hread' => cases hread.symm.trans hread'
    · next hread' =>
      rw [if_pos hone] at h
      obtain ⟨_, rfl⟩ := Prod.mk.inj (Option.some.inj h)
      exact traceRead_progress hread'
  | case3 r r1 read1 hread hone _ hgt ih =>
    rw [simReadFile] at h
    split at h
    · next _ hread' => cases hread.symm.trans hread'
    · next hread' =>
      obtain ⟨rfl, hreads⟩ := Prod.mk.inj (hread.symm.trans hread')
      obtain rfl := Option.some.inj hreads
      rw [if_neg hone] at h
      dsimp only at h
      rw [if_pos hgt] at h
      exact Prod.Lex.trans (ih h) (traceRead_progress hread)
  | case4 r r1 read1 hread hone _ hle =>
    rw [simReadFile] at h
    split at h
    · next _ hread' => cases hread.symm.trans hread'
    · next hread' =>
      obtain ⟨rfl, hreads⟩ := Prod.mk.inj (hread.symm.trans hread')
      obtain rfl := Option.some.inj hreads
      rw [if_neg hone] at h
      dsimp only at h
      rw [if_neg hle] at h
      obtain ⟨_, rfl⟩ := Prod.mk.inj (Option.some.inj h)
      exact traceRead_progress hread

variable {σ : Type} (P : Policy σ) (options : SimOptions) (random : Nat → Nat)

/-- The loop of `main`, on a file. -/
def simFile (fmt : TraceFormat τ κ) (samplingRate : UInt64) (sim : Sim σ) (time : Nat)
    (r : TraceReader τ κ) : Exec (Sim σ × Nat) :=
  match h : simReadFile fmt samplingRate r with
  | none => .ok (sim, time)
  | some (read, r') => do
    let sim ← simAccess P options random sim time read
    simFile fmt samplingRate sim (u32 (time + 1)) r'
termination_by (r.file.length, r.info.left.toNat)
decreasing_by exact simReadFile_progress h

/-- The loop over a reader is the loop over what it delivers. -/
theorem simFile_eq (hu : 0 < fmt.unit.toNat) (samplingRate : UInt64) (sim : Sim σ) (time : Nat)
    (h : r.Fits fmt) : simFile P options random fmt samplingRate sim time r =
      simMain P options random samplingRate sim time (r.delivers fmt) := by
  induction hn : (r.delivers fmt).length using Nat.strong_induction_on
    generalizing r sim time with
  | _ n ih =>
    obtain ⟨hread, hfits⟩ := simReadFile_eq hu samplingRate h
    rw [simFile, simMain]
    split
    · next hnone =>
      rw [hnone, Option.map_none] at hread
      split
      · rfl
      · next hsome => cases hread.trans hsome
    · next read r' hsome =>
      rw [hsome, Option.map_some] at hread
      split
      · next hnone => cases hread.trans hnone
      · next read1 rest hrest =>
        obtain ⟨rfl, rfl⟩ := Prod.mk.inj (Option.some.inj (hread.trans hrest))
        refine congrArg _ (funext fun sim' => ?_)
        exact ih _ (hn ▸ simRead_length hrest) sim' (u32 (time + 1)) (hfits _ hsome) rfl

/-- Under every policy the main loop on a file of records, with any duration limit and any sampling
rate, runs over the units that the records within the duration meet. -/
def RunsRecords (fmt : TraceFormat τ κ) (u : Nat) (isWrite : κ → Bool) : Prop :=
  ∀ (σ : Type) (P : Policy σ) (options : SimOptions) (random : Nat → Nat) (samplingRate : UInt64)
    (sim : Sim σ) (durationHrs : UInt32) (recs : List (TraceRecord τ κ)),
    (∀ rec ∈ recs, rec.Fits u) →
    simFile P options random fmt samplingRate sim 1 (traceInit {} recs durationHrs) =
      simMain P options random samplingRate sim 1
        ((withinDuration fmt durationHrs recs).flatMap (TraceRecord.accesses u isWrite))

theorem runsRecords (hu : 0 < fmt.unit.toNat) : RunsRecords fmt fmt.unit.toNat fmt.isWrite := by
  intro σ P options random samplingRate sim durationHrs recs hfit
  have hfits : (traceInit {} recs durationHrs).Fits fmt := hfit
  rw [simFile_eq P options random hu samplingRate sim 1 hfits, traceInit_delivers]

/-- The simulator on a FIU, an MSR and a VISA file. -/
theorem simulated_file :
    RunsRecords fiuFormat 8 (fun io => io.head? = some 'W') ∧
    RunsRecords msrFormat 512 (fun io => io.head? = some 'W') ∧
    RunsRecords visaFormat 8 (fun io => io.head? = some 'W') :=
  ⟨runsRecords (by decide), runsRecords (by decide), runsRecords (by decide)⟩

/-- Of three records the last one is late by one nanosecond. -/
theorem simulated_file_late : ∃ bp sim, policyPrep lruCreate 2 2 1 = .ok bp ∧
    simPrep ⟨0, 0⟩ bp = .ok sim ∧
    simFile lruApi ⟨0, 0⟩ (fun _ => 0) fiuFormat 1 sim 1 (traceInit {}
        [⟨7, 5, 12, ['W']⟩, ⟨3600000000007, 40, 1, ['R']⟩, ⟨3600000000008, 8, 1, ['R']⟩] 1) =
      simMain lruApi ⟨0, 0⟩ (fun _ => 0) 1 sim 1
        [⟨0, true⟩, ⟨8, true⟩, ⟨16, true⟩, ⟨40, false⟩] := by
  have hbp : policyPrep lruCreate 2 2 1 = _ := lruInit_eq 2
  exact ⟨_, _, hbp, rfl, simulated_file.1 LruPolicy lruApi ⟨0, 0⟩ (fun _ => 0) 1 _ 1
    [⟨7, 5, 12, ['W']⟩, ⟨3600000000007, 40, 1, ['R']⟩, ⟨3600000000008, 8, 1, ['R']⟩]
    (by simp [TraceRecord.Fits])⟩

end Fomo
