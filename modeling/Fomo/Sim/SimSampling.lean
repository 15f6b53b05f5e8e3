import Fomo.Include.HashTable
import Fomo.Sim.SimMain

/-!
# Sampled runs (`sim/main.c`)

With a sampling rate the simulator hashes the block of every entry it reads and skips those whose
hash lies above a threshold; the cache shrinks by the rate. A sampled run is a plain run over the
entries of the sample.
-/
namespace Fomo

open HashTable

/-- `P`, of 32 bits. -/
def samplingP : Nat := u32 (2 * 2 ^ 30)

/-- `T`. The division by the rate is of 64 bits. -/
def samplingT (samplingRate : UInt64) : Nat := u32 (samplingP / samplingRate.toNat)

def sampleOblock (o : Oblock) : Oblock := UInt64.ofNat (hash64 o.toNat (ffs samplingP - 1))

/-- The reads of `sim_access`. `none` is the end of the trace. -/
def simRead (samplingRate : UInt64) : List TraceReaderResult →
    Option (TraceReaderResult × List TraceReaderResult)
  | [] => none
  | read :: trace =>
    if samplingRate = 1 then some (read, trace)
    else
      let read := { read with oblock := sampleOblock read.oblock }
      if read.oblock.toNat > samplingT samplingRate then simRead samplingRate trace
      else some (read, trace)

theorem simRead_length {samplingRate : UInt64} {trace rest : List TraceReaderResult}
    {read : TraceReaderResult} (h : simRead samplingRate trace = some (read, rest)) :
    rest.length < trace.length := by
  induction trace with
  | nil => cases h
  | cons x trace ih =>
    rw [simRead] at h
    split at h
    · obtain ⟨rfl, rfl⟩ := Prod.mk.inj (Option.some.inj h)
      exact Nat.lt_succ_self _
    · dsimp only at h
      split at h
      · exact (ih h).trans (Nat.lt_succ_self _)
      · obtain ⟨rfl, rfl⟩ := Prod.mk.inj (Option.some.inj h)
        exact Nat.lt_succ_self _

variable {σ : Type} (P : Policy σ) (options : SimOptions) (random : Nat → Nat)

/-- `policy_prep`, without the name of the policy. -/
def policyPrep (create : UInt32 → UInt32 → Exec σ) (cacheSize : UInt32)
    (metadataSize samplingRate : UInt64) : Exec σ :=
  create (UInt32.ofNat (cacheSize.toNat / samplingRate.toNat))
    (UInt32.ofNat (metadataSize.toNat / samplingRate.toNat))

/-- The loop of `main`. -/
def simMain (samplingRate : UInt64) (sim : Sim σ) (time : Nat) (trace : List TraceReaderResult) :
    Exec (Sim σ × Nat) :=
  match h : simRead samplingRate trace with
  | none => .ok (sim, time)
  | some (read, rest) => do
    let sim ← simAccess P options random sim time read
    simMain samplingRate sim (u32 (time + 1)) rest
termination_by trace.length
decreasing_by exact simRead_length h

/-- The entries of a trace that fall into the sample, as the policy sees them. -/
def sampled (samplingRate : UInt64) (trace : List TraceReaderResult) : List TraceReaderResult :=
  if samplingRate = 1 then trace
  else (trace.map fun read => { read with oblock := sampleOblock read.oblock }).filter
    fun read => decide (read.oblock.toNat ≤ samplingT samplingRate)

variable {samplingRate : UInt64} {trace : List TraceReaderResult}

theorem sampled_eq : sampled samplingRate trace = match simRead samplingRate trace with
    | none => []
    | some (read, rest) => read :: sampled samplingRate rest := by
  induction trace with
  | nil =>
    rw [sampled]
    split <;> rfl
  | cons read trace ih =>
    by_cases hone : samplingRate = 1
    · simp only [sampled, simRead, if_pos hone]
    · rw [simRead, if_neg hone]
      dsimp only
      by_cases hgt : (sampleOblock read.oblock).toNat > samplingT samplingRate
      · rw [if_pos hgt, ← ih, sampled, if_neg hone, List.map_cons, List.filter_cons_of_neg,
          sampled, if_neg hone]
        simpa using hgt
      · rw [if_neg hgt]
        dsimp only
        rw [sampled, if_neg hone, List.map_cons, List.filter_cons_of_pos, sampled, if_neg hone]
        simpa using hgt

/-- A sampled run is a plain run over the sample. -/
theorem simMain_eq (sim : Sim σ) (time : Nat) :
    simMain P options random samplingRate sim time trace =
      ((simSystem P options random).exec (sim, time)
        (sampled samplingRate trace)).map Prod.fst := by
  induction hn : trace.length using Nat.strong_induction_on generalizing trace sim time with
  | _ n ih =>
    rw [simMain, sampled_eq]
    split
    · next hread =>
      rw [hread]
      rfl
    · next read rest hread =>
      rw [hread]
      dsimp only
      have hlt := simRead_length hread
      rw [Lib.System.exec, simSystem]
      dsimp only
      cases hrun : simAccess P options random sim time read with
      | error f => rfl
      | ok sim' =>
        rw [ok_bind, ih rest.length (hn ▸ hlt) sim' (u32 (time + 1)) rfl]
        simp only [Except.map, simSystem]
        split
        · rfl
        · rfl

variable {P options random} {J : List TraceReaderResult → Sim σ → Prop}

/-- What every access carries from the entries read so far to the next one holds after any
number of them. -/
theorem simSystem_history (hstep : ∀ past sim time read, J past sim →
      ∃ sim', simAccess P options random sim time read = .ok sim' ∧ J (past ++ [read]) sim')
    (todo : List TraceReaderResult) {past : List TraceReaderResult} {sim : Sim σ} (time : Nat)
    (h : J past sim) :
    ∃ sim' time' ws, (simSystem P options random).exec (sim, time) todo =
      .ok ((sim', time'), ws) ∧ J (past ++ todo) sim' := by
  induction todo generalizing past sim time with
  | nil => exact ⟨sim, time, [], rfl, by rwa [List.append_nil]⟩
  | cons read todo ih =>
    obtain ⟨sim1, hrun, h1⟩ := hstep past sim time read h
    obtain ⟨sim', time', ws, hexec, hfinal⟩ := ih (u32 (time + 1)) h1
    have hone : (simSystem P options random).step (sim, time) read =
        .ok ((sim1, u32 (time + 1)), ()) := by
      show (simAccess P options random sim time read).map _ = _
      rw [hrun]
      rfl
    refine ⟨sim', time', () :: ws, ?_, ?_⟩
    · rw [Lib.System.exec, hone]
      dsimp only
      rw [hexec]
      rfl
    · rw [List.append_assoc] at hfinal
      exact hfinal

/-- The main loop does so for the entries of the sample. -/
theorem simMain_history (hstep : ∀ past sim time read, J past sim →
      ∃ sim', simAccess P options random sim time read = .ok sim' ∧ J (past ++ [read]) sim')
    {sim0 : Sim σ} (h0 : J [] sim0) (samplingRate : UInt64) (time : Nat)
    (trace : List TraceReaderResult) :
    ∃ sim time', simMain P options random samplingRate sim0 time trace = .ok (sim, time') ∧
      J (sampled samplingRate trace) sim := by
  obtain ⟨sim, time', ws, hrun, hfinal⟩ :=
    simSystem_history hstep (sampled samplingRate trace) time h0
  refine ⟨sim, time', ?_, hfinal⟩
  rw [simMain_eq]
  exact congrArg (Except.map Prod.fst) hrun

end Fomo
