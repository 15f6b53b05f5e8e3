import Fomo.Algs.ArcSync
import Fomo.Algs.LarcSync
import Fomo.Sim.SimSynchronous

/-!
# Simulated ARC and LARC

Without a delay and without removals the simulator asks its policy synchronously. Under a policy
that then hits where a reference algorithm does, it counts the hits of that algorithm.
-/
namespace Fomo

open Lib

variable {σ ρ : Type} {P : Policy σ} {next : ρ → Oblock → ρ × Bool} {S : σ → ρ → Prop} {s : σ}
  {m : ρ} {sim : Sim σ} {options : SimOptions}

/-- The policy is in the states `S` between requests, and a request hits where `next` says so. -/
structure Policy.Follows (P : Policy σ) (next : ρ → Oblock → ρ × Bool) (S : σ → ρ → Prop) :
    Prop where
  setTime : ∀ {s m} (time : Nat), S s m → S (P.setTime s time) m
  settled : ∀ {s m} (e : EntryRef), S s m → (P.entryAt s e).migrating = false
  request : ∀ {s m} (x : Oblock × Bool), S s m → ∃ s' res, P.request s x = .ok (s', res) ∧
    S s' (next m x.1).1 ∧ (res.op = .hit ↔ (next m x.1).2 = true)

/-- The hits of a reference algorithm. -/
def hits (next : ρ → Oblock → ρ × Bool) (m : ρ) : List Oblock → List Bool
  | [] => []
  | o :: os => (next m o).2 :: hits next (next m o).1 os

/-- The counters of the simulator, from the hits of the accesses of a trace. -/
structure SimStats.Counts (stats : SimStats) (trace : List TraceReaderResult)
    (hits : List Bool) : Prop where
  readHits : stats.readHits = (trace.zip hits).countP fun x => !x.1.write && x.2
  readMisses : stats.readMisses = (trace.zip hits).countP fun x => !x.1.write && !x.2
  writeHits : stats.writeHits = (trace.zip hits).countP fun x => x.1.write && x.2
  writeMisses : stats.writeMisses = (trace.zip hits).countP fun x => x.1.write && !x.2

variable {stats : SimStats} {past : List TraceReaderResult} {hs : List Bool}

theorem SimStats.Counts.snoc (h : stats.Counts past hs) (hlen : past.length = hs.length)
    (read : TraceReaderResult) (hit : Bool) :
    (if hit = true then stats.countHit read.write else stats.countMiss read.write).Counts
      (past ++ [read]) (hs ++ [hit]) := by
  obtain ⟨h1, h2, h3, h4⟩ := h
  have hzip : (past ++ [read]).zip (hs ++ [hit]) = past.zip hs ++ [(read, hit)] :=
    List.zip_append hlen
  constructor
  all_goals
    rw [hzip, List.countP_append, List.countP_singleton]
    cases hit with
    | false => cases hw : read.write <;> simp [SimStats.countMiss, *]
    | true => cases hw : read.write <;> simp [SimStats.countHit, *]

/-- The answer to an access counts as its hit or miss, dirty eviction or not. -/
theorem SimStats.Counts.answer (h : stats.Counts past hs) (hlen : past.length = hs.length)
    {read : TraceReaderResult} {res : CacheNucleusResult} {hit : Bool}
    (hop : res.op = .hit ↔ hit = true) :
    (stats.answer read res).Counts (past ++ [read]) (hs ++ [hit]) := by
  have hstep := h.snoc hlen read hit
  rw [SimStats.answer]
  simp only [hop]
  split
  · exact ⟨hstep.readHits, hstep.readMisses, hstep.writeHits, hstep.writeMisses⟩
  · exact hstep

theorem hits_length (next : ρ → Oblock → ρ × Bool) (m : ρ) (os : List Oblock) :
    (hits next m os).length = os.length := by
  induction os generalizing m with
  | nil => rfl
  | cons o os ih => rw [hits, List.length_cons, ih, List.length_cons]

/-- The state of a reference algorithm after some requests. -/
def advance (next : ρ → Oblock → ρ × Bool) (m : ρ) (os : List Oblock) : ρ :=
  os.foldl (fun m o => (next m o).1) m

theorem hits_concat (next : ρ → Oblock → ρ × Bool) (m : ρ) (os : List Oblock) (o : Oblock) :
    hits next m (os ++ [o]) = hits next m os ++ [(next (advance next m os) o).2] := by
  induction os generalizing m with
  | nil => rfl
  | cons a os ih =>
    rw [List.cons_append, hits, ih, hits, List.cons_append]
    rfl

theorem advance_concat (next : ρ → Oblock → ρ × Bool) (m : ρ) (os : List Oblock) (o : Oblock) :
    advance next m (os ++ [o]) = (next (advance next m os) o).1 := by
  rw [advance, List.foldl_append]
  rfl

/-- The main loop over a fresh policy counts the hits of the reference algorithm. -/
theorem Policy.Follows.main (h : P.Follows next S) (hdelay : options.migrationDelay = 0)
    (hremove : options.removeRate = 0) (random : Nat → Nat) (samplingRate : UInt64) {bp : σ}
    (h0 : S bp m) {sim0 : Sim σ} (hprep : simPrep options bp = .ok sim0)
    (trace : List TraceReaderResult) :
    ∃ sim time, simMain P options random samplingRate sim0 1 trace = .ok (sim, time) ∧
      sim.simStats.Counts (sampled samplingRate trace)
        (hits next m ((sampled samplingRate trace).map TraceReaderResult.oblock)) := by
  obtain ⟨hbp0, hstats0⟩ := simPrep_synchronous hdelay hprep
  obtain ⟨sim, time, hrun, _, hcount⟩ := simMain_history
    (J := fun past (sim : Sim σ) =>
      S sim.bp (advance next m (past.map TraceReaderResult.oblock)) ∧
        sim.simStats.Counts past (hits next m (past.map TraceReaderResult.oblock)))
    (fun past sim time read hj => by
      have hlen : past.length = (hits next m (past.map TraceReaderResult.oblock)).length := by
        rw [hits_length, List.length_map]
      have hs := h.setTime time hj.1
      obtain ⟨bp, res, hrequest, hs', hhit⟩ := h.request (read.oblock, read.write) hs
      refine ⟨_, simAccess_request hdelay hremove random (fun e _ => h.settled e hs) hrequest,
        ?_, ?_⟩
      · rw [List.map_append, List.map_singleton, advance_concat]
        exact hs'
      · rw [List.map_append, List.map_singleton, hits_concat]
        exact hj.2.answer hlen hhit)
    ⟨hbp0 ▸ h0, hstats0 ▸ ⟨rfl, rfl, rfl, rfl⟩⟩ samplingRate 1 trace
  exact ⟨sim, time, hrun, hcount⟩

/-! ## ARC and LARC -/

theorem ArcPolicy.Answers.hit_iff {res : CacheNucleusResult} {answer : ArcAnswer Oblock}
    (h : Answers res answer) : res.op = .hit ↔ answer.isHit = true := by
  cases answer with
  | hit => exact iff_of_true h rfl
  | miss victim =>
    cases victim with
    | none => exact iff_of_false (fun hop => nomatch hop.symm.trans h) (fun hx => nomatch hx)
    | some v => exact iff_of_false (fun hop => nomatch hop.symm.trans h.1) (fun hx => nomatch hx)

theorem LarcPolicy.Answers.hit_iff {res : CacheNucleusResult} {answer : LarcAnswer Oblock}
    (h : Answers res answer) : res.op = .hit ↔ answer.isHit = true := by
  cases answer with
  | hit => exact iff_of_true h rfl
  | miss victim =>
    cases victim with
    | none => exact iff_of_false (fun hop => nomatch hop.symm.trans h) (fun hx => nomatch hx)
    | some v => exact iff_of_false (fun hop => nomatch hop.symm.trans h.1) (fun hx => nomatch hx)
  | filtered => exact iff_of_false (fun hop => nomatch hop.symm.trans h) (fun hx => nomatch hx)

theorem ArcPolicy.arc_follows {c m : Nat} (hc0 : 1 ≤ c) (hc : 4 * c < 2 ^ 32) (hcm : c ≤ m) :
    arcApi.Follows (fun a o => ((a.request c o).1, (a.request c o).2.isHit))
      fun s a => s.Synced c m ∧ s.reference = a where
  setTime := by
    intro s a time h
    obtain ⟨⟨hb, hset⟩, href⟩ := h
    exact ⟨⟨⟨arc_sound.setTime time hb.inv, hb.cacheSize, hb.cacheEntries, hb.metaEntries, hb.l1,
      hb.total, hb.p, hb.ghosts⟩, hset⟩, href⟩
  settled := fun e h => h.1.settled e
  request := by
    intro s a x h
    obtain ⟨hs, rfl⟩ := h
    obtain ⟨s', res, hrun, hs', href, hans⟩ := hs.request hc0 hc hcm x
    exact ⟨s', res, hrun, ⟨hs', href⟩, hans.hit_iff⟩

theorem LarcPolicy.larc_follows {c m : Nat} (hc : 1 ≤ c) (hm : 10 ≤ m) (hm9 : 9 * m < 2 ^ 32) :
    larcApi.Follows (fun a o => ((a.request c m o).1, (a.request c m o).2.isHit))
      fun s a => s.Synced c m ∧ s.reference = a where
  setTime := by
    intro s a time h
    obtain ⟨⟨hb, hsize, hset⟩, href⟩ := h
    exact ⟨⟨hb.withTime time, hsize, hset⟩, href⟩
  settled := fun e h => h.1.settled e
  request := by
    intro s a x h
    obtain ⟨hs, rfl⟩ := h
    obtain ⟨s', res, hrun, hs', href, hans⟩ := hs.request hc hm hm9 x
    exact ⟨s', res, hrun, ⟨hs', href⟩, hans.hit_iff⟩

theorem arc_hits (c : Nat) (a : Arc Oblock) (os : List Oblock) :
    hits (fun a o => ((a.request c o).1, (a.request c o).2.isHit)) a os =
      (a.requests c os).2.map ArcAnswer.isHit := by
  induction os generalizing a with
  | nil => rfl
  | cons o os ih => rw [hits, ih]; rfl

theorem larc_hits (c m : Nat) (a : Larc Oblock) (os : List Oblock) :
    hits (fun a o => ((a.request c m o).1, (a.request c m o).2.isHit)) a os =
      (a.requests c m os).2.map LarcAnswer.isHit := by
  induction os generalizing a with
  | nil => rfl
  | cons o os ih => rw [hits, ih]; rfl

/-- With neither a delay nor removals, a simulation over fresh policies of the sizes in `valid`
counts the hits that a reference algorithm of `c` blocks and `m` ghosts has on the sample. -/
def Policy.Simulates (P : Policy σ) (create : UInt32 → UInt32 → Exec σ) (valid : Nat → Nat → Prop)
    (reference : Nat → Nat → List Oblock → List Bool) : Prop :=
  ∀ (options : SimOptions) (random : Nat → Nat) (cacheSize : UInt32)
    (metadataSize samplingRate : UInt64) (bp : σ) (sim0 : Sim σ) (trace : List TraceReaderResult),
    options.migrationDelay = 0 → options.removeRate = 0 →
    valid (cacheSize.toNat / samplingRate.toNat) (metadataSize.toNat / samplingRate.toNat) →
    policyPrep create cacheSize metadataSize samplingRate = .ok bp →
    simPrep options bp = .ok sim0 →
    ∃ sim time, simMain P options random samplingRate sim0 1 trace = .ok (sim, time) ∧
      sim.simStats.Counts (sampled samplingRate trace)
        (reference (cacheSize.toNat / samplingRate.toNat)
          (metadataSize.toNat / samplingRate.toNat)
          ((sampled samplingRate trace).map TraceReaderResult.oblock))

/-- The sizes that a policy is created with, the sampling rate taken off. -/
theorem policyPrep_sizes {create : UInt32 → UInt32 → Exec σ} {cacheSize : UInt32}
    {metadataSize samplingRate : UInt64} {bp : σ}
    (hbp : policyPrep create cacheSize metadataSize samplingRate = .ok bp)
    (hm : metadataSize.toNat / samplingRate.toNat < 2 ^ 32) :
    ∃ c m : UInt32, c.toNat = cacheSize.toNat / samplingRate.toNat ∧
      m.toNat = metadataSize.toNat / samplingRate.toNat ∧ create c m = .ok bp := by
  have hc : cacheSize.toNat / samplingRate.toNat < 2 ^ 32 :=
    Nat.lt_of_le_of_lt (Nat.div_le_self _ _) cacheSize.toNat_lt
  exact ⟨_, _, UInt32.toNat_ofNat_of_lt' hc, UInt32.toNat_ofNat_of_lt' hm, hbp⟩

/-- Simulated ARC counts the hits of the ARC of the paper, and simulated LARC those of LARC in
exact arithmetic. -/
theorem simulated_adaptive :
    arcApi.Simulates arcCreate (fun c m => 1 ≤ c ∧ 4 * c < 2 ^ 32 ∧ c ≤ m ∧ m < 2 ^ 32)
        (fun c _ os => (Arc.requests c {} os).2.map ArcAnswer.isHit) ∧
      larcApi.Simulates larcCreate (fun c m => 1 ≤ c ∧ 10 ≤ m ∧ 9 * m < 2 ^ 32)
        (fun c m os => (Larc.requests c m { target := m / 10 } os).2.map LarcAnswer.isHit) := by
  constructor
  · intro options random cacheSize metadataSize samplingRate bp sim0 trace hdelay hremove hvalid
      hbp hprep
    obtain ⟨hc0, hc, hcm, hm⟩ := hvalid
    obtain ⟨c, m, hcs, hms, hcreate⟩ := policyPrep_sizes hbp hm
    rw [← hcs] at hc0 hc hcm ⊢
    rw [← hms] at hcm ⊢
    obtain ⟨sim, time, hrun, hcount⟩ := (ArcPolicy.arc_follows hc0 hc hcm).main hdelay hremove
      random samplingRate (ArcPolicy.Synced.of_create hcreate) hprep trace
    rw [arc_hits] at hcount
    exact ⟨sim, time, hrun, hcount⟩
  · intro options random cacheSize metadataSize samplingRate bp sim0 trace hdelay hremove hvalid
      hbp hprep
    obtain ⟨hc, hm, hm9⟩ := hvalid
    obtain ⟨c, m, hcs, hms, hcreate⟩ := policyPrep_sizes hbp (by omega)
    rw [← hcs] at hc ⊢
    rw [← hms] at hm hm9 ⊢
    obtain ⟨sim, time, hrun, hcount⟩ := (LarcPolicy.larc_follows hc hm hm9).main hdelay hremove
      random samplingRate (LarcPolicy.Synced.of_create hcreate) hprep trace
    rw [larc_hits] at hcount
    exact ⟨sim, time, hrun, hcount⟩

/-- Block 5 comes back to ARC, which hits; LARC has refused it once and lets it in. -/
theorem simulated_adaptive_two : ∃ sim time sim' time',
    ((policyPrep arcCreate 1 1 1).bind fun bp => (simPrep ⟨0, 0⟩ bp).bind fun sim0 =>
      simMain arcApi ⟨0, 0⟩ (fun _ => 0) 1 sim0 1 [⟨6, true⟩, ⟨5, true⟩, ⟨5, false⟩]) =
        .ok (sim, time) ∧
    ((policyPrep larcCreate 1 10 1).bind fun bp => (simPrep ⟨0, 0⟩ bp).bind fun sim0 =>
      simMain larcApi ⟨0, 0⟩ (fun _ => 0) 1 sim0 1 [⟨6, true⟩, ⟨5, true⟩, ⟨5, false⟩]) =
        .ok (sim', time') ∧
    sim.simStats.readHits = 1 ∧ sim'.simStats.readHits = 0 := by
  have harc : policyPrep arcCreate 1 1 1 = _ := arcCreate_eq 1 1
  have hlarc : policyPrep larcCreate 1 10 1 = _ := larcCreate_eq 1 10
  obtain ⟨sim, time, hrun, hcount⟩ := simulated_adaptive.1 ⟨0, 0⟩ (fun _ => 0) 1 1 1 _ _
    [⟨6, true⟩, ⟨5, true⟩, ⟨5, false⟩] rfl rfl (by decide) harc rfl
  obtain ⟨sim', time', hrun', hcount'⟩ := simulated_adaptive.2 ⟨0, 0⟩ (fun _ => 0) 1 10 1 _ _
    [⟨6, true⟩, ⟨5, true⟩, ⟨5, false⟩] rfl rfl (by decide) hlarc rfl
  refine ⟨sim, time, sim', time', ?_, ?_, hcount.readHits, hcount'.readHits⟩
  · rw [harc]
    exact hrun
  · rw [hlarc]
    exact hrun'

end Fomo
