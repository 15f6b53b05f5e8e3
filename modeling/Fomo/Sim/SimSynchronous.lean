import Fomo.Sim.SimMigrations
import Fomo.Sim.SimSampling

/-!
# Synchronous simulation

Without a delay a migration completes within its access. Without removals the access is then one
synchronous request of the policy, and its answer is what the counters see.
-/
namespace Fomo

/-- What the answer to an access adds to the counters. -/
def SimStats.answer (stats : SimStats) (read : TraceReaderResult) (result : CacheNucleusResult) :
    SimStats :=
  let stats :=
    if result.op = .hit then stats.countHit read.write else stats.countMiss read.write
  if result.dirtyEviction then { stats with dirtyEvicts := stats.dirtyEvicts + 1 } else stats

variable {σ : Type} {P : Policy σ} {options : SimOptions} {sim : Sim σ}

theorem simPrep_synchronous (hdelay : options.migrationDelay = 0) {bp : σ}
    (hprep : simPrep options bp = .ok sim) : sim.bp = bp ∧ sim.simStats = {} := by
  rw [simPrep, if_pos hdelay] at hprep
  obtain rfl := Except.ok.inj hprep
  exact ⟨rfl, rfl⟩

/-- The access of a block that does not migrate is one request. -/
theorem simAccess_request (hdelay : options.migrationDelay = 0) (hremove : options.removeRate = 0)
    (random : Nat → Nat) {time : Nat} {read : TraceReaderResult}
    (hsettled : ∀ e ∈ P.cacheLookup (P.setTime sim.bp time) read.oblock,
      (P.entryAt (P.setTime sim.bp time) e).migrating = false)
    {bp : σ} {res : CacheNucleusResult}
    (hrequest : P.request (P.setTime sim.bp time) (read.oblock, read.write) = .ok (bp, res)) :
    simAccess P options random sim time read =
      .ok { sim with bp := bp, simStats := sim.simStats.answer read res } := by
  have hmap' : ¬((P.cacheLookup (P.setTime sim.bp time) read.oblock).any fun e =>
      (P.entryAt (P.setTime sim.bp time) e).migrating) = true := by
    rw [Option.any_eq_true]
    intro hx
    obtain ⟨e, he, hm⟩ := hx
    exact Bool.false_ne_true ((hsettled e he).symm.trans hm)
  obtain ⟨⟨s1, res1⟩, hmap, hrest⟩ := bind_eq_ok.mp hrequest
  have hmap : P.map (P.setTime sim.bp time) read.oblock read.write {} = .ok (s1, res1) := hmap
  -- the completion of the migration is part of the request
  obtain ⟨rfl, hmigrate⟩ : res1 = res ∧ simMigrate P options
      { sim with bp := s1, simStats := sim.simStats.answer read res1 } time read res1 =
        .ok { sim with bp := bp, simStats := sim.simStats.answer read res1 } := by
    rw [simMigrate, if_pos hdelay]
    dsimp only at hrest
    by_cases hop : res1.op = .new ∨ res1.op = .replace
    · rw [if_pos hop] at hrest
      obtain ⟨s2, hmig, hrest⟩ := bind_eq_ok.mp hrest
      obtain ⟨rfl, rfl⟩ := Prod.mk.inj (Except.ok.inj hrest)
      have hmig : P.migrated s1 read.oblock = .ok s2 := hmig
      rw [if_pos (CacheNucleusResult.admitted_iff.mpr hop), hmig]
      exact ⟨rfl, rfl⟩
    · rw [if_neg hop] at hrest
      obtain ⟨rfl, rfl⟩ := Prod.mk.inj (Except.ok.inj hrest)
      rw [if_neg (mt CacheNucleusResult.admitted_iff.mp hop)]
      exact ⟨rfl, rfl⟩
  have hstats : (if res1.dirtyEviction then
      { (if res1.op = .hit then sim.simStats.countHit read.write
          else sim.simStats.countMiss read.write) with
        dirtyEvicts := (if res1.op = .hit then sim.simStats.countHit read.write
          else sim.simStats.countMiss read.write).dirtyEvicts + 1 }
      else if res1.op = .hit then sim.simStats.countHit read.write
        else sim.simStats.countMiss read.write) = sim.simStats.answer read res1 := rfl
  rw [simAccess]
  dsimp only
  rw [simMap, if_neg hmap', hmap, ok_bind]
  dsimp only
  rw [hstats, pure_eq_ok, ok_bind]
  dsimp only
  rw [hmigrate, ok_bind, simRemove, removeNow, if_pos hremove]
  rfl

end Fomo
