import Fomo.Algs.ServingContract
import Fomo.Sim.SimMain

/-!
# The migrations of the simulator

Over LRU, the blocks the tracker has an operation for are the cached blocks that migrate. An
access maps its block, completes what is due, and removes the block now and then. One lemma a
phase says what it does to the blocks that migrate.
-/
namespace Fomo

/-- An access calls `sim_policy_migrated` for `o` when the policy is in the state `s`. The `sim`
is the one after the time is set. -/
inductive MigratedCall {σ : Type} (P : Policy σ) (options : SimOptions) (sim : Sim σ) (time : Nat)
    (read : TraceReaderResult) (s : σ) : Oblock → Prop
  | atOnce {sim' : Sim σ} {result : CacheNucleusResult}
      (hmap : simMap P sim read {} = .ok (sim', result)) (hs : sim'.bp = s)
      (hdelay : options.migrationDelay = 0) (hadmitted : result.admitted = true) :
      MigratedCall P options sim time read s read.oblock
  | completed {sim' : Sim σ} {result : CacheNucleusResult} {tracker tracker' : MigrationTracker}
      {o : Oblock} (hmap : simMap P sim read {} = .ok (sim', result)) (hs : sim'.bp = s)
      (hdelay : options.migrationDelay ≠ 0) (htracker : sim'.mTracker = some tracker)
      (hnext : migrationNext tracker time = .ok (tracker', some o))
      (hcached : (P.cacheLookup s o).isSome = true) :
      MigratedCall P options sim time read s o

variable {options : SimOptions} {random : Nat → Nat} {sim sim' : Sim LruPolicy} {time c : Nat}
  {read : TraceReaderResult} {result : CacheNucleusResult} {s s' : LruPolicy} {o a : Oblock}

/-! ## The calls of LRU -/

namespace LruPolicy

/-- The migration of `o` is over in `s'`, and nothing else changed about the migrations. -/
structure Ends (s : LruPolicy) (o : Oblock) (s' : LruPolicy) : Prop where
  inv : s'.Inv
  size : (s'.nucleus.pool .cache).nrEntries = (s.nucleus.pool .cache).nrEntries
  mayMigrate : ∀ a, s'.nucleus.MayMigrate a ↔ a ≠ o ∧ s.nucleus.MayMigrate a

theorem Inv.migrated (h : s.Inv) (hm : s.nucleus.MayMigrate o) : ∃ s',
    lruApi.migrated s o = .ok s' ∧ s.Ends o s' ∧ (s.nucleus.Cached a → s'.nucleus.Cached a) := by
  obtain ⟨cb, hc, hm⟩ := hm
  obtain ⟨s', hrun, hs⟩ := lruMigratedApi_spec h (h.wf.caches_iff.mp hc) hm
  have hslot := hs.rewrites.setsSlot
  refine ⟨s', hrun, ⟨hs.inv, hs.rewrites.nrEntries _, fun b => ?_⟩, ?_⟩
  · exact hslot.mayMigrate_drop h.wf hc fun _ => rfl
  · rintro ⟨b, hb⟩
    refine ⟨b, ?_⟩
    by_cases heq : b = cb
    · subst heq
      rw [CacheNucleus.Caches, hslot b, if_pos rfl]
      exact hb
    · rw [CacheNucleus.Caches, hslot b, if_neg heq]
      exact hb

theorem Inv.remove (h : s.Inv) (hc : s.nucleus.Cached o) (keep : Bool) :
    ∃ s', lruApi.remove s o keep = .ok s' ∧ s.Ends o s' := by
  obtain ⟨cb, hc⟩ := hc
  obtain ⟨s', hrun, hs⟩ := lruRemoveApi_spec h (h.wf.caches_iff.mp hc) keep
  refine ⟨s', hrun, hs.inv, hs.rewrites.nrEntries _, fun b => ?_⟩
  refine hs.rewrites.setsSlot.mayMigrate_drop h.wf hc fun ha => ?_
  cases ha

/-- When every slot is taken and nothing is settled, everything migrates. -/
theorem Inv.settled_or_migrating (h : s.Inv) (hpos : 0 < (s.nucleus.pool .cache).nrEntries)
    (hfree : (s.nucleus.pool .cache).free = []) (hq : s.lruQ = []) :
    ∃ o, s.nucleus.MayMigrate o := by
  have hused : (s.nucleus.entry ⟨.cache, 0⟩).allocated = true := by
    by_contra hno
    have hmem := h.wf.mem_free (r := ⟨.cache, 0⟩) |>.mpr ⟨hpos, by simpa using hno⟩
    rw [hfree] at hmem
    cases hmem
  refine ⟨_, 0, ⟨hused, rfl⟩, ?_⟩
  by_contra hm
  have hmem := (h.mem_queue ⟨.cache, 0⟩).mpr ⟨hused, Bool.eq_false_iff.mpr hm⟩
  rw [hq] at hmem
  cases hmem

end LruPolicy

open LruPolicy

/-! ## The map of an access -/

/-- What the map of an access did. -/
structure Mapped (sim : Sim LruPolicy) (read : TraceReaderResult) (sim' : Sim LruPolicy)
    (result : CacheNucleusResult) : Prop where
  inv : sim'.bp.Inv
  size : (sim'.bp.nucleus.pool .cache).nrEntries = (sim.bp.nucleus.pool .cache).nrEntries
  tracker : sim'.mTracker = sim.mTracker
  random : sim'.randomRemove = sim.randomRemove
  mayMigrate : ∀ a, sim'.bp.nucleus.MayMigrate a ↔
    sim.bp.nucleus.MayMigrate a ∨ (a = read.oblock ∧ result.admitted = true)
  admitted : result.admitted = true → ¬sim.bp.nucleus.MayMigrate read.oblock
  cached : (∀ a, ¬sim.bp.nucleus.MayMigrate a) → 0 < (sim.bp.nucleus.pool .cache).nrEntries →
    sim'.bp.nucleus.Cached read.oblock

theorem CacheNucleusResult.admitted_iff :
    result.admitted = true ↔ result.op = .new ∨ result.op = .replace := by
  simp [CacheNucleusResult.admitted]

theorem LruPolicy.Inv.lookup_isSome (h : s.Inv) :
    (lruApi.cacheLookup s o).isSome = true ↔ s.nucleus.Cached o :=
  h.wf.cached_iff.symm

theorem LruPolicy.Inv.lookup_migrating (h : s.Inv) :
    ((lruApi.cacheLookup s o).any fun e => (lruApi.entryAt s e).migrating) = true ↔
      s.nucleus.MayMigrate o := by
  rw [Option.any_eq_true]
  constructor
  · rintro ⟨e, he, hm⟩
    have hl : hashLookup s.nucleus o = some e := by
      change defaultCacheLookup s.nucleus o = some e at he
      unfold defaultCacheLookup at he
      dsimp only at he
      split at he
      · exact he
      · cases he
    obtain ⟨hp, ha, ho⟩ := h.lookup hl
    obtain ⟨p, i⟩ := e
    obtain rfl : p = .cache := hp
    exact ⟨i, ⟨ha, ho⟩, hm⟩
  · rintro ⟨cb, hc, hm⟩
    refine ⟨⟨.cache, cb⟩, ?_, hm⟩
    show defaultCacheLookup s.nucleus o = _
    rw [defaultCacheLookup, h.wf.caches_iff.mp hc]
    rfl

/-- LRU answers, and a block is refused only when everything migrates. -/
theorem LruPolicy.Inv.map (h : s.Inv) (o : Oblock) (w : Bool) (result : CacheNucleusResult) :
    ∃ s' res, lruApi.map s o w result = .ok (s', res) ∧
      (s'.nucleus.pool .cache).nrEntries = (s.nucleus.pool .cache).nrEntries ∧
      (0 < (s.nucleus.pool .cache).nrEntries → (∀ a, ¬s.nucleus.MayMigrate a) →
        s'.nucleus.Cached o) := by
  have hcase := lruMapApi_case h o w result
  generalize hx : lruMapApi s o w result = x at hcase
  cases hcase with
  | hit hl hs =>
    exact ⟨_, _, hx, hs.rewrites.nrEntries _, fun _ _ =>
      (lru_sound.map h hx).1.cached ⟨by simp, by simp⟩⟩
  | new habs hf hs =>
    exact ⟨_, _, hx, hs.rewrites.nrEntries _, fun _ _ =>
      (lru_sound.map h hx).1.cached ⟨by simp, by simp⟩⟩
  | replace habs hf hq hs =>
    exact ⟨_, _, hx, hs.rewrites.nrEntries _, fun _ _ =>
      (lru_sound.map h hx).1.cached ⟨by simp, by simp⟩⟩
  | fail habs hf hq =>
    refine ⟨_, _, hx, rfl, fun hpos hset => ?_⟩
    obtain ⟨a, ha⟩ := h.settled_or_migrating hpos hf hq
    exact absurd ha (hset a)

theorem simMap_spec (h : sim.bp.Inv) (read : TraceReaderResult) :
    ∃ sim' result, simMap lruApi sim read {} = .ok (sim', result) ∧
      Mapped sim read sim' result := by
  unfold simMap
  by_cases hm : ((lruApi.cacheLookup sim.bp read.oblock).any fun e =>
      (lruApi.entryAt sim.bp e).migrating) = true
  · rw [if_pos hm]
    have hmay := h.lookup_migrating.mp hm
    refine ⟨_, _, rfl, h, rfl, rfl, rfl, fun a => ?_, fun hadm => ?_, fun hset _ => ?_⟩
    · simp [CacheNucleusResult.admitted]
    · cases hadm
    · exact absurd hmay (hset _)
  · rw [if_neg hm]
    have hno : ¬sim.bp.nucleus.MayMigrate read.oblock := fun hmay =>
      hm (h.lookup_migrating.mpr hmay)
    obtain ⟨s1, res, hrun, hsize, hcached⟩ := h.map read.oblock read.write {}
    obtain ⟨heff, hinv⟩ := lru_sound.map h hrun
    rw [hrun]
    refine ⟨_, _, rfl, hinv, hsize, rfl, rfl, fun a => ?_, fun _ => hno,
      fun hset hpos => hcached hpos hset⟩
    rw [CacheNucleusResult.admitted_iff]
    exact heff.mayMigrate h.wf

/-! ## The migrations of an access -/

theorem simMigrate_undelayed (time : Nat) (hdelay : options.migrationDelay = 0) (h : sim.bp.Inv)
    (hmay : ∀ a, sim.bp.nucleus.MayMigrate a ↔ a = read.oblock ∧ result.admitted = true) :
    ∃ sim', simMigrate lruApi options sim time read result = .ok sim' ∧ sim'.bp.Inv ∧
      (sim'.bp.nucleus.pool .cache).nrEntries = (sim.bp.nucleus.pool .cache).nrEntries ∧
      sim'.mTracker = sim.mTracker ∧ sim'.randomRemove = sim.randomRemove ∧
      (∀ a, ¬sim'.bp.nucleus.MayMigrate a) ∧
      (sim.bp.nucleus.Cached read.oblock → sim'.bp.nucleus.Cached read.oblock) := by
  unfold simMigrate
  rw [if_pos hdelay]
  by_cases hadm : result.admitted = true
  · rw [if_pos hadm]
    obtain ⟨s', hrun, hends, hcached⟩ := h.migrated ((hmay _).mpr ⟨rfl, hadm⟩)
    rw [hrun]
    refine ⟨_, rfl, hends.inv, hends.size, rfl, rfl, fun a ha => ?_, hcached⟩
    obtain ⟨hne, hold⟩ := (hends.mayMigrate a).mp ha
    exact hne ((hmay a).mp hold).1
  · rw [if_neg hadm]
    exact ⟨sim, rfl, h, rfl, rfl, rfl, fun a ha => hadm ((hmay a).mp ha).2, id⟩

/-- At `time` the tracker has an operation for exactly the blocks that migrate. -/
structure Follows (d time : Nat) (t : MigrationTracker) (s : LruPolicy) : Prop where
  wf : t.Wf
  delay : t.delay = d
  size : t.entryPool.nrEntries = u32 (2 * d)
  due : ∃ rest, t.Due time d rest
  tracks : ∀ a, t.Tracks a ↔ s.nucleus.MayMigrate a

variable {t : MigrationTracker} {d : Nat} {rest : Nat → Nat}

theorem ite_bind_pure {α β : Type} {p : Prop} [Decidable p] (x : Exec α) (y : α) (f : α → β) :
    (if p then x >>= fun z => pure (f z) else pure (f y)) =
      (if p then x else .ok y) >>= fun z => pure (f z) := by
  split
  · rfl
  · rfl

/-- The block that came in is tracked from now on, if the tracker has room. -/
theorem migrationAdd_follows (hwf : t.Wf) (hdelay : t.delay = d)
    (hsize : t.entryPool.nrEntries = u32 (2 * d)) (hdue : t.Due time d rest)
    (hpos : ∀ i ∈ t.q, 0 < rest i) (hnew : result.admitted = true → ¬t.Tracks read.oblock)
    (hmay : ∀ a, s.nucleus.MayMigrate a ↔
      t.Tracks a ∨ (a = read.oblock ∧ result.admitted = true)) :
    (∃ t', (if result.admitted then migrationAdd t time read.oblock else .ok t) = .ok t' ∧
      Follows d (u32 (time + 1)) t' s) ∨
    ((∃ e, (if result.admitted then migrationAdd t time read.oblock else .ok t) = .error e) ∧
      ¬(0 < d ∧ d < 2 ^ 31)) := by
  by_cases hadm : result.admitted = true
  · rw [if_pos hadm]
    by_cases hfree : t.entryPool.free = []
    · refine Or.inr ⟨?_, fun hlt => ?_⟩
      · unfold migrationAdd
        rw [hwf.lookup_eq_none.mpr (hnew hadm)]
        simp only [allocEntry, hfree]
        exact ⟨_, rfl⟩
      · refine hwf.free_ne_nil (Nat.lt_of_le_of_lt hdue.length_le ?_) hfree
        rw [hsize, u32]
        omega
    · obtain ⟨t', hrun, hadd⟩ := MigrationTracker.migrationAdd_spec hwf (hnew hadm) time hfree
      have hd : 0 < t.delay := by
        refine Nat.pos_of_ne_zero fun hzero => hfree (List.eq_nil_of_length_eq_zero ?_)
        have hnr := hwf.pool.nr_allocated
        rw [hsize, ← hdelay, hzero] at hnr
        have hz : u32 (2 * 0) = 0 := rfl
        omega
      obtain ⟨rest', hdue', hpos'⟩ := hadd.due hdue hdelay.ge hpos hd
      refine Or.inl ⟨t', hrun, hadd.wf, hadd.delay.trans hdelay, hadd.nrEntries.trans hsize,
        ⟨_, (hdelay ▸ hdue').tick hpos'⟩, fun a => ?_⟩
      rw [hadd.tracks, hmay, or_comm]
      simp [hadm]
  · rw [if_neg hadm]
    have hdue' : t.Due time (d + 1) rest :=
      ⟨hdue.time, fun i hi => Nat.lt_succ_of_lt (hdue.lt i hi), hdue.sorted⟩
    refine Or.inl ⟨t, rfl, hwf, hdelay, hsize, ⟨_, hdue'.tick hpos⟩, fun a => ?_⟩
    rw [hmay]
    simp [hadm]

/-- What is due completes, and the block that came in is tracked from now on. -/
theorem simMigrate_delayed {sim0 : Sim LruPolicy} (hne : options.migrationDelay ≠ 0)
    (htime : time < 2 ^ 32) (hn : d ≤ 2 ^ 32) (ht : sim0.mTracker = some t)
    (hf : Follows d time t sim0.bp) (hmap : Mapped sim0 read sim result) :
    (∃ sim' t', simMigrate lruApi options sim time read result = .ok sim' ∧ sim'.bp.Inv ∧
      (sim'.bp.nucleus.pool .cache).nrEntries = (sim.bp.nucleus.pool .cache).nrEntries ∧
      sim'.mTracker = some t' ∧ Follows d (u32 (time + 1)) t' sim'.bp) ∨
    ((∃ e, simMigrate lruApi options sim time read result = .error e) ∧
      ¬(0 < d ∧ d < 2 ^ 31)) := by
  obtain ⟨rest, hdue⟩ := hf.due
  have hmay : ∀ a, sim.bp.nucleus.MayMigrate a ↔
      t.Tracks a ∨ (a = read.oblock ∧ result.admitted = true) := fun a => by
    rw [hmap.mayMigrate, hf.tracks]
  have hnew : result.admitted = true → ¬t.Tracks read.oblock := fun hadm hk =>
    hmap.admitted hadm ((hf.tracks _).mp hk)
  unfold simMigrate
  rw [if_neg hne, hmap.tracker, ht]
  simp only [deref_some, ok_bind]
  rcases MigrationTracker.migrationNext_spec hf.wf time with
    ⟨hrun, _⟩ | ⟨t1, i, _, _, hrun, hk, hdrop⟩
  · obtain ⟨_, hpos⟩ := hdue.next_pos hf.wf hn htime hrun
    rw [hrun, ok_bind]
    dsimp only
    rw [ite_bind_pure]
    rcases migrationAdd_follows hf.wf hf.delay hf.size hdue hpos hnew hmay with
      ⟨t2, hadd, hf2⟩ | ⟨⟨e, hadd⟩, hbad⟩
    · rw [hadd]
      exact Or.inl ⟨_, t2, rfl, hmap.inv, rfl, rfl, hf2⟩
    · rw [hadd]
      exact Or.inr ⟨⟨e, rfl⟩, hbad⟩
  · generalize (t.entryPool.entries i).oblock = m at hrun hk hdrop
    obtain ⟨hdue1, hpos⟩ := hdue.next_pos hf.wf hn htime hrun
    have hm : sim.bp.nucleus.MayMigrate m := (hmay m).mpr (Or.inl hk)
    obtain ⟨s1, hmig, hends, _⟩ := hmap.inv.migrated (a := m) hm
    obtain ⟨cb, hc, _⟩ := hm
    rw [hrun, ok_bind]
    dsimp only
    rw [if_pos (hmap.inv.lookup_isSome.mpr ⟨cb, hc⟩), hmig, ok_bind,
      ite_bind_pure]
    have hmay1 : ∀ a, s1.nucleus.MayMigrate a ↔
        t1.Tracks a ∨ (a = read.oblock ∧ result.admitted = true) := fun a => by
      rw [hends.mayMigrate, hdrop.tracks, hmay, and_or_left]
      refine or_congr_right ⟨And.right, fun ha => ⟨?_, ha⟩⟩
      rintro rfl
      exact hnew ha.2 (ha.1 ▸ hk)
    have hnew1 : result.admitted = true → ¬t1.Tracks read.oblock := fun hadm hk1 =>
      hnew hadm ((hdrop.tracks _).mp hk1).2
    rcases migrationAdd_follows hdrop.wf (hdrop.delay.trans hf.delay)
      (hdrop.nrEntries.trans hf.size) hdue1 hpos hnew1 hmay1 with
      ⟨t2, hadd, hf2⟩ | ⟨⟨e, hadd⟩, hbad⟩
    · rw [hadd]
      exact Or.inl ⟨_, t2, rfl, hends.inv, hends.size, rfl, hf2⟩
    · rw [hadd]
      exact Or.inr ⟨⟨e, rfl⟩, hbad⟩

/-! ## The removal of an access -/

theorem simRemove_tracked (options : SimOptions) (random : Nat → Nat) (time : Nat)
    (read : TraceReaderResult) {next : Nat} (h : sim.bp.Inv) (ht : sim.mTracker = some t)
    (hf : Follows d next t sim.bp) :
    ∃ sim' t', simRemove lruApi options random sim time read = .ok sim' ∧ sim'.bp.Inv ∧
      (sim'.bp.nucleus.pool .cache).nrEntries = (sim.bp.nucleus.pool .cache).nrEntries ∧
      sim'.mTracker = some t' ∧ Follows d next t' sim'.bp := by
  unfold simRemove
  generalize removeNow options random sim.randomRemove time = x
  obtain ⟨state, now⟩ := x
  dsimp only
  by_cases hnow : (now && (lruApi.cacheLookup sim.bp read.oblock).isSome) = true
  · rw [if_pos hnow]
    have hcached := h.lookup_isSome.mp (Bool.and_eq_true_iff.mp hnow).2
    obtain ⟨t', hrun, hdrop⟩ := MigrationTracker.migrationRemove_spec hf.wf read.oblock
    obtain ⟨s', hremove, hends⟩ := h.remove hcached true
    rw [ht, deref_some, ok_bind, hrun, ok_bind, hremove]
    obtain ⟨rest, hdue⟩ := hf.due
    refine ⟨_, t', rfl, hends.inv, hends.size, rfl, hdrop.wf, hdrop.delay.trans hf.delay,
      hdrop.nrEntries.trans hf.size, ⟨rest, hdrop.due hdue⟩, fun a => ?_⟩
    rw [hdrop.tracks, hends.mayMigrate, hf.tracks]
  · rw [if_neg hnow]
    exact ⟨_, t, rfl, h, rfl, ht, hf⟩

/-- Without a tracker nothing can be removed. -/
theorem simRemove_untracked (ht : sim.mTracker = none) :
    simRemove lruApi options random sim time read =
      if (removeNow options random sim.randomRemove time).2 &&
        (lruApi.cacheLookup sim.bp read.oblock).isSome then .error .nullPointer
      else .ok { sim with randomRemove := (removeNow options random sim.randomRemove time).1 } := by
  unfold simRemove
  rw [ht]
  rfl

/-! ## The accesses of a run -/

/-- Between two accesses, the next of which happens at `time`. -/
structure SimInv (options : SimOptions) (c time : Nat) (sim : Sim LruPolicy) : Prop where
  inv : sim.bp.Inv
  size : (sim.bp.nucleus.pool .cache).nrEntries = c
  time_lt : time < 2 ^ 32
  untracked : options.migrationDelay = 0 →
    sim.mTracker = none ∧ ∀ a, ¬sim.bp.nucleus.MayMigrate a
  tracked : options.migrationDelay ≠ 0 → ∃ t, sim.mTracker = some t ∧
    Follows (u32 options.migrationDelay.toNat) time t sim.bp

/-- The policy of an access at its map. -/
theorem SimInv.setTime (h : SimInv options c time sim) (now : Nat) :
    SimInv options c time { sim with bp := lruApi.setTime sim.bp now } where
  inv := lru_sound.setTime now h.inv
  size := h.size
  time_lt := h.time_lt
  untracked := h.untracked
  tracked := fun hne => by
    obtain ⟨t, ht, hf⟩ := h.tracked hne
    exact ⟨t, ht, hf.wf, hf.delay, hf.size, hf.due, hf.tracks⟩

theorem LruPolicy.Inv.not_cached (h : s.Inv) (hsize : (s.nucleus.pool .cache).nrEntries = 0) :
    ¬s.nucleus.Cached o := by
  rintro ⟨cb, ha, _⟩
  have hlt := h.wf.lt_of_allocated ha
  rw [hsize] at hlt
  exact Nat.not_lt_zero _ hlt

theorem simAccess_undelayed (random : Nat → Nat) (read : TraceReaderResult)
    (hdelay : options.migrationDelay = 0)
    (h : SimInv options c time sim) :
    (0 < c ∧ (removeNow options random sim.randomRemove time).2 = true →
      simAccess lruApi options random sim time read = .error .nullPointer) ∧
    (¬(0 < c ∧ (removeNow options random sim.randomRemove time).2 = true) →
      ∃ sim', simAccess lruApi options random sim time read = .ok sim' ∧
        SimInv options c (u32 (time + 1)) sim') := by
  have h0 := h.setTime time
  obtain ⟨sim1, result, hrun1, hmap⟩ := simMap_spec h0.inv read
  obtain ⟨hnone, hset⟩ := h0.untracked hdelay
  have hmay : ∀ a, sim1.bp.nucleus.MayMigrate a ↔ a = read.oblock ∧ result.admitted = true := by
    intro a
    rw [hmap.mayMigrate]
    exact or_iff_right (hset a)
  obtain ⟨sim2, hrun2, hinv, hsize, htracker, hrandom, hsettled, hcached⟩ :=
    simMigrate_undelayed time hdelay hmap.inv hmay
  have hrun : simAccess lruApi options random sim time read =
      simRemove lruApi options random sim2 time read := by
    unfold simAccess
    dsimp only
    rw [hrun1, ok_bind]
    dsimp only
    rw [hrun2, ok_bind]
  have hnone2 : sim2.mTracker = none := htracker.trans (hmap.tracker.trans hnone)
  have hrandom2 : sim2.randomRemove = sim.randomRemove := hrandom.trans hmap.random
  have hsize2 : (sim2.bp.nucleus.pool .cache).nrEntries = c :=
    hsize.trans (hmap.size.trans h0.size)
  rw [hrun, simRemove_untracked hnone2, hrandom2]
  constructor
  · rintro ⟨hpos, hnow⟩
    have hin := hcached (hmap.cached hset (h0.size.symm ▸ hpos))
    rw [hnow, hinv.lookup_isSome.mpr hin]
    rfl
  · intro hclean
    rw [if_neg]
    · refine ⟨_, rfl, hinv, hsize2, u32_lt _, fun _ => ⟨hnone2, hsettled⟩, fun hne => ?_⟩
      exact absurd hdelay hne
    · intro hboth
      obtain ⟨hnow, hin⟩ := Bool.and_eq_true_iff.mp hboth
      have hc : ¬0 < c := fun hpos => hclean ⟨hpos, hnow⟩
      refine hinv.not_cached ?_ (hinv.lookup_isSome.mp hin)
      omega

theorem simAccess_delayed (random : Nat → Nat) (read : TraceReaderResult)
    (hne : options.migrationDelay ≠ 0)
    (h : SimInv options c time sim) :
    (∃ sim', simAccess lruApi options random sim time read = .ok sim' ∧
      SimInv options c (u32 (time + 1)) sim') ∨
    ((∃ e, simAccess lruApi options random sim time read = .error e) ∧
      ¬(0 < u32 options.migrationDelay.toNat ∧ u32 options.migrationDelay.toNat < 2 ^ 31)) := by
  have h0 := h.setTime time
  obtain ⟨sim1, result, hrun1, hmap⟩ := simMap_spec h0.inv read
  obtain ⟨t, ht, hf⟩ := h0.tracked hne
  unfold simAccess
  dsimp only
  rw [hrun1, ok_bind]
  dsimp only
  rcases simMigrate_delayed hne h.time_lt (u32_lt _).le ht hf hmap with
    ⟨sim2, t2, hrun2, hinv2, hsize2, ht2, hf2⟩ | ⟨⟨e, hrun2⟩, hbad⟩
  · obtain ⟨sim3, t3, hrun3, hinv3, hsize3, ht3, hf3⟩ :=
      simRemove_tracked options random time read hinv2 ht2 hf2
    rw [hrun2, ok_bind, hrun3]
    refine Or.inl ⟨sim3, rfl, hinv3, ?_, u32_lt _, fun hdelay => absurd hdelay hne,
      fun _ => ⟨t3, ht3, hf3⟩⟩
    exact hsize3.trans (hsize2.trans (hmap.size.trans h0.size))
  · rw [hrun2]
    exact Or.inr ⟨⟨e, rfl⟩, hbad⟩

theorem simPrep_total (options : SimOptions) (s0 : LruPolicy) :
    ∃ sim0, simPrep options s0 = .ok sim0 := by
  unfold simPrep
  dsimp only
  split
  · exact ⟨_, rfl⟩
  · obtain ⟨t, hrun, _⟩ :=
      MigrationTracker.migrationTrackerInit_spec (u32 options.migrationDelay.toNat)
    rw [hrun]
    exact ⟨_, rfl⟩

theorem SimInv.of_prep {n : UInt32} {s0 : LruPolicy} (hinit : lruInit n = .ok s0)
    (hprep : simPrep options s0 = .ok sim) : SimInv options n.toNat 1 sim := by
  obtain ⟨hinv, _, hsize, habs⟩ := lruInit_spec hinit
  have hno : ∀ a, ¬s0.nucleus.MayMigrate a := fun a ⟨cb, hc, _⟩ => (habs a).not_caches hc
  unfold simPrep at hprep
  dsimp only at hprep
  by_cases hdelay : options.migrationDelay = 0
  · rw [if_pos hdelay] at hprep
    obtain rfl := Except.ok.inj hprep
    exact ⟨hinv, hsize, by decide, fun _ => ⟨rfl, hno⟩, fun hne => absurd hdelay hne⟩
  · obtain ⟨t, hrun, hwf, hq, hd, hn⟩ :=
      MigrationTracker.migrationTrackerInit_spec (u32 options.migrationDelay.toNat)
    rw [if_neg hdelay, hrun, ok_bind] at hprep
    obtain rfl := Except.ok.inj hprep
    refine ⟨hinv, hsize, by decide, fun hzero => absurd hzero hdelay,
      fun _ => ⟨t, rfl, hwf, hd, hn, ⟨fun _ => 0, ?_, ?_, ?_⟩, fun a => ?_⟩⟩
    · intro i hi
      rw [hq] at hi
      cases hi
    · intro i hi
      rw [hq] at hi
      cases hi
    · rw [hq]
      exact List.Pairwise.nil
    · refine iff_of_false ?_ (hno a)
      rintro ⟨i, hi, _⟩
      rw [hq] at hi
      cases hi

/-- An access that returns leaves the bookkeeping in order. -/
theorem SimInv.access (h : SimInv options c time sim)
    (hrun : simAccess lruApi options random sim time read = .ok sim') :
    SimInv options c (u32 (time + 1)) sim' := by
  by_cases hdelay : options.migrationDelay = 0
  · obtain ⟨hbad, hgood⟩ := simAccess_undelayed random read hdelay h
    by_cases hx : 0 < c ∧ (removeNow options random sim.randomRemove time).2 = true
    · rw [hbad hx] at hrun
      cases hrun
    · obtain ⟨sim1, hrun1, hinv⟩ := hgood hx
      obtain rfl := Except.ok.inj (hrun.symm.trans hrun1)
      exact hinv
  · rcases simAccess_delayed random read hdelay h with
      ⟨sim1, hrun1, hinv⟩ | ⟨⟨e, hrun1⟩, _⟩
    · obtain rfl := Except.ok.inj (hrun.symm.trans hrun1)
      exact hinv
    · rw [hrun1] at hrun
      cases hrun

theorem SimInv.of_reachable {n m : UInt32} {s0 : LruPolicy} {sim0 : Sim LruPolicy}
    (hcreate : lruCreate n m = .ok s0) (hprep : simPrep options s0 = .ok sim0)
    (hreach : (simSystem lruApi options random).Reachable (sim0, 1) (sim, time)) :
    SimInv options n.toNat time sim := by
  let I : Sim LruPolicy × Nat → Prop := fun x => SimInv options n.toNat x.2 x.1
  refine hreach.invariant (I := I) (SimInv.of_prep hcreate hprep) ?_
  intro x read y w hx _ hstep
  obtain ⟨sim1, hrun, heq⟩ := map_eq_ok.mp hstep
  obtain ⟨rfl, _⟩ := Prod.mk.inj heq
  exact hx.access hrun

/-- A call of `sim_policy_migrated` completes the migration of a cached block. -/
theorem SimInv.migratedCall (h : SimInv options c time sim)
    (hcall : MigratedCall lruApi options sim time read s o) : s.nucleus.MayMigrate o := by
  cases hcall with
  | atOnce hmap hs hdelay hadm =>
    obtain ⟨sim1, result, hrun, hmapped⟩ := simMap_spec h.inv read
    obtain ⟨rfl, rfl⟩ := Prod.mk.inj (Except.ok.inj (hmap.symm.trans hrun))
    rw [← hs, hmapped.mayMigrate]
    exact Or.inr ⟨rfl, hadm⟩
  | completed hmap hs hne htracker hnext hcached =>
    obtain ⟨sim1, result, hrun, hmapped⟩ := simMap_spec h.inv read
    obtain ⟨rfl, rfl⟩ := Prod.mk.inj (Except.ok.inj (hmap.symm.trans hrun))
    obtain ⟨t, ht, hf⟩ := h.tracked hne
    rw [hmapped.tracker, ht] at htracker
    obtain rfl := Option.some.inj htracker
    rw [← hs, hmapped.mayMigrate, ← hf.tracks]
    rcases MigrationTracker.migrationNext_spec hf.wf time with
      ⟨hnone, _⟩ | ⟨t1, i, _, _, hsome, hk, _⟩
    · rw [hnone] at hnext
      cases hnext
    · obtain ⟨_, heq⟩ := Prod.mk.inj (Except.ok.inj (hsome.symm.trans hnext))
      obtain rfl := Option.some.inj heq
      exact Or.inl hk

/-- What is asked of an access: it uses no tracker that is not initialised, it leaves the
tracker with exactly the blocks that migrate, none of them without a delay, and it completes
migrations of cached blocks only. -/
structure SimClean (options : SimOptions) (random : Nat → Nat) (sim : Sim LruPolicy) (time : Nat)
    (read : TraceReaderResult) : Prop where
  untouched : sim.mTracker = none →
    ∃ sim', simAccess lruApi options random sim time read = .ok sim'
  settled : ∀ sim', simAccess lruApi options random sim time read = .ok sim' →
    options.migrationDelay = 0 → ∀ o, ¬sim'.bp.nucleus.MayMigrate o
  tracked : ∀ sim', simAccess lruApi options random sim time read = .ok sim' →
    options.migrationDelay ≠ 0 →
      ∃ t, sim'.mTracker = some t ∧ ∀ o, t.Tracks o ↔ sim'.bp.nucleus.MayMigrate o
  migrated : ∀ s o,
    MigratedCall lruApi options { sim with bp := lruApi.setTime sim.bp time } time read s o →
      s.nucleus.MayMigrate o

/-- The removal of a block looks it up in the tracker also without a delay, when the tracker is
not initialised. Everything else is in order at every access of every run, and with a delay of
less than `2 ^ 31` every access returns. -/
theorem sim_migrations {n m : UInt32} {s0 : LruPolicy} {sim0 : Sim LruPolicy}
    (hcreate : lruCreate n m = .ok s0) (hprep : simPrep options s0 = .ok sim0)
    (hreach : (simSystem lruApi options random).Reachable (sim0, 1) (sim, time))
    (read : TraceReaderResult) :
    (SimClean options random sim time read ↔ ¬(options.migrationDelay = 0 ∧ 0 < n.toNat ∧
      (removeNow options random sim.randomRemove time).2 = true)) ∧
    (options.migrationDelay ≠ 0 → options.migrationDelay.toNat < 2 ^ 31 →
      ∃ sim', simAccess lruApi options random sim time read = .ok sim') := by
  have h := SimInv.of_reachable hcreate hprep hreach
  refine ⟨⟨?_, fun hgood => ⟨fun hnone => ?_, ?_, ?_, ?_⟩⟩, fun hne hlt => ?_⟩
  · rintro hclean ⟨hdelay, hpos, hnow⟩
    obtain ⟨sim', hrun⟩ := hclean.untouched (h.untracked hdelay).1
    rw [(simAccess_undelayed random read hdelay h).1 ⟨hpos, hnow⟩] at hrun
    cases hrun
  · by_cases hdelay : options.migrationDelay = 0
    · have hx := fun hx => hgood ⟨hdelay, hx⟩
      obtain ⟨sim', hrun, _⟩ := (simAccess_undelayed random read hdelay h).2 hx
      exact ⟨sim', hrun⟩
    · obtain ⟨t, ht, _⟩ := h.tracked hdelay
      rw [hnone] at ht
      cases ht
  · intro sim' hrun hdelay
    exact ((h.access hrun).untracked hdelay).2
  · intro sim' hrun hne
    obtain ⟨t, ht, hf⟩ := (h.access hrun).tracked hne
    exact ⟨t, ht, hf.tracks⟩
  · intro s o hcall
    exact (h.setTime time).migratedCall hcall
  · rcases simAccess_delayed random read hne h with ⟨sim', hrun, _⟩ | ⟨_, hbad⟩
    · exact ⟨sim', hrun⟩
    · have hu : u32 options.migrationDelay.toNat = options.migrationDelay.toNat := by
        rw [u32, Nat.mod_eq_of_lt (by omega)]
      rw [hu] at hbad
      have hpos := Nat.pos_of_ne_zero fun hzero => hne (UInt64.toNat_inj.mp hzero)
      exact (hbad ⟨hpos, hlt⟩).elim

/-- A delay of one access, and removals at every second one. -/
theorem sim_migrations_delayed : ∃ s0 sim0 sim, lruCreate 2 0 = .ok s0 ∧
    simPrep ⟨1, 2⟩ s0 = .ok sim0 ∧
    simAccess lruApi ⟨1, 2⟩ (fun _ => 0) sim0 1 ⟨5, false⟩ = .ok sim ∧
    SimClean ⟨1, 2⟩ (fun _ => 0) sim 2 ⟨5, true⟩ := by
  obtain ⟨s0, hcreate⟩ : ∃ s0, lruCreate 2 0 = .ok s0 := ⟨_, rfl⟩
  obtain ⟨sim0, hprep⟩ := simPrep_total ⟨1, 2⟩ s0
  have hstart := Lib.System.Reachable.refl (simSystem lruApi ⟨1, 2⟩ fun _ => 0) (sim0, 1)
  obtain ⟨sim, hrun⟩ :=
    (sim_migrations hcreate hprep hstart ⟨5, false⟩).2 (by decide) (by decide)
  have hstep : (simSystem lruApi ⟨1, 2⟩ fun _ => 0).step (sim0, 1) ⟨5, false⟩ =
      .ok ((sim, 2), ()) := by
    simp only [simSystem, hrun]
    rfl
  have hnext := hstart.step trivial hstep
  exact ⟨s0, sim0, sim, hcreate, hprep, hrun,
    (sim_migrations hcreate hprep hnext ⟨5, true⟩).1.mpr fun hbad => absurd hbad.1 (by decide)⟩

/-- The first access, without a delay and with a removal at every access. -/
theorem sim_migrations_untracked : ∃ s0 sim0, lruCreate 1 0 = .ok s0 ∧
    simPrep ⟨0, 1⟩ s0 = .ok sim0 ∧ sim0.mTracker = none ∧
    simAccess lruApi ⟨0, 1⟩ (fun _ => 0) sim0 1 ⟨5, false⟩ = .error .nullPointer ∧
    ¬SimClean ⟨0, 1⟩ (fun _ => 0) sim0 1 ⟨5, false⟩ := by
  obtain ⟨s0, hcreate⟩ : ∃ s0, lruCreate 1 0 = .ok s0 := ⟨_, rfl⟩
  obtain ⟨sim0, hprep⟩ := simPrep_total ⟨0, 1⟩ s0
  have hinv := SimInv.of_prep hcreate hprep
  have hnone := (hinv.untracked rfl).1
  have hfault : simAccess lruApi ⟨0, 1⟩ (fun _ => 0) sim0 1 ⟨5, false⟩ = .error .nullPointer :=
    (simAccess_undelayed _ _ rfl hinv).1 ⟨by decide, rfl⟩
  refine ⟨s0, sim0, hcreate, hprep, hnone, hfault, fun hclean => ?_⟩
  obtain ⟨sim', hrun⟩ := hclean.untouched hnone
  rw [hfault] at hrun
  cases hrun

end Fomo
