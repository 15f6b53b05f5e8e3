import Fomo.Lib.DelayLine
import Fomo.Lib.Run
import Fomo.Sim.SimMigrationTracker

/-!
# When the tracker hands a block over

At every tick the simulator asks for the block that is due, then adds at most one and removes at
most one. The queue of the tracker is a delay line; its deadlines are kept modulo 2 ^ 32, where
they stay apart because they lie within one delay.
-/
namespace Fomo

open Lib

/-- What the simulator calls at a tick. -/
inductive TrackerCall
  | next
  | add (oblock : Oblock)
  | remove (oblock : Oblock)

/-- What has been called last at a tick. -/
inductive TrackerPhase
  | looked
  | added
  | removed
  deriving DecidableEq

/-- The tracker, the tick under way and how far it got. -/
structure TrackerClock where
  tracker : MigrationTracker
  time : Nat
  phase : TrackerPhase

/-- A tick begins with `migration_next`. -/
def trackerStep (s : TrackerClock) : TrackerCall → Exec (TrackerClock × Option Oblock)
  | .next => do
    let (tracker, oblock) ← migrationNext s.tracker (u32 (s.time + 1))
    return ({ tracker := tracker, time := s.time + 1, phase := .looked }, oblock)
  | .add oblock => do
    let tracker ← migrationAdd s.tracker (u32 s.time) oblock
    return ({ s with tracker := tracker, phase := .added }, none)
  | .remove oblock => do
    let tracker ← migrationRemove s.tracker oblock
    return ({ s with tracker := tracker, phase := .removed }, none)

/-- Then a block that is not tracked may be added, and then any block removed. -/
def trackerCalls (s : TrackerClock) : TrackerCall → Prop
  | .next => True
  | .add oblock => s.phase = .looked ∧ ¬s.tracker.Tracks oblock
  | .remove _ => s.phase ≠ .removed

/-- Writes down what went in and came out, and when. -/
def trackerObserve (_ : TrackerClock) (call : TrackerCall) (s' : TrackerClock)
    (answer : Option Oblock) (log : List (Nat × DelayEvent Oblock)) :
    List (Nat × DelayEvent Oblock) :=
  match call with
  | .next => log ++ (answer.map fun oblock => (s'.time, DelayEvent.returned oblock)).toList
  | .add oblock => log ++ [(s'.time, .added oblock)]
  | .remove oblock => log ++ [(s'.time, .removed oblock)]

def trackerObserved : System (TrackerClock × List (Nat × DelayEvent Oblock)) TrackerCall
    (Option Oblock) Fault :=
  (System.mk trackerCalls trackerStep).ghost trackerObserve

namespace MigrationTracker

variable {t t' : MigrationTracker} {o : Oblock} {time : Nat}

/-! ## The queue of the tracker -/

/-- The deadlines and the blocks in the queue. -/
def view (t : MigrationTracker) : List (Nat × Oblock) :=
  t.q.map fun i => (t.migratedTime i, (t.entryPool.entries i).oblock)

theorem Wf.remove_view (h : t.Wf) (hrun : migrationRemove t o = .ok t') :
    t'.view = t.view.filter fun p => p.2 ≠ o := by
  unfold migrationRemove at hrun
  cases hl : trackerLookup t o with
  | none =>
    rw [hl] at hrun
    obtain rfl := Except.ok.inj hrun
    have hno := h.lookup_eq_none.mp hl
    refine (List.filter_eq_self.mpr fun p hp => ?_).symm
    obtain ⟨i, hi, rfl⟩ := List.mem_map.mp hp
    exact decide_eq_true fun ho => hno ⟨i, hi, ho⟩
  | some op =>
    rw [hl] at hrun
    obtain ⟨hop, ho⟩ := h.lookup_eq_some.mp hl
    obtain ⟨pool, hfree, hrun⟩ := bind_eq_ok.mp hrun
    obtain ⟨pool', hfree', _, hentries, _⟩ := h.pool.freeEntry ((h.mem_q op).mp hop)
    obtain rfl := Except.ok.inj (hfree'.symm.trans hfree)
    rw [← Except.ok.inj hrun]
    show (t.q.erase op).map _ = (t.q.map _).filter _
    rw [h.q_nodup.erase_eq_filter, List.filter_map]
    have hfilter : t.q.filter (fun i => i != op) = t.q.filter
        ((fun p : Nat × Oblock => decide (p.2 ≠ o)) ∘
          fun i => (t.migratedTime i, (t.entryPool.entries i).oblock)) := by
      refine List.filter_congr fun i hi => ?_
      rw [Bool.eq_iff_iff, bne_iff_ne, Function.comp_apply, decide_eq_true_iff]
      refine not_congr ⟨fun hx => hx ▸ ho, fun hx => ?_⟩
      exact h.inj i op hi hop (hx.trans ho.symm)
    rw [← hfilter]
    refine List.map_congr_left fun i hi => ?_
    have hne : i ≠ op := bne_iff_ne.mp (List.mem_filter.mp hi).2
    dsimp only
    rw [hentries, Function.update_of_ne hne, Function.update_of_ne hne]

/-- The blocks in the queue are different. -/
theorem Wf.view_nodup (h : t.Wf) : (t.view.map Prod.snd).Nodup := by
  rw [view, List.map_map]
  exact h.q_nodup.map_on fun i hi j hj hij => h.inj i j hi hj hij

theorem Wf.add_view (h : t.Wf) (hno : ¬t.Tracks o) (hrun : migrationAdd t time o = .ok t') :
    t'.view = t.view ++ [(u32 (time + t.delay), o)] := by
  unfold migrationAdd at hrun
  rw [h.lookup_eq_none.mpr hno] at hrun
  obtain ⟨⟨pool, op⟩, halloc, hrun⟩ := bind_eq_ok.mp hrun
  rw [← Except.ok.inj hrun]
  have halloc := deref_eq_ok.mp halloc
  unfold allocEntry at halloc
  cases hf : t.entryPool.free with
  | nil =>
    rw [hf] at halloc
    cases halloc
  | cons i rest =>
    rw [hf] at halloc
    obtain ⟨rfl, rfl⟩ := Prod.mk.inj (Option.some.inj halloc)
    have hni : i ∉ t.q := fun hi => by
      have ha := (h.mem_q i).mp hi
      rw [((h.pool.mem_free i).mp (hf ▸ List.mem_cons_self)).2] at ha
      cases ha
    show (t.q ++ [i]).map _ = t.q.map _ ++ _
    rw [List.map_append]
    congr 1
    · refine List.map_congr_left fun j hj => ?_
      have hne : j ≠ i := fun hx => hni (hx ▸ hj)
      simp [EntryPool.set, allocThisEntry, hne]
    · simp [EntryPool.set]

/-- The first block is handed over when it is due. -/
theorem migrationNext_view {answer : Option Oblock}
    (hrun : migrationNext t time = .ok (t', answer)) :
    (answer = none ∧ t' = t ∧ ∀ p ∈ t.view.head?, p.1 ≠ time) ∨
      ∃ o, answer = some o ∧ t.view.head? = some (time, o) ∧ migrationRemove t o = .ok t' := by
  unfold migrationNext at hrun
  cases hq : t.q.head? with
  | none =>
    rw [hq] at hrun
    obtain ⟨rfl, rfl⟩ := Prod.mk.inj (Except.ok.inj hrun)
    refine Or.inl ⟨rfl, rfl, fun p hp => ?_⟩
    rw [view, List.head?_map, hq] at hp
    cases hp
  | some i =>
    have hv : t.view.head? = some (t.migratedTime i, (t.entryPool.entries i).oblock) := by
      rw [view, List.head?_map, hq]
      rfl
    rw [hq] at hrun
    dsimp only at hrun
    split at hrun
    · next hdue =>
      obtain ⟨t1, hrem, hrun⟩ := bind_eq_ok.mp hrun
      obtain ⟨rfl, rfl⟩ := Prod.mk.inj (Except.ok.inj hrun)
      exact Or.inr ⟨_, rfl, hdue ▸ hv, hrem⟩
    · next hdue =>
      obtain ⟨rfl, rfl⟩ := Prod.mk.inj (Except.ok.inj hrun)
      refine Or.inl ⟨rfl, rfl, fun p hp => ?_⟩
      rw [hv] at hp
      rw [← Option.some.inj hp]
      exact hdue

end MigrationTracker

/-! ## The delay line -/

/-- Deadlines modulo 2 ^ 32. -/
def wrapped (p : Nat × Oblock) : Nat × Oblock := (u32 p.1, p.2)

/-- The tracker keeps the delay line that the log describes, and has room for twice as much. -/
structure TrackerClock.Keeps (d : Nat) (s : TrackerClock) (log : List (Nat × DelayEvent Oblock)) :
    Prop where
  wf : s.tracker.Wf
  delay : s.tracker.delay = d
  nrEntries : s.tracker.entryPool.nrEntries = 2 * d
  line : ∃ l, s.tracker.view = l.map wrapped ∧
    DelayLine d s.time (s.phase = .looked) log l

variable {d time : Nat} {s s' : TrackerClock} {log : List (Nat × DelayEvent Oblock)}
  {call : TrackerCall} {answer : Option Oblock} {l : List (Nat × Oblock)} {fresh : Prop}
  {p : Nat × Oblock} {o : Oblock}

/-- A deadline within one delay is at the next tick if it is so modulo 2 ^ 32. -/
theorem deadline_eq_next (h : DelayLine d time fresh log l) (hd : d < 2 ^ 32) (hp : p ∈ l)
    (heq : u32 p.1 = u32 (time + 1)) : p.1 = time + 1 := by
  have hlate := h.late p hp
  have hsoon := h.soon p hp
  unfold u32 at heq
  omega

namespace TrackerClock

theorem Keeps.next (h : s.Keeps d log) (hd : d < 2 ^ 32)
    (hrun : trackerStep s .next = .ok (s', answer)) :
    s'.Keeps d (trackerObserve s .next s' answer log) := by
  obtain ⟨⟨t, x⟩, hnext, hrun⟩ := bind_eq_ok.mp hrun
  obtain ⟨rfl, rfl⟩ := Prod.mk.inj (Except.ok.inj hrun)
  obtain ⟨l, hview, hline⟩ := h.line
  rcases MigrationTracker.migrationNext_view hnext with ⟨rfl, rfl, hhead⟩ | ⟨o, rfl, hhead, hrem⟩
  · have hno : ∀ p ∈ l, p.1 ≠ s.time + 1 := by
      cases l with
      | nil => exact fun p hp => absurd hp List.not_mem_nil
      | cons q l =>
        have hq : q.1 ≠ s.time + 1 := fun heq => by
          refine hhead (wrapped q) (by rw [hview]; rfl) ?_
          rw [wrapped, heq]
        intro p hp
        rcases List.mem_cons.mp hp with rfl | hp
        · exact hq
        · have hlate := hline.late q List.mem_cons_self
          have hlt := (List.pairwise_cons.mp hline.sorted).1 p hp
          omega
    rw [trackerObserve]
    refine ⟨h.wf, h.delay, h.nrEntries, l, hview, ?_⟩
    rw [Option.map_none, Option.toList_none, List.append_nil]
    exact (hline.pass hno).imp fun _ => trivial
  · obtain ⟨t', hrem', hdrop⟩ := MigrationTracker.migrationRemove_spec h.wf o
    obtain rfl := Except.ok.inj (hrem'.symm.trans hrem)
    have hnodup := h.wf.view_nodup
    have hview' := h.wf.remove_view hrem
    cases l with
    | nil =>
      rw [hview] at hhead
      cases hhead
    | cons q l =>
      rw [hview, List.map_cons, List.head?_cons] at hhead
      have hq := Option.some.inj hhead
      have htime : q.1 = s.time + 1 :=
        deadline_eq_next hline hd List.mem_cons_self (Prod.mk.inj hq).1
      have ho : q.2 = o := (Prod.mk.inj hq).2
      obtain rfl : q = (s.time + 1, o) := Prod.ext htime ho
      refine ⟨hdrop.wf, hdrop.delay.trans h.delay, hdrop.nrEntries.trans h.nrEntries, l, ?_, ?_⟩
      · -- the block is in the queue once
        rw [hview, List.map_cons, List.map_cons, List.nodup_cons] at hnodup
        rw [hview', hview, List.map_cons, List.filter_cons_of_neg (by simp [wrapped])]
        refine List.filter_eq_self.mpr fun p hp => decide_eq_true fun hpo => hnodup.1 ?_
        rw [List.mem_map]
        exact ⟨p, hp, hpo⟩
      · exact hline.pop.imp fun _ => trivial

theorem Keeps.add (h : s.Keeps d log) (hd : 0 < d) (hg : trackerCalls s (.add o))
    (hrun : trackerStep s (.add o) = .ok (s', answer)) :
    s'.Keeps d (trackerObserve s (.add o) s' answer log) := by
  obtain ⟨t, hadd, hrun⟩ := bind_eq_ok.mp hrun
  obtain ⟨rfl, rfl⟩ := Prod.mk.inj (Except.ok.inj hrun)
  obtain ⟨l, hview, hline⟩ := h.line
  have hview' := h.wf.add_view hg.2 hadd
  have hroom : s.tracker.entryPool.free ≠ [] := by
    intro hnil
    unfold migrationAdd at hadd
    rw [h.wf.lookup_eq_none.mpr hg.2] at hadd
    simp [allocEntry, hnil, deref] at hadd
  obtain ⟨t', hadd', hadded⟩ := MigrationTracker.migrationAdd_spec h.wf hg.2 (u32 s.time) hroom
  obtain rfl := Except.ok.inj (hadd'.symm.trans hadd)
  refine ⟨hadded.wf, hadded.delay.trans h.delay, hadded.nrEntries.trans h.nrEntries,
    l ++ [(s.time + d, o)], ?_, ?_⟩
  · have hwrap : u32 (u32 s.time + d) = u32 (s.time + d) := by
      simp [u32]
    rw [hview', hview, h.delay, hwrap, List.map_append]
    rfl
  · exact ((hline.imp fun _ => hg.1).push hd o).imp fun hx => by cases hx

theorem Keeps.remove (h : s.Keeps d log) (hrun : trackerStep s (.remove o) = .ok (s', answer)) :
    s'.Keeps d (trackerObserve s (.remove o) s' answer log) := by
  obtain ⟨t, hrem, hrun⟩ := bind_eq_ok.mp hrun
  obtain ⟨rfl, rfl⟩ := Prod.mk.inj (Except.ok.inj hrun)
  obtain ⟨l, hview, hline⟩ := h.line
  have hview' := h.wf.remove_view hrem
  obtain ⟨t', hrem', hdrop⟩ := MigrationTracker.migrationRemove_spec h.wf o
  obtain rfl := Except.ok.inj (hrem'.symm.trans hrem)
  refine ⟨hdrop.wf, hdrop.delay.trans h.delay, hdrop.nrEntries.trans h.nrEntries,
    l.filter fun p => p.2 ≠ o, ?_, (hline.remove o).imp fun hx => by cases hx⟩
  rw [hview', hview, List.filter_map]
  rfl

theorem Keeps.step (h : s.Keeps d log) (hd : 0 < d) (hlt : d < 2 ^ 32) (hg : trackerCalls s call)
    (hrun : trackerStep s call = .ok (s', answer)) :
    s'.Keeps d (trackerObserve s call s' answer log) := by
  cases call with
  | next => exact h.next hlt hrun
  | add o => exact h.add hd hg hrun
  | remove o => exact h.remove hrun

theorem Keeps.length_le (h : s.Keeps d log) : s.tracker.q.length ≤ d := by
  obtain ⟨l, hview, hline⟩ := h.line
  have hlen := congrArg List.length hview
  rw [MigrationTracker.view, List.length_map, List.length_map] at hlen
  exact hlen ▸ hline.length_le

theorem Keeps.table_length (h : s.Keeps d log) : s.tracker.ht.length = s.tracker.q.length := by
  refine List.Perm.length_eq ?_
  rw [List.perm_ext_iff_of_nodup h.wf.ht_nodup h.wf.q_nodup]
  intro i
  rw [h.wf.mem_ht, h.wf.mem_q]

/-- An entry is always left. -/
theorem Keeps.free_ne_nil (h : s.Keeps d log) (hd : 0 < d) : s.tracker.entryPool.free ≠ [] := by
  refine h.wf.free_ne_nil ?_
  have hle := h.length_le
  rw [h.nrEntries]
  omega

/-- Every call of the schedule answers. -/
theorem Keeps.answers (h : s.Keeps d log) (hd : 0 < d) (hg : trackerCalls s call) :
    ∃ s' answer, trackerStep s call = .ok (s', answer) := by
  cases call with
  | next =>
    rcases MigrationTracker.migrationNext_spec h.wf (u32 (s.time + 1)) with
      ⟨hrun, _⟩ | ⟨t, i, _, _, hrun, _⟩
    · exact ⟨_, _, by rw [trackerStep, hrun]; rfl⟩
    · exact ⟨_, _, by rw [trackerStep, hrun]; rfl⟩
  | add o =>
    obtain ⟨t, hrun, _⟩ :=
      MigrationTracker.migrationAdd_spec h.wf hg.2 (u32 s.time) (h.free_ne_nil hd)
    exact ⟨_, _, by rw [trackerStep, hrun]; rfl⟩
  | remove o =>
    obtain ⟨t, hrun, _⟩ := MigrationTracker.migrationRemove_spec h.wf o
    exact ⟨_, _, by rw [trackerStep, hrun]; rfl⟩

end TrackerClock

/-! ## Schedules -/

/-- In every schedule a block is handed over at the tick that comes one delay after it was added,
unless it was removed before, and at no other tick; at most one delay of blocks are tracked; and
every call answers, with an entry of the pool left. -/
theorem migration_timing {delay : Nat} {t0 : MigrationTracker}
    {tr : List (TrackerCall × Option Oblock)} (hd : 1 ≤ delay) (hd2 : 2 * delay < 2 ^ 32)
    (hinit : migrationTrackerInit delay = .ok t0)
    (hrun : trackerObserved.Run (⟨t0, 0, .removed⟩, []) tr (s, log)) :
    (∀ x o, (x, .returned o) ∈ log ↔ x ≤ s.time ∧ Completes delay log x o) ∧
    (s.tracker.q.length ≤ delay ∧ s.tracker.ht.length ≤ delay) ∧
    allocEntry s.tracker.entryPool ≠ none ∧
    ∀ call, trackerCalls s call → ∃ s' answer, trackerStep s call = .ok (s', answer) := by
  obtain ⟨t, hinit', hwf, hq, hdelay, hnr⟩ := MigrationTracker.migrationTrackerInit_spec delay
  obtain rfl := Except.ok.inj (hinit'.symm.trans hinit)
  have h0 : TrackerClock.Keeps delay ⟨t, 0, .removed⟩ [] := by
    refine ⟨hwf, hdelay, hnr.trans (u32_of_lt hd2), [], ?_, ?_⟩
    · rw [MigrationTracker.view, hq]
      rfl
    · exact (DelayLine.init delay).imp fun hx => by cases hx
  have h : s.Keeps delay log := by
    refine hrun.invariant (I := fun p => p.1.Keeps delay p.2) h0 ?_
    intro p call p' answer hp hg hstep
    obtain ⟨hcall, hlog⟩ := System.ghost_step.mp hstep
    rw [hlog]
    exact hp.step hd (by omega) hg hcall
  obtain ⟨l, hview, hline⟩ := h.line
  refine ⟨hline.done, ⟨h.length_le, h.table_length ▸ h.length_le⟩, ?_,
    fun call hg => h.answers hd hg⟩
  obtain ⟨i, rest, hfree⟩ := List.exists_cons_of_ne_nil (h.free_ne_nil hd)
  rw [allocEntry, hfree]
  exact Option.some_ne_none _

/-- A block that is added at the first of three ticks, with a delay of two. -/
theorem migration_timing_two : ∃ t0 tr s log, migrationTrackerInit 2 = .ok t0 ∧
    trackerObserved.Run (⟨t0, 0, .removed⟩, []) tr (s, log) ∧ s.time = 3 ∧
    (3, DelayEvent.returned 7) ∈ log := by
  obtain ⟨t0, hinit⟩ : ∃ t0, migrationTrackerInit 2 = .ok t0 := ⟨_, rfl⟩
  obtain ⟨s, log, ws, hexec, htime, hlog⟩ : ∃ s log ws,
      trackerObserved.exec (⟨t0, 0, .removed⟩, []) [.next, .add 7, .next, .next] =
        .ok ((s, log), ws) ∧ s.time = 3 ∧
      log = [(1, DelayEvent.added 7), (3, DelayEvent.returned 7)] := by
    obtain rfl := Except.ok.inj hinit
    exact ⟨_, _, _, rfl, rfl, rfl⟩
  have hadm : trackerObserved.Admits (⟨t0, 0, .removed⟩, []) [.next, .add 7, .next, .next] := by
    obtain rfl := Except.ok.inj hinit
    refine And.intro trivial (And.intro (And.intro rfl ?_)
      (And.intro trivial (And.intro trivial trivial)))
    rintro ⟨i, hi, _⟩
    cases hi
  have hrun := System.Run.of_exec hadm hexec
  refine ⟨t0, _, s, log, hinit, hrun, htime, ?_⟩
  refine ((migration_timing (by decide) (by decide) hinit hrun).1 3 7).mpr
    ⟨htime.ge, 1, rfl, ?_, fun u _ _ hu => ?_⟩
  · rw [hlog]
    exact List.mem_cons_self
  · rw [hlog] at hu
    simp at hu

end Fomo
