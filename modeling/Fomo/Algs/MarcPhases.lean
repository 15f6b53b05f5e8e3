import Fomo.Algs.ArcStructure
import Fomo.Algs.MarcSteps
import Fomo.Include.Statistics

/-!
# The hit rates mARC decides on

A log beside the run holds one event for each committed request. The window of mARC holds the
last hits of the log although every change of state clears it, because the tabu counter keeps
the next evaluation away until it is filled again.
-/
namespace Fomo

/-- A committed request: whether it hit, and the state it changed to if it changed the state. -/
structure MarcEvent where
  hit : Bool
  next : Option MarcState

/-- The requests at the end of the log that changed no state. -/
def sinceChange (log : List MarcEvent) : List MarcEvent :=
  log.rtakeWhile fun e => e.next.isNone

/-- The requests since the last change to UNSTABLE or UNIQUE. -/
def marcPhase (log : List MarcEvent) : List MarcEvent :=
  log.rtakeWhile fun e => decide (e.next ≠ some .unstable ∧ e.next ≠ some .unique)

/-- The transaction of a request is legal. -/
def marcCommits (marc : MarcPolicy) (o : Oblock) (w : Bool) : Bool :=
  match marcTransactionSet marc (marcTransactionInit marc o w) >>= marcTransactionIsLegal marc with
  | .ok (_, legal) => legal
  | .error _ => false

/-- Writes a committed request to the log. -/
def marcObserve (marc : MarcPolicy) (call : Call) (marc' : MarcPolicy)
    (_ : Option CacheNucleusResult) (log : List MarcEvent) : List MarcEvent :=
  match call with
  | .map o w _ =>
    if marcCommits marc o w then
      log ++ [{
        hit := (arcApi.cacheLookup marc.internal o).isSome
        next := if marc'.state = marc.state then none else some marc'.state }]
    else log
  | _ => log

/-- mARC under requests and completed migrations, with the log of its committed requests. -/
def marcObserved :
    Lib.System (MarcPolicy × List MarcEvent) Call (Option CacheNucleusResult) Fault :=
  (marcApi.system fun _ => requestCalls).ghost marcObserve

open MarcPolicy

variable {s s' s'' : MarcPolicy} {mt mt' : MarcTransaction} {o : Oblock} {c : Nat} {w : Bool}
  {r : EntryRef} {result res : CacheNucleusResult} {log : List MarcEvent}

/-! ## What a request does to the clocks -/

/-- The tabu, the state, the window and the phase are left alone. -/
structure MarcPolicy.Steady (s s' : MarcPolicy) : Prop where
  tabu : s'.tabu = s.tabu
  tabuCounter : s'.tabuCounter = s.tabuCounter
  state : s'.state = s.state
  sample : s'.sample = s.sample
  phaseHits : s'.phaseHits = s.phaseHits
  phaseIos : s'.phaseIos = s.phaseIos

theorem MarcPolicy.Steady.trans (h : s.Steady s') (h' : s'.Steady s'') : s.Steady s'' :=
  ⟨h'.tabu.trans h.tabu, h'.tabuCounter.trans h.tabuCounter, h'.state.trans h.state,
    h'.sample.trans h.sample, h'.phaseHits.trans h.phaseHits, h'.phaseIos.trans h.phaseIos⟩

theorem MarcPolicy.OnlyGhosts.steady (h : s.OnlyGhosts s') : s.Steady s' := by
  cases h with
  | mk hstats hhits => exact ⟨rfl, rfl, rfl, rfl, rfl, rfl⟩

theorem marcCommitMap_steady (hrun : marcCommitMap s mt result = .ok (s', res)) :
    s.Steady s' := by
  unfold marcCommitMap at hrun
  split at hrun
  · obtain ⟨x, _, hrun⟩ := bind_eq_ok.mp hrun
    exact (Prod.mk.inj (Except.ok.inj hrun)).1 ▸ ⟨rfl, rfl, rfl, rfl, rfl, rfl⟩
  · exact (Prod.mk.inj (Except.ok.inj hrun)).1 ▸ ⟨rfl, rfl, rfl, rfl, rfl, rfl⟩

/-- The clocks move in the first part of a commit. -/
theorem marcTransactionCommit_steady
    (hrun : marcTransactionCommit s mt result = .ok (s', res)) :
    ∃ s1, marcCommitStats s mt = .ok s1 ∧ s1.Steady s' := by
  obtain ⟨s1, h1, hrun⟩ := bind_eq_ok.mp hrun
  obtain ⟨s2, h2, hrun⟩ := bind_eq_ok.mp hrun
  obtain ⟨⟨s3, res3⟩, h3, hrun⟩ := bind_eq_ok.mp hrun
  obtain ⟨s4, h4, hrun⟩ := bind_eq_ok.mp hrun
  obtain ⟨rfl, _⟩ := Prod.mk.inj (Except.ok.inj hrun)
  have hghosts := (marcCommitGhosts_onlyGhosts h2).steady
  have hevict := (marcCommitEvict_onlyGhosts h4).steady
  exact ⟨s1, h1, (hghosts.trans (marcCommitMap_steady h3)).trans hevict⟩

/-- The state and the tabu counter that a request moves to. -/
inductive MarcPolicy.Ticks (s : MarcPolicy) (o : Oblock) (w : Bool) : MarcState → Nat → Prop
  | counted (heval : marcEvaluates s (s.counted o w) = false) :
      Ticks s o w s.state (s.tabuCounter - 1)
  | stayed (heval : marcEvaluates s (s.counted o w) = true) : Ticks s o w s.state s.tabu
  | changed {next : MarcState} (heval : marcEvaluates s (s.counted o w) = true)
      (hne : next ≠ s.state) :
      Ticks s o w next (if next = .unstable then 2 * s.tabu else s.tabu)

/-- What a transaction stages for the clocks. -/
structure MarcPolicy.Staged (s : MarcPolicy) (hit : Bool) (next : MarcState) (tabu : Nat)
    (mt : MarcTransaction) : Prop where
  cHit : mt.cHit = hit
  state : mt.state = next
  tabuCounter : mt.tabuCounter = tabu
  sampleClear : mt.sampleClear = decide (next ≠ s.state)
  sampleAvgClear : mt.sampleAvgClear = decide (next ≠ s.state)
  phaseClear : mt.phaseClear = decide (next ≠ s.state ∧ next ≠ .stable)

/-- The clocks after a request. -/
structure MarcPolicy.Turned (s : MarcPolicy) (hit : Bool) (next : MarcState) (counter : Nat)
    (s' : MarcPolicy) : Prop where
  tabu : s'.tabu = s.tabu
  tabuCounter : s'.tabuCounter = counter
  state : s'.state = next
  sample : ∃ sample, Tools.windowStatsPush s.sample hit.toNat = .ok sample ∧
    s'.sample = if next = s.state then sample
      else Tools.windowStatsClear (Tools.windowStatsClear sample)
  phaseHits : s'.phaseHits = if next ≠ s.state ∧ next ≠ .stable then 0
    else s.phaseHits + hit.toNat
  phaseIos : s'.phaseIos = if next ≠ s.state ∧ next ≠ .stable then 0 else s.phaseIos + 1

theorem MarcPolicy.Judged.staged (h : s.Judged o w mt) : ∃ next tabu, s.Ticks o w next tabu ∧
    s.Staged (arcApi.cacheLookup s.internal o).isSome next tabu mt := by
  have hsame : false = decide (s.state ≠ s.state) := (decide_eq_false (not_not.mpr rfl)).symm
  have hphase : false = decide (s.state ≠ s.state ∧ s.state ≠ .stable) :=
    (decide_eq_false fun hx => hx.1 rfl).symm
  cases h with
  | counted heval =>
    refine ⟨_, _, .counted heval, rfl, rfl, ?_, hsame, hsame, hphase⟩
    show (if s.tabuCounter > 0 then s.tabuCounter - 1 else s.tabuCounter) = s.tabuCounter - 1
    split
    · rfl
    · omega
  | stayed heval hsample hstate =>
    exact ⟨_, _, .stayed heval, rfl, rfl, rfl, hsame, hsame, hphase⟩
  | @changed _ _ next hne heval hsample hstate =>
    refine ⟨_, _, .changed heval hne, ?_⟩
    unfold marcChangeState
    by_cases hu : next = .unstable
    · rw [if_neg (not_not.mpr hu), if_pos hu]
      exact ⟨rfl, rfl, rfl, by simp [hne], by simp [hne], by simp [hne]⟩
    · rw [if_pos hu, if_neg hu]
      exact ⟨rfl, rfl, rfl, by simp [hne], by simp [hne], by simp [hne]⟩

theorem MarcPolicy.Routed.staged {hit : Bool} {next : MarcState} {tabu : Nat}
    (hr : s.Routed mt mt') (h : s.Staged hit next tabu mt) : s.Staged hit next tabu mt' := by
  obtain ⟨h1, h2, h3, h4, h5, h6⟩ := h
  cases hr with
  | hit hc hg => exact ⟨h1, h2, h3, h4, h5, h6⟩
  | plain hroom => exact ⟨h1, h2, h3, h4, h5, h6⟩
  | ghost hc hfull hghost hg hadd => exact ⟨h1, h2, h3, h4, h5, h6⟩
  | add hc hfull hghost hg hfilter => exact ⟨h1, h2, h3, h4, h5, h6⟩

theorem marcCommitStats_turned {hit : Bool} {next : MarcState} {tabu : Nat}
    (h : s.Staged hit next tabu mt) (hrun : marcCommitStats s mt = .ok s') :
    s.Turned hit next tabu s' := by
  obtain ⟨sample, hpush, hrun⟩ := bind_eq_ok.mp hrun
  obtain ⟨avg, hrun⟩ : ∃ avg : Tools.WindowStats, s' = { s with
      tabuCounter := mt.tabuCounter
      ghostSize := mt.ghostSize
      state := mt.state
      sample := if mt.sampleAvgClear then
          Tools.windowStatsClear (if mt.sampleClear then Tools.windowStatsClear sample else sample)
        else if mt.sampleClear then Tools.windowStatsClear sample else sample
      sampleAvg := avg
      phaseHits := if mt.phaseClear then 0 else s.phaseHits + mt.cHit.toNat
      phaseIos := if mt.phaseClear then 0 else s.phaseIos + 1
      ghostHitsOld := if mt.saveGhostHits then s.ghostHits else s.ghostHitsOld } := by
    dsimp only at hrun
    split at hrun
    · obtain ⟨avg, _, hrun⟩ := bind_eq_ok.mp hrun
      obtain ⟨sampleAvg, _, hrun⟩ := bind_eq_ok.mp hrun
      exact ⟨_, (Except.ok.inj hrun).symm⟩
    · exact ⟨_, (Except.ok.inj hrun).symm⟩
  rw [h.cHit] at hpush
  rw [hrun, h.cHit, h.state, h.tabuCounter, h.sampleClear, h.sampleAvgClear, h.phaseClear]
  refine ⟨rfl, rfl, rfl, ⟨sample, hpush, ?_⟩, ?_, ?_⟩
  · by_cases hne : next = s.state
    · simp [hne]
    · simp [hne]
  · simp
  · simp

theorem MarcPolicy.Turned.steady {hit : Bool} {next : MarcState} {tabu : Nat}
    (h : s.Turned hit next tabu s') (h' : s'.Steady s'') : s.Turned hit next tabu s'' := by
  obtain ⟨sample, hpush, hsample⟩ := h.sample
  exact ⟨h'.tabu.trans h.tabu, h'.tabuCounter.trans h.tabuCounter, h'.state.trans h.state,
    ⟨sample, hpush, h'.sample.trans hsample⟩, h'.phaseHits.trans h.phaseHits,
    h'.phaseIos.trans h.phaseIos⟩

/-- A request is committed and turns the clocks, or nothing happens. -/
theorem marcMapApi_turned (hrun : marcMapApi s o w result = .ok (s', res)) :
    (marcCommits s o w = false ∧ s' = s) ∨ (marcCommits s o w = true ∧
      ∃ next tabu, s.Ticks o w next tabu ∧
        s.Turned (arcApi.cacheLookup s.internal o).isSome next tabu s') := by
  obtain ⟨mt, hset, ⟨hleg, rfl, _⟩ | ⟨hleg, hcommit⟩⟩ := marcMapApi_ok hrun
  · refine Or.inl ⟨?_, rfl⟩
    rw [marcCommits, hset, ok_bind, hleg]
  · obtain ⟨mt1, hj, hr⟩ := marcTransactionSet_ok hset
    obtain ⟨next, tabu, hticks, hst⟩ := hj.staged
    obtain ⟨s1, h1, hsteady⟩ := marcTransactionCommit_steady hcommit
    refine Or.inr ⟨?_, next, tabu, hticks, (marcCommitStats_turned (hr.staged hst) h1).steady
      hsteady⟩
    rw [marcCommits, hset, ok_bind, hleg]

/-! ## The log -/

open Lib

variable {e : MarcEvent} {hit : Bool} {next : MarcState} {tabu : Nat}

theorem sinceChange_keep (he : e.next = none) : sinceChange (log ++ [e]) = sinceChange log ++ [e] :=
  List.rtakeWhile_concat_pos _ _ _ (by rw [he]; rfl)

theorem sinceChange_change (he : e.next = some next) : sinceChange (log ++ [e]) = [] :=
  List.rtakeWhile_concat_neg _ _ _ (by rw [he]; exact Bool.false_ne_true)

theorem sinceChange_le (log : List MarcEvent) : (sinceChange log).length ≤ log.length :=
  List.IsSuffix.length_le (List.rtakeWhile_suffix _ _)

theorem marcPhase_keep (he : e.next ≠ some .unstable ∧ e.next ≠ some .unique) :
    marcPhase (log ++ [e]) = marcPhase log ++ [e] :=
  List.rtakeWhile_concat_pos _ _ _ (decide_eq_true he)

theorem marcPhase_change (he : ¬(e.next ≠ some .unstable ∧ e.next ≠ some .unique)) :
    marcPhase (log ++ [e]) = [] :=
  List.rtakeWhile_concat_neg _ _ _ (by rw [decide_eq_false he]; decide)

theorem sum_hits (l : List MarcEvent) :
    (l.map fun e => e.hit.toNat).sum = l.countP MarcEvent.hit := by
  induction l with
  | nil => rfl
  | cons e l ih =>
    rw [List.map_cons, List.sum_cons, List.countP_cons, ih]
    cases e.hit
    · exact Nat.zero_add _
    · exact Nat.add_comm _ _

/-- Changes of the state in the log are `c` requests apart, and `2 * c` after a change to
UNSTABLE. -/
def ChangesApart (c : Nat) (log : List MarcEvent) : Prop :=
  ∀ j k e e', j < k → log[j]? = some e → log[k]? = some e' → e.next.isSome = true →
    e'.next.isSome = true → c ≤ k - j ∧ (e.next = some .unstable → 2 * c ≤ k - j)

/-- What the clocks say about the log. -/
structure MarcPolicy.Tracked (c : Nat) (s : MarcPolicy) (log : List MarcEvent) : Prop where
  tabu : s.tabu = c
  spanned : c ≤ s.tabuCounter + (sinceChange log).length
  gaps : ∀ j e, log[j]? = some e → e.next.isSome = true →
    c < s.tabuCounter + (log.length - j) ∧
      (e.next = some .unstable → 2 * c < s.tabuCounter + (log.length - j))
  apart : ChangesApart c log
  sample : s.sample.Holds c
    ((log.map fun e => e.hit.toNat).rtake (min c (sinceChange log).length))
  phaseHits : s.phaseHits = (marcPhase log).countP MarcEvent.hit
  phaseIos : s.phaseIos = (marcPhase log).length

theorem marcEvaluates_counter (heval : marcEvaluates s (s.counted o w) = true) :
    s.tabuCounter ≤ 1 := by
  have hzero := of_decide_eq_true (Bool.and_eq_true_iff.mp heval).1
  have hcount : (s.counted o w).tabuCounter =
      if s.tabuCounter > 0 then s.tabuCounter - 1 else s.tabuCounter := rfl
  rw [hcount] at hzero
  split at hzero
  · omega
  · omega

/-- The event of a committed request. -/
def marcEvent (s : MarcPolicy) (hit : Bool) (next : MarcState) : MarcEvent where
  hit := hit
  next := if next = s.state then none else some next

/-- The tabu counter makes up for the requests that go by. -/
theorem MarcPolicy.Ticks.counter_le (h : s.Ticks o w next tabu) : s.tabuCounter ≤ tabu + 1 := by
  cases h with
  | counted heval => omega
  | stayed heval =>
    have := marcEvaluates_counter heval
    omega
  | changed heval hne =>
    have := marcEvaluates_counter heval
    omega

theorem MarcPolicy.Ticks.change (h : s.Ticks o w next tabu) (hne : next ≠ s.state) :
    s.tabuCounter ≤ 1 ∧ tabu = if next = .unstable then 2 * s.tabu else s.tabu := by
  cases h with
  | counted heval => exact absurd rfl hne
  | stayed heval => exact absurd rfl hne
  | changed heval hne => exact ⟨marcEvaluates_counter heval, rfl⟩

theorem getElem?_concat_cases {α : Type*} {l : List α} {a b : α} {j : Nat}
    (h : (l ++ [a])[j]? = some b) : l[j]? = some b ∨ (j = l.length ∧ b = a) := by
  rcases Nat.lt_or_ge j l.length with hj | hj
  · rw [List.getElem?_append_left hj] at h
    exact Or.inl h
  · rw [List.getElem?_append_right hj, List.getElem?_singleton] at h
    split at h
    · exact Or.inr ⟨by omega, (Option.some.inj h).symm⟩
    · cases h

theorem MarcPolicy.Tracked.gaps_step (h : s.Tracked c log) (ht : s.Ticks o w next tabu) :
    ∀ j e, (log ++ [marcEvent s hit next])[j]? = some e → e.next.isSome = true →
      c < tabu + ((log ++ [marcEvent s hit next]).length - j) ∧
        (e.next = some .unstable →
          2 * c < tabu + ((log ++ [marcEvent s hit next]).length - j)) := by
  intro j e hj hsome
  have hle := ht.counter_le
  rw [List.length_append, List.length_singleton]
  rcases getElem?_concat_cases hj with hold | ⟨rfl, rfl⟩
  · have hlt := (List.getElem?_eq_some_iff.mp hold).1
    obtain ⟨h1, h2⟩ := h.gaps j e hold hsome
    refine ⟨by omega, fun hu => ?_⟩
    have := h2 hu
    omega
  · by_cases hne : next = s.state
    · simp [marcEvent, hne] at hsome
    · obtain ⟨_, htabu⟩ := ht.change hne
      have htc := h.tabu
      rw [htabu, htc]
      refine ⟨by split <;> omega, fun hu => ?_⟩
      have hun : next = .unstable := by simpa [marcEvent, hne] using hu
      rw [if_pos hun]
      omega

theorem MarcPolicy.Tracked.apart_step (h : s.Tracked c log) (ht : s.Ticks o w next tabu) :
    ChangesApart c (log ++ [marcEvent s hit next]) := by
  intro j k e e' hjk hj hk he he'
  rcases getElem?_concat_cases hk with hk | ⟨rfl, rfl⟩
  · have hlt := (List.getElem?_eq_some_iff.mp hk).1
    rcases getElem?_concat_cases hj with hj | ⟨rfl, rfl⟩
    · exact h.apart j k e e' hjk hj hk he he'
    · omega
  · rcases getElem?_concat_cases hj with hj | ⟨rfl, rfl⟩
    · by_cases hne : next = s.state
      · simp [marcEvent, hne] at he'
      · obtain ⟨hcount, _⟩ := ht.change hne
        obtain ⟨h1, h2⟩ := h.gaps j e hj he
        refine ⟨by omega, fun hu => ?_⟩
        have := h2 hu
        omega
    · omega

theorem MarcPolicy.Tracked.sample_step (h : s.Tracked c log) (hc : 0 < c)
    (ht : s.Turned hit next tabu s') : s'.sample.Holds c
      (((log ++ [marcEvent s hit next]).map fun e => e.hit.toNat).rtake
        (min c (sinceChange (log ++ [marcEvent s hit next])).length)) := by
  obtain ⟨sample, hpush, hsample⟩ := ht.sample
  obtain ⟨sample', hpush', hholds⟩ := h.sample.push hit.toNat
  obtain rfl := Except.ok.inj (hpush.symm.trans hpush')
  rw [hsample]
  by_cases hne : next = s.state
  · rw [if_pos hne, sinceChange_keep (by simp [marcEvent, hne]), List.length_append,
      List.length_singleton, List.map_append]
    have hn : (sinceChange log).length ≤ (log.map fun e => e.hit.toNat).length := by
      rw [List.length_map]
      exact sinceChange_le log
    rw [remember_rtake hc hn] at hholds
    exact hholds
  · have hevent : (marcEvent s hit next).next = some next := by simp [marcEvent, hne]
    have hnil : sinceChange (log ++ [marcEvent s hit next]) = [] :=
      sinceChange_change hevent
    rw [if_neg hne, hnil, List.length_nil, Nat.min_zero, List.rtake_zero]
    exact (hholds.clear hc).clear hc

/-- The phase counters start over when the state changes to UNSTABLE or UNIQUE. -/
theorem MarcPolicy.Tracked.phase_step (h : s.Tracked c log) (ht : s.Turned hit next tabu s') :
    s'.phaseHits = (marcPhase (log ++ [marcEvent s hit next])).countP MarcEvent.hit ∧
      s'.phaseIos = (marcPhase (log ++ [marcEvent s hit next])).length := by
  have hcond : (next ≠ s.state ∧ next ≠ .stable) ↔
      ¬((marcEvent s hit next).next ≠ some .unstable ∧
        (marcEvent s hit next).next ≠ some .unique) := by
    by_cases hne : next = s.state
    · simp [marcEvent, hne]
    · cases next <;> simp [marcEvent, hne]
  rw [ht.phaseHits, ht.phaseIos, h.phaseHits, h.phaseIos]
  by_cases hreset : next ≠ s.state ∧ next ≠ .stable
  · rw [if_pos hreset, if_pos hreset, marcPhase_change (hcond.mp hreset)]
    exact ⟨rfl, rfl⟩
  · rw [if_neg hreset, if_neg hreset, marcPhase_keep (not_not.mp (mt hcond.mpr hreset)),
      List.countP_append, List.length_append]
    refine ⟨?_, rfl⟩
    cases hit <;> rfl

theorem MarcPolicy.Tracked.step (h : s.Tracked c log) (hc : 0 < c) (hk : s.Ticks o w next tabu)
    (ht : s.Turned hit next tabu s') : s'.Tracked c (log ++ [marcEvent s hit next]) := by
  obtain ⟨hhits, hios⟩ := h.phase_step ht
  refine ⟨ht.tabu.trans h.tabu, ?_, ?_, h.apart_step hk, h.sample_step hc ht, hhits, hios⟩
  · rw [ht.tabuCounter]
    have hspan := h.spanned
    have hle := hk.counter_le
    by_cases hne : next = s.state
    · rw [sinceChange_keep (by simp [marcEvent, hne]), List.length_append, List.length_singleton]
      omega
    · obtain ⟨_, htabu⟩ := hk.change hne
      have htc := h.tabu
      rw [htabu, htc]
      split <;> omega
  · rw [ht.tabuCounter]
    exact h.gaps_step hk

/-! ## Runs -/

theorem marcObserve_map (hrun : marcMapApi s o w result = .ok (s', res))
    (x : Option CacheNucleusResult) (log : List MarcEvent) :
    (marcObserve s (.map o w result) s' x log = log ∧ s' = s) ∨
      ∃ next tabu, s.Ticks o w next tabu ∧
        s.Turned (arcApi.cacheLookup s.internal o).isSome next tabu s' ∧
        marcObserve s (.map o w result) s' x log =
          log ++ [marcEvent s (arcApi.cacheLookup s.internal o).isSome next] := by
  rcases marcMapApi_turned hrun with ⟨hno, rfl⟩ | ⟨hyes, next, tabu, hk, ht⟩
  · refine Or.inl ⟨?_, rfl⟩
    rw [marcObserve, hno]
    rfl
  · refine Or.inr ⟨next, tabu, hk, ht, ?_⟩
    rw [marcObserve, if_pos hyes, ht.state]
    rfl

theorem MarcPolicy.Tracked.of_run {c m : UInt32} {s0 : MarcPolicy}
    {t : List (Call × Option CacheNucleusResult)} (hc : 0 < c.toNat)
    (hinit : marcCreate c m = .ok s0) (hrun : marcObserved.Run (s0, []) t (s, log)) :
    s.Tracked c.toNat log := by
  have h0 : s0.Tracked c.toNat [] := by
    rw [marcCreate, arcCreate_eq, ok_bind, marcInit_eq] at hinit
    obtain rfl := Except.ok.inj hinit
    refine ⟨rfl, ?_, fun j e hj => ?_, fun j k e e' _ hj => ?_, ?_, rfl, rfl⟩
    · show c.toNat ≤ 2 * c.toNat + 0
      omega
    · cases hj
    · cases hj
    · show (Tools.windowStatsInit c.toNat).Holds c.toNat ([].rtake (min c.toNat 0))
      rw [List.rtake_nil]
      exact Tools.windowStatsInit_holds hc
  refine hrun.invariant (I := fun p => p.1.Tracked c.toNat p.2) h0 ?_
  intro p call p' x hp hg hstep
  obtain ⟨hcall, hlog⟩ := Lib.System.ghost_step.mp hstep
  rw [hlog]
  have hcall : marcApi.call p.1 call = .ok (p'.1, x) := hcall
  cases call with
  | map o w result =>
    obtain ⟨res, _, hmap⟩ := Policy.call_map.mp hcall
    rcases marcObserve_map hmap x p.2 with ⟨heq, hsame⟩ | ⟨next, tabu, hk, ht, heq⟩
    · rw [heq, hsame]
      exact hp
    · rw [heq]
      exact hp.step hc hk ht
  | migrated o =>
    obtain ⟨s1, hrun1, heq⟩ := map_eq_ok.mp hcall
    obtain ⟨i, _, hrun1⟩ := bind_eq_ok.mp hrun1
    obtain rfl := Except.ok.inj hrun1
    rw [← (Prod.mk.inj heq).1]
    exact ⟨hp.tabu, hp.spanned, hp.gaps, hp.apart, hp.sample, hp.phaseHits, hp.phaseIos⟩
  | insert o cb => exact hg.elim
  | remove o keep => exact hg.elim
  | remap a b => exact hg.elim
  | setTime t => exact hg.elim

theorem map_rtake {α β : Type*} (f : α → β) (l : List α) (n : Nat) :
    (l.map f).rtake n = (l.rtake n).map f := by
  rw [List.rtake, List.rtake, List.length_map, List.map_drop]

theorem rtake_rtake {α : Type*} (l : List α) {n k : Nat} (h : n ≤ k) :
    (l.rtake k).rtake n = l.rtake n := by
  simp only [List.rtake, List.length_drop, List.drop_drop]
  congr 1
  omega

/-- An evaluated request has `c - 1` requests before it since the last change. -/
theorem MarcPolicy.Tracked.since_le (h : s.Tracked c log)
    (heval : marcEvaluates s (s.counted o w) = true) : c ≤ (sinceChange log).length + 1 := by
  have hspan := h.spanned
  have hcount := marcEvaluates_counter heval
  omega

theorem MarcPolicy.Tracked.hrSample (h : s.Tracked c log) (hc : 0 < c)
    (heval : marcEvaluates s (s.counted o w) = true) (e : MarcEvent) : marcHrSample s e.hit =
      .ok (100 * (((log ++ [e]).rtake c).countP MarcEvent.hit) / c) := by
  have hsince := h.since_le heval
  have hsum : sub64 s.sample.sum (Tools.windowStatsPeek s.sample) + e.hit.toNat =
      ((log ++ [e]).rtake c).countP MarcEvent.hit := by
    have hlen : c ≤ ((log.map fun e => e.hit.toNat).rtake
        (min c (sinceChange log).length)).length + 1 := by
      have := sinceChange_le log
      simp only [List.rtake, List.length_drop, List.length_map]
      omega
    rw [h.sample.rest hlen, rtake_rtake _ (by omega), map_rtake, sum_hits]
    obtain ⟨k, rfl⟩ := Nat.exists_eq_add_of_lt hc
    rw [Nat.zero_add, List.rtake_concat_succ, List.countP_append, Nat.add_sub_cancel,
      List.countP_singleton]
    cases e.hit
    · rfl
    · rfl
  rw [marcHrSample, hsum, h.sample.size_eq, div64_of_pos hc]

theorem MarcPolicy.Tracked.hrState (h : s.Tracked c log) (e : MarcEvent) :
    marcHrState s e.hit = .ok (100 * ((marcPhase log ++ [e]).countP MarcEvent.hit) /
      (marcPhase log ++ [e]).length) := by
  rw [marcHrState, h.phaseHits, h.phaseIos, div64_of_pos (Nat.succ_pos _), List.countP_append,
    List.length_append, List.length_singleton, List.countP_singleton]
  cases e.hit
  · rfl
  · rfl

/-- mARC decides on the hit rates of the last `c` committed requests and of the phase under way,
the request `e` itself included, and its changes of state are far apart. -/
theorem marc_phases {c m : UInt32} {s0 : MarcPolicy} {t : List (Call × Option CacheNucleusResult)}
    (hc : 10 ≤ c.toNat) (hinit : marcCreate c m = .ok s0)
    (hrun : marcObserved.Run (s0, []) t (s, log)) :
    (∀ o w e, marcEvaluates s (s.counted o w) = true →
      e.hit = (arcApi.cacheLookup s.internal o).isSome →
      c.toNat ≤ (log ++ [e]).length ∧
      marcTransactionJudge s (marcTransactionInit s o w) = (do
        let mt ← marcTryTransition s
          { s.counted o w with tabuCounter := s.tabu, saveSampleAvg := true }
          (100 * (((log ++ [e]).rtake c.toNat).countP MarcEvent.hit) / c.toNat)
          (100 * ((marcPhase log ++ [e]).countP MarcEvent.hit) / (marcPhase log ++ [e]).length)
        return { mt with saveGhostHits := true })) ∧
    ∀ j k e e', j < k → log[j]? = some e → log[k]? = some e' → e.next.isSome = true →
      e'.next.isSome = true →
      c.toNat ≤ k - j ∧ (e.next = some .unstable → 2 * c.toNat ≤ k - j) := by
  have h := Tracked.of_run (by omega) hinit hrun
  refine ⟨fun o w e heval hhit => ⟨?_, ?_⟩, h.apart⟩
  · have hsince := h.since_le heval
    have hle := sinceChange_le log
    rw [List.length_append, List.length_singleton]
    omega
  · have hcounted : (s.counted o w).cHit = e.hit := hhit.symm
    have hsample := h.hrSample (by omega) heval e
    have hstate := h.hrState e
    rw [← hcounted] at hsample hstate
    have heval' : marcEvaluates s (marcTransactionCount s (marcTransactionInit s o w)) = true :=
      heval
    unfold marcTransactionJudge
    dsimp only
    rw [if_pos heval']
    unfold marcTransactionEvaluate
    dsimp only
    rw [show marcHrSample s (marcTransactionCount s (marcTransactionInit s o w)).cHit = _ from
      hsample, ok_bind, show marcHrState s
        (marcTransactionCount s (marcTransactionInit s o w)).cHit = _ from hstate, ok_bind]
    rfl

/-- One block comes in and is asked for eighteen times more. -/
def marcSettling : List Call :=
  [.map 0 false {}, .migrated 0] ++ List.replicate 18 (.map 0 false {})

/-- The twentieth request is the first that is evaluated: the last ten hit, and nineteen of
all twenty did. -/
theorem marc_phases_settled : ∃ s0 t s log, marcCreate 10 10 = .ok s0 ∧
    marcObserved.Run (s0, []) t (s, log) ∧
    marcTransactionJudge s (marcTransactionInit s 0 false) = (do
      let mt ← marcTryTransition s
        { s.counted 0 false with tabuCounter := s.tabu, saveSampleAvg := true } 100 95
      return { mt with saveGhostHits := true }) := by
  obtain ⟨s0, hinit, s, log, ws, hexec, heval, hhit, hsample, hphase, hlen⟩ : ∃ s0,
      marcCreate 10 10 = .ok s0 ∧ ∃ s log ws,
      marcObserved.exec (s0, []) marcSettling = .ok ((s, log), ws) ∧
      marcEvaluates s (s.counted 0 false) = true ∧
      (arcApi.cacheLookup s.internal 0).isSome = true ∧
      ((log ++ [MarcEvent.mk true none]).rtake 10).countP MarcEvent.hit = 10 ∧
      (marcPhase log ++ [MarcEvent.mk true none]).countP MarcEvent.hit = 19 ∧
      (marcPhase log ++ [MarcEvent.mk true none]).length = 20 :=
    ⟨_, rfl, _, _, _, rfl, rfl, rfl, rfl, rfl, rfl⟩
  have hcalls : ∀ e ∈ marcSettling, requestCalls e := by decide
  have hadm : marcObserved.Admits (s0, []) marcSettling :=
    Lib.System.admits_of_exec (fun e he _ => hcalls e he) hexec
  have hrun := Lib.System.Run.of_exec hadm hexec
  refine ⟨s0, _, s, log, hinit, hrun, ?_⟩
  have hjudge :=
    ((marc_phases (by decide) hinit hrun).1 0 false (MarcEvent.mk true none) heval hhit.symm).2
  rw [hjudge]
  show (do
    let mt ← marcTryTransition s
      { s.counted 0 false with tabuCounter := s.tabu, saveSampleAvg := true }
      (100 * ((log ++ [MarcEvent.mk true none]).rtake 10).countP MarcEvent.hit / 10)
      (100 * (marcPhase log ++ [MarcEvent.mk true none]).countP MarcEvent.hit /
        (marcPhase log ++ [MarcEvent.mk true none]).length)
    return { mt with saveGhostHits := true } : Exec MarcTransaction) = _
  rw [hsample, hphase, hlen]

end Fomo
