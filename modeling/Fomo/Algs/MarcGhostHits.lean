import Fomo.Algs.MarcPhases

/-!
# The ghost hits of mARC

A log beside the run holds one entry for each committed request. The counter of mARC follows the
ghost hits among them while the state is UNSTABLE; in the other states a hit ghost is removed,
and the branch that removes it does not count.
-/
namespace Fomo

/-- A committed request: whether it missed a full ARC for a block in the ghost queue, and the
state it was committed in. -/
structure MarcRequest where
  ghostHit : Bool
  state : MarcState

/-- The committed requests, and those since the last evaluation. An evaluation comes before the
commit of its own request, which is the first one since. -/
structure MarcGhostLog where
  all : List MarcRequest
  recent : List MarcRequest

/-- A request for `o` misses ARC while it is full, and finds `o` in the ghost queue. -/
def marcGhostHit (marc : MarcPolicy) (o : Oblock) : Bool :=
  !(arcApi.cacheLookup marc.internal o).isSome && arcApi.cacheIsFull marc.internal &&
    marc.ghostQ.any fun r => decide ((marc.nucleus.entry r).oblock = o)

/-- Writes a committed request to the log. -/
def marcGhostObserve (marc : MarcPolicy) (call : Call) (marc' : MarcPolicy)
    (_ : Option CacheNucleusResult) (log : MarcGhostLog) : MarcGhostLog :=
  match call with
  | .map o w _ =>
    if marcCommits marc o w then
      let e : MarcRequest := { ghostHit := marcGhostHit marc o, state := marc'.state }
      { all := log.all ++ [e]
        recent := if marcEvaluates marc (marc.counted o w) then [e] else log.recent ++ [e] }
    else log
  | _ => log

/-- mARC under requests and completed migrations, with the log of its ghost hits. -/
def marcGhostObserved :
    Lib.System (MarcPolicy × MarcGhostLog) Call (Option CacheNucleusResult) Fault :=
  (marcApi.system fun _ => requestCalls).ghost marcGhostObserve

/-- `filter_hr` of `marc_uniq_unst_check`. -/
def marcFilterHr (marc : MarcPolicy) : Exec Nat :=
  div64 (sub64 marc.ghostHits marc.ghostHitsOld * 100) marc.tabu

open MarcPolicy

variable {s s' : MarcPolicy} {mt mt' : MarcTransaction} {o : Oblock} {c : Nat} {w : Bool}
  {r : EntryRef} {result res : CacheNucleusResult} {log : MarcGhostLog}

/-! ## What a commit does to the counters -/

/-- The counters of the ghost hits are left alone. -/
structure MarcPolicy.SameHits (s s' : MarcPolicy) : Prop where
  ghostHits : s'.ghostHits = s.ghostHits
  ghostHitsOld : s'.ghostHitsOld = s.ghostHitsOld

theorem marcRemoveEntry_sameHits (hrun : marcRemoveEntry s r = .ok s') : s.SameHits s' := by
  obtain ⟨cn, _, hrun⟩ := bind_eq_ok.mp hrun
  exact Except.ok.inj hrun ▸ ⟨rfl, rfl⟩

theorem marcCommitMap_sameHits (hrun : marcCommitMap s mt result = .ok (s', res)) :
    s.SameHits s' := by
  unfold marcCommitMap at hrun
  split at hrun
  · obtain ⟨x, _, hrun⟩ := bind_eq_ok.mp hrun
    exact (Prod.mk.inj (Except.ok.inj hrun)).1 ▸ ⟨rfl, rfl⟩
  · exact (Prod.mk.inj (Except.ok.inj hrun)).1 ▸ ⟨rfl, rfl⟩

theorem marcCommitEvict_sameHits (hrun : marcCommitEvict s = .ok s') : s.SameHits s' := by
  unfold marcCommitEvict at hrun
  split at hrun
  · obtain ⟨me, _, hrun⟩ := bind_eq_ok.mp hrun
    exact marcRemoveEntry_sameHits hrun
  · exact Except.ok.inj hrun ▸ ⟨rfl, rfl⟩

theorem marcCommitStats_hits (hrun : marcCommitStats s mt = .ok s') :
    s'.ghostHits = s.ghostHits ∧
      s'.ghostHitsOld = if mt.saveGhostHits then s.ghostHits else s.ghostHitsOld := by
  obtain ⟨sample, _, hrun⟩ := bind_eq_ok.mp hrun
  dsimp only at hrun
  split at hrun
  · obtain ⟨avg, _, hrun⟩ := bind_eq_ok.mp hrun
    obtain ⟨sampleAvg, _, hrun⟩ := bind_eq_ok.mp hrun
    exact Except.ok.inj hrun ▸ ⟨rfl, rfl⟩
  · exact Except.ok.inj hrun ▸ ⟨rfl, rfl⟩

/-- Only a ghost that is removed and added again counts. -/
theorem marcCommitGhosts_hits (hrun : marcCommitGhosts s mt = .ok s') :
    s'.ghostHits = s.ghostHits + (mt.ghostRemove && mt.ghostAdd).toNat ∧
      s'.ghostHitsOld = s.ghostHitsOld := by
  unfold marcCommitGhosts at hrun
  split at hrun
  · next hboth =>
    obtain ⟨me, _, hrun⟩ := bind_eq_ok.mp hrun
    rw [hboth]
    exact Except.ok.inj hrun ▸ ⟨rfl, rfl⟩
  · next hboth =>
    rw [Bool.eq_false_of_not_eq_true hboth]
    split at hrun
    · obtain ⟨me, _, hrun⟩ := bind_eq_ok.mp hrun
      have hsame := marcRemoveEntry_sameHits hrun
      exact ⟨hsame.ghostHits, hsame.ghostHitsOld⟩
    · split at hrun
      · obtain ⟨x, _, hrun⟩ := bind_eq_ok.mp hrun
        exact Except.ok.inj hrun ▸ ⟨rfl, rfl⟩
      · exact Except.ok.inj hrun ▸ ⟨rfl, rfl⟩

theorem marcTransactionCommit_hits (hrun : marcTransactionCommit s mt result = .ok (s', res)) :
    s'.ghostHits = s.ghostHits + (mt.ghostRemove && mt.ghostAdd).toNat ∧
      s'.ghostHitsOld = if mt.saveGhostHits then s.ghostHits else s.ghostHitsOld := by
  obtain ⟨s1, h1, hrun⟩ := bind_eq_ok.mp hrun
  obtain ⟨s2, h2, hrun⟩ := bind_eq_ok.mp hrun
  obtain ⟨⟨s3, res3⟩, h3, hrun⟩ := bind_eq_ok.mp hrun
  obtain ⟨s4, h4, hrun⟩ := bind_eq_ok.mp hrun
  obtain ⟨rfl, _⟩ := Prod.mk.inj (Except.ok.inj hrun)
  obtain ⟨hstats, hold⟩ := marcCommitStats_hits h1
  obtain ⟨hghosts, hghostsOld⟩ := marcCommitGhosts_hits h2
  have hmap := marcCommitMap_sameHits h3
  have hevict := marcCommitEvict_sameHits h4
  constructor
  · rw [hevict.ghostHits, hmap.ghostHits, hghosts, hstats]
  · rw [hevict.ghostHitsOld, hmap.ghostHitsOld, hghostsOld, hold]

/-! ## What a request does to the counters -/

theorem MarcPolicy.Ghosts.marcGhostHit_eq (h : s.Ghosts c) (o : Oblock) : marcGhostHit s o =
    (!(arcApi.cacheLookup s.internal o).isSome && arcApi.cacheIsFull s.internal &&
      (hashLookup s.nucleus o).isSome) := by
  have hany : (s.ghostQ.any fun r => decide ((s.nucleus.entry r).oblock = o)) =
      (hashLookup s.nucleus o).isSome := by
    rw [Bool.eq_iff_iff, List.any_eq_true, Option.isSome_iff_exists]
    constructor
    · rintro ⟨r, hr, ho⟩
      exact ⟨r, h.wf.hashLookup_eq_some.mpr ⟨(h.mem r).mp hr, of_decide_eq_true ho⟩⟩
    · rintro ⟨r, hr⟩
      obtain ⟨ha, ho⟩ := h.wf.hashLookup_eq_some.mp hr
      exact ⟨r, (h.mem r).mpr ha, decide_eq_true ho⟩
  rw [marcGhostHit, hany]

/-- A transaction moves a ghost to the recent end for a ghost hit in the state UNSTABLE. -/
theorem MarcPolicy.Routed.counts (hr : s.Routed mt mt') (hu : s.Unrouted o w mt)
    (h : s.Ghosts c) : (mt'.ghostRemove && mt'.ghostAdd) =
      (marcGhostHit s o && decide (mt'.state = .unstable)) := by
  rw [h.marcGhostHit_eq, ← hu.cHit]
  cases hr with
  | hit hc hg =>
    show (mt.ghostRemove && mt.ghostAdd) = _
    rw [hu.ghostRemove, hc]
    rfl
  | plain hroom =>
    show (mt.ghostRemove && mt.ghostAdd) = _
    rw [hu.ghostRemove, hroom, Bool.and_false]
    rfl
  | ghost hc hfull hghost hg hadd =>
    rw [hu.oblock] at hghost
    rw [hc, hfull, hghost, hadd]
    rfl
  | add hc hfull hghost hg hfilter =>
    rw [hu.oblock] at hghost
    show (mt.ghostRemove && true) = _
    rw [hu.ghostRemove, hghost, Bool.and_false]
    rfl

theorem MarcPolicy.Judged.saves (h : s.Judged o w mt) :
    mt.saveGhostHits = marcEvaluates s (s.counted o w) := by
  cases h with
  | counted heval => exact heval.symm
  | stayed heval hsample hstate => exact heval.symm
  | changed hne heval hsample hstate => exact heval.symm

theorem MarcPolicy.Routed.saves (h : s.Routed mt mt') : mt'.saveGhostHits = mt.saveGhostHits := by
  cases h with
  | hit hc hg => rfl
  | plain hroom => rfl
  | ghost hc hfull hghost hg hadd => rfl
  | add hc hfull hghost hg hfilter => rfl

/-- The counters after a committed request. -/
structure MarcPolicy.Counted (s : MarcPolicy) (o : Oblock) (w : Bool) (s' : MarcPolicy) :
    Prop where
  ghostHits : s'.ghostHits =
    s.ghostHits + (marcGhostHit s o && decide (s'.state = .unstable)).toNat
  ghostHitsOld : s'.ghostHitsOld =
    if marcEvaluates s (s.counted o w) then s.ghostHits else s.ghostHitsOld
  state : marcEvaluates s (s.counted o w) = false → s'.state = s.state
  tabu : s'.tabu = s.tabu

theorem marcMapApi_counted (h : s.Ghosts c) (hrun : marcMapApi s o w result = .ok (s', res)) :
    (marcCommits s o w = false ∧ s' = s) ∨ (marcCommits s o w = true ∧ s.Counted o w s') := by
  obtain ⟨mt, hset, ⟨hleg, rfl, _⟩ | ⟨hleg, hcommit⟩⟩ := marcMapApi_ok hrun
  · refine Or.inl ⟨?_, rfl⟩
    rw [marcCommits, hset, ok_bind, hleg]
  · obtain ⟨mt1, hj, hr⟩ := marcTransactionSet_ok hset
    obtain ⟨next, tabu, hticks, hst⟩ := hj.staged
    obtain ⟨s1, h1, hsteady⟩ := marcTransactionCommit_steady hcommit
    have hturned := (marcCommitStats_turned (hr.staged hst) h1).steady hsteady
    have hstate : mt.state = s'.state := (hr.staged hst).state.trans hturned.state.symm
    obtain ⟨hhits, hold⟩ := marcTransactionCommit_hits hcommit
    rw [hr.counts hj.unrouted h, hstate] at hhits
    rw [hr.saves, hj.saves] at hold
    refine Or.inr ⟨?_, hhits, hold, fun heval => ?_, hturned.tabu⟩
    · rw [marcCommits, hset, ok_bind, hleg]
    · rw [hturned.state]
      cases hticks with
      | counted _ => rfl
      | stayed heval' => exact absurd (heval.symm.trans heval') (by decide)
      | changed heval' hne => exact absurd (heval.symm.trans heval') (by decide)

/-! ## Leaving UNIQUE -/

/-- A filter hit rate above 10 ends the state UNIQUE, whatever the other hit rates are. -/
theorem marcMapApi_leaves {hr : Nat} (hstate : s.state = .unique)
    (heval : marcEvaluates s (s.counted o w) = true) (hhr : marcFilterHr s = .ok hr)
    (hgt : 10 < hr) (hrun : marcMapApi s o w result = .ok (s', res))
    (hcommits : marcCommits s o w = true) : s'.state = .unstable := by
  obtain ⟨mt, hset, ⟨hleg, _⟩ | ⟨hleg, hcommit⟩⟩ := marcMapApi_ok hrun
  · rw [marcCommits, hset, ok_bind, hleg] at hcommits
    cases hcommits
  · obtain ⟨mt1, hjudge, hroute⟩ := bind_eq_ok.mp hset
    have hj := marcTransactionJudge_judged hjudge
    have hrouted := marcTransactionRoute_routed hj.unrouted hroute
    obtain ⟨next, tabu, _, hst⟩ := hj.staged
    obtain ⟨s1, h1, hsteady⟩ := marcTransactionCommit_steady hcommit
    have hturned := (marcCommitStats_turned (hrouted.staged hst) h1).steady hsteady
    have hnext : mt1.state = .unstable := by
      have heval' : marcEvaluates s (marcTransactionCount s (marcTransactionInit s o w)) = true :=
        heval
      unfold marcTransactionJudge at hjudge
      dsimp only at hjudge
      rw [if_pos heval'] at hjudge
      obtain ⟨hrSample, _, hjudge⟩ := bind_eq_ok.mp hjudge
      obtain ⟨hrState, _, hjudge⟩ := bind_eq_ok.mp hjudge
      obtain ⟨mt2, htry, hjudge⟩ := bind_eq_ok.mp hjudge
      rw [← Except.ok.inj hjudge]
      have hcheck : marcUniqUnstCheck s hrSample = .ok true := by
        have hdiv : div64 (sub64 s.ghostHits s.ghostHitsOld * 100) s.tabu = .ok hr := hhr
        rw [marcUniqUnstCheck, hdiv, ok_bind, decide_eq_true hgt]
        rfl
      unfold marcTryTransition at htry
      rw [hstate] at htry
      simp only [hcheck, ok_bind, if_true, pure_eq_ok] at htry
      rw [← Except.ok.inj htry]
      rfl
    rw [hturned.state, ← hst.state, hnext]

/-! ## Runs -/

/-- The requests that the code counts. -/
def MarcRequest.counted (e : MarcRequest) : Bool := e.ghostHit && decide (e.state = .unstable)

/-- What the counters say about the log. -/
structure MarcPolicy.Tallied (c : Nat) (s : MarcPolicy) (log : MarcGhostLog) : Prop where
  ghosts : s.Ghosts c
  tabu : s.tabu = c
  ghostHits : s.ghostHits = log.all.countP MarcRequest.counted
  since : s.ghostHits = s.ghostHitsOld + log.recent.countP MarcRequest.counted
  recent : ∀ e ∈ log.recent, e ∈ log.all ∧ e.state = s.state

theorem MarcPolicy.Tallied.commit (h : s.Tallied c log) (hk : s.Counted o w s')
    (hg : s'.Ghosts c) : s'.Tallied c (
      let e : MarcRequest := { ghostHit := marcGhostHit s o, state := s'.state }
      { all := log.all ++ [e]
        recent := if marcEvaluates s (s.counted o w) then [e] else log.recent ++ [e] }) := by
  dsimp only
  generalize he : MarcRequest.mk (marcGhostHit s o) s'.state = e
  have hstate : e.state = s'.state := he ▸ rfl
  have hcount : ∀ l : List MarcRequest, (l ++ [e]).countP MarcRequest.counted =
      l.countP MarcRequest.counted + e.counted.toNat := by
    intro l
    rw [List.countP_append, List.countP_singleton]
    cases e.counted
    · rfl
    · rfl
  have hhits : s'.ghostHits = s.ghostHits + e.counted.toNat := by
    rw [hk.ghostHits, ← he]
    rfl
  refine ⟨hg, hk.tabu.trans h.tabu, ?_, ?_, ?_⟩
  · rw [hhits, hcount, h.ghostHits]
  · rw [hhits, hk.ghostHitsOld]
    split
    · rw [← List.nil_append [e], hcount, List.countP_nil, Nat.zero_add]
    · rw [hcount, h.since, Nat.add_assoc]
  · split
    · intro x hx
      obtain rfl := List.mem_singleton.mp hx
      exact ⟨List.mem_append_right _ hx, hstate⟩
    · next heval =>
      intro x hx
      rcases List.mem_append.mp hx with hx | hx
      · obtain ⟨hall, hx⟩ := h.recent x hx
        refine ⟨List.mem_append_left _ hall, ?_⟩
        rw [hx, hk.state (Bool.eq_false_of_not_eq_true heval)]
      · obtain rfl := List.mem_singleton.mp hx
        exact ⟨List.mem_append_right _ (List.mem_singleton_self _), hstate⟩

theorem MarcPolicy.Tallied.of_run {c m : UInt32} {s0 : MarcPolicy}
    {t : List (Call × Option CacheNucleusResult)} (hinit : marcCreate c m = .ok s0)
    (hrun : marcGhostObserved.Run (s0, ⟨[], []⟩) t (s, log)) : s.Tallied c.toNat log := by
  have h0 : s0.Tallied c.toNat ⟨[], []⟩ := by
    obtain ⟨arc, _, hinit⟩ := bind_eq_ok.mp hinit
    have hg := (marcInit_ghosts hinit).1
    rw [marcInit_eq] at hinit
    obtain rfl := Except.ok.inj hinit
    exact ⟨hg, rfl, rfl, rfl, fun e he => absurd he List.not_mem_nil⟩
  refine hrun.invariant (I := fun p => p.1.Tallied c.toNat p.2) h0 ?_
  intro p call p' x hp hguard hstep
  obtain ⟨hcall, hlog⟩ := Lib.System.ghost_step.mp hstep
  rw [hlog]
  have hcall : marcApi.call p.1 call = .ok (p'.1, x) := hcall
  have hg := (marc_keeps c.toNat).call hp.ghosts hcall
  cases call with
  | map o w result =>
    obtain ⟨res, _, hmap⟩ := Policy.call_map.mp hcall
    rcases marcMapApi_counted hp.ghosts hmap with ⟨hno, hsame⟩ | ⟨hyes, hk⟩
    · rw [marcGhostObserve, hno, hsame]
      exact hp
    · rw [marcGhostObserve, if_pos hyes]
      exact hp.commit hk hg
  | migrated o =>
    obtain ⟨s1, hrun1, heq⟩ := map_eq_ok.mp hcall
    obtain ⟨i, _, hrun1⟩ := bind_eq_ok.mp hrun1
    obtain rfl := Except.ok.inj hrun1
    rw [← (Prod.mk.inj heq).1] at hg ⊢
    exact ⟨hg, hp.tabu, hp.ghostHits, hp.since, hp.recent⟩
  | insert o cb => exact hguard.elim
  | remove o keep => exact hguard.elim
  | remap a b => exact hguard.elim
  | setTime t => exact hguard.elim

/-- In the state UNIQUE no request since the last evaluation has counted. -/
theorem MarcPolicy.Tallied.filterHr (h : s.Tallied c log) (hc : 0 < c)
    (hstate : s.state = .unique) : marcFilterHr s = .ok 0 := by
  have hzero : log.recent.countP MarcRequest.counted = 0 := by
    rw [List.countP_eq_zero]
    intro e he
    rw [MarcRequest.counted, (h.recent e he).2, hstate]
    cases e.ghostHit
    · decide
    · decide
  have hsub : sub64 s.ghostHits s.ghostHitsOld = 0 := by
    rw [h.since, hzero, Nat.add_zero, sub64, if_pos (Nat.le_refl _), Nat.sub_self]
  rw [marcFilterHr, hsub, h.tabu, div64_of_pos hc, Nat.zero_mul, Nat.zero_div]

/-- What the ghost hits are counted for. -/
structure MarcPolicy.CountsGhostHits (s : MarcPolicy) (log : MarcGhostLog) : Prop where
  ghostHits : s.ghostHits = log.all.countP MarcRequest.ghostHit
  filterHr : ∀ o w, s.state = .unique → marcEvaluates s (s.counted o w) = true →
    marcFilterHr s = .ok (100 * log.recent.countP MarcRequest.ghostHit / s.tabu)
  leaves : ∀ o w result s' res hr, s.state = .unique →
    marcEvaluates s (s.counted o w) = true → marcFilterHr s = .ok hr → 10 < hr →
    marcMapApi s o w result = .ok (s', res) → marcCommits s o w = true → s'.state = .unstable

/-- After every run mARC has counted its ghost hits, and judges UNIQUE by them, exactly if each of
them was committed in the state UNSTABLE. -/
theorem marc_ghost_hits {c m : UInt32} {s0 : MarcPolicy}
    {t : List (Call × Option CacheNucleusResult)} (hc : 10 ≤ c.toNat)
    (hinit : marcCreate c m = .ok s0)
    (hrun : marcGhostObserved.Run (s0, ⟨[], []⟩) t (s, log)) :
    s.CountsGhostHits log ↔ ∀ e ∈ log.all, e.ghostHit = true → e.state = .unstable := by
  have h := Tallied.of_run hinit hrun
  constructor
  · intro hcounts e he hhit
    have heq : log.all.countP MarcRequest.counted = log.all.countP MarcRequest.ghostHit :=
      h.ghostHits.symm.trans hcounts.ghostHits
    have hand : log.all.countP MarcRequest.counted =
        (log.all.filter MarcRequest.ghostHit).countP fun e => decide (e.state = .unstable) := by
      rw [List.countP_filter]
      exact List.countP_congr fun e _ => by rw [MarcRequest.counted, Bool.and_comm]
    rw [hand, List.countP_eq_length_filter (p := MarcRequest.ghostHit), List.countP_eq_length]
      at heq
    exact of_decide_eq_true (heq e (List.mem_filter.mpr ⟨he, hhit⟩))
  · intro hall
    have hsame : ∀ l : List MarcRequest, l ⊆ log.all →
        l.countP MarcRequest.counted = l.countP MarcRequest.ghostHit := by
      intro l hl
      refine List.countP_congr fun e he => ?_
      rw [MarcRequest.counted, Bool.and_eq_true, decide_eq_true_iff]
      exact ⟨fun hx => hx.1, fun hx => ⟨hx, hall e (hl he) hx⟩⟩
    refine ⟨h.ghostHits.trans (hsame _ (List.Subset.refl _)), fun o w hst heval => ?_,
      fun o w result s' res hr hst heval hhr hgt hmap hcommits => ?_⟩
    · have hzero : log.recent.countP MarcRequest.ghostHit = 0 := by
        rw [List.countP_eq_zero]
        intro e he hhit
        obtain ⟨hmem, hstate⟩ := h.recent e he
        rw [hall e hmem hhit, hst] at hstate
        cases hstate
      rw [h.filterHr (by omega) hst, hzero, Nat.mul_zero, Nat.zero_div]
    · exact marcMapApi_leaves hst heval hhr hgt hmap hcommits

/-- Ten blocks fill ARC, hits on the first one change the state to STABLE, and another block is
asked for twice. -/
def marcFiltering : List Call :=
  [.map 0 false {}, .map 1 false {}, .map 2 false {}, .map 3 false {}, .map 4 false {},
    .map 5 false {}, .map 6 false {}, .map 7 false {}, .map 8 false {}, .map 9 false {},
    .migrated 0, .migrated 1] ++ List.replicate 10 (.map 0 false {}) ++
  [.map 10 false {}, .map 10 false {}]

set_option maxRecDepth 10000 in
/-- The other block is filtered, and the ghost that its second request hits goes uncounted. -/
theorem marc_ghost_hits_lost : ¬∀ (c m : UInt32) (s0 s : MarcPolicy)
    (t : List (Call × Option CacheNucleusResult)) (log : MarcGhostLog), 10 ≤ c.toNat →
    marcCreate c m = .ok s0 → marcGhostObserved.Run (s0, ⟨[], []⟩) t (s, log) →
    s.CountsGhostHits log := by
  intro hall
  obtain ⟨s0, hinit, s, log, ws, hexec, hhits, hcount⟩ : ∃ s0, marcCreate 10 10 = .ok s0 ∧
      ∃ s log ws, marcGhostObserved.exec (s0, ⟨[], []⟩) marcFiltering = .ok ((s, log), ws) ∧
      s.ghostHits = 0 ∧ log.all.countP MarcRequest.ghostHit = 1 :=
    ⟨_, rfl, _, _, _, rfl, rfl, rfl⟩
  have hcalls : ∀ e ∈ marcFiltering, requestCalls e := by decide
  have hadm : marcGhostObserved.Admits (s0, ⟨[], []⟩) marcFiltering :=
    Lib.System.admits_of_exec (fun e he _ => hcalls e he) hexec
  have hcounts := hall 10 10 s0 s _ log (by decide) hinit (Lib.System.Run.of_exec hadm hexec)
  have hone := hcounts.ghostHits
  rw [hhits, hcount] at hone
  cases hone

/-- Ten blocks fill ARC, two more replace the settled one, and the first of them comes back. -/
def marcReturning : List Call :=
  [.map 0 false {}, .map 1 false {}, .map 2 false {}, .map 3 false {}, .map 4 false {},
    .map 5 false {}, .map 6 false {}, .map 7 false {}, .map 8 false {}, .map 9 false {},
    .migrated 0, .map 10 false {}, .migrated 10, .map 11 false {}, .migrated 11, .map 10 false {}]

set_option maxRecDepth 10000 in
/-- A ghost hit in the state UNSTABLE. -/
theorem marc_ghost_hits_returned : ∃ s0 t s log, marcCreate 10 10 = .ok s0 ∧
    marcGhostObserved.Run (s0, ⟨[], []⟩) t (s, log) ∧
    log.all.countP MarcRequest.ghostHit = 1 ∧ s.CountsGhostHits log := by
  obtain ⟨s0, hinit, s, log, ws, hexec, hcount, hall⟩ : ∃ s0, marcCreate 10 10 = .ok s0 ∧
      ∃ s log ws, marcGhostObserved.exec (s0, ⟨[], []⟩) marcReturning = .ok ((s, log), ws) ∧
      log.all.countP MarcRequest.ghostHit = 1 ∧
      (log.all.all fun e => !e.ghostHit || decide (e.state = .unstable)) = true :=
    ⟨_, rfl, _, _, _, rfl, rfl, rfl⟩
  have hcalls : ∀ e ∈ marcReturning, requestCalls e := by decide
  have hadm : marcGhostObserved.Admits (s0, ⟨[], []⟩) marcReturning :=
    Lib.System.admits_of_exec (fun e he _ => hcalls e he) hexec
  have hrun := Lib.System.Run.of_exec hadm hexec
  refine ⟨s0, _, s, log, hinit, hrun, hcount, ?_⟩
  refine (marc_ghost_hits (by decide) hinit hrun).mpr fun e he hhit => ?_
  have he := List.all_eq_true.mp hall e he
  rw [hhit] at he
  exact of_decide_eq_true he

end Fomo
