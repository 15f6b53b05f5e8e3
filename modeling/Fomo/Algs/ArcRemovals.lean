import Fomo.Algs.ArcBounds
import Fomo.Algs.ArcStructure
import Fomo.Include.Contract

/-!
# ARC under removals

A removal leaves a cache that is not full beside ghosts, which ARC's case analysis does
not expect. The bounds that survive decide, for every call, whether it answers, and for
every request, whether it is refused.
-/
namespace Fomo

/-- The calls of a caller that also rolls cached blocks back. -/
def arcRemovalCalls (arc : ArcPolicy) : Call → Prop
  | .map _ _ _ => True
  | .migrated o => arc.nucleus.MayMigrate o
  | .remove o _ => arc.nucleus.Cached o
  | _ => False

namespace ArcPolicy

/-- The entries on the four lists. -/
def tracked (arc : ArcPolicy) : Nat :=
  arc.length .t1 + arc.length .b1 + (arc.length .t2 + arc.length .b2)

/-- The ghost list an entry of the list goes to when it is removed to the history. -/
def historyOf (list : ArcList) : ArcList := if list = .t1 then .b1 else .b2

/-- An unknown block is not requested while the metadata pool is full beside a free slot and
REPLACE has a victim, nor in a full cache once the lists hold `2 ^ 32` entries; a block is
not removed to the history while the metadata pool is full and its ghost list is empty. -/
def Safe (arc : ArcPolicy) : Call → Prop
  | .map o _ _ =>
    hashLookup arc.nucleus o = none → arc.length .t1 + arc.length .b1 < arc.nucleus.cacheSize →
      (metaIsFull arc.nucleus = true → cacheIsFull arc.nucleus = false → arc.tracked < 2 ^ 32 →
        arc.arcQ (arcReplace arc (arcTransactionInit arc o)).cacheEvict = []) ∧
      (cacheIsFull arc.nucleus = true → arc.tracked < 2 ^ 32)
  | .remove o removeToHistory =>
    removeToHistory = true → metaIsFull arc.nucleus = true →
      ∀ e ∈ hashLookup arc.nucleus o, arc.arcQ (historyOf (arc.loc e)) ≠ []
  | _ => True

/-- What removals leave of the bounds of ARC with `c` slots and `c` ghost entries. -/
structure Tracked (c : Nat) (s : ArcPolicy) : Prop where
  inv : s.Inv
  cacheSize : s.nucleus.cacheSize = c
  cacheEntries : (s.nucleus.pool .cache).nrEntries = c
  metaEntries : (s.nucleus.pool .metadata).nrEntries = c
  l1 : s.length .t1 + s.length .b1 ≤ c

variable {s s' : ArcPolicy} {r : EntryRef} {e : Entry} {o : Oblock} {c : Nat} {list : ArcList}
  {at' : ArcTransaction}

theorem Tracked.lt (h : s.Tracked c) : c < 2 ^ 32 := by
  have := (h.inv.wf.pools .cache).nr_lt
  rwa [h.cacheEntries] at this

theorem Tracked.cached_le (h : s.Tracked c) : s.length .t1 + s.length .t2 ≤ c := by
  have h1 := h.inv.length_cache
  have h2 := (h.inv.wf.pools .cache).nr_allocated
  have h3 := h.cacheEntries
  omega

theorem Tracked.ghosts_le (h : s.Tracked c) : s.length .b1 + s.length .b2 ≤ c := by
  have h1 := h.inv.length_meta
  have h2 := (h.inv.wf.pools .metadata).nr_allocated
  have h3 := h.metaEntries
  omega

theorem Tracked.cache_full (h : s.Tracked c) :
    (s.nucleus.pool .cache).free = [] ↔ s.length .t1 + s.length .t2 = c := by
  have h1 := h.inv.length_cache
  have h2 := (h.inv.wf.pools .cache).nr_allocated
  have h3 := h.cacheEntries
  rw [← List.length_eq_zero_iff]
  omega

theorem Tracked.meta_full (h : s.Tracked c) :
    (s.nucleus.pool .metadata).free = [] ↔ s.length .b1 + s.length .b2 = c := by
  have h1 := h.inv.length_meta
  have h2 := (h.inv.wf.pools .metadata).nr_allocated
  have h3 := h.metaEntries
  rw [← List.length_eq_zero_iff]
  omega

/-- The sums of the transaction in terms of the entries tracked. -/
theorem Tracked.sums (h : s.Tracked c) :
    u32 (s.length .t1 + s.length .b1) = s.length .t1 + s.length .b1 ∧
    u32 (u32 (s.length .t1 + s.length .b1) + u32 (s.length .t2 + s.length .b2)) =
      u32 s.tracked := by
  have h1 := h.l1
  have h2 := h.lt
  rw [u32_of_lt (n := s.length .t1 + s.length .b1) (by omega)]
  refine ⟨rfl, ?_⟩
  unfold u32 tracked
  omega

theorem Tracked.tracked_le (h : s.Tracked c) : s.tracked ≤ 2 * c := by
  have h1 := h.cached_le
  have h2 := h.ghosts_le
  unfold tracked
  omega

/-- A wrapped sum is below the cache size. -/
theorem Tracked.u32_tracked (h : s.Tracked c) :
    (s.tracked < 2 ^ 32 ∧ u32 s.tracked = s.tracked) ∨
      (2 ^ 32 ≤ s.tracked ∧ u32 s.tracked < c) := by
  have h1 := h.tracked_le
  have h2 := h.lt
  unfold u32
  omega

theorem Tracked.sized (h : s.Tracked c) (hinv : s'.Inv)
    (hsize : s'.nucleus.cacheSize = s.nucleus.cacheSize)
    (hn : ∀ p, (s'.nucleus.pool p).nrEntries = (s.nucleus.pool p).nrEntries)
    (hl1 : s'.length .t1 + s'.length .b1 ≤ c) : s'.Tracked c :=
  ⟨hinv, hsize.trans h.cacheSize, (hn _).trans h.cacheEntries, (hn _).trans h.metaEntries, hl1⟩

/-! ## Requests -/

/-- A committed plan keeps the bound on `T1` and `B1`. -/
theorem Tracked.after (h : s.Tracked c) (hst : s.Staged o at') (hafter : s.After s' o at')
    (hcur : ¬(at'.currentLoc = .t1 ∨ at'.currentLoc = .t2)) :
    s'.length .t1 + s'.length .b1 ≤ c := by
  obtain ⟨hs1, hs2⟩ := h.sums
  have hl1 := h.l1
  have hsize := h.cacheSize
  have a1 := hafter .t1 (by decide)
  have b1 := hafter .b1 (by decide)
  cases hst with
  | @hit r hl hp =>
    exact absurd (h.inv.loc_of_cached (h.inv.wf.hashLookup_eq_some.mp hl).1 hp) hcur
  | b1 hl hloc =>
    rcases arcReplace_cases s { arcTransactionInit s o with
        currentLoc := .b1
        p := min s.nucleus.cacheSize (u32 (s.p + max (s.length .b2 / s.length .b1) 1)) } with
      ⟨_, _, heq⟩ | ⟨_, heq⟩
    all_goals
      rw [heq] at a1 b1
      simp [arcTransactionInit, ArcTransaction.ghostDest, one] at a1 b1
      omega
  | b2 hl hloc =>
    rcases arcReplace_cases s { arcTransactionInit s o with
        currentLoc := .b2
        p := if s.p > max (s.length .b1 / s.length .b2) 1 then
          s.p - max (s.length .b1 / s.length .b2) 1 else 0 } with ⟨_, _, heq⟩ | ⟨_, heq⟩
    all_goals
      rw [heq] at a1 b1
      simp [arcTransactionInit, ArcTransaction.ghostDest, one] at a1 b1
      omega
  | fullB1 habs hfull ht =>
    rcases arcReplace_cases s { arcTransactionInit s o with metaEvict := .b1 } with
      ⟨_, _, heq⟩ | ⟨_, heq⟩
    all_goals
      rw [heq] at a1 b1
      simp [ArcTransaction.ghostDest, one] at a1 b1
      omega
  | fullT1 habs hfull ht =>
    simp [arcTransactionInit, ArcTransaction.ghostDest, one] at a1 b1
    omega
  | fullB2 habs hlt hge h2 =>
    rcases arcReplace_cases s { arcTransactionInit s o with metaEvict := .b2 } with
      ⟨_, _, heq⟩ | ⟨_, heq⟩
    all_goals
      rw [heq] at a1 b1
      simp [ArcTransaction.ghostDest, one] at a1 b1
      omega
  | replace habs hlt hge h2 =>
    rcases arcReplace_cases s (arcTransactionInit s o) with ⟨_, _, heq⟩ | ⟨_, heq⟩
    all_goals
      rw [heq] at a1 b1
      simp [arcTransactionInit, ArcTransaction.ghostDest, one] at a1 b1
      omega
  | room habs hne hroom =>
    simp [arcTransactionInit, ArcTransaction.ghostDest, one] at a1 b1
    omega

/-- A committed miss had everything its plan counts on. -/
theorem Missed.not_stuck {w : Bool} {old : Oblock} {cb : Cblock} (hm : s.Missed o w at' old cb s')
    (h : s.Inv) (hpl : s.Planned o at') : ¬s.Stuck o at' := by
  obtain ⟨hmeta, forget, hq1, metaEvict, hq2, evict, ghost, free, arrive⟩ := hm
  rename_i s1 s2 s3 s4 rest
  have h0 := h.aim at'.p
  have h1 := forget.inv h0
  have hcpool := hpl.cachePool
  rintro (⟨hne, hq⟩ | ⟨hgd, hme, habs, hf⟩ | ⟨hce, hf⟩)
  · exact hmeta hne hq
  · -- nothing is freed in the metadata pool before the ghost is taken
    have hs1 : s1 = s.aim at'.p := by
      have hl := h.wf.hashLookup_eq_none.mpr habs
      rw [hl] at forget
      cases forget
      rfl
    have hs2 : s2 = s1 := by
      rw [hme, h.arcQ_null] at metaEvict
      cases metaEvict
      rfl
    subst hs2 hs1
    have hf3 : (s3.nucleus.pool .metadata).free = [] := by
      cases hx : queuePeek (s.arcQ at'.cacheEvict) with
      | none =>
        rw [hx] at evict
        cases evict
        exact hf
      | some v =>
        have hvp := h.pool_of_mem (List.mem_of_mem_head? hx)
        rw [hx] at evict
        cases evict with
        | some ha hs => exact (hs.rewrites.free_of_ne _ (by rw [hvp, hcpool]; decide)).trans hf
    cases hgx : at'.ghostDest with
    | null => exact hgd hgx
    | _ =>
      rw [hgx] at ghost
      cases ghost with
      | some hd hfree hs =>
        rw [hf3] at hfree
        cases hfree
  · have hmp := hpl.ghost_pool h
    have hf1 := (forget.cache h0 hpl.uncached).2.2
    have hf2 := (metaEvict.cache h1 hmp).2.2
    rw [hce, h.arcQ_null] at evict
    cases evict
    rw [ghost.cache.2, hf2, hf1] at free
    exact absurd (hf.symm.trans free) (by simp)

theorem metaIsFull_iff : metaIsFull s.nucleus = true ↔ (s.nucleus.pool .metadata).free = [] := by
  simp [metaIsFull, epoolEmpty]

theorem cacheIsFull_iff : cacheIsFull s.nucleus = true ↔ (s.nucleus.pool .cache).free = [] := by
  simp [cacheIsFull, epoolEmpty]

/-- A planned miss answers unless it is legal and stuck. -/
theorem Planned.answers (hpl : s.Planned o at') (h : s.Inv)
    (hset : arcTransactionSet s (arcTransactionInit s o) = .ok at') (w : Bool)
    (result : CacheNucleusResult) :
    (∃ x, arcMapApi s o w result = .ok x) ↔
      ((at'.cacheEvict ≠ .null → s.arcQ at'.cacheEvict ≠ []) → ¬s.Stuck o at') := by
  by_cases hlegal : at'.cacheEvict ≠ .null → s.arcQ at'.cacheEvict ≠ []
  · rw [arcMapApi_legal hset hlegal]
    rcases arcTransactionCommit_case h hpl hlegal w result with
      ⟨s5, res, cb, hrun, _, hmiss⟩ | ⟨f, hrun, hstuck⟩
    · refine iff_of_true ⟨_, by rw [hrun]; rfl⟩ fun _ => hmiss.not_stuck h hpl
    · refine iff_of_false ?_ fun hx => hx hlegal hstuck
      intro hx
      obtain ⟨x, hx⟩ := hx
      rw [hrun] at hx
      cases hx
  · have hc : at'.cacheEvict ≠ .null := fun hx => hlegal fun hy => absurd hx hy
    have hq : s.arcQ at'.cacheEvict = [] := by
      by_contra hx
      exact hlegal fun _ => hx
    exact iff_of_true ⟨_, arcMapApi_illegal hset hc hq w result⟩ fun hx => absurd hx hlegal

theorem arcReplace_ghostDest (s : ArcPolicy) (at' : ArcTransaction) :
    (arcReplace s at').ghostDest ≠ .null := by
  rcases arcReplace_cases s at' with ⟨_, _, heq⟩ | ⟨_, heq⟩
  all_goals
    rw [heq]
    simp [ArcTransaction.ghostDest]

/-- Which plans of a miss find everything they count on. -/
theorem Tracked.safe_iff (h : s.Tracked c) (hst : s.Staged o at') (hpl : s.Planned o at')
    (w : Bool) (result : CacheNucleusResult) :
    ((at'.cacheEvict ≠ .null → s.arcQ at'.cacheEvict ≠ []) → ¬s.Stuck o at') ↔
      s.Safe (.map o w result) := by
  obtain ⟨hs1, hs2⟩ := h.sums
  have hl1 := h.l1
  have hlt := h.lt
  have hsize := h.cacheSize
  have hwrap := h.u32_tracked
  have htr : s.tracked = s.length .t1 + s.length .b1 + (s.length .t2 + s.length .b2) := rfl
  have hcf := h.cache_full
  have hmf := h.meta_full
  have hcl := h.cached_le
  have hgl := h.ghosts_le
  rw [Safe, ← Bool.not_eq_true (cacheIsFull s.nucleus), cacheIsFull_iff, metaIsFull_iff, hcf, hmf,
    hsize]
  cases hst with
  | hit hl hp =>
    have := hpl.uncached _ hl
    rw [hp] at this
    cases this
  | b1 hl hloc =>
    exact iff_of_true (fun _ => arcReplace_known h.inv.wf hl rfl) fun hx => by simp [hl] at hx
  | b2 hl hloc =>
    exact iff_of_true (fun _ => arcReplace_known h.inv.wf hl rfl) fun hx => by simp [hl] at hx
  | fullB1 habs hfull ht =>
    have hpos : 0 < s.length .b1 := by omega
    have hq := h.inv.queue_ne_nil rfl hpos
    exact iff_of_true (fun _ => arcReplace_evicts (fun hx => by cases hx) hq) fun _ _ => by omega
  | fullT1 habs hfull ht =>
    exact iff_of_true (fun _ => not_stuck_of_no_ghost (fun hx => by cases hx) rfl
      (by simp [ArcTransaction.ghostDest, arcTransactionInit])) fun _ _ => by omega
  | fullB2 habs hl1c hge h2 =>
    have hall : s.length .t1 + s.length .t2 = c ∧ s.length .b1 + s.length .b2 = c := by
      unfold u32 at h2 hge hwrap hs2 hs1
      omega
    have hpos : 0 < s.length .b2 := by omega
    have hq := h.inv.queue_ne_nil rfl hpos
    exact iff_of_true (fun _ => arcReplace_evicts (fun hx => by cases hx) hq)
      fun _ _ => ⟨fun _ hx => absurd hall.1 hx, fun _ => by omega⟩
  | replace habs hl1c hge h2 =>
    have hnot : s.length .b1 + s.length .b2 = c → s.length .t1 + s.length .t2 ≠ c := by
      intro hb ht
      apply h2
      rw [hs2, htr, hsize]
      congr 1
      omega
    have hin : s.tracked < 2 ^ 32 := by omega
    unfold Stuck
    rw [hcf, hmf]
    constructor
    · intro hx _ _
      refine ⟨fun hm hc _ => ?_, fun _ => hin⟩
      by_contra hq
      exact hx (fun _ => hq) (Or.inr (Or.inl ⟨arcReplace_ghostDest _ _, arcReplace_metaEvict _ _,
        habs, hm⟩))
    · rintro hx hlegal (⟨hm, _⟩ | ⟨_, _, _, hf⟩ | ⟨hce, _⟩)
      · exact hm (arcReplace_metaEvict _ _)
      · exact hlegal (arcReplace_cacheEvict _ _)
          ((hx (h.inv.wf.hashLookup_eq_none.mpr habs) (by omega)).1 hf (hnot hf) hin)
      · exact arcReplace_cacheEvict _ _ hce
  | room habs hne hroom =>
    unfold Stuck
    rw [hcf, hmf]
    constructor
    · intro hx _ _
      refine ⟨fun hm hc ht => by omega, fun hc => ?_⟩
      exact absurd (Or.inr (Or.inr ⟨rfl, hc⟩)) (hx fun hn => absurd rfl hn)
    · rintro hx - (⟨hm, _⟩ | ⟨hgd, _⟩ | ⟨_, hf⟩)
      · exact hm rfl
      · simp [ArcTransaction.ghostDest, arcTransactionInit] at hgd
      · have := (hx (h.inv.wf.hashLookup_eq_none.mpr habs) (by omega)).2 hf
        omega

/-! ## Removals -/

/-- The ways the removal of the cached block `o` in `r` ends. -/
inductive RemoveCase (s : ArcPolicy) (r : EntryRef) (o : Oblock) : Bool → Exec ArcPolicy → Prop
  | plain {s1 : ArcPolicy} (hs : s.Frees r s1) : RemoveCase s r o false (.ok s1)
  | room {s1 s2 : ArcPolicy} (hs : s.Frees r s1) (hf : (s.nucleus.pool .metadata).free ≠ [])
      (ghost : s1.Ghosts o (historyOf (s.loc r)) s2) : RemoveCase s r o true (.ok s2)
  | evict {s1 s2 s3 : ArcPolicy} {g : EntryRef} {q : Queue} (hs : s.Frees r s1)
      (hf : (s.nucleus.pool .metadata).free = []) (hq : s.arcQ (historyOf (s.loc r)) = g :: q)
      (hg : s1.arcQ (historyOf (s.loc r)) = g :: q) (evict : s1.Frees g s2)
      (ghost : s2.Ghosts o (historyOf (s.loc r)) s3) : RemoveCase s r o true (.ok s3)
  | stuck (hf : (s.nucleus.pool .metadata).free = []) (hq : s.arcQ (historyOf (s.loc r)) = []) :
      RemoveCase s r o true (.error .nullPointer)

theorem historyOf_pool (list : ArcList) : (historyOf list).pool = .metadata := by
  unfold historyOf
  split
  · rfl
  · rfl

/-- A ghost of an unknown block finds its place. -/
theorem Inv.ghosts (h : s.Inv) (habs : s.nucleus.Absent o) (hd : list.pool = .metadata)
    (hf : (s.nucleus.pool .metadata).free ≠ []) :
    ∃ s', arcGhost s o list = .ok s' ∧ s.Ghosts o list s' := by
  obtain ⟨i, rest, hf⟩ := List.exists_cons_of_ne_nil hf
  obtain ⟨s', hrun, hs⟩ := arcGhost_spec h hf habs hd
  exact ⟨s', hrun, .some hd hf hs⟩

theorem arcRemoveApi_case (h : s.Inv) (hl : hashLookup s.nucleus o = some r) (hp : r.pool = .cache)
    (keep : Bool) : s.RemoveCase r o keep (arcRemoveApi s o keep) := by
  have ha := (h.wf.hashLookup_eq_some.mp hl).1
  obtain ⟨s1, hrun1, hs1⟩ := arcRemoveEntry_spec h ha
  have h1 : s1.Inv := hs1.inv
  have habs1 : s1.nucleus.Absent o := h.wf.absent_of_freed hl hs1.rewrites rfl
  have hdest := historyOf_pool (s.loc r)
  have hfree1 : (s1.nucleus.pool .metadata).free = (s.nucleus.pool .metadata).free :=
    hs1.rewrites.free_of_ne _ (by rw [hp]; decide)
  have hq1 : s1.arcQ (historyOf (s.loc r)) = s.arcQ (historyOf (s.loc r)) :=
    hs1.queue_of_pool h (by rw [hp, hdest]; decide)
  cases keep with
  | false =>
    have hrun : arcRemoveApi s o false = .ok s1 := by
      simp [arcRemoveApi, hl, hrun1]
    rw [hrun]
    exact .plain hs1
  | true =>
    have hrun : arcRemoveApi s o true = (do
        let arc ← (if metaIsFull s1.nucleus then
            (arcEvict s1 (historyOf (s.loc r)) {}).map Prod.fst
          else .ok s1)
        arcGhost arc o (historyOf (s.loc r))) := by
      cases hm : metaIsFull s1.nucleus with
      | false => simp [arcRemoveApi, hl, hrun1, inCache, hp, arcGhost, historyOf, hm]
      | true =>
        cases hx : arcEvict s1 (if s.loc r = .t1 then .b1 else .b2) {} with
        | error f => simp [arcRemoveApi, hl, hrun1, inCache, hp, historyOf, hm, hx, Except.map]
        | ok x =>
          simp [arcRemoveApi, hl, hrun1, inCache, hp, arcGhost, historyOf, hm, hx, Except.map]
    rw [hrun]
    by_cases hf : (s.nucleus.pool .metadata).free = []
    · rw [if_pos (metaIsFull_iff.mpr (hfree1.trans hf))]
      cases hq : s.arcQ (historyOf (s.loc r)) with
      | nil =>
        rw [arcEvict_nil (hq1.trans hq)]
        exact .stuck hf hq
      | cons g q =>
        obtain ⟨s2, hrun2, hs2⟩ := arcEvict_spec h1 (hq1.trans hq) {}
        have hg := (h1.head (hq1.trans hq)).1
        have hgp : g.pool = .metadata :=
          (h1.pool_of_mem (hq1.trans hq ▸ List.mem_cons_self)).trans hdest
        have hfree2 : (s2.nucleus.pool .metadata).free ≠ [] := by
          have := hs2.rewrites.free
          rw [hgp] at this
          rw [this]
          exact List.cons_ne_nil _ _
        obtain ⟨s3, hrun3, hs3⟩ := hs2.inv.ghosts
          (hs2.rewrites.absent habs1 fun hx => absurd hx (by simp [CacheNucleus.freedEntry]))
          hdest hfree2
        simp only [hrun2, Except.map, ok_bind, hrun3]
        exact .evict hs1 hf hq (hq1.trans hq) hs2 hs3
    · rw [if_neg fun hx => hf (hfree1.symm.trans (metaIsFull_iff.mp hx))]
      obtain ⟨s2, hrun2, hs2⟩ := h1.ghosts habs1 hdest fun hx => hf (hfree1.symm.trans hx)
      simp only [ok_bind, hrun2]
      exact .room hs1 hf hs2

theorem Frees.sizes (hs : s.Frees r s') : SameSizes s s' := Step.sizes hs

/-- A removal that answers keeps the bound. -/
theorem Tracked.remove (h : s.Tracked c) (hl : hashLookup s.nucleus o = some r)
    (hp : r.pool = .cache) {keep : Bool} (hcase : s.RemoveCase r o keep (.ok s')) :
    s'.Tracked c := by
  have ha := (h.inv.wf.hashLookup_eq_some.mp hl).1
  have hl1 := h.l1
  have hloc := h.inv.loc_of_cached ha hp
  cases hcase with
  | plain hs =>
    have t1 := hs.length h.inv ha .t1
    have b1 := hs.length h.inv ha .b1
    exact h.sized hs.inv hs.sizes.cacheSize hs.sizes.nrEntries (by omega)
  | @room s1 _ hs hf ghost =>
    have hsz := hs.sizes.trans ghost.sizes
    refine h.sized (ghost.inv hs.inv) hsz.cacheSize hsz.nrEntries ?_
    have t1 := hs.length h.inv ha .t1
    have b1 := hs.length h.inv ha .b1
    have t1' := ghost.length hs.inv (l := .t1) (by decide)
    have b1' := ghost.length hs.inv (l := .b1) (by decide)
    rcases hloc with hloc | hloc
    all_goals
      simp [hloc, historyOf, one] at t1 b1 t1' b1'
      omega
  | @evict s1 s2 _ g q hs hf hq hg evict ghost =>
    have hsz := (hs.sizes.trans evict.sizes).trans ghost.sizes
    refine h.sized (ghost.inv evict.inv) hsz.cacheSize hsz.nrEntries ?_
    obtain ⟨hga, _, hgl⟩ := hs.inv.head hg
    have t1 := hs.length h.inv ha .t1
    have b1 := hs.length h.inv ha .b1
    have t1' := evict.length hs.inv hga .t1
    have b1' := evict.length hs.inv hga .b1
    have t1'' := ghost.length evict.inv (l := .t1) (by decide)
    have b1'' := ghost.length evict.inv (l := .b1) (by decide)
    rcases hloc with hloc | hloc
    all_goals
      simp [hloc, hgl, historyOf, one] at t1 b1 t1' b1' t1'' b1''
      omega

/-! ## Runs -/

/-- A request answers exactly when it is safe, and keeps what is tracked. -/
theorem Tracked.map (h : s.Tracked c) (o : Oblock) (w : Bool) (result : CacheNucleusResult) :
    ((∃ s' res, arcApi.call s (.map o w result) = .ok (s', res)) ↔ s.Safe (.map o w result)) ∧
    ∀ s' res, arcApi.call s (.map o w result) = .ok (s', res) → s'.Tracked c := by
  constructor
  · obtain ⟨at', hset, hst⟩ := arcTransactionSet_staged h.inv o
    have hcall : (∃ s' res, arcApi.call s (.map o w result) = .ok (s', res)) ↔
        ∃ x, arcMapApi s o w result = .ok x := by
      constructor
      · intro hx
        obtain ⟨s', res, hx⟩ := hx
        obtain ⟨r, _, hmap⟩ := Policy.call_map.mp hx
        exact ⟨_, hmap⟩
      · intro hx
        obtain ⟨x, hx⟩ := hx
        exact ⟨x.1, some x.2, map_eq_ok.mpr ⟨x, hx, rfl⟩⟩
    rw [hcall]
    rcases hst.hit_or_planned h.inv with ⟨r, hl, hp, rfl⟩ | hpl
    · obtain ⟨s', hrun, _⟩ := arcTransactionCommit_hit hl hp h.inv result
      have hmap := arcMapApi_legal hset (fun hx => absurd rfl hx) w result
      rw [hrun] at hmap
      exact iff_of_true ⟨_, hmap⟩ fun hx => by simp [hl] at hx
    · rw [hpl.answers h.inv hset w result]
      exact h.safe_iff hst hpl w result
  · intro s' res hx
    obtain ⟨r, _, hmap⟩ := Policy.call_map.mp hx
    have hcase := arcMapApi_case h.inv o w result
    have hmap' : arcMapApi s o w result = .ok (s', r) := hmap
    rw [hmap'] at hcase
    cases hcase with
    | @hit x _ hl hp hs =>
      have ha := (h.inv.wf.hashLookup_eq_some.mp hl).1
      refine h.sized hs.inv hs.sizes.cacheSize hs.sizes.nrEntries ?_
      have hlen := hs.length h.inv (h.inv.wf.lt_of_allocated ha)
      simp only [inList_eq_one ha, inList_eq_one (e := { s.nucleus.entry x with
        dirty := (s.nucleus.entry x).dirty || w }) ha] at hlen
      have t1 := hlen .t1
      have b1 := hlen .b1
      have hl1 := h.l1
      simp [one] at t1 b1
      omega
    | @miss at' _ cb res hst hpl hne hres hmiss =>
      have hafter : s.After s' o at' := fun l hl => hmiss.length h.inv hne hl
      have hsz := hmiss.sizes
      exact h.sized hmiss.inv hsz.cacheSize hsz.nrEntries (h.after hst hafter hpl.currentLoc)
    | refused hst hpl hc hq => exact h

theorem Tracked.migrated (h : s.Tracked c) (hg : arcRemovalCalls s (.migrated o)) :
    ((∃ s' res, arcApi.call s (.migrated o) = .ok (s', res)) ↔ s.Safe (.migrated o)) ∧
    ∀ s' res, arcApi.call s (.migrated o) = .ok (s', res) → s'.Tracked c := by
  obtain ⟨cb, hcache, hm⟩ := hg
  have hl := h.inv.wf.caches_iff.mp hcache
  obtain ⟨s1, hrun, hs⟩ := arcMigratedApi_spec h.inv hl rfl hm
  refine ⟨iff_of_true ⟨s1, none, map_eq_ok.mpr ⟨_, hrun, rfl⟩⟩ trivial, fun s' res hx => ?_⟩
  obtain ⟨s2, hrun', heq⟩ := map_eq_ok.mp hx
  obtain rfl := Except.ok.inj (hrun.symm.trans hrun')
  obtain rfl := (Prod.mk.inj heq).1
  refine h.sized hs.inv hs.sizes.cacheSize hs.sizes.nrEntries ?_
  have hlen := hs.length h.inv (h.inv.wf.lt_of_allocated hcache.1)
  simp only [inList_eq_one hcache.1] at hlen
  have t1 := hlen .t1
  have b1 := hlen .b1
  have hl1 := h.l1
  simp only [inList_eq_one (e := { s.nucleus.entry ⟨.cache, cb⟩ with migrating := false })
    hcache.1] at t1 b1
  omega

theorem Tracked.removal (h : s.Tracked c) {keep : Bool} (hg : arcRemovalCalls s (.remove o keep)) :
    ((∃ s' res, arcApi.call s (.remove o keep) = .ok (s', res)) ↔ s.Safe (.remove o keep)) ∧
    ∀ s' res, arcApi.call s (.remove o keep) = .ok (s', res) → s'.Tracked c := by
  obtain ⟨cb, hcache⟩ := hg
  have hl := h.inv.wf.caches_iff.mp hcache
  have hcase := arcRemoveApi_case h.inv hl rfl keep
  have hsafe : s.Safe (.remove o keep) ↔ (keep = true → (s.nucleus.pool .metadata).free = [] →
      s.arcQ (historyOf (s.loc ⟨.cache, cb⟩)) ≠ []) := by
    rw [Safe, metaIsFull_iff, hl]
    simp
  rw [hsafe]
  constructor
  · generalize hx : arcRemoveApi s o keep = x at hcase
    cases hcase with
    | plain hs =>
      exact iff_of_true ⟨_, none, map_eq_ok.mpr ⟨_, hx, rfl⟩⟩ fun hk => by cases hk
    | room hs hf ghost =>
      exact iff_of_true ⟨_, none, map_eq_ok.mpr ⟨_, hx, rfl⟩⟩ fun _ hf' => absurd hf' hf
    | evict hs hf hq hg' evict ghost =>
      refine iff_of_true ⟨_, none, map_eq_ok.mpr ⟨_, hx, rfl⟩⟩ fun _ _ => ?_
      rw [hq]
      exact List.cons_ne_nil _ _
    | stuck hf hq =>
      refine iff_of_false ?_ fun hx => hx rfl hf hq
      intro hy
      obtain ⟨s', res, hy⟩ := hy
      obtain ⟨s2, hrun', _⟩ := map_eq_ok.mp hy
      cases hx.symm.trans hrun'
  · intro s' res hx
    obtain ⟨s2, hrun', heq⟩ := map_eq_ok.mp hx
    obtain rfl := (Prod.mk.inj heq).1
    have hrun : arcRemoveApi s o keep = .ok s2 := hrun'
    rw [hrun] at hcase
    exact h.remove hl rfl hcase

/-- A permitted call answers exactly when it is safe, and then keeps the bounds. -/
theorem Tracked.call (h : s.Tracked c) {call : Call} (hg : arcRemovalCalls s call) :
    ((∃ s' res, arcApi.call s call = .ok (s', res)) ↔ s.Safe call) ∧
    ∀ s' res, arcApi.call s call = .ok (s', res) → s'.Tracked c := by
  cases call with
  | map o w result => exact h.map o w result
  | migrated o => exact h.migrated hg
  | remove o keep => exact h.removal hg
  | insert o cb => exact hg.elim
  | remap a b => exact hg.elim
  | setTime t => exact hg.elim

theorem Tracked.of_reachable {c : UInt32} {s0 : ArcPolicy} (hinit : arcCreate c c = .ok s0)
    (hs : (arcApi.system arcRemovalCalls).Reachable s0 s) : s.Tracked c.toNat := by
  have h0 := arcCreate_bounded hinit
  apply hs.invariant (I := fun s => s.Tracked c.toNat)
    ⟨h0.inv, h0.cacheSize, h0.cacheEntries, h0.metaEntries, h0.l1⟩
  intro a call b w ha hg hcall
  exact (ha.call hg).2 b w hcall

/-! ## Refusals -/

/-- The target a request for `o` aims at. -/
def target (arc : ArcPolicy) (o : Oblock) : Nat :=
  match hashLookup arc.nucleus o with
  | none => arc.p
  | some r =>
    match arc.loc r with
    | .b1 => min arc.nucleus.cacheSize (u32 (arc.p + max (arc.length .b2 / arc.length .b1) 1))
    | .b2 => arc.p - max (arc.length .b1 / arc.length .b2) 1
    | _ => arc.p

/-- `o` is cached; or `T2` has a victim; or `o` is unknown and REPLACE is not asked, since `T1`
fills the cache or fewer blocks than it has slots are tracked; or REPLACE prefers `T1`. -/
def Serves (arc : ArcPolicy) (o : Oblock) : Prop :=
  arc.nucleus.Cached o ∨ 0 < arc.length .t2 ∨
  (arc.nucleus.Absent o ∧ (arc.length .t1 = arc.nucleus.cacheSize ∨
    (arc.length .t1 + arc.length .b1 < arc.nucleus.cacheSize ∧
      u32 arc.tracked < arc.nucleus.cacheSize))) ∨
  (1 ≤ arc.length .t1 ∧ (arc.target o < arc.length .t1 ∨
    (arc.length .t1 = arc.target o ∧ ∃ r ∈ hashLookup arc.nucleus o, arc.loc r = .b2)))

theorem Planned.refused (hpl : s.Planned o at') (h : s.Inv)
    (hset : arcTransactionSet s (arcTransactionInit s o) = .ok at') (w : Bool)
    (result : CacheNucleusResult) :
    (∀ s' res, arcMapApi s o w result = .ok (s', res) → res.op ≠ .fail) ↔
      (at'.cacheEvict ≠ .null → s.arcQ at'.cacheEvict ≠ []) := by
  constructor
  · intro hx hc hq
    exact hx _ _ (arcMapApi_illegal hset hc hq w result) rfl
  · intro hlegal s' res hx
    rw [arcMapApi_legal hset hlegal] at hx
    rcases arcTransactionCommit_case h hpl hlegal w result with
      ⟨s5, res', cb, hrun, hres, _⟩ | ⟨f, hrun, _⟩
    · rw [hrun] at hx
      obtain ⟨_, rfl⟩ := Prod.mk.inj (Except.ok.inj hx)
      rw [hres]
      cases queuePeek (s.arcQ at'.cacheEvict)
      all_goals
        simp only [evicted]
        split
        · decide
        · decide
    · rw [hrun] at hx
      cases hx

/-- Which plans of a miss have a victim. -/
theorem Tracked.serves_iff (h : s.Tracked c) (hc0 : 1 ≤ c)
    (hm : ∀ r, (s.nucleus.entry r).migrating = false) (hst : s.Staged o at')
    (hpl : s.Planned o at') :
    (at'.cacheEvict ≠ .null → s.arcQ at'.cacheEvict ≠ []) ↔ s.Serves o := by
  obtain ⟨hs1, hs2⟩ := h.sums
  have hl1 := h.l1
  have hsize := h.cacheSize
  have huncached : ¬s.nucleus.Cached o := by
    intro hx
    obtain ⟨cb, hx⟩ := hx
    cases hpl.uncached _ (h.inv.wf.caches_iff.mp hx)
  have hknown : ∀ {r}, hashLookup s.nucleus o = some r → ¬s.nucleus.Absent o := by
    intro r hl habs
    rw [h.inv.wf.hashLookup_eq_none.mpr habs] at hl
    cases hl
  cases hst with
  | hit hl hp =>
    have := hpl.uncached _ hl
    rw [hp] at this
    cases this
  | b1 hl hloc =>
    refine (h.inv.replace_iff hm _).trans ?_
    simp [Serves, huncached, hknown hl, target, hl, hloc]
  | b2 hl hloc =>
    refine (h.inv.replace_iff hm _).trans ?_
    have hsub : ∀ x y : Nat, (if x > y then x - y else 0) = x - y := by
      intro x y
      split <;> omega
    simp only [hsub]
    simp [Serves, huncached, hknown hl, target, hl, hloc]
  | fullB1 habs hfull ht =>
    refine (h.inv.replace_iff hm _).trans ?_
    have hl := h.inv.wf.hashLookup_eq_none.mpr habs
    have h1 : s.length .t1 ≠ s.nucleus.cacheSize := by omega
    have h2 : ¬s.length .t1 + s.length .b1 < s.nucleus.cacheSize := by omega
    simp [Serves, huncached, target, hl, h1, h2, arcTransactionInit]
  | fullT1 habs hfull ht =>
    refine iff_of_true (fun _ hq => ?_) (Or.inr (Or.inr (Or.inl ⟨habs, Or.inl (by omega)⟩)))
    have := (h.inv.queue_nil_iff hm .t1).mp hq
    omega
  | fullB2 habs hlt hge h2 =>
    refine (h.inv.replace_iff hm _).trans ?_
    have hl := h.inv.wf.hashLookup_eq_none.mpr habs
    have h1 : s.length .t1 ≠ s.nucleus.cacheSize := by omega
    have h2 : ¬u32 s.tracked < s.nucleus.cacheSize := by omega
    simp [Serves, huncached, target, hl, h1, h2, arcTransactionInit]
  | replace habs hlt hge h2 =>
    refine (h.inv.replace_iff hm _).trans ?_
    have hl := h.inv.wf.hashLookup_eq_none.mpr habs
    have h1 : s.length .t1 ≠ s.nucleus.cacheSize := by omega
    have h2 : ¬u32 s.tracked < s.nucleus.cacheSize := by omega
    simp [Serves, huncached, target, hl, h1, h2, arcTransactionInit]
  | room habs hne hroom =>
    have hlt : s.length .t1 + s.length .b1 < s.nucleus.cacheSize := by omega
    have htr : u32 s.tracked < s.nucleus.cacheSize := by
      rw [← hs2]
      exact hroom (by omega)
    exact iff_of_true (fun hx => absurd rfl hx)
      (Or.inr (Or.inr (Or.inl ⟨habs, Or.inr ⟨hlt, htr⟩⟩)))

end ArcPolicy

open ArcPolicy

variable {s : ArcPolicy}

/-- The run behind the failing removal: block 1 leaves its ghost in `B2`, block 2 lies in
`T1` of a cache with one slot. -/
def arcLastGhost : List Call :=
  [.map 1 false {}, .migrated 1, .map 1 false {}, .map 2 false {}, .migrated 2]

theorem arcLastGhost_admits {s0 : ArcPolicy} (hinit : arcCreate 1 1 = .ok s0) :
    (arcApi.system arcRemovalCalls).Admits s0 arcLastGhost := by
  rw [arcCreate_eq] at hinit
  obtain rfl := Except.ok.inj hinit
  exact And.intro trivial (And.intro (Exists.intro 0 (And.intro (And.intro rfl rfl) rfl))
    (And.intro trivial (And.intro trivial
      (And.intro (Exists.intro 0 (And.intro (And.intro rfl rfl) rfl)) trivial))))

theorem arcLastGhost_exec {s0 : ArcPolicy} (hinit : arcCreate 1 1 = .ok s0) :
    ∃ s ws, (arcApi.system arcRemovalCalls).exec s0 arcLastGhost = .ok (s, ws) ∧
      s.nucleus.Cached 2 ∧ metaIsFull s.nucleus = true ∧
      hashLookup s.nucleus 2 = some ⟨.cache, 0⟩ ∧ s.loc ⟨.cache, 0⟩ = .t1 ∧ s.arcQ .b1 = [] := by
  rw [arcCreate_eq] at hinit
  obtain rfl := Except.ok.inj hinit
  exact ⟨_, _, rfl, ⟨0, rfl, rfl⟩, rfl, rfl, rfl, rfl⟩

/-- Which calls answer, over every interleaving of requests, completed migrations and
removals. -/
theorem arc_removals {c : UInt32} {s0 : ArcPolicy} (hinit : arcCreate c c = .ok s0)
    (hs : (arcApi.system arcRemovalCalls).Reachable s0 s) {call : Call}
    (hg : arcRemovalCalls s call) :
    (∃ s' res, arcApi.call s call = .ok (s', res)) ↔ s.Safe call :=
  ((Tracked.of_reachable hinit hs).call hg).1

/-- The ghost of block 2 has no room, and `B1` has none to give. -/
theorem arc_removals_fault : ¬∀ (c : UInt32) (s0 s : ArcPolicy) (call : Call), 1 ≤ c.toNat →
    arcCreate c c = .ok s0 → (arcApi.system arcRemovalCalls).Reachable s0 s →
    arcRemovalCalls s call → ∃ s' res, arcApi.call s call = .ok (s', res) := by
  intro hall
  have hinit := arcCreate_eq 1 1
  obtain ⟨s, ws, hexec, hcached, hfull, hlook, hloc, hq⟩ := arcLastGhost_exec hinit
  have hrun := (Lib.System.Run.of_exec (arcLastGhost_admits hinit) hexec).reachable
  have hg : arcRemovalCalls s (.remove 2 true) := hcached
  have hsafe := ((Tracked.of_reachable hinit hrun).call hg).1.mp
    (hall 1 _ s _ (by decide) hinit hrun hcached)
  refine hsafe rfl hfull _ hlook ?_
  rw [hloc]
  exact hq

/-- Without the history block 2 can be removed. -/
theorem arc_removals_forgotten : ∃ s0 s, arcCreate 1 1 = .ok s0 ∧
    (arcApi.system arcRemovalCalls).Reachable s0 s ∧
    ∃ s' res, arcApi.call s (.remove 2 false) = .ok (s', res) := by
  have hinit := arcCreate_eq 1 1
  obtain ⟨s, ws, hexec, hcached, _⟩ := arcLastGhost_exec hinit
  have hrun := (Lib.System.Run.of_exec (arcLastGhost_admits hinit) hexec).reachable
  have hg : arcRemovalCalls s (.remove 2 false) := hcached
  exact ⟨_, s, hinit, hrun, (arc_removals hinit hrun hg).mpr fun hx => by cases hx⟩

/-- Which requests are refused while nothing migrates, over the same runs. -/
theorem arc_refusals {c : UInt32} {s0 : ArcPolicy} (hc0 : 1 ≤ c.toNat)
    (hinit : arcCreate c c = .ok s0) (hs : (arcApi.system arcRemovalCalls).Reachable s0 s)
    (hm : ∀ r, (s.nucleus.entry r).migrating = false) (o : Oblock) (w : Bool)
    (result : CacheNucleusResult) :
    (∀ s' res, arcMapApi s o w result = .ok (s', res) → res.op ≠ .fail) ↔ s.Serves o := by
  have h := Tracked.of_reachable hinit hs
  obtain ⟨at', hset, hst⟩ := arcTransactionSet_staged h.inv o
  rcases hst.hit_or_planned h.inv with ⟨r, hl, hp, rfl⟩ | hpl
  · have hcached : s.nucleus.Cached o := by
      obtain ⟨p, i⟩ := r
      obtain rfl : p = .cache := hp
      exact ⟨i, h.inv.wf.caches_iff.mpr hl⟩
    refine iff_of_true (fun s' res hx => ?_) (Or.inl hcached)
    have hmap := arcMapApi_legal hset (fun hx => absurd rfl hx) w result
    obtain ⟨s1, hrun, _⟩ := arcTransactionCommit_hit hl hp h.inv result
    rw [hrun, hx] at hmap
    obtain ⟨_, rfl⟩ := Prod.mk.inj (Except.ok.inj hmap)
    exact CacheNucleusOperation.noConfusion
  · rw [hpl.refused h.inv hset w result]
    exact h.serves_iff hc0 hm hst hpl

/-- The run behind the refusal: block 1 is removed to `B1` and the cache is empty. -/
def arcEmptied : List Call := [.map 1 false {}, .migrated 1, .remove 1 true]

theorem arcEmptied_admits {s0 : ArcPolicy} (hinit : arcCreate 1 1 = .ok s0) :
    (arcApi.system arcRemovalCalls).Admits s0 arcEmptied := by
  rw [arcCreate_eq] at hinit
  obtain rfl := Except.ok.inj hinit
  exact And.intro trivial (And.intro (Exists.intro 0 (And.intro (And.intro rfl rfl) rfl))
    (And.intro (Exists.intro 0 (And.intro rfl rfl)) trivial))

theorem arcEmptied_exec {s0 : ArcPolicy} (hinit : arcCreate 1 1 = .ok s0) :
    ∃ s ws, (arcApi.system arcRemovalCalls).exec s0 arcEmptied = .ok (s, ws) ∧
      (s.nucleus.pool .cache).migrating = [] ∧ (∃ s' res, arcMapApi s 1 false {} = .ok (s', res) ∧
      res.op = .fail) ∧ hashLookup s.nucleus 2 = none ∧ s.length .t1 = 0 ∧ s.length .b1 = 1 ∧
      s.length .t2 = 0 := by
  rw [arcCreate_eq] at hinit
  obtain rfl := Except.ok.inj hinit
  exact ⟨_, _, rfl, rfl, ⟨_, _, rfl, rfl⟩, rfl, rfl, rfl, rfl⟩

theorem ArcPolicy.Inv.settled_of_nil (h : s.Inv) (hm : (s.nucleus.pool .cache).migrating = []) :
    ∀ r, (s.nucleus.entry r).migrating = false := by
  rintro ⟨p, i⟩
  cases p with
  | metadata => exact h.settled _ rfl
  | cache =>
    have := (h.wf.pools .cache).mem_migrating i
    rw [hm] at this
    simpa [CacheNucleus.entry] using this

/-- The removed block is refused by an empty cache. -/
theorem arc_refusals_empty : ¬∀ (c : UInt32) (s0 s : ArcPolicy) (o : Oblock) (w : Bool)
    (result : CacheNucleusResult), 1 ≤ c.toNat → arcCreate c c = .ok s0 →
    (arcApi.system arcRemovalCalls).Reachable s0 s →
    (∀ r, (s.nucleus.entry r).migrating = false) →
    ∀ s' res, arcMapApi s o w result = .ok (s', res) → res.op ≠ .fail := by
  intro hall
  have hinit := arcCreate_eq 1 1
  obtain ⟨s, ws, hexec, hm, ⟨s', res, hmap, hop⟩, _⟩ := arcEmptied_exec hinit
  have hrun := (Lib.System.Run.of_exec (arcEmptied_admits hinit) hexec).reachable
  have h := Tracked.of_reachable hinit hrun
  exact hall 1 _ s 1 false {} (by decide) hinit hrun (h.inv.settled_of_nil hm) s' res hmap hop

/-- A block that was never seen is refused as well: its request goes through REPLACE. -/
theorem arc_refusals_unknown : ∃ s0 s, arcCreate 1 1 = .ok s0 ∧
    (arcApi.system arcRemovalCalls).Reachable s0 s ∧
    ¬∀ s' res, arcMapApi s 2 false {} = .ok (s', res) → res.op ≠ .fail := by
  have hinit := arcCreate_eq 1 1
  obtain ⟨s, ws, hexec, hm, _, hnone, ht1, hb1, ht2⟩ := arcEmptied_exec hinit
  have hrun := (Lib.System.Run.of_exec (arcEmptied_admits hinit) hexec).reachable
  have h := Tracked.of_reachable hinit hrun
  refine ⟨_, s, hinit, hrun, fun hx => ?_⟩
  have hserves := (arc_refusals (by decide) hinit hrun (h.inv.settled_of_nil hm) 2 false {}).mp hx
  have hsize : s.nucleus.cacheSize = 1 := h.cacheSize
  rcases hserves with ⟨cb, hc⟩ | hpos | ⟨_, hl⟩ | ⟨hpos, _⟩
  · rw [h.inv.wf.caches_iff, hnone] at hc
    cases hc
  · omega
  · omega
  · omega

end Fomo
