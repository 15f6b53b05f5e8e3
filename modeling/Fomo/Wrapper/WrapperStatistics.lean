import Fomo.Algs.Statistics
import Fomo.Mstar.MstarPrediction
import Fomo.Wrapper.PolicyRegistry

/-!
# What the wrappers report

A wrapper reports the counters of the policy below it, with its own filtered requests on top of
the filtered ones there. It never adds the requests it filtered to the total.
-/
namespace Fomo

open CacheNucleus

/-- The counters of the policy below, and `n` filtered requests on top. -/
def PolicyStats.plusFilters (stats : PolicyStats) (n : Nat) : PolicyStats :=
  { stats with filters := u32 (stats.filters + n) }

theorem PolicyStats.plusFilters_after (stats : PolicyStats) (n : Nat)
    {op : CacheNucleusOperation} (hop : op ≠ .filter) :
    (stats.after op).wrapped.plusFilters n = (stats.wrapped.plusFilters n).forwarded op := by
  rw [forwarded, if_neg hop]
  cases op with
  | filter => exact absurd rfl hop
  | _ => simp [after, wrapped, plusFilters, u32_u32, u32_succ]

theorem PolicyStats.plusFilters_succ (stats : PolicyStats) (n : Nat) :
    stats.plusFilters (u32 (n + 1)) = (stats.plusFilters n).forwarded .filter := by
  simp [forwarded, plusFilters, u32, Nat.add_assoc]

theorem PolicyStats.plusFilters_promoted (cn : CacheNucleus) (n : Nat) :
    cn.incPromotions.stats.wrapped.plusFilters n = { cn.stats.wrapped.plusFilters n with
      promotions := u32 ((cn.stats.wrapped.plusFilters n).promotions + 1) } := by
  simp [incPromotions, wrapped, plusFilters, u32_u32, u32_succ]

/-- The counters of a policy below come up through an addition, in 32 bits. -/
theorem defaultGetStats_empty (cn : CacheNucleus) : defaultGetStats cn {} = cn.stats.wrapped := by
  simp only [defaultGetStats, Nat.zero_add, PolicyStats.wrapped]

/-- LRU never filters. -/
theorem lruMapApi_admits {s s' : LruPolicy} {o : Oblock} {w : Bool}
    {result res : CacheNucleusResult} (h : s.Inv)
    (hmap : lruMapApi s o w result = .ok (s', res)) : s'.Inv ∧ res.op ≠ .filter := by
  have hcase := lruMapApi_case h o w result
  rw [hmap] at hcase
  cases hcase with
  | hit hl hs => exact ⟨hs.inv, by simp⟩
  | new habs hf hs => exact ⟨hs.inv, by simp⟩
  | replace habs hf hq hs => exact ⟨hs.inv, by simp⟩
  | fail habs hf hq => exact ⟨h, by simp⟩

variable {o : Oblock} {w : Bool} {r : EntryRef} {result res : CacheNucleusResult}

/-! ## FOMO over LRU -/

section Fomo

open FomoPolicy

variable {σ : Type} {P : Policy σ} {f f' : FomoPolicy σ}

theorem fomoRemoveEntry_stats (hrun : fomoRemoveEntry f r = .ok f') :
    f'.nucleus.stats = f.nucleus.stats := by
  obtain ⟨cn, hrem, hrun⟩ := bind_eq_ok.mp hrun
  rw [← Except.ok.inj hrun]
  exact cacheNucleusRemove_stats hrem

theorem fomoCommitHistory_stats {ft : FomoTransaction} (hrun : fomoCommitHistory f ft = .ok f') :
    f'.nucleus.stats = f.nucleus.stats := by
  unfold fomoCommitHistory at hrun
  split at hrun
  · split at hrun
    · obtain ⟨fe, _, hrun⟩ := bind_eq_ok.mp hrun
      exact fomoRemoveEntry_stats hrun
    · exact Except.ok.inj hrun ▸ rfl
  · split at hrun
    · obtain ⟨fe, _, hrun⟩ := bind_eq_ok.mp hrun
      split at hrun
      · exact fomoRemoveEntry_stats hrun
      · exact Except.ok.inj hrun ▸ rfl
    · dsimp only at hrun
      split at hrun
      · obtain ⟨lru, _, hrun⟩ := bind_eq_ok.mp hrun
        obtain ⟨f1, hrem, hrun⟩ := bind_eq_ok.mp hrun
        obtain ⟨⟨cn, fe⟩, hins, hrun⟩ := bind_eq_ok.mp hrun
        rw [← Except.ok.inj hrun]
        exact (insertInMeta_stats hins).trans (fomoRemoveEntry_stats hrem)
      · rw [ok_bind] at hrun
        obtain ⟨⟨cn, fe⟩, hins, hrun⟩ := bind_eq_ok.mp hrun
        rw [← Except.ok.inj hrun]
        exact insertInMeta_stats hins

/-- Only a request that FOMO filters moves the counters of FOMO. -/
theorem fomoMap_stats (hmap : fomoMap P f o w result = .ok (f', res)) :
    (f.filters P o → res.op = .filter ∧ f'.nucleus.stats = f.nucleus.incFilters.stats) ∧
      (¬f.filters P o → f'.nucleus.stats = f.nucleus.stats) := by
  have hunf : fomoMap P f o w result = (do
      let x ← fomoTransactionIsLegal P f (fomoStaged P f o)
      if x.2 then fomoTransactionCommit P x.1 (fomoStaged P f o) { result with op := .fail }
      else return (x.1, { result with op := .fail })) := rfl
  rw [hunf, fomoTransactionIsLegal_staged] at hmap
  have hfilter : (fomoStaged P f o).filter = decide (f.filters P o) := by rw [fomoStaged_eq]
  by_cases hf : f.filters P o
  · rw [if_pos hf, ok_bind, if_pos rfl] at hmap
    obtain ⟨f1, hrun1, hmap⟩ := bind_eq_ok.mp hmap
    rw [if_pos (by rw [hfilter]; exact decide_eq_true hf)] at hmap
    obtain ⟨rfl, rfl⟩ := Prod.mk.inj (Except.ok.inj hmap)
    refine ⟨fun _ => ⟨rfl, ?_⟩, fun hno => absurd hf hno⟩
    simp only [incFilters, fomoCommitHistory_stats hrun1]
  · refine ⟨fun hyes => absurd hyes hf, fun _ => ?_⟩
    rw [if_neg hf] at hmap
    obtain ⟨⟨f1, legal⟩, hleg, hmap⟩ := bind_eq_ok.mp hmap
    obtain ⟨⟨i, op, v⟩, hv, heq⟩ := map_eq_ok.mp hleg
    obtain ⟨rfl, rfl⟩ := Prod.mk.inj heq
    dsimp only at hmap
    split at hmap
    · obtain ⟨f2, hrun2, hmap⟩ := bind_eq_ok.mp hmap
      rw [if_neg (by rw [hfilter, decide_eq_false hf]; simp)] at hmap
      obtain ⟨⟨i', res'⟩, _, hmap⟩ := bind_eq_ok.mp hmap
      obtain ⟨rfl, _⟩ := Prod.mk.inj (Except.ok.inj hmap)
      have hstats := fomoCommitHistory_stats hrun2
      exact hstats
    · obtain ⟨rfl, _⟩ := Prod.mk.inj (Except.ok.inj hmap)
      rfl

theorem fomoGetStats_lru (f : FomoPolicy LruPolicy) : (fomoApi lruApi).getStats f {} =
    f.internal.nucleus.stats.wrapped.plusFilters f.nucleus.stats.filters := by
  show fomoGetStats lruApi f {} = _
  rw [← defaultGetStats_empty]
  rfl

theorem fomo_lru_forwards : (fomoApi lruApi).Forwards (fun f => f.internal.Inv)
    (fun f o _ => ¬f.filters lruApi o) where
  map := by
    intro f f' o w result res h hmap
    have hmap : fomoMap lruApi f o w result = .ok (f', res) := hmap
    obtain ⟨hfilter, hpass⟩ := fomoMap_stats hmap
    rw [fomoGetStats_lru, fomoGetStats_lru]
    cases fomoMap_answered hmap with
    | filtered hf hst hi =>
      obtain ⟨hop, hstats⟩ := hfilter hf
      rw [hi, hop, hstats]
      exact ⟨h, by simpa using hf, PolicyStats.plusFilters_succ _ _⟩
    | refused hf hv hst hres =>
      obtain ⟨op', v', hv'⟩ := lruNextVictimApi_state f.internal o
      have hi : f'.internal = f.internal :=
        (Prod.mk.inj (Except.ok.inj (hv.symm.trans hv'))).1
      rw [hi, hres, hpass hf]
      exact ⟨h, by simpa using hf, rfl⟩
    | admitted hf hv hop hm hst =>
      obtain ⟨op', v', hv'⟩ := lruNextVictimApi_state f.internal o
      obtain rfl := (Prod.mk.inj (Except.ok.inj (hv'.symm.trans hv))).1
      obtain ⟨hi, hno⟩ := lruMapApi_admits h hm
      refine ⟨hi, iff_of_false hno fun hx => hx hf, ?_⟩
      rw [hpass hf, show f'.internal.nucleus.stats = _ from lru_counts.map h hm,
        PolicyStats.plusFilters_after _ _ hno]
      rfl
  migrated := by
    intro f f' o h hrun
    obtain ⟨i, hi, hrun⟩ := bind_eq_ok.mp hrun
    obtain rfl := Except.ok.inj hrun
    obtain ⟨r, hl, hstep⟩ := lruMigratedApi_step h hi
    refine ⟨hstep.inv, ?_⟩
    rw [fomoGetStats_lru, fomoGetStats_lru, show i.nucleus.stats = _ from lru_counts.migrated h hi]
    exact PolicyStats.plusFilters_promoted _ _

end Fomo

/-! ## m* over LRU -/

section Mstar

open MstarPolicy

variable {σ : Type} {P : Policy σ} {m m' : MstarPolicy σ} {hit ghost : Bool}

theorem mstarOnlyRemove_stats (hrun : mstarOnlyRemove m r = .ok m') :
    m'.nucleus.stats = m.nucleus.stats := by
  obtain ⟨cn, hrem, hrun⟩ := bind_eq_ok.mp hrun
  rw [← Except.ok.inj hrun]
  exact cacheNucleusRemove_stats hrem

theorem mstarPushGhost_stats (hrun : mstarPushGhost m o = .ok m') :
    m'.nucleus.stats = m.nucleus.stats := by
  obtain ⟨⟨cn, me⟩, hins, hrun⟩ := bind_eq_ok.mp hrun
  rw [← Except.ok.inj hrun]
  exact insertInMeta_stats hins

theorem mstarIncreaseGhostSize_nucleus (hrun : mstarIncreaseGhostSize m = .ok m') :
    m'.nucleus = m.nucleus := by
  obtain ⟨_, _, hrun⟩ := bind_eq_ok.mp hrun
  obtain ⟨tmp, _, hrun⟩ := bind_eq_ok.mp hrun
  exact Except.ok.inj hrun ▸ rfl

theorem mstarDecreaseGhostSize_nucleus (hrun : mstarDecreaseGhostSize m = .ok m') :
    m'.nucleus = m.nucleus := by
  obtain ⟨_, _, hrun⟩ := bind_eq_ok.mp hrun
  obtain ⟨tmp, _, hrun⟩ := bind_eq_ok.mp hrun
  split at hrun
  · exact Except.ok.inj hrun ▸ rfl
  · exact Except.ok.inj hrun ▸ rfl

theorem mstarGhostLengthControl_stats (hrun : mstarGhostLengthControl m = .ok m') :
    m'.nucleus.stats = m.nucleus.stats := by
  unfold mstarGhostLengthControl at hrun
  split at hrun
  · unfold mstarEvict at hrun
    split at hrun
    · cases hrun
    · exact (mstarOnlyRemove_stats hrun).trans rfl
  · exact Except.ok.inj hrun ▸ rfl

theorem mstarMapInternal_nucleus (hrun : mstarMapInternal P m o w result = .ok (m', res)) :
    m'.nucleus = m.nucleus := by
  obtain ⟨x, _, hrun⟩ := bind_eq_ok.mp hrun
  exact (Prod.mk.inj (Except.ok.inj hrun)).1 ▸ rfl

theorem mstarHit_nucleus (hrun : mstarHit P m o w result = .ok (m', res)) :
    m'.nucleus = m.nucleus := by
  obtain ⟨x, hx, hrun⟩ := bind_eq_ok.mp hrun
  dsimp only at hrun
  split at hrun
  · obtain ⟨m2, hdec, hrun⟩ := bind_eq_ok.mp hrun
    obtain ⟨rfl, _⟩ := Prod.mk.inj (Except.ok.inj hrun)
    exact (mstarDecreaseGhostSize_nucleus hdec).trans (mstarMapInternal_nucleus hx)
  · obtain ⟨rfl, _⟩ := Prod.mk.inj (Except.ok.inj hrun)
    exact mstarMapInternal_nucleus hx

theorem mstarGhostHit_stats (hrun : mstarGhostHit P m o w result = .ok (m', res)) :
    m'.nucleus.stats = m.nucleus.stats := by
  unfold mstarGhostHit at hrun
  split at hrun
  · obtain ⟨e, _, hrun⟩ := bind_eq_ok.mp hrun
    obtain ⟨m1, hrem, hrun⟩ := bind_eq_ok.mp hrun
    have h1 := mstarOnlyRemove_stats hrem
    split at hrun
    · obtain ⟨m2, hpush, hrun⟩ := bind_eq_ok.mp hrun
      obtain ⟨m3, hinc, hrun⟩ := bind_eq_ok.mp hrun
      rw [mstarMapInternal_nucleus hrun, mstarIncreaseGhostSize_nucleus hinc,
        mstarPushGhost_stats hpush, h1]
    · rw [ok_bind] at hrun
      obtain ⟨m3, hinc, hrun⟩ := bind_eq_ok.mp hrun
      rw [mstarMapInternal_nucleus hrun, mstarIncreaseGhostSize_nucleus hinc, h1]
  · rw [ok_bind] at hrun
    rw [mstarMapInternal_nucleus hrun]

/-- A miss of an unknown block is filtered when the cache is full and the state is not
UNSTABLE. -/
theorem mstarGhostMiss_stats (hrun : mstarGhostMiss P m o w result = .ok (m', res)) :
    m'.nucleus.stats =
      if P.cacheIsFull m.internal = true ∧ m.logic.state ≠ .unstable then
        m.nucleus.incFilters.incIos.stats
      else m.nucleus.stats := by
  unfold mstarGhostMiss at hrun
  split at hrun
  · next hfull =>
    obtain ⟨m1, hpush, hrun⟩ := bind_eq_ok.mp hrun
    obtain ⟨m2, hinc, hrun⟩ := bind_eq_ok.mp hrun
    have hk := (keeps_pushGhost hpush).trans (keeps_increase hinc)
    have h2 : m2.nucleus.stats = m.nucleus.stats := by
      rw [mstarIncreaseGhostSize_nucleus hinc, mstarPushGhost_stats hpush]
    split at hrun
    · next hst =>
      rw [if_pos ⟨hfull, hk.logic ▸ hst⟩]
      obtain ⟨rfl, _⟩ := Prod.mk.inj (Except.ok.inj hrun)
      simp only [incFilters, incIos, h2]
    · next hst =>
      rw [if_neg fun hx => hst (hk.logic ▸ hx.2), mstarMapInternal_nucleus hrun, h2]
  · next hroom =>
    rw [if_neg fun hx => hroom hx.1, mstarMapInternal_nucleus hrun]

/-- A request with these answers of the two lookups is filtered. -/
def MstarPolicy.Filters (P : Policy σ) (m : MstarPolicy σ) (hit ghost : Bool) : Prop :=
  hit = false ∧ ghost = false ∧ P.cacheIsFull m.internal = true ∧ m.logic.state ≠ .unstable

instance : Decidable (m.Filters P hit ghost) := inferInstanceAs (Decidable (_ ∧ _))

theorem mstarServe_stats (hrun : mstarServe P m o w hit ghost result = .ok (m', res)) :
    m'.nucleus.stats = if m.Filters P hit ghost then m.nucleus.incFilters.incIos.stats
      else m.nucleus.stats := by
  unfold mstarServe at hrun
  cases hit with
  | true => rw [if_neg (by simp [Filters]), mstarHit_nucleus hrun]
  | false =>
    cases ghost with
    | true => rw [if_neg (by simp [Filters]), mstarGhostHit_stats hrun]
    | false =>
      rw [mstarGhostMiss_stats hrun]
      simp only [Filters, true_and]

/-- A cache that has room gets the request. -/
theorem mstarServe_asks (hroom : P.cacheIsFull m.internal = false)
    (hrun : mstarServe P m o w hit ghost result = .ok (m', res)) :
    P.map m.internal o w result = .ok (m'.internal, res) := by
  have hask : ∀ {m' res}, mstarMapInternal P m o w result = .ok (m', res) →
      P.map m.internal o w result = .ok (m'.internal, res) := by
    intro m' res h
    obtain ⟨x, hx, h⟩ := bind_eq_ok.mp h
    obtain ⟨rfl, rfl⟩ := Prod.mk.inj (Except.ok.inj h)
    exact hx
  unfold mstarServe at hrun
  split at hrun
  · obtain ⟨x, hx, hrun⟩ := bind_eq_ok.mp hrun
    have hx := hask hx
    dsimp only at hrun
    split at hrun
    · obtain ⟨m2, hdec, hrun⟩ := bind_eq_ok.mp hrun
      obtain ⟨rfl, rfl⟩ := Prod.mk.inj (Except.ok.inj hrun)
      exact (keeps_decrease hdec).internal ▸ hx
    · obtain ⟨rfl, rfl⟩ := Prod.mk.inj (Except.ok.inj hrun)
      exact hx
  · split at hrun
    · rw [mstarGhostHit] at hrun
      simp only [hroom, Bool.false_eq_true, if_false, ok_bind] at hrun
      exact hask hrun
    · rw [mstarGhostMiss, if_neg (by simp [hroom])] at hrun
      exact hask hrun

theorem mstarGetStats_lru (m : MstarPolicy LruPolicy) : (mstarApi lruApi).getStats m {} =
    m.internal.nucleus.stats.wrapped.plusFilters m.nucleus.stats.filters := by
  show mstarGetStats lruApi m {} = _
  rw [← defaultGetStats_empty]
  rfl

/-- A request is not filtered when m* asks LRU and while LRU has room. -/
theorem asks_iff {m : MstarPolicy LruPolicy} (h : m.internal.Inv) :
    m.Asks o ∨ cacheIsFull m.internal.nucleus = false ↔
      ¬m.Filters lruApi (lruApi.cacheLookup m.internal o).isSome
        (hashLookup m.nucleus o).isSome := by
  have hc : m.internal.nucleus.Cached o ↔ (lruApi.cacheLookup m.internal o).isSome = true :=
    h.wf.cached_iff
  have hfull : cacheIsFull m.internal.nucleus = lruApi.cacheIsFull m.internal := rfl
  rw [Asks, Filters, hc, hfull]
  cases (lruApi.cacheLookup m.internal o).isSome <;>
    cases (hashLookup m.nucleus o).isSome <;>
    cases lruApi.cacheIsFull m.internal <;> simp

theorem mstar_lru_forwards : (mstarApi lruApi).Forwards (fun m => m.internal.Inv)
    (fun m o _ => m.Asks o ∨ cacheIsFull m.internal.nucleus = false) where
  map := by
    intro m m' o w result res h hmap
    obtain ⟨⟨m1, res1⟩, hserve, hrun⟩ := bind_eq_ok.mp hmap
    obtain ⟨m2, hlen, hrun⟩ := bind_eq_ok.mp hrun
    obtain ⟨logic, _, hrun⟩ := bind_eq_ok.mp hrun
    obtain ⟨rfl, rfl⟩ := Prod.mk.inj (Except.ok.inj hrun)
    have hk := keeps_lengthControl hlen
    have hstats := (mstarGhostLengthControl_stats hlen).trans (mstarServe_stats hserve)
    have hpass := asks_iff (o := o) h
    rw [mstarGetStats_lru, mstarGetStats_lru]
    dsimp only
    rw [hpass, hstats, hk.internal]
    cases served hserve with
    | passed hlru hwhy hlogic =>
      obtain ⟨hi, hno⟩ := lruMapApi_admits h hlru
      have hnot : ¬m.Filters lruApi (lruApi.cacheLookup m.internal o).isSome
          (hashLookup m.nucleus o).isSome := fun hx => hx.2.2.2
        (hwhy (by simpa using hx.1) (by simpa using hx.2.1) hx.2.2.1)
      have hlru_stats : m1.internal.nucleus.stats = m.internal.nucleus.stats.after res1.op :=
        lru_counts.map h hlru
      refine ⟨hi, iff_of_false hno fun hx => hx hnot, ?_⟩
      rw [if_neg hnot, hlru_stats, PolicyStats.plusFilters_after _ _ hno]
    | filtered hno hunknown hstate hres hk1 =>
      have hop : res1.op = .filter := hres ▸ rfl
      have hfull : lruApi.cacheIsFull m.internal = true := by
        by_contra hroom
        have hasked := mstarServe_asks (by simpa using hroom) hserve
        exact (lruMapApi_admits h hasked).2 hop
      have hyes : m.Filters lruApi (lruApi.cacheLookup m.internal o).isSome
          (hashLookup m.nucleus o).isSome := ⟨by simp [hno], by simp [hunknown], hfull, hstate⟩
      rw [hk1.internal, if_pos hyes, hop]
      exact ⟨h, iff_of_true rfl fun hx => hx hyes, PolicyStats.plusFilters_succ _ _⟩
  migrated := by
    intro m m' o h hrun
    obtain ⟨i, hi, hrun⟩ := bind_eq_ok.mp hrun
    obtain rfl := Except.ok.inj hrun
    obtain ⟨r, hl, hstep⟩ := lruMigratedApi_step h hi
    refine ⟨hstep.inv, ?_⟩
    rw [mstarGetStats_lru, mstarGetStats_lru,
      show i.nucleus.stats = _ from lru_counts.migrated h hi]
    exact PolicyStats.plusFilters_promoted _ _

end Mstar

/-! ## mARC -/

section Marc

open MarcPolicy

variable {s s' s'' : MarcPolicy} {mt mt' : MarcTransaction}

/-- ARC and the counters are left alone. -/
structure MarcPolicy.Aside (s s' : MarcPolicy) : Prop where
  internal : s'.internal = s.internal
  stats : s'.nucleus.stats = s.nucleus.stats

theorem MarcPolicy.Aside.trans (h : s.Aside s') (h' : s'.Aside s'') : s.Aside s'' :=
  ⟨h'.internal.trans h.internal, h'.stats.trans h.stats⟩

theorem marcCommitStats_aside (hrun : marcCommitStats s mt = .ok s') : s.Aside s' := by
  obtain ⟨hn, _, hi⟩ := marcCommitStats_ok hrun
  exact ⟨hi, by rw [hn]⟩

theorem MarcPolicy.OnlyGhosts.aside (h : s.OnlyGhosts s') : s.Aside s' := by
  cases h with
  | mk hstats hhits => exact ⟨rfl, hstats⟩

/-- What a commit does to ARC and to the counters. -/
theorem marcTransactionCommit_aside
    (hrun : marcTransactionCommit s mt result = .ok (s', res)) :
    (mt.filter = true ∧ res.op = .filter ∧ s'.internal = s.internal ∧
        s'.nucleus.stats = s.nucleus.incFilters.stats) ∨
      (mt.filter = false ∧ s'.nucleus.stats = s.nucleus.stats ∧
        arcMapApi s.internal mt.oblock mt.write result = .ok (s'.internal, res)) := by
  obtain ⟨s1, h1, hrun⟩ := bind_eq_ok.mp hrun
  obtain ⟨s2, h2, hrun⟩ := bind_eq_ok.mp hrun
  have ha := (marcCommitStats_aside h1).trans (marcCommitGhosts_onlyGhosts h2).aside
  obtain ⟨⟨s3, res3⟩, h3, hrun⟩ := bind_eq_ok.mp hrun
  obtain ⟨s4, h4, hrun⟩ := bind_eq_ok.mp hrun
  obtain ⟨rfl, rfl⟩ := Prod.mk.inj (Except.ok.inj hrun)
  have hb := (marcCommitEvict_onlyGhosts h4).aside
  unfold marcCommitMap at h3
  cases hf : mt.filter with
  | true =>
    rw [if_neg (by simp [hf])] at h3
    obtain ⟨rfl, rfl⟩ := Prod.mk.inj (Except.ok.inj h3)
    refine Or.inl ⟨rfl, rfl, hb.internal.trans ha.internal, hb.stats.trans ?_⟩
    simp only [incFilters, ha.stats]
  | false =>
    rw [if_pos (by simp [hf])] at h3
    obtain ⟨⟨i, res'⟩, hmap, h3⟩ := bind_eq_ok.mp h3
    obtain ⟨rfl, rfl⟩ := Prod.mk.inj (Except.ok.inj h3)
    rw [ha.internal] at hmap
    refine Or.inr ⟨rfl, hb.stats.trans ha.stats, ?_⟩
    rw [hb.internal]
    exact hmap

/-- The request is kept from ARC: its block is neither cached nor a ghost, the cache is full and
the state that the request moves to is not UNSTABLE. -/
def MarcPolicy.Filters (s : MarcPolicy) (o : Oblock) (w : Bool) : Prop :=
  (arcApi.cacheLookup s.internal o).isSome = false ∧ arcApi.cacheIsFull s.internal = true ∧
    (hashLookup s.nucleus o).isSome = false ∧
    ∃ mt, marcTransactionJudge s (marcTransactionInit s o w) = .ok mt ∧ mt.state ≠ .unstable

theorem marcTransactionSet_filter
    (hset : marcTransactionSet s (marcTransactionInit s o w) = .ok mt) :
    mt.filter = true ↔ s.Filters o w := by
  obtain ⟨mt1, hjudge, hroute⟩ := bind_eq_ok.mp hset
  have hu := (marcTransactionJudge_judged hjudge).unrouted
  have hst : (∃ mt, marcTransactionJudge s (marcTransactionInit s o w) = .ok mt ∧
      mt.state ≠ .unstable) ↔ mt1.state ≠ .unstable := by
    constructor
    · rintro ⟨mt2, hjudge2, hne⟩
      obtain rfl := Except.ok.inj (hjudge.symm.trans hjudge2)
      exact hne
    · exact fun hne => ⟨mt1, hjudge, hne⟩
  rw [MarcPolicy.Filters, hst, ← hu.cHit, ← hu.oblock]
  cases marcTransactionRoute_routed hu hroute with
  | hit hc hg => simp [hc]
  | plain hroom => simp [hroom]
  | ghost hc hfull hghost hg hadd => simp [hghost]
  | add hc hfull hghost hg hfilter => simp [hc, hfull, hghost, hfilter]

theorem marcGetStats_eq (s : MarcPolicy) : marcApi.getStats s {} =
    s.internal.nucleus.stats.wrapped.plusFilters s.nucleus.stats.filters := by
  show marcGetStatsApi s {} = _
  rw [← defaultGetStats_empty]
  rfl

/-- ARC never filters. -/
theorem arcMapApi_admits {a a' : ArcPolicy} (h : a.Inv)
    (hmap : arcMapApi a o w result = .ok (a', res)) : a'.Inv ∧ res.op ≠ .filter := by
  have hcase := arcMapApi_case h o w result
  have hi := (arc_sound.map h hmap).2
  rw [hmap] at hcase
  refine ⟨hi, ?_⟩
  cases hcase with
  | hit hl hp hs => simp
  | @miss at' s' cb res hst hpl hne hres hmiss =>
    have hop : res.op = if at'.cacheEvict = .null then .new else .replace := by
      rw [hres]
      unfold ArcPolicy.evicted
      split <;> rfl
    show res.op ≠ .filter
    rw [hop]
    split <;> simp
  | refused hst hpl hc hq => simp

theorem marc_forwards : marcApi.Forwards (fun s => s.internal.Inv)
    (fun (s : MarcPolicy) o w => ¬s.Filters o w) where
  map := by
    intro s s' o w result res h hmap
    obtain ⟨mt, hset, ⟨hleg, rfl, rfl⟩ | ⟨_, hcommit⟩⟩ := marcMapApi_ok hmap
    · have hno : ¬s'.Filters o w := by
        rw [← marcTransactionSet_filter hset]
        intro hf
        rw [marcTransactionIsLegal, if_pos hf] at hleg
        simp at hleg
      exact ⟨h, iff_of_false (by simp) fun hx => hx hno, rfl⟩
    · rw [← marcTransactionSet_filter hset, marcGetStats_eq, marcGetStats_eq]
      have hpl := marcTransactionSet_planned hset
      rcases marcTransactionCommit_aside hcommit with ⟨hf, hop, hi, hstats⟩ | ⟨hf, hstats, harc⟩
      · rw [hi, hop, hstats, hf]
        exact ⟨h, by simp, PolicyStats.plusFilters_succ _ _⟩
      · obtain ⟨hi, hno⟩ := arcMapApi_admits h harc
        have harc_stats : s'.internal.nucleus.stats = s.internal.nucleus.stats.after res.op :=
          arc_counts.map h harc
        refine ⟨hi, iff_of_false hno (by simp [hf]), ?_⟩
        rw [hstats, harc_stats, PolicyStats.plusFilters_after _ _ hno]
  migrated := by
    intro s s' o h hrun
    obtain ⟨i, hi, hrun⟩ := bind_eq_ok.mp hrun
    obtain rfl := Except.ok.inj hrun
    obtain ⟨r, hl, hstep⟩ := arcMigratedApi_step h hi
    refine ⟨hstep.inv, ?_⟩
    rw [marcGetStats_eq, marcGetStats_eq, show i.nucleus.stats = _ from arc_counts.migrated h hi]
    exact PolicyStats.plusFilters_promoted _ _

end Marc

/-! ## All of them -/

/-- The counters of the wrappers add up over the runs in which no request was filtered and fewer
than `2 ^ 32` did not fail, and over no others. -/
theorem wrapper_statistics (c m : UInt32) (adaptive : Bool) :
    (∀ f0 t f, fomoCreate c m lruCreate = .ok f0 →
      ((fomoApi lruApi).system fun _ => requestCalls).Run f0 t f →
      (((fomoApi lruApi).getStats f {}).Adds t ↔ ((fomoApi lruApi).system
        (passing fun f o _ => ¬f.filters lruApi o)).Run f0 t f ∧
        t.countP servedRequest < 2 ^ 32)) ∧
    (∀ m0 t m', mstarCreate c m lruCreate adaptive = .ok m0 →
      ((mstarApi lruApi).system fun _ => requestCalls).Run m0 t m' →
      (((mstarApi lruApi).getStats m' {}).Adds t ↔ ((mstarApi lruApi).system
        (passing fun m o _ => m.Asks o ∨ cacheIsFull m.internal.nucleus = false)).Run m0 t m' ∧
        t.countP servedRequest < 2 ^ 32)) ∧
    ∀ s0 t s, marcCreate c m = .ok s0 → (marcApi.system fun _ => requestCalls).Run s0 t s →
      ((marcApi.getStats s {}).Adds t ↔ (marcApi.system
        (passing fun (s : MarcPolicy) o w => ¬s.Filters o w)).Run s0 t s ∧
        t.countP servedRequest < 2 ^ 32) := by
  refine ⟨?_, ?_, ?_⟩
  · intro f0 t f hinit hrun
    have hlru : lruCreate c m = _ := lruInit_eq c
    rw [fomoCreate_eq hlru] at hinit
    obtain rfl := Except.ok.inj hinit
    exact fomo_lru_forwards.adds_iff (lruInit_spec (lruInit_eq c)).1 rfl hrun
  · intro m0 t m' hinit hrun
    have hlru : lruCreate c m = _ := lruInit_eq c
    rw [mstarCreate, hlru, ok_bind, MstarPolicy.mstarInit_eq] at hinit
    obtain rfl := Except.ok.inj hinit
    exact mstar_lru_forwards.adds_iff (lruInit_spec (lruInit_eq c)).1 rfl hrun
  · intro s0 t s hinit hrun
    rw [marcCreate, arcCreate_eq, ok_bind, marcInit_eq] at hinit
    obtain rfl := Except.ok.inj hinit
    exact marc_forwards.adds_iff (arcCreate_inv (arcCreate_eq c m)).1 rfl hrun

/-- One block comes into the LRU cache and settles. -/
theorem wrapper_statistics_passed : ∃ f0 t f, fomoCreate 1 1 lruCreate = .ok f0 ∧
    ((fomoApi lruApi).system fun _ => requestCalls).Run f0 t f ∧ t.length = 2 ∧
    ((fomoApi lruApi).getStats f {}).Adds t := by
  have hlru : lruCreate 1 1 = _ := lruInit_eq 1
  have hinit := fomoCreate_eq hlru
  generalize hf0 : FomoPolicy.mk _ _ _ _ _ _ _ _ _ _ = f0 at hinit
  obtain ⟨f, ws, hexec, hlen, hadm⟩ : ∃ f ws,
      ((fomoApi lruApi).system (passing fun f o _ => ¬f.filters lruApi o)).exec f0
        [.map 5 false {}, .migrated 5] = .ok (f, ws) ∧ ws.length = 2 ∧
      ((fomoApi lruApi).system (passing fun f o _ => ¬f.filters lruApi o)).Admits f0
        [.map 5 false {}, .migrated 5] := by
    subst hf0
    refine ⟨_, _, rfl, rfl, And.intro ?_ (And.intro trivial trivial)⟩
    exact fun hf => absurd hf (by decide)
  have hpass := Lib.System.Run.of_exec hadm hexec
  have hrun := Policy.run_of_passing hpass
  have hlen : ([Call.map 5 false {}, .migrated 5].zip ws).length = 2 := by
    rw [List.length_zip, hlen]
    rfl
  have hserved := (List.countP_le_length (p := servedRequest)).trans_eq hlen
  exact ⟨f0, _, f, hinit, hrun, hlen, ((wrapper_statistics 1 1 true).1 f0 _ f hinit hrun).mpr
    ⟨hpass, by omega⟩⟩

/-- A second block asks for the one slot and is filtered: it is served, and counted as a request
by nobody. -/
theorem wrapper_statistics_filtered : ¬∀ (c m : UInt32) (adaptive : Bool),
    (∀ f0 t f, fomoCreate c m lruCreate = .ok f0 →
      ((fomoApi lruApi).system fun _ => requestCalls).Run f0 t f →
      ((fomoApi lruApi).getStats f {}).Adds t) ∧
    (∀ m0 t m', mstarCreate c m lruCreate adaptive = .ok m0 →
      ((mstarApi lruApi).system fun _ => requestCalls).Run m0 t m' →
      ((mstarApi lruApi).getStats m' {}).Adds t) ∧
    ∀ s0 t s, marcCreate c m = .ok s0 → (marcApi.system fun _ => requestCalls).Run s0 t s →
      (marcApi.getStats s {}).Adds t := by
  intro hall
  have hlru : lruCreate 1 1 = _ := lruInit_eq 1
  have hinit := fomoCreate_eq hlru
  generalize hf0 : FomoPolicy.mk _ _ _ _ _ _ _ _ _ _ = f0 at hinit
  obtain ⟨f, ws, hexec, hstats⟩ : ∃ f ws,
      ((fomoApi lruApi).system fun _ => requestCalls).exec f0
        [.map 5 false {}, .migrated 5, .map 5 false {}, .map 6 false {}] = .ok (f, ws) ∧
      (fomoApi lruApi).getStats f {} =
        { ios := 2, hits := 1, misses := 1, filters := 1, promotions := 1 } := by
    subst hf0
    exact ⟨_, _, rfl, rfl⟩
  have hcalls : ∀ e ∈ [.map 5 false {}, .migrated 5, .map 5 false {}, .map 6 false {}],
      requestCalls e := by decide
  have hadm := Lib.System.admits_of_exec (fun e he _ => hcalls e he) hexec
  have hadds := ((hall 1 1 true).1 f0 _ f hinit (Lib.System.Run.of_exec hadm hexec)).ios
  rw [hstats] at hadds
  cases hadds

end Fomo
