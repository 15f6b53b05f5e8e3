import Fomo.Algs.ArcWraps
import Fomo.Algs.ServingContract

/-!
# Asking for the next victim

`next_victim` stages the transaction of the map without committing it. For LRU and ARC the
answer is that of the map, as long as the map returns. LARC forgets hits and admissions to free
room, and LFU reads two flags it has not set.
-/
namespace Fomo

/-- The map of `o` returns, and `next_victim` answers as it does and changes nothing. -/
structure Policy.Predicts {σ : Type} (P : Policy σ) (s : σ) (o : Oblock) : Prop where
  returns : ∀ w result, ∃ s' res, P.map s o w result = .ok (s', res)
  foretells : P.Foretells s o
  state : ∃ op victim, P.nextVictim s o = .ok (s, op, victim)

variable {o : Oblock} {r : EntryRef} {result res : CacheNucleusResult}

/-- The cached block of an entry of the cache pool. -/
theorem CacheNucleus.Wf.cacheLookup_self {cn : CacheNucleus} (h : cn.Wf)
    (ha : (cn.entry r).allocated = true) (hp : r.pool = .cache) :
    defaultCacheLookup cn (cn.entry r).oblock = some r := by
  rw [defaultCacheLookup, h.hashLookup_self ha, inCache, Option.any_some, hp]
  rfl

/-! ## LRU -/

section Lru

variable {s : LruPolicy}

theorem lruNextVictimApi_state (s : LruPolicy) (o : Oblock) :
    ∃ op victim, lruNextVictimApi s o = .ok (s, op, victim) := by
  unfold lruNextVictimApi
  dsimp only
  split
  · split
    · exact ⟨_, _, rfl⟩
    · split
      · exact ⟨_, _, rfl⟩
      · exact ⟨_, _, rfl⟩
  · exact ⟨_, _, rfl⟩

theorem lru_foretells (h : s.Inv) (o : Oblock) : lruApi.Foretells s o := by
  intro w result s' res hmap
  have hcase := lruMapApi_case h o w result
  rw [show lruMapApi s o w result = _ from hmap] at hcase
  show ∃ t victim, lruNextVictimApi s o = _ ∧ _
  cases hcase with
  | hit hl hs =>
    refine ⟨s, none, ?_, fun hx => (by cases hx), fun _ => rfl⟩
    simp [lruNextVictimApi, lruTransactionSet, lruTransactionInit, hl, lruTransactionIsLegal]
  | new habs hf hs =>
    refine ⟨s, none, ?_, fun hx => (by cases hx), fun _ => rfl⟩
    simp [lruNextVictimApi, lruTransactionSet, lruTransactionInit, lruTransactionIsLegal,
      h.wf.hashLookup_eq_none.mpr habs, cacheIsFull, epoolEmpty, hf]
  | @replace cb q _ habs hf hq hs =>
    have ha := ((h.mem_queue _).mp (hq ▸ List.mem_cons_self)).1
    refine ⟨s, some ⟨.cache, cb⟩, ?_, fun _ => ⟨_, rfl, h.wf.cacheLookup_self ha rfl⟩,
      fun hx => absurd rfl hx⟩
    simp [lruNextVictimApi, lruTransactionSet, lruTransactionInit, lruTransactionIsLegal,
      h.wf.hashLookup_eq_none.mpr habs, cacheIsFull, epoolEmpty, hf, hq]
  | fail habs hf hq =>
    refine ⟨s, none, ?_, fun hx => (by cases hx), fun _ => rfl⟩
    simp [lruNextVictimApi, lruTransactionSet, lruTransactionInit, lruTransactionIsLegal,
      h.wf.hashLookup_eq_none.mpr habs, cacheIsFull, epoolEmpty, hf, hq]

end Lru

/-! ## ARC -/

section Arc

open ArcPolicy

variable {s : ArcPolicy} {at' : ArcTransaction}

theorem arcNextVictimApi_hit (h : s.Inv) (hl : hashLookup s.nucleus o = some r)
    (hp : r.pool = .cache) : arcNextVictimApi s o = .ok (s, .hit, none) := by
  have hloc := h.loc_of_cached (h.wf.hashLookup_eq_some.mp hl).1 hp
  simp [arcNextVictimApi, arcTransactionSet, arcTransactionInit, hl, inCache, hp,
    arcTransactionIsLegal, hloc]

theorem arcNextVictimApi_miss (hset : arcTransactionSet s (arcTransactionInit s o) = .ok at')
    (hloc : ¬(at'.currentLoc = .t1 ∨ at'.currentLoc = .t2))
    (hlegal : at'.cacheEvict ≠ .null → s.arcQ at'.cacheEvict ≠ []) :
    arcNextVictimApi s o = .ok (s, if at'.cacheEvict = .null then (.new, none)
      else (.replace, queuePeek (s.arcQ at'.cacheEvict))) := by
  have hleg : arcTransactionIsLegal s at' = true := by
    by_cases hc : at'.cacheEvict = .null
    · simp [arcTransactionIsLegal, hc]
    · simp [arcTransactionIsLegal, hc, List.length_pos_iff.mpr (hlegal hc)]
  simp only [arcNextVictimApi, hset, ok_bind, hleg, if_true, if_neg hloc]
  by_cases hc : at'.cacheEvict = .null
  · simp [hc]
  · simp [hc]

theorem arcNextVictimApi_illegal (hset : arcTransactionSet s (arcTransactionInit s o) = .ok at')
    (hc : at'.cacheEvict ≠ .null) (hq : s.arcQ at'.cacheEvict = []) :
    arcNextVictimApi s o = .ok (s, .fail, none) := by
  have hleg : arcTransactionIsLegal s at' = false := by
    simp [arcTransactionIsLegal, hc, hq]
  simp only [arcNextVictimApi, hset, ok_bind, hleg, Bool.false_eq_true, if_false, pure_eq_ok]

theorem arcNextVictimApi_state (h : s.Inv) (o : Oblock) :
    ∃ op victim, arcNextVictimApi s o = .ok (s, op, victim) := by
  obtain ⟨at', hset, hst⟩ := arcTransactionSet_staged h o
  rcases hst.hit_or_planned h with ⟨r, hl, hp, _⟩ | hpl
  · exact ⟨_, _, arcNextVictimApi_hit h hl hp⟩
  · by_cases hlegal : at'.cacheEvict ≠ .null → s.arcQ at'.cacheEvict ≠ []
    · exact ⟨_, _, arcNextVictimApi_miss hset hpl.currentLoc hlegal⟩
    · obtain ⟨hc, hq⟩ := Classical.not_imp.mp hlegal
      exact ⟨_, _, arcNextVictimApi_illegal hset hc (not_not.mp hq)⟩

/-- The ghosts that a commit frees first are not in the queue the victim comes from. -/
theorem arc_foretells (h : s.Inv) (o : Oblock) : arcApi.Foretells s o := by
  intro w result s' res hmap
  have hmap : arcMapApi s o w result = .ok (s', res) := hmap
  show ∃ t victim, arcNextVictimApi s o = _ ∧ _
  obtain ⟨at', hset, hst⟩ := arcTransactionSet_staged h o
  rcases hst.hit_or_planned h with ⟨r, hl, hp, heq⟩ | hpl
  · obtain ⟨s1, hrun, _⟩ := arcTransactionCommit_hit hl hp h result
    rw [arcMapApi_legal hset (by rw [heq]; exact fun hx => absurd rfl hx), heq, hrun] at hmap
    obtain ⟨_, rfl⟩ := Prod.mk.inj (Except.ok.inj hmap)
    exact ⟨s, none, arcNextVictimApi_hit h hl hp, fun hx => (by cases hx), fun _ => rfl⟩
  · by_cases hlegal : at'.cacheEvict ≠ .null → s.arcQ at'.cacheEvict ≠ []
    · rw [arcMapApi_legal hset hlegal] at hmap
      rcases arcTransactionCommit_case h hpl hlegal w result with
        ⟨s5, res5, cb, hrun, hres, _⟩ | ⟨f, hrun, _⟩
      · rw [hrun] at hmap
        obtain ⟨_, rfl⟩ := Prod.mk.inj (Except.ok.inj hmap)
        have hvictim := arcNextVictimApi_miss hset hpl.currentLoc hlegal
        by_cases hc : at'.cacheEvict = .null
        · rw [if_pos hc] at hvictim hres
          have hq : queuePeek (s.arcQ at'.cacheEvict) = none := by
            rw [hc, h.arcQ_null]
            rfl
          rw [hq] at hres
          subst hres
          exact ⟨s, none, hvictim, fun hx => (by cases hx), fun _ => rfl⟩
        · rw [if_neg hc] at hvictim hres
          obtain ⟨v, q, hq⟩ := List.exists_cons_of_ne_nil (hlegal hc)
          rw [hq, queuePeek_cons] at hvictim hres
          subst hres
          have hmem : v ∈ s.arcQ at'.cacheEvict := hq ▸ List.mem_cons_self
          have hpool : v.pool = .cache := (h.pool_of_mem hmem).trans hpl.cachePool
          exact ⟨s, some v, hvictim,
            fun _ => ⟨v, rfl, h.wf.cacheLookup_self (h.head hq).1 hpool⟩, fun hx => absurd rfl hx⟩
      · rw [hrun] at hmap
        cases hmap
    · obtain ⟨hc, hq⟩ := Classical.not_imp.mp hlegal
      rw [arcMapApi_illegal hset hc (not_not.mp hq)] at hmap
      obtain ⟨_, rfl⟩ := Prod.mk.inj (Except.ok.inj hmap)
      exact ⟨s, none, arcNextVictimApi_illegal hset hc (not_not.mp hq), fun hx => (by cases hx),
        fun _ => rfl⟩

end Arc

theorem lru_predicts {s : LruPolicy} (h : s.Inv) (o : Oblock) : lruApi.Predicts s o := by
  refine ⟨fun w result => ?_, lru_foretells h o, lruNextVictimApi_state s o⟩
  have hcase := lruMapApi_case h o w result
  generalize hx : lruMapApi s o w result = x at hcase
  cases hcase
  all_goals exact ⟨_, _, hx⟩

theorem ArcPolicy.Bounded.predicts {s : ArcPolicy} {c m : Nat} (h : s.Bounded c m)
    (hc : c < 2 ^ 31) (hcm : c ≤ m) (o : Oblock) : arcApi.Predicts s o := by
  refine ⟨fun w result => ?_, arc_foretells h.inv o, arcNextVictimApi_state h.inv o⟩
  obtain ⟨s', x, hcall, _⟩ := h.call hc hcm (show arcCalls s (.map o w result) from trivial)
  obtain ⟨res, _, hmap⟩ := Policy.call_map.mp hcall
  exact ⟨s', res, hmap⟩

/-- With `2 ^ 32` blocks in its lists ARC announces a free slot for the next one, and has none. -/
theorem ArcPolicy.Frequent.announces {s : ArcPolicy} {c m : Nat} (h : s.Frequent c m (2 ^ 32))
    (hc : 2 ^ 31 ≤ c) (ho : 2 ^ 32 ≤ o.toNat) :
    arcApi.nextVictim s o = .ok (s, .new, none) ∧
    ∀ w result, ∃ f, arcApi.map s o w result = .error f := by
  have habs := h.absent ho
  have hinv := h.synced.bounded.inv
  refine ⟨?_, h.stuck hc habs⟩
  obtain ⟨at', hset, hst⟩ := arcTransactionSet_staged hinv o
  obtain ⟨hce, _⟩ := h.staged hc habs hst
  rcases hst.hit_or_planned hinv with ⟨r, hl, _⟩ | hpl
  · rw [hinv.wf.hashLookup_eq_none.mpr habs] at hl
    cases hl
  · have hvictim := arcNextVictimApi_miss hset hpl.currentLoc fun hx => absurd hce hx
    rw [if_pos hce] at hvictim
    exact hvictim

/-- LRU predicts its requests in every state that requests, completed migrations, preloads and
removals reach. ARC does so without removals exactly if it has fewer than `2 ^ 31` slots; a request
that returns is foretold by any ARC. -/
theorem next_victim_foretells (c m : UInt32) :
    (∀ s0 s, lruCreate c m = .ok s0 →
      (lruApi.system fun s => servingCalls s.nucleus).Reachable s0 s → ∀ o,
      lruApi.Predicts s o) ∧
    (c ≤ m → ((∀ s0 s, arcCreate c m = .ok s0 →
      (arcApi.system fun s => preloadCalls s.nucleus).Reachable s0 s → ∀ o,
      arcApi.Predicts s o) ↔ c.toNat < 2 ^ 31)) ∧
    ∀ s0 s, arcCreate c m = .ok s0 →
      (arcApi.system fun s => servingCalls s.nucleus).Reachable s0 s → ∀ o,
      arcApi.Foretells s o ∧ ∃ op victim, arcApi.nextVictim s o = .ok (s, op, victim) := by
  refine ⟨fun s0 s hinit hs o => ?_, fun hcm => ⟨fun hall => ?_, fun hc s0 s hinit hs o => ?_⟩,
    fun s0 s hinit hs o => ?_⟩
  · exact lru_predicts (lru_serves.reachable (lruInit_spec hinit).1 hs) o
  · by_contra hbig
    obtain ⟨s, hs, h⟩ := ArcPolicy.Frequent.reachable (arcCreate_eq c m) (not_lt.mp hbig) hcm le_rfl
    obtain ⟨f, hstuck⟩ := (h.announces (o := 0x100000000) (not_lt.mp hbig) (by decide)).2 false {}
    obtain ⟨s', res, hmap⟩ := (hall _ s (arcCreate_eq c m) hs 0x100000000).returns false {}
    cases hstuck.symm.trans hmap
  · have h : s.Bounded c.toNat m.toNat := by
      apply hs.invariant (arcCreate_bounded hinit)
      intro a call b x ha hg hcall
      obtain ⟨b', x', hcall', hb⟩ := ha.call hc hcm (preloadCalls.arcCalls hg)
      obtain ⟨rfl, rfl⟩ := Prod.mk.inj (Except.ok.inj (hcall.symm.trans hcall'))
      exact hb
    exact h.predicts hc hcm o
  · have h := arc_serves.reachable (arcCreate_inv hinit).1 hs
    exact ⟨arc_foretells h o, arcNextVictimApi_state h o⟩

/-- ARC of one slot after a block came in and settled: another one will replace it. -/
theorem next_victim_foretells_settled : ∃ s0 s, arcCreate 1 1 = .ok s0 ∧
    (arcApi.system fun s => preloadCalls s.nucleus).Reachable s0 s ∧ arcApi.Predicts s 7 ∧
    arcApi.nextVictim s 7 = .ok (s, .replace, some ⟨.cache, 0⟩) := by
  have hinit := arcCreate_eq 1 1
  generalize hs0 : ({ nucleus := _, arcQ := _, p := 0, length := _, loc := _ } : ArcPolicy) = s0
    at hinit
  have hadm : (arcApi.system fun s => preloadCalls s.nucleus).Admits s0
      [.map 5 true {}, .migrated 5] := by
    subst hs0
    exact And.intro trivial (And.intro (Exists.intro 0 (And.intro (And.intro rfl rfl) rfl))
      trivial)
  obtain ⟨s, ws, hexec, hvictim⟩ : ∃ s ws,
      (arcApi.system fun s => preloadCalls s.nucleus).exec s0
        [.map 5 true {}, .migrated 5] = .ok (s, ws) ∧
      arcApi.nextVictim s 7 = .ok (s, .replace, some ⟨.cache, 0⟩) := by
    subst hs0
    exact ⟨_, _, rfl, rfl⟩
  have hrun := (Lib.System.Run.of_exec hadm hexec).reachable
  exact ⟨s0, s, hinit, hrun,
    ((next_victim_foretells 1 1).2.1 (by decide)).mpr (by decide) s0 s hinit hrun 7, hvictim⟩

/-- ARC of `2 ^ 31` slots and ghosts after `2 ^ 32` blocks were requested twice each. -/
theorem next_victim_foretells_wrapped : ∃ s0 s, arcCreate 0x80000000 0x80000000 = .ok s0 ∧
    (arcApi.system fun s => preloadCalls s.nucleus).Reachable s0 s ∧
    s.length .t2 = 2 ^ 31 ∧ s.length .b2 = 2 ^ 31 ∧
    arcApi.nextVictim s 0x100000000 = .ok (s, .new, none) ∧
    (∀ w result, ∃ f, arcApi.map s 0x100000000 w result = .error f) ∧
    ¬arcApi.Predicts s 0x100000000 := by
  have hinit := arcCreate_eq 0x80000000 0x80000000
  obtain ⟨s, hs, h⟩ := ArcPolicy.Frequent.reachable hinit (by decide) (by decide) le_rfl
  obtain ⟨hnext, hstuck⟩ := h.announces (o := 0x100000000) (by decide) (by decide)
  have ht2 : s.length .t2 = 2 ^ 31 := h.cached.2 (by decide)
  have hsum := h.lengths.2.2
  refine ⟨_, s, hinit, hs, ht2, by omega, hnext, hstuck, fun hp => ?_⟩
  obtain ⟨f, hstuck⟩ := hstuck false {}
  obtain ⟨s', res, hmap⟩ := hp.returns false {}
  cases hstuck.symm.trans hmap

/-! ## LARC -/

section Larc

open LarcPolicy

variable {s : LarcPolicy} {g m : Nat}

theorem larcNextVictimApi_hit (hl : hashLookup s.nucleus o = some r) (hp : r.pool = .cache)
    (hg : larcDecreaseGSize s = .ok g) : larcNextVictimApi s o = .ok (s, .filter, none) := by
  simp [larcNextVictimApi, larcTransactionSet, larcTransactionInit, hl, inCache, hp, hg,
    larcTransactionIsLegal]

/-- A ghost in a full cache asks for a victim, any other ghost for room. -/
theorem larcNextVictimApi_ghost (hl : hashLookup s.nucleus o = some r) (hp : r.pool = .metadata)
    (hg : larcIncreaseGSize s = .ok g) : larcNextVictimApi s o = .ok (s,
      if (s.nucleus.pool .cache).free = [] then
        if s.larcQ = [] then (.fail, none) else (.replace, queuePeek s.larcQ)
      else (.new, none)) := by
  by_cases hf : (s.nucleus.pool .cache).free = []
  · by_cases hq : s.larcQ = []
    · simp [larcNextVictimApi, larcTransactionSet, larcTransactionInit, hl, inCache, inMeta, hp,
        hg, larcTransactionIsLegal, cacheIsFull, epoolEmpty, hf, hq]
    · simp [larcNextVictimApi, larcTransactionSet, larcTransactionInit, hl, inCache, inMeta, hp,
        hg, larcTransactionIsLegal, cacheIsFull, epoolEmpty, hf, hq, List.length_pos_iff.mpr hq]
  · simp [larcNextVictimApi, larcTransactionSet, larcTransactionInit, hl, inCache, inMeta, hp, hg,
      larcTransactionIsLegal, cacheIsFull, epoolEmpty, hf]

theorem larcNextVictimApi_unknown (hl : hashLookup s.nucleus o = none)
    (hg : larcIncreaseGSize s = .ok g) : larcNextVictimApi s o = .ok (s, .filter, none) := by
  by_cases hf : cacheIsFull s.nucleus
  · simp [larcNextVictimApi, larcTransactionSet, larcTransactionInit, hl, inCache, inMeta, hg,
      larcTransactionIsLegal, hf]
  · simp [larcNextVictimApi, larcTransactionSet, larcTransactionInit, hl, inCache, inMeta, hg,
      larcTransactionIsLegal, hf]

theorem larcIncreaseGSize_pos (hg : larcIncreaseGSize s = .ok g) : s.gSize ≠ 0 := by
  intro h0
  simp [larcIncreaseGSize, div32, h0] at hg

/-- LARC foretells the requests for ghosts, and those for unknown blocks when the cache is
full; without a ghost target every miss divides by zero. -/
theorem larc_foretells_iff (h : s.Bounded m) (hm : 10 ≤ m) (o : Oblock) :
    larcApi.Foretells s o ↔ ¬s.nucleus.Cached o ∧
      ((hashLookup s.nucleus o).isSome ∨ cacheIsFull s.nucleus = true ∨ s.gSize = 0) := by
  constructor
  · intro hp
    refine ⟨fun hc => ?_, ?_⟩
    · obtain ⟨cb, hc⟩ := hc
      have hl := h.inv.wf.caches_iff.mp hc
      obtain ⟨g, hg, _⟩ := h.decrease hm
      obtain ⟨s', res, hmap⟩ := (larc_sound hm).map_cached false {} h ⟨cb, hc⟩
      have hhit := ((larc_sound hm).map h hmap).1.hit_iff.mpr ⟨cb, hc⟩
      obtain ⟨t, victim, hv, _⟩ := hp _ _ _ _ hmap
      change larcNextVictimApi s o = _ at hv
      rw [larcNextVictimApi_hit hl rfl hg, hhit] at hv
      simp at hv
    · by_contra hno
      have hno := not_or.mp hno
      have hl : hashLookup s.nucleus o = none := Option.not_isSome_iff_eq_none.mp hno.1
      have hno := not_or.mp hno.2
      obtain ⟨g, hg⟩ : ∃ g, larcIncreaseGSize s = .ok g :=
        ⟨_, by simp only [larcIncreaseGSize, div32, if_neg hno.2, ok_bind, pure_eq_ok]; rfl⟩
      have hcase := larcMapApi_case h.inv o false {}
      generalize hmap : larcMapApi s o false {} = x at hcase
      cases hcase with
      | hit hl' => rw [hl] at hl'; cases hl'
      | @take victim g' s1 s2 s' cb rest res hun hg' hv evict forget free arrive hres =>
        obtain ⟨t, v, hvict, _⟩ := hp _ _ _ _ hmap
        change larcNextVictimApi s o = _ at hvict
        rw [larcNextVictimApi_unknown hl hg] at hvict
        cases victim with
        | none => simp at hvict
        | some v => simp at hvict
      | filter habs hfull => exact hno.1 (by simp [cacheIsFull, epoolEmpty, hfull])
      | refused hl' => rw [hl] at hl'; cases hl'
      | stuck hstuck =>
        rcases hstuck with ⟨⟨r, hl', _⟩, _⟩ | ⟨_, hi⟩ | hf
        · rw [hl] at hl'; cases hl'
        · rw [hg] at hi; cases hi
        · exact h.free_ne_nil hm hf
  · rintro ⟨hno, hcond⟩ w result s' res hmap
    have hcase := larcMapApi_case h.inv o w result
    rw [show larcMapApi s o w result = _ from hmap] at hcase
    show ∃ t victim, larcNextVictimApi s o = _ ∧ _
    cases hcase with
    | @hit r _ _ hl hp _ hs =>
      obtain ⟨rp, cb⟩ := r
      obtain rfl : rp = .cache := hp
      exact absurd ⟨cb, h.inv.wf.caches_iff.mpr hl⟩ hno
    | @take victim g _ _ _ cb rest res hun hg hv evict forget free arrive hres =>
      rcases hv with ⟨rfl, hf⟩ | ⟨v, q, rfl, hf, hq, hsome⟩
      · have hsome : (hashLookup s.nucleus o).isSome := by
          rcases hcond with hsome | hfull | h0
          · exact hsome
          · simp [cacheIsFull, epoolEmpty, hf] at hfull
          · exact absurd h0 (larcIncreaseGSize_pos hg)
        obtain ⟨r, hl⟩ := Option.isSome_iff_exists.mp hsome
        refine ⟨s, none, ?_, fun hx => (by cases hx), fun _ => rfl⟩
        rw [larcNextVictimApi_ghost hl (hun r hl) hg, if_neg hf]
        rfl
      · obtain ⟨r, hl⟩ := Option.isSome_iff_exists.mp hsome
        obtain ⟨ha, _, hp⟩ := h.inv.head (p := .cache) hq
        subst hres
        refine ⟨s, some v, ?_, fun _ => ⟨v, rfl, h.inv.wf.cacheLookup_self ha hp⟩,
          fun hx => absurd rfl hx⟩
        rw [larcNextVictimApi_ghost hl (hun r hl) hg, if_pos hf, if_neg (by rw [hq]; simp), hq]
        rfl
    | filter habs hfull hg hf ghost trim =>
      exact ⟨s, none, larcNextVictimApi_unknown (h.inv.wf.hashLookup_eq_none.mpr habs) hg,
        fun hx => (by cases hx), fun _ => rfl⟩
    | refused hl hp hfull hg hq =>
      refine ⟨s, none, ?_, fun hx => (by cases hx), fun _ => rfl⟩
      rw [larcNextVictimApi_ghost hl hp hg, if_pos hfull, if_pos hq]

/-- When LARC foretells a request, over every interleaving of the calls. -/
theorem larc_next_victim {c m : UInt32} {s0 : LarcPolicy} (hm : 10 ≤ m.toNat)
    (hinit : larcCreate c m = .ok s0) (hs : (larcApi.system larcCalls).Reachable s0 s)
    (o : Oblock) :
    larcApi.Foretells s o ↔ ¬s.nucleus.Cached o ∧
      ((hashLookup s.nucleus o).isSome ∨ cacheIsFull s.nucleus = true ∨ s.gSize = 0) :=
  larc_foretells_iff (Bounded.of_reachable hm hinit hs) hm o

/-- An unknown block and a full cache. -/
theorem larc_next_victim_full : ∃ s0 s, larcCreate 1 10 = .ok s0 ∧
    (larcApi.system larcCalls).Reachable s0 s ∧ larcApi.Foretells s 7 := by
  have hinit := larcCreate_eq 1 10
  generalize hs0 : ({ nucleus := _, larcQ := _, larcG := _, gSize := _ } : LarcPolicy) = s0
    at hinit
  have hadm : (larcApi.system larcCalls).Admits s0 [.map 5 true {}, .migrated 5] := by
    subst hs0
    exact And.intro trivial (And.intro (Exists.intro 0 (And.intro (And.intro rfl rfl) rfl))
      trivial)
  obtain ⟨s, ws, hexec, hfull, hl⟩ : ∃ s ws, (larcApi.system larcCalls).exec s0
      [.map 5 true {}, .migrated 5] = .ok (s, ws) ∧ cacheIsFull s.nucleus = true ∧
      hashLookup s.nucleus 7 = none := by
    subst hs0
    exact ⟨_, _, rfl, rfl, rfl⟩
  have hrun := (Lib.System.Run.of_exec hadm hexec).reachable
  have hno := ((Bounded.of_reachable (by decide) hinit hrun).inv.wf.hashLookup_eq_none.mp
    hl).not_cached
  exact ⟨s0, s, hinit, hrun,
    (larc_next_victim (by decide) hinit hrun 7).mpr ⟨hno, Or.inr (Or.inl hfull)⟩⟩

/-- An empty cache admits its first block, and LARC announces that it filters it. -/
theorem larc_next_victim_first : ¬∀ (c m : UInt32) (s0 s : LarcPolicy) (o : Oblock),
    10 ≤ m.toNat → larcCreate c m = .ok s0 → (larcApi.system larcCalls).Reachable s0 s →
    larcApi.Foretells s o := by
  intro hall
  have hinit := larcCreate_eq 1 10
  generalize hs0 : ({ nucleus := _, larcQ := _, larcG := _, gSize := _ } : LarcPolicy) = s0
    at hinit
  have hp := hall 1 10 s0 s0 5 (by decide) hinit (Lib.System.Reachable.refl _ _)
  have hb := larcCreate_bounded hinit
  obtain ⟨_, hcond⟩ := (larc_foretells_iff hb (by decide) 5).mp hp
  subst hs0
  revert hcond
  decide

end Larc

/-! ## LFU -/

section Lfu

open LfuPolicy

variable {s : LfuPolicy} {lt : LfuTransaction}

/-- The flags LFU reads without having set them do no harm. -/
def LfuTransaction.Harmless (lt : LfuTransaction) (s : LfuPolicy) (o : Oblock) : Prop :=
  (¬s.nucleus.Cached o ∧ cacheIsFull s.nucleus = true) ∨
    (lt.evict = false ∧ (s.nucleus.Cached o ∨ lt.hit = false))

theorem lfuNextVictimApi_hit (hl : hashLookup s.nucleus o = some r) (he : lt.evict = false) :
    lfuNextVictimApi lt s o = .ok (s, .hit, none) := by
  simp [lfuNextVictimApi, lfuTransactionSet, hl, lfuTransactionIsLegal, he]

/-- A flag left set announces a victim, whatever the request is. -/
theorem lfuNextVictimApi_evict (he : lt.evict = true) :
    lfuNextVictimApi lt s o = .ok (s, if s.heap.size > 0 then (.replace, heapMin s.heap)
      else (.fail, none)) := by
  have hset : (lfuTransactionSet s { lt with oblock := o }).evict = true := by
    unfold lfuTransactionSet
    dsimp only
    split
    · exact he
    · split
      · rfl
      · exact he
  by_cases hz : s.heap.size > 0
  · simp [lfuNextVictimApi, lfuTransactionIsLegal, hset, hz]
  · simp [lfuNextVictimApi, lfuTransactionIsLegal, hset, hz]

theorem lfuNextVictimApi_room (hl : hashLookup s.nucleus o = none)
    (hf : cacheIsFull s.nucleus = false) (he : lt.evict = false) :
    lfuNextVictimApi lt s o = .ok (s, if lt.hit then .hit else .new, none) := by
  cases hh : lt.hit with
  | true => simp [lfuNextVictimApi, lfuTransactionSet, hl, lfuTransactionIsLegal, he, hf, hh]
  | false => simp [lfuNextVictimApi, lfuTransactionSet, hl, lfuTransactionIsLegal, he, hf, hh]

theorem lfuNextVictimApi_full (hl : hashLookup s.nucleus o = none)
    (hf : cacheIsFull s.nucleus = true) :
    lfuNextVictimApi lt s o = .ok (s, if s.heap.size > 0 then (.replace, heapMin s.heap)
      else (.fail, none)) := by
  by_cases hz : s.heap.size > 0
  · simp [lfuNextVictimApi, lfuTransactionSet, hl, lfuTransactionIsLegal, hf, hz]
  · simp [lfuNextVictimApi, lfuTransactionSet, hl, lfuTransactionIsLegal, hf, hz]

theorem lfu_foretells_iff {s' : LfuPolicy} {w : Bool} (h : s.Inv)
    (hmap : lfuMapApi s o w result = .ok (s', res)) :
    (lfuApi lt).Foretells s o ↔ lt.Harmless s o := by
  constructor
  · intro hp
    have hcase := lfuMapApi_case h o w result
    obtain ⟨t, v, hv, _⟩ := hp _ _ _ _ hmap
    change lfuNextVictimApi lt s o = _ at hv
    -- a flag left set announces a victim or a failure
    have hflag : res.op = .hit ∨ res.op = .new → lt.evict = false := by
      intro hop
      cases he : lt.evict with
      | false => rfl
      | true =>
        rw [lfuNextVictimApi_evict he] at hv
        have hv := (Prod.mk.inj (Except.ok.inj hv)).2
        split at hv
        · rcases hop with hop | hop
          · rw [hop] at hv; cases hv
          · rw [hop] at hv; cases hv
        · rcases hop with hop | hop
          · rw [hop] at hv; cases hv
          · rw [hop] at hv; cases hv
    rw [hmap] at hcase
    cases hcase with
    | @hit cb _ hl hs =>
      exact Or.inr ⟨hflag (Or.inl rfl), Or.inl ⟨cb, h.wf.caches_iff.mpr hl⟩⟩
    | @new cb rest _ habs hf hs =>
      have hroom : cacheIsFull s.nucleus = false := by simp [cacheIsFull, epoolEmpty, hf]
      have he := hflag (Or.inr rfl)
      refine Or.inr ⟨he, Or.inr ?_⟩
      rw [lfuNextVictimApi_room (h.wf.hashLookup_eq_none.mpr habs) hroom he] at hv
      cases hh : lt.hit with
      | false => rfl
      | true =>
        rw [hh] at hv
        simp at hv
    | replace habs hf hm hmem hs =>
      exact Or.inl ⟨habs.not_cached, by simp [cacheIsFull, epoolEmpty, hf]⟩
    | fail habs hf hz =>
      exact Or.inl ⟨habs.not_cached, by simp [cacheIsFull, epoolEmpty, hf]⟩
  · intro hsafe w result s' res hmap
    have hcase := lfuMapApi_case h o w result
    rw [show lfuMapApi s o w result = _ from hmap] at hcase
    show ∃ t victim, lfuNextVictimApi lt s o = _ ∧ _
    cases hcase with
    | @hit cb _ hl hs =>
      have he : lt.evict = false := by
        rcases hsafe with ⟨hno, _⟩ | ⟨he, _⟩
        · exact absurd ⟨cb, h.wf.caches_iff.mpr hl⟩ hno
        · exact he
      exact ⟨s, none, lfuNextVictimApi_hit hl he, fun hx => (by cases hx), fun _ => rfl⟩
    | @new cb rest _ habs hf hs =>
      have hroom : cacheIsFull s.nucleus = false := by simp [cacheIsFull, epoolEmpty, hf]
      rcases hsafe with ⟨_, hfull⟩ | ⟨he, hc | hh⟩
      · rw [hroom] at hfull
        cases hfull
      · exact absurd hc habs.not_cached
      · refine ⟨s, none, ?_, fun hx => (by cases hx), fun _ => rfl⟩
        rw [lfuNextVictimApi_room (h.wf.hashLookup_eq_none.mpr habs) hroom he, hh]
        rfl
    | @replace cb _ habs hf hm hmem hs =>
      have hfull : cacheIsFull s.nucleus = true := by simp [cacheIsFull, epoolEmpty, hf]
      have hpos : s.heap.size > 0 := Nat.zero_lt_of_lt hmem.1
      refine ⟨s, some ⟨.cache, cb⟩, ?_, fun _ =>
        ⟨_, rfl, h.wf.cacheLookup_self ((h.mem_heap _).mp hmem).1 rfl⟩, fun hx => absurd rfl hx⟩
      rw [lfuNextVictimApi_full (h.wf.hashLookup_eq_none.mpr habs) hfull, if_pos hpos, hm]
    | fail habs hf hz =>
      have hfull : cacheIsFull s.nucleus = true := by simp [cacheIsFull, epoolEmpty, hf]
      refine ⟨s, none, ?_, fun hx => (by cases hx), fun _ => rfl⟩
      rw [lfuNextVictimApi_full (h.wf.hashLookup_eq_none.mpr habs) hfull, if_neg (by omega)]

/-- When LFU foretells a request, over every interleaving of the calls and for every content
of the record it does not initialise. With fewer than `2 ^ 31` slots every request returns. -/
theorem lfu_next_victim {c m : UInt32} {s0 : LfuPolicy} (hinit : lfuCreate c m = .ok s0)
    (hs : ((lfuApi lt).system fun s => servingCalls s.nucleus).Reachable s0 s) (o : Oblock) :
    (∀ w result s' res, (lfuApi lt).map s o w result = .ok (s', res) →
      ((lfuApi lt).Foretells s o ↔ lt.Harmless s o)) ∧
    (c.toNat < 2 ^ 31 → ((lfuApi lt).Foretells s o ↔ lt.Harmless s o) ∧
      ∀ w result, ∃ s' res, (lfuApi lt).map s o w result = .ok (s', res)) := by
  have h0 := lfuInit_spec hinit
  have h := (lfu_serves lt c.toNat).reachable ⟨h0.1, h0.2.1⟩ hs
  refine ⟨fun w result s' res hmap => lfu_foretells_iff h.inv hmap, fun hc => ?_⟩
  have hret := lfuMapApi_returns h.inv (h.size_lt hc) o
  obtain ⟨s', res, hmap⟩ := hret false {}
  exact ⟨lfu_foretells_iff h.inv hmap, hret⟩

/-- With both flags clear, LFU foretells the first request. -/
theorem lfu_next_victim_clear : ∃ s0, lfuCreate 1 0 = .ok s0 ∧
    (lfuApi (lfuTransactionInit 0)).Foretells s0 5 := by
  obtain ⟨s0, hcreate⟩ : ∃ s0, lfuCreate 1 0 = .ok s0 := ⟨_, lfuInit_eq 1⟩
  have hiff : (lfuApi (lfuTransactionInit 0)).Foretells s0 5 ↔
      (lfuTransactionInit 0).Harmless s0 5 :=
    ((lfu_next_victim hcreate (Lib.System.Reachable.refl _ _) 5).2 (by decide)).1
  exact ⟨s0, hcreate, hiff.mpr (Or.inr ⟨rfl, Or.inr rfl⟩)⟩

/-- With the first flag set, LFU announces a hit in an empty cache. -/
theorem lfu_next_victim_first : ¬∀ (c m : UInt32) (lt : LfuTransaction) (s0 s : LfuPolicy)
    (o : Oblock), lfuCreate c m = .ok s0 →
    ((lfuApi lt).system fun s => servingCalls s.nucleus).Reachable s0 s →
    (lfuApi lt).Foretells s o := by
  intro hall
  have hinit : lfuCreate 1 0 = _ := lfuInit_eq 1
  generalize hs0 : ({ nucleus := _, heap := _ } : LfuPolicy) = s0 at hinit
  have hp := hall 1 0 ⟨0, true, false⟩ s0 s0 5 hinit (Lib.System.Reachable.refl _ _)
  have h := lfuInit_spec hinit
  have habs := h.2.2 5
  obtain ⟨s', res, hmap⟩ : ∃ s' res, lfuMapApi s0 5 false {} = .ok (s', res) := by
    subst hs0
    exact ⟨_, _, rfl⟩
  rcases (lfu_foretells_iff h.1 hmap).mp hp with ⟨_, hfull⟩ | ⟨_, hc | hh⟩
  · subst hs0
    revert hfull
    decide
  · exact habs.not_cached hc
  · cases hh

end Lfu

end Fomo
