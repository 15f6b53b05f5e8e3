import Fomo.DmcachePolicy.Tracker
import Fomo.Algs.LruAsync

/-!
# The calls of dmcache_base over LRU

LRU detaches an entry from the tracker when it frees its slot and leaves the tracker alone
otherwise. One lemma per call says how it moves the entries of the tracker.
-/
namespace Fomo

open LruPolicy

section

variable {s s' : LruPolicy} {r : EntryRef} {o : Oblock} {w : Bool}
  {result res : CacheNucleusResult}

/-! ## LRU and the tracker -/

theorem lruRemoveEntry_wb (hrun : lruRemoveEntry s r = .ok s') :
    s'.nucleus.wb = s.nucleus.wb.remove r := by
  obtain ⟨cn, hrem, hrun⟩ := bind_eq_ok.mp hrun
  rw [← Except.ok.inj hrun]
  refine (CacheNucleus.cacheNucleusRemove_wb hrem).trans ?_
  split
  · rfl
  · rfl

theorem lruRemoveApi_wb {keep : Bool} (hl : hashLookup s.nucleus o = some r)
    (hrun : lruRemoveApi s o keep = .ok s') : s'.nucleus.wb = s.nucleus.wb.remove r := by
  rw [lruRemoveApi, hl] at hrun
  exact lruRemoveEntry_wb hrun

theorem lruInsertApi_wb {cb : Cblock} (hrun : lruInsertApi s o cb = .ok s') :
    s'.nucleus.wb = s.nucleus.wb := by
  obtain ⟨⟨cn, e⟩, hins, hrun⟩ := bind_eq_ok.mp hrun
  rw [← Except.ok.inj hrun]
  exact CacheNucleus.insertInCacheAt_wb hins

theorem lruMigratedApi_wb (hrun : lruMigratedApi s o = .ok s') :
    s'.nucleus.wb = s.nucleus.wb := by
  obtain ⟨⟨cn, e⟩, hmig, hrun⟩ := bind_eq_ok.mp hrun
  rw [← Except.ok.inj hrun]
  have hwb : cn.wb = s.nucleus.wb := CacheNucleus.migratedCacheEntry_wb hmig
  exact hwb

theorem lruInsert_wb (hrun : lruInsert s o result = .ok (s', res)) :
    s'.nucleus.wb = s.nucleus.wb ∧ res.op = result.op := by
  obtain ⟨⟨cn, e, res1⟩, hins, hrun⟩ := bind_eq_ok.mp hrun
  obtain ⟨cn1, hmig, hrun⟩ := bind_eq_ok.mp hrun
  obtain ⟨rfl, rfl⟩ := Prod.mk.inj (Except.ok.inj hrun)
  refine ⟨(CacheNucleus.migratingCacheEntry_wb hmig).trans (CacheNucleus.insertInCache_wb hins), ?_⟩
  obtain ⟨x, _, hins⟩ := bind_eq_ok.mp hins
  rw [← (Prod.mk.inj (Prod.mk.inj (Except.ok.inj hins)).2).2]

theorem lruHit_wb (hrun : lruHit s o result = .ok (s', res)) :
    s'.nucleus.wb = s.nucleus.wb ∧ res.op = result.op := by
  obtain ⟨e, _, hrun⟩ := bind_eq_ok.mp hrun
  obtain ⟨cb, _, hrun⟩ := bind_eq_ok.mp hrun
  dsimp only at hrun
  split at hrun
  · obtain ⟨rfl, rfl⟩ := Prod.mk.inj (Except.ok.inj hrun)
    exact ⟨rfl, rfl⟩
  · obtain ⟨rfl, rfl⟩ := Prod.mk.inj (Except.ok.inj hrun)
    exact ⟨rfl, rfl⟩

/-- An eviction detaches the head of the queue. -/
theorem lruEvict_wb (hrun : lruEvict s result = .ok (s', res)) :
    (∀ r ∈ queuePeek s.lruQ, s'.nucleus.wb = s.nucleus.wb.remove r) ∧ res.op = result.op := by
  obtain ⟨⟨demoted, q⟩, hpop, hrun⟩ := bind_eq_ok.mp hrun
  obtain ⟨s1, hrem, hrun⟩ := bind_eq_ok.mp hrun
  obtain ⟨rfl, rfl⟩ := Prod.mk.inj (Except.ok.inj hrun)
  refine ⟨fun r hr => ?_, rfl⟩
  have hpop := deref_eq_ok.mp hpop
  unfold queuePop at hpop
  rw [show queuePeek s.lruQ = some r from hr] at hpop
  obtain ⟨rfl, rfl⟩ := Prod.mk.inj (Option.some.inj hpop)
  have hwb := lruRemoveEntry_wb hrem
  exact hwb

/-- A request detaches the victim of a replacement and nothing else. -/
theorem lruMapApi_wb (hrun : lruMapApi s o w result = .ok (s', res)) :
    (res.op = .replace → ∀ r ∈ queuePeek s.lruQ, s'.nucleus.wb = s.nucleus.wb.remove r) ∧
      (res.op ≠ .replace → s'.nucleus.wb = s.nucleus.wb) := by
  unfold lruMapApi at hrun
  dsimp only at hrun
  split at hrun
  · obtain ⟨⟨s1, res1⟩, hcommit, hrun⟩ := bind_eq_ok.mp hrun
    obtain ⟨rfl, rfl⟩ := Prod.mk.inj (Except.ok.inj hrun)
    have hwb : (dirtyWork s1.nucleus.incIos o w).wb = s1.nucleus.wb :=
      CacheNucleus.dirtyWork_wb _ _ _
    rw [hwb]
    unfold lruTransactionCommit at hcommit
    split at hcommit
    · obtain ⟨⟨s2, res2⟩, hhit, hcommit⟩ := bind_eq_ok.mp hcommit
      obtain ⟨rfl, rfl⟩ := Prod.mk.inj (Except.ok.inj hcommit)
      obtain ⟨hsame, hop⟩ := lruHit_wb hhit
      exact ⟨fun hx => absurd (hop.symm.trans hx) (by simp), fun _ => hsame⟩
    · dsimp only at hcommit
      split at hcommit
      · obtain ⟨⟨s2, res2⟩, hevict, hcommit⟩ := bind_eq_ok.mp hcommit
        obtain ⟨⟨s3, res3⟩, hins, hcommit⟩ := bind_eq_ok.mp hcommit
        obtain ⟨rfl, rfl⟩ := Prod.mk.inj (Except.ok.inj hcommit)
        obtain ⟨hsame, hop⟩ := lruInsert_wb hins
        obtain ⟨hdrop, hop'⟩ := lruEvict_wb hevict
        exact ⟨fun _ r hr => hsame.trans (hdrop r hr), fun hx => absurd (hop.trans hop') hx⟩
      · rw [ok_bind] at hcommit
        obtain ⟨⟨s3, res3⟩, hins, hcommit⟩ := bind_eq_ok.mp hcommit
        obtain ⟨rfl, rfl⟩ := Prod.mk.inj (Except.ok.inj hcommit)
        obtain ⟨hsame, hop⟩ := lruInsert_wb hins
        exact ⟨fun hx => absurd (hop.symm.trans hx) (by simp), fun _ => hsame⟩
  · obtain ⟨rfl, rfl⟩ := Prod.mk.inj (Except.ok.inj hrun)
    exact ⟨fun hx => absurd hx (by simp), fun _ => rfl⟩

/-! ## The invariant between calls -/

theorem LruPolicy.Inv.cacheLookup (h : s.Inv) (o : Oblock) :
    lruApi.cacheLookup s o = hashLookup s.nucleus o := by
  show defaultCacheLookup s.nucleus o = _
  unfold defaultCacheLookup
  cases hl : hashLookup s.nucleus o with
  | none => rfl
  | some r => simp [inCache, (h.lookup hl).1]

theorem LruPolicy.Inv.withWb (h : s.Inv) (wb : WritebackTracker) :
    ({ s with nucleus := { s.nucleus with wb := wb } } : LruPolicy).Inv :=
  ⟨h.wf.withWb wb, h.meta_empty, h.queue_nodup, h.mem_queue⟩

theorem LruPolicy.Inv.pushed (h : s.Inv) (wb : WritebackTracker) (r : EntryRef) :
    ({ s with nucleus := wbPushCache { s.nucleus with wb := wb } r } : LruPolicy).Inv := by
  rw [wbPushCache_eq]
  exact h.withWb _

/-- After a step the entry is found under the oblock it was given. -/
theorem LruPolicy.Step.cacheLookup {e : Entry} {free : List Nat} {q : Queue}
    (hs : s.Step r e free q s') (ha : e.allocated = true) (ho : e.oblock = o) :
    lruApi.cacheLookup s' o = some r := by
  rw [hs.inv.cacheLookup, hs.inv.wf.hashLookup_eq_some, hs.rewrites.entry_self]
  exact ⟨ha, ho⟩

/-- A rewrite of what the queue does not look at. -/
theorem LruPolicy.Inv.rewritten (h : s.Inv) {e : Entry} {free : List Nat} {cn : CacheNucleus}
    (hrw : s.nucleus.Rewrites r e free cn) (ha : e.allocated = (s.nucleus.entry r).allocated)
    (hm : e.migrating = (s.nucleus.entry r).migrating) :
    ({ s with nucleus := cn } : LruPolicy).Inv := by
  refine h.rewrites hrw h.queue_nodup ?_ fun x _ => Iff.rfl
  rw [ha, hm]
  exact h.mem_queue r

end

/-- What holds between two calls. -/
structure LruTracked (d : DmcacheBase LruPolicy) : Prop where
  inv : d.policy.Inv
  lock : d.lock = false
  tracked : d.policy.nucleus.Tracked

/-- What one call does to the policy and to its tracker. -/
structure LruMoved (d : DmcacheBase LruPolicy) (sets : Oblock → Prop) (entered : Option EntryRef)
    (d' : DmcacheBase LruPolicy) : Prop where
  inv : d'.policy.Inv
  lock : d'.lock = false
  moved : d.policy.nucleus.Moved sets d'.policy.nucleus entered

section

variable {d d' : DmcacheBase LruPolicy} {sets : Oblock → Prop} {entered : Option EntryRef}
  {o : Oblock} {cb : Cblock} {r : EntryRef}

theorem LruTracked.step (h : LruTracked d) (hm : LruMoved d sets entered d') : LruTracked d' :=
  ⟨hm.inv, hm.lock, hm.moved.tracked h.tracked⟩

/-! ## Marking, removing, renaming -/

theorem dmcacheBaseMark_absent (h : LruTracked d) (habs : d.policy.nucleus.Absent o)
    (dirty : Bool) : dmcacheBaseMark lruApi d o dirty = .error .assertion := by
  have hl : lruApi.cacheLookup d.policy o = none :=
    (h.inv.cacheLookup o).trans (h.inv.wf.hashLookup_eq_none.mpr habs)
  simp only [dmcacheBaseMark, mutexLock_free h.lock, ok_bind, hl]

/-- The block is marked and goes to the tail of the queue it belongs to. -/
theorem dmcacheBaseMark_spec (h : LruTracked d) (hl : hashLookup d.policy.nucleus o = some r)
    (dirty : Bool) :
    ∃ d', dmcacheBaseMark lruApi d o dirty = .ok d' ∧
      LruMoved d (fun a => a = o ∧ dirty = true) (if dirty then some r else none) d' ∧
      d.policy.nucleus.Rewrites r { d.policy.nucleus.entry r with dirty := dirty }
        (d.policy.nucleus.pool r.pool).free d'.policy.nucleus := by
  obtain ⟨_, ha, ho⟩ := h.inv.lookup hl
  obtain ⟨hrw, hwb⟩ := h.inv.wf.wbMark r dirty
  have hlook := (h.inv.cacheLookup o).trans hl
  refine ⟨_, by simp only [dmcacheBaseMark, mutexLock_free h.lock, ok_bind, hlook]; rfl, ?_, hrw⟩
  exact ⟨h.inv.rewritten hrw rfl rfl, rfl,
    .queued hrw.entry ha (fun hd => Or.inl ⟨ho, hd⟩) hwb⟩

theorem dmcacheBaseRemoveMapping_moved (h : LruTracked d)
    (hrun : dmcacheBaseRemoveMapping lruApi d o = .ok d') :
    LruMoved d (fun _ => False) none d' := by
  rw [dmcacheBaseRemoveMapping, mutexLock_free h.lock, ok_bind] at hrun
  cases hl : hashLookup d.policy.nucleus o with
  | none =>
    simp only [(h.inv.cacheLookup o).trans hl] at hrun
    cases hrun
  | some r =>
    simp only [(h.inv.cacheLookup o).trans hl] at hrun
    obtain ⟨s1, hrem, hrun⟩ := bind_eq_ok.mp hrun
    have hinv := h.inv.withWb (d.policy.nucleus.wb.remove r)
    obtain ⟨s2, hrem2, hs⟩ := lruRemoveApi_spec hinv hl false
    obtain rfl := Except.ok.inj (hrem2.symm.trans hrem)
    rw [← Except.ok.inj hrun]
    refine ⟨hs.inv, rfl, .detached hs.rewrites.entry (fun hx => by cases hx) ?_⟩
    have hwb := lruRemoveApi_wb (r := r) ?_ hrem2
    · exact hwb.trans (h.tracked.remove_remove r)
    · exact hl

theorem dmcacheBaseLoadMapping_moved (h : LruTracked d) (hg : d.policy.nucleus.MayInsert o cb)
    {x : Errno} (hrun : dmcacheBaseLoadMapping lruApi d o cb = .ok (d', x)) :
    LruMoved d (fun _ => False) none d' := by
  obtain ⟨habs, hcb, hfree⟩ := hg
  obtain ⟨s1, hins, hrun⟩ := bind_eq_ok.mp hrun
  obtain ⟨rfl, _⟩ := Prod.mk.inj (Except.ok.inj hrun)
  obtain ⟨s2, hins2, hs⟩ := lruInsertApi_spec h.inv hcb hfree habs
  obtain rfl := Except.ok.inj (hins2.symm.trans hins)
  refine ⟨hs.inv, h.lock, .detached hs.rewrites.entry (fun _ => rfl) ?_⟩
  rw [h.tracked.remove_of_free hfree]
  exact lruInsertApi_wb hins

theorem dmcacheBaseIoComplete_moved (h : LruTracked d)
    (hrun : dmcacheBaseIoComplete lruApi d o = .ok d') :
    LruMoved d (fun _ => False) none d' := by
  rw [dmcacheBaseIoComplete, mutexLock_free h.lock, ok_bind] at hrun
  obtain ⟨s1, hmig, hrun⟩ := bind_eq_ok.mp hrun
  rw [← Except.ok.inj hrun]
  obtain ⟨r, hl, hs⟩ := lruMigratedApi_step h.inv hmig
  refine ⟨hs.inv, rfl, .same (fun x => ?_) (lruMigratedApi_wb hmig)⟩
  show (s1.nucleus.entry x).allocated = _ ∧ (s1.nucleus.entry x).oblock = _ ∧
    (s1.nucleus.entry x).dirty = _
  by_cases hx : x = r
  · subst hx
    rw [hs.rewrites.entry_self]
    exact ⟨rfl, rfl, rfl⟩
  · rw [hs.rewrites.entry_of_ne hx]
    exact ⟨rfl, rfl, rfl⟩

/-! ## Writing back -/

theorem dmcacheBaseWritebackWork_none (h : LruTracked d)
    (hq : d.policy.nucleus.wb.dirty = []) (o : Oblock) (cb : Cblock) :
    dmcacheBaseWritebackWork lruApi d o cb = .ok (d, o, cb, .enodata) := by
  have hpop : wbPopDirty (lruApi.owner d.policy) = none := CacheNucleus.wbPopDirty_nil hq
  simp only [dmcacheBaseWritebackWork, mutexLock_free h.lock, ok_bind, hpop,
    mutexUnlock_lock h.lock, pure_eq_ok]

/-- The head of the dirty queue is returned and becomes clean. -/
theorem dmcacheBaseWritebackWork_some (h : LruTracked d) {q : Queue}
    (hq : d.policy.nucleus.wb.dirty = r :: q) (o : Oblock) (cb : Cblock) :
    ∃ d', dmcacheBaseWritebackWork lruApi d o cb =
        .ok (d', (d.policy.nucleus.entry r).oblock, r.index, .ok) ∧
      LruMoved d (fun _ => False) none d' ∧
      d.policy.nucleus.Rewrites r { d.policy.nucleus.entry r with dirty := false }
        (d.policy.nucleus.pool r.pool).free d'.policy.nucleus := by
  have hd := (h.tracked.mem_dirty r).mp (hq ▸ List.mem_cons_self)
  have hpop : wbPopDirty (lruApi.owner d.policy) = some (r, wbRemove d.policy.nucleus r) :=
    h.tracked.wbPopDirty_cons hq
  obtain ⟨hrw, hwb⟩ := h.inv.wf.wbMark r false
  have hinfer : inferCacheCblock (wbRemove d.policy.nucleus r) r = .ok r.index :=
    (h.inv.wf.withWb _).inferCacheCblock (h.inv.pool_eq hd.1)
  refine ⟨{ d with policy := { d.policy with nucleus := wbMark d.policy.nucleus r false } }, ?_,
    ⟨h.inv.rewritten hrw rfl rfl, h.lock, .queued hrw.entry hd.1 (fun hx => by cases hx) hwb⟩,
    hrw⟩
  simp only [dmcacheBaseWritebackWork, mutexLock_free h.lock, ok_bind, hpop, mutexUnlock]
  rw [← h.lock]
  exact bind_eq_ok.mpr ⟨r.index, hinfer, rfl⟩

/-! ## Requests -/

/-- What `policy_map` and the work on the tracker do, when the policy gets the request. -/
theorem dmcacheBaseAsk_moved (h : d.policy.Inv) (ht : d.policy.nucleus.Tracked) (o : Oblock)
    (bpResult : CacheNucleusResult) :
    ∃ d' res, dmcacheBaseAsk lruApi d o bpResult = .ok (d', res) ∧ d'.policy.Inv ∧
      d'.lock = d.lock ∧ d.policy.nucleus.Moved (fun _ => False) d'.policy.nucleus
        ((hashLookup d.policy.nucleus o).filter fun r => (d.policy.nucleus.entry r).dirty) := by
  have hcase := lruMapApi_case h o false bpResult
  generalize hx : lruMapApi d.policy o false bpResult = x at hcase
  cases hcase with
  | @hit cb s' hl hs =>
    have hwb := (lruMapApi_wb hx).2 (by simp)
    obtain ⟨_, ha, ho⟩ := h.lookup hl
    have hlook := hs.cacheLookup ha ho
    obtain ⟨hrw, hpush⟩ := (hs.rewrites.withWb (s'.nucleus.wb.remove ⟨.cache, cb⟩)).push
    refine ⟨_, _, dmcacheBaseAsk_hit hx rfl hlook, hs.inv.pushed _ _, rfl, ?_⟩
    rw [hl, Option.filter_some]
    have hmoved := @CacheNucleus.Moved.queued _ (fun _ => False) _ _ _ hrw.entry ha ?_
      (hpush.trans (by rw [hwb]))
    · rwa [Bool.or_false] at hmoved
    · intro hd
      rw [Bool.or_false] at hd
      exact Or.inr ⟨⟨ha, hd⟩, rfl⟩
  | @new cb rest s' habs hf hs =>
    have hwb := (lruMapApi_wb hx).2 (by simp)
    have hfree := ((h.wf.mem_free (r := ⟨.cache, cb⟩)).mp (hf ▸ List.mem_cons_self)).2
    have hlook := hs.cacheLookup rfl rfl
    obtain ⟨hrw, hpush⟩ := hs.rewrites.push
    refine ⟨_, _, dmcacheBaseAsk_admitted hx (Or.inl rfl) hlook, hs.inv.pushed _ _, rfl, ?_⟩
    rw [h.wf.hashLookup_eq_none.mpr habs]
    refine CacheNucleus.Moved.queued hrw.entry rfl (fun hd => by cases hd) ?_
    rw [ht.remove_of_free hfree, ← hwb]
    exact hpush
  | @replace cb q s' habs hf hq hs =>
    have hwb := (lruMapApi_wb hx).1 rfl ⟨.cache, cb⟩ (by rw [hq]; rfl)
    have hlook := hs.cacheLookup rfl rfl
    obtain ⟨hrw, hpush⟩ := hs.rewrites.push
    refine ⟨_, _, dmcacheBaseAsk_admitted hx (Or.inr rfl) hlook, hs.inv.pushed _ _, rfl, ?_⟩
    rw [h.wf.hashLookup_eq_none.mpr habs]
    refine CacheNucleus.Moved.queued hrw.entry rfl (fun hd => by cases hd) ?_
    rw [← hwb]
    exact hpush
  | fail habs hf hq =>
    refine ⟨_, _, dmcacheBaseAsk_passed hx (Or.inr rfl), h, rfl, ?_⟩
    rw [h.wf.hashLookup_eq_none.mpr habs]
    exact .same (fun x => ⟨rfl, rfl, rfl⟩) rfl

/-- A hit that is answered without the policy leaves the tracker alone. -/
theorem dmcacheBaseMapWork_moved (h : d.policy.Inv) (ht : d.policy.nucleus.Tracked) (o : Oblock)
    (canMigrate : Bool) (bpResult : CacheNucleusResult) :
    ∃ d' res x, dmcacheBaseMapWork lruApi d o canMigrate bpResult = .ok (d', res, x) ∧
      d'.policy.Inv ∧ d.policy.nucleus.Moved (fun _ => False) d'.policy.nucleus
        ((hashLookup d.policy.nucleus o).filter fun r =>
          !dmcacheBaseSkips lruApi d r && (d.policy.nucleus.entry r).dirty) := by
  obtain ⟨d1, res1, hask, hinv1, _, hmoved⟩ := dmcacheBaseAsk_moved h ht o bpResult
  have hlook := h.cacheLookup o
  cases hl : hashLookup d.policy.nucleus o with
  | some r =>
    rw [hl] at hlook hmoved
    rw [Option.filter_some] at hmoved ⊢
    cases hskip : dmcacheBaseSkips lruApi d r with
    | true =>
      obtain ⟨hp, ha, _⟩ := h.lookup hl
      have hlt := h.wf.lt_of_allocated ha
      rw [hp] at hlt
      exact ⟨_, _, _, dmcacheBaseMapWork_skipped hlook hskip
        (inferPoolCblock_of_lt (h.wf.start .cache) hp hlt), h, .same (fun x => ⟨rfl, rfl, rfl⟩) rfl⟩
    | false =>
      refine ⟨d1, res1, .ok, dmcacheBaseMapWork_asked ⟨fun e he => ?_, fun hx => ?_⟩ hask, hinv1,
        hmoved⟩
      · rw [hlook] at he
        rwa [← Option.some.inj he]
      · rw [hlook] at hx
        cases hx
  | none =>
    rw [hl] at hlook hmoved
    cases canMigrate with
    | true =>
      refine ⟨d1, res1, .ok, dmcacheBaseMapWork_asked ⟨fun e he => ?_, fun _ => rfl⟩ hask, hinv1,
        hmoved⟩
      rw [hlook] at he
      cases he
    | false =>
      refine ⟨{ d with skipped := d.skipped + 1 }, bpResult, .ewouldblock, ?_, h,
        .same (fun x => ⟨rfl, rfl, rfl⟩) rfl⟩
      simp only [dmcacheBaseMapWork, hlook, Bool.false_eq_true, if_false, pure_eq_ok]

/-- The entry that joins the dirty queue in a call. -/
def entersDirty (d : DmcacheBase LruPolicy) : DmcacheCall → Option EntryRef
  | .map o _ _ _ _ => (hashLookup d.policy.nucleus o).filter fun r =>
      !dmcacheBaseSkips lruApi (copyTick lruApi d) r && (d.policy.nucleus.entry r).dirty
  | .setDirty o => hashLookup d.policy.nucleus o
  | _ => none

theorem dmcacheBaseMap_moved (h : LruTracked d) (o : Oblock) (canBlock canMigrate : Bool)
    (bpResult : CacheNucleusResult) (result : PolicyResult) :
    ∃ d' x, dmcacheBaseMap lruApi d o canBlock canMigrate bpResult result = .ok (d', x) ∧
      LruMoved d (fun _ => False)
        (entersDirty d (.map o canBlock canMigrate bpResult result)) d' := by
  let d0 : DmcacheBase LruPolicy := copyTick lruApi { d with lock := true }
  have hinv : d0.policy.Inv := h.inv.withTime _
  have ht : d0.policy.nucleus.Tracked :=
    ⟨h.tracked.dirty_nodup, h.tracked.mem_dirty, h.tracked.clean_nodup, h.tracked.of_clean,
      h.tracked.metadata⟩
  obtain ⟨d1, res, x, hrun, hinv1, hmoved⟩ :=
    dmcacheBaseMapWork_moved hinv ht o canMigrate { bpResult with op := .fail }
  have hmap := dmcacheBaseMap_eq (P := lruApi) h.lock o canBlock canMigrate bpResult result
  rw [show dmcacheBaseMapWork lruApi (copyTick lruApi _) _ _ _ = _ from hrun] at hmap
  exact ⟨_, _, hmap, hinv1, rfl, hmoved.ofTime⟩

end

end Fomo
