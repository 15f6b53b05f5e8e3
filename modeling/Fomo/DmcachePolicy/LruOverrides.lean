import Fomo.DmcachePolicy.LruWriteback

/-!
# Overriding mappings over LRU

`force_mapping` and `remove_cblock` work through `policy_remove`, which LRU refuses for an
oblock that it does not cache. Forcing a mapping onto an uncached oblock aborts, and a free
slot is removed by the oblock it held last, which may be cached elsewhere by now.
-/
namespace Fomo

open LruPolicy

section

variable {d d' : DmcacheBase LruPolicy} {o a b : Oblock} {cb : Cblock} {r : EntryRef}

/-! ## Removing what a slot holds -/

theorem lruApi_cblockLookup (h : d.policy.Inv)
    (hcb : cb < (d.policy.nucleus.pool .cache).nrEntries) :
    lruApi.cblockLookup d.policy cb = some ⟨.cache, cb⟩ := by
  show (epoolAt (d.policy.nucleus.pool .cache) cb).map _ = _
  rw [epoolAt_zero (h.wf.start .cache) (h.wf.pools .cache).nr_lt hcb]
  rfl

theorem lruApi_cblockLookup_none (h : d.policy.Inv)
    (hcb : (d.policy.nucleus.pool .cache).nrEntries ≤ cb) (hlt : cb < 2 ^ 32) :
    lruApi.cblockLookup d.policy cb = none := by
  have hu : u32 (cb + 2 ^ 32 - (d.policy.nucleus.pool .cache).startingIndex) = cb := by
    rw [h.wf.start .cache, Nat.sub_zero, u32, Nat.add_mod_right, Nat.mod_eq_of_lt hlt]
  show (epoolAt (d.policy.nucleus.pool .cache) cb).map _ = _
  rw [epoolAt, hu, if_pos hcb]
  rfl

theorem dmcacheBaseRemoveCblock_none (h : LruTracked d)
    (hl : lruApi.cblockLookup d.policy cb = none) :
    dmcacheBaseRemoveCblock lruApi d cb = .ok (d, .enodata) := by
  simp only [dmcacheBaseRemoveCblock, mutexLock_free h.lock, ok_bind, hl,
    mutexUnlock_lock h.lock, pure_eq_ok]

/-- The entry that goes is the one cached under the oblock that the slot holds or held. -/
theorem dmcacheBaseRemoveCblock_some (h : LruTracked d) {e : EntryRef}
    (hl : lruApi.cblockLookup d.policy cb = some e)
    (hr : hashLookup d.policy.nucleus (d.policy.nucleus.entry e).oblock = some r) :
    ∃ d', dmcacheBaseRemoveCblock lruApi d cb = .ok (d', .ok) ∧
      LruMoved d (fun _ => False) none d' ∧
      d.policy.nucleus.Rewrites r (d.policy.nucleus.freedEntry r)
        (r.index :: (d.policy.nucleus.pool .cache).free) d'.policy.nucleus := by
  obtain ⟨s1, hrem, hs⟩ := lruRemoveApi_spec h.inv hr false
  have hwb := lruRemoveApi_wb hr hrem
  have hfreed : (s1.nucleus.entry e).allocated = false := by
    by_cases he : e = r
    · rw [he, hs.rewrites.entry_self]
      rfl
    · rw [hs.rewrites.entry_of_ne he]
      by_contra ha
      rw [Bool.not_eq_false] at ha
      exact he (Option.some.inj ((h.inv.wf.hashLookup_self ha).symm.trans hr))
  have hmoved : d.policy.nucleus.Moved (fun _ => False) s1.nucleus none :=
    .detached hs.rewrites.entry (fun hx => by cases hx) hwb
  have hsame : s1.nucleus.wb.remove e = s1.nucleus.wb :=
    (hmoved.tracked h.tracked).remove_of_free hfreed
  refine ⟨{ d with policy := { s1 with nucleus := wbRemove s1.nucleus e } }, ?_,
    ⟨hs.inv.withWb _, h.lock, .detached hs.rewrites.entry (fun hx => by cases hx)
      (hsame.trans hwb)⟩, hs.rewrites.withWb _⟩
  have hrem' : lruApi.remove d.policy (lruApi.entryAt d.policy e).oblock false = .ok s1 := hrem
  simp only [dmcacheBaseRemoveCblock, mutexLock_free h.lock, ok_bind, hl, hrem', pure_eq_ok]
  show Except.ok ({ d with lock := false, policy := _ }, Errno.ok) = _
  rw [← h.lock]
  rfl

theorem dmcacheBaseRemoveCblock_fault (h : LruTracked d) {e : EntryRef}
    (hl : lruApi.cblockLookup d.policy cb = some e)
    (hr : hashLookup d.policy.nucleus (d.policy.nucleus.entry e).oblock = none) :
    dmcacheBaseRemoveCblock lruApi d cb = .error .assertion := by
  have hrem : lruApi.remove d.policy (lruApi.entryAt d.policy e).oblock false =
      .error .assertion := by
    show lruRemoveApi d.policy (d.policy.nucleus.entry e).oblock false = _
    rw [lruRemoveApi, hr]
  simp only [dmcacheBaseRemoveCblock, mutexLock_free h.lock, ok_bind, hl, hrem, error_bind]

/-! ## Forcing a mapping -/

theorem dmcacheBaseForceMapping_absent (h : LruTracked d) (hb : d.policy.nucleus.Absent b) :
    dmcacheBaseForceMapping lruApi d a b = .error .assertion := by
  have hrem : lruApi.remove d.policy b false = .error .assertion := by
    show lruRemoveApi d.policy b false = _
    rw [lruRemoveApi, h.inv.wf.hashLookup_eq_none.mpr hb]
  simp only [dmcacheBaseForceMapping, mutexLock_free h.lock, ok_bind, hrem, error_bind]

/-- Without an entry for `a` there is nothing to rename. -/
theorem dmcacheBaseForceMapping_lost (h : LruTracked d) {x : EntryRef}
    (hb : hashLookup d.policy.nucleus b = some x)
    (ha : d.policy.nucleus.Cached a → a = b) :
    dmcacheBaseForceMapping lruApi d a b = .error .nullPointer := by
  obtain ⟨s1, hrem, hs⟩ := lruRemoveApi_spec h.inv hb false
  have hrem' : lruApi.remove d.policy b false = .ok s1 := hrem
  have habs : s1.nucleus.Absent a := by
    intro y hy ho
    by_cases hyx : y = x
    · rw [hyx, hs.rewrites.entry_self] at hy
      cases hy
    · rw [hs.rewrites.entry_of_ne hyx] at hy ho
      obtain ⟨p, i⟩ := y
      obtain rfl : p = .cache := h.inv.pool_eq hy
      obtain rfl := ha ⟨i, hy, ho⟩
      exact hyx (Option.some.inj ((h.inv.wf.hashLookup_eq_some.mpr ⟨hy, ho⟩).symm.trans hb))
  have hremap : lruApi.remap s1 a b = .error .nullPointer := by
    show (defaultRemap s1.nucleus a b).map _ = _
    rw [defaultRemap, hs.inv.wf.hashLookup_eq_none.mpr habs]
    rfl
  simp only [dmcacheBaseForceMapping, mutexLock_free h.lock, ok_bind, hrem', hremap, error_bind]

/-- The entry of `b` goes, then that of `a` takes the name and gets dirty. -/
theorem dmcacheBaseForceMapping_spec (h : LruTracked d) {x : EntryRef}
    (ha : hashLookup d.policy.nucleus a = some r) (hb : hashLookup d.policy.nucleus b = some x)
    (hne : a ≠ b) :
    ∃ d' cn, dmcacheBaseForceMapping lruApi d a b = .ok d' ∧ LruTracked d' ∧
      d.policy.nucleus.Rewrites x (d.policy.nucleus.freedEntry x)
        (x.index :: (d.policy.nucleus.pool .cache).free) cn ∧
      cn.Rewrites r { d.policy.nucleus.entry r with oblock := b, dirty := true }
        (cn.pool .cache).free d'.policy.nucleus := by
  obtain ⟨s1, hrem, hs1⟩ := lruRemoveApi_spec h.inv hb false
  have hmoved : d.policy.nucleus.Moved (fun _ => False) s1.nucleus none :=
    .detached hs1.rewrites.entry (fun hx => by cases hx) (lruRemoveApi_wb hb hrem)
  have ht1 := hmoved.tracked h.tracked
  have hrx : r ≠ x := by
    rintro rfl
    exact hne ((h.inv.lookup ha).2.2.symm.trans (h.inv.lookup hb).2.2)
  have habs1 : s1.nucleus.Absent b := h.inv.wf.absent_of_freed hb hs1.rewrites rfl
  have ha1 : hashLookup s1.nucleus a = some r := by
    rw [hs1.inv.wf.hashLookup_eq_some, hs1.rewrites.entry_of_ne hrx]
    exact (h.inv.lookup ha).2
  obtain ⟨s2, hremap, hs2⟩ := lruRemap_spec hs1.inv ha1 habs1
  have hwb2 : s2.nucleus.wb = s1.nucleus.wb := by
    obtain ⟨cn, hcn, hrun⟩ := bind_eq_ok.mp hremap
    rw [← Except.ok.inj hrun]
    exact CacheNucleus.defaultRemap_wb hcn
  obtain ⟨hrw3, hwb3⟩ := hs2.inv.wf.wbMark r true
  have hrw : s1.nucleus.Rewrites r { d.policy.nucleus.entry r with oblock := b, dirty := true }
      (s1.nucleus.pool .cache).free (wbMark s2.nucleus r true) := by
    have htrans := hs2.rewrites.trans hrw3
    rw [hs2.rewrites.entry_self, hs1.rewrites.entry_of_ne hrx, hs2.rewrites.free] at htrans
    exact htrans
  refine ⟨{ d with policy := { s2 with nucleus := wbMark s2.nucleus r true } }, s1.nucleus, ?_,
    ⟨hs2.inv.rewritten hrw3 rfl rfl, h.lock, ?_⟩, hs1.rewrites, hrw⟩
  · have hrem' : lruApi.remove d.policy b false = .ok s1 := hrem
    have hremap' : lruApi.remap s1 a b = .ok s2 := hremap
    simp only [dmcacheBaseForceMapping, mutexLock_free h.lock, ok_bind, hrem',
      (hs1.inv.cacheLookup a).trans ha1, hremap', pure_eq_ok]
    show Except.ok { d with lock := false, policy := _ } = _
    rw [← h.lock]
    rfl
  · refine (@CacheNucleus.Moved.queued _ (fun o => o = b) _ _ _ hrw.entry (h.inv.lookup ha).2.1
      (fun _ => Or.inl rfl) ?_).tracked ht1
    rw [← hwb2]
    exact hwb3

/-! ## Runs -/

theorem LruPolicy.Inv.cached_iff {s : LruPolicy} (h : s.Inv) :
    s.nucleus.Cached o ↔ hashLookup s.nucleus o ≠ none := by
  constructor
  · rintro ⟨i, hc⟩ hl
    rw [h.wf.caches_iff.mp hc] at hl
    cases hl
  · intro hl
    obtain ⟨⟨p, i⟩, hr⟩ := Option.ne_none_iff_exists'.mp hl
    obtain rfl : p = .cache := (h.lookup hr).1
    exact ⟨i, h.wf.caches_iff.mpr hr⟩

theorem LruPolicy.Inv.absent_of_not_cached {s : LruPolicy} (h : s.Inv)
    (ho : ¬s.nucleus.Cached o) : s.nucleus.Absent o := by
  rw [h.cached_iff, not_not] at ho
  exact h.wf.hashLookup_eq_none.mp ho

/-- A call that returned had what it asks for, unless it overrides mappings. -/
theorem LruTracked.served (h : LruTracked d) {c : DmcacheCall} {w : DmcacheAnswer}
    (hg : targetCalls lruApi d c) (hcall : dmcacheBaseCall lruApi d c = .ok (d', w)) :
    writebackCalls d c ∨ (∃ cb, c = .removeCblock cb) ∨ ∃ a b, c = .forceMapping a b := by
  cases c with
  | setDirty o =>
    obtain ⟨y, hrun, _⟩ := map_eq_ok.mp hcall
    by_contra hc
    have habs := h.inv.absent_of_not_cached fun ho => hc (Or.inl ho)
    rw [dmcacheBaseSetDirty, dmcacheBaseMark_absent h habs] at hrun
    cases hrun
  | clearDirty o =>
    obtain ⟨y, hrun, _⟩ := map_eq_ok.mp hcall
    by_contra hc
    have habs := h.inv.absent_of_not_cached fun ho => hc (Or.inl ho)
    rw [dmcacheBaseClearDirty, dmcacheBaseMark_absent h habs] at hrun
    cases hrun
  | removeMapping o =>
    obtain ⟨y, hrun, _⟩ := map_eq_ok.mp hcall
    by_contra hc
    have habs := h.inv.absent_of_not_cached fun ho => hc (Or.inl ho)
    simp only [dmcacheBaseRemoveMapping, mutexLock_free h.lock, ok_bind,
      (h.inv.cacheLookup o).trans (h.inv.wf.hashLookup_eq_none.mpr habs)] at hrun
    cases hrun
  | ioComplete o =>
    obtain ⟨y, hrun, _⟩ := map_eq_ok.mp hcall
    rw [dmcacheBaseIoComplete, mutexLock_free h.lock, ok_bind] at hrun
    obtain ⟨s1, hmig, _⟩ := bind_eq_ok.mp hrun
    by_contra hc
    have hfault : lruApi.migrated d.policy o = .error .assertion :=
      lruMigratedApi_fault h.inv fun r hl => ?_
    · rw [hfault] at hmig
      cases hmig
    · obtain ⟨hp, ha, ho⟩ := h.inv.lookup hl
      obtain ⟨p, i⟩ := r
      obtain rfl : p = .cache := hp
      exact Bool.eq_false_iff.mpr fun hm => hc (Or.inl ⟨i, ⟨ha, ho⟩, hm⟩)
  | loadMapping o cb => exact Or.inl hg
  | removeCblock cb => exact Or.inr (Or.inl ⟨cb, rfl⟩)
  | forceMapping a b => exact Or.inr (Or.inr ⟨a, b, rfl⟩)
  | _ => exact Or.inl trivial

/-- What every call that returned does, with the overriding ones. -/
theorem LruTracked.call (h : LruTracked d) {c : DmcacheCall} {w : DmcacheAnswer}
    (hg : targetCalls lruApi d c) (hcall : dmcacheBaseCall lruApi d c = .ok (d', w)) :
    LruTracked d' := by
  rcases h.served hg hcall with hw | ⟨cb, rfl⟩ | ⟨a, b, rfl⟩
  · exact h.step (h.moved hw hcall)
  · obtain ⟨y, hrun, heq⟩ := map_eq_ok.mp hcall
    obtain ⟨rfl, _⟩ := Prod.mk.inj heq
    cases hl : lruApi.cblockLookup d.policy cb with
    | none =>
      rw [dmcacheBaseRemoveCblock_none h hl] at hrun
      obtain rfl := Except.ok.inj hrun
      exact h
    | some e =>
      cases hr : hashLookup d.policy.nucleus (d.policy.nucleus.entry e).oblock with
      | none =>
        rw [dmcacheBaseRemoveCblock_fault h hl hr] at hrun
        cases hrun
      | some r =>
        obtain ⟨d1, hrun1, hm, _⟩ := dmcacheBaseRemoveCblock_some h hl hr
        obtain rfl := Except.ok.inj (hrun1.symm.trans hrun)
        exact h.step hm
  · obtain ⟨y, hrun, heq⟩ := map_eq_ok.mp hcall
    obtain ⟨rfl, _⟩ := Prod.mk.inj heq
    cases hb : hashLookup d.policy.nucleus b with
    | none =>
      rw [dmcacheBaseForceMapping_absent h (h.inv.wf.hashLookup_eq_none.mp hb)] at hrun
      cases hrun
    | some x =>
      by_cases hab : d.policy.nucleus.Cached a ∧ a ≠ b
      · obtain ⟨r, ha⟩ := Option.ne_none_iff_exists'.mp (h.inv.cached_iff.mp hab.1)
        obtain ⟨d1, cn, hrun1, ht, _⟩ := dmcacheBaseForceMapping_spec h ha hb hab.2
        obtain rfl := Except.ok.inj (hrun1.symm.trans hrun)
        exact ht
      · rw [dmcacheBaseForceMapping_lost h hb fun ha => not_not.mp fun hne => hab ⟨ha, hne⟩]
          at hrun
        cases hrun

theorem dmcacheLru_reachable {c : UInt32} {useWb useTick : Bool} {d0 : DmcacheBase LruPolicy}
    (hinit : dmcacheBaseCreate lruApi lruCreate c = .ok d0)
    (hreach : (dmcacheSystem lruApi (targetCalls lruApi)).Reachable
      { d0 with useWb := useWb, useTick := useTick } d) : LruTracked d :=
  hreach.invariant (dmcacheLru_tracked hinit).1 fun h hg hcall => h.call hg hcall

/-! ## What a target relies on -/

variable (d a b) in
/-- `force_mapping` completes, and `b` has taken the place of `a`, dirty. -/
def ForcesMapping : Prop :=
  ∃ d', dmcacheBaseForceMapping lruApi d a b = .ok d' ∧ ¬d'.policy.nucleus.Cached a ∧
    (∀ o cb, o ≠ a → o ≠ b → (d'.policy.nucleus.Caches o cb ↔ d.policy.nucleus.Caches o cb)) ∧
    ∀ cb, d.policy.nucleus.Caches a cb → d'.policy.nucleus.Caches b cb ∧
      (d'.policy.nucleus.entry ⟨.cache, cb⟩).dirty = true ∧
      d'.policy.nucleus.wb.dirty.count ⟨.cache, cb⟩ = 1

variable (d cb) in
/-- `remove_cblock` removes the mapping of the slot, or says that there is none. -/
def RemovesCblock : Prop :=
  ((∃ o, d.policy.nucleus.Caches o cb) →
    ∃ d', dmcacheBaseRemoveCblock lruApi d cb = .ok (d', .ok) ∧
      ∀ o i, d'.policy.nucleus.Caches o i ↔ d.policy.nucleus.Caches o i ∧ i ≠ cb) ∧
  ((¬∃ o, d.policy.nucleus.Caches o cb) →
    ∃ d', dmcacheBaseRemoveCblock lruApi d cb = .ok (d', .enodata) ∧
      ∀ o i, d'.policy.nucleus.Caches o i ↔ d.policy.nucleus.Caches o i)

/-- What is cached after an entry was freed. -/
theorem CacheNucleus.Rewrites.caches_freed {cn cn' : CacheNucleus} {i : Nat} {free : List Nat}
    (hrw : cn.Rewrites ⟨.cache, i⟩ (cn.freedEntry ⟨.cache, i⟩) free cn') :
    cn'.Caches o cb ↔ cn.Caches o cb ∧ cb ≠ i := by
  unfold CacheNucleus.Caches
  by_cases hcb : cb = i
  · subst hcb
    rw [hrw.entry_self]
    exact iff_of_false (fun hx => by cases hx.1) fun hx => hx.2 rfl
  · have hne : (⟨.cache, cb⟩ : EntryRef) ≠ ⟨.cache, i⟩ := fun hx => hcb (EntryRef.mk.inj hx).2
    rw [hrw.entry_of_ne hne]
    exact (and_iff_left hcb).symm

theorem LruTracked.forcesMapping (h : LruTracked d) (ha : d.policy.nucleus.Cached a)
    (hb : d.policy.nucleus.Cached b) (hne : b ≠ a) : ForcesMapping d a b := by
  obtain ⟨i, ha⟩ := ha
  obtain ⟨j, hb⟩ := hb
  obtain ⟨d', cn, hrun, ht, hfreed, hrw⟩ := dmcacheBaseForceMapping_spec h
    (h.inv.wf.caches_iff.mp ha) (h.inv.wf.caches_iff.mp hb) hne.symm
  have hpair : ∀ o cb, cb ≠ i →
      (d'.policy.nucleus.Caches o cb ↔ d.policy.nucleus.Caches o cb ∧ cb ≠ j) := by
    intro o cb hcb
    have hx : (⟨.cache, cb⟩ : EntryRef) ≠ ⟨.cache, i⟩ := fun hx => hcb (EntryRef.mk.inj hx).2
    rw [← hfreed.caches_freed]
    unfold CacheNucleus.Caches
    rw [hrw.entry_of_ne hx]
  have hself : d'.policy.nucleus.Caches b i := by
    unfold CacheNucleus.Caches
    rw [hrw.entry_self]
    exact ⟨ha.1, rfl⟩
  have hdirty : (d'.policy.nucleus.entry ⟨.cache, i⟩).dirty = true := by
    rw [hrw.entry_self]
  refine ⟨d', hrun, ?_, fun o cb hoa hob => ?_, fun cb hcb => ?_⟩
  · rintro ⟨cb, hcb⟩
    by_cases hi : cb = i
    · rw [hi] at hcb
      exact hne (hself.2.symm.trans hcb.2)
    · exact hi (((hpair a cb hi).mp hcb).1.unique h.inv.wf ha)
  · by_cases hi : cb = i
    · rw [hi]
      exact iff_of_false (fun hx => hob (hx.2.symm.trans hself.2))
        fun hx => hoa (hx.2.symm.trans ha.2)
    · rw [hpair o cb hi, and_iff_left_iff_imp]
      rintro hx rfl
      exact hob (hx.2.symm.trans hb.2)
  · obtain rfl := hcb.unique h.inv.wf ha
    exact ⟨hself, hdirty, List.count_eq_one_of_mem ht.tracked.dirty_nodup
      ((ht.tracked.mem_dirty _).mpr ⟨hself.1, hdirty⟩)⟩

/-- A slot that holds a block gives it up. -/
theorem LruTracked.removesCblock (h : LruTracked d)
    (hcb : (∃ o, d.policy.nucleus.Caches o cb) ∨ (d.policy.nucleus.pool .cache).nrEntries ≤ cb)
    (hlt : cb < 2 ^ 32) : RemovesCblock d cb := by
  by_cases hin : cb < (d.policy.nucleus.pool .cache).nrEntries
  · have hocc := hcb.resolve_right (Nat.not_le.mpr hin)
    refine ⟨fun _ => ?_, fun hno => absurd hocc hno⟩
    obtain ⟨o, ha, ho⟩ := hocc
    have hr := h.inv.wf.hashLookup_self ha
    obtain ⟨d', hrun, _, hrw⟩ :=
      dmcacheBaseRemoveCblock_some h (lruApi_cblockLookup h.inv hin) hr
    exact ⟨d', hrun, fun _ _ => hrw.caches_freed⟩
  · have hnone := lruApi_cblockLookup_none h.inv (Nat.not_lt.mp hin) hlt
    refine ⟨fun hocc => ?_, fun _ => ⟨d, dmcacheBaseRemoveCblock_none h hnone, fun _ _ => Iff.rfl⟩⟩
    obtain ⟨o, ha, _⟩ := hocc
    exact absurd (h.inv.wf.lt_of_allocated ha) hin

end

/-- After any run, forcing the mapping of a cached block onto another oblock does what it is
for exactly when that oblock is cached too. -/
theorem force_mapping_overrides {c : UInt32} {useWb useTick : Bool}
    {d0 d : DmcacheBase LruPolicy} {a b : Oblock}
    (hinit : dmcacheBaseCreate lruApi lruCreate c = .ok d0)
    (hreach : (dmcacheSystem lruApi (targetCalls lruApi)).Reachable
      { d0 with useWb := useWb, useTick := useTick } d)
    (ha : d.policy.nucleus.Cached a) (hne : b ≠ a) :
    ForcesMapping d a b ↔ d.policy.nucleus.Cached b := by
  have h := dmcacheLru_reachable hinit hreach
  refine ⟨fun hforce => ?_, fun hb => h.forcesMapping ha hb hne⟩
  by_contra hb
  obtain ⟨d', hrun, _⟩ := hforce
  rw [dmcacheBaseForceMapping_absent h (h.inv.absent_of_not_cached hb)] at hrun
  cases hrun

/-- Of two blocks one takes the place of the other. -/
theorem force_mapping_overrides_cached : ∃ d0 d,
    dmcacheBaseCreate lruApi lruCreate 2 = .ok d0 ∧
    (dmcacheSystem lruApi (targetCalls lruApi)).Reachable
      { d0 with useWb := false, useTick := false } d ∧
    d.policy.nucleus.Cached 5 ∧ d.policy.nucleus.Cached 7 ∧ ForcesMapping d 5 7 := by
  have hinit : ∃ d0, dmcacheBaseCreate lruApi lruCreate 2 = .ok d0 ∧
      (dmcacheSystem lruApi (targetCalls lruApi)).Admits
        { d0 with useWb := false, useTick := false }
        [.map 5 true true {} {}, .map 7 true true {} {}] ∧
      ∃ d w1 w2, (dmcacheSystem lruApi (targetCalls lruApi)).exec
        { d0 with useWb := false, useTick := false }
        [.map 5 true true {} {}, .map 7 true true {} {}] = .ok (d, [w1, w2]) ∧
        d.policy.nucleus.Caches 5 1 ∧ d.policy.nucleus.Caches 7 0 := by
    refine ⟨_, rfl, ?_, _, _, _, rfl, ⟨rfl, rfl⟩, ⟨rfl, rfl⟩⟩
    exact And.intro trivial (And.intro trivial trivial)
  obtain ⟨d0, hinit, hadm, d, w1, w2, hexec, hc, hc7⟩ := hinit
  have hreach := (Lib.System.Run.of_exec hadm hexec).reachable
  exact ⟨d0, d, hinit, hreach, ⟨1, hc⟩, ⟨0, hc7⟩,
    (force_mapping_overrides hinit hreach ⟨1, hc⟩ (by decide)).mpr ⟨0, hc7⟩⟩

/-- Undoing a promotion aborts: the block that was evicted for it is not cached. -/
theorem force_mapping_overrides_evicted : ¬∀ (c : UInt32) (useWb useTick : Bool)
    (d0 d : DmcacheBase LruPolicy) (a b : Oblock),
    dmcacheBaseCreate lruApi lruCreate c = .ok d0 →
    (dmcacheSystem lruApi (targetCalls lruApi)).Reachable
      { d0 with useWb := useWb, useTick := useTick } d →
    d.policy.nucleus.Cached a → b ≠ a → ForcesMapping d a b := by
  intro hall
  have hinit : ∃ d0, dmcacheBaseCreate lruApi lruCreate 1 = .ok d0 ∧
      (dmcacheSystem lruApi (targetCalls lruApi)).Admits
        { d0 with useWb := false, useTick := false }
        [.map 7 true true {} {}, .ioComplete 7, .map 5 true true {} {}] ∧
      ∃ d w1 w2 w3, (dmcacheSystem lruApi (targetCalls lruApi)).exec
        { d0 with useWb := false, useTick := false }
        [.map 7 true true {} {}, .ioComplete 7, .map 5 true true {} {}] =
          .ok (d, [w1, w2, w3]) ∧ d.policy.nucleus.Caches 5 0 ∧
        dmcacheBaseForceMapping lruApi d 5 7 = .error .assertion := by
    refine ⟨_, rfl, ?_, _, _, _, _, rfl, ⟨rfl, rfl⟩, rfl⟩
    exact And.intro trivial (And.intro trivial (And.intro trivial trivial))
  obtain ⟨d0, hinit, hadm, d, w1, w2, w3, hexec, hc, hfault⟩ := hinit
  have hreach := (Lib.System.Run.of_exec hadm hexec).reachable
  obtain ⟨d', hrun, _⟩ := hall 1 false false d0 d 5 7 hinit hreach ⟨0, hc⟩ (by decide)
  cases hfault.symm.trans hrun

/-- After any run, removing what a slot holds does what it is for exactly when the slot holds
a block or lies beyond the cache. -/
theorem remove_cblock_removes {c : UInt32} {useWb useTick : Bool}
    {d0 d : DmcacheBase LruPolicy} (hinit : dmcacheBaseCreate lruApi lruCreate c = .ok d0)
    (hreach : (dmcacheSystem lruApi (targetCalls lruApi)).Reachable
      { d0 with useWb := useWb, useTick := useTick } d) (cb : UInt32) :
    RemovesCblock d cb.toNat ↔ (∃ o, d.policy.nucleus.Caches o cb.toNat) ∨
      (d.policy.nucleus.pool .cache).nrEntries ≤ cb.toNat := by
  have h := dmcacheLru_reachable hinit hreach
  refine ⟨fun hrem => ?_, fun hcb => h.removesCblock hcb cb.toNat_lt⟩
  by_contra hno
  obtain ⟨hfree, hin⟩ := not_or.mp hno
  have hl := lruApi_cblockLookup h.inv (Nat.not_le.mp hin)
  obtain ⟨d', hrun, _⟩ := hrem.2 hfree
  cases hr : hashLookup d.policy.nucleus (d.policy.nucleus.entry ⟨.cache, cb.toNat⟩).oblock with
  | none =>
    rw [dmcacheBaseRemoveCblock_fault h hl hr] at hrun
    cases hrun
  | some r =>
    obtain ⟨d1, hrun1, _⟩ := dmcacheBaseRemoveCblock_some h hl hr
    cases hrun1.symm.trans hrun

/-- A cached block leaves its slot. -/
theorem remove_cblock_removes_cached : ∃ d0 d,
    dmcacheBaseCreate lruApi lruCreate 2 = .ok d0 ∧
    (dmcacheSystem lruApi (targetCalls lruApi)).Reachable
      { d0 with useWb := false, useTick := false } d ∧ d.policy.nucleus.Caches 5 1 ∧
    (RemovesCblock d (1 : UInt32).toNat ↔
      (∃ o, d.policy.nucleus.Caches o (1 : UInt32).toNat) ∨
        (d.policy.nucleus.pool .cache).nrEntries ≤ (1 : UInt32).toNat) := by
  have hinit : ∃ d0, dmcacheBaseCreate lruApi lruCreate 2 = .ok d0 ∧
      (dmcacheSystem lruApi (targetCalls lruApi)).Admits
        { d0 with useWb := false, useTick := false } [.map 5 true true {} {}] ∧
      ∃ d w1, (dmcacheSystem lruApi (targetCalls lruApi)).exec
        { d0 with useWb := false, useTick := false } [.map 5 true true {} {}] = .ok (d, [w1]) ∧
        d.policy.nucleus.Caches 5 1 := by
    refine ⟨_, rfl, ?_, _, _, rfl, rfl, rfl⟩
    exact And.intro trivial trivial
  obtain ⟨d0, hinit, hadm, d, w1, hexec, hc⟩ := hinit
  have hreach := (Lib.System.Run.of_exec hadm hexec).reachable
  exact ⟨d0, d, hinit, hreach, hc, remove_cblock_removes hinit hreach 1⟩

/-- A block that came back to another slot is removed through its old one. -/
theorem remove_cblock_removes_moved : ¬∀ (c : UInt32) (useWb useTick : Bool)
    (d0 d : DmcacheBase LruPolicy) (cb : UInt32),
    dmcacheBaseCreate lruApi lruCreate c = .ok d0 →
    (dmcacheSystem lruApi (targetCalls lruApi)).Reachable
      { d0 with useWb := useWb, useTick := useTick } d → RemovesCblock d cb.toNat := by
  intro hall
  have hinit : ∃ d0, dmcacheBaseCreate lruApi lruCreate 2 = .ok d0 ∧
      (dmcacheSystem lruApi (targetCalls lruApi)).Admits
        { d0 with useWb := false, useTick := false }
        [.map 5 true true {} {}, .map 7 true true {} {}, .removeMapping 5, .removeMapping 7,
          .map 5 true true {} {}] ∧
      ∃ d w1 w2 w3 w4 w5, (dmcacheSystem lruApi (targetCalls lruApi)).exec
        { d0 with useWb := false, useTick := false }
        [.map 5 true true {} {}, .map 7 true true {} {}, .removeMapping 5, .removeMapping 7,
          .map 5 true true {} {}] = .ok (d, [w1, w2, w3, w4, w5]) ∧
        (d.policy.nucleus.entry ⟨.cache, 1⟩).allocated = false ∧
        d.policy.nucleus.Caches 5 0 ∧
        ∃ d', dmcacheBaseRemoveCblock lruApi d 1 = .ok (d', .ok) ∧
          ¬d'.policy.nucleus.Caches 5 0 := by
    refine ⟨_, rfl, ?_, _, _, _, _, _, _, rfl, rfl, ⟨rfl, rfl⟩, _, rfl, ?_⟩
    · exact And.intro trivial (And.intro trivial (And.intro trivial (And.intro trivial
        (And.intro trivial trivial))))
    · exact fun hc => by cases hc.1
  obtain ⟨d0, hinit, hadm, d, w1, w2, w3, w4, w5, hexec, hfree, hc, d', hrun, hgone⟩ := hinit
  have hreach := (Lib.System.Run.of_exec hadm hexec).reachable
  obtain ⟨d'', hrun', _⟩ := (hall 2 false false d0 d 1 hinit hreach).2 fun ⟨o, ho⟩ => by
    have ha := ho.1
    rw [show (⟨.cache, (1 : UInt32).toNat⟩ : EntryRef) = ⟨.cache, 1⟩ from rfl, hfree] at ha
    cases ha
  cases hrun.symm.trans hrun'

end Fomo
