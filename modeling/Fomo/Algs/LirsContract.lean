import Fomo.Algs.LirsMap

/-!
# What a LIRS request tells its caller

Whatever the order of requests, migrations and removals, the lists stay in step with the
entries. A miss reports the slot its block migrates to; a hit reports nothing, and neither
does the shortcut for the block requested last, which may have left the cache meanwhile.
-/
namespace Fomo

/-- Requests, migrations and removals of cached blocks. -/
def lirsCalls (lirs : LirsPolicy) : Call → Prop
  | .map _ _ _ => True
  | .migrated _ => True
  | .remove o _ => lirs.nucleus.Cached o
  | _ => False

namespace LirsPolicy

/-- A hit names the slot of the block. A miss was one, and the block migrates to the slot
named, so that the migration can complete. -/
def Reports (s : LirsPolicy) (o : Oblock) (s' : LirsPolicy) (res : CacheNucleusResult) : Prop :=
  match res.op with
  | .hit => s.nucleus.Caches o res.cblock
  | .new | .replace => ¬s.nucleus.Cached o ∧ s'.nucleus.Caches o res.cblock ∧
      s'.nucleus.Migrating res.cblock ∧ ∃ s'', lirsMigratedApi s' o = .ok s''
  | _ => True

/-- The invariant with the pool of the ghosts. -/
structure Sized (m : Nat) (s : LirsPolicy) : Prop where
  inv : s.Inv none
  metaEntries : (s.nucleus.pool .metadata).nrEntries = m

variable {s s' : LirsPolicy} {x : Option EntryRef} {r : EntryRef} {o : Oblock} {m : Nat}
  {lt : LirsTransaction} {result res : CacheNucleusResult} {w : Bool}

/-! ## The dirty work -/

/-- The entries of `s'` are those of `s`, except for the dirty bits. -/
structure SameButDirty (s s' : LirsPolicy) : Prop where
  inv : s'.Inv none
  entry : ∀ r, ∃ d, s'.nucleus.entry r = { s.nucleus.entry r with dirty := d }
  free : (s'.nucleus.pool .cache).free = (s.nucleus.pool .cache).free
  frame : s.SameFrame s'
  lists : s'.q = s.q ∧ s'.s = s.s ∧ s'.isHIR = s.isHIR ∧ s'.lirCount = s.lirCount ∧
    s'.sLen = s.sLen

/-- A request after its commit. -/
def finished (s : LirsPolicy) (o : Oblock) (w : Bool) : LirsPolicy :=
  { s with nucleus := dirtyWork s.nucleus.incIos o w }

theorem Inv.finished (h : s.Inv none) (o : Oblock) (w : Bool) :
    s.SameButDirty (s.finished o w) := by
  have h0 := h.withStats s.nucleus.incIos.stats
  let s0 : LirsPolicy := { s with nucleus := s.nucleus.incIos }
  have h0 : s0.Inv none := h0
  unfold LirsPolicy.finished
  cases hl : hashLookup s.nucleus.incIos o with
  | none =>
    rw [CacheNucleus.dirtyWork_of_none hl]
    exact ⟨h0, fun r => ⟨(s.nucleus.entry r).dirty, rfl⟩, rfl, ⟨fun _ => rfl, rfl, rfl, rfl, rfl⟩,
      rfl, rfl, rfl, rfl, rfl⟩
  | some r =>
    cases hp : r.pool with
    | metadata =>
      rw [CacheNucleus.dirtyWork_of_meta hl hp]
      exact ⟨h0, fun r => ⟨(s.nucleus.entry r).dirty, rfl⟩, rfl,
        ⟨fun _ => rfl, rfl, rfl, rfl, rfl⟩, rfl, rfl, rfl, rfl, rfl⟩
    | cache =>
      have hrw := h0.wf.dirtyWork_cache hl hp w
      refine ⟨h0.rewriteEntry hrw rfl (Or.inr rfl), ?_, ?_,
        ⟨hrw.nrEntries, hrw.cacheSize, rfl, rfl, rfl⟩, rfl, rfl, rfl, rfl, rfl⟩
      · intro u
        by_cases hu : u = r
        · subst hu
          exact ⟨_, hrw.entry_self⟩
        · exact ⟨(s.nucleus.entry u).dirty, hrw.entry_of_ne hu⟩
      · have hfree := hrw.free
        rw [hp] at hfree
        exact hfree

theorem SameButDirty.caches (h : s.SameButDirty s') (o : Oblock) (cb : Cblock) :
    s'.nucleus.Caches o cb ↔ s.nucleus.Caches o cb := by
  obtain ⟨d, hd⟩ := h.entry ⟨.cache, cb⟩
  unfold CacheNucleus.Caches
  rw [hd]

theorem SameButDirty.migrating (h : s.SameButDirty s') (r : EntryRef) :
    (s'.nucleus.entry r).migrating = (s.nucleus.entry r).migrating := by
  obtain ⟨d, hd⟩ := h.entry r
  rw [hd]

/-! ## Migrations -/

/-- `s'` is `s` with the entry `r` settled and listed. -/
structure Migrated (s : LirsPolicy) (r : EntryRef) (s' : LirsPolicy) : Prop where
  inv : s'.Inv none
  rewrites : s.nucleus.Rewrites r { s.nucleus.entry r with migrating := false }
    (s.nucleus.pool r.pool).free s'.nucleus
  frame : s.SameFrame s'
  isHIR : s'.isHIR = s.isHIR
  lirCount : s'.lirCount = s.lirCount
  stack : s'.s = s.s ++ [r]
  sLen : s'.sLen = s.sLen

end LirsPolicy

open LirsPolicy

variable {s s' : LirsPolicy} {x : Option EntryRef} {r : EntryRef} {o : Oblock} {m : Nat}
  {lt : LirsTransaction} {result res : CacheNucleusResult} {w : Bool}

theorem lirsMigratedApi_spec (h : s.Inv none) (hl : hashLookup s.nucleus o = some r)
    (hm : (s.nucleus.entry r).migrating = true) :
    ∃ s', lirsMigratedApi s o = .ok s' ∧ s.Migrated r s' := by
  obtain ⟨ha, _⟩ := h.wf.hashLookup_eq_some.mp hl
  have hp : r.pool = .cache := by
    cases hp : r.pool with
    | cache => rfl
    | metadata =>
      have := ((h.placed r).ghost ha hp).1
      rw [hm] at this
      cases this
  obtain ⟨cn, hrun, hrw⟩ := h.wf.migratedCacheEntry hp hm
  let s1 : LirsPolicy := { s with nucleus := cn }
  have h1 : s1.Inv (some r) := (h.hold hm).rewriteEntry hrw rfl (Or.inl ⟨rfl, hp⟩)
  have hself : s1.nucleus.entry r = { s.nucleus.entry r with migrating := false } :=
    hrw.entry_self
  have h2 : (s1.settle r).Inv none := h1.settle hp (by rw [hself]; exact ha) (by rw [hself])
  refine ⟨{ s1.settle r with nucleus := cn.incPromotions }, ?_,
    h2.withStats cn.incPromotions.stats, hrw.withStats cn.incPromotions.stats,
    ⟨hrw.nrEntries, hrw.cacheSize, rfl, rfl, rfl⟩, rfl, rfl, rfl, rfl⟩
  cases hr : s.isHIR r with
  | true =>
    simp [lirsMigratedApi, hl, logAssert, hm, hrun, hr, lirsPushToQueues, settle, s1]
  | false =>
    simp [lirsMigratedApi, hl, logAssert, hm, hrun, hr, lirsPushToQueues, settle, s1]

/-- A migration that completes is one of a migrating entry. -/
theorem lirsMigratedApi_ok (hrun : lirsMigratedApi s o = .ok s') :
    ∃ r, hashLookup s.nucleus o = some r ∧ (s.nucleus.entry r).migrating = true := by
  cases hl : hashLookup s.nucleus o with
  | none => simp [lirsMigratedApi, hl] at hrun
  | some r =>
    refine ⟨r, rfl, ?_⟩
    by_contra hm
    simp [lirsMigratedApi, hl, logAssert, hm] at hrun

/-! ## Requests -/

theorem lirsMapApi_repeat (ho : o = s.lastOblock) (w : Bool) (result : CacheNucleusResult) :
    ∃ st, lirsMapApi s o w result =
      .ok (({ s with nucleus := { s.nucleus with stats := st } } : LirsPolicy).finished o w,
        { result with op := if inCache (hashLookup s.nucleus o) then .hit else .new }) := by
  have hset := lirsTransactionSet_repeat ho
  obtain ⟨st, hrun⟩ := lirsTransactionCommit_repeat s
    { lirsTransactionInit o with isRepeat := true } result rfl rfl
  have hleg : lirsTransactionIsLegal s { lirsTransactionInit o with isRepeat := true } = true :=
    rfl
  refine ⟨st, ?_⟩
  rw [lirsMapApi, hset, ok_bind, if_pos hleg, hrun]
  rfl

theorem lirsMapApi_hit (h : s.Inv none) (hl : hashLookup s.nucleus o = some r)
    (hp : r.pool = .cache) (hset : lirsTransactionSet s (lirsTransactionInit o) = .ok lt)
    (hpl : s.Planned o lt) (hs : lt.lirEvict = true → s.s ≠ []) (w : Bool)
    (result : CacheNucleusResult) :
    ∃ s4, s.Hit o r s4 ∧ lirsMapApi s o w result = (do
      let s6 ← s4.finish lt r
      let s7 ← lirsPruneS s6
      return (s7.finished o w, { result with op := .hit })) := by
  have hev : lt.hirEvict = false := by
    rw [hpl.hirEvict, hl]
    simp [inCache, hp]
  obtain ⟨s4, hhit, hrun⟩ := lirsTransactionCommit_hit h hl hp hpl result
  have hleg : lirsTransactionIsLegal s lt = true := by
    rw [lirsTransactionIsLegal_eq hs, hev]
    rfl
  refine ⟨s4, hhit, ?_⟩
  simp only [lirsMapApi, hset, ok_bind, hleg, if_true, hrun, bind_assoc, pure_eq_ok]
  rfl

theorem lirsMapApi_miss (h : s.Inv none)
    (hun : ∀ r ∈ hashLookup s.nucleus o, r.pool = .metadata)
    (hset : lirsTransactionSet s (lirsTransactionInit o) = .ok lt) (hpl : s.Planned o lt)
    (hs : lt.lirEvict = true → s.s ≠ []) (hq : lt.hirEvict = true → s.q ≠ []) (w : Bool)
    (result : CacheNucleusResult)
    (hok : 0 < (s.nucleus.pool .metadata).nrEntries ∨ ∃ x, lirsMapApi s o w result = .ok x) :
    ∃ s4 i res, s.Entered o lt i s4 ∧ res.cblock = i ∧
      res.op = (if lt.hirEvict then .replace else .new) ∧
      lirsMapApi s o w result = (do
        let s6 ← s4.finish lt ⟨.cache, i⟩
        let s7 ← lirsPruneS s6
        return (s7.finished o w, res)) := by
  have hleg : lirsTransactionIsLegal s lt = true := by
    rw [lirsTransactionIsLegal_eq hs]
    cases hev : lt.hirEvict with
    | false => rfl
    | true =>
      obtain ⟨v, t, hqv⟩ := List.exists_cons_of_ne_nil (hq hev)
      simp [hqv]
  have hok' : 0 < (s.nucleus.pool .metadata).nrEntries ∨
      ∃ x, lirsTransactionCommit s lt result = .ok x := by
    refine hok.imp_right fun hx => ?_
    obtain ⟨x, hx⟩ := hx
    simp only [lirsMapApi, hset, ok_bind, hleg, if_true] at hx
    obtain ⟨y, hy, _⟩ := bind_eq_ok.mp hx
    exact ⟨y, hy⟩
  obtain ⟨s4, i, res, hent, hcb, hop, hrun⟩ :=
    lirsTransactionCommit_miss h hun hpl hq result hok'
  refine ⟨s4, i, res, hent, hcb, hop, ?_⟩
  simp only [lirsMapApi, hset, ok_bind, hleg, if_true, hrun, bind_assoc, pure_eq_ok]
  rfl

/-- A full cache without a settled HIR block refuses the request. -/
theorem lirsMapApi_refused (hset : lirsTransactionSet s (lirsTransactionInit o) = .ok lt)
    (hs : lt.lirEvict = true → s.s ≠ []) (hev : lt.hirEvict = true) (hq : s.q = []) (w : Bool)
    (result : CacheNucleusResult) :
    lirsMapApi s o w result = .ok (s, { result with op := .fail }) := by
  have hleg : lirsTransactionIsLegal s lt = false := by
    rw [lirsTransactionIsLegal_eq hs, hev, hq]
    rfl
  simp [lirsMapApi, hset, hleg]

theorem lirsPruneS_ok (h : s.Inv x) (hrun : lirsPruneS s = .ok s') :
    s'.Inv x ∧ s.Trimmed s' := by
  by_cases hr : s.sLen ≤ s.sMaxlen ∨ s.r ≠ []
  · obtain ⟨s1, hrun', hinv, htrim, _⟩ := lirsPruneS_spec h hr
    obtain rfl := Except.ok.inj (hrun.symm.trans hrun')
    exact ⟨hinv, htrim⟩
  · have hlt : s.sMaxlen < s.sLen := Nat.not_le.mp fun hx => hr (Or.inl hx)
    have hnil : s.r = [] := by
      by_contra hx
      exact hr (Or.inr hx)
    rw [lirsPruneS_fault hlt hnil] at hrun
    cases hrun

/-- The end of a request that returned. -/
theorem lirsFinish_ok (h : s.Inv (some r)) (hp : r.pool = .cache)
    (ha : (s.nucleus.entry r).allocated = true)
    (hst : (s.nucleus.entry r).migrating = true ∨ lt.isHIR = false ∧ s.isHIR r = false)
    (hrun : (do
      let s6 ← s.finish lt r
      let s7 ← lirsPruneS s6
      .ok (s7.finished o w, res) : Exec (LirsPolicy × CacheNucleusResult)) = .ok (s', result)) :
    result = res ∧ s'.Inv none ∧ s.SameFrame s' ∧
      ∀ b, ∃ d, s'.nucleus.entry ⟨.cache, b⟩ = { s.nucleus.entry ⟨.cache, b⟩ with dirty := d } := by
  rcases lirsTransactionFinish_case lt h hp ha hst with ⟨s6, hrun6, hfin⟩ | ⟨⟨f, hrun6⟩, _⟩
  · rw [hrun6, ok_bind] at hrun
    obtain ⟨s7, hrun7, heq⟩ := bind_eq_ok.mp hrun
    obtain ⟨hinv7, htrim⟩ := lirsPruneS_ok hfin.inv hrun7
    obtain ⟨rfl, rfl⟩ := Prod.mk.inj (Except.ok.inj heq)
    have hdirty := hinv7.finished o w
    have hsame := hfin.sameSlots.trans htrim.sameSlots
    refine ⟨rfl, hdirty.inv, hsame.frame.trans hdirty.frame, fun b => ?_⟩
    obtain ⟨d, hd⟩ := hdirty.entry ⟨.cache, b⟩
    exact ⟨d, by rw [hd, hsame.cache b]⟩
  · rw [hrun6] at hrun
    cases hrun

namespace LirsPolicy

/-- How a request that returns ends. -/
inductive Outcome (s : LirsPolicy) (o : Oblock) (result : CacheNucleusResult) (s' : LirsPolicy)
    (res : CacheNucleusResult) : Prop
  | again (ho : o = s.lastOblock)
      (hsame : ∀ cb, s'.nucleus.Caches o cb ↔ s.nucleus.Caches o cb)
      (hres : res = { result with
        op := if inCache (hashLookup s.nucleus o) then .hit else .new })
  | hit (hc : s.nucleus.Cached o) (ho : o ≠ s.lastOblock) (hres : res = { result with op := .hit })
  | miss (hno : ¬s.nucleus.Cached o) (ho : o ≠ s.lastOblock)
      (hop : res.op = .new ∨ res.op = .replace) (hc : s'.nucleus.Caches o res.cblock)
      (hm : s'.nucleus.Migrating res.cblock)
  | fail (hno : ¬s.nucleus.Cached o) (ho : o ≠ s.lastOblock) (hop : res.op = .fail)

theorem Inv.cached_iff (h : s.Inv x) :
    s.nucleus.Cached o ↔ ∃ r, hashLookup s.nucleus o = some r ∧ r.pool = .cache := by
  unfold CacheNucleus.Cached
  simp only [h.wf.caches_iff]
  constructor
  · intro hx
    obtain ⟨cb, hl⟩ := hx
    exact ⟨_, hl, rfl⟩
  · intro hx
    obtain ⟨⟨p, i⟩, hl, hp⟩ := hx
    obtain rfl : p = .cache := hp
    exact ⟨i, hl⟩

theorem Inv.inCache_iff (h : s.Inv x) :
    inCache (hashLookup s.nucleus o) = true ↔ s.nucleus.Cached o := h.wf.inCache_iff

/-- A block that is not cached is a ghost or unknown. -/
theorem Inv.ghost_of_not_cached (h : s.Inv x) (hno : ¬s.nucleus.Cached o) :
    ∀ r ∈ hashLookup s.nucleus o, r.pool = .metadata := by
  intro r hr
  cases hp : r.pool with
  | metadata => rfl
  | cache => exact absurd (h.cached_iff.mpr ⟨r, hr, hp⟩) hno

end LirsPolicy

theorem lirsMapApi_ok (h : s.Sized m)
    (hrun : lirsMapApi s o w result = .ok (s', res)) : s'.Sized m ∧ s.Outcome o result s' res := by
  by_cases ho : o = s.lastOblock
  · obtain ⟨st, hrun'⟩ := lirsMapApi_repeat ho w result
    rw [hrun'] at hrun
    obtain ⟨rfl, rfl⟩ := Prod.mk.inj (Except.ok.inj hrun)
    have hdirty := (h.inv.withStats st).finished o w
    exact ⟨⟨hdirty.inv, (hdirty.frame.nrEntries _).trans h.metaEntries⟩,
      .again ho (fun cb => hdirty.caches o cb) rfl⟩
  rcases lirsTransactionSet_case ho with ⟨lt, hset, hpl, hs⟩ | ⟨hset, _⟩
  · by_cases hc : s.nucleus.Cached o
    · obtain ⟨r, hl, hp⟩ := h.inv.cached_iff.mp hc
      obtain ⟨s4, hhit, hmap⟩ := lirsMapApi_hit h.inv hl hp hset hpl hs w result
      rw [hmap] at hrun
      obtain ⟨ha, _⟩ := h.inv.wf.hashLookup_eq_some.mp hl
      have hentry : s4.nucleus.entry r = s.nucleus.entry r := by
        obtain ⟨rp, ri⟩ := r
        obtain rfl : rp = .cache := hp
        rw [hhit.sameSlots.cache ri, counted_entry]
      have hst : lt.isHIR = false ∧ s4.isHIR r = false := by
        rw [hpl.isHIR, hl, hhit.isHIR, Function.update_self]
        simp
      obtain ⟨rfl, hinv, hframe, _⟩ := lirsFinish_ok hhit.inv hp (by rw [hentry]; exact ha)
        (Or.inr hst) hrun
      refine ⟨⟨hinv, ?_⟩, .hit hc ho rfl⟩
      rw [hframe.nrEntries, hhit.sameSlots.frame.nrEntries, counted_pool]
      exact h.metaEntries
    · have hun := h.inv.ghost_of_not_cached hc
      by_cases hq : lt.hirEvict = true ∧ s.q = []
      · rw [lirsMapApi_refused hset hs hq.1 hq.2] at hrun
        obtain ⟨rfl, rfl⟩ := Prod.mk.inj (Except.ok.inj hrun)
        exact ⟨h, .fail hc ho rfl⟩
      · obtain ⟨s4, i, res4, hent, hcb, hop, hmap⟩ := lirsMapApi_miss h.inv hun hset hpl hs
          (fun hev hnil => hq ⟨hev, hnil⟩) w result (Or.inr ⟨_, hrun⟩)
        rw [hmap] at hrun
        have hmig := hent.holds.migrating
        obtain ⟨rfl, hinv, hframe, hsame⟩ := lirsFinish_ok (hent.inv.hold hmig) rfl
          hent.holds.allocated (Or.inl hmig) hrun
        subst hcb
        obtain ⟨d, hd⟩ := hsame res.cblock
        refine ⟨⟨hinv, ?_⟩, .miss hc ho ?_ ?_ ?_⟩
        · rw [hframe.nrEntries, hent.frame.nrEntries, counted_pool]
          exact h.metaEntries
        · rw [hop]
          cases lt.hirEvict
          · exact Or.inl rfl
          · exact Or.inr rfl
        · unfold CacheNucleus.Caches
          rw [hd]
          exact ⟨hent.holds.allocated, hent.holds.oblock⟩
        · unfold CacheNucleus.Migrating
          rw [hd]
          exact hmig
  · simp [lirsMapApi, hset] at hrun

theorem lirsMigratedApi_sized (h : s.Sized m) (hrun : lirsMigratedApi s o = .ok s') :
    s'.Sized m := by
  obtain ⟨r, hl, hmig⟩ := lirsMigratedApi_ok hrun
  obtain ⟨s1, hrun', hm⟩ := lirsMigratedApi_spec h.inv hl hmig
  obtain rfl := Except.ok.inj (hrun.symm.trans hrun')
  exact ⟨hm.inv, (hm.frame.nrEntries _).trans h.metaEntries⟩

/-- A removal evicts the entry of the block, and then prunes. -/
theorem lirsRemoveApi_evicted (h : s.Inv none) (hl : hashLookup s.nucleus o = some r)
    (hp : r.pool = .cache) {keep : Bool}
    (hok : 0 < (s.nucleus.pool .metadata).nrEntries ∨ ∃ s', lirsRemoveApi s o keep = .ok s') :
    ∃ s1, lirsRemoveApi s o keep = lirsPruneS s1 ∧ s.Evicted r s1 := by
  obtain ⟨ha, _⟩ := h.wf.hashLookup_eq_some.mp hl
  have hin : inCache (some r) = true := by simp [inCache, hp]
  by_cases hh : keep = true ∧ s.isHIR r = true ∧ r ∈ s.s
  · obtain ⟨rfl, hhir, hrs⟩ := hh
    have hok' : 0 < (s.nucleus.pool .metadata).nrEntries ∨
        ∃ s', lirsReplaceWithMeta s r = .ok s' := by
      refine hok.imp_right fun hx => ?_
      obtain ⟨s', hx⟩ := hx
      simp only [lirsRemoveApi, hl, deref_some, ok_bind, hin, hhir, hrs, decide_true,
        Bool.and_self, if_true] at hx
      obtain ⟨y, hy, _⟩ := bind_eq_ok.mp hx
      exact ⟨y, hy⟩
    obtain ⟨s1, hrun1, he⟩ := lirsReplaceWithMeta_case h hrs hhir hp hok'
    exact ⟨s1, by simp [lirsRemoveApi, hl, hin, hhir, hrs, hrun1], he⟩
  · obtain ⟨s1, hrun1, hf⟩ := lirsRemoveEntry_spec h ha
    have hcond : (keep && (s.isHIR r && decide (r ∈ s.s))) = false := by simpa using hh
    exact ⟨s1, by simp only [lirsRemoveApi, hl, deref_some, ok_bind, hin, if_true, hcond,
      Bool.false_eq_true, if_false, hrun1], hf.evicted hp⟩

theorem lirsRemoveApi_sized (h : s.Sized m) (hm : 0 < m) (hc : s.nucleus.Cached o)
    {removeToHistory : Bool} (hrun : lirsRemoveApi s o removeToHistory = .ok s') : s'.Sized m := by
  obtain ⟨r, hl, hp⟩ := h.inv.cached_iff.mp hc
  have hm' : 0 < (s.nucleus.pool .metadata).nrEntries := by rw [h.metaEntries]; exact hm
  obtain ⟨s1, hrun1, he⟩ := lirsRemoveApi_evicted h.inv hl hp (Or.inl hm')
  rw [hrun1] at hrun
  obtain ⟨hinv, htrim⟩ := lirsPruneS_ok he.inv hrun
  exact ⟨hinv, (htrim.frame.nrEntries _).trans ((he.frame.nrEntries _).trans h.metaEntries)⟩

/-! ## Creation -/

def lirsPools (cacheSize metaSize : UInt32) : PoolId → Nat
  | .cache => cacheSize.toNat
  | .metadata => metaSize.toNat

theorem lirsPools_lt (c m : UInt32) (p : PoolId) : lirsPools c m p < 2 ^ 32 := by
  cases p with
  | cache => exact c.toNat_lt
  | metadata => exact m.toNat_lt

/-- The policy `lirs_create` returns. -/
def lirsFresh (cacheSize metaSize : UInt32) : LirsPolicy where
  nucleus := freshNucleus cacheSize.toNat metaSize.toNat (lirsPools cacheSize metaSize)
  q := []
  s := []
  r := []
  g := []
  hirLimit := max 2 (cacheSize.toNat / 100)
  lirCount := 0
  sLen := 0
  sMaxlen := u32 (2 * cacheSize.toNat)
  lastOblock := 0 - 1
  isHIR := fun _ => false

theorem lirsCreate_eq (c m : UInt32) : lirsCreate c m = .ok (lirsFresh c m) := by
  rw [lirsCreate, lirsInit, policyInit_eq (n := lirsPools c m) ?_ (lirsPools_lt c m)]
  · rfl
  · intro p
    cases p <;> rfl

theorem lirsFresh_sized (c m : UInt32) : (lirsFresh c m).Sized m.toNat := by
  have hfree : ∀ r, ((lirsFresh c m).nucleus.entry r).allocated = false := fun _ => rfl
  refine ⟨⟨freshNucleus_wf (lirsPools_lt c m), List.nodup_nil, List.nodup_nil, List.nodup_nil, rfl,
    fun r => ?_, ?_⟩, rfl⟩
  · refine Placed.nowhere (fun hset => ?_) List.not_mem_nil List.not_mem_nil List.not_mem_nil
      fun ha => ?_
    · have := hset.1
      rw [hfree] at this
      cases this
    · rw [hfree] at ha
      cases ha
  · have hno : (lirsFresh c m).lir = fun _ => false := by
      funext i
      unfold LirsPolicy.lir
      rw [hfree]
      rfl
    rw [hno]
    show 0 = Lib.slots _ _
    simp [Lib.slots]

theorem LirsPolicy.Sized.of_reachable {c m : UInt32} {s0 : LirsPolicy} (hm : 1 ≤ m.toNat)
    (hinit : lirsCreate c m = .ok s0) (hs : (lirsApi.system lirsCalls).Reachable s0 s) :
    s.Sized m.toNat := by
  rw [lirsCreate_eq] at hinit
  obtain rfl := Except.ok.inj hinit
  apply hs.invariant (lirsFresh_sized c m)
  intro a call b x ha hg hcall
  cases call with
  | map o w result =>
    obtain ⟨res, _, hmap⟩ := Policy.call_map.mp hcall
    exact (lirsMapApi_ok ha hmap).1
  | migrated o =>
    obtain ⟨s1, hrun, heq⟩ := map_eq_ok.mp hcall
    exact (Prod.mk.inj heq).1 ▸ lirsMigratedApi_sized ha hrun
  | remove o keep =>
    obtain ⟨s1, hrun, heq⟩ := map_eq_ok.mp hcall
    exact (Prod.mk.inj heq).1 ▸ lirsRemoveApi_sized ha hm hg hrun
  | insert o cb => exact hg.elim
  | remap a b => exact hg.elim
  | setTime time => exact hg.elim

/-! ## The contract -/

/-- What an outcome reports. -/
theorem LirsPolicy.Outcome.reports_iff (h : s.Inv none) (h' : s'.Inv none)
    (hout : s.Outcome o result s' res) :
    s.Reports o s' res ↔ s.nucleus.Caches o result.cblock ∨
      ¬s.nucleus.Cached o ∧ o ≠ s.lastOblock := by
  cases hout with
  | again ho hsame hres =>
    by_cases hc : s.nucleus.Cached o
    · have hop : res = { result with op := .hit } := by rw [hres, if_pos (h.inCache_iff.mpr hc)]
      subst hop
      show s.nucleus.Caches o result.cblock ↔ _
      constructor
      · exact Or.inl
      · intro hx
        exact hx.resolve_right fun hno => hno.1 hc
    · have hop : res = { result with op := .new } := by
        rw [hres, if_neg fun hx => hc (h.inCache_iff.mp hx)]
      subst hop
      refine iff_of_false (fun hrep => ?_) fun hx => ?_
      · exact hc ⟨_, (hsame _).mp hrep.2.1⟩
      · rcases hx with hx | hx
        · exact hc ⟨_, hx⟩
        · exact hx.2 ho
  | hit hc ho hres =>
    subst hres
    show s.nucleus.Caches o result.cblock ↔ _
    constructor
    · exact Or.inl
    · intro hx
      exact hx.resolve_right fun hno => hno.1 hc
  | miss hno ho hop hc hm =>
    refine iff_of_true ?_ (Or.inr ⟨hno, ho⟩)
    obtain ⟨s'', hrun, _⟩ := lirsMigratedApi_spec h' (h'.wf.caches_iff.mp hc) hm
    unfold Reports
    rcases hop with hop | hop
    · rw [hop]
      exact ⟨hno, hc, hm, s'', hrun⟩
    · rw [hop]
      exact ⟨hno, hc, hm, s'', hrun⟩
  | fail hno ho hop =>
    refine iff_of_true ?_ (Or.inr ⟨hno, ho⟩)
    unfold Reports
    rw [hop]
    trivial

/-- When a request that returns says where its block is: the slot of a cached block is the
one the caller's record named before, or the block is neither cached nor the one requested
last. -/
theorem lirs_map_results {c m : UInt32} (hm : 1 ≤ m.toNat)
    {s0 : LirsPolicy} (hinit : lirsCreate c m = .ok s0)
    (hs : (lirsApi.system lirsCalls).Reachable s0 s)
    (hmap : lirsApi.map s o w result = .ok (s', res)) :
    s.Reports o s' res ↔ s.nucleus.Caches o result.cblock ∨
      ¬s.nucleus.Cached o ∧ o ≠ s.lastOblock := by
  have h := Sized.of_reachable hm hinit hs
  obtain ⟨h', hout⟩ := lirsMapApi_ok h hmap
  exact hout.reports_iff h.inv h'.inv

/-- Two blocks are cached, in the slots 2 and 1. -/
def lirsTwoBlocks : List Call := [.map 5 false {}, .migrated 5, .map 6 false {}, .migrated 6]

theorem lirsTwoBlocks_admits : (lirsApi.system lirsCalls).Admits (lirsFresh 3 1) lirsTwoBlocks :=
  ⟨trivial, trivial, trivial, trivial, trivial⟩

theorem lirsTwoBlocks_exec : ∃ s ws,
    (lirsApi.system lirsCalls).exec (lirsFresh 3 1) lirsTwoBlocks = .ok (s, ws) ∧
    (∃ s' res, lirsApi.map s 5 false {} = .ok (s', res) ∧ res.op = .hit ∧ res.cblock = 0) ∧
    (∃ s' res, lirsApi.map s 7 false {} = .ok (s', res) ∧ res.op = .new) ∧
    hashLookup s.nucleus 5 = some ⟨.cache, 2⟩ ∧ hashLookup s.nucleus 7 = none ∧
    s.lastOblock = 6 :=
  ⟨_, _, rfl, ⟨_, _, rfl, rfl, rfl⟩, ⟨_, _, rfl, rfl⟩, rfl, rfl, rfl⟩

/-- A hit reports slot 0 for a block in slot 2. -/
theorem lirs_map_results_hit : ¬∀ (c m : UInt32) (s0 s s' : LirsPolicy) (o : Oblock) (w : Bool)
    (result res : CacheNucleusResult), 3 ≤ c.toNat → 1 ≤ m.toNat → lirsCreate c m = .ok s0 →
    (lirsApi.system lirsCalls).Reachable s0 s → lirsApi.map s o w result = .ok (s', res) →
    s.Reports o s' res := by
  intro hall
  have hinit := lirsCreate_eq 3 1
  obtain ⟨s, ws, hexec, ⟨s', res, hmap, hop, hcb⟩, _, hl, _⟩ := lirsTwoBlocks_exec
  have hrun := (Lib.System.Run.of_exec lirsTwoBlocks_admits hexec).reachable
  have hrep := hall 3 1 _ s s' 5 false {} res (by decide) (by decide) hinit hrun hmap
  have h := Sized.of_reachable (by decide) hinit hrun
  unfold Reports at hrep
  rw [hop, hcb] at hrep
  have hslot := (h.inv.wf.caches_iff.mp hrep).symm.trans hl
  cases hslot

/-- A block that was never requested is reported. -/
theorem lirs_map_results_new : ∃ s s' res,
    (lirsApi.system lirsCalls).Reachable (lirsFresh 3 1) s ∧
    lirsApi.map s 7 false {} = .ok (s', res) ∧ res.op = .new ∧ s.Reports 7 s' res := by
  have hinit := lirsCreate_eq 3 1
  obtain ⟨s, ws, hexec, _, ⟨s', res, hmap, hop⟩, _, hl, hlast⟩ := lirsTwoBlocks_exec
  have hrun := (Lib.System.Run.of_exec lirsTwoBlocks_admits hexec).reachable
  have h := Sized.of_reachable (by decide) hinit hrun
  have hno : ¬s.nucleus.Cached 7 := (h.inv.wf.hashLookup_eq_none.mp hl).not_cached
  refine ⟨s, s', res, hrun, hmap, hop, ?_⟩
  apply (lirs_map_results (by decide) hinit hrun hmap).mpr
  exact Or.inr ⟨hno, by rw [hlast]; decide⟩

end Fomo
