import Fomo.DmcachePolicy.DmcacheBase

/-!
# dmcache_base over any policy

What dmcache_base writes of a policy are dirty bits and the queues of the tracker (`withMarks`).
What it relies on over a run is said once (`Policy.Locates`): every call that returns keeps it,
and it decides when a lookup and a request report the cblock of a cached block.
-/
namespace Fomo

variable {σ : Type}

/-! ## Marks -/

/-- Other dirty bits and another tracker. -/
def CacheNucleus.withMarks (cn : CacheNucleus) (dirty : EntryRef → Bool)
    (wb : WritebackTracker) : CacheNucleus :=
  { cn with
    pool := fun p => { cn.pool p with
      entries := fun i => { (cn.pool p).entries i with dirty := dirty ⟨p, i⟩ } }
    wb := wb }

/-- `f` writes nothing but marks. -/
def Marking (f : CacheNucleus → CacheNucleus) : Prop :=
  ∀ cn, ∃ dirty wb, f cn = cn.withMarks dirty wb

theorem CacheNucleus.setEntry_dirty (cn : CacheNucleus) (e : EntryRef) (dirty : Bool) :
    cn.setEntry e { cn.entry e with dirty := dirty } =
      cn.withMarks (Function.update (fun r => (cn.entry r).dirty) e dirty) cn.wb := by
  obtain ⟨p, i⟩ := e
  have hpool : Function.update cn.pool p
      ((cn.pool p).set i { cn.entry ⟨p, i⟩ with dirty := dirty }) = fun q => { cn.pool q with
        entries := fun j => { (cn.pool q).entries j with
          dirty := Function.update (fun r => (cn.entry r).dirty) ⟨p, i⟩ dirty ⟨q, j⟩ } } := by
    funext q
    by_cases hq : q = p
    · subst hq
      rw [Function.update_self]
      refine congrArg (fun entries => { cn.pool q with entries := entries }) (funext fun j => ?_)
      by_cases hj : j = i
      · subst hj
        rw [Function.update_self, Function.update_self]
        rfl
      · have hne : (⟨q, j⟩ : EntryRef) ≠ ⟨q, i⟩ := fun hx => hj (EntryRef.mk.inj hx).2
        rw [Function.update_of_ne hj, Function.update_of_ne hne]
        rfl
    · have hmark : ∀ j, Function.update (fun r => (cn.entry r).dirty) ⟨p, i⟩ dirty ⟨q, j⟩ =
          (cn.entry ⟨q, j⟩).dirty := fun j =>
        Function.update_of_ne (fun hx => hq (EntryRef.mk.inj hx).1) _ _
      rw [Function.update_of_ne hq]
      simp only [hmark]
      rfl
  exact congrArg (fun pool => { cn with pool := pool }) hpool

theorem Marking.ofWb (wb : CacheNucleus → WritebackTracker) :
    Marking fun cn => { cn with wb := wb cn } :=
  fun cn => ⟨fun r => (cn.entry r).dirty, wb cn, rfl⟩

theorem Marking.comp {f g : CacheNucleus → CacheNucleus} (hf : Marking f) (hg : Marking g) :
    Marking fun cn => g (f cn) := by
  intro cn
  obtain ⟨dirty, wb, h⟩ := hf cn
  obtain ⟨dirty', wb', h'⟩ := hg (f cn)
  refine ⟨dirty', wb', ?_⟩
  dsimp only
  rw [h', h]
  rfl

theorem marking_wbRemove (e : EntryRef) : Marking fun cn => wbRemove cn e :=
  .ofWb fun cn => cn.wb.remove e

theorem marking_wbPushCache (e : EntryRef) : Marking fun cn => wbPushCache cn e := by
  intro cn
  dsimp only
  unfold wbPushCache
  split
  · exact ⟨fun r => (cn.entry r).dirty, _, rfl⟩
  · exact ⟨fun r => (cn.entry r).dirty, _, rfl⟩

theorem marking_setEntry (e : EntryRef) (dirty : Bool) :
    Marking fun cn => cn.setEntry e { cn.entry e with dirty := dirty } :=
  fun cn => ⟨_, _, cn.setEntry_dirty e dirty⟩

theorem marking_wbMark (e : EntryRef) (dirty : Bool) : Marking fun cn => wbMark cn e dirty :=
  ((marking_wbRemove e).comp (marking_setEntry e dirty)).comp (marking_wbPushCache e)

/-! ## What dmcache_base relies on -/

/-- What dmcache_base relies on while the policy is in the states of `I`. `wraps` says that the
entries lie in the pools of an internal policy. -/
structure Policy.Locates (P : Policy σ) (I : σ → Prop) (wraps : Bool) : Prop where
  entryAt : ∀ s, P.entryAt s = (P.owner s).entry
  owner_setTime : ∀ s time, P.owner (P.setTime s time) = { P.owner s with time := time }
  lookup : ∀ {s o e}, I s → (P.cacheLookup s o = some e ↔ e.pool = .cache ∧
    ((P.owner s).entry e).allocated = true ∧ ((P.owner s).entry e).oblock = o)
  infer : ∀ {s o cb}, I s → (P.owner s).Caches o cb → inferPoolCblock (P.nucleus s)
    ⟨.cache, cb⟩ = if wraps then .error .assertion else .ok cb
  setTime : ∀ {s} time, I s → I (P.setTime s time)
  marks : ∀ {s} dirty wb, I s → I (P.setOwner s ((P.owner s).withMarks dirty wb))
  map : ∀ {s s' o result res}, I s → P.map s o false result = .ok (s', res) → I s'
  hits : ∀ {s s' o cb result res}, I s → (P.owner s).Caches o cb →
    P.map s o false result = .ok (s', res) →
      res.op = .hit ∧ res.cblock = cb ∧ (P.owner s').Cached o
  migrated : ∀ {s s' o}, I s → P.migrated s o = .ok s' → I s'
  insert : ∀ {s s' o cb}, I s → (P.owner s).MayInsert o cb → P.insert s o cb = .ok s' → I s'
  remove : ∀ {s s' o}, I s → P.remove s o false = .ok s' → I s'
  force : ∀ {s s1 s2 a b}, I s → P.remove s b false = .ok s1 → P.remap s1 a b = .ok s2 → I s2

/-- Requests for cached blocks return. -/
def Policy.Answers (P : Policy σ) (I : σ → Prop) : Prop :=
  ∀ {s o} result, I s → (P.owner s).Cached o → ∃ s' res, P.map s o false result = .ok (s', res)

/-- What holds between two calls. -/
structure DmcacheBase.Ready (I : σ → Prop) (d : DmcacheBase σ) : Prop where
  lock : d.lock = false
  policy : I d.policy

variable {P : Policy σ} {I : σ → Prop} {wraps : Bool} {d d' : DmcacheBase σ} {o : Oblock}
  {cb : Cblock} {bpResult res : CacheNucleusResult}

namespace Policy.Locates

theorem lookup_caches (h : P.Locates I wraps) {s : σ} (hi : I s)
    (hc : (P.owner s).Caches o cb) : P.cacheLookup s o = some ⟨.cache, cb⟩ :=
  (h.lookup hi).mpr ⟨rfl, hc⟩

theorem lookup_cached (h : P.Locates I wraps) {s : σ} (hi : I s)
    (hc : (P.owner s).Cached o) : ∃ e, P.cacheLookup s o = some e := by
  obtain ⟨cb, hc⟩ := hc
  exact ⟨_, h.lookup_caches hi hc⟩

theorem hit (h : P.Locates I wraps) (ha : P.Answers I) {s : σ} (result : CacheNucleusResult)
    (hi : I s) (hc : (P.owner s).Caches o cb) : ∃ s' res,
      P.map s o false result = .ok (s', res) ∧ res.op = .hit ∧ res.cblock = cb ∧
      (P.owner s').Cached o := by
  obtain ⟨s', res, hmap⟩ := ha result hi ⟨cb, hc⟩
  exact ⟨s', res, hmap, h.hits hi hc hmap⟩

theorem onOwner (h : P.Locates I wraps) (hi : I d.policy) {f : CacheNucleus → CacheNucleus}
    (hf : Marking f) : I (d.onOwner P f).policy := by
  obtain ⟨dirty, wb, heq⟩ := hf (P.owner d.policy)
  show I (P.setOwner d.policy (f (P.owner d.policy)))
  rw [heq]
  exact h.marks dirty wb hi

/-! ## The calls -/

theorem ask (h : P.Locates I wraps) (hi : I d.policy)
    (hrun : dmcacheBaseAsk P d o bpResult = .ok (d', res)) : I d'.policy := by
  obtain ⟨⟨s, res1⟩, hmap, hrun⟩ := bind_eq_ok.mp hrun
  have hs := h.map hi hmap
  dsimp only at hrun
  split at hrun
  · obtain ⟨e, _, hrun⟩ := bind_eq_ok.mp hrun
    obtain ⟨rfl, _⟩ := Prod.mk.inj (Except.ok.inj hrun)
    refine h.onOwner ?_ (marking_wbPushCache e)
    split
    · exact h.onOwner hs (marking_wbRemove e)
    · exact hs
  · obtain ⟨rfl, _⟩ := Prod.mk.inj (Except.ok.inj hrun)
    exact hs

theorem mapWork (h : P.Locates I wraps) (hi : I d.policy) {canMigrate : Bool} {r : Errno}
    (hrun : dmcacheBaseMapWork P d o canMigrate bpResult = .ok (d', res, r)) : I d'.policy := by
  unfold dmcacheBaseMapWork at hrun
  split at hrun
  · split at hrun
    · obtain ⟨cblock, _, hrun⟩ := bind_eq_ok.mp hrun
      obtain ⟨rfl, _⟩ := Prod.mk.inj (Except.ok.inj hrun)
      exact hi
    · obtain ⟨⟨d1, res1⟩, hask, hrun⟩ := bind_eq_ok.mp hrun
      obtain ⟨rfl, _⟩ := Prod.mk.inj (Except.ok.inj hrun)
      exact h.ask hi hask
  · split at hrun
    · obtain ⟨⟨d1, res1⟩, hask, hrun⟩ := bind_eq_ok.mp hrun
      obtain ⟨rfl, _⟩ := Prod.mk.inj (Except.ok.inj hrun)
      exact h.ask hi hask
    · obtain ⟨rfl, _⟩ := Prod.mk.inj (Except.ok.inj hrun)
      exact hi

theorem mark (h : P.Locates I wraps) (hd : d.Ready I) {dirty : Bool}
    (hrun : dmcacheBaseMark P d o dirty = .ok d') : d'.Ready I := by
  rw [dmcacheBaseMark, mutexLock_free hd.lock, ok_bind] at hrun
  dsimp only at hrun
  split at hrun
  · cases hrun
  · next e _ =>
    rw [← Except.ok.inj hrun]
    exact ⟨rfl, h.onOwner (d := { d with lock := true }) hd.policy (marking_wbMark e dirty)⟩

theorem removeMapping (h : P.Locates I wraps) (hd : d.Ready I)
    (hrun : dmcacheBaseRemoveMapping P d o = .ok d') : d'.Ready I := by
  rw [dmcacheBaseRemoveMapping, mutexLock_free hd.lock, ok_bind] at hrun
  dsimp only at hrun
  split at hrun
  · cases hrun
  · next e _ =>
    obtain ⟨s, hrem, hrun⟩ := bind_eq_ok.mp hrun
    rw [← Except.ok.inj hrun]
    exact ⟨rfl, h.remove (h.onOwner (d := { d with lock := true }) hd.policy
      (marking_wbRemove e)) hrem⟩

theorem removeCblock (h : P.Locates I wraps) (hd : d.Ready I) {r : Errno}
    (hrun : dmcacheBaseRemoveCblock P d cb = .ok (d', r)) : d'.Ready I := by
  rw [dmcacheBaseRemoveCblock, mutexLock_free hd.lock, ok_bind] at hrun
  dsimp only at hrun
  split at hrun
  · obtain ⟨rfl, _⟩ := Prod.mk.inj (Except.ok.inj hrun)
    exact ⟨rfl, hd.policy⟩
  · next e _ =>
    obtain ⟨s, hrem, hrun⟩ := bind_eq_ok.mp hrun
    obtain ⟨rfl, _⟩ := Prod.mk.inj (Except.ok.inj hrun)
    exact ⟨rfl, h.onOwner (d := { d with lock := true, policy := s }) (h.remove hd.policy hrem)
      (marking_wbRemove e)⟩

theorem writebackWork (h : P.Locates I wraps) (hd : d.Ready I) {o' : Oblock} {cb' : Cblock}
    {r : Errno} (hrun : dmcacheBaseWritebackWork P d o cb = .ok (d', o', cb', r)) :
    d'.Ready I := by
  rw [dmcacheBaseWritebackWork, mutexLock_free hd.lock, ok_bind] at hrun
  dsimp only at hrun
  split at hrun
  · obtain ⟨rfl, _⟩ := Prod.mk.inj (Except.ok.inj hrun)
    exact ⟨rfl, hd.policy⟩
  · next e cn hpop =>
    obtain ⟨cblock, _, hrun⟩ := bind_eq_ok.mp hrun
    obtain ⟨rfl, _⟩ := Prod.mk.inj (Except.ok.inj hrun)
    obtain ⟨x, _, hx⟩ := Option.map_eq_some_iff.mp hpop
    obtain ⟨_, rfl⟩ := Prod.mk.inj hx
    refine ⟨rfl, h.onOwner (d := ({ d with lock := true } : DmcacheBase σ).onOwner P fun _ => _)
      ?_ ((marking_setEntry e false).comp (marking_wbPushCache e))⟩
    exact h.marks (fun r => ((P.owner d.policy).entry r).dirty) _ hd.policy

theorem forceMapping (h : P.Locates I wraps) (hd : d.Ready I) {a b : Oblock}
    (hrun : dmcacheBaseForceMapping P d a b = .ok d') : d'.Ready I := by
  rw [dmcacheBaseForceMapping, mutexLock_free hd.lock, ok_bind] at hrun
  obtain ⟨s1, hrem, hrun⟩ := bind_eq_ok.mp hrun
  obtain ⟨s2, hremap, hrun⟩ := bind_eq_ok.mp hrun
  dsimp only at hrun
  split at hrun
  · cases hrun
  · next e _ =>
    rw [← Except.ok.inj hrun]
    exact ⟨rfl, h.onOwner (d := { d with lock := true, policy := s2 })
      (h.force hd.policy hrem hremap) (marking_wbMark e true)⟩

/-- Every call that returns leads to a state in which the policy can be relied on. -/
theorem call (h : P.Locates I wraps) (hd : d.Ready I) {c : DmcacheCall} {w : DmcacheAnswer}
    (hg : targetCalls P d c) (hcall : dmcacheBaseCall P d c = .ok (d', w)) : d'.Ready I := by
  cases c with
  | map o canBlock canMigrate bpResult result =>
    obtain ⟨y, hrun, heq⟩ := map_eq_ok.mp hcall
    rw [dmcacheBaseMap_eq hd.lock] at hrun
    obtain ⟨⟨d1, res, r⟩, hwork, rfl⟩ := map_eq_ok.mp hrun
    obtain ⟨rfl, _⟩ := Prod.mk.inj heq
    have hwork := h.mapWork (h.setTime d.tickProtected hd.policy) hwork
    exact ⟨rfl, hwork⟩
  | lookup o cb =>
    rw [dmcacheBaseCall, dmcacheBaseLookup_eq hd.lock] at hcall
    obtain ⟨rfl, _⟩ := Prod.mk.inj (Except.ok.inj hcall)
    exact hd
  | setDirty o =>
    obtain ⟨y, hrun, heq⟩ := map_eq_ok.mp hcall
    exact (Prod.mk.inj heq).1 ▸ h.mark hd hrun
  | clearDirty o =>
    obtain ⟨y, hrun, heq⟩ := map_eq_ok.mp hcall
    exact (Prod.mk.inj heq).1 ▸ h.mark hd hrun
  | loadMapping o cb =>
    obtain ⟨y, hrun, heq⟩ := map_eq_ok.mp hcall
    obtain ⟨s, hins, hrun⟩ := bind_eq_ok.mp hrun
    rw [← Except.ok.inj hrun] at heq
    obtain ⟨rfl, _⟩ := Prod.mk.inj heq
    exact ⟨hd.lock, h.insert hd.policy hg hins⟩
  | removeMapping o =>
    obtain ⟨y, hrun, heq⟩ := map_eq_ok.mp hcall
    exact (Prod.mk.inj heq).1 ▸ h.removeMapping hd hrun
  | removeCblock cb =>
    obtain ⟨⟨d1, r⟩, hrun, heq⟩ := map_eq_ok.mp hcall
    exact (Prod.mk.inj heq).1 ▸ h.removeCblock hd hrun
  | writebackWork o cb =>
    rw [dmcacheBaseCall] at hcall
    split at hcall
    · obtain ⟨⟨d1, o', cb', r⟩, hrun, heq⟩ := map_eq_ok.mp hcall
      exact (Prod.mk.inj heq).1 ▸ h.writebackWork hd hrun
    · cases hcall
  | forceMapping a b =>
    obtain ⟨y, hrun, heq⟩ := map_eq_ok.mp hcall
    exact (Prod.mk.inj heq).1 ▸ h.forceMapping hd hrun
  | residency =>
    rw [dmcacheBaseCall, dmcacheBaseResidency_eq hd.lock] at hcall
    obtain ⟨rfl, _⟩ := Prod.mk.inj (Except.ok.inj hcall)
    exact hd
  | tick =>
    obtain ⟨rfl, _⟩ := Prod.mk.inj (Except.ok.inj hcall)
    exact ⟨hd.lock, hd.policy⟩
  | setConfigValue key value =>
    have heq : (dmcacheBaseSetConfigValue d key value).1 = d' :=
      (Prod.mk.inj (Except.ok.inj hcall)).1
    obtain ⟨hpolicy, hlock⟩ := heq ▸ dmcacheBaseSetConfigValue_policy key value
    exact ⟨hlock.trans hd.lock, hpolicy ▸ hd.policy⟩
  | ioComplete o =>
    obtain ⟨y, hrun, heq⟩ := map_eq_ok.mp hcall
    rw [dmcacheBaseIoComplete, mutexLock_free hd.lock, ok_bind] at hrun
    obtain ⟨s, hmig, hrun⟩ := bind_eq_ok.mp hrun
    rw [← Except.ok.inj hrun] at heq
    obtain ⟨rfl, _⟩ := Prod.mk.inj heq
    exact ⟨rfl, h.migrated hd.policy hmig⟩

/-- A policy that can be relied on when it was created can be relied on after any run. -/
theorem reachable (h : P.Locates I wraps) {create : UInt32 → UInt32 → Exec σ} {c : UInt32}
    {useWb useTick : Bool} {d0 : DmcacheBase σ} (h0 : ∀ s, create c c = .ok s → I s)
    (hinit : dmcacheBaseCreate P create c = .ok d0)
    (hreach : (dmcacheSystem P (targetCalls P)).Reachable
      { d0 with useWb := useWb, useTick := useTick } d) : d.Ready I := by
  obtain ⟨s, hs, hinit⟩ := bind_eq_ok.mp hinit
  obtain rfl := Except.ok.inj hinit
  refine hreach.invariant ⟨rfl, ?_⟩ fun hd hg hcall => h.call hd hg hcall
  exact h.marks (fun r => ((P.owner s).entry r).dirty) _ (h0 s hs)

end Policy.Locates

/-! ## Where a block is reported to be -/

variable (P) in
/-- dmcache_base answers a request for the block in `cb` without the policy. -/
def DmcacheBase.Skips (d : DmcacheBase σ) (cb : Cblock) : Prop :=
  (d.useTick = true ∧ d.tickProtected = ((P.owner d.policy).entry ⟨.cache, cb⟩).time) ∨
    (P.owner d.policy).Migrating cb

variable (P) in
/-- A request for `o` completes with a hit in `cb`. -/
def DmcacheBase.Hits (d : DmcacheBase σ) (o : Oblock) (cb : Cblock) (canBlock canMigrate : Bool)
    (bpResult : CacheNucleusResult) (result : PolicyResult) : Prop :=
  ∃ d' res, dmcacheBaseMap P d o canBlock canMigrate bpResult result = .ok (d', res, .ok) ∧
    res.op = .hit ∧ res.cblock = cb

/-- The state in which the map work of a request for a cached block starts. -/
structure DmcacheBase.Asked (P : Policy σ) (I : σ → Prop) (d : DmcacheBase σ) (o : Oblock)
    (cb : Cblock) (dt : DmcacheBase σ) : Prop where
  policy : I dt.policy
  lookup : P.cacheLookup dt.policy o = some ⟨.cache, cb⟩
  caches : (P.owner dt.policy).Caches o cb
  skips : dmcacheBaseSkips P dt ⟨.cache, cb⟩ = true ↔ d.Skips P cb

namespace Policy.Locates

theorem asked (h : P.Locates I wraps) (hd : d.Ready I) (hc : (P.owner d.policy).Caches o cb) :
    d.Asked P I o cb (copyTick P { d with lock := true }) := by
  have hi := h.setTime d.tickProtected hd.policy
  have howner := h.owner_setTime d.policy d.tickProtected
  have hc' : (P.owner (P.setTime d.policy d.tickProtected)).Caches o cb := by
    rw [howner]
    exact hc
  refine ⟨hi, h.lookup_caches hi hc', hc', ?_⟩
  have hentry : P.entryAt (copyTick P { d with lock := true }).policy ⟨.cache, cb⟩ =
      (P.owner d.policy).entry ⟨.cache, cb⟩ := by
    rw [h.entryAt]
    show (P.owner (P.setTime d.policy d.tickProtected)).entry _ = _
    rw [howner]
    rfl
  rw [dmcacheBaseSkips, hentry]
  simp only [Bool.or_eq_true, Bool.and_eq_true, decide_eq_true_eq]
  rfl

variable {canBlock canMigrate : Bool} {result : PolicyResult}

/-- A request that dmcache_base answers itself takes the cblock from the pool of the policy. -/
theorem hits_skipped (h : P.Locates I wraps) (hd : d.Ready I)
    (hc : (P.owner d.policy).Caches o cb) (hskip : d.Skips P cb) :
    d.Hits P o cb canBlock canMigrate bpResult result ↔ wraps = false := by
  have hask := h.asked hd hc
  have hinfer := h.infer hask.policy hask.caches
  unfold DmcacheBase.Hits
  rw [dmcacheBaseMap_eq hd.lock]
  cases wraps with
  | false =>
    rw [dmcacheBaseMapWork_skipped hask.lookup (hask.skips.mpr hskip) hinfer]
    exact iff_of_true ⟨_, _, rfl, rfl, rfl⟩ rfl
  | true =>
    have hfault : dmcacheBaseMapWork P (copyTick P { d with lock := true }) o canMigrate
        { bpResult with op := .fail } = .error .assertion := by
      simp only [dmcacheBaseMapWork, hask.lookup, hask.skips.mpr hskip, if_true, hinfer,
        error_bind]
    rw [hfault]
    refine iff_of_false ?_ (by decide)
    rintro ⟨d', res, hrun, _⟩
    cases hrun

/-- The other requests are hits of the policy. -/
theorem hits_asked (h : P.Locates I wraps) (ha : P.Answers I) (hd : d.Ready I)
    (hc : (P.owner d.policy).Caches o cb) (hskip : ¬d.Skips P cb) :
    d.Hits P o cb canBlock canMigrate bpResult result := by
  have hask := h.asked hd hc
  have hno : dmcacheBaseSkips P (copyTick P { d with lock := true }) ⟨.cache, cb⟩ = false :=
    Bool.eq_false_iff.mpr fun hx => hskip (hask.skips.mp hx)
  obtain ⟨s, res, hmap, hop, hcb, hcached⟩ :=
    h.hit ha { bpResult with op := .fail } hask.policy hask.caches
  obtain ⟨e, he⟩ := h.lookup_cached (h.map hask.policy hmap) hcached
  have hasks : (∀ e ∈ P.cacheLookup (copyTick P { d with lock := true }).policy o,
      dmcacheBaseSkips P (copyTick P { d with lock := true }) e = false) ∧
      (P.cacheLookup (copyTick P { d with lock := true }).policy o = none →
        canMigrate = true) := by
    rw [hask.lookup]
    refine ⟨fun e he => ?_, fun hl => by cases hl⟩
    rw [← Option.some.inj he]
    exact hno
  have hpass : ¬(res.op = .filter ∨ res.op = .fail) := by
    rw [hop]
    decide
  have hres : (policyResult res).op = .hit ∧ (policyResult res).cblock = cb := by
    rw [policyResult, hop]
    exact ⟨rfl, hcb⟩
  unfold DmcacheBase.Hits
  rw [dmcacheBaseMap_eq hd.lock, dmcacheBaseMapWork_asked hasks (dmcacheBaseAsk_hit hmap hop he),
    Except.map]
  dsimp only
  rw [if_neg hpass]
  exact ⟨_, _, rfl, hres⟩

/-- A request for a cached block hits unless a wrapper is not asked. -/
theorem hits_iff (h : P.Locates I wraps) (ha : P.Answers I) (hd : d.Ready I)
    (hc : (P.owner d.policy).Caches o cb) :
    d.Hits P o cb canBlock canMigrate bpResult result ↔ (wraps = true → ¬d.Skips P cb) := by
  by_cases hskip : d.Skips P cb
  · rw [h.hits_skipped hd hc hskip, ← Bool.not_eq_true]
    exact ⟨fun hx hw => absurd hw hx, fun hx hw => hx hw hskip⟩
  · exact iff_of_true (h.hits_asked ha hd hc hskip) fun _ => hskip

/-- A lookup of a cached block returns 0 and leaves the caller's variable alone. -/
theorem lookup_eq (h : P.Locates I wraps) (hd : d.Ready I) (hc : (P.owner d.policy).Caches o cb)
    (cblock : Cblock) : dmcacheBaseLookup P d o cblock = (d, cblock, .ok) := by
  rw [dmcacheBaseLookup_eq hd.lock, h.lookup_caches hd.policy hc]
  rfl

end Policy.Locates

end Fomo
