import Fomo.DmcachePolicy.LruOverrides

/-!
# Flushing the cache (`dmcache_base_writeback_work`)

The target asks for work until there is none. Each answer takes the head off the dirty queue and
moves no block, so the answers list the dirty blocks in the order of the queue.
-/
namespace Fomo

variable {d d' : DmcacheBase LruPolicy} {r : EntryRef} {q : Queue} {o : Oblock} {cb : Cblock}

/-- The mappings of the entries of a queue. -/
def CacheNucleus.mappings (cn : CacheNucleus) (q : Queue) : List (Oblock × Cblock) :=
  q.map fun r => ((cn.entry r).oblock, r.index)

/-- `writeback_work` is called for each mapping of `l`, and once more. -/
def flushTrace (o : Oblock) (cb : Cblock) (l : List (Oblock × Cblock)) :
    List (DmcacheCall × DmcacheAnswer) :=
  l.map (fun x => (.writebackWork o cb, .work x.1 x.2 .ok)) ++
    [(.writebackWork o cb, .work o cb .enodata)]

/-- What writing blocks back leaves alone. -/
structure SamePlaces (d d' : DmcacheBase LruPolicy) : Prop where
  allocated : ∀ r, (d'.policy.nucleus.entry r).allocated = (d.policy.nucleus.entry r).allocated
  oblock : ∀ r, (d'.policy.nucleus.entry r).oblock = (d.policy.nucleus.entry r).oblock
  lruQ : d'.policy.lruQ = d.policy.lruQ
  useWb : d'.useWb = d.useWb

theorem SamePlaces.refl (d : DmcacheBase LruPolicy) : SamePlaces d d :=
  ⟨fun _ => rfl, fun _ => rfl, rfl, rfl⟩

theorem SamePlaces.trans {d1 : DmcacheBase LruPolicy} (h : SamePlaces d d1)
    (h' : SamePlaces d1 d') : SamePlaces d d' :=
  ⟨fun r => (h'.allocated r).trans (h.allocated r), fun r => (h'.oblock r).trans (h.oblock r),
    h'.lruQ.trans h.lruQ, h'.useWb.trans h.useWb⟩

theorem SamePlaces.mappings (h : SamePlaces d d') (q : Queue) :
    d'.policy.nucleus.mappings q = d.policy.nucleus.mappings q :=
  List.map_congr_left fun r _ => by rw [h.oblock]

/-- The head of the queue is written back, and the queue is the rest of it. -/
theorem LruTracked.flushOne (h : LruTracked d) (hq : d.policy.nucleus.wb.dirty = r :: q)
    (o : Oblock) (cb : Cblock) : ∃ d', dmcacheBaseWritebackWork lruApi d o cb =
        .ok (d', (d.policy.nucleus.entry r).oblock, r.index, .ok) ∧
      LruTracked d' ∧ SamePlaces d d' ∧ d'.policy.nucleus.wb.dirty = q := by
  obtain ⟨d', hrun, hmoved, hrw⟩ := dmcacheBaseWritebackWork_some h hq o cb
  have hd := (h.tracked.mem_dirty r).mp (hq ▸ List.mem_cons_self)
  have hpop : wbPopDirty (lruApi.owner d.policy) = some (r, wbRemove d.policy.nucleus r) :=
    h.tracked.wbPopDirty_cons hq
  have hinfer : inferCacheCblock (wbRemove d.policy.nucleus r) r = .ok r.index :=
    (h.inv.wf.withWb _).inferCacheCblock (h.inv.pool_eq hd.1)
  have hstate : d' = { d with policy := { d.policy with
      nucleus := wbMark d.policy.nucleus r false } } := by
    have hrun' : dmcacheBaseWritebackWork lruApi d o cb = .ok ({ d with policy := { d.policy with
        nucleus := wbMark d.policy.nucleus r false } }, (d.policy.nucleus.entry r).oblock, r.index,
          .ok) := by
      simp only [dmcacheBaseWritebackWork, mutexLock_free h.lock, ok_bind, hpop, mutexUnlock]
      rw [← h.lock]
      exact bind_eq_ok.mpr ⟨r.index, hinfer, rfl⟩
    exact (Prod.mk.inj (Except.ok.inj (hrun.symm.trans hrun'))).1
  subst hstate
  refine ⟨_, hrun, h.step hmoved, ⟨fun x => ?_, fun x => ?_, rfl, rfl⟩, ?_⟩
  · by_cases hx : x = r
    · rw [hx, hrw.entry_self]
    · rw [hrw.entry_of_ne hx]
  · by_cases hx : x = r
    · rw [hx, hrw.entry_self]
    · rw [hrw.entry_of_ne hx]
  · rw [(h.inv.wf.wbMark r false).2]
    show (d.policy.nucleus.wb.remove r).dirty = q
    simp only [WritebackTracker.remove, queueRemove_eq, hq, List.erase_cons_head]

/-- The queue is written back to its end. -/
theorem LruTracked.flush (h : LruTracked d) (hwb : d.useWb = true)
    (hq : d.policy.nucleus.wb.dirty = q) (o : Oblock) (cb : Cblock) :
    ∃ d', (dmcacheSystem lruApi (targetCalls lruApi)).Run d
        (flushTrace o cb (d.policy.nucleus.mappings q)) d' ∧
      LruTracked d' ∧ SamePlaces d d' ∧ d'.policy.nucleus.wb.dirty = [] := by
  induction q generalizing d with
  | nil =>
    refine ⟨d, Lib.System.Run.snoc .nil trivial ?_, h, .refl d, hq⟩
    show dmcacheBaseCall lruApi d (.writebackWork o cb) = .ok (d, .work o cb .enodata)
    rw [dmcacheBaseCall, if_pos hwb, dmcacheBaseWritebackWork_none h hq]
    rfl
  | cons r q ih =>
    obtain ⟨d1, hwork, h1, hs1, hq1⟩ := h.flushOne hq o cb
    obtain ⟨d', hrun, h', hs', hq'⟩ := ih h1 (hs1.useWb.trans hwb) hq1
    have hcall : dmcacheBaseCall lruApi d (.writebackWork o cb) =
        .ok (d1, .work (d.policy.nucleus.entry r).oblock r.index .ok) := by
      rw [dmcacheBaseCall, if_pos hwb, hwork]
      rfl
    rw [hs1.mappings] at hrun
    exact ⟨d', (Lib.System.Run.nil.snoc trivial hcall).append hrun, h', hs1.trans hs', hq'⟩

/-- In any state of dmcache_base over LRU with `use_wb` on, as many calls of `writeback_work` as
there are dirty blocks return each of them once, in the order in which they are queued, with the
slot that it lies in, and the next call finds nothing. No block is dirty then, and neither the
places of the blocks nor the order of use have changed. -/
theorem writeback_flushes {c : UInt32} {useWb useTick : Bool} {d0 d : DmcacheBase LruPolicy}
    (hinit : dmcacheBaseCreate lruApi lruCreate c = .ok d0)
    (hreach : (dmcacheSystem lruApi (targetCalls lruApi)).Reachable
      { d0 with useWb := useWb, useTick := useTick } d) (hwb : d.useWb = true)
    (o : Oblock) (cb : Cblock) :
    ∃ l d', (dmcacheSystem lruApi (targetCalls lruApi)).Run d (flushTrace o cb l) d' ∧
      l = d.policy.nucleus.mappings d.policy.nucleus.wb.dirty ∧ l.Nodup ∧
      (∀ a b, (a, b) ∈ l ↔ d.policy.nucleus.Caches a b ∧
        (d.policy.nucleus.entry ⟨.cache, b⟩).dirty = true) ∧
      (∀ a b, d'.policy.nucleus.Caches a b → (d'.policy.nucleus.entry ⟨.cache, b⟩).dirty = false) ∧
      (∀ a b, d'.policy.nucleus.Caches a b ↔ d.policy.nucleus.Caches a b) ∧
      d'.policy.lruQ = d.policy.lruQ := by
  have h := dmcacheLru_reachable hinit hreach
  obtain ⟨d', hrun, h', hs, hq⟩ := h.flush hwb rfl o cb
  have hcache : ∀ {r}, r ∈ d.policy.nucleus.wb.dirty → r.pool = .cache := fun hr =>
    h.inv.pool_eq ((h.tracked.mem_dirty _).mp hr).1
  refine ⟨_, d', hrun, rfl, ?_, fun a b => ?_, fun a b hc => ?_, fun a b => ?_, hs.lruQ⟩
  · refine (List.nodup_map_iff_inj_on h.tracked.dirty_nodup).mpr fun x hx y hy heq => ?_
    obtain ⟨p, i⟩ := x
    obtain ⟨p', i'⟩ := y
    obtain rfl : p = .cache := hcache hx
    obtain rfl : p' = .cache := hcache hy
    exact congrArg _ (Prod.mk.inj heq).2
  · rw [CacheNucleus.mappings, List.mem_map]
    constructor
    · rintro ⟨r, hr, heq⟩
      obtain ⟨rfl, rfl⟩ := Prod.mk.inj heq
      obtain ⟨p, i⟩ := r
      obtain rfl : p = .cache := hcache hr
      obtain ⟨ha, hd⟩ := (h.tracked.mem_dirty _).mp hr
      exact ⟨⟨ha, rfl⟩, hd⟩
    · rintro ⟨⟨ha, rfl⟩, hd⟩
      exact ⟨⟨.cache, b⟩, (h.tracked.mem_dirty _).mpr ⟨ha, hd⟩, rfl⟩
  · by_contra hd
    have hmem := (h'.tracked.mem_dirty ⟨.cache, b⟩).mpr ⟨hc.1, by simpa using hd⟩
    rw [hq] at hmem
    cases hmem
  · rw [CacheNucleus.Caches, hs.allocated, hs.oblock]
    rfl

/-- Two blocks are set dirty and written back. -/
theorem writeback_flushes_two : ∃ d0 d d', dmcacheBaseCreate lruApi lruCreate 2 = .ok d0 ∧
    (dmcacheSystem lruApi (targetCalls lruApi)).Reachable
      { d0 with useWb := true, useTick := false } d ∧
    (dmcacheSystem lruApi (targetCalls lruApi)).Run d (flushTrace 0 0 [(6, 0), (5, 1)]) d' := by
  have hinit : ∃ d0, dmcacheBaseCreate lruApi lruCreate 2 = .ok d0 ∧
      (dmcacheSystem lruApi (targetCalls lruApi)).Admits
        { d0 with useWb := true, useTick := false } [.map 5 true true {} {},
          .map 6 true true {} {}, .setDirty 6, .setDirty 5] ∧
      ∃ d ws, (dmcacheSystem lruApi (targetCalls lruApi)).exec
        { d0 with useWb := true, useTick := false } [.map 5 true true {} {},
          .map 6 true true {} {}, .setDirty 6, .setDirty 5] = .ok (d, ws) ∧ d.useWb = true ∧
        d.policy.nucleus.mappings d.policy.nucleus.wb.dirty = [(6, 0), (5, 1)] := by
    refine ⟨_, rfl, ?_, _, _, rfl, rfl, rfl⟩
    exact And.intro trivial (And.intro trivial (And.intro trivial (And.intro trivial trivial)))
  obtain ⟨d0, hinit, hadm, d, ws, hexec, hwb, hdirty⟩ := hinit
  have hreach := (Lib.System.Run.of_exec hadm hexec).reachable
  obtain ⟨l, d', hrun, rfl, _⟩ := writeback_flushes hinit hreach hwb 0 0
  exact ⟨d0, d, d', hinit, hreach, hdirty ▸ hrun⟩

end Fomo
