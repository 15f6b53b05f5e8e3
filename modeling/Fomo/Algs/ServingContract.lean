import Fomo.Algs.MapContract
import Fomo.Algs.ArcRemovals
import Fomo.Algs.LarcGhosts
import Fomo.Include.DirtyBlocks

/-!
# The base policies under removals

LRU, LFU, ARC and LARC free the slot of a block that is removed. What ARC does to its history
on the way lies in the metadata pool. What they report of the blocks they evict follows.
-/
namespace Fomo

theorem lru_serves : lruApi.Serves LruPolicy.Inv := by
  refine lru_sound.serves fun {s s' o cb keep} h hc hrun => ?_
  have hl := h.wf.caches_iff.mp hc
  obtain ⟨s1, hrun1, hs⟩ := lruRemoveEntry_spec h hc.1
  have hrun' : lruRemoveApi s o keep = .ok s1 := by
    rw [lruRemoveApi, hl]
    exact hrun1
  obtain rfl := Except.ok.inj (hrun.symm.trans hrun')
  exact ⟨hs.inv, _, hs.rewrites.setsSlot, rfl⟩

/-- LFU serves over any number of slots, as far as its calls return. -/
theorem lfu_serves (lt : LfuTransaction) (n : Nat) :
    (lfuApi lt).Serves (LfuPolicy.Sized n) where
  wf := fun h => h.inv.wf
  map := by
    intro s s' o w result res h hmap
    have hcase := lfuMapApi_case h.inv o w result
    rw [show lfuMapApi s o w result = _ from hmap] at hcase
    obtain ⟨heff, hinv⟩ := hcase.effect h.inv
    exact ⟨heff, hinv, (hcase.nrEntries .cache).trans h.cacheEntries⟩
  migrated := by
    intro s s' o cb h hc hm hrun
    obtain ⟨s1, hrun1, hs⟩ := lfuMigratedApi_spec h.inv (h.inv.wf.caches_iff.mp hc) hm
    obtain rfl := Except.ok.inj (hrun.symm.trans hrun1)
    exact ⟨h.step hs, _, hs.rewrites.setsSlot, hc.1, hc.2, rfl, rfl⟩
  insert := by
    intro s s' o cb h hmay hrun
    obtain ⟨habs, hcb, hfree⟩ := hmay
    obtain ⟨s1, hrun1, hs⟩ := lfuInsertApi_spec h.inv hcb hfree habs
    obtain rfl := Except.ok.inj (hrun.symm.trans hrun1)
    exact ⟨h.step hs, _, hs.rewrites.setsSlot, rfl, rfl, h.inv.wf.not_migrating hfree, rfl⟩
  remove := by
    intro s s' o cb keep h hc hrun
    rcases lfuRemoveApi_spec h.inv (h.inv.wf.caches_iff.mp hc) keep with
      ⟨herr, _⟩ | ⟨s1, hrun1, hs⟩
    · exact nomatch herr.symm.trans hrun
    · obtain rfl := Except.ok.inj (hrun.symm.trans hrun1)
      exact ⟨h.step hs, _, hs.rewrites.setsSlot, rfl⟩

theorem arc_serves : arcApi.Serves ArcPolicy.Inv := by
  refine arc_sound.serves fun {s s' o cb keep} h hc hrun => ?_
  have hcase := ArcPolicy.arcRemoveApi_case h (h.wf.caches_iff.mp hc) rfl keep
  rw [show arcRemoveApi s o keep = .ok s' from hrun] at hcase
  cases hcase with
  | plain hs => exact ⟨hs.inv, _, hs.rewrites.setsSlot, rfl⟩
  | room hs hf ghost =>
    obtain ⟨he, _⟩ := ghost.cache
    refine ⟨ghost.inv hs.inv, s.nucleus.freedEntry ⟨.cache, cb⟩, fun b => ?_, rfl⟩
    exact (he b).trans (hs.rewrites.setsSlot b)
  | @evict s1 s2 _ g q hs hf hq hg evict ghost =>
    obtain ⟨he3, _⟩ := ghost.cache
    have hpool : g.pool = .metadata :=
      (hs.inv.pool_of_mem (hg ▸ List.mem_cons_self)).trans (ArcPolicy.historyOf_pool _)
    refine ⟨ghost.inv evict.inv, s.nucleus.freedEntry ⟨.cache, cb⟩, fun b => ?_, rfl⟩
    have he2 : s2.nucleus.entry ⟨.cache, b⟩ = s1.nucleus.entry ⟨.cache, b⟩ := by
      apply evict.rewrites.entry_of_ne
      intro heq
      rw [← heq] at hpool
      cases hpool
    exact (he3 b).trans (he2.trans (hs.rewrites.setsSlot b))

/-- LARC serves whatever the size of its metadata pool. -/
theorem larc_serves : larcApi.Serves LarcPolicy.Inv where
  wf := fun h => h.wf
  map := by
    intro s s' o w result res h hmap
    have hcase := larcMapApi_case h o w result
    rw [show larcMapApi s o w result = _ from hmap] at hcase
    exact hcase.effect h
  migrated := by
    intro s s' o cb h hc hm hrun
    obtain ⟨s1, hrun1, hs⟩ := larcMigratedApi_spec h (h.wf.caches_iff.mp hc) rfl hm
    obtain rfl := Except.ok.inj (hrun.symm.trans hrun1)
    exact ⟨hs.inv, _, hs.rewrites.setsSlot, hc.1, hc.2, rfl, rfl⟩
  insert := by
    intro s s' o cb h hmay hrun
    obtain ⟨habs, hcb, hfree⟩ := hmay
    obtain ⟨s1, hrun1, hs⟩ := larcInsertApi_spec h hcb hfree habs
    obtain rfl := Except.ok.inj (hrun.symm.trans hrun1)
    exact ⟨hs.inv, _, hs.rewrites.setsSlot, rfl, rfl, h.wf.not_migrating hfree, rfl⟩
  remove := by
    intro s s' o cb keep h hc hrun
    have hl := h.wf.caches_iff.mp hc
    obtain ⟨s1, hrun1, hs⟩ := larcRemoveEntry_spec h hc.1
    have hrun' : larcRemoveApi s o keep = .ok s1 := by
      rw [larcRemoveApi, hl, deref_some, ok_bind, hrun1]
    obtain rfl := Except.ok.inj (hrun.symm.trans hrun')
    exact ⟨hs.inv, _, hs.rewrites.setsSlot, rfl⟩

/-- The base policies report dirty evictions exactly. -/
theorem dirty_evictions (c m : UInt32) (lt : LfuTransaction) :
    (∀ s0, lruCreate c m = .ok s0 → lruApi.ReportsDirtyEvictions s0) ∧
    (∀ s0, lfuCreate c m = .ok s0 → (lfuApi lt).ReportsDirtyEvictions s0) ∧
    (∀ s0, arcCreate c m = .ok s0 → arcApi.ReportsDirtyEvictions s0) ∧
    ∀ s0, larcCreate c m = .ok s0 → larcApi.ReportsDirtyEvictions s0 := by
  refine ⟨fun s0 h => ?_, fun s0 h => ?_, fun s0 h => ?_, fun s0 h => ?_⟩
  · have hspec := lruInit_spec h
    exact lru_serves.reportsDirtyEvictions hspec.1 hspec.2.2.2
  · have hspec := lfuInit_spec h
    exact (lfu_serves lt c.toNat).reportsDirtyEvictions ⟨hspec.1, hspec.2.1⟩ hspec.2.2
  · apply arc_serves.reportsDirtyEvictions (arcCreate_inv h).1
    obtain rfl := Except.ok.inj ((arcCreate_eq c m).symm.trans h)
    exact freshNucleus_absent _ _ _
  · apply larc_serves.reportsDirtyEvictions (larcCreate_bounded h).inv
    obtain rfl := Except.ok.inj ((larcCreate_eq c m).symm.trans h)
    exact freshNucleus_absent _ _ _

/-- LRU of one slot evicts a block that was written when it came in, and then one that was not. -/
theorem dirty_evictions_written : ∃ s0 t s t1 s1 s2 s3, lruCreate 1 0 = .ok s0 ∧
    (lruApi.system fun s => servingCalls s.nucleus).Run s0 t s ∧
    lruApi.map s 6 false {} =
      .ok (s2, { op := .replace, oldOblock := 5, cblock := 0, dirtyEviction := true }) ∧
    Written t 5 ∧
    (lruApi.system fun s => servingCalls s.nucleus).Run s0 t1 s1 ∧
    lruApi.map s1 7 false {} =
      .ok (s3, { op := .replace, oldOblock := 6, cblock := 0, dirtyEviction := false }) ∧
    ¬Written t1 6 := by
  have hinit := lruInit_eq 1
  have hreports := (dirty_evictions 1 0 (lfuTransactionInit 0)).1 _ hinit
  generalize hs0 : ({ nucleus := _, lruQ := _ } : LruPolicy) = s0 at hinit hreports
  have hadm : (lruApi.system fun s => servingCalls s.nucleus).Admits s0
      [.map 5 true {}, .migrated 5] := by
    subst hs0
    exact And.intro trivial (And.intro (Exists.intro 0 (And.intro (And.intro rfl rfl) rfl))
      trivial)
  have hadm1 : (lruApi.system fun s => servingCalls s.nucleus).Admits s0
      [.map 5 true {}, .migrated 5, .map 6 false {}, .migrated 6] := by
    subst hs0
    refine And.intro trivial (And.intro (Exists.intro 0 (And.intro (And.intro rfl rfl) rfl)) ?_)
    exact And.intro trivial (And.intro (Exists.intro 0 (And.intro (And.intro rfl rfl) rfl))
      trivial)
  obtain ⟨s, ws, hexec, s2, hmap⟩ : ∃ s ws, (lruApi.system fun s => servingCalls s.nucleus).exec s0
      [.map 5 true {}, .migrated 5] = .ok (s, ws) ∧ ∃ s2, lruApi.map s 6 false {} = .ok (s2,
        { op := .replace, oldOblock := 5, cblock := 0, dirtyEviction := true }) := by
    subst hs0
    exact ⟨_, _, rfl, _, rfl⟩
  obtain ⟨s1, ws1, hexec1, s3, hmap1⟩ : ∃ s1 ws1,
      (lruApi.system fun s => servingCalls s.nucleus).exec s0
        [.map 5 true {}, .migrated 5, .map 6 false {}, .migrated 6] = .ok (s1, ws1) ∧
      ∃ s3, lruApi.map s1 7 false {} = .ok (s3,
        { op := .replace, oldOblock := 6, cblock := 0, dirtyEviction := false }) := by
    subst hs0
    exact ⟨_, _, rfl, _, rfl⟩
  have hrun := Lib.System.Run.of_exec hadm hexec
  have hrun1 := Lib.System.Run.of_exec hadm1 hexec1
  have hwritten := hreports _ s 6 false {} s2 _ hrun hmap rfl
  have hclean := hreports _ s1 7 false {} s3 _ hrun1 hmap1 rfl
  exact ⟨s0, _, s, _, s1, s2, s3, hinit, hrun, hmap, hwritten.mp rfl, hrun1, hmap1,
    fun hw => absurd (hclean.mpr hw) (by decide)⟩

end Fomo
