import Fomo.Algs.LruSteps
import Fomo.Include.Contract
import Fomo.Lib.Recency

/-!
# LRU under asynchronous migration and rollback

An observer notes for every slot when it was last touched: by a hit while settled, by
the completion of its migration, or by a preload. Over any interleaving of the calls
a caller may make, the queue lists the settled slots in the order of these touches.
-/
namespace Fomo

/-- The calls a caller may make: completions for blocks that migrate, rollbacks of
cached blocks, preloads of free slots, renamings of cached blocks. -/
def lruCalls (lru : LruPolicy) : Call → Prop
  | .map _ _ _ => True
  | .migrated o => lru.nucleus.MayMigrate o
  | .remove o _ => lru.nucleus.Cached o
  | .insert o cb => lru.nucleus.MayInsert o cb
  | .remap a b => lru.nucleus.Cached a ∧ lru.nucleus.Absent b
  | .setTime _ => True

/-- The entry a call touches. -/
def lruTouched (lru : LruPolicy) : Call → Option EntryRef
  | .map o _ _ => (hashLookup lru.nucleus o).filter fun r => !(lru.nucleus.entry r).migrating
  | .migrated o => hashLookup lru.nucleus o
  | .insert _ cb => some ⟨.cache, cb⟩
  | _ => none

/-- A clock and the time of the last touch of every entry. -/
structure Touches where
  now : Nat := 0
  last : EntryRef → Nat := fun _ => 0

def Touches.tick (g : Touches) (r : Option EntryRef) : Touches where
  now := g.now + 1
  last := match r with
    | some r => Function.update g.last r g.now
    | none => g.last

/-- LRU with the observer beside it. -/
def lruObserved : Lib.System (LruPolicy × Touches) Call (Option CacheNucleusResult) Fault :=
  (lruApi.system lruCalls).ghost fun lru c _ _ g => g.tick (lruTouched lru c)

namespace LruPolicy

variable {s s' : LruPolicy} {g : Touches} {c : Call} {o : Oblock} {w : Bool}

/-- The invariant of the observed system. -/
structure Ordered (s : LruPolicy) (g : Touches) : Prop where
  inv : s.Inv
  byAge : Lib.ByAge g.last g.now s.lruQ

/-- A step that only takes entries out of the queue. -/
theorem Ordered.drop (h : s.Ordered g) (hs : s'.Inv) (hq : s'.lruQ.Sublist s.lruQ) :
    s'.Ordered (g.tick none) := ⟨hs, h.byAge.sublist hq⟩

/-- A step that moves the entry it touches to the end of the queue. -/
theorem Ordered.touch (h : s.Ordered g) (hs : s'.Inv) {r : EntryRef}
    (hq : s'.lruQ = s.lruQ.erase r ++ [r]) : s'.Ordered (g.tick (some r)) := by
  refine ⟨hs, ?_⟩
  rw [hq]
  exact h.byAge.touch h.inv.queue_nodup r

theorem Inv.withTime (h : s.Inv) (t : Nat) :
    ({ s with nucleus := defaultSetTime s.nucleus t } : LruPolicy).Inv :=
  ⟨⟨h.wf.pools, h.wf.start, h.wf.ht_nodup, h.wf.mem_ht, h.wf.inj⟩, h.meta_empty, h.queue_nodup,
    h.mem_queue⟩

/-- Every admitted call answers and keeps the queue in order. -/
theorem Ordered.call (h : s.Ordered g) (hg : lruCalls s c) : ∃ s' res,
    lruApi.call s c = .ok (s', res) ∧ s'.Ordered (g.tick (lruTouched s c)) := by
  cases c with
  | map o w result =>
    have hcase := lruMapApi_case h.inv o w result
    generalize hx : lruMapApi s o w result = x at hcase
    cases hcase with
    | @hit cb s' hl hs =>
      refine ⟨s', _, map_eq_ok.mpr ⟨_, hx, rfl⟩, ?_⟩
      rw [lruTouched, hl, Option.filter_some]
      have hq := hs.queue
      by_cases hm : (s.nucleus.entry ⟨.cache, cb⟩).migrating = true
      · rw [if_pos hm] at hq
        rw [hm]
        exact h.drop hs.inv (hq ▸ List.Sublist.refl _)
      · rw [if_neg hm] at hq
        rw [Bool.not_eq_true] at hm
        rw [hm]
        exact h.touch hs.inv hq
    | @new cb rest s' habs hf hs =>
      refine ⟨s', _, map_eq_ok.mpr ⟨_, hx, rfl⟩, ?_⟩
      rw [lruTouched, h.inv.wf.hashLookup_eq_none.mpr habs]
      exact h.drop hs.inv (hs.queue ▸ List.Sublist.refl _)
    | @replace cb q s' habs hf hq hs =>
      refine ⟨s', _, map_eq_ok.mpr ⟨_, hx, rfl⟩, ?_⟩
      rw [lruTouched, h.inv.wf.hashLookup_eq_none.mpr habs]
      exact h.drop hs.inv (by rw [hs.queue, hq]; exact List.sublist_cons_self _ _)
    | fail habs hf hq =>
      refine ⟨s, _, map_eq_ok.mpr ⟨_, hx, rfl⟩, ?_⟩
      rw [lruTouched, h.inv.wf.hashLookup_eq_none.mpr habs]
      exact h.drop h.inv (List.Sublist.refl _)
  | migrated o =>
    obtain ⟨cb, hc, hm⟩ := hg
    have hl := h.inv.wf.caches_iff.mp hc
    obtain ⟨s', hrun, hs⟩ := lruMigratedApi_spec h.inv hl hm
    refine ⟨s', none, map_eq_ok.mpr ⟨_, hrun, rfl⟩, ?_⟩
    rw [lruTouched, hl]
    have hni : (⟨.cache, cb⟩ : EntryRef) ∉ s.lruQ := fun hmem => by
      have := ((h.inv.mem_queue _).mp hmem).2
      rw [hm] at this
      simp at this
    exact h.touch hs.inv (by rw [hs.queue, List.erase_of_not_mem hni])
  | remove o keep =>
    obtain ⟨cb, hc⟩ := hg
    obtain ⟨s', hrun, hs⟩ := lruRemoveApi_spec h.inv (h.inv.wf.caches_iff.mp hc) keep
    exact ⟨s', none, map_eq_ok.mpr ⟨_, hrun, rfl⟩,
      h.drop hs.inv (hs.queue ▸ List.erase_sublist)⟩
  | insert o cb =>
    obtain ⟨habs, hcb, hfree⟩ := hg
    obtain ⟨s', hrun, hs⟩ := lruInsertApi_spec h.inv hcb hfree habs
    refine ⟨s', none, map_eq_ok.mpr ⟨_, hrun, rfl⟩, h.touch hs.inv ?_⟩
    have hni : (⟨.cache, cb⟩ : EntryRef) ∉ s.lruQ := fun hmem => by
      have := ((h.inv.mem_queue _).mp hmem).1
      simp [hfree] at this
    rw [hs.queue, List.erase_of_not_mem hni]
  | remap a b =>
    obtain ⟨⟨cb, hc⟩, habs⟩ := hg
    obtain ⟨s', hrun, hs⟩ := lruRemap_spec h.inv (h.inv.wf.caches_iff.mp hc) habs
    exact ⟨s', none, map_eq_ok.mpr ⟨_, hrun, rfl⟩,
      h.drop hs.inv (hs.queue ▸ List.Sublist.refl _)⟩
  | setTime t => exact ⟨_, none, rfl, h.drop (h.inv.withTime t) (List.Sublist.refl _)⟩

theorem Ordered.of_init {c : UInt32} (h : lruInit c = .ok s) : s.Ordered {} := by
  obtain ⟨hinv, hq, _⟩ := lruInit_spec h
  exact ⟨hinv, hq ▸ .nil⟩

/-- Every state the observer sees is in order. -/
theorem Ordered.of_run {g' : Touches} {t : List (Call × Option CacheNucleusResult)}
    (h : s.Ordered g) (hrun : lruObserved.Run (s, g) t (s', g')) : s'.Ordered g' := by
  refine hrun.invariant (I := fun p => p.1.Ordered p.2) h fun {a c b w} ha hg hstep => ?_
  obtain ⟨hstep, hghost⟩ := Lib.System.ghost_step.mp hstep
  obtain ⟨s', res, hcall, hord⟩ := ha.call hg
  have hb : lruApi.call a.1 c = .ok (b.1, w) := hstep
  rw [hcall] at hb
  obtain ⟨rfl, rfl⟩ := Prod.mk.inj (Except.ok.inj hb)
  rw [hghost]
  exact hord

theorem Inv.of_reachable {c : UInt32} {s0 : LruPolicy} (hinit : lruInit c = .ok s0)
    (h : (lruApi.system lruCalls).Reachable s0 s) : s.Inv := by
  obtain ⟨t, hrun⟩ := h
  obtain ⟨g', hrun'⟩ := hrun.ghost ({} : Touches)
  exact ((Ordered.of_init hinit).of_run hrun').inv

/-! ## What the invariant says -/

theorem Inv.queue_length (h : s.Inv) : s.lruQ.length + (s.nucleus.pool .cache).nrMigrating =
    (s.nucleus.pool .cache).nrAllocated := by
  have hw := h.wf.pools .cache
  have hmem : ∀ r : EntryRef, r ∈ (s.nucleus.pool .cache).migrating.map (EntryRef.mk .cache) ↔
      r.pool = .cache ∧ (s.nucleus.entry r).migrating = true := by
    rintro ⟨p, i⟩
    simp only [List.mem_map, EntryRef.mk.injEq, exists_eq_right_right, hw.mem_migrating]
    constructor
    · rintro ⟨hm, rfl⟩; exact ⟨rfl, hm⟩
    · rintro ⟨hp, hm⟩; cases hp; exact ⟨hm, rfl⟩
  have hnd : (s.lruQ ++ (s.nucleus.pool .cache).migrating.map (EntryRef.mk .cache)).Nodup := by
    refine List.nodup_append.mpr ⟨h.queue_nodup, hw.migrating_nodup.map ?_, ?_⟩
    · intro i j hij
      simpa using hij
    · rintro x hx _ hy rfl
      have := ((h.mem_queue x).mp hx).2
      simp [((hmem x).mp hy).2] at this
  have hlen := h.wf.length_eq_nrAllocated (p := .cache) hnd fun r => by
    rw [List.mem_append, h.mem_queue, hmem]
    constructor
    · rintro (⟨ha, _⟩ | ⟨_, hm⟩)
      · exact ⟨h.pool_eq ha, ha⟩
      · have ha := h.wf.allocated_of_migrating hm
        exact ⟨h.pool_eq ha, ha⟩
    · rintro ⟨hp, ha⟩
      cases hm : (s.nucleus.entry r).migrating
      · exact Or.inl ⟨ha, rfl⟩
      · exact Or.inr ⟨hp, rfl⟩
  rw [List.length_append, List.length_map, ← hw.nr_migrating] at hlen
  exact hlen

/-- Over a full cache the queue is empty exactly when everything migrates. -/
theorem Inv.queue_eq_nil (h : s.Inv) : s.lruQ = [] ↔
    ∀ r, (s.nucleus.entry r).allocated = true → (s.nucleus.entry r).migrating = true := by
  rw [List.eq_nil_iff_forall_not_mem]
  refine forall_congr' fun r => ?_
  rw [h.mem_queue]
  cases (s.nucleus.entry r).migrating <;> simp

end LruPolicy

open LruPolicy

/-- LRU under any interleaving of the calls a caller may make: no such call faults, the
table and the queue list what they should, a request fails only when everything is
migrating, and a replacement evicts the settled block that was not touched for longest. -/
theorem lru_async {c : UInt32} {s0 s : LruPolicy} {g : Touches}
    {t : List (Call × Option CacheNucleusResult)} (hinit : lruInit c = .ok s0)
    (hrun : lruObserved.Run (s0, {}) t (s, g)) :
    (∀ call, lruCalls s call → ∃ s' res, lruApi.call s call = .ok (s', res)) ∧
    ((∀ r, r ∈ s.nucleus.ht ↔ (s.nucleus.entry r).allocated = true) ∧ s.nucleus.ht.Nodup ∧
      (s.nucleus.ht.map fun r => (s.nucleus.entry r).oblock).Nodup) ∧
    ((∀ r, r ∈ s.lruQ ↔
      (s.nucleus.entry r).allocated = true ∧ (s.nucleus.entry r).migrating = false) ∧
      s.lruQ.Nodup ∧ queueLength s.lruQ =
        (s.nucleus.pool .cache).nrAllocated - (s.nucleus.pool .cache).nrMigrating) ∧
    ∀ o w result s' res, lruMapApi s o w result = .ok (s', res) →
      (res.op = .fail ↔ s.nucleus.Absent o ∧ (s.nucleus.pool .cache).free = [] ∧
        ∀ r, (s.nucleus.entry r).allocated = true → (s.nucleus.entry r).migrating = true) ∧
      (res.op = .replace → ∃ victim, hashLookup s.nucleus res.oldOblock = some victim ∧
        (s.nucleus.entry victim).migrating = false ∧ s'.nucleus.Absent res.oldOblock ∧
        ∀ r, (s.nucleus.entry r).allocated = true → (s.nucleus.entry r).migrating = false →
          r ≠ victim → g.last victim < g.last r) := by
  have hord : s.Ordered g := (Ordered.of_init hinit).of_run hrun
  have h := hord.inv
  refine ⟨fun call hg => ?_, ⟨h.wf.mem_ht, h.wf.ht_nodup, ?_⟩, ⟨h.mem_queue, h.queue_nodup, ?_⟩,
    fun o w result s' res hmap => ?_⟩
  · obtain ⟨s', res, hcall, _⟩ := hord.call hg
    exact ⟨s', res, hcall⟩
  · exact h.wf.ht_nodup.map_on fun x hx y hy hxy =>
      h.wf.inj x y ((h.wf.mem_ht x).mp hx) ((h.wf.mem_ht y).mp hy) hxy
  · have := h.queue_length
    rw [queueLength_eq]
    omega
  · rw [← h.queue_eq_nil]
    have hcase := lruMapApi_case h o w result
    rw [hmap] at hcase
    cases hcase with
    | hit hl hs =>
      refine ⟨⟨by simp, fun hfail => ?_⟩, by simp⟩
      rw [h.wf.hashLookup_eq_none.mpr hfail.1] at hl
      simp at hl
    | new habs hf hs =>
      refine ⟨⟨by simp, fun hfail => ?_⟩, by simp⟩
      rw [hfail.2.1] at hf
      simp at hf
    | @replace cb q _ habs hf hq hs =>
      refine ⟨⟨by simp, fun hfail => ?_⟩, fun _ => ?_⟩
      · rw [hfail.2.2] at hq
        simp at hq
      · have hmem := (h.mem_queue ⟨.cache, cb⟩).mp (by simp [hq])
        have hl := h.wf.hashLookup_self hmem.1
        refine ⟨⟨.cache, cb⟩, hl, hmem.2, ?_, fun r ha hm hne => ?_⟩
        · have hne : o ≠ (s.nucleus.entry ⟨.cache, cb⟩).oblock := (habs _ hmem.1).symm
          rw [← hs.rewrites.wf.hashLookup_eq_none, hs.rewrites.hashLookup h.wf, hl]
          simp [CacheNucleus.arrivingEntry, CacheNucleus.freshEntry, hne]
        have hage := hord.byAge
        have hr := (h.mem_queue r).mpr ⟨ha, hm⟩
        rw [hq] at hage hr
        exact hage.head_lt hr hne
    | fail habs hf hq => exact ⟨⟨fun _ => ⟨habs, hf, hq⟩, fun _ => rfl⟩, by simp⟩

/-- A block migrates in, and the migration of a second one is rolled back. -/
theorem lru_async_rollback : ∃ s0 s g t, lruInit 2 = .ok s0 ∧
    lruObserved.Run (s0, {}) t (s, g) ∧
    t.map Prod.fst = [.map 5 true {}, .migrated 5, .map 7 false {}, .remove 7 false] ∧
    queueLength s.lruQ =
      (s.nucleus.pool .cache).nrAllocated - (s.nucleus.pool .cache).nrMigrating := by
  have hinit := lruInit_eq 2
  generalize hs0 : ({ nucleus := _, lruQ := [] } : LruPolicy) = s0 at hinit
  have hadm : lruObserved.Admits (s0, {})
      [.map 5 true {}, .migrated 5, .map 7 false {}, .remove 7 false] := by
    subst hs0
    exact And.intro trivial (And.intro (Exists.intro 1 (And.intro (And.intro rfl rfl) rfl))
      (And.intro trivial (And.intro (Exists.intro 0 (And.intro rfl rfl)) trivial)))
  obtain ⟨p, w, w', hexec⟩ : ∃ p w w', lruObserved.exec (s0, {})
      [.map 5 true {}, .migrated 5, .map 7 false {}, .remove 7 false] =
        .ok (p, [w, none, w', none]) := by
    subst hs0
    exact ⟨_, _, _, rfl⟩
  have hrun := Lib.System.Run.of_exec hadm hexec
  exact ⟨_, _, _, _, hinit, hrun, rfl, (lru_async hinit hrun).2.2.1.2.2⟩

end Fomo
