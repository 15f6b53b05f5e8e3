import Fomo.DmcachePolicy.DmcacheBase
import Fomo.Include.NucleusSpec

/-!
# The queues of the writeback tracker

A call detaches the entry it works on from the tracker and may put it back at the tail of
the queue its dirty bit names. Such moves keep the dirty queue the list of the dirty cached
entries.
-/
namespace Fomo

/-- The entry joins the queue its dirty bit names. -/
def WritebackTracker.push (wb : WritebackTracker) (r : EntryRef) : Bool → WritebackTracker
  | true => { wb with dirty := wb.dirty ++ [r] }
  | false => { wb with clean := wb.clean ++ [r] }

theorem wbPushCache_eq (cn : CacheNucleus) (r : EntryRef) :
    wbPushCache cn r = { cn with wb := cn.wb.push r (cn.entry r).dirty } := by
  unfold wbPushCache
  cases (cn.entry r).dirty <;> rfl

namespace CacheNucleus

variable {cn cn' cn'' : CacheNucleus} {r x : EntryRef} {e : Entry} {free : List Nat}
  {o : Oblock}

/-- The entry is in use and dirty. -/
def DirtyAt (cn : CacheNucleus) (r : EntryRef) : Prop :=
  (cn.entry r).allocated = true ∧ (cn.entry r).dirty = true

/-- The dirty queue lists the dirty entries, the clean queue clean ones. -/
structure Tracked (cn : CacheNucleus) : Prop where
  dirty_nodup : cn.wb.dirty.Nodup
  mem_dirty : ∀ r, r ∈ cn.wb.dirty ↔ cn.DirtyAt r
  clean_nodup : cn.wb.clean.Nodup
  of_clean : ∀ r ∈ cn.wb.clean, (cn.entry r).allocated = true ∧ (cn.entry r).dirty = false
  metadata : cn.wb.metadata = []

theorem Tracked.allocated (h : cn.Tracked)
    (hr : r ∈ cn.wb.clean ∨ r ∈ cn.wb.dirty ∨ r ∈ cn.wb.metadata) :
    (cn.entry r).allocated = true := by
  rcases hr with hr | hr | hr
  · exact (h.of_clean r hr).1
  · exact ((h.mem_dirty r).mp hr).1
  · rw [h.metadata] at hr
    cases hr

/-- A free entry is in no queue of the tracker. -/
theorem Tracked.remove_of_free (h : cn.Tracked) (hr : (cn.entry r).allocated = false) :
    cn.wb.remove r = cn.wb := by
  have hno : ∀ q : Queue, (r ∈ q → (cn.entry r).allocated = true) → q.erase r = q := by
    intro q hq
    apply List.erase_of_not_mem
    intro hmem
    rw [hq hmem] at hr
    cases hr
  unfold WritebackTracker.remove
  rw [queueRemove_eq, queueRemove_eq, queueRemove_eq,
    hno _ fun hm => h.allocated (Or.inl hm), hno _ fun hm => h.allocated (Or.inr (Or.inl hm)),
    hno _ fun hm => h.allocated (Or.inr (Or.inr hm))]

theorem wbPopDirty_nil (hq : cn.wb.dirty = []) : wbPopDirty cn = none := by
  rw [wbPopDirty, hq]
  rfl

/-- A dirty entry is in no other queue, so popping it detaches it from the tracker. -/
theorem Tracked.wbPopDirty_cons (h : cn.Tracked) {q : Queue} (hq : cn.wb.dirty = r :: q) :
    wbPopDirty cn = some (r, wbRemove cn r) := by
  have hd := ((h.mem_dirty r).mp (hq ▸ List.mem_cons_self)).2
  have hclean : r ∉ cn.wb.clean := fun hx => by
    rw [(h.of_clean r hx).2] at hd
    cases hd
  have hremove : cn.wb.remove r = { cn.wb with dirty := q } := by
    simp only [WritebackTracker.remove, queueRemove_eq, hq, List.erase_cons_head,
      List.erase_of_not_mem hclean, h.metadata, List.erase_nil]
  rw [wbPopDirty, hq, queuePop_cons, wbRemove, hremove]
  rfl

theorem Tracked.remove_remove (h : cn.Tracked) (r : EntryRef) :
    (cn.wb.remove r).remove r = cn.wb.remove r := by
  have hno : ∀ q : Queue, q.Nodup → (q.erase r).erase r = q.erase r := fun q hq =>
    List.erase_of_not_mem hq.not_mem_erase
  simp only [WritebackTracker.remove, queueRemove_eq, hno _ h.clean_nodup, hno _ h.dirty_nodup,
    h.metadata, List.erase_nil]

/-! ## Moves -/

/-- What a call does to the entries and the queues: nothing that the tracker looks at, one
entry rewritten and out of the queues, or one entry rewritten and put at the tail of its
queue. An entry is made dirty only where `sets` allows it for its oblock; `entered` is the
entry that joined the dirty queue. -/
inductive Moved (cn : CacheNucleus) (sets : Oblock → Prop) (cn' : CacheNucleus) :
    Option EntryRef → Prop
  | same (hs : ∀ x, (cn'.entry x).allocated = (cn.entry x).allocated ∧
        (cn'.entry x).oblock = (cn.entry x).oblock ∧ (cn'.entry x).dirty = (cn.entry x).dirty)
      (hwb : cn'.wb = cn.wb) : Moved cn sets cn' none
  | detached {r : EntryRef} {e : Entry} (hs : cn'.entry = Function.update cn.entry r e)
      (he : e.allocated = true → e.dirty = false) (hwb : cn'.wb = cn.wb.remove r) :
      Moved cn sets cn' none
  | queued {r : EntryRef} {e : Entry} (hs : cn'.entry = Function.update cn.entry r e)
      (ha : e.allocated = true)
      (he : e.dirty = true → sets e.oblock ∨ (cn.DirtyAt r ∧ (cn.entry r).oblock = e.oblock))
      (hwb : cn'.wb = (cn.wb.remove r).push r e.dirty) :
      Moved cn sets cn' (if e.dirty then some r else none)

variable {sets : Oblock → Prop} {entered : Option EntryRef}

theorem mem_erase_append {q : Queue} (hq : q.Nodup) (r x : EntryRef) :
    x ∈ q.erase r ++ [r] ↔ x = r ∨ x ∈ q := by
  by_cases hx : x = r
  · simp [hx]
  · simp [hx, hq.mem_erase_iff]

theorem nodup_erase_append {q : Queue} (hq : q.Nodup) (r : EntryRef) :
    (q.erase r ++ [r]).Nodup := by
  refine List.nodup_append.mpr ⟨hq.erase r, List.nodup_singleton r, ?_⟩
  rintro x hx y hy rfl
  rw [List.mem_singleton.mp hy] at hx
  exact hq.not_mem_erase hx

theorem Moved.tracked (h : cn.Tracked) (hm : cn.Moved sets cn' entered) : cn'.Tracked := by
  cases hm with
  | same hs hwb =>
    refine ⟨hwb ▸ h.dirty_nodup, fun x => ?_, hwb ▸ h.clean_nodup, fun x hx => ?_, hwb ▸ h.metadata⟩
    · rw [DirtyAt, (hs x).1, (hs x).2.2, hwb]
      exact h.mem_dirty x
    · rw [(hs x).1, (hs x).2.2]
      exact h.of_clean x (hwb ▸ hx)
  | @detached r e hs he hwb =>
    have hclean : ∀ x ∈ cn.wb.clean.erase r,
        (cn'.entry x).allocated = true ∧ (cn'.entry x).dirty = false := by
      intro x hx
      obtain ⟨hne, hx⟩ := h.clean_nodup.mem_erase_iff.mp hx
      rw [hs, Function.update_of_ne hne]
      exact h.of_clean x hx
    rw [WritebackTracker.remove, queueRemove_eq, queueRemove_eq, queueRemove_eq, h.metadata] at hwb
    refine ⟨by rw [hwb]; exact h.dirty_nodup.erase r, fun x => ?_,
      by rw [hwb]; exact h.clean_nodup.erase r, by rw [hwb]; exact hclean, by rw [hwb]; rfl⟩
    rw [hwb, h.dirty_nodup.mem_erase_iff, DirtyAt, hs]
    by_cases hx : x = r
    · subst hx
      rw [Function.update_self]
      refine iff_of_false (fun hx => hx.1 rfl) fun hx => ?_
      rw [he hx.1] at hx
      cases hx.2
    · rw [Function.update_of_ne hx]
      simp [hx, h.mem_dirty, DirtyAt]
  | @queued r e hs ha he hwb =>
    rw [WritebackTracker.remove, queueRemove_eq, queueRemove_eq, queueRemove_eq, h.metadata] at hwb
    have hself : cn'.entry r = e := by rw [hs, Function.update_self]
    have hother : ∀ x, x ≠ r → cn'.entry x = cn.entry x := fun x hx => by
      rw [hs, Function.update_of_ne hx]
    have hclean : ∀ x ∈ cn.wb.clean.erase r,
        (cn'.entry x).allocated = true ∧ (cn'.entry x).dirty = false := by
      intro x hx
      obtain ⟨hne, hx⟩ := h.clean_nodup.mem_erase_iff.mp hx
      rw [hother x hne]
      exact h.of_clean x hx
    cases hd : e.dirty with
    | true =>
      rw [hd] at hwb
      refine ⟨by rw [hwb]; exact nodup_erase_append h.dirty_nodup r, fun x => ?_,
        by rw [hwb]; exact h.clean_nodup.erase r, by rw [hwb]; exact hclean, by rw [hwb]; rfl⟩
      rw [hwb]
      show x ∈ cn.wb.dirty.erase r ++ [r] ↔ _
      rw [mem_erase_append h.dirty_nodup, DirtyAt]
      by_cases hx : x = r
      · rw [hx, hself]
        exact iff_of_true (Or.inl rfl) ⟨ha, hd⟩
      · rw [hother x hx, h.mem_dirty]
        exact or_iff_right hx
    | false =>
      rw [hd] at hwb
      refine ⟨by rw [hwb]; exact h.dirty_nodup.erase r, fun x => ?_,
        by rw [hwb]; exact nodup_erase_append h.clean_nodup r, ?_, by rw [hwb]; rfl⟩
      · rw [hwb]
        show x ∈ cn.wb.dirty.erase r ↔ _
        rw [h.dirty_nodup.mem_erase_iff, DirtyAt]
        by_cases hx : x = r
        · rw [hx, hself, hd]
          simp
        · rw [hother x hx, h.mem_dirty]
          exact and_iff_right hx
      · rw [hwb]
        intro x hx
        rcases List.mem_append.mp hx with hx | hx
        · exact hclean x hx
        · rw [List.mem_singleton.mp hx, hself]
          exact ⟨ha, hd⟩

theorem Moved.mono {sets' : Oblock → Prop} (hm : cn.Moved sets cn' entered)
    (hs : ∀ o, sets o → sets' o) : cn.Moved sets' cn' entered := by
  cases hm with
  | same hs hwb => exact .same hs hwb
  | detached hs he hwb => exact .detached hs he hwb
  | queued h ha he hwb => exact .queued h ha (fun hd => (he hd).imp_left (hs _)) hwb

/-- The time is no part of what the tracker looks at. -/
theorem Moved.ofTime {time : Nat}
    (hm : ({ cn with time := time } : CacheNucleus).Moved sets cn' entered) :
    cn.Moved sets cn' entered := by
  cases hm with
  | same hs hwb => exact .same hs hwb
  | detached hs he hwb => exact .detached hs he hwb
  | queued hs ha he hwb => exact .queued hs ha he hwb

/-- A block gets dirty only when it is set dirty. -/
theorem Moved.of_dirtyAt (hm : cn.Moved sets cn' entered) (hd : cn'.DirtyAt x)
    (hno : ¬sets (cn'.entry x).oblock) :
    cn.DirtyAt x ∧ (cn.entry x).oblock = (cn'.entry x).oblock := by
  cases hm with
  | same hs hwb =>
    rw [DirtyAt, (hs x).1, (hs x).2.2] at hd
    exact ⟨hd, (hs x).2.1.symm⟩
  | @detached r e hs he hwb =>
    rw [DirtyAt, hs] at hd
    rw [hs]
    by_cases hx : x = r
    · rw [hx, Function.update_self] at hd
      rw [he hd.1] at hd
      cases hd.2
    · rw [Function.update_of_ne hx] at hd ⊢
      exact ⟨hd, rfl⟩
  | @queued r e hs ha he hwb =>
    rw [DirtyAt, hs] at hd
    rw [hs] at hno ⊢
    by_cases hx : x = r
    · rw [hx, Function.update_self] at hd hno ⊢
      exact (he hd.2).resolve_left hno
    · rw [Function.update_of_ne hx] at hd ⊢
      exact ⟨hd, rfl⟩

/-! ## The nucleus operations and the tracker -/

/-- Queueing an entry that has just been rewritten. -/
theorem Rewrites.push (h : cn.Rewrites r e free cn') :
    cn.Rewrites r e free (wbPushCache cn' r) ∧ (wbPushCache cn' r).wb = cn'.wb.push r e.dirty := by
  rw [wbPushCache_eq, h.entry_self]
  exact ⟨h.withWb _, rfl⟩

/-- Marking rewrites the dirty bit and queues the entry by it. -/
theorem Wf.wbMark (h : cn.Wf) (r : EntryRef) (dirty : Bool) :
    cn.Rewrites r { cn.entry r with dirty := dirty } (cn.pool r.pool).free
        (Fomo.wbMark cn r dirty) ∧
      (Fomo.wbMark cn r dirty).wb = (cn.wb.remove r).push r dirty := by
  have hset := (h.withWb (cn.wb.remove r)).setEntry (r := r)
    (e := { cn.entry r with dirty := dirty }) rfl rfl rfl
  exact hset.ofWb.push

theorem cacheNucleusRemove_wb (hrun : cacheNucleusRemove cn r = .ok cn') :
    cn'.wb = cn.wb.remove r := by
  obtain ⟨cn1, hrem, hrun⟩ := bind_eq_ok.mp hrun
  obtain ⟨ep, _, hrun⟩ := bind_eq_ok.mp hrun
  unfold hashRemove at hrem
  split at hrem
  · rw [← Except.ok.inj hrun, ← Except.ok.inj hrem]
    rfl
  · cases hrem

theorem insertInCache_wb {result res : CacheNucleusResult}
    (hrun : insertInCache cn o result = .ok (cn', r, res)) : cn'.wb = cn.wb := by
  obtain ⟨⟨cn1, r1⟩, halloc, hrun⟩ := bind_eq_ok.mp hrun
  obtain ⟨rfl, _⟩ := Prod.mk.inj (Except.ok.inj hrun)
  unfold allocPoolEntry at halloc
  split at halloc
  · cases halloc
  · rw [← (Prod.mk.inj (Except.ok.inj halloc)).1]
    rfl

theorem insertInCacheAt_wb {cb : Cblock} (hrun : insertInCacheAt cn o cb = .ok (cn', r)) :
    cn'.wb = cn.wb := by
  obtain ⟨⟨ep, i⟩, _, hrun⟩ := bind_eq_ok.mp hrun
  rw [← (Prod.mk.inj (Except.ok.inj hrun)).1]
  rfl

theorem migratingCacheEntry_wb (hrun : migratingCacheEntry cn r = .ok cn') : cn'.wb = cn.wb := by
  obtain ⟨_, _, hrun⟩ := bind_eq_ok.mp hrun
  obtain ⟨ep, _, hrun⟩ := bind_eq_ok.mp hrun
  exact Except.ok.inj hrun ▸ rfl

theorem migratedCacheEntry_wb {x : Option EntryRef}
    (hrun : migratedCacheEntry cn x = .ok (cn', r)) : cn'.wb = cn.wb := by
  cases x with
  | none => cases hrun
  | some r1 =>
    obtain ⟨_, _, hrun⟩ := bind_eq_ok.mp hrun
    obtain ⟨ep, _, hrun⟩ := bind_eq_ok.mp hrun
    rw [← (Prod.mk.inj (Except.ok.inj hrun)).1]
    rfl

theorem dirtyWork_wb (cn : CacheNucleus) (o : Oblock) (w : Bool) :
    (dirtyWork cn o w).wb = cn.wb := by
  unfold dirtyWork
  split
  · rfl
  · split
    · rfl
    · rfl

theorem defaultRemap_wb {a b : Oblock} (hrun : defaultRemap cn a b = .ok cn') :
    cn'.wb = cn.wb := by
  obtain ⟨r, _, hrun⟩ := bind_eq_ok.mp hrun
  obtain ⟨cn1, hrem, hrun⟩ := bind_eq_ok.mp hrun
  unfold hashRemove at hrem
  split at hrem
  · rw [← Except.ok.inj hrun, ← Except.ok.inj hrem]
    rfl
  · cases hrem

end CacheNucleus

end Fomo
