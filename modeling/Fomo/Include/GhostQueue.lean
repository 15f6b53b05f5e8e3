import Fomo.Include.NucleusSpec

/-!
# Ghost queues

A wrapper keeps a nucleus of its own that holds ghosts only: every entry in use is a
metadata entry and stands in one queue. Removing a ghost and adding one keep the table,
the queue and the pool together.
-/
namespace Fomo

/-- The table, the queue and the pool of `m` metadata entries hold the same ghosts. -/
structure GhostQueue (m : Nat) (cn : CacheNucleus) (q : Queue) : Prop where
  wf : cn.Wf
  nodup : q.Nodup
  mem : ∀ r, r ∈ q ↔ (cn.entry r).allocated = true
  cache_empty : (cn.pool .cache).nrEntries = 0
  meta_entries : (cn.pool .metadata).nrEntries = m

namespace GhostQueue

variable {m : Nat} {cn cn' : CacheNucleus} {q : Queue} {r : EntryRef} {o : Oblock}

theorem pool_eq (h : GhostQueue m cn q) (hr : r ∈ q) : r.pool = .metadata := by
  have hlt := h.wf.lt_of_allocated ((h.mem r).mp hr)
  cases hp : r.pool with
  | metadata => rfl
  | cache =>
    rw [hp, h.cache_empty] at hlt
    omega

theorem length_eq (h : GhostQueue m cn q) : q.length = (cn.pool .metadata).nrAllocated :=
  h.wf.length_eq_nrAllocated h.nodup fun r =>
    ⟨fun hr => ⟨h.pool_eq hr, (h.mem r).mp hr⟩, fun hr => (h.mem r).mpr hr.2⟩

/-- Every metadata entry is either free or queued. -/
theorem free_append_queue (h : GhostQueue m cn q) :
    (cn.pool .metadata).free.length + q.length = m := by
  have hnr := (h.wf.pools .metadata).nr_allocated
  rw [h.meta_entries, ← h.length_eq] at hnr
  omega

theorem lookup_mem (h : GhostQueue m cn q) (hl : hashLookup cn o = some r) : r ∈ q :=
  (h.mem r).mpr (h.wf.hashLookup_eq_some.mp hl).1

/-- The oblocks of the ghosts are different. -/
theorem oblocks_nodup (h : GhostQueue m cn q) :
    (q.map fun r => (cn.entry r).oblock).Nodup :=
  h.nodup.map_on fun x hx y hy hxy => h.wf.inj x y ((h.mem x).mp hx) ((h.mem y).mp hy) hxy

/-- Removing a ghost makes its oblock unknown. -/
theorem remove (h : GhostQueue m cn q) (hr : r ∈ q) :
    ∃ cn', cacheNucleusRemove cn r = .ok cn' ∧ GhostQueue m cn' (q.erase r) ∧
      cn'.Absent (cn.entry r).oblock ∧ cn'.metaSize = cn.metaSize := by
  have ha := (h.mem r).mp hr
  obtain ⟨cn', hrun, hrw⟩ := h.wf.cacheNucleusRemove ha
  refine ⟨cn', hrun, ⟨hrw.wf, h.nodup.erase r, fun x => ?_, ?_, ?_⟩, ?_, hrw.metaSize⟩
  · rw [h.nodup.mem_erase_iff, h.mem, hrw.entry]
    by_cases hx : x = r
    · subst hx
      simp [CacheNucleus.freedEntry]
    · simp [hx]
  · rw [hrw.nrEntries]
    exact h.cache_empty
  · rw [hrw.nrEntries]
    exact h.meta_entries
  · exact h.wf.absent_of_freed (h.wf.hashLookup_self ha) hrw rfl

/-- A ghost of an unknown block goes to the recent end when an entry is left. -/
theorem insert (h : GhostQueue m cn q) (hlen : q.length < m) (ho : cn.Absent o) :
    ∃ cn' fe, insertInMeta cn o = .ok (cn', fe) ∧ GhostQueue m cn' (q ++ [fe]) ∧
      cn'.metaSize = cn.metaSize := by
  have hroom := h.free_append_queue
  obtain ⟨i, rest, hf⟩ : ∃ i rest, (cn.pool .metadata).free = i :: rest := by
    cases hf : (cn.pool .metadata).free with
    | nil =>
      rw [hf, List.length_nil] at hroom
      omega
    | cons i rest => exact ⟨i, rest, rfl⟩
  obtain ⟨cn', hrun, hrw⟩ := h.wf.insertInMeta hf ho
  have hfree := (h.wf.mem_free (r := ⟨.metadata, i⟩)).mp (by simp [hf])
  have hni : (⟨.metadata, i⟩ : EntryRef) ∉ q := by
    intro hm
    have := (h.mem _).mp hm
    rw [hfree.2] at this
    cases this
  refine ⟨cn', ⟨.metadata, i⟩, hrun, ⟨hrw.wf, ?_, fun x => ?_, ?_, ?_⟩, hrw.metaSize⟩
  · rw [← List.concat_eq_append, List.nodup_concat]
    exact ⟨hni, h.nodup⟩
  · rw [List.mem_append, List.mem_singleton, h.mem, hrw.entry]
    by_cases hx : x = ⟨.metadata, i⟩
    · subst hx
      simp [CacheNucleus.freshEntry]
    · simp [hx]
  · rw [hrw.nrEntries]
    exact h.cache_empty
  · rw [hrw.nrEntries]
    exact h.meta_entries

/-- An insertion that returned found an entry. -/
theorem inserted (h : GhostQueue m cn q) (ho : cn.Absent o)
    (hrun : insertInMeta cn o = .ok (cn', r)) :
    GhostQueue m cn' (q ++ [r]) ∧ cn'.metaSize = cn.metaSize := by
  by_cases hlen : q.length < m
  · obtain ⟨cn1, fe, hins, hg, hms⟩ := h.insert hlen ho
    obtain ⟨rfl, rfl⟩ := Prod.mk.inj (Except.ok.inj (hins.symm.trans hrun))
    exact ⟨hg, hms⟩
  · have hpart := h.free_append_queue
    have hfree : (cn.pool .metadata).free = [] := List.length_eq_zero_iff.mp (by omega)
    simp [insertInMeta, allocPoolEntry, allocEntry, hfree] at hrun

/-- A ghost asked for again goes to the recent end. -/
theorem requeue (h : GhostQueue m cn q) (hr : r ∈ q) : GhostQueue m cn (q.erase r ++ [r]) := by
  refine ⟨h.wf, ?_, fun x => ?_, h.cache_empty, h.meta_entries⟩
  · rw [← List.concat_eq_append, List.nodup_concat]
    exact ⟨h.nodup.not_mem_erase, h.nodup.erase r⟩
  · rw [← h.mem, List.mem_append, List.mem_singleton, h.nodup.mem_erase_iff]
    by_cases hx : x = r
    · subst hx
      simp [hr]
    · simp [hx]

/-- A ghost may get another name. -/
theorem renamed (h : GhostQueue m cn q) {free : List Nat}
    (hrw : cn.Rewrites r { cn.entry r with oblock := o } free cn') : GhostQueue m cn' q := by
  refine ⟨hrw.wf, h.nodup, fun x => ?_, (hrw.nrEntries _).trans h.cache_empty,
    (hrw.nrEntries _).trans h.meta_entries⟩
  rw [h.mem]
  by_cases hx : x = r
  · rw [hx, hrw.entry_self]
  · rw [hrw.entry_of_ne hx]

theorem withStats (h : GhostQueue m cn q) (stats : PolicyStats) :
    GhostQueue m { cn with stats := stats } q :=
  ⟨h.wf.withStats stats, h.nodup, h.mem, h.cache_empty, h.meta_entries⟩

theorem withTime (h : GhostQueue m cn q) (time : Nat) : GhostQueue m { cn with time := time } q :=
  ⟨h.wf.withTime time, h.nodup, h.mem, h.cache_empty, h.meta_entries⟩

/-- The nucleus of a wrapper has no cache, so its own cache pool always looks full. -/
theorem cacheIsFull (h : GhostQueue m cn q) : Fomo.cacheIsFull cn = true := by
  have hpart := (h.wf.pools .cache).nr_allocated
  rw [h.cache_empty] at hpart
  have hfree : (cn.pool .cache).free = [] := List.length_eq_zero_iff.mp (by omega)
  simp [Fomo.cacheIsFull, epoolEmpty, hfree]

end GhostQueue

end Fomo
