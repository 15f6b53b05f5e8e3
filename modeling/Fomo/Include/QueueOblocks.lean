import Fomo.Include.Queued
import Fomo.Lib.KeyedList

/-!
# Queues seen through their oblocks

What a policy remembers is the lists of oblocks its queues spell out. While entries are freed
and settle these lists change as lists of blocks do, whatever slots the entries have.
-/
namespace Fomo

namespace CacheNucleus

/-- The oblocks of a queue, least recent first. -/
def oblocks (cn : CacheNucleus) (q : Queue) : List Oblock := q.map fun r => (cn.entry r).oblock

variable {cn cn' : CacheNucleus} {r : EntryRef} {e : Entry} {free : List Nat} {o : Oblock}
  {q : Queue}

/-- A rewrite of an entry that the queue does not list. -/
theorem Rewrites.oblocks_out (h : cn.Rewrites r e free cn') (hr : r ∉ q) :
    cn'.oblocks q = cn.oblocks q := by
  apply List.map_congr_left
  intro x hx
  have hxr : x ≠ r := by
    intro heq
    subst heq
    exact hr hx
  rw [h.entry_of_ne hxr]

/-- A rewrite that keeps the oblock of its entry. -/
theorem Rewrites.oblocks_same (h : cn.Rewrites r e free cn')
    (he : e.oblock = (cn.entry r).oblock) (q : Queue) : cn'.oblocks q = cn.oblocks q := by
  apply List.map_congr_left
  intro x _
  by_cases hx : x = r
  · rw [hx, h.entry_self, he]
  · rw [h.entry_of_ne hx]

end CacheNucleus

namespace Queued

variable {ι : Type} {cn cn' : CacheNucleus} {home : EntryRef → ι} {q : ι → Queue} {r : EntryRef}
  {e : Entry} {free : List Nat} {o : Oblock} {i : ι}

theorem oblocks_nodup (h : Queued cn home q) (hwf : cn.Wf) (i : ι) : (cn.oblocks (q i)).Nodup := by
  apply (h.nodup i).map_on
  intro x hx y hy hxy
  exact hwf.inj x y ((h.mem i x).mp hx).1 ((h.mem i y).mp hy).1 hxy

theorem mem_oblocks (h : Queued cn home q) (hwf : cn.Wf) :
    o ∈ cn.oblocks (q i) ↔ ∃ r, hashLookup cn o = some r ∧
      (cn.entry r).migrating = false ∧ home r = i := by
  simp only [CacheNucleus.oblocks, List.mem_map, h.mem, hwf.hashLookup_eq_some]
  constructor
  · intro hx
    obtain ⟨r, ⟨ha, hm, hi⟩, ho⟩ := hx
    exact ⟨r, ⟨ha, ho⟩, hm, hi⟩
  · intro hx
    obtain ⟨r, ⟨ha, ho⟩, hm, hi⟩ := hx
    exact ⟨r, ⟨ha, hm, hi⟩, ho⟩

theorem not_mem_oblocks (h : Queued cn home q) (hwf : cn.Wf) (habs : cn.Absent o) (i : ι) :
    o ∉ cn.oblocks (q i) := by
  rw [h.mem_oblocks hwf, hwf.hashLookup_eq_none.mpr habs]
  simp

/-- The oblocks of a queue without an entry, which may be of another queue. -/
theorem oblocks_erase (h : Queued cn home q) (hwf : cn.Wf) (ha : (cn.entry r).allocated = true)
    (i : ι) : cn.oblocks ((q i).erase r) = (cn.oblocks (q i)).erase (cn.entry r).oblock := by
  by_cases hr : r ∈ q i
  · exact Lib.map_erase_of_nodup (h.oblocks_nodup hwf i) hr
  · have hno : (cn.entry r).oblock ∉ cn.oblocks (q i) := by
      intro hm
      obtain ⟨x, hx, heq⟩ := List.mem_map.mp hm
      obtain rfl := hwf.inj x r ((h.mem i x).mp hx).1 ha heq
      exact hr hx
    rw [List.erase_of_not_mem hr, List.erase_of_not_mem hno]

/-- Freeing an entry takes its oblock out of its queue. -/
theorem oblocks_freed (h : Queued cn home q) (hwf : cn.Wf) (ha : (cn.entry r).allocated = true)
    (hrw : cn.Rewrites r e free cn') (i : ι) :
    cn'.oblocks ((q i).erase r) = (cn.oblocks (q i)).erase (cn.entry r).oblock := by
  rw [hrw.oblocks_out (h.nodup i).not_mem_erase, h.oblocks_erase hwf ha]

end Queued

end Fomo
