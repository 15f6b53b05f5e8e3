import Fomo.Include.NucleusSpec

/-!
# Queues of settled entries

Most policies keep the settled entries of a pool in queues, one queue for each value
of `home`. An entry joins its queue when it settles and leaves it when it is freed or
changes home; the rules below follow a rewrite of the nucleus.
-/
namespace Fomo

variable {ι : Type}

/-- Every settled entry is queued once, in the queue of its home. -/
structure Queued (cn : CacheNucleus) (home : EntryRef → ι) (q : ι → Queue) : Prop where
  nodup : ∀ i, (q i).Nodup
  mem : ∀ i r, r ∈ q i ↔
    (cn.entry r).allocated = true ∧ (cn.entry r).migrating = false ∧ home r = i

namespace Queued

variable {cn cn' : CacheNucleus} {home g : EntryRef → ι} {q q' : ι → Queue} {r x : EntryRef}
  {e : Entry} {free : List Nat} {i : ι}

theorem nodup_touch {l : Queue} (hl : l.Nodup) (r : EntryRef) : (l.erase r ++ [r]).Nodup := by
  apply List.nodup_append.mpr ⟨hl.erase r, List.nodup_singleton r, ?_⟩
  intro x hx y hy hxy
  subst hxy
  rw [List.mem_singleton] at hy
  subst hy
  exact hl.not_mem_erase hx

/-- Queues see an entry only through its flags and its home. -/
theorem rewrites (h : Queued cn home q) (hrw : cn.Rewrites r e free cn')
    (hhome : ∀ x, x ≠ r → g x = home x) (hnd : ∀ i, (q' i).Nodup)
    (hself : ∀ i, r ∈ q' i ↔ e.allocated = true ∧ e.migrating = false ∧ g r = i)
    (hother : ∀ i x, x ≠ r → (x ∈ q' i ↔ x ∈ q i)) : Queued cn' g q' where
  nodup := hnd
  mem := fun i x => by
    by_cases hx : x = r
    · subst hx
      rw [hrw.entry_self]
      exact hself i
    · rw [hrw.entry_of_ne hx, hhome x hx, hother i x hx]
      exact h.mem i x

variable (h : Queued cn home q) (hrw : cn.Rewrites r e free cn')
  (hhome : ∀ x, x ≠ r → g x = home x)
include h hrw hhome

/-- The entry is freed or starts to migrate. -/
theorem drop (he : e.allocated = false ∨ e.migrating = true) :
    Queued cn' g fun i => (q i).erase r := by
  apply h.rewrites hrw hhome (fun i => (h.nodup i).erase r)
  · intro i
    have hno : r ∉ (q i).erase r := (h.nodup i).not_mem_erase
    rcases he with he | he
    · simp [hno, he]
    · simp [hno, he]
  · intro i x hx
    rw [(h.nodup i).mem_erase_iff]
    simp [hx]

/-- The entry was in no queue and does not join one. -/
theorem keep (hr : ∀ i, r ∉ q i) (he : e.allocated = false ∨ e.migrating = true) :
    Queued cn' g q := by
  have hq : (fun i => (q i).erase r) = q := by
    funext i
    exact List.erase_of_not_mem (hr i)
  rw [← hq]
  exact h.drop hrw hhome he

/-- The entry goes to the recent end of the queue of its new home. -/
theorem touch [DecidableEq ι] (ha : e.allocated = true) (hm : e.migrating = false)
    (hi : g r = i) :
    Queued cn' g (Function.update (fun j => (q j).erase r) i ((q i).erase r ++ [r])) := by
  apply h.rewrites hrw hhome
  · intro j
    by_cases hj : j = i
    · subst hj
      rw [Function.update_self]
      exact nodup_touch (h.nodup j) r
    · rw [Function.update_of_ne hj]
      exact (h.nodup j).erase r
  · intro j
    by_cases hj : j = i
    · subst hj
      simp [ha, hm, hi]
    · rw [Function.update_of_ne hj]
      have hno : r ∉ (q j).erase r := (h.nodup j).not_mem_erase
      simp only [hno, false_iff, not_and]
      intro _ _ hij
      exact hj (hij.symm.trans hi)
  · intro j x hx
    by_cases hj : j = i
    · subst hj
      rw [Function.update_self, List.mem_append, (h.nodup j).mem_erase_iff]
      simp [hx]
    · rw [Function.update_of_ne hj, (h.nodup j).mem_erase_iff]
      simp [hx]

/-- The entry was in no queue and joins the one of its new home. -/
theorem push [DecidableEq ι] (hr : ∀ i, r ∉ q i) (ha : e.allocated = true)
    (hm : e.migrating = false) (hi : g r = i) :
    Queued cn' g (Function.update q i (q i ++ [r])) := by
  have hq : (fun i => (q i).erase r) = q := by
    funext j
    exact List.erase_of_not_mem (hr j)
  have htouch := h.touch hrw hhome ha hm hi
  rw [hq, List.erase_of_not_mem (hr i)] at htouch
  exact htouch

/-- The entry keeps its flags and its home. -/
theorem same (ha : e.allocated = (cn.entry r).allocated)
    (hm : e.migrating = (cn.entry r).migrating) (hr : g r = home r) : Queued cn' g q := by
  apply h.rewrites hrw hhome h.nodup
  · intro i
    rw [ha, hm, hr]
    exact h.mem i r
  · exact fun i x _ => Iff.rfl

omit hrw hhome in
theorem not_mem_of_free (ha : (cn.entry r).allocated = false) (i : ι) : r ∉ q i := by
  intro hmem
  have := ((h.mem i r).mp hmem).1
  simp [ha] at this

omit hrw hhome in
theorem not_mem_of_migrating (hm : (cn.entry r).migrating = true) (i : ι) : r ∉ q i := by
  intro hmem
  have := ((h.mem i r).mp hmem).2.1
  simp [hm] at this

end Queued

end Fomo
