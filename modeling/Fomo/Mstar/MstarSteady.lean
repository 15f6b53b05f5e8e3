import Fomo.Mstar.MstarFailure

/-!
# The ghosts of m* at every cache size

Below ten slots the ghost target may be 0, and the assertion that it is not may fail. What a
request that returns keeps does not depend on that.
-/
namespace Fomo

variable {σ : Type} {P : Policy σ} {c : Nat} {o : Oblock}

namespace MstarPolicy

/-- The ghosts of m*, its target and its logic, whatever the size of the cache. -/
structure Steady (c : Nat) (m : MstarPolicy σ) : Prop where
  ghosts : GhostQueue c m.nucleus m.mstarG
  metaSize : m.nucleus.metaSize = c
  ghostSize_le : m.ghostSize ≤ 9 * c / 10
  sane : m.logic.Sane c

variable {m m' : MstarPolicy σ} {r : EntryRef} {w : Bool} {result res : CacheNucleusResult}

theorem Steady.withInternal (h : m.Steady c) (i : σ) :
    ({ m with internal := i } : MstarPolicy σ).Steady c :=
  ⟨h.ghosts, h.metaSize, h.ghostSize_le, h.sane⟩

theorem mstarInit_steady {n : UInt32} {i : σ} {adaptive : Bool}
    (hinit : mstarInit n i adaptive = .ok m) :
    m.Steady n.toNat ∧ m.internal = i ∧ m.mstarG = [] ∧ m.ghostSize = u32 (9 * n.toNat) / 10 := by
  rw [mstarInit_eq] at hinit
  obtain rfl := Except.ok.inj hinit
  have hfree : ∀ r, ((freshNucleus 0 n.toNat (mstarPools n)).entry r).allocated = false :=
    fun r => rfl
  refine ⟨⟨⟨freshNucleus_wf (mstarPools_lt n), List.nodup_nil, fun r => ?_, rfl, rfl⟩, rfl,
    Nat.div_le_div_right (u32_le _), mstarLogicInit_sane _ _⟩, rfl, rfl, rfl⟩
  simp [hfree]

theorem Steady.onlyRemove (h : m.Steady c) (hr : r ∈ m.mstarG) :
    ∃ m', mstarOnlyRemove m r = .ok m' ∧ m'.Steady c ∧
      m'.nucleus.Absent (m.nucleus.entry r).oblock := by
  obtain ⟨cn, hrun, hg, habs, hms⟩ := h.ghosts.remove hr
  refine ⟨{ m with mstarG := m.mstarG.erase r, nucleus := cn }, ?_,
    ⟨hg, hms.trans h.metaSize, h.ghostSize_le, h.sane⟩, habs⟩
  simp only [mstarOnlyRemove, hrun, ok_bind, queueRemove_eq, pure_eq_ok]

theorem Steady.pushGhost (h : m.Steady c) (ho : m.nucleus.Absent o)
    (hrun : mstarPushGhost m o = .ok m') : m'.Steady c := by
  obtain ⟨⟨cn, me⟩, hins, hrun⟩ := bind_eq_ok.mp hrun
  obtain ⟨hg, hms⟩ := h.ghosts.inserted ho hins
  rw [← Except.ok.inj hrun]
  exact ⟨hg, hms.trans h.metaSize, h.ghostSize_le, h.sane⟩

theorem Steady.increase (h : m.Steady c) (hrun : mstarIncreaseGhostSize m = .ok m') :
    m'.Steady c := by
  obtain ⟨_, _, hrun⟩ := bind_eq_ok.mp hrun
  obtain ⟨tmp, _, hrun⟩ := bind_eq_ok.mp hrun
  rw [← Except.ok.inj hrun]
  refine ⟨h.ghosts, h.metaSize, ?_, h.sane⟩
  refine (Nat.min_le_left _ _).trans (Nat.div_le_div_right ?_)
  rw [h.metaSize]
  exact u32_le _

theorem Steady.decrease (h : m.Steady c) (hc : 0 < c) :
    ∃ m', mstarDecreaseGhostSize m = .ok m' ∧ m'.Steady c := by
  have hle := h.ghostSize_le
  have hgt : c > m.ghostSize := by omega
  have hpos : 0 < c - m.ghostSize := by omega
  unfold mstarDecreaseGhostSize
  simp only [h.metaSize, logAssert_true hgt, ok_bind, div32_of_pos hpos]
  split
  · refine ⟨_, rfl, h.ghosts, h.metaSize, Nat.max_le.mpr (And.intro ?_ ?_), h.sane⟩
    · omega
    · exact (Nat.sub_le _ _).trans hle
  · refine ⟨_, rfl, h.ghosts, h.metaSize, ?_, h.sane⟩
    show c / 10 ≤ 9 * c / 10
    omega

theorem Steady.lengthControl (h : m.Steady c) :
    ∃ m', mstarGhostLengthControl m = .ok m' ∧ m'.Steady c := by
  unfold mstarGhostLengthControl
  split
  · next hlong =>
    rw [queueLength_eq] at hlong
    cases hq : m.mstarG with
    | nil =>
      rw [hq] at hlong
      exact absurd hlong (Nat.not_lt_zero _)
    | cons me q =>
      obtain ⟨m', hrun, hm, _⟩ := h.onlyRemove (r := me) (hq ▸ List.mem_cons_self)
      have hnd : me ∉ q := (List.nodup_cons.mp (hq ▸ h.ghosts.nodup)).1
      have hpop : mstarOnlyRemove { m with mstarG := q } me = mstarOnlyRemove m me := by
        simp only [mstarOnlyRemove, queueRemove_eq, hq, List.erase_cons_head,
          List.erase_of_not_mem hnd]
      refine ⟨m', ?_, hm⟩
      simp only [mstarEvict, hq, queuePop_cons, hpop, hrun]
  · exact ⟨m, rfl, h⟩

theorem Steady.mapInternal (h : m.Steady c)
    (hrun : mstarMapInternal P m o w result = .ok (m', res)) : m'.Steady c := by
  obtain ⟨x, _, hrun⟩ := bind_eq_ok.mp hrun
  obtain ⟨rfl, _⟩ := Prod.mk.inj (Except.ok.inj hrun)
  exact h.withInternal x.1

/-- The hit or miss part of a request that returns. -/
theorem Steady.serve (h : m.Steady c) (hc : 0 < c)
    (hrun : mstarServe P m o w (P.cacheLookup m.internal o).isSome
      (hashLookup m.nucleus o).isSome result = .ok (m', res)) : m'.Steady c := by
  unfold mstarServe at hrun
  split at hrun
  · obtain ⟨⟨m1, res1⟩, hmap, hrun⟩ := bind_eq_ok.mp hrun
    have h1 := h.mapInternal hmap
    dsimp only at hrun
    split at hrun
    · obtain ⟨m2, hdec, hrun⟩ := bind_eq_ok.mp hrun
      obtain ⟨rfl, _⟩ := Prod.mk.inj (Except.ok.inj hrun)
      obtain ⟨m3, hdec', h3⟩ := h1.decrease hc
      exact Except.ok.inj (hdec'.symm.trans hdec) ▸ h3
    · obtain ⟨rfl, _⟩ := Prod.mk.inj (Except.ok.inj hrun)
      exact h1
  · split at hrun
    · unfold mstarGhostHit at hrun
      dsimp only at hrun
      split at hrun
      · obtain ⟨e, hl, hrun⟩ := bind_eq_ok.mp hrun
        have hl := deref_eq_ok.mp hl
        obtain ⟨m1, hrem, hrun⟩ := bind_eq_ok.mp hrun
        obtain ⟨m2, hrem', h2, habs⟩ := h.onlyRemove (h.ghosts.lookup_mem hl)
        obtain rfl := Except.ok.inj (hrem'.symm.trans hrem)
        rw [(h.ghosts.wf.hashLookup_eq_some.mp hl).2] at habs
        split at hrun
        · obtain ⟨m3, hpush, hrun⟩ := bind_eq_ok.mp hrun
          obtain ⟨m4, hinc, hrun⟩ := bind_eq_ok.mp hrun
          exact ((h2.pushGhost habs hpush).increase hinc).mapInternal hrun
        · rw [ok_bind] at hrun
          obtain ⟨m4, hinc, hrun⟩ := bind_eq_ok.mp hrun
          exact (h2.increase hinc).mapInternal hrun
      · exact h.mapInternal hrun
    · next hghost =>
      have hl : hashLookup m.nucleus o = none := Option.not_isSome_iff_eq_none.mp hghost
      unfold mstarGhostMiss at hrun
      split at hrun
      · obtain ⟨m1, hpush, hrun⟩ := bind_eq_ok.mp hrun
        obtain ⟨m2, hinc, hrun⟩ := bind_eq_ok.mp hrun
        have h2 := (h.pushGhost (h.ghosts.wf.hashLookup_eq_none.mp hl) hpush).increase hinc
        split at hrun
        · obtain ⟨rfl, _⟩ := Prod.mk.inj (Except.ok.inj hrun)
          exact ⟨(h2.ghosts.withStats _), h2.metaSize, h2.ghostSize_le, h2.sane⟩
        · exact h2.mapInternal hrun
      · exact h.mapInternal hrun

theorem Steady.map (h : m.Steady c) (hc : 0 < c)
    (hrun : mstarMap P m o w result = .ok (m', res)) : m'.Steady c := by
  obtain ⟨⟨m1, res1⟩, hserve, hrun⟩ := bind_eq_ok.mp hrun
  have h1 := h.serve hc hserve
  obtain ⟨m2, hcontrol, hrun⟩ := bind_eq_ok.mp hrun
  obtain ⟨m3, hcontrol', h3⟩ := h1.lengthControl
  obtain rfl := Except.ok.inj (hcontrol'.symm.trans hcontrol)
  obtain ⟨logic, hupd, hrun⟩ := bind_eq_ok.mp hrun
  obtain ⟨logic', hupd', hsane, _⟩ := updateMstar_spec h3.sane hc
    (P.cacheLookup m.internal o).isSome (hashLookup m.nucleus o).isSome
  obtain rfl := Except.ok.inj (hupd'.symm.trans hupd)
  obtain ⟨rfl, _⟩ := Prod.mk.inj (Except.ok.inj hrun)
  exact ⟨h3.ghosts, h3.metaSize, h3.ghostSize_le, hsane⟩

theorem Steady.remove (h : m.Steady c) (hrun : mstarRemove P m o false = .ok m') :
    m'.Steady c ∧ m'.nucleus.Absent o := by
  unfold mstarRemove at hrun
  cases hl : hashLookup m.nucleus o with
  | none =>
    rw [hl] at hrun
    obtain ⟨m1, hm, hrun⟩ := bind_eq_ok.mp hrun
    obtain rfl := Except.ok.inj hm
    obtain ⟨i, _, hrun⟩ := bind_eq_ok.mp hrun
    rw [← Except.ok.inj hrun]
    exact ⟨h.withInternal i, h.ghosts.wf.hashLookup_eq_none.mp hl⟩
  | some r =>
    rw [hl] at hrun
    obtain ⟨m1, hrem, hrun⟩ := bind_eq_ok.mp hrun
    obtain ⟨i, _, hrun⟩ := bind_eq_ok.mp hrun
    obtain ⟨m2, hrem', h2, habs⟩ := h.onlyRemove (h.ghosts.lookup_mem hl)
    obtain rfl := Except.ok.inj (hrem'.symm.trans hrem)
    rw [(h.ghosts.wf.hashLookup_eq_some.mp hl).2] at habs
    rw [← Except.ok.inj hrun]
    exact ⟨h2.withInternal i, habs⟩

theorem mstarRemove_passed (hrun : mstarRemove P m o false = .ok m') :
    P.remove m.internal o false = .ok m'.internal := by
  unfold mstarRemove at hrun
  cases hl : hashLookup m.nucleus o with
  | none =>
    rw [hl] at hrun
    obtain ⟨m1, hm, hrun⟩ := bind_eq_ok.mp hrun
    obtain rfl := Except.ok.inj hm
    obtain ⟨i, hi, hrun⟩ := bind_eq_ok.mp hrun
    exact Except.ok.inj hrun ▸ hi
  | some r =>
    rw [hl] at hrun
    obtain ⟨m1, hrem, hrun⟩ := bind_eq_ok.mp hrun
    obtain ⟨i, hi, hrun⟩ := bind_eq_ok.mp hrun
    rw [(keeps_onlyRemove hrem).internal] at hi
    exact Except.ok.inj hrun ▸ hi

end MstarPolicy

end Fomo
