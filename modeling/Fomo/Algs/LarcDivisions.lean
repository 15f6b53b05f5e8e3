import Fomo.Algs.LarcGhosts
import Fomo.Algs.MapContract
import Fomo.Include.Statistics
import Mathlib.Tactic.Ring

/-!
# The divisions of LARC

A miss divides by the ghost target and a hit by what it leaves of the metadata size. The target
starts at a tenth of the metadata size, and the upper bound of a miss is computed in 32 bits:
where one of the two rounds or wraps to zero, a run divides by zero.
-/
namespace Fomo

namespace LarcPolicy

variable {s s' : LarcPolicy} {o : Oblock} {m g : Nat} {w : Bool} {result : CacheNucleusResult}

/-- The request for `o` divides by no zero, and finds room for the ghost it makes. -/
structure Divides (s : LarcPolicy) (o : Oblock) : Prop where
  increase : inCache (hashLookup s.nucleus o) = false → s.gSize ≠ 0
  decrease : inCache (hashLookup s.nucleus o) = true → s.gSize ≠ s.nucleus.metaSize
  insert : ∀ lt, larcTransactionSet s (larcTransactionInit s o) = .ok lt → lt.dest = .g →
    (s.nucleus.pool .metadata).free ≠ []

/-- The least target that a run can reach. -/
def leastTarget (m : Nat) : Nat := min (m / 10) (u32 (9 * m) / 10)

theorem leastTarget_pos : 0 < leastTarget m ↔ 10 ≤ m ∧ 10 ≤ u32 (9 * m) := by
  unfold leastTarget
  omega

/-- A target moved by a miss does not wrap. -/
theorem increase_lt (hm : m < 2 ^ 32) (hlow : leastTarget m ≤ g) (h0 : 0 < g)
    (hup : g ≤ 9 * m / 10) : g + m / g < 2 ^ 32 := by
  rcases Nat.lt_or_ge g 2 with h1 | h2
  · -- a target of one is reached only where nine metadata sizes wrap
    obtain rfl : g = 1 := by omega
    rw [Nat.div_one]
    unfold leastTarget u32 at hlow
    omega
  · have hq : m / g * g ≤ m := Nat.div_mul_le_self m g
    rcases Nat.lt_or_ge (m / g) 2 with hq1 | hq2
    · omega
    · obtain ⟨a, ha⟩ := Nat.exists_eq_add_of_le h2
      obtain ⟨b, hb⟩ := Nat.exists_eq_add_of_le hq2
      have hprod : (2 + b) * (2 + a) = 4 + 2 * a + 2 * b + b * a := by ring
      rw [hb, ha, hprod] at hq
      rw [hb, ha]
      omega

theorem Bounded.least_increase (h : s.Bounded m) (hlow : leastTarget m ≤ s.gSize)
    (h0 : 0 < s.gSize) (hg : larcIncreaseGSize s = .ok g) : leastTarget m ≤ g := by
  have hlt := increase_lt h.metaSize_lt hlow h0 h.gSize_le
  simp only [larcIncreaseGSize, h.metaSize, div32_of_pos h0, ok_bind, pure_eq_ok,
    Except.ok.injEq] at hg
  subst hg
  rw [u32_of_lt hlt]
  exact le_min (min_le_right _ _) (hlow.trans (Nat.le_add_right _ _))

theorem Bounded.least_decrease (h : s.Bounded m) (hg : larcDecreaseGSize s = .ok g) :
    leastTarget m ≤ g := by
  obtain ⟨tmp, _, hg⟩ := bind_eq_ok.mp hg
  rw [h.metaSize] at hg
  have hleast : leastTarget m ≤ m / 10 := min_le_left _ _
  split at hg
  · obtain rfl := Except.ok.inj hg
    exact hleast.trans (le_max_left _ _)
  · obtain rfl := Except.ok.inj hg
    exact hleast

/-- The target after a request is the one it computed. -/
theorem MapCase.gSize {res : CacheNucleusResult} (hc : s.MapCase o w result (.ok (s', res))) :
    s'.gSize = s.gSize ∨ larcDecreaseGSize s = .ok s'.gSize ∨
      larcIncreaseGSize s = .ok s'.gSize := by
  cases hc with
  | hit hl hp hg hs => exact Or.inr (Or.inl (hs.gSize ▸ hg))
  | take hun hg hv evict forget free arrive hres =>
    have hs := (evict.shrinks.trans forget.shrinks).trans (arrive.shrinks (le_refl _))
    exact Or.inr (Or.inr (hs.gSize ▸ hg))
  | @filter i g rest s1 s2 habs hfull hg hf ghost trim =>
    have hgs : s2.gSize = g := trim.shrinks.gSize.trans ghost.gSize
    exact Or.inr (Or.inr (hgs.symm ▸ hg))
  | refused hl hp hfull hg hq => exact Or.inl rfl

/-- The bounds with the least target. -/
structure Divisible (m : Nat) (s : LarcPolicy) : Prop where
  bounded : s.Bounded m
  least : leastTarget m ≤ s.gSize

theorem Divisible.pos (h : s.Divisible m) (hpos : 0 < leastTarget m) : 0 < s.gSize :=
  hpos.trans_le h.least

theorem Divisible.map (h : s.Divisible m) (hpos : 0 < leastTarget m)
    {res : CacheNucleusResult} (hmap : larcMapApi s o w result = .ok (s', res)) :
    s'.Divisible m := by
  have hcase := larcMapApi_case h.bounded.inv o w result
  rw [hmap] at hcase
  refine ⟨h.bounded.map (leastTarget_pos.mp hpos).1 hcase, ?_⟩
  rcases hcase.gSize with hs | hd | hi
  · rw [hs]
    exact h.least
  · exact h.bounded.least_decrease hd
  · exact h.bounded.least_increase h.least (h.pos hpos) hi

/-- A completion that returns was one of a migrating block. -/
theorem mayMigrate_of_migrated (h : s.Inv) (hrun : larcMigratedApi s o = .ok s') :
    s.nucleus.MayMigrate o := by
  unfold larcMigratedApi at hrun
  split at hrun
  · cases hrun
  · next r hl =>
    obtain ⟨_, hmig, hrun⟩ := bind_eq_ok.mp hrun
    obtain ⟨x, hpool, _⟩ := bind_eq_ok.mp hrun
    obtain ⟨_, hpool, _⟩ := bind_eq_ok.mp hpool
    have hp := logAssert_eq_ok.mp hpool
    obtain ⟨rp, cb⟩ := r
    obtain rfl : rp = .cache := hp
    have hm := logAssert_eq_ok.mp hmig
    exact ⟨cb, h.wf.hashLookup_eq_some.mp hl, hm⟩

theorem Divisible.call (h : s.Divisible m) (hpos : 0 < leastTarget m) {c : Call}
    {x : Option CacheNucleusResult} (hg : requestCalls c)
    (hcall : larcApi.call s c = .ok (s', x)) : s'.Divisible m := by
  cases c with
  | map o w result =>
    obtain ⟨res, _, hmap⟩ := Policy.call_map.mp hcall
    exact h.map hpos hmap
  | migrated o =>
    obtain ⟨s1, hrun, heq⟩ := map_eq_ok.mp hcall
    obtain ⟨rfl, _⟩ := Prod.mk.inj heq
    obtain ⟨cb, hc, hm⟩ := mayMigrate_of_migrated h.bounded.inv hrun
    obtain ⟨s2, hrun2, hs⟩ :=
      larcMigratedApi_spec h.bounded.inv (h.bounded.inv.wf.caches_iff.mp hc) rfl hm
    obtain rfl := Except.ok.inj (hrun.symm.trans hrun2)
    refine ⟨h.bounded.step hs (Function.update_of_ne (by decide) _ _), ?_⟩
    rw [hs.gSize]
    exact h.least
  | _ => exact hg.elim

theorem Divisible.divides (h : s.Divisible m) (hpos : 0 < leastTarget m) (o : Oblock) :
    s.Divides o where
  increase := fun _ => (h.pos hpos).ne'
  decrease := fun _ => by
    have hm := (leastTarget_pos.mp hpos).1
    have hup := h.bounded.gSize_le
    rw [h.bounded.metaSize]
    omega
  insert := fun _ _ _ => h.bounded.free_ne_nil (leastTarget_pos.mp hpos).1

end LarcPolicy

open LarcPolicy

/-- Where nine metadata sizes wrap to next to nothing, the first miss leaves no target. -/
theorem larc_first_target {c m : UInt32} {s0 : LarcPolicy} (hm : 10 ≤ m.toNat)
    (hwrap : u32 (9 * m.toNat) < 10) (hinit : larcCreate c m = .ok s0) :
    ∃ s, (larcApi.system fun _ => requestCalls).Reachable s0 s ∧ s.gSize = 0 ∧
      inCache (hashLookup s.nucleus 1) = false := by
  have hb := larcCreate_bounded hinit
  have hfresh := hinit
  rw [larcCreate_eq] at hfresh
  have hg0 : s0.gSize = m.toNat / 10 := by
    obtain rfl := Except.ok.inj hfresh
    rfl
  have habs : ∀ o, s0.nucleus.Absent o := by
    obtain rfl := Except.ok.inj hfresh
    exact freshNucleus_absent _ _ _
  have hpos : 0 < s0.gSize := by omega
  have hinc : larcIncreaseGSize s0 = .ok 0 := by
    simp only [larcIncreaseGSize, hb.metaSize, div32_of_pos hpos, ok_bind, pure_eq_ok]
    rw [Nat.div_eq_of_lt hwrap, Nat.zero_min]
  have hl : hashLookup s0.nucleus 0 = none := hb.inv.wf.hashLookup_eq_none.mpr (habs 0)
  have hcase := larcMapApi_case hb.inv 0 false {}
  generalize hx : larcMapApi s0 0 false {} = x at hcase
  cases x with
  | error f =>
    cases hcase with
    | stuck hstuck =>
      rcases hstuck with ⟨⟨r, hr, _⟩, _⟩ | ⟨_, hi⟩ | hf
      · rw [hl] at hr
        cases hr
      · rw [hinc] at hi
        cases hi
      · exact absurd hf (hb.free_ne_nil hm)
  | ok x =>
    obtain ⟨s, res⟩ := x
    have hreach : (larcApi.system fun _ => requestCalls).Reachable s0 s :=
      (Lib.System.Reachable.refl _ s0).step (e := .map 0 false {}) trivial
        (Policy.call_map.mpr ⟨res, rfl, hx⟩)
    refine ⟨s, hreach, ?_, ?_⟩
    · cases hcase with
      | hit hr => rw [hl] at hr; cases hr
      | take hun hg hv evict forget free arrive hres =>
        have hs := (evict.shrinks.trans forget.shrinks).trans (arrive.shrinks (le_refl _))
        rw [hinc] at hg
        exact hs.gSize.trans (Except.ok.inj hg).symm
      | filter hno hfull hg hf ghost trim =>
        rw [hinc] at hg
        exact (trim.shrinks.gSize.trans ghost.gSize).trans (Except.ok.inj hg).symm
      | refused hr => rw [hl] at hr; cases hr
    · obtain ⟨heff, hinv⟩ := hcase.effect hb.inv
      rw [Bool.eq_false_iff, Ne, hinv.wf.inCache_iff]
      rintro ⟨cb, hcb⟩
      have hnone : ¬s0.nucleus.Caches 1 cb := fun hx => habs 1 _ hx.1 hx.2
      cases heff with
      | hit _ hc0 => exact habs 0 _ hc0.1 hc0.2
      | new _ _ _ _ hs he =>
        rcases (hs.caches_iff he _ _).mp hcb with ⟨h1, _⟩ | ⟨_, h1⟩
        · exact absurd h1 (by decide)
        · exact hnone h1
      | replace _ _ hold _ _ hs he => exact habs _ _ hold.1 hold.2
      | pass _ _ hs =>
        apply hnone
        rw [CacheNucleus.Caches, ← hs]
        exact hcb

/-- No run of requests and completed migrations divides by zero exactly when a tenth of the
metadata size and of nine times it, in 32 bits, are not zero. -/
theorem larc_divisions {c m : UInt32} {s0 : LarcPolicy} (hinit : larcCreate c m = .ok s0) :
    (∀ s, (larcApi.system fun _ => requestCalls).Reachable s0 s → ∀ o, s.Divides o) ↔
      10 ≤ m.toNat ∧ 10 ≤ u32 (9 * m.toNat) := by
  have hb := larcCreate_bounded hinit
  constructor
  · intro hall
    have hm10 : 10 ≤ m.toNat := by
      by_contra hlow
      have hfresh := hinit
      rw [larcCreate_eq] at hfresh
      have hdiv := hall s0 (Lib.System.Reachable.refl _ _) 0
      obtain rfl := Except.ok.inj hfresh
      exact hdiv.increase rfl (Nat.div_eq_of_lt (by omega))
    refine ⟨hm10, ?_⟩
    by_contra hwrap
    obtain ⟨s, hs, hg, hmiss⟩ := larc_first_target hm10 (by omega) hinit
    exact (hall s hs 1).increase hmiss hg
  · intro hpos s hs o
    have hleast : 0 < leastTarget m.toNat := leastTarget_pos.mpr hpos
    have h0 : s0.Divisible m.toNat := by
      refine ⟨hb, ?_⟩
      rw [larcCreate_eq] at hinit
      obtain rfl := Except.ok.inj hinit
      exact min_le_left _ _
    have h := hs.invariant h0 fun ha hg hcall => ha.call hleast hg hcall
    exact h.divides hleast o

/-- Ten metadata entries are enough. -/
theorem larc_divisions_ten : ∃ s0, larcCreate 1 10 = .ok s0 ∧
    ((∀ s, (larcApi.system fun _ => requestCalls).Reachable s0 s → ∀ o, s.Divides o) ↔
      10 ≤ (10 : UInt32).toNat ∧ 10 ≤ u32 (9 * (10 : UInt32).toNat)) := by
  have hinit := larcCreate_eq 1 10
  exact ⟨_, hinit, larc_divisions hinit⟩

/-- With fewer the first request divides by zero. -/
theorem larc_divisions_first : ¬∀ (c m : UInt32) (s0 : LarcPolicy), 1 ≤ c.toNat → 1 ≤ m.toNat →
    larcCreate c m = .ok s0 → ∀ s, (larcApi.system fun _ => requestCalls).Reachable s0 s →
    ∀ o, s.Divides o := by
  intro hall
  have hinit := larcCreate_eq 1 1
  have hdiv := hall 1 1 _ (by decide) (by decide) hinit _ (Lib.System.Reachable.refl _ _) 5
  exact hdiv.increase rfl (by decide)

end Fomo
