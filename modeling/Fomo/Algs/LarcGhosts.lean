import Fomo.Algs.LarcBounds
import Fomo.Include.Contract

/-!
# The ghosts of LARC over a run

Under requests, completed migrations, removals of known blocks and preloads the ghost
target keeps its bounds, the ghost queue lists exactly the metadata entries, and there is
always room for one more.
-/
namespace Fomo

/-- The calls a caller may make, removals of cached blocks and of ghosts among them. -/
def larcCalls (larc : LarcPolicy) : Call → Prop
  | .map _ _ _ => True
  | .migrated o => larc.nucleus.MayMigrate o
  | .remove o _ => (hashLookup larc.nucleus o).isSome
  | .insert o cb => larc.nucleus.MayInsert o cb
  | .setTime _ => True
  | .remap _ _ => False

namespace LarcPolicy

variable {s s' : LarcPolicy} {m : Nat}

theorem Bounded.withTime (h : s.Bounded m) (time : Nat) : (larcApi.setTime s time).Bounded m where
  inv := ⟨⟨h.inv.wf.pools, h.inv.wf.start, h.inv.wf.ht_nodup, h.inv.wf.mem_ht, h.inv.wf.inj⟩,
    ⟨h.inv.queued.nodup, h.inv.queued.mem⟩, h.inv.settled⟩
  metaSize := h.metaSize
  metaEntries := h.metaEntries
  gSize_le := h.gSize_le
  le_gSize := h.le_gSize
  ghosts := h.ghosts

/-- A call other than a request answers and keeps the bounds. -/
theorem Bounded.settle (h : s.Bounded m) {call : Call} (hg : larcCalls s call)
    (hc : ∀ o w result, call ≠ .map o w result) :
    ∃ s' res, larcApi.call s call = .ok (s', res) ∧ s'.Bounded m := by
  cases call with
  | map o w result => exact absurd rfl (hc o w result)
  | migrated o =>
    obtain ⟨cb, hc, hmig⟩ := hg
    obtain ⟨s', hrun, hs⟩ := larcMigratedApi_spec h.inv (h.inv.wf.caches_iff.mp hc) rfl hmig
    exact ⟨s', none, map_eq_ok.mpr ⟨_, hrun, rfl⟩,
      h.step hs (Function.update_of_ne (by decide) _ _)⟩
  | remove o keep =>
    obtain ⟨r, hl⟩ := Option.isSome_iff_exists.mp hg
    have ha := (h.inv.wf.hashLookup_eq_some.mp hl).1
    obtain ⟨s', hrun, hs⟩ := larcRemoveEntry_spec h.inv ha
    have hrun' : larcRemoveApi s o keep = .ok s' := by
      rw [larcRemoveApi, hl, deref_some, ok_bind, hrun]
    exact ⟨s', none, map_eq_ok.mpr ⟨_, hrun', rfl⟩,
      h.shrinks (FreesAny.some ha hs).shrinks hs.inv h.gSize_le h.le_gSize⟩
  | insert o cb =>
    obtain ⟨habs, hcb, hfree⟩ := hg
    obtain ⟨s', hrun, hs⟩ := larcInsertApi_spec h.inv hcb hfree habs
    exact ⟨s', none, map_eq_ok.mpr ⟨_, hrun, rfl⟩,
      h.step hs (Function.update_of_ne (by decide) _ _)⟩
  | setTime time => exact ⟨_, none, rfl, h.withTime time⟩
  | remap a b => exact hg.elim

/-- Every admitted call answers and keeps the bounds. -/
theorem Bounded.call (h : s.Bounded m) (hm : 10 ≤ m) (hm9 : 9 * m < 2 ^ 32) {call : Call}
    (hg : larcCalls s call) :
    ∃ s' res, larcApi.call s call = .ok (s', res) ∧ s'.Bounded m := by
  by_cases hc : ∃ o w result, call = .map o w result
  · obtain ⟨o, w, result, rfl⟩ := hc
    have hcase := larcMapApi_case h.inv o w result
    generalize hx : larcMapApi s o w result = x at hcase
    cases x with
    | ok x => exact ⟨x.1, _, map_eq_ok.mpr ⟨_, hx, rfl⟩, h.map hm hcase⟩
    | error f =>
      cases hcase with
      | stuck hstuck =>
        rcases hstuck with ⟨_, hd⟩ | ⟨_, hi⟩ | hf
        · obtain ⟨g, hdec, _⟩ := h.decrease hm
          rw [hdec] at hd
          cases hd
        · obtain ⟨g, hinc⟩ := h.increase hm hm9
          rw [hinc] at hi
          cases hi
        · exact absurd hf (h.free_ne_nil hm)
  · exact h.settle hg fun o w result heq => hc ⟨o, w, result, heq⟩

/-- A call that answers keeps the bounds, whatever wraps around. -/
theorem Bounded.keep (h : s.Bounded m) (hm : 10 ≤ m) {call : Call}
    {x : Option CacheNucleusResult} (hg : larcCalls s call)
    (hcall : larcApi.call s call = .ok (s', x)) : s'.Bounded m := by
  by_cases hc : ∃ o w result, call = .map o w result
  · obtain ⟨o, w, result, rfl⟩ := hc
    obtain ⟨res, _, hmap⟩ := Policy.call_map.mp hcall
    have hcase := larcMapApi_case h.inv o w result
    rw [show larcMapApi s o w result = _ from hmap] at hcase
    exact h.map hm hcase
  · obtain ⟨s1, x1, hcall1, hb⟩ := h.settle hg fun o w result heq => hc ⟨o, w, result, heq⟩
    obtain ⟨rfl, _⟩ := Prod.mk.inj (Except.ok.inj (hcall.symm.trans hcall1))
    exact hb

theorem Bounded.of_reachable {c m : UInt32} {s0 : LarcPolicy} (hm : 10 ≤ m.toNat)
    (hinit : larcCreate c m = .ok s0) (hs : (larcApi.system larcCalls).Reachable s0 s) :
    s.Bounded m.toNat := by
  apply hs.invariant (larcCreate_bounded hinit)
  intro a call b w ha hg hcall
  exact ha.keep hm hg hcall

end LarcPolicy

open LarcPolicy

variable {s : LarcPolicy}

/-- The bounds on the ghosts of LARC, over every interleaving of the calls. -/
theorem larc_ghosts {c m : UInt32} {s0 : LarcPolicy} (hm : 10 ≤ m.toNat)
    (hm9 : 9 * m.toNat < 2 ^ 32) (hinit : larcCreate c m = .ok s0)
    (hs : (larcApi.system larcCalls).Reachable s0 s) :
    (m.toNat / 10 ≤ s.gSize ∧ s.gSize ≤ 9 * m.toNat / 10) ∧
    (0 < s.gSize ∧ s.gSize < s.nucleus.metaSize) ∧
    (∀ r, r ∈ s.larcG ↔ r.pool = .metadata ∧ (s.nucleus.entry r).allocated = true) ∧
    queueLength s.larcG ≤ 9 * m.toNat / 10 ∧
    (s.nucleus.pool .metadata).free ≠ [] ∧
    ∀ call, larcCalls s call → ∃ s' res, larcApi.call s call = .ok (s', res) := by
  have h := Bounded.of_reachable hm hinit hs
  have hlow := h.le_gSize hm9
  have hup := h.gSize_le
  refine ⟨⟨hlow, hup⟩, ⟨by omega, by rw [h.metaSize]; omega⟩, fun r => ?_, h.ghosts,
    h.free_ne_nil hm, fun call hg => ?_⟩
  · have hmem := h.inv.queued.mem .metadata r
    constructor
    · intro hr
      obtain ⟨ha, _, hp⟩ := hmem.mp hr
      exact ⟨hp, ha⟩
    · intro hr
      exact hmem.mpr ⟨hr.2, h.inv.settled r hr.1, hr.1⟩
  · obtain ⟨s', res, hcall, _⟩ := h.call hm hm9 hg
    exact ⟨s', res, hcall⟩

/-- A second block becomes a ghost of a full cache, and is removed again. -/
theorem larc_ghosts_removed : ∃ s0 s, larcCreate 1 10 = .ok s0 ∧
    (larcApi.system larcCalls).Reachable s0 s ∧ s.larcG = [] ∧ s.gSize ≤ 9 := by
  have hinit := larcCreate_eq 1 10
  generalize hs0 : ({ nucleus := _, larcQ := _, larcG := _, gSize := _ } : LarcPolicy) = s0
    at hinit
  have hadm : (larcApi.system larcCalls).Admits s0
      [.map 5 true {}, .migrated 5, .map 7 false {}, .remove 7 true] := by
    subst hs0
    exact And.intro trivial (And.intro (Exists.intro 0 (And.intro (And.intro rfl rfl) rfl))
      (And.intro trivial (And.intro rfl trivial)))
  obtain ⟨s, ws, hexec, hq⟩ : ∃ s ws, (larcApi.system larcCalls).exec s0
      [.map 5 true {}, .migrated 5, .map 7 false {}, .remove 7 true] = .ok (s, ws) ∧
      s.larcG = [] := by
    subst hs0
    exact ⟨_, _, rfl, rfl⟩
  have hrun := (Lib.System.Run.of_exec hadm hexec).reachable
  exact ⟨s0, s, hinit, hrun, hq,
    (larc_ghosts (by decide) (by decide) hinit hrun).1.2⟩

end Fomo
