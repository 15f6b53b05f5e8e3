import Fomo.Algs.ArcBounds
import Fomo.Include.Contract

/-!
# The structural invariant of ARC

The bounds hold in every state that requests, completed migrations, preloads and
renamings reach, and no such call ends in a fault.
-/
namespace Fomo

/-- The calls a caller may make while the policy serves requests: completions for blocks
that migrate, preloads of free slots, renamings of known blocks. -/
def arcCalls (arc : ArcPolicy) : Call → Prop
  | .map _ _ _ => True
  | .migrated o => arc.nucleus.MayMigrate o
  | .insert o cb => arc.nucleus.MayInsert o cb
  | .remap a b => (hashLookup arc.nucleus a).isSome ∧ arc.nucleus.Absent b
  | _ => False

open ArcPolicy

variable {s : ArcPolicy}

/-! ## Initialisation -/

def arcPools (c m : UInt32) : PoolId → Nat
  | .cache => c.toNat
  | .metadata => m.toNat

theorem arcPools_lt (c m : UInt32) (p : PoolId) : arcPools c m p < 2 ^ 32 := by
  cases p
  · exact c.toNat_lt
  · exact m.toNat_lt

theorem arcCreate_eq (c m : UInt32) : arcCreate c m = .ok
    { nucleus := freshNucleus c.toNat m.toNat (arcPools c m), arcQ := fun _ => [], p := 0
      length := fun _ => 0, loc := fun _ => .t1 } := by
  rw [arcCreate, arcInit, policyInit_eq (n := arcPools c m) ?_ (arcPools_lt c m)]
  · rfl
  · intro p
    cases p <;> rfl

theorem arcCreate_inv {c m : UInt32} (h : arcCreate c m = .ok s) :
    s.Inv ∧ s.nucleus = freshNucleus c.toNat m.toNat (arcPools c m) := by
  rw [arcCreate_eq] at h
  obtain rfl := Except.ok.inj h
  have hfree : ∀ r, ((freshNucleus c.toNat m.toNat (arcPools c m)).entry r).allocated = false := by
    intro r
    rfl
  refine ⟨⟨freshNucleus_wf (arcPools_lt c m), ⟨fun _ => List.nodup_nil, fun _ r => ?_⟩,
    fun r hr => ?_, fun r _ => rfl, fun list => ?_⟩, rfl⟩
  · simp [hfree]
  · simp [hfree] at hr
  · symm
    simp [members, Lib.slots, hfree]

theorem arcCreate_bounded {c m : UInt32} (h : arcCreate c m = .ok s) :
    s.Bounded c.toNat m.toNat := by
  obtain ⟨hinv, hn⟩ := arcCreate_inv h
  rw [arcCreate_eq] at h
  obtain rfl := Except.ok.inj h
  exact ⟨hinv, rfl, rfl, rfl, Nat.zero_le _, Nat.zero_le _, Nat.zero_le _, fun hx => by simp at hx⟩

/-! ## Runs -/

/-- Every admitted call answers and keeps the bounds. -/
theorem ArcPolicy.Bounded.call {c m : Nat} (h : s.Bounded c m) (hc : c < 2 ^ 31)
    (hcm : c ≤ m) {call : Call} (hg : arcCalls s call) :
    ∃ s' res, arcApi.call s call = .ok (s', res) ∧ s'.Bounded c m := by
  cases call with
  | map o w result =>
    have hcase := arcMapApi_case h.inv o w result
    generalize hx : arcMapApi s o w result = x at hcase
    cases hcase with
    | @hit r s' hl hp hs =>
      have ha := (h.inv.wf.hashLookup_eq_some.mp hl).1
      exact ⟨s', _, map_eq_ok.mpr ⟨_, hx, rfl⟩, h.hit ha hp hs ha⟩
    | @miss at' s' cb res hst hpl hne hres hmiss =>
      refine ⟨s', _, map_eq_ok.mpr ⟨_, hx, rfl⟩, ?_⟩
      have hafter : s.After s' o at' := fun l hl => hmiss.length h.inv hne hl
      obtain ⟨h1, h2, h3⟩ := h.after hc hst hafter hpl.currentLoc
      have hsz := hmiss.sizes
      exact ⟨hmiss.inv, hsz.cacheSize.trans h.cacheSize, (hsz.nrEntries _).trans h.cacheEntries,
        (hsz.nrEntries _).trans h.metaEntries, h1, h2, hsz.p.symm ▸ h.target hst, h3⟩
    | refused hst hpl hce hq => exact ⟨s, _, map_eq_ok.mpr ⟨_, hx, rfl⟩, h⟩
    | stuck hst hpl hstuck => exact absurd hstuck (h.not_stuck hc hcm hst hpl)
  | migrated o =>
    obtain ⟨cb, hcache, hm⟩ := hg
    have hl := h.inv.wf.caches_iff.mp hcache
    obtain ⟨s', hrun, hs⟩ := arcMigratedApi_spec h.inv hl rfl hm
    exact ⟨s', none, map_eq_ok.mpr ⟨_, hrun, rfl⟩, h.same hcache.1 hs hcache.1⟩
  | insert o cb =>
    obtain ⟨habs, hcb, hfree⟩ := hg
    obtain ⟨s', hrun, hs⟩ := arcInsertApi_spec h.inv hcb hfree habs
    exact ⟨s', none, map_eq_ok.mpr ⟨_, hrun, rfl⟩, h.insert hfree rfl hcb rfl hs⟩
  | remap a b =>
    obtain ⟨hsome, habs⟩ := hg
    obtain ⟨r, hl⟩ := Option.isSome_iff_exists.mp hsome
    have ha := (h.inv.wf.hashLookup_eq_some.mp hl).1
    obtain ⟨s', hrun, hs⟩ := arcRemap_spec h.inv hl habs
    exact ⟨s', none, map_eq_ok.mpr ⟨_, hrun, rfl⟩, h.same ha hs ha⟩
  | remove o keep => exact hg.elim
  | setTime t => exact hg.elim

theorem ArcPolicy.Bounded.of_reachable {c m : UInt32} {s0 : ArcPolicy}
    (hc : c.toNat < 2 ^ 31) (hcm : c.toNat ≤ m.toNat) (hinit : arcCreate c m = .ok s0)
    (hs : (arcApi.system arcCalls).Reachable s0 s) : s.Bounded c.toNat m.toNat := by
  apply hs.invariant (arcCreate_bounded hinit)
  intro a call b w ha hg hcall
  obtain ⟨b', w', hcall', hb⟩ := ha.call hc hcm hg
  obtain ⟨rfl, rfl⟩ := Prod.mk.inj (Except.ok.inj (hcall.symm.trans hcall'))
  exact hb

/-- The structural invariant, over every interleaving of the calls. -/
theorem arc_structure {c m : UInt32} {s0 : ArcPolicy} (_ : 1 ≤ c.toNat)
    (hc : 4 * c.toNat < 2 ^ 32) (hcm : c.toNat ≤ m.toNat) (hinit : arcCreate c m = .ok s0)
    (hs : (arcApi.system arcCalls).Reachable s0 s) :
    s.length .t1 + s.length .b1 ≤ c.toNat ∧
    s.length .t1 + s.length .t2 + s.length .b1 + s.length .b2 ≤ 2 * c.toNat ∧
    s.p ≤ c.toNat ∧
    s.length .t1 + s.length .t2 = (s.nucleus.pool .cache).nrAllocated ∧
    s.length .b1 + s.length .b2 = (s.nucleus.pool .metadata).nrAllocated ∧
    (s.nucleus.pool .metadata).nrAllocated ≤ c.toNat ∧
    ((∃ r : EntryRef, r.pool = .metadata ∧ (s.nucleus.entry r).allocated = true) →
      cacheIsFull s.nucleus = true) ∧
    (∀ list, s.length list = queueLength (s.arcQ list) + s.migratingIn list) ∧
    (∀ r r', (s.nucleus.entry r).allocated = true → (s.nucleus.entry r').allocated = true →
      (s.nucleus.entry r).oblock = (s.nucleus.entry r').oblock → r = r') ∧
    ∀ call, arcCalls s call → ∃ s' res, arcApi.call s call = .ok (s', res) := by
  have hc : c.toNat < 2 ^ 31 := by omega
  have h := Bounded.of_reachable hc hcm hinit hs
  have hmeta := h.inv.length_meta
  have htot := h.total
  have hgh := h.ghosts
  refine ⟨h.l1, by omega, h.p, h.inv.length_cache, hmeta, by omega, ?_, h.inv.length_eq,
    h.inv.wf.inj, ?_⟩
  · rintro ⟨r, hp, ha⟩
    have hpos := h.inv.length_pos ha
    have hpool := (h.inv.home r ha).2
    have hghost : 0 < s.length .b1 + s.length .b2 := by
      rw [hp] at hpool
      cases hx : s.loc r <;> rw [hx] at hpos hpool <;> first | omega | cases hpool
    have := h.cached_eq.mpr (hgh hghost)
    simp [cacheIsFull, epoolEmpty, this]
  · intro call hg
    obtain ⟨s', res, hcall, _⟩ := h.call hc hcm hg
    exact ⟨s', res, hcall⟩

/-- Two blocks come in, one of them settles and is renamed. -/
theorem arc_structure_renamed : ∃ s0 s, arcCreate 2 3 = .ok s0 ∧
    (arcApi.system arcCalls).Reachable s0 s ∧ s.p ≤ 2 := by
  have hinit := arcCreate_eq 2 3
  generalize hs0 : ({ nucleus := _, arcQ := _, p := 0, length := _, loc := _ } : ArcPolicy) = s0
    at hinit
  have hadm : (arcApi.system arcCalls).Admits s0
      [.map 5 true {}, .migrated 5, .map 7 false {}] := by
    subst hs0
    exact And.intro trivial (And.intro (Exists.intro 1 (And.intro (And.intro rfl rfl) rfl))
      (And.intro trivial trivial))
  obtain ⟨s, ws, hexec, hl5, hl9⟩ : ∃ s ws, (arcApi.system arcCalls).exec s0
      [.map 5 true {}, .migrated 5, .map 7 false {}] = .ok (s, ws) ∧
      (hashLookup s.nucleus 5).isSome ∧ hashLookup s.nucleus 9 = none := by
    subst hs0
    exact ⟨_, _, rfl, rfl, rfl⟩
  have hrun := (Lib.System.Run.of_exec hadm hexec).reachable
  have h := Bounded.of_reachable (by decide) (by decide) hinit hrun
  have hg : arcCalls s (.remap 5 9) := ⟨hl5, h.inv.wf.hashLookup_eq_none.mp hl9⟩
  obtain ⟨s', res, hcall, _⟩ := h.call (by decide) (by decide) hg
  have hguard : (arcApi.system arcCalls).guard s (.remap 5 9) := hg
  have hrun' := hrun.step hguard hcall
  exact ⟨s0, s', hinit, hrun',
    (arc_structure (by decide) (by decide) (by decide) hinit hrun').2.2.1⟩

end Fomo
