import Fomo.DmcachePolicy.TargetView
import Fomo.DmcachePolicy.Locations

/-!
# What dm-cache knows of the registered policies

The policies of the registry report every move of a block, the wrappers by passing the answers of
their internal policy on. So dm-cache and the policy agree after every run of its calls.
-/
namespace Fomo

variable {σ : Type} {P : Policy σ} {I : σ → Prop} {cn cn' : CacheNucleus} {o a b : Oblock}
  {cb : Cblock} {r : EntryRef}

/-! ## The base policies -/

/-- Freeing the entry of a block takes its pair away, and no other. -/
theorem CacheNucleus.Wf.caches_freed (h : cn.Wf) {e : Entry} {free : List Nat}
    (hl : Fomo.hashLookup cn o = some r) (hrw : cn.Rewrites r e free cn')
    (he : e.allocated = false) (a : Oblock) (cb : Cblock) :
    cn'.Caches a cb ↔ a ≠ o ∧ cn.Caches a cb := by
  obtain ⟨ha, ho⟩ := h.hashLookup_eq_some.mp hl
  by_cases hr : (⟨.cache, cb⟩ : EntryRef) = r
  · refine iff_of_false (fun hc => ?_) fun hc => ?_
    · rw [Caches, hr, hrw.entry_self, he] at hc
      cases hc.1
    · rw [Caches, hr] at hc
      exact hc.1 (hc.2.2.symm.trans ho)
  · rw [Caches, hrw.entry_of_ne hr]
    refine (and_iff_right_of_imp fun hc => ?_).symm
    rintro rfl
    exact hr (h.inj _ _ hc.1 ha (hc.2.trans ho.symm))

/-- Renaming the entry of a block renames it in its pair. -/
theorem CacheNucleus.Wf.caches_renamed (h : cn.Wf) {free : List Nat}
    (hl : Fomo.hashLookup cn a = some r)
    (hrw : cn.Rewrites r { cn.entry r with oblock := b } free cn') (x : Oblock) (cb : Cblock) :
    cn'.Caches x cb ↔ (x = b ∧ cn.Caches a cb) ∨ (x ≠ a ∧ cn.Caches x cb) := by
  obtain ⟨ha, ho⟩ := h.hashLookup_eq_some.mp hl
  by_cases hr : (⟨.cache, cb⟩ : EntryRef) = r
  · have hold : cn.Caches a cb := by
      rw [Caches, hr]
      exact ⟨ha, ho⟩
    have hno : ¬(x ≠ a ∧ cn.Caches x cb) := fun hx => hx.1 (hx.2.2.symm.trans hold.2)
    rw [or_iff_left hno, and_iff_left hold, Caches, hr, hrw.entry_self, and_iff_right ha]
    exact eq_comm
  · have hno : ∀ {y}, cn.Caches y cb → y ≠ a := by
      intro y hc hy
      exact hr (h.inj _ _ hc.1 ha (hc.2.trans (hy.trans ho.symm)))
    rw [Caches, hrw.entry_of_ne hr]
    constructor
    · exact fun hc => Or.inr ⟨hno hc, hc⟩
    · rintro (⟨_, hc⟩ | ⟨_, hc⟩)
      · exact absurd rfl (hno hc)
      · exact hc

/-- A policy that removes and renames the entries of its own hash table. -/
structure Policy.Rewires (P : Policy σ) (I : σ → Prop) : Prop where
  owner : P.owner = P.nucleus
  setOwner : ∀ s cn, P.nucleus (P.setOwner s cn) = cn
  cblockLookup : ∀ s cb, P.cblockLookup s cb = defaultCblockLookup (P.nucleus s) cb
  residency : ∀ s, P.residency s = defaultResidency (P.nucleus s)
  migrates : ∀ {s s' o}, I s → P.migrated s o = .ok s' → (P.nucleus s).MayMigrate o
  insert : ∀ {s o cb}, I s → (P.nucleus s).MayInsert o cb → ∃ s' e free,
    P.insert s o cb = .ok s' ∧ (P.nucleus s).Rewrites ⟨.cache, cb⟩ e free (P.nucleus s') ∧
      e.Holds o false false
  remove : ∀ {s s' o}, I s → P.remove s o false = .ok s' → ∃ r e free,
    hashLookup (P.nucleus s) o = some r ∧ (P.nucleus s).Rewrites r e free (P.nucleus s') ∧
      e.allocated = false
  remap : ∀ {s s' a b}, I s → (P.nucleus s).Absent b → P.remap s a b = .ok s' → ∃ r free,
    hashLookup (P.nucleus s) a = some r ∧ (P.nucleus s).Rewrites r
      { (P.nucleus s).entry r with oblock := b } free (P.nucleus s')

theorem Policy.Rewires.reports (hr : P.Rewires I) (h : P.Serves I) (hloc : P.Locates I false) :
    P.Reports I false where
  locates := hloc
  owner_setOwner := fun s cn => by rw [hr.owner, hr.setOwner]
  wf := fun hi => by
    rw [hr.owner]
    exact h.wf hi
  cblockLookup := fun s cb => by rw [hr.owner, hr.cblockLookup]
  residency := fun s => by rw [hr.owner, hr.residency]
  map := fun hi hmap => by
    rw [hr.owner]
    exact Or.inr (h.map hi hmap).1
  migrated := by
    intro s s' o hi hrun a cb
    rw [hr.owner]
    obtain ⟨b, hc, hm⟩ := hr.migrates hi hrun
    obtain ⟨_, e, hs, he⟩ := h.migrated hi hc hm hrun
    rw [hs.caches_iff he]
    constructor
    · rintro (⟨rfl, rfl⟩ | ⟨_, hb⟩)
      · exact hc
      · exact hb
    · intro hb
      by_cases heq : cb = b
      · subst heq
        exact Or.inl ⟨hb.2.symm.trans hc.2, rfl⟩
      · exact Or.inr ⟨heq, hb⟩
  insert := by
    intro s o cb hi hmay
    rw [hr.owner] at hmay ⊢
    exact hr.insert hi hmay
  remove := by
    intro s s' o hi hrun
    rw [hr.owner]
    obtain ⟨r, e, free, hl, hrw, he⟩ := hr.remove hi hrun
    exact ⟨(h.wf hi).absent_of_freed hl hrw he, (h.wf hi).caches_freed hl hrw he⟩
  remap := by
    intro s s' a b hi habs hrun
    rw [hr.owner] at habs ⊢
    obtain ⟨r, free, hl, hrw⟩ := hr.remap hi habs hrun
    exact (h.wf hi).caches_renamed hl hrw

/-- What `default_remap` does to the hash table of a policy that does no more. -/
theorem CacheNucleus.Wf.remapped_free (h : cn.Wf) (habs : cn.Absent b)
    (hrun : Fomo.defaultRemap cn a b = .ok cn') : ∃ r free, Fomo.hashLookup cn a = some r ∧
      cn.Rewrites r { cn.entry r with oblock := b } free cn' := by
  obtain ⟨r, hl, hrw⟩ := h.remapped habs hrun
  exact ⟨r, _, hl, hrw⟩

theorem lru_reports (c : Nat) : lruApi.Reports (LruPolicy.Sized c) false := by
  refine Policy.Rewires.reports ⟨rfl, fun _ _ => rfl, fun _ _ => rfl, fun _ => rfl,
    fun h hrun => ?_, fun h hmay => ?_, fun h hrun => ?_, fun h habs hrun => ?_⟩
    (lru_serves_sized c) (lru_locates c)
  · obtain ⟨x, hmig, _⟩ := bind_eq_ok.mp hrun
    exact h.inv.wf.mayMigrate hmig
  · obtain ⟨s1, hrun, hs⟩ := lruInsertApi_spec h.inv hmay.2.1 hmay.2.2 hmay.1
    exact ⟨s1, _, _, hrun, hs.rewrites, rfl, rfl, h.inv.wf.not_migrating hmay.2.2, rfl⟩
  · rename_i s s' o
    have hrun : lruRemoveApi s o false = .ok s' := hrun
    cases hl : hashLookup s.nucleus o with
    | none =>
      rw [lruRemoveApi, hl] at hrun
      cases hrun
    | some r =>
      obtain ⟨s1, hrun1, hs⟩ := lruRemoveApi_spec h.inv hl false
      obtain rfl := Except.ok.inj (hrun1.symm.trans hrun)
      exact ⟨r, _, _, hl, hs.rewrites, rfl⟩
  · obtain ⟨cn, hcn, hrun⟩ := bind_eq_ok.mp hrun
    obtain ⟨r, free, hl, hrw⟩ := h.inv.wf.remapped_free habs hcn
    exact ⟨r, free, hl, Except.ok.inj hrun ▸ hrw⟩

theorem lfu_reports (lt : LfuTransaction) (c : Nat) :
    (lfuApi lt).Reports (LfuPolicy.Sized c) false := by
  refine Policy.Rewires.reports ⟨rfl, fun _ _ => rfl, fun _ _ => rfl, fun _ => rfl,
    fun h hrun => ?_, fun h hmay => ?_, fun h hrun => ?_, fun h habs hrun => ?_⟩
    (lfu_serves lt c) (lfu_locates lt c)
  · obtain ⟨x, hmig, _⟩ := bind_eq_ok.mp hrun
    exact h.inv.wf.mayMigrate hmig
  · obtain ⟨s1, hrun, hs⟩ := lfuInsertApi_spec h.inv hmay.2.1 hmay.2.2 hmay.1
    exact ⟨s1, _, _, hrun, hs.rewrites, rfl, rfl, h.inv.wf.not_migrating hmay.2.2, rfl⟩
  · obtain ⟨r, hl, _⟩ := bind_eq_ok.mp hrun
    have hl := deref_eq_ok.mp hl
    rcases lfuRemoveApi_spec h.inv hl false with ⟨herr, _⟩ | ⟨s1, hrun1, hs⟩
    · exact nomatch herr.symm.trans hrun
    · obtain rfl := Except.ok.inj (hrun1.symm.trans hrun)
      exact ⟨r, _, _, hl, hs.rewrites, rfl⟩
  · obtain ⟨cn, hcn, hrun⟩ := bind_eq_ok.mp hrun
    obtain ⟨r, free, hl, hrw⟩ := h.inv.wf.remapped_free habs hcn
    exact ⟨r, free, hl, Except.ok.inj hrun ▸ hrw⟩

theorem arc_reports (c : Nat) : arcApi.Reports (ArcPolicy.Sized c) false := by
  refine Policy.Rewires.reports ⟨rfl, fun _ _ => rfl, fun _ _ => rfl, fun _ => rfl,
    fun h hrun => ?_, fun h hmay => ?_, fun h hrun => ?_, fun h habs hrun => ?_⟩
    (arc_serves_sized c) (arc_locates c)
  · rename_i s s' o
    have hrun : arcMigratedApi s o = .ok s' := hrun
    cases hl : hashLookup s.nucleus o with
    | none =>
      rw [arcMigratedApi, hl] at hrun
      cases hrun
    | some r =>
      rw [arcMigratedApi, hl] at hrun
      obtain ⟨_, _, hrun⟩ := bind_eq_ok.mp hrun
      obtain ⟨x, hmig, _⟩ := bind_eq_ok.mp hrun
      exact h.inv.wf.mayMigrate (hl ▸ hmig)
  · obtain ⟨s1, hrun, hs⟩ := arcInsertApi_spec h.inv hmay.2.1 hmay.2.2 hmay.1
    exact ⟨s1, _, _, hrun, hs.rewrites, rfl, rfl, h.inv.wf.not_migrating hmay.2.2, rfl⟩
  · rename_i s s' o
    obtain ⟨r, hl, _⟩ := bind_eq_ok.mp hrun
    have hl := deref_eq_ok.mp hl
    obtain ⟨s1, hrun1, hs⟩ := arcRemoveEntry_spec h.inv (h.inv.wf.hashLookup_eq_some.mp hl).1
    have hrun' : arcApi.remove s o false = .ok s1 := by
      show arcRemoveApi s o false = _
      simp [arcRemoveApi, hl, hrun1]
    obtain rfl := Except.ok.inj (hrun'.symm.trans hrun)
    exact ⟨r, _, _, hl, hs.rewrites, rfl⟩
  · obtain ⟨cn, hcn, hrun⟩ := bind_eq_ok.mp hrun
    obtain ⟨r, free, hl, hrw⟩ := h.inv.wf.remapped_free habs hcn
    exact ⟨r, free, hl, Except.ok.inj hrun ▸ hrw⟩

theorem larc_reports (m : Nat) : larcApi.Reports (LarcPolicy.Aimed m) false := by
  refine Policy.Rewires.reports ⟨rfl, fun _ _ => rfl, fun _ _ => rfl, fun _ => rfl,
    fun h hrun => ?_, fun h hmay => ?_, fun h hrun => ?_, fun h habs hrun => ?_⟩
    (larc_serves_aimed m) (larc_locates m)
  · rename_i s s' o
    have hrun : larcMigratedApi s o = .ok s' := hrun
    cases hl : hashLookup s.nucleus o with
    | none =>
      rw [larcMigratedApi, hl] at hrun
      cases hrun
    | some r =>
      rw [larcMigratedApi, hl] at hrun
      obtain ⟨_, _, hrun⟩ := bind_eq_ok.mp hrun
      obtain ⟨x, hmig, _⟩ := bind_eq_ok.mp hrun
      exact h.inv.wf.mayMigrate (hl ▸ hmig)
  · obtain ⟨s1, hrun, hs⟩ := larcInsertApi_spec h.inv hmay.2.1 hmay.2.2 hmay.1
    exact ⟨s1, _, _, hrun, hs.rewrites, rfl, rfl, h.inv.wf.not_migrating hmay.2.2, rfl⟩
  · obtain ⟨r, hl, hrun⟩ := bind_eq_ok.mp hrun
    have hl := deref_eq_ok.mp hl
    obtain ⟨s1, hrun1, hs⟩ := larcRemoveEntry_spec h.inv (h.inv.wf.hashLookup_eq_some.mp hl).1
    obtain rfl := Except.ok.inj (hrun1.symm.trans hrun)
    exact ⟨r, _, _, hl, hs.rewrites, rfl⟩
  · obtain ⟨cn, hcn, hrun⟩ := bind_eq_ok.mp hrun
    obtain ⟨r, free, hl, hrw⟩ := h.inv.wf.remapped_free habs hcn
    exact ⟨r, free, hl, Except.ok.inj hrun ▸ hrw⟩

/-! ## FOMO -/

/-- A request that FOMO filters is answered so. -/
theorem fomoMap_filtered {f f' : FomoPolicy σ} {w : Bool} {result res : CacheNucleusResult}
    (hf : f.filters P o) (hmap : fomoMap P f o w result = .ok (f', res)) : res.op = .filter := by
  have hunf : fomoMap P f o w result = (do
      let x ← fomoTransactionIsLegal P f (fomoStaged P f o)
      if x.2 then fomoTransactionCommit P x.1 (fomoStaged P f o) { result with op := .fail }
      else return (x.1, { result with op := .fail })) := rfl
  have hfilter : (fomoStaged P f o).filter = true := by
    rw [fomoStaged_eq]
    exact decide_eq_true hf
  rw [hunf, fomoTransactionIsLegal_staged, if_pos hf, ok_bind, if_pos rfl] at hmap
  obtain ⟨f1, _, hmap⟩ := bind_eq_ok.mp hmap
  rw [if_pos hfilter] at hmap
  rw [← (Prod.mk.inj (Except.ok.inj hmap)).2]

section

variable {c : Nat}

open FomoPolicy in
/-- FOMO filters, or it passes the answer of its internal policy on. -/
theorem fomo_reports (hP : P.Wrappable I c) (h : P.Reports I false) :
    (fomoApi P).Reports (FomoPolicy.Located I c) true where
  locates := fomo_locates hP
  owner_setOwner := fun f cn => h.owner_setOwner f.internal cn
  wf := fun hf => h.wf hf.internal
  cblockLookup := fun f cb => h.cblockLookup f.internal cb
  residency := fun f => h.residency f.internal
  map := by
    intro f f' o result res hf hmap
    have hmap : fomoMap P f o false result = .ok (f', res) := hmap
    cases fomoMap_answered hmap with
    | filtered hfil hst hi =>
      refine Or.inl ⟨Or.inl (fomoMap_filtered hfil hmap), fun b => ?_⟩
      show (P.owner f'.internal).entry _ = _
      rw [hi]
      rfl
    | refused hfil hv hst hres =>
      refine Or.inl ⟨Or.inr (by rw [hres]), fun b => ?_⟩
      show (P.owner f'.internal).entry _ = _
      rw [hP.same hf.internal hv]
      rfl
    | admitted hfil hv hop hm hst =>
      rw [hP.same hf.internal hv] at hm
      exact h.map hf.internal hm
  migrated := by
    intro f f' o hf hrun
    have hcall : (fomoApi P).call f (.migrated o) = .ok (f', none) := map_eq_ok.mpr ⟨_, hrun, rfl⟩
    exact h.migrated hf.internal (passed (by simp) hcall rfl)
  insert := by
    intro f o cb hf hmay
    obtain ⟨i, e, free, hrun, hrw, he⟩ := h.insert hf.internal hmay
    exact ⟨{ f with internal := i }, e, free, bind_eq_ok.mpr ⟨i, hrun, rfl⟩, hrw, he⟩
  remove := by
    intro f f' o hf hrun
    have hcall : (fomoApi P).call f (.remove o false) = .ok (f', none) :=
      map_eq_ok.mpr ⟨_, hrun, rfl⟩
    exact h.remove hf.internal (passed (by simp) hcall rfl)
  remap := by
    intro f f' a b hf habs hrun
    have hcall : (fomoApi P).call f (.remap a b) = .ok (f', none) := map_eq_ok.mpr ⟨_, hrun, rfl⟩
    exact h.remap hf.internal habs (passed (by simp) hcall rfl)

/-! ## m* and mARC -/

open MstarPolicy in
theorem mstar_reports (hP : P.Wrappable I c) (h : P.Reports I false) :
    (mstarApi P).Reports (MstarPolicy.Located I c) true where
  locates := mstar_locates hP
  owner_setOwner := fun m cn => h.owner_setOwner m.internal cn
  wf := fun hm => h.wf hm.internal
  cblockLookup := fun m cb => h.cblockLookup m.internal cb
  residency := fun m => h.residency m.internal
  map := by
    intro m m' o result res hm hmap
    obtain ⟨⟨m1, hserved, hi⟩, _⟩ := mstarMap_ok hmap
    cases hserved with
    | passed hmap hwhy hlogic =>
      rw [← hi] at hmap
      exact h.map hm.internal hmap
    | filtered hno hunknown hstate hres hk =>
      refine Or.inl ⟨Or.inl (by rw [hres]), fun b => ?_⟩
      show (P.owner m'.internal).entry _ = _
      rw [hi, hk.internal]
      rfl
  migrated := by
    intro m m' o hm hrun
    obtain ⟨i, hi, hrun⟩ := bind_eq_ok.mp hrun
    rw [← Except.ok.inj hrun]
    exact h.migrated hm.internal hi
  insert := by
    intro m o cb hm hmay
    obtain ⟨i, e, free, hrun, hrw, he⟩ := h.insert hm.internal hmay
    exact ⟨{ m with internal := i }, e, free, bind_eq_ok.mpr ⟨i, hrun, rfl⟩, hrw, he⟩
  remove := fun hm hrun => h.remove hm.internal (mstarRemove_passed hrun)
  remap := fun hm habs hrun => h.remap hm.internal habs (mstarRemap_passed hrun)

theorem marc_reports (c : Nat) : marcApi.Reports (MarcPolicy.Located c) true where
  locates := marc_locates c
  owner_setOwner := fun _ _ => rfl
  wf := fun hs => hs.arc.inv.wf
  cblockLookup := fun _ _ => rfl
  residency := fun _ => rfl
  map := by
    intro s s' o result res hs hmap
    obtain ⟨mt, hset, ⟨_, rfl, hres⟩ | ⟨_, hcommit⟩⟩ := marcMapApi_ok hmap
    · exact Or.inl ⟨Or.inr (by rw [hres]), fun b => rfl⟩
    · obtain ⟨mt1, hj, hr⟩ := marcTransactionSet_ok hset
      have hu := hj.unrouted
      rcases marcTransactionCommit_aside hcommit with ⟨_, hop, hi, _⟩ | ⟨_, _, hmap⟩
      · refine Or.inl ⟨Or.inl hop, fun b => ?_⟩
        show s'.internal.nucleus.entry _ = _
        rw [hi]
        rfl
      · have hob := (hr.planned hu).oblock
        have hw : mt.write = false := by
          cases hr with
          | hit hc hg => exact hu.write
          | plain hroom => exact hu.write
          | ghost hc hfull hghost hg hadd => exact hu.write
          | add hc hfull hghost hg hfilter => exact hu.write
        rw [hob, hw] at hmap
        exact (arc_reports c).map hs.arc hmap
  migrated := by
    intro s s' o hs hrun
    obtain ⟨a, ha, hrun⟩ := bind_eq_ok.mp hrun
    rw [← Except.ok.inj hrun]
    exact (arc_reports c).migrated hs.arc ha
  insert := by
    intro s o cb hs hmay
    obtain ⟨a, e, free, hrun, hrw, he⟩ := (arc_reports c).insert hs.arc hmay
    exact ⟨{ s with internal := a }, e, free, bind_eq_ok.mpr ⟨a, hrun, rfl⟩, hrw, he⟩
  remove := by
    intro s s' o hs hrun
    obtain ⟨a, ha, hrun⟩ := bind_eq_ok.mp hrun
    rw [← Except.ok.inj hrun]
    exact (arc_reports c).remove hs.arc ha
  remap := by
    intro s s' a b hs habs hrun
    obtain ⟨i, hi, hrun⟩ := bind_eq_ok.mp hrun
    rw [← Except.ok.inj hrun]
    exact (arc_reports c).remap hs.arc habs hi

end

/-! ## All of them -/

/-- Each of the policies reports every move, from an empty cache on, and keeps its size. -/
theorem CoveredPolicy.reports (k : CoveredPolicy) (c : UInt32) : ∃ I : k.State → Prop,
    k.api.Reports I k.wraps ∧
      (∀ s, I s → ((k.api.owner s).pool .cache).nrEntries = c.toNat) ∧
      (∀ s, k.create c c = .ok s → I s ∧ ∀ o, (k.api.owner s).Absent o) ∧
      (k.Answering c → k.api.Answers I) := by
  have hlru : ∀ s, lruCreate c c = .ok s → s.Sized c.toNat ∧ ∀ o, s.nucleus.Absent o :=
    fun s hs => ⟨lruCreate_sized s hs, (lruInit_spec hs).2.2.2⟩
  have harc : ∀ s, arcCreate c c = .ok s → s.Sized c.toNat ∧ ∀ o, s.nucleus.Absent o := by
    intro s hs
    refine ⟨arcCreate_sized hs, ?_⟩
    obtain rfl := Except.ok.inj ((arcCreate_eq c c).symm.trans hs)
    exact freshNucleus_absent _ _ _
  cases k with
  | lru =>
    exact ⟨_, lru_reports c.toNat, fun s hs => hs.cacheEntries, hlru, fun _ => lru_answers c.toNat⟩
  | lfu lt =>
    refine ⟨_, lfu_reports lt c.toNat, fun s hs => hs.cacheEntries, fun s hs => ?_,
      fun hc => lfu_answers lt hc⟩
    obtain ⟨hinv, hsize, habs⟩ := lfuInit_spec hs
    exact ⟨⟨hinv, hsize⟩, habs⟩
  | arc =>
    exact ⟨_, arc_reports c.toNat, fun s hs => hs.cacheEntries, harc, fun _ => arc_answers c.toNat⟩
  | larc =>
    refine ⟨_, larc_reports c.toNat, fun s hs => hs.cacheEntries,
      fun s hs => ⟨larcCreate_aimed hs, ?_⟩, fun _ => larc_answers c.toNat⟩
    obtain rfl := Except.ok.inj ((larcCreate_eq c c).symm.trans hs)
    exact freshNucleus_absent _ _ _
  | marc =>
    refine ⟨_, marc_reports c.toNat, fun s hs => hs.arc.cacheEntries,
      fun s hs => ⟨marcCreate_located hs, ?_⟩, fun _ => marc_answers c.toNat⟩
    obtain ⟨arc, hcreate, hrun⟩ := bind_eq_ok.mp hs
    obtain ⟨_, hi⟩ := marcInit_ghosts hrun
    show ∀ o, s.internal.nucleus.Absent o
    rw [hi]
    exact (harc arc hcreate).2
  | fomoLru =>
    have hwrap := lru_wrappable c.toNat
    refine ⟨_, fomo_reports hwrap (lru_reports c.toNat), fun s hs => hs.internal.cacheEntries,
      fun s hs => ⟨fomoCreate_located lruCreate_sized hs, ?_⟩, fun _ => fomo_answers hwrap⟩
    obtain ⟨i, hi, hinit⟩ := bind_eq_ok.mp hs
    have heq : s.internal = i := by
      rw [fomoInit_eq] at hinit
      exact Except.ok.inj hinit ▸ rfl
    show ∀ o, s.internal.nucleus.Absent o
    rw [heq]
    exact (hlru i hi).2
  | mstarLru adaptive =>
    have hwrap := lru_wrappable c.toNat
    refine ⟨_, mstar_reports hwrap (lru_reports c.toNat), fun s hs => hs.internal.cacheEntries,
      fun s hs => ⟨mstarCreate_located lruCreate_sized hs, ?_⟩, fun _ => mstar_answers hwrap⟩
    obtain ⟨i, hi, hinit⟩ := bind_eq_ok.mp hs
    obtain ⟨_, heq, _⟩ := MstarPolicy.mstarInit_steady hinit
    show ∀ o, s.internal.nucleus.Absent o
    rw [heq]
    exact (hlru i hi).2

/-- dm-cache starts with an empty cache. -/
theorem CoveredPolicy.start (k : CoveredPolicy) {c : UInt32} {d0 : DmcacheBase k.State}
    (hinit : dmcacheBaseCreate k.api k.create c = .ok d0) : ∃ I : k.State → Prop,
    k.api.Reports I k.wraps ∧
      (∀ s, I s → ((k.api.owner s).pool .cache).nrEntries = c.toNat) ∧
      d0.Ready I ∧ (∀ o, (k.api.owner d0.policy).Absent o) ∧
      (k.Answering c → k.api.Answers I) := by
  obtain ⟨I, h, hsize, h0, hanswers⟩ := k.reports c
  obtain ⟨s, hs, hinit⟩ := bind_eq_ok.mp hinit
  obtain rfl := Except.ok.inj hinit
  obtain ⟨hi, habs⟩ := h0 s hs
  have hi0 : I (dmcacheBaseInit k.api s).policy :=
    h.locates.marks (fun r => ((k.api.owner s).entry r).dirty) _ hi
  refine ⟨I, h, hsize, ⟨rfl, hi0⟩, fun o => ?_, hanswers⟩
  rw [dmcacheBaseInit, h.owner_setOwner]
  exact habs o

/-- The table of an empty cache is empty. -/
theorem DmcacheBase.mapped_empty {d : DmcacheBase σ} (h : ∀ o, (P.owner d.policy).Absent o) :
    d.Mapped P fun _ => none :=
  Lib.Placement.Describes.empty fun o _ hc => (h o).not_caches hc

end Fomo
