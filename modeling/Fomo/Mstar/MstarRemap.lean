import Fomo.Mstar.MstarSteady
import Fomo.Algs.ServingContract

/-!
# Renaming a block of m* (`mstar_remap`)

`mstar_remap` renames the ghost of the current block without asking whether there is one, and
without asking whether the new block has a ghost of its own.
-/
namespace Fomo

variable {σ : Type} {P : Policy σ} {c : Nat} {o a b : Oblock} {r : EntryRef}

namespace MstarPolicy

section Ghosts

variable {m m' : MstarPolicy σ}

/-- The hash table, the queue and the pool of m* hold the same ghosts, no oblock twice. -/
structure GhostsAgree (m : MstarPolicy σ) : Prop where
  table_nodup : m.nucleus.ht.Nodup
  table : ∀ r, r ∈ m.nucleus.ht ↔ r ∈ m.mstarG
  queue_nodup : m.mstarG.Nodup
  pool : ∀ r, r ∈ m.mstarG ↔ (m.nucleus.entry r).allocated = true
  free : ∀ i, i ∈ (m.nucleus.pool .metadata).free ↔
    i < (m.nucleus.pool .metadata).nrEntries ∧ ⟨.metadata, i⟩ ∉ m.mstarG
  oblocks_nodup : (m.mstarG.map fun r => (m.nucleus.entry r).oblock).Nodup

theorem Steady.ghostsAgree (h : m.Steady c) : m.GhostsAgree where
  table_nodup := h.ghosts.wf.ht_nodup
  table := fun r => (h.ghosts.wf.mem_ht r).trans (h.ghosts.mem r).symm
  queue_nodup := h.ghosts.nodup
  pool := h.ghosts.mem
  free := fun i => by
    rw [h.ghosts.mem, Bool.not_eq_true]
    exact h.ghosts.wf.mem_free (r := ⟨.metadata, i⟩)
  oblocks_nodup := h.ghosts.oblocks_nodup

/-- m* renames its ghost, then the block of the internal policy. -/
theorem mstarRemap_eq : mstarRemap P m a b = (defaultRemap m.nucleus a b >>= fun cn =>
    P.remap m.internal a b >>= fun i => .ok { m with nucleus := cn, internal := i }) := by
  unfold mstarRemap defaultRemap
  cases deref (hashLookup m.nucleus a) with
  | error e => rfl
  | ok e =>
    simp only [ok_bind]
    cases hashRemove m.nucleus e with
    | error e => rfl
    | ok cn => rfl

/-- A renaming that returned gave a ghost another name. -/
theorem Steady.remap (h : m.Steady c) (habs : m.nucleus.Absent b)
    (hrun : mstarRemap P m a b = .ok m') : m'.Steady c := by
  rw [mstarRemap_eq] at hrun
  obtain ⟨cn, hcn, hrun⟩ := bind_eq_ok.mp hrun
  obtain ⟨i, _, hrun⟩ := bind_eq_ok.mp hrun
  obtain ⟨r, _, hrw⟩ := h.ghosts.wf.remapped habs hcn
  rw [← Except.ok.inj hrun]
  exact ⟨h.ghosts.renamed hrw, hrw.metaSize.trans h.metaSize, h.ghostSize_le, h.sane⟩

theorem mstarRemap_passed (hrun : mstarRemap P m a b = .ok m') :
    P.remap m.internal a b = .ok m'.internal := by
  rw [mstarRemap_eq] at hrun
  obtain ⟨cn, _, hrun⟩ := bind_eq_ok.mp hrun
  obtain ⟨i, hi, hrun⟩ := bind_eq_ok.mp hrun
  exact Except.ok.inj hrun ▸ hi

/-- Without a ghost of the current block the lookup returns `NULL`. -/
theorem mstarRemap_unknown (hl : hashLookup m.nucleus a = none) :
    mstarRemap P m a b = .error .nullPointer := by
  simp [mstarRemap, hl, deref]

/-- With ghosts of both blocks there are two of the new one afterwards. -/
theorem Steady.remap_twice (h : m.Steady c) {ra rb : EntryRef} (hne : a ≠ b)
    (ha : hashLookup m.nucleus a = some ra) (hb : hashLookup m.nucleus b = some rb)
    (hrun : mstarRemap P m a b = .ok m') : ¬m'.GhostsAgree := by
  obtain ⟨haa, hoa⟩ := h.ghosts.wf.hashLookup_eq_some.mp ha
  obtain ⟨_, hob⟩ := h.ghosts.wf.hashLookup_eq_some.mp hb
  have hne' : rb ≠ ra := fun hx => hne (hoa.symm.trans (hx ▸ hob))
  have hmem := (h.ghosts.wf.mem_ht ra).mpr haa
  simp only [mstarRemap, ha, deref_some, ok_bind, hashRemove, if_pos hmem] at hrun
  obtain ⟨i, _, hrun⟩ := bind_eq_ok.mp hrun
  rw [← Except.ok.inj hrun]
  intro hx
  have hinj := List.inj_on_of_nodup_map hx.oblocks_nodup (h.ghosts.lookup_mem hb)
    (h.ghosts.lookup_mem ha)
  refine hne' (hinj ?_)
  show ((CacheNucleus.setEntry _ _ _).entry rb).oblock =
    ((CacheNucleus.setEntry _ _ _).entry ra).oblock
  rw [CacheNucleus.entry_setEntry, Function.update_of_ne hne', Function.update_self]
  exact hob

end Ghosts

/-! ## Over LRU -/

section Lru

variable {m m' : MstarPolicy LruPolicy} {e : EntryRef}

/-- What is expected of a renaming: the block stays where it was, under its new name, and the
ghosts agree. -/
structure Remapped (m : MstarPolicy LruPolicy) (a b : Oblock) (m' : MstarPolicy LruPolicy) :
    Prop where
  cached : (mstarApi lruApi).cacheLookup m' b = (mstarApi lruApi).cacheLookup m a
  gone : (mstarApi lruApi).cacheLookup m' a = none
  ghosts : m'.GhostsAgree

/-- The renaming completes, and does what is expected. -/
def RemapSound (m : MstarPolicy LruPolicy) (a b : Oblock) : Prop :=
  ∃ m', mstarRemap lruApi m a b = .ok m' ∧ Remapped m a b m'

/-- `a` has a ghost and `b` has none. -/
def GhostOnly (m : MstarPolicy LruPolicy) (a b : Oblock) : Prop :=
  (hashLookup m.nucleus a).isSome = true ∧ hashLookup m.nucleus b = none

/-- A caller asks to rename a cached block to one that is not. -/
structure MayRemap (m : MstarPolicy LruPolicy) (a b : Oblock) : Prop where
  current : ((mstarApi lruApi).cacheLookup m a).isSome = true
  new : (mstarApi lruApi).cacheLookup m b = none

/-- The calls of a caller that renames where m* has the one ghost it needs. -/
def remapCalls (m : MstarPolicy LruPolicy) : Call → Prop
  | .remap a b => MayRemap m a b ∧ GhostOnly m a b
  | .setTime _ => True
  | call => servingCalls m.internal.nucleus call

/-- The ghosts and the internal policy are as they should be. -/
structure Tidy (c : Nat) (m : MstarPolicy LruPolicy) : Prop where
  steady : m.Steady c
  lru : m.internal.Inv

theorem Tidy.cacheLookup_iff (h : m.Tidy c) : (mstarApi lruApi).cacheLookup m o = some e ↔
    (m.internal.nucleus.entry e).allocated = true ∧ (m.internal.nucleus.entry e).oblock = o := by
  refine h.lru.wf.defaultCacheLookup_eq_some.trans ⟨fun hx => hx.2, fun hx => ⟨?_, hx⟩⟩
  exact h.lru.pool_eq hx.1

theorem Tidy.cacheLookup_none (h : m.Tidy c) :
    (mstarApi lruApi).cacheLookup m o = none ↔ m.internal.nucleus.Absent o :=
  lru_cacheLookup h.lru o

/-- With the one ghost it needs, the renaming does what is expected. -/
theorem Tidy.remap (h : m.Tidy c) (hmay : MayRemap m a b) (hg : GhostOnly m a b) :
    ∃ m', mstarRemap lruApi m a b = .ok m' ∧ m'.Tidy c ∧ Remapped m a b m' := by
  obtain ⟨e, he⟩ := Option.isSome_iff_exists.mp hmay.current
  obtain ⟨r, hr⟩ := Option.isSome_iff_exists.mp hg.1
  obtain ⟨hea, heo⟩ := h.cacheLookup_iff.mp he
  have habs := h.steady.ghosts.wf.hashLookup_eq_none.mp hg.2
  have hnew := h.cacheLookup_none.mp hmay.new
  obtain ⟨cn, hcn, _⟩ := h.steady.ghosts.wf.defaultRemap hr habs
  obtain ⟨i, hi, hs⟩ := lruRemap_spec h.lru (h.lru.wf.hashLookup_eq_some.mpr ⟨hea, heo⟩) hnew
  have hrun : mstarRemap lruApi m a b = .ok { m with nucleus := cn, internal := i } := by
    rw [mstarRemap_eq, hcn, ok_bind, hi, ok_bind]
  have hsteady := h.steady.remap habs hrun
  have hne : a ≠ b := fun hx => by
    rw [hx, hmay.new] at he
    cases he
  refine ⟨_, hrun, ⟨hsteady, hs.inv⟩, ?_, ?_, hsteady.ghostsAgree⟩
  · rw [he, Tidy.cacheLookup_iff ⟨hsteady, hs.inv⟩]
    show (i.nucleus.entry e).allocated = true ∧ (i.nucleus.entry e).oblock = b
    rw [hs.rewrites.entry_self]
    exact ⟨hea, rfl⟩
  · rw [Tidy.cacheLookup_none ⟨hsteady, hs.inv⟩]
    intro x hx hxo
    have hx : (i.nucleus.entry x).allocated = true := hx
    have hxo : (i.nucleus.entry x).oblock = a := hxo
    by_cases hxe : x = e
    · rw [hxe, hs.rewrites.entry_self] at hxo
      exact hne hxo.symm
    · rw [hs.rewrites.entry_of_ne hxe] at hx hxo
      exact hxe (h.lru.wf.inj x e hx hea (hxo.trans heo.symm))

/-- Only the one ghost makes it do so. -/
theorem Tidy.sound_iff (h : m.Tidy c) (hmay : MayRemap m a b) :
    RemapSound m a b ↔ GhostOnly m a b := by
  constructor
  · intro hsound
    obtain ⟨m', hrun, hto⟩ := hsound
    have hne : a ≠ b := fun hx => by
      have hcur := hmay.current
      rw [hx, hmay.new] at hcur
      cases hcur
    cases ha : hashLookup m.nucleus a with
    | none =>
      rw [mstarRemap_unknown ha] at hrun
      cases hrun
    | some ra =>
      cases hb : hashLookup m.nucleus b with
      | none => exact ⟨by rw [ha]; rfl, hb⟩
      | some rb => exact absurd hto.ghosts (h.steady.remap_twice hne ha hb hrun)
  · intro hg
    obtain ⟨m', hrun, _, hto⟩ := h.remap hmay hg
    exact ⟨m', hrun, hto⟩

/-! ## Runs -/

theorem Tidy.serving (h : m.Tidy c) (call : Call) {x : Option CacheNucleusResult} {i : LruPolicy}
    (hg : servingCalls m.internal.nucleus call) (hcall : lruApi.call m.internal call = .ok (i, x)) :
    i.Inv := (lru_serves.call h.lru hg hcall).1

/-- A call that returns keeps the ghosts and the internal policy as they should be. -/
theorem Tidy.call (h : m.Tidy c) (hc : 0 < c) {call : Call} {x : Option CacheNucleusResult}
    (hg : remapCalls m call) (hcall : (mstarApi lruApi).call m call = .ok (m', x)) :
    m'.Tidy c := by
  cases call with
  | map o w result =>
    obtain ⟨res, _, hmap⟩ := Policy.call_map.mp hcall
    have hmap : mstarMap lruApi m o w result = .ok (m', res) := hmap
    exact ⟨h.steady.map hc hmap, (Parts.map ⟨h.lru, h.steady.sane⟩ hc hmap).lru⟩
  | migrated o =>
    obtain ⟨m1, hrun, heq⟩ := map_eq_ok.mp hcall
    obtain ⟨rfl, _⟩ := Prod.mk.inj heq
    obtain ⟨i, hi, hrun⟩ := bind_eq_ok.mp hrun
    rw [← Except.ok.inj hrun]
    exact ⟨h.steady.withInternal i, h.serving (.migrated o) hg (map_eq_ok.mpr ⟨i, hi, rfl⟩)⟩
  | insert o cb =>
    obtain ⟨m1, hrun, heq⟩ := map_eq_ok.mp hcall
    obtain ⟨rfl, _⟩ := Prod.mk.inj heq
    obtain ⟨i, hi, hrun⟩ := bind_eq_ok.mp hrun
    rw [← Except.ok.inj hrun]
    exact ⟨h.steady.withInternal i, h.serving (.insert o cb) hg (map_eq_ok.mpr ⟨i, hi, rfl⟩)⟩
  | remove o keep =>
    obtain ⟨m1, hrun, heq⟩ := map_eq_ok.mp hcall
    obtain ⟨rfl, _⟩ := Prod.mk.inj heq
    cases keep with
    | false =>
      exact ⟨(h.steady.remove hrun).1,
        h.serving (.remove o false) hg (map_eq_ok.mpr ⟨_, mstarRemove_passed hrun, rfl⟩)⟩
    | true =>
      have hrun : (lruApi.remove m.internal o true >>= fun i => .ok { m with internal := i }) =
          .ok m1 := by
        rw [← hrun]
        show _ = mstarRemove lruApi m o true
        unfold mstarRemove
        cases hashLookup m.nucleus o with
        | none => rfl
        | some r => rfl
      obtain ⟨i, hi, hrun⟩ := bind_eq_ok.mp hrun
      rw [← Except.ok.inj hrun]
      exact ⟨h.steady.withInternal i, h.serving (.remove o true) hg (map_eq_ok.mpr ⟨i, hi, rfl⟩)⟩
  | remap a b =>
    obtain ⟨m1, hrun, heq⟩ := map_eq_ok.mp hcall
    obtain ⟨rfl, _⟩ := Prod.mk.inj heq
    obtain ⟨m2, hrun2, h2, _⟩ := h.remap hg.1 hg.2
    obtain rfl := Except.ok.inj (hrun2.symm.trans hrun)
    exact h2
  | setTime time =>
    obtain ⟨rfl, _⟩ := Prod.mk.inj (Except.ok.inj hcall)
    exact ⟨⟨h.steady.ghosts.withTime time, h.steady.metaSize, h.steady.ghostSize_le,
      h.steady.sane⟩, lru_sound.setTime time h.lru⟩

end Lru

end MstarPolicy

open MstarPolicy in
/-- In every state that m* over LRU reaches, renamings made only where the one needed ghost is
among its calls, the renaming of a cached block to one that is not completes and keeps the cache
and the ghosts as expected exactly if the first has a ghost and the second has none. -/
theorem mstar_remap {c metaSize : UInt32} {adaptive : Bool} {m0 m : MstarPolicy LruPolicy}
    (hc : 10 ≤ c.toNat) (hinit : mstarCreate c metaSize lruCreate adaptive = .ok m0)
    (hs : ((mstarApi lruApi).system remapCalls).Reachable m0 m) (hmay : MayRemap m a b) :
    RemapSound m a b ↔ GhostOnly m a b := by
  obtain ⟨lru, hlru, hinit⟩ := bind_eq_ok.mp hinit
  obtain ⟨hsteady, hi, _⟩ := mstarInit_steady hinit
  have h : m.Tidy c.toNat := by
    apply hs.invariant (I := Tidy c.toNat) ⟨hsteady, hi ▸ (lruInit_spec hlru).1⟩
    intro m1 call m2 x h1 hg hcall
    exact h1.call (by omega) hg hcall
  exact h.sound_iff hmay

theorem mstarCreate_lru_eq (c metaSize : UInt32) (adaptive : Bool) :
    mstarCreate c metaSize lruCreate adaptive = .ok
      { nucleus := freshNucleus 0 c.toNat (MstarPolicy.mstarPools c), mstarG := []
        ghostSize := u32 (9 * c.toNat) / 10
        internal :=
          { nucleus := freshNucleus c.toNat 0 fun p => if p = .cache then c.toNat else 0
            lruQ := [] }
        logic := mstarLogicInit adaptive c.toNat } := by
  rw [mstarCreate, lruCreate, lruInit_eq, ok_bind, MstarPolicy.mstarInit_eq]

open MstarPolicy in
/-- The first block that comes into the cache has no ghost, and cannot be renamed. -/
theorem mstar_remap_null : ¬∀ (c metaSize : UInt32) (adaptive : Bool)
    (m0 m : MstarPolicy LruPolicy) (a b : Oblock), 10 ≤ c.toNat →
    mstarCreate c metaSize lruCreate adaptive = .ok m0 →
    ((mstarApi lruApi).system remapCalls).Reachable m0 m → MayRemap m a b → RemapSound m a b := by
  intro hall
  have hinit := mstarCreate_lru_eq 10 10 true
  generalize hm0 : MstarPolicy.mk _ _ _ _ _ = m0 at hinit
  obtain ⟨m, x, hmap, hcur, hnew, hghost⟩ : ∃ m x,
      (mstarApi lruApi).call m0 (.map 5 false {}) = .ok (m, x) ∧
      ((mstarApi lruApi).cacheLookup m 5).isSome = true ∧
      (mstarApi lruApi).cacheLookup m 6 = none ∧ hashLookup m.nucleus 5 = none := by
    subst hm0
    exact ⟨_, _, rfl, rfl, rfl, rfl⟩
  have hreach : ((mstarApi lruApi).system remapCalls).Reachable m0 m :=
    (Lib.System.Reachable.refl _ m0).step (e := .map 5 false {}) trivial hmap
  obtain ⟨m', hrun, _⟩ := hall 10 10 true m0 m 5 6 (by decide) hinit hreach ⟨hcur, hnew⟩
  rw [mstarRemap_unknown hghost] at hrun
  cases hrun

/-- Ten more requests, of which the last one finds the cache full. -/
def mstarRefilling : List Call :=
  [.map 1 false {}, .map 2 false {}, .map 3 false {}, .map 4 false {}, .map 5 false {},
    .map 6 false {}, .map 7 false {}, .map 8 false {}, .map 9 false {}, .map 10 false {}]

open MstarPolicy in
/-- Ten slots, where a block that came into the full cache has left a ghost. -/
theorem mstar_remap_replaced : ∃ m0 m, mstarCreate 10 10 lruCreate true = .ok m0 ∧
    ((mstarApi lruApi).system remapCalls).Reachable m0 m ∧ RemapSound m 10 11 := by
  have hinit := mstarCreate_lru_eq 10 10 true
  generalize hm0 : MstarPolicy.mk _ _ _ _ _ = m0 at hinit
  obtain ⟨m1, x1, m2, x2, m, ws, hmap, hmay, hmig, hexec, hcur, hnew, hghost, hno⟩ :
      ∃ m1 x1 m2 x2 m ws, (mstarApi lruApi).call m0 (.map 0 false {}) = .ok (m1, x1) ∧
      m1.internal.nucleus.MayMigrate 0 ∧
      (mstarApi lruApi).call m1 (.migrated 0) = .ok (m2, x2) ∧
      ((mstarApi lruApi).system remapCalls).exec m2 mstarRefilling = .ok (m, ws) ∧
      ((mstarApi lruApi).cacheLookup m 10).isSome = true ∧
      (mstarApi lruApi).cacheLookup m 11 = none ∧ (hashLookup m.nucleus 10).isSome = true ∧
      hashLookup m.nucleus 11 = none := by
    subst hm0
    exact ⟨_, _, _, _, _, _, rfl, ⟨9, ⟨rfl, rfl⟩, rfl⟩, rfl, rfl, rfl, rfl, rfl, rfl⟩
  have hadm : ((mstarApi lruApi).system remapCalls).Admits m2 mstarRefilling := by
    apply Lib.System.admits_of_exec _ hexec
    intro e he s
    simp only [mstarRefilling, List.mem_cons, List.not_mem_nil, or_false] at he
    rcases he with rfl | rfl | rfl | rfl | rfl | rfl | rfl | rfl | rfl | rfl
    all_goals trivial
  obtain ⟨t, hfirst⟩ : ((mstarApi lruApi).system remapCalls).Reachable m0 m2 :=
    ((Lib.System.Reachable.refl _ m0).step (e := .map 0 false {}) trivial hmap).step
      (e := .migrated 0) hmay hmig
  have hreach := (hfirst.append (.of_exec hadm hexec)).reachable
  exact ⟨m0, m, hinit, hreach,
    (mstar_remap (by decide) hinit hreach ⟨hcur, hnew⟩).mpr ⟨hghost, hno⟩⟩

end Fomo
