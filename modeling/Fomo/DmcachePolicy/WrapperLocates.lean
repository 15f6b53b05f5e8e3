import Fomo.DmcachePolicy.BaseLocates
import Fomo.Algs.Prediction
import Fomo.Mstar.MstarRemap
import Fomo.Wrapper.PolicyRegistry

/-!
# FOMO and m* under dmcache_base

A cached block is one of the internal policy, and what a wrapper keeps of its own never stops
a request for it. The history and the ghosts are as they should be once the cache has a slot.
-/
namespace Fomo

variable {σ : Type} {P : Policy σ} {I : σ → Prop} {c : Nat} {o a b : Oblock} {cb : Cblock}

/-- What a wrapper relies on: asking for the next victim changes nothing and finds a cached
block in the cache, which has `c` slots. -/
structure Policy.Wrappable (P : Policy σ) (I : σ → Prop) (c : Nat) : Prop where
  locates : P.Locates I false
  answers : P.Answers I
  pos : ∀ {s o cb}, I s → (P.owner s).Caches o cb → 0 < c
  same : ∀ {s s' o op v}, I s → P.nextVictim s o = .ok (s', op, v) → s' = s
  hit : ∀ {s o}, I s → (P.owner s).Cached o →
    ∃ op v, P.nextVictim s o = .ok (s, op, v) ∧ op ≠ .fail

theorem lru_wrappable (c : Nat) : lruApi.Wrappable (LruPolicy.Sized c) c where
  locates := lru_locates c
  answers := lru_answers c
  pos := by
    intro s o cb h hc
    have hlt := h.inv.wf.lt_of_allocated hc.1
    rw [h.cacheEntries] at hlt
    exact Nat.zero_lt_of_lt hlt
  same := by
    intro s s' o op v _ hv
    obtain ⟨op', v', hv'⟩ := lruNextVictimApi_state s o
    exact (Prod.mk.inj (Except.ok.inj (hv.symm.trans hv'))).1
  hit := by
    intro s o h hc
    obtain ⟨s', res, hmap⟩ := lru_sound.map_cached false {} h.inv hc
    have hop := (lru_sound.map h.inv hmap).1.hit_iff.mpr hc
    obtain ⟨t, v, hv, _⟩ := lru_foretells h.inv o false {} s' res hmap
    obtain ⟨op', v', hv'⟩ := lruNextVictimApi_state s o
    obtain rfl := (Prod.mk.inj (Except.ok.inj (hv.symm.trans hv'))).1
    exact ⟨_, _, hv, by rw [hop]; decide⟩

/-! ## FOMO -/

namespace FomoPolicy

/-- FOMO over an internal policy in a state of `I` with `c` slots. -/
structure Located (I : σ → Prop) (c : Nat) (f : FomoPolicy σ) : Prop where
  internal : I f.internal
  history : 0 < c → f.Inv

variable {f f' : FomoPolicy σ} {w : Option CacheNucleusResult}

/-- A call that returns keeps the history. -/
theorem Located.call {call : Call} (h : f.Located I c) (hi : I f'.internal)
    (hcall : (fomoApi P).call f call = .ok (f', w)) : f'.Located I c :=
  ⟨hi, fun hc => (fomoCall_inv (h.history hc) hcall).1⟩

/-- What FOMO passes on. -/
theorem passed {call : Call} (hc : ∀ o w result, call ≠ .map o w result)
    (hcall : (fomoApi P).call f call = .ok (f', none)) {x : Exec σ}
    (heq : P.call f.internal call = x.map fun i => (i, none)) : x = .ok f'.internal := by
  obtain ⟨y, hy⟩ := fomoCall_passed hc hcall
  rw [heq] at hy
  obtain ⟨i, hi, hx⟩ := map_eq_ok.mp hy
  rw [hi, (Prod.mk.inj hx).1]

theorem Located.map (hP : P.Wrappable I c) (h : f.Located I c) {result res : CacheNucleusResult}
    (hmap : fomoMap P f o false result = .ok (f', res)) : f'.Located I c := by
  have hcall : (fomoApi P).call f (.map o false result) = .ok (f', some res) :=
    Policy.call_map.mpr ⟨res, rfl, hmap⟩
  refine h.call ?_ hcall
  cases fomoMap_answered hmap with
  | filtered hf hst hi => exact hi ▸ h.internal
  | refused hf hv hst hres => exact hP.same h.internal hv ▸ h.internal
  | admitted hf hv hop hm hst =>
    exact hP.locates.map (hP.same h.internal hv ▸ h.internal) hm

/-- A request for a cached block is a hit of the internal policy. -/
theorem Located.hit (hP : P.Wrappable I c) (h : f.Located I c) (result : CacheNucleusResult)
    (hc : (P.owner f.internal).Caches o cb) : ∃ f' res,
      fomoMap P f o false result = .ok (f', res) ∧ res.op = .hit ∧ res.cblock = cb ∧
      (P.owner f'.internal).Cached o := by
  have hcase := fomoMap_case (P := P) (h.history (hP.pos h.internal hc)) o false result
  obtain ⟨op, v, hv, hop⟩ := hP.hit h.internal ⟨cb, hc⟩
  obtain ⟨i, res, hmap, hres, hcb, hcached⟩ :=
    hP.locates.hit hP.answers { result with op := .fail } h.internal hc
  generalize hx : fomoMap P f o false result = x at hcase
  cases hcase with
  | filtered hf hcm hi =>
    have hno := hf.1
    rw [cached, hP.locates.lookup_caches h.internal hc] at hno
    cases hno
  | refused hf hv' =>
    have hx := Prod.mk.inj (Except.ok.inj (hv.symm.trans hv'))
    exact absurd (Prod.mk.inj hx.2).1 hop
  | admitted hf hv' hop' hm hcm hi =>
    obtain ⟨rfl, _⟩ := Prod.mk.inj (Except.ok.inj (hv.symm.trans hv'))
    obtain ⟨rfl, rfl⟩ := Prod.mk.inj (Except.ok.inj (hmap.symm.trans hm))
    exact ⟨_, _, rfl, hres, hcb, hi ▸ hcached⟩
  | victimFault hf hv' => cases hv.symm.trans hv'
  | mapFault hf hv' hop' hm =>
    obtain ⟨rfl, _⟩ := Prod.mk.inj (Except.ok.inj (hv.symm.trans hv'))
    cases hmap.symm.trans hm

end FomoPolicy

open FomoPolicy in
theorem fomo_locates (hP : P.Wrappable I c) : (fomoApi P).Locates (Located I c) true where
  entryAt := fun f => hP.locates.entryAt f.internal
  owner_setTime := fun f time => hP.locates.owner_setTime f.internal time
  lookup := fun h => hP.locates.lookup h.internal
  infer := fun h hc => inferPoolCblock_of_empty (h.history (hP.pos h.internal hc)).cache_empty
  setTime := by
    intro f time h
    have hcall : (fomoApi P).call f (.setTime time) = .ok ((fomoApi P).setTime f time, none) := rfl
    exact h.call (hP.locates.setTime time h.internal) hcall
  marks := fun dirty wb h => ⟨hP.locates.marks dirty wb h.internal,
    fun hc => (h.history hc).congr rfl rfl rfl⟩
  map := fun h hmap => h.map hP hmap
  hits := by
    intro f f' o cb result res h hc hmap
    obtain ⟨f1, res1, hmap1, hhit⟩ := h.hit hP result hc
    obtain ⟨rfl, rfl⟩ := Prod.mk.inj (Except.ok.inj (hmap1.symm.trans hmap))
    exact hhit
  migrated := by
    intro f f' o h hrun
    have hcall : (fomoApi P).call f (.migrated o) = .ok (f', none) := map_eq_ok.mpr ⟨_, hrun, rfl⟩
    exact h.call (hP.locates.migrated h.internal (passed (by simp) hcall rfl)) hcall
  insert := by
    intro f f' o cb h hmay hrun
    have hcall : (fomoApi P).call f (.insert o cb) = .ok (f', none) :=
      map_eq_ok.mpr ⟨_, hrun, rfl⟩
    exact h.call (hP.locates.insert h.internal hmay (passed (by simp) hcall rfl)) hcall
  remove := by
    intro f f' o h hrun
    have hcall : (fomoApi P).call f (.remove o false) = .ok (f', none) :=
      map_eq_ok.mpr ⟨_, hrun, rfl⟩
    exact h.call (hP.locates.remove h.internal (passed (by simp) hcall rfl)) hcall
  force := by
    intro f f1 f2 a b h hrem hremap
    have hcall1 : (fomoApi P).call f (.remove b false) = .ok (f1, none) :=
      map_eq_ok.mpr ⟨_, hrem, rfl⟩
    have hcall2 : (fomoApi P).call f1 (.remap a b) = .ok (f2, none) :=
      map_eq_ok.mpr ⟨_, hremap, rfl⟩
    have hrem1 := passed (P := P) (by simp) hcall1 rfl
    have hremap1 := passed (P := P) (by simp) hcall2 rfl
    have h1 := h.call (hP.locates.remove h.internal hrem1) hcall1
    exact h1.call (hP.locates.force h.internal hrem1 hremap1) hcall2

open FomoPolicy in
theorem fomo_answers (hP : P.Wrappable I c) : (fomoApi P).Answers (Located I c) := by
  intro f o result h hcached
  obtain ⟨cb, hc⟩ := hcached
  obtain ⟨f', res, hmap, _⟩ := h.hit hP result hc
  exact ⟨f', res, hmap⟩

theorem fomoCreate_located {n : UInt32} {create : UInt32 → UInt32 → Exec σ} {f : FomoPolicy σ}
    (hI : ∀ s, create n n = .ok s → I s) (hinit : fomoCreate n n create = .ok f) :
    f.Located I n.toNat := by
  obtain ⟨i, hi, hinit⟩ := bind_eq_ok.mp hinit
  have heq : f.internal = i := by
    rw [fomoInit_eq] at hinit
    exact Except.ok.inj hinit ▸ rfl
  exact ⟨heq ▸ hI i hi, fun hc => (fomoInit_spec hc hinit).1⟩

/-! ## m* -/

namespace MstarPolicy

variable {m m' : MstarPolicy σ} {w : Bool} {result res : CacheNucleusResult}

/-- m* over an internal policy in a state of `I` with `c` slots. -/
structure Located (I : σ → Prop) (c : Nat) (m : MstarPolicy σ) : Prop where
  internal : I m.internal
  steady : 0 < c → m.Steady c

theorem Located.map (hP : P.Wrappable I c) (h : m.Located I c)
    (hrun : mstarMap P m o false result = .ok (m', res)) : m'.Located I c := by
  refine ⟨?_, fun hc => (h.steady hc).map hc hrun⟩
  obtain ⟨⟨m1, hserved, hi⟩, _⟩ := mstarMap_ok hrun
  rw [hi]
  cases hserved with
  | passed hmap hwhy hlogic => exact hP.locates.map h.internal hmap
  | filtered hno hunknown hstate hres hk => exact hk.internal ▸ h.internal

/-- A request for a cached block is a hit of the internal policy. -/
theorem Located.hit (hP : P.Wrappable I c) (h : m.Located I c) (result : CacheNucleusResult)
    (hcb : (P.owner m.internal).Caches o cb) : ∃ m' res,
      mstarMap P m o false result = .ok (m', res) ∧ res.op = .hit ∧ res.cblock = cb ∧
      (P.owner m'.internal).Cached o := by
  have hc := hP.pos h.internal hcb
  have hs := h.steady hc
  have hl := hP.locates.lookup_caches h.internal hcb
  obtain ⟨i, res, hmap, hres, hloc, hcached⟩ :=
    hP.locates.hit hP.answers { result with op := .filter } h.internal hcb
  obtain ⟨m1, hserve, hi1⟩ : ∃ m1, mstarServe P m o false (P.cacheLookup m.internal o).isSome
      (hashLookup m.nucleus o).isSome { result with op := .filter } = .ok (m1, res) ∧
      m1.internal = i := by
    obtain ⟨m2, hdec, _⟩ := (hs.withInternal i).decrease hc
    have hk := keeps_decrease hdec
    rw [hl]
    simp only [mstarServe, Option.isSome_some, if_true, mstarHit, mstarMapInternal, hmap, ok_bind,
      hdec, pure_eq_ok]
    split
    · exact ⟨m2, rfl, hk.internal⟩
    · exact ⟨_, rfl, rfl⟩
  have h1 := hs.serve hc hserve
  obtain ⟨m3, hcontrol, h3⟩ := h1.lengthControl
  obtain ⟨logic, hupd, _⟩ := updateMstar_spec h3.sane hc
    (P.cacheLookup m.internal o).isSome (hashLookup m.nucleus o).isSome
  refine ⟨{ m3 with logic := logic }, res, ?_, hres, hloc, ?_⟩
  · simp only [mstarMap, hserve, ok_bind, hcontrol, hupd, pure_eq_ok]
  · show (P.owner m3.internal).Cached o
    rw [(keeps_lengthControl hcontrol).internal, hi1]
    exact hcached

end MstarPolicy

open MstarPolicy in
theorem mstar_locates (hP : P.Wrappable I c) : (mstarApi P).Locates (Located I c) true where
  entryAt := fun m => hP.locates.entryAt m.internal
  owner_setTime := fun m time => hP.locates.owner_setTime m.internal time
  lookup := fun h => hP.locates.lookup h.internal
  infer := fun h hc =>
    inferPoolCblock_of_empty (h.steady (hP.pos h.internal hc)).ghosts.cache_empty
  setTime := fun time h => ⟨hP.locates.setTime time h.internal, fun hc =>
    ⟨(h.steady hc).ghosts.withTime time, (h.steady hc).metaSize, (h.steady hc).ghostSize_le,
      (h.steady hc).sane⟩⟩
  marks := fun dirty wb h => ⟨hP.locates.marks dirty wb h.internal, fun hc =>
    (h.steady hc).withInternal _⟩
  map := fun h hmap => h.map hP hmap
  hits := by
    intro m m' o cb result res h hc hmap
    obtain ⟨m1, res1, hmap1, hhit⟩ := h.hit hP result hc
    obtain ⟨rfl, rfl⟩ := Prod.mk.inj (Except.ok.inj (hmap1.symm.trans hmap))
    exact hhit
  migrated := by
    intro m m' o h hrun
    obtain ⟨i, hi, hrun⟩ := bind_eq_ok.mp hrun
    rw [← Except.ok.inj hrun]
    exact ⟨hP.locates.migrated h.internal hi, fun hc => (h.steady hc).withInternal i⟩
  insert := by
    intro m m' o cb h hmay hrun
    obtain ⟨i, hi, hrun⟩ := bind_eq_ok.mp hrun
    rw [← Except.ok.inj hrun]
    exact ⟨hP.locates.insert h.internal hmay hi, fun hc => (h.steady hc).withInternal i⟩
  remove := fun h hrun => ⟨hP.locates.remove h.internal (mstarRemove_passed hrun),
    fun hc => ((h.steady hc).remove hrun).1⟩
  force := by
    intro m m1 m2 a b h hrem hremap
    refine ⟨hP.locates.force h.internal (mstarRemove_passed hrem) (mstarRemap_passed hremap),
      fun hc => ?_⟩
    obtain ⟨h1, habs⟩ := (h.steady hc).remove hrem
    exact h1.remap habs hremap

open MstarPolicy in
theorem mstar_answers (hP : P.Wrappable I c) : (mstarApi P).Answers (Located I c) := by
  intro m o result h hcached
  obtain ⟨cb, hc⟩ := hcached
  obtain ⟨m', res, hmap, _⟩ := h.hit hP result hc
  exact ⟨m', res, hmap⟩

open MstarPolicy in
theorem mstarCreate_located {n : UInt32} {create : UInt32 → UInt32 → Exec σ} {adaptive : Bool}
    {m : MstarPolicy σ} (hI : ∀ s, create n n = .ok s → I s)
    (hinit : mstarCreate n n create adaptive = .ok m) : m.Located I n.toNat := by
  obtain ⟨i, hi, hinit⟩ := bind_eq_ok.mp hinit
  obtain ⟨hsteady, hint, _⟩ := mstarInit_steady hinit
  exact ⟨hint ▸ hI i hi, fun _ => hsteady⟩

end Fomo
