import Fomo.Mstar.MstarFailure
import Fomo.Algs.Prediction

/-!
# Asking m* for the next victim

m* passes a request on when its block is cached or a ghost, when the state is UNSTABLE, and
while the cache has room. The question for the next victim forgets the room.
-/
namespace Fomo

namespace MstarPolicy

variable {σ : Type} {P : Policy σ}

/-- What decides the request of `o` before the cache is full. -/
def Asks (m : MstarPolicy LruPolicy) (o : Oblock) : Prop :=
  m.internal.nucleus.Cached o ∨ (hashLookup m.nucleus o).isSome ∨ m.logic.state = .unstable

/-- While the cache has room, serving a request leaves the ghosts alone. -/
theorem mstarServe_room {m m' : MstarPolicy σ} {o : Oblock} {w hit ghost : Bool}
    {result res : CacheNucleusResult} (hroom : P.cacheIsFull m.internal = false)
    (h : mstarServe P m o w hit ghost result = .ok (m', res)) : m'.mstarG = m.mstarG := by
  have hask : ∀ {m' res}, mstarMapInternal P m o w result = .ok (m', res) →
      m'.mstarG = m.mstarG := by
    intro m' res h
    obtain ⟨x, _, h⟩ := bind_eq_ok.mp h
    obtain ⟨rfl, _⟩ := Prod.mk.inj (Except.ok.inj h)
    rfl
  have hfull : ¬P.cacheIsFull m.internal = true := by simp [hroom]
  unfold mstarServe at h
  split at h
  · obtain ⟨x, hx, h⟩ := bind_eq_ok.mp h
    have hx := hask hx
    dsimp only at h
    split at h
    · obtain ⟨m2, hdec, h⟩ := bind_eq_ok.mp h
      obtain ⟨rfl, _⟩ := Prod.mk.inj (Except.ok.inj h)
      obtain ⟨_, _, hdec⟩ := bind_eq_ok.mp hdec
      obtain ⟨tmp, _, hdec⟩ := bind_eq_ok.mp hdec
      split at hdec
      · rw [← Except.ok.inj hdec]
        exact hx
      · rw [← Except.ok.inj hdec]
        exact hx
    · obtain ⟨rfl, _⟩ := Prod.mk.inj (Except.ok.inj h)
      exact hx
  · split at h
    · rw [mstarGhostHit] at h
      simp only [hroom, Bool.false_eq_true, if_false, ok_bind] at h
      exact hask h
    · rw [mstarGhostMiss, if_neg hfull] at h
      exact hask h

variable {m m' m0 : MstarPolicy LruPolicy} {c : UInt32} {T : Nat} {o : Oblock} {w : Bool}
  {result res : CacheNucleusResult}

/-- There are no ghosts before the cache is full. -/
structure Filling (T : Nat) (m : MstarPolicy LruPolicy) : Prop where
  parts : m.Parts T
  ghosts : cacheIsFull m.internal.nucleus = false → m.mstarG = []

theorem room_iff {s : LruPolicy} : cacheIsFull s.nucleus = false ↔
    (s.nucleus.pool .cache).free ≠ [] := by
  simp [cacheIsFull, epoolEmpty]

/-- LRU has room before a request after which it has. -/
theorem lruMapApi_room {s s' : LruPolicy} (h : s.Inv)
    (hmap : lruMapApi s o w result = .ok (s', res)) (hroom : cacheIsFull s'.nucleus = false) :
    cacheIsFull s.nucleus = false := by
  rw [room_iff] at hroom ⊢
  have hcase := lruMapApi_case h o w result
  rw [hmap] at hcase
  cases hcase with
  | hit hl hs =>
    have hf := hs.rewrites.free
    exact hf ▸ hroom
  | new habs hf hs =>
    rw [hf]
    exact List.cons_ne_nil _ _
  | replace habs hf hq hs => exact absurd hs.rewrites.free hroom
  | fail habs hf hq => exact hroom

theorem Filling.map (h : m.Filling T) (hT : 0 < T)
    (hmap : mstarMap lruApi m o w result = .ok (m', res)) : m'.Filling T := by
  refine ⟨h.parts.map hT hmap, fun hroom' => ?_⟩
  have hroom : cacheIsFull m.internal.nucleus = false := by
    obtain ⟨⟨m1, hsv, hi⟩, _⟩ := mstarMap_ok hmap
    rw [hi] at hroom'
    cases hsv with
    | passed hlru hwhy hlogic => exact lruMapApi_room h.parts.lru hlru hroom'
    | filtered hno hunknown hstate hres hk => exact hk.internal ▸ hroom'
  obtain ⟨x, hx, hmap⟩ := bind_eq_ok.mp hmap
  obtain ⟨m2, h2, hmap⟩ := bind_eq_ok.mp hmap
  obtain ⟨logic, _, hmap⟩ := bind_eq_ok.mp hmap
  obtain ⟨rfl, _⟩ := Prod.mk.inj (Except.ok.inj hmap)
  have hq := (mstarServe_room (P := lruApi) hroom hx).trans (h.ghosts hroom)
  rw [mstarGhostLengthControl, hq] at h2
  obtain rfl := Except.ok.inj h2
  exact hq

theorem Filling.of_reachable (hc : 0 < c.toNat) {adaptive : Bool} {lru : LruPolicy}
    (hlru : lruInit c = .ok lru) (hinit : mstarInit c lru adaptive = .ok m0)
    (hs : ((mstarApi lruApi).system fun _ => mstarRequests).Reachable m0 m) :
    m.Filling c.toNat := by
  have h0 : m0.Filling c.toNat := by
    refine ⟨Parts.of_reachable hc hlru hinit (Lib.System.Reachable.refl _ _), fun _ => ?_⟩
    rw [mstarInit_eq] at hinit
    obtain rfl := Except.ok.inj hinit
    rfl
  apply hs.invariant h0
  intro a call b x ha hg hcall
  cases call with
  | map o w result =>
    obtain ⟨res, _, hmap⟩ := Policy.call_map.mp hcall
    exact ha.map hc hmap
  | migrated o =>
    obtain ⟨m1, hrun, heq⟩ := map_eq_ok.mp hcall
    obtain ⟨rfl, _⟩ := Prod.mk.inj heq
    obtain ⟨i, hi, hm1⟩ := bind_eq_ok.mp hrun
    obtain rfl := Except.ok.inj hm1
    obtain ⟨r, hl, hstep⟩ := lruMigratedApi_step ha.parts.lru hi
    refine ⟨⟨hstep.inv, ha.parts.sane⟩, fun hroom => ha.ghosts ?_⟩
    have hf := hstep.rewrites.free
    rw [(ha.parts.lru.lookup hl).1] at hf
    rw [room_iff] at hroom ⊢
    exact hf ▸ hroom
  | insert o cb => exact hg.elim
  | remove o keep => exact hg.elim
  | remap a b => exact hg.elim
  | setTime t => exact hg.elim

theorem mstarNextVictim_ask (h : m.Parts T) (hask : m.Asks o) {op : CacheNucleusOperation}
    {victim : Option EntryRef}
    (hv : lruNextVictimApi m.internal o = .ok (m.internal, op, victim)) :
    mstarNextVictim lruApi m o = .ok (m, op, victim) := by
  have hcond : (lruApi.cacheLookup m.internal o).isSome = true ∨
      (hashLookup m.nucleus o).isSome = true ∨ m.logic.state = .unstable := by
    refine hask.imp_left fun hc => ?_
    exact h.lru.wf.cached_iff.mp hc
  simp only [mstarNextVictim]
  rw [if_pos hcond]
  show (lruNextVictimApi m.internal o >>= _) = _
  rw [hv]
  rfl

theorem mstarNextVictim_filter (h : m.Parts T) (hask : ¬m.Asks o) :
    mstarNextVictim lruApi m o = .ok (m, .filter, none) := by
  have hcond : ¬((lruApi.cacheLookup m.internal o).isSome = true ∨
      (hashLookup m.nucleus o).isSome = true ∨ m.logic.state = .unstable) := by
    intro hx
    refine hask (hx.imp_left fun hc => ?_)
    exact h.lru.wf.cached_iff.mpr hc
  simp only [mstarNextVictim]
  rw [if_neg hcond]
  rfl

/-- A cache that has room takes the block. -/
theorem Filling.map_new (h : m.Filling T) (hT : 0 < T) (hask : ¬m.Asks o)
    (hroom : cacheIsFull m.internal.nucleus = false) (w : Bool) (result : CacheNucleusResult) :
    ∃ m' res, mstarMap lruApi m o w result = .ok (m', res) ∧ res.op = .new := by
  have hno : (lruApi.cacheLookup m.internal o).isSome = false := by
    cases hx : (lruApi.cacheLookup m.internal o).isSome with
    | false => rfl
    | true => exact absurd (Or.inl (h.parts.lru.wf.cached_iff.mpr hx)) hask
  have hun : (hashLookup m.nucleus o).isSome = false := by
    cases hx : (hashLookup m.nucleus o).isSome with
    | false => rfl
    | true => exact absurd (Or.inr (Or.inl hx)) hask
  have hfull : ¬lruApi.cacheIsFull m.internal = true := by
    show ¬cacheIsFull m.internal.nucleus = true
    simp [hroom]
  obtain ⟨i, res, hlru, hop⟩ : ∃ i res, lruMapApi m.internal o w { result with op := .filter } =
      .ok (i, res) ∧ res.op = .new := by
    have hcase := lruMapApi_case h.parts.lru o w { result with op := .filter }
    generalize lruMapApi m.internal o w { result with op := .filter } = x at hcase
    have habs := (lru_cacheLookup h.parts.lru o).mp (Option.not_isSome_iff_eq_none.mp (by
      rw [hno]
      decide))
    cases hcase with
    | hit hl hs =>
      rw [h.parts.lru.wf.hashLookup_eq_none.mpr habs] at hl
      cases hl
    | new habs hf hs => exact ⟨_, _, rfl, rfl⟩
    | replace habs hf hq hs => exact absurd hf (room_iff.mp hroom)
    | fail habs hf hq => exact absurd hf (room_iff.mp hroom)
  obtain ⟨logic, hupd, _⟩ := updateMstar_spec h.parts.sane hT false false
  refine ⟨{ m with internal := i, logic := logic }, res, ?_, hop⟩
  have hmap : lruApi.map m.internal o w { result with op := .filter } = .ok (i, res) := hlru
  simp only [mstarMap, hno, hun, mstarServe, Bool.false_eq_true, if_false, mstarGhostMiss,
    if_neg hfull, mstarMapInternal, hmap, ok_bind, pure_eq_ok, mstarGhostLengthControl,
    h.ghosts hroom, queueLength_eq, List.length_nil, gt_iff_lt, Nat.not_lt_zero, hupd]

/-- m* foretells what it passes on, and what it filters once the cache is full. -/
theorem Filling.foretells_iff (h : m.Filling T) (hT : 0 < T) (o : Oblock) :
    (mstarApi lruApi).Foretells m o ↔
      m.Asks o ∨ cacheIsFull m.internal.nucleus = true := by
  constructor
  · intro hf
    by_contra hx
    obtain ⟨hask, hfull⟩ := not_or.mp hx
    obtain ⟨m', res, hmap, hop⟩ := h.map_new hT hask (by simpa using hfull)
      false {}
    obtain ⟨t, victim, hv, _⟩ := hf _ _ _ _ hmap
    change mstarNextVictim lruApi m o = _ at hv
    rw [mstarNextVictim_filter h.parts hask, hop] at hv
    simp at hv
  · intro hx w result m' res hmap
    obtain ⟨⟨m1, hsv, _⟩, _⟩ := mstarMap_ok hmap
    show ∃ t victim, mstarNextVictim lruApi m o = _ ∧ _
    cases hsv with
    | passed hlru hwhy hlogic =>
      have hask : m.Asks o := by
        by_contra hno
        have hfull := hx.resolve_left hno
        obtain ⟨hc, hno⟩ := not_or.mp hno
        obtain ⟨hg, hst⟩ := not_or.mp hno
        refine hst (hwhy ?_ (Option.not_isSome_iff_eq_none.mp hg) hfull)
        exact Option.not_isSome_iff_eq_none.mp fun hs => hc (h.parts.lru.wf.cached_iff.mpr hs)
      obtain ⟨t, victim, hv, hrep, hnone⟩ := lru_foretells h.parts.lru o _ _ _ _ hlru
      obtain ⟨op', victim', hv'⟩ := lruNextVictimApi_state m.internal o
      have heq : (m.internal, op', victim') = (t, res.op, victim) :=
        Except.ok.inj (hv'.symm.trans hv)
      obtain ⟨rfl, hans⟩ := Prod.mk.inj heq
      obtain ⟨rfl, rfl⟩ := Prod.mk.inj hans
      exact ⟨m, victim', mstarNextVictim_ask h.parts hask hv', hrep, hnone⟩
    | filtered hno hunknown hstate hres hk =>
      subst hres
      refine ⟨m, none, mstarNextVictim_filter h.parts ?_, fun hop => (by cases hop), fun _ => rfl⟩
      rintro (hc | hg | hst)
      · have hs := h.parts.lru.wf.cached_iff.mp hc
        rw [show defaultCacheLookup m.internal.nucleus o = none from hno] at hs
        cases hs
      · rw [hunknown] at hg
        cases hg
      · exact hstate hst

end MstarPolicy

open MstarPolicy

/-- When m* over LRU foretells a request, in every reachable state. -/
theorem mstar_next_victim {c : UInt32} (hc : 10 ≤ c.toNat) {adaptive : Bool} {lru : LruPolicy}
    {m0 m : MstarPolicy LruPolicy} (hlru : lruInit c = .ok lru)
    (hinit : mstarInit c lru adaptive = .ok m0)
    (hs : ((mstarApi lruApi).system fun _ => mstarRequests).Reachable m0 m) (o : Oblock) :
    (mstarApi lruApi).Foretells m o ↔ m.internal.nucleus.Cached o ∨
      (hashLookup m.nucleus o).isSome ∨ m.logic.state = .unstable ∨
      cacheIsFull m.internal.nucleus = true := by
  rw [(Filling.of_reachable (by omega) hlru hinit hs).foretells_iff (by omega) o, Asks]
  simp only [or_assoc]

/-- One block comes in and is asked for nineteen times more. -/
def mstarSettling : List Call :=
  [.map 0 false {}, .migrated 0] ++ List.replicate 19 (.map 0 false {})

theorem mstarSettling_reaches : ∃ lru m0 m, lruInit 10 = .ok lru ∧
    mstarInit 10 lru true = .ok m0 ∧
    ((mstarApi lruApi).system fun _ => mstarRequests).Reachable m0 m ∧
    hashLookup m.internal.nucleus 0 = some ⟨.cache, 9⟩ ∧
    hashLookup m.internal.nucleus 7 = none ∧ hashLookup m.nucleus 7 = none ∧
    m.logic.state = .unique ∧ cacheIsFull m.internal.nucleus = false := by
  have hlru := lruInit_eq 10
  generalize hs : ({ nucleus := _, lruQ := [] } : LruPolicy) = lru at hlru
  have hinit := mstarInit_eq 10 lru true
  generalize hm0 : MstarPolicy.mk _ _ _ _ _ = m0 at hinit
  obtain ⟨m, ws, hexec, hl, h7, hg, hst, hroom⟩ : ∃ m ws,
      ((mstarApi lruApi).system fun _ => mstarRequests).exec m0 mstarSettling = .ok (m, ws) ∧
      hashLookup m.internal.nucleus 0 = some ⟨.cache, 9⟩ ∧
      hashLookup m.internal.nucleus 7 = none ∧ hashLookup m.nucleus 7 = none ∧
      m.logic.state = .unique ∧ cacheIsFull m.internal.nucleus = false := by
    subst hm0 hs
    exact ⟨_, _, rfl, rfl, rfl, rfl, rfl, rfl⟩
  have hcalls : ∀ e ∈ mstarSettling, mstarRequests e := by decide
  have hadm : ((mstarApi lruApi).system fun _ => mstarRequests).Admits m0 mstarSettling :=
    Lib.System.admits_of_exec (fun e he _ => hcalls e he) hexec
  have hrun := (Lib.System.Run.of_exec hadm hexec).reachable
  exact ⟨lru, m0, m, hlru, hinit, hrun, hl, h7, hg, hst, hroom⟩

/-- The cached block is foretold. -/
theorem mstar_next_victim_hit : ∃ lru m0 m, lruInit 10 = .ok lru ∧
    mstarInit 10 lru true = .ok m0 ∧
    ((mstarApi lruApi).system fun _ => mstarRequests).Reachable m0 m ∧
    m.internal.nucleus.Cached 0 ∧ m.logic.state = .unique ∧ (mstarApi lruApi).Foretells m 0 := by
  obtain ⟨lru, m0, m, hlru, hinit, hrun, hl, _, _, hst, _⟩ := mstarSettling_reaches
  have hparts := Parts.of_reachable (by decide) hlru hinit hrun
  have hcached : m.internal.nucleus.Cached 0 := ⟨9, hparts.lru.wf.caches_iff.mpr hl⟩
  exact ⟨lru, m0, m, hlru, hinit, hrun, hcached, hst,
    (mstar_next_victim (by decide) hlru hinit hrun 0).mpr (Or.inl hcached)⟩

/-- An unknown block enters the cache that has room, and m* announces that it filters it. -/
theorem mstar_next_victim_room : ¬∀ (c : UInt32) (adaptive : Bool) (lru : LruPolicy)
    (m0 m : MstarPolicy LruPolicy) (o : Oblock), 10 ≤ c.toNat → lruInit c = .ok lru →
    mstarInit c lru adaptive = .ok m0 →
    ((mstarApi lruApi).system fun _ => mstarRequests).Reachable m0 m →
    (mstarApi lruApi).Foretells m o := by
  intro hall
  obtain ⟨lru, m0, m, hlru, hinit, hrun, _, h7, hg, hst, hroom⟩ := mstarSettling_reaches
  have hf := hall 10 true lru m0 m 7 (by decide) hlru hinit hrun
  have hfill := Filling.of_reachable (by decide) hlru hinit hrun
  rcases (hfill.foretells_iff (by decide) 7).mp hf with (hc | hc | hc) | hfull
  · exact (hfill.parts.lru.wf.hashLookup_eq_none.mp h7).not_cached hc
  · rw [hg] at hc
    cases hc
  · rw [hst] at hc
    cases hc
  · rw [hroom] at hfull
    cases hfull

end Fomo
