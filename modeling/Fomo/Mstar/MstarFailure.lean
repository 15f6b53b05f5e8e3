import Fomo.Mstar.MstarStructure
import Fomo.Include.Contract

/-!
# Requests that fail in m* over LRU

LRU refuses a request when every slot is taken by a block that migrates. m* has moved its
ghosts by then and counts the request all the same.
-/
namespace Fomo

variable {σ : Type} {P : Policy σ}

namespace MstarPolicy

variable {m m' m'' : MstarPolicy σ} {r : EntryRef} {o : Oblock} {w : Bool}
  {result res : CacheNucleusResult}

/-! ## What a request does, whatever the ghosts are -/

/-- The internal policy and the learning logic are the same. -/
structure Keeps (m m' : MstarPolicy σ) : Prop where
  internal : m'.internal = m.internal
  logic : m'.logic = m.logic

theorem Keeps.trans (h : m.Keeps m') (h' : m'.Keeps m'') : m.Keeps m'' :=
  ⟨h'.internal.trans h.internal, h'.logic.trans h.logic⟩

theorem keeps_onlyRemove (h : mstarOnlyRemove m r = .ok m') : m.Keeps m' := by
  obtain ⟨cn, _, h⟩ := bind_eq_ok.mp h
  obtain rfl := Except.ok.inj h
  exact ⟨rfl, rfl⟩

theorem keeps_pushGhost (h : mstarPushGhost m o = .ok m') : m.Keeps m' := by
  obtain ⟨x, _, h⟩ := bind_eq_ok.mp h
  obtain rfl := Except.ok.inj h
  exact ⟨rfl, rfl⟩

theorem keeps_increase (h : mstarIncreaseGhostSize m = .ok m') : m.Keeps m' := by
  obtain ⟨_, _, h⟩ := bind_eq_ok.mp h
  obtain ⟨tmp, _, h⟩ := bind_eq_ok.mp h
  obtain rfl := Except.ok.inj h
  exact ⟨rfl, rfl⟩

theorem keeps_decrease (h : mstarDecreaseGhostSize m = .ok m') : m.Keeps m' := by
  obtain ⟨_, _, h⟩ := bind_eq_ok.mp h
  obtain ⟨tmp, _, h⟩ := bind_eq_ok.mp h
  split at h
  · obtain rfl := Except.ok.inj h
    exact ⟨rfl, rfl⟩
  · obtain rfl := Except.ok.inj h
    exact ⟨rfl, rfl⟩

theorem keeps_lengthControl (h : mstarGhostLengthControl m = .ok m') : m.Keeps m' := by
  unfold mstarGhostLengthControl at h
  split at h
  · unfold mstarEvict at h
    split at h
    · cases h
    · have hk := keeps_onlyRemove h
      exact ⟨hk.internal, hk.logic⟩
  · obtain rfl := Except.ok.inj h
    exact ⟨rfl, rfl⟩

/-- The request is passed on, and passed on it is when the cache has room, the block is a
ghost or the state is UNSTABLE; or it is filtered. -/
inductive Served (P : Policy σ) (m : MstarPolicy σ) (o : Oblock) (w : Bool)
    (result : CacheNucleusResult) (m' : MstarPolicy σ) (res : CacheNucleusResult) : Prop
  | passed (hmap : P.map m.internal o w result = .ok (m'.internal, res))
      (hwhy : P.cacheLookup m.internal o = none → hashLookup m.nucleus o = none →
        P.cacheIsFull m.internal = true → m.logic.state = .unstable)
      (hlogic : m'.logic = m.logic)
  | filtered (hno : P.cacheLookup m.internal o = none) (hunknown : hashLookup m.nucleus o = none)
      (hstate : m.logic.state ≠ .unstable) (hres : res = result) (hk : m.Keeps m')

theorem served_mapInternal (hk : m.Keeps m')
    (hwhy : P.cacheLookup m.internal o = none → hashLookup m.nucleus o = none →
      P.cacheIsFull m.internal = true → m.logic.state = .unstable)
    (h : mstarMapInternal P m' o w result = .ok (m'', res)) : Served P m o w result m'' res := by
  obtain ⟨x, hmap, h⟩ := bind_eq_ok.mp h
  obtain ⟨rfl, rfl⟩ := Prod.mk.inj (Except.ok.inj h)
  rw [hk.internal] at hmap
  exact .passed hmap hwhy hk.logic

theorem served (h : mstarServe P m o w (P.cacheLookup m.internal o).isSome
    (hashLookup m.nucleus o).isSome result = .ok (m', res)) : Served P m o w result m' res := by
  have hself : m.Keeps m := ⟨rfl, rfl⟩
  unfold mstarServe at h
  cases hci : P.cacheLookup m.internal o with
  | some e =>
    rw [hci] at h
    simp only [Option.isSome_some, if_true, mstarHit] at h
    obtain ⟨x, hx, h⟩ := bind_eq_ok.mp h
    have hsv := served_mapInternal hself (fun hn => by simp [hci] at hn) hx
    split at h
    · obtain ⟨m2, hdec, h⟩ := bind_eq_ok.mp h
      obtain ⟨rfl, rfl⟩ := Prod.mk.inj (Except.ok.inj h)
      have hk := keeps_decrease hdec
      cases hsv with
      | passed hmap hwhy hlogic =>
        exact .passed (hk.internal ▸ hmap) hwhy (hk.logic.trans hlogic)
      | filtered hno => cases hci.symm.trans hno
    · obtain ⟨rfl, rfl⟩ := Prod.mk.inj (Except.ok.inj h)
      exact hsv
  | none =>
    rw [hci] at h
    simp only [Option.isSome_none, Bool.false_eq_true, if_false] at h
    cases hl : hashLookup m.nucleus o with
    | some r =>
      rw [hl] at h
      simp only [Option.isSome_some, if_true, mstarGhostHit] at h
      have hwhy : P.cacheLookup m.internal o = none → hashLookup m.nucleus o = none →
          P.cacheIsFull m.internal = true → m.logic.state = .unstable :=
        fun _ hn => by simp [hl] at hn
      split at h
      · obtain ⟨e, _, h⟩ := bind_eq_ok.mp h
        obtain ⟨m1, h1, h⟩ := bind_eq_ok.mp h
        have hk1 := keeps_onlyRemove h1
        split at h
        · obtain ⟨m2, h2, h⟩ := bind_eq_ok.mp h
          obtain ⟨m3, h3, h⟩ := bind_eq_ok.mp h
          exact served_mapInternal ((hk1.trans (keeps_pushGhost h2)).trans (keeps_increase h3))
            hwhy h
        · rw [ok_bind] at h
          obtain ⟨m3, h3, h⟩ := bind_eq_ok.mp h
          exact served_mapInternal (hk1.trans (keeps_increase h3)) hwhy h
      · exact served_mapInternal hself hwhy h
    | none =>
      rw [hl] at h
      simp only [Option.isSome_none, Bool.false_eq_true, if_false, mstarGhostMiss] at h
      split at h
      · obtain ⟨m1, h1, h⟩ := bind_eq_ok.mp h
        obtain ⟨m2, h2, h⟩ := bind_eq_ok.mp h
        have hk := (keeps_pushGhost h1).trans (keeps_increase h2)
        by_cases hst : m2.logic.state = .unstable
        · rw [if_neg fun hx => hx hst] at h
          exact served_mapInternal hk (fun _ _ _ => hk.logic ▸ hst) h
        · rw [if_pos hst] at h
          obtain ⟨rfl, rfl⟩ := Prod.mk.inj (Except.ok.inj h)
          exact .filtered hci hl (hk.logic ▸ hst) rfl ⟨hk.internal, hk.logic⟩
      · next hfull => exact served_mapInternal hself (fun _ _ hx => absurd hx hfull) h

/-- A request that returns has asked the internal policy or was filtered, and was counted. -/
theorem mstarMap_ok (h : mstarMap P m o w result = .ok (m', res)) :
    (∃ m1, Served P m o w { result with op := .filter } m1 res ∧
      m'.internal = m1.internal) ∧
    updateMstar m.logic (P.cacheLookup m.internal o).isSome
      (hashLookup m.nucleus o).isSome = .ok m'.logic := by
  obtain ⟨x, hx, h⟩ := bind_eq_ok.mp h
  obtain ⟨m2, h2, h⟩ := bind_eq_ok.mp h
  obtain ⟨logic, hupd, h⟩ := bind_eq_ok.mp h
  obtain ⟨rfl, rfl⟩ := Prod.mk.inj (Except.ok.inj h)
  have hsv := served hx
  have hk := keeps_lengthControl h2
  refine ⟨⟨x.1, hsv, hk.internal⟩, ?_⟩
  rw [hk.logic] at hupd
  cases hsv with
  | passed hmap hwhy hlogic => rwa [hlogic] at hupd
  | filtered hno hunknown hstate hres hk' => rwa [hk'.logic] at hupd

end MstarPolicy

/-- A counted request leaves another logic behind: the counter moves, or the state does. -/
theorem updateMstar_ne {logic logic' : MstarLogic} {T : Nat} {c g : Bool} (h : logic.Sane T)
    (hT : 2 ≤ T) (hupd : updateMstar logic c g = .ok logic') : logic' ≠ logic := by
  obtain ⟨l, hrun, _, hcase⟩ := updateMstar_spec h (by omega) c g
  obtain rfl := Except.ok.inj (hrun.symm.trans hupd)
  have hcount := counted_tabuCounter logic c g
  rintro rfl
  rcases hcase with ⟨h0, heq⟩ | ⟨h0, hnew⟩
  · have := congrArg MstarLogic.tabuCounter heq
    omega
  · cases hnew with
    | stay hs hc hp => omega
    | change hs hc hp => exact hs (counted_state _ _ _).symm

/-! ## Over LRU -/

/-- The calls that make up a run. -/
def mstarRequests : Call → Prop
  | .map _ _ _ => True
  | .migrated _ => True
  | _ => False

instance : DecidablePred mstarRequests
  | .map _ _ _ => .isTrue trivial
  | .migrated _ => .isTrue trivial
  | .insert _ _ => .isFalse id
  | .remove _ _ => .isFalse id
  | .remap _ _ => .isFalse id
  | .setTime _ => .isFalse id

namespace MstarPolicy

/-- Everything m* and the LRU below it keep is as it was. -/
structure Untouched {σ : Type} (m m' : MstarPolicy σ) : Prop where
  mstarG : m'.mstarG = m.mstarG
  ht : m'.nucleus.ht = m.nucleus.ht
  pool : m'.nucleus.pool = m.nucleus.pool
  ghostSize : m'.ghostSize = m.ghostSize
  logic : m'.logic = m.logic
  internal : m'.internal = m.internal

/-- LRU is asked for an unknown block while every slot is taken by a block that migrates. -/
structure Refuses (m : MstarPolicy LruPolicy) (o : Oblock) : Prop where
  unknown : m.internal.nucleus.Absent o
  full : cacheIsFull m.internal.nucleus = true
  migrating : m.internal.lruQ = []
  asked : (hashLookup m.nucleus o).isSome ∨ m.logic.state = .unstable

variable {m m' : MstarPolicy LruPolicy} {c : UInt32} {o : Oblock} {w : Bool}
  {result res : CacheNucleusResult}

theorem lru_cacheLookup (h : m.internal.Inv) (o : Oblock) :
    lruApi.cacheLookup m.internal o = none ↔ m.internal.nucleus.Absent o := by
  rw [← h.wf.hashLookup_eq_none]
  show defaultCacheLookup m.internal.nucleus o = none ↔ _
  unfold defaultCacheLookup
  cases hl : hashLookup m.internal.nucleus o with
  | none => simp [inCache]
  | some r => simp [inCache, (h.lookup hl).1]

/-- What is needed of the parts of m* over LRU. -/
structure Parts (T : Nat) (m : MstarPolicy LruPolicy) : Prop where
  lru : m.internal.Inv
  sane : m.logic.Sane T

theorem Parts.map {T : Nat} (h : m.Parts T) (hT : 0 < T)
    (hmap : mstarMap lruApi m o w result = .ok (m', res)) : m'.Parts T := by
  obtain ⟨⟨m1, hsv, hi⟩, hupd⟩ := mstarMap_ok hmap
  obtain ⟨l, hrun, hsane, _⟩ := updateMstar_spec h.sane hT _ _
  obtain rfl := Except.ok.inj (hrun.symm.trans hupd)
  refine ⟨?_, hsane⟩
  rw [hi]
  cases hsv with
  | passed hlru hwhy hlogic =>
    have hcase := lruMapApi_case h.lru o w { result with op := .filter }
    rw [show lruMapApi _ _ _ _ = _ from hlru] at hcase
    generalize m1.internal = i at hcase
    cases hcase with
    | hit hl hs => exact hs.inv
    | new habs hf hs => exact hs.inv
    | replace habs hf hq hs => exact hs.inv
    | fail habs hf hq => exact h.lru
  | filtered hno hunknown hstate hres hk =>
    rw [hk.internal]
    exact h.lru

theorem Parts.of_reachable (hc : 0 < c.toNat) {adaptive : Bool} {lru : LruPolicy}
    {m0 : MstarPolicy LruPolicy} (hlru : lruInit c = .ok lru)
    (hinit : mstarInit c lru adaptive = .ok m0)
    (hs : ((mstarApi lruApi).system fun _ => mstarRequests).Reachable m0 m) :
    m.Parts c.toNat := by
  have h0 : m0.Parts c.toNat := by
    rw [mstarInit_eq] at hinit
    obtain rfl := Except.ok.inj hinit
    exact ⟨(lruInit_spec hlru).1, mstarLogicInit_sane _ _⟩
  apply hs.invariant h0
  intro a call b x ha hg hcall
  cases call with
  | map o w result =>
    obtain ⟨res, _, hmap⟩ := Policy.call_map.mp hcall
    exact ha.map hc hmap
  | migrated o =>
    obtain ⟨m1, hrun, heq⟩ := map_eq_ok.mp hcall
    obtain ⟨rfl, _⟩ := Prod.mk.inj heq
    obtain ⟨i, hi, hm1⟩ := bind_eq_ok.mp hrun
    obtain rfl := Except.ok.inj hm1
    refine ⟨?_, ha.sane⟩
    obtain ⟨r, _, hs'⟩ := lruMigratedApi_step ha.lru hi
    exact hs'.inv
  | insert o cb => exact hg.elim
  | remove o keep => exact hg.elim
  | remap a b => exact hg.elim
  | setTime t => exact hg.elim

/-- LRU refuses exactly when it is asked for a block it has no slot for. -/
theorem Parts.fail_iff {T : Nat} (h : m.Parts T)
    (hmap : mstarMap lruApi m o w result = .ok (m', res)) :
    res.op = .fail ↔ m.Refuses o := by
  obtain ⟨⟨m1, hsv, _⟩, _⟩ := mstarMap_ok hmap
  cases hsv with
  | passed hlru hwhy hlogic =>
    have hcase := lruMapApi_case h.lru o w { result with op := .filter }
    rw [show lruMapApi _ _ _ _ = _ from hlru] at hcase
    generalize m1.internal = i at hcase
    cases hcase with
    | hit hl hs =>
      refine iff_of_false (fun hx => by cases hx) fun hx => ?_
      rw [h.lru.wf.hashLookup_eq_none.mpr hx.unknown] at hl
      cases hl
    | new habs hf hs =>
      refine iff_of_false (fun hx => by cases hx) fun hx => ?_
      have := hx.full
      simp [cacheIsFull, epoolEmpty, hf] at this
    | replace habs hf hq hs =>
      refine iff_of_false (fun hx => by cases hx) fun hx => ?_
      rw [hx.migrating] at hq
      cases hq
    | fail habs hf hq =>
      have hfull : cacheIsFull m.internal.nucleus = true := by simp [cacheIsFull, epoolEmpty, hf]
      refine iff_of_true rfl ⟨habs, hfull, hq, ?_⟩
      cases hl : hashLookup m.nucleus o with
      | some r => exact Or.inl rfl
      | none => exact Or.inr (hwhy ((lru_cacheLookup h.lru o).mpr habs) hl hfull)
  | filtered hno hunknown hstate hres hk =>
    rw [hres]
    refine iff_of_false (fun hx => by cases hx) fun hx => ?_
    rcases hx.asked with hs | hs
    · rw [hunknown] at hs
      cases hs
    · exact hstate hs

end MstarPolicy

open MstarPolicy

variable {m m' : MstarPolicy LruPolicy} {c : UInt32}

/-- What a failed request leaves behind, over every reachable state: the learning logic has
counted it, so m* is untouched only where LRU does not refuse. -/
theorem mstar_failure (hc : 10 ≤ c.toNat) {adaptive : Bool} {lru : LruPolicy}
    {m0 : MstarPolicy LruPolicy} (hlru : lruInit c = .ok lru)
    (hinit : mstarInit c lru adaptive = .ok m0)
    (hs : ((mstarApi lruApi).system fun _ => mstarRequests).Reachable m0 m) {o : Oblock}
    {w : Bool} {result res : CacheNucleusResult}
    (hmap : mstarMap lruApi m o w result = .ok (m', res)) :
    (res.op = .fail → m.Untouched m') ↔ ¬m.Refuses o := by
  have h := Parts.of_reachable (by omega) hlru hinit hs
  rw [← h.fail_iff hmap]
  constructor
  · intro hx hop
    exact updateMstar_ne h.sane (by omega) (mstarMap_ok hmap).2 (hx hop).logic
  · exact fun hno hop => absurd hop hno

/-- Ten requests fill LRU with blocks that migrate. -/
def mstarFilling : List Call :=
  [.map 0 false {}, .map 1 false {}, .map 2 false {}, .map 3 false {}, .map 4 false {},
    .map 5 false {}, .map 6 false {}, .map 7 false {}, .map 8 false {}, .map 9 false {}]

theorem mstarFilling_exec : ∃ lru m0 m m' res, lruInit 10 = .ok lru ∧
    mstarInit 10 lru false = .ok m0 ∧
    ((mstarApi lruApi).system fun _ => mstarRequests).Reachable m0 m ∧
    mstarMap lruApi m 10 false {} = .ok (m', res) ∧ res.op = .fail ∧
    (hashLookup m.internal.nucleus 0).isSome = true ∧
    ∃ m'' res', mstarMap lruApi m 0 false {} = .ok (m'', res') := by
  have hlru := lruInit_eq 10
  generalize hs : ({ nucleus := _, lruQ := [] } : LruPolicy) = lru at hlru
  have hinit := mstarInit_eq 10 lru false
  generalize hm0 : MstarPolicy.mk _ _ _ _ _ = m0 at hinit
  obtain ⟨m, ws, hexec, m', res, hmap, hop, hl, hagain⟩ : ∃ m ws,
      ((mstarApi lruApi).system fun _ => mstarRequests).exec m0 mstarFilling = .ok (m, ws) ∧
      ∃ m' res, mstarMap lruApi m 10 false {} = .ok (m', res) ∧ res.op = .fail ∧
      (hashLookup m.internal.nucleus 0).isSome = true ∧
      ∃ m'' res', mstarMap lruApi m 0 false {} = .ok (m'', res') := by
    subst hm0 hs
    exact ⟨_, _, rfl, _, _, rfl, rfl, rfl, _, _, rfl⟩
  have hcalls : ∀ e ∈ mstarFilling, mstarRequests e := by decide
  have hadm : ((mstarApi lruApi).system fun _ => mstarRequests).Admits m0 mstarFilling :=
    Lib.System.admits_of_exec (fun e he _ => hcalls e he) hexec
  have hrun := (Lib.System.Run.of_exec hadm hexec).reachable
  exact ⟨lru, m0, m, m', res, hlru, hinit, hrun, hmap, hop, hl, hagain⟩

/-- The request that LRU refuses has shortened the phase. -/
theorem mstar_failure_counted : ¬∀ (c : UInt32) (adaptive : Bool) (lru : LruPolicy)
    (m0 m m' : MstarPolicy LruPolicy) (o : Oblock) (w : Bool) (result res : CacheNucleusResult),
    10 ≤ c.toNat → lruInit c = .ok lru → mstarInit c lru adaptive = .ok m0 →
    ((mstarApi lruApi).system fun _ => mstarRequests).Reachable m0 m →
    mstarMap lruApi m o w result = .ok (m', res) → res.op = .fail → m.Untouched m' := by
  intro hall
  obtain ⟨lru, m0, m, m', res, hlru, hinit, hrun, hmap, hop, _⟩ := mstarFilling_exec
  have hun := hall 10 false lru m0 m m' 10 false {} res (by decide) hlru hinit hrun hmap hop
  have h := Parts.of_reachable (by decide) hlru hinit hrun
  exact updateMstar_ne h.sane (by decide) (mstarMap_ok hmap).2 hun.logic

/-- A hit in the same state. -/
theorem mstar_failure_hit : ∃ m m' res, mstarMap lruApi m 0 false {} = .ok (m', res) ∧
    (res.op = .fail → m.Untouched m') := by
  obtain ⟨lru, m0, m, _, _, hlru, hinit, hrun, _, _, hl, m', res, hmap⟩ := mstarFilling_exec
  refine ⟨m, m', res, hmap, (mstar_failure (by decide) hlru hinit hrun hmap).mpr fun hx => ?_⟩
  have h := Parts.of_reachable (by decide) hlru hinit hrun
  rw [h.lru.wf.hashLookup_eq_none.mpr hx.unknown] at hl
  cases hl

end Fomo
