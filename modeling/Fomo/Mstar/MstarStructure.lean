import Fomo.Mstar.MstarPolicy
import Fomo.Include.GhostQueue
import Fomo.Algs.LruSteps

/-!
# The ghosts of m* over whole runs

The ghost target moves on every request and a request drops at most one ghost, so the
list follows the largest target ever allowed, not the current one. With that the
metadata pool always has a free entry and the updates of the target never divide by zero.
-/
namespace Fomo

variable {σ : Type} {P : Policy σ}

namespace MstarPolicy

/-- The ghosts of m* with `c` metadata entries, its target and its logic. -/
structure Inv (c : Nat) (m : MstarPolicy σ) : Prop where
  ghosts : GhostQueue c m.nucleus m.mstarG
  metaSize : m.nucleus.metaSize = c
  le_ghostSize : c / 10 ≤ m.ghostSize
  ghostSize_le : m.ghostSize ≤ 9 * c / 10
  sane : m.logic.Sane c

/-- Only the ghosts and their target differ, and the invariant holds. -/
structure Moves (c : Nat) (m m' : MstarPolicy σ) : Prop where
  inv : m'.Inv c
  internal : m'.internal = m.internal
  logic : m'.logic = m.logic

variable {c : Nat} {m m' m'' : MstarPolicy σ} {r : EntryRef} {o : Oblock}

theorem Moves.trans (h : Moves c m m') (h' : Moves c m' m'') : Moves c m m'' :=
  ⟨h'.inv, h'.internal.trans h.internal, h'.logic.trans h.logic⟩

/-! ## The ghost operations -/

theorem Inv.onlyRemove (h : m.Inv c) (hr : r ∈ m.mstarG) :
    ∃ m', mstarOnlyRemove m r = .ok m' ∧ Moves c m m' ∧ m'.mstarG = m.mstarG.erase r ∧
      m'.nucleus.Absent (m.nucleus.entry r).oblock := by
  obtain ⟨cn, hrun, hg, habs, hms⟩ := h.ghosts.remove hr
  let m' : MstarPolicy σ := { m with mstarG := m.mstarG.erase r, nucleus := cn }
  refine ⟨m', ?_, ⟨⟨hg, hms.trans h.metaSize, h.le_ghostSize, h.ghostSize_le, h.sane⟩, rfl, rfl⟩,
    rfl, habs⟩
  simp only [mstarOnlyRemove, hrun, ok_bind, queueRemove_eq, pure_eq_ok, m']

theorem Inv.pushGhost (h : m.Inv c) (hlen : m.mstarG.length < c) (ho : m.nucleus.Absent o) :
    ∃ m', mstarPushGhost m o = .ok m' ∧ Moves c m m' ∧
      m'.mstarG.length = m.mstarG.length + 1 := by
  obtain ⟨cn, me, hrun, hg, hms⟩ := h.ghosts.insert hlen ho
  let m' : MstarPolicy σ := { m with nucleus := cn, mstarG := m.mstarG ++ [me] }
  refine ⟨m', ?_, ⟨⟨hg, hms.trans h.metaSize, h.le_ghostSize, h.ghostSize_le, h.sane⟩, rfl, rfl⟩,
    ?_⟩
  · simp only [mstarPushGhost, hrun, ok_bind, queuePush_eq, pure_eq_ok, m']
  · simp only [List.length_append, List.length_singleton, m']

theorem Inv.increase (h : m.Inv c) (hc : 10 ≤ c) (hc9 : 9 * c < 2 ^ 32) :
    ∃ m', mstarIncreaseGhostSize m = .ok m' ∧ Moves c m m' ∧ m'.mstarG = m.mstarG := by
  have hlow := h.le_ghostSize
  have hhigh := h.ghostSize_le
  have hpos : m.ghostSize > 0 := by omega
  have hdiv : c / m.ghostSize ≤ c := Nat.div_le_self _ _
  have hu : u32 (m.ghostSize + c / m.ghostSize) = m.ghostSize + c / m.ghostSize :=
    u32_of_lt (by omega)
  let m' : MstarPolicy σ := { m with
    ghostSize := min (9 * c / 10) (m.ghostSize + c / m.ghostSize) }
  refine ⟨m', ?_, ⟨⟨h.ghosts, h.metaSize, ?_, Nat.min_le_left _ _, h.sane⟩, rfl, rfl⟩, rfl⟩
  · simp only [mstarIncreaseGhostSize, h.metaSize, logAssert_true hpos, ok_bind,
      div32_of_pos hpos, u32_of_lt hc9, hu, pure_eq_ok, m']
  · exact Nat.le_min.mpr ⟨by omega, hlow.trans (Nat.le_add_right _ _)⟩

theorem Inv.decrease (h : m.Inv c) (hc : 10 ≤ c) :
    ∃ m', mstarDecreaseGhostSize m = .ok m' ∧ Moves c m m' ∧ m'.mstarG = m.mstarG := by
  have hlow := h.le_ghostSize
  have hhigh := h.ghostSize_le
  have hgt : c > m.ghostSize := by omega
  have hpos : 0 < c - m.ghostSize := by omega
  by_cases hge : m.ghostSize ≥ c / (c - m.ghostSize)
  · let m' : MstarPolicy σ := { m with
      ghostSize := max (c / 10) (m.ghostSize - c / (c - m.ghostSize)) }
    refine ⟨m', ?_, ⟨⟨h.ghosts, h.metaSize, Nat.le_max_left _ _, ?_, h.sane⟩, rfl, rfl⟩, rfl⟩
    · simp only [mstarDecreaseGhostSize, h.metaSize, logAssert_true hgt, ok_bind,
        div32_of_pos hpos, if_pos hge, pure_eq_ok, m']
    · exact Nat.max_le.mpr ⟨by omega, (Nat.sub_le _ _).trans hhigh⟩
  · let m' : MstarPolicy σ := { m with ghostSize := c / 10 }
    refine ⟨m', ?_, ⟨⟨h.ghosts, h.metaSize, Nat.le_refl _, ?_, h.sane⟩, rfl, rfl⟩, rfl⟩
    · simp only [mstarDecreaseGhostSize, h.metaSize, logAssert_true hgt, ok_bind,
        div32_of_pos hpos, if_neg hge, pure_eq_ok, m']
    · show c / 10 ≤ 9 * c / 10
      omega

/-- One ghost too many at most, and it goes. -/
theorem Inv.lengthControl (h : m.Inv c)
    (hlen : m.mstarG.length ≤ 9 * c / 10 + 1) :
    ∃ m', mstarGhostLengthControl m = .ok m' ∧ Moves c m m' ∧
      m'.mstarG.length ≤ 9 * c / 10 := by
  have hhigh := h.ghostSize_le
  have hlow := h.le_ghostSize
  unfold mstarGhostLengthControl
  by_cases hgt : queueLength m.mstarG > m.ghostSize
  · rw [if_pos hgt]
    rw [queueLength_eq] at hgt
    cases hq : m.mstarG with
    | nil =>
      rw [hq, List.length_nil] at hgt
      omega
    | cons me q =>
      obtain ⟨m', hrun, hm, hq', _⟩ := h.onlyRemove (r := me) (by rw [hq]; exact List.mem_cons_self)
      have hnd : me ∉ q := (List.nodup_cons.mp (hq ▸ h.ghosts.nodup)).1
      -- the pop unlinks the ghost; removing it from the queue again does nothing
      have hpop : mstarOnlyRemove { m with mstarG := q } me = mstarOnlyRemove m me := by
        simp only [mstarOnlyRemove, queueRemove_eq, hq, List.erase_cons_head,
          List.erase_of_not_mem hnd]
      refine ⟨m', ?_, hm, ?_⟩
      · simp only [mstarEvict, hq, queuePop_cons, hpop, hrun]
      · rw [hq', hq, List.erase_cons_head]
        rw [hq, List.length_cons] at hlen
        omega
  · rw [if_neg hgt]
    rw [queueLength_eq] at hgt
    exact ⟨m, rfl, ⟨h, rfl, rfl⟩, by omega⟩

/-! ## A request -/

/-- The ways the hit or miss part of a request ends: the internal policy is asked, the
request is filtered, or the internal policy faults. -/
inductive ServeCase (P : Policy σ) (c : Nat) (m : MstarPolicy σ) (o : Oblock) (w : Bool)
    (result : CacheNucleusResult) : Exec (MstarPolicy σ × CacheNucleusResult) → Prop
  | passed {m' : MstarPolicy σ} {res : CacheNucleusResult}
      (hmap : P.map m.internal o w result = .ok (m'.internal, res)) (hinv : m'.Inv c)
      (hlogic : m'.logic = m.logic) (hlen : m'.mstarG.length ≤ 9 * c / 10 + 1) :
      ServeCase P c m o w result (.ok (m', res))
  | filtered {m' : MstarPolicy σ} (hno : P.cacheLookup m.internal o = none)
      (hunknown : hashLookup m.nucleus o = none)
      (hfull : P.cacheIsFull m.internal = true) (hstate : m.logic.state ≠ .unstable)
      (hmv : Moves c m m') (hlen : m'.mstarG.length ≤ 9 * c / 10 + 1) :
      ServeCase P c m o w result (.ok (m', result))
  | fault {e : Fault} (hmap : P.map m.internal o w result = .error e) :
      ServeCase P c m o w result (.error e)

/-- The call of the internal policy after the ghosts have been moved. -/
theorem Moves.mapInternal (h : Moves c m m') (hlen : m'.mstarG.length ≤ 9 * c / 10 + 1) (w : Bool)
    (result : CacheNucleusResult) :
    ServeCase P c m o w result (mstarMapInternal P m' o w result) := by
  unfold mstarMapInternal
  rw [h.internal]
  cases hmap : P.map m.internal o w result with
  | error e => exact .fault hmap
  | ok x =>
    refine .passed hmap ?_ h.logic hlen
    exact ⟨h.inv.ghosts, h.inv.metaSize, h.inv.le_ghostSize, h.inv.ghostSize_le, h.inv.sane⟩

theorem Inv.serve (h : m.Inv c) (hc : 10 ≤ c) (hc9 : 9 * c < 2 ^ 32)
    (hlen : m.mstarG.length ≤ 9 * c / 10) (o : Oblock) (w : Bool) (result : CacheNucleusResult) :
    ServeCase P c m o w result (mstarServe P m o w (P.cacheLookup m.internal o).isSome
      (hashLookup m.nucleus o).isSome result) := by
  have hself : Moves c m m := ⟨h, rfl, rfl⟩
  unfold mstarServe
  cases hci : P.cacheLookup m.internal o with
  | some e =>
    simp only [Option.isSome_some, if_true, mstarHit]
    have hcase := hself.mapInternal (P := P) (o := o) (by omega) w result
    generalize mstarMapInternal P m o w result = x at hcase
    cases hcase with
    | @passed m' res hmap hinv hlogic hlen' =>
      simp only [ok_bind]
      split
      · obtain ⟨m'', hrun, hmv, hq⟩ := hinv.decrease hc
        rw [hrun]
        exact .passed (hmv.internal ▸ hmap) hmv.inv (hmv.logic.trans hlogic) (hq ▸ hlen')
      · exact .passed hmap hinv hlogic hlen'
    | filtered hno =>
      rw [hci] at hno
      cases hno
    | fault hmap => exact .fault hmap
  | none =>
    simp only [Option.isSome_none, Bool.false_eq_true, if_false]
    cases hl : hashLookup m.nucleus o with
    | some r =>
      have hr := h.ghosts.lookup_mem hl
      have ho := (h.ghosts.wf.hashLookup_eq_some.mp hl).2
      simp only [Option.isSome_some, if_true, mstarGhostHit, hl, deref_some, ok_bind]
      by_cases hfull : P.cacheIsFull m.internal = true
      · obtain ⟨m1, hrun1, hm1, hq1, habs⟩ := h.onlyRemove hr
        have hl1 : m1.mstarG.length + 1 = m.mstarG.length := by
          rw [hq1, List.length_erase_of_mem hr]
          have := List.length_pos_of_mem hr
          omega
        rw [ho] at habs
        simp only [hfull, if_true, hrun1, ok_bind]
        by_cases hst : m1.logic.state = .unstable
        · obtain ⟨m2, hrun2, hm2, hq2⟩ := hm1.inv.pushGhost (by omega) habs
          obtain ⟨m3, hrun3, hm3, hq3⟩ := hm2.inv.increase hc hc9
          simp only [hst, if_true, hrun2, ok_bind, hrun3]
          exact ((hm1.trans hm2).trans hm3).mapInternal (by rw [hq3]; omega) w result
        · obtain ⟨m3, hrun3, hm3, hq3⟩ := hm1.inv.increase hc hc9
          simp only [hst, if_false, ok_bind, hrun3]
          exact (hm1.trans hm3).mapInternal (by rw [hq3]; omega) w result
      · rw [if_neg hfull]
        exact hself.mapInternal (by omega) w result
    | none =>
      simp only [Option.isSome_none, Bool.false_eq_true, if_false, mstarGhostMiss]
      by_cases hfull : P.cacheIsFull m.internal = true
      · obtain ⟨m1, hrun1, hm1, hq1⟩ :=
          h.pushGhost (by omega) (h.ghosts.wf.hashLookup_eq_none.mp hl)
        obtain ⟨m2, hrun2, hm2, hq2⟩ := hm1.inv.increase hc hc9
        have hmv := hm1.trans hm2
        have hlen2 : m2.mstarG.length ≤ 9 * c / 10 + 1 := by
          rw [hq2]
          omega
        simp only [hfull, if_true, hrun1, ok_bind, hrun2]
        by_cases hst : m2.logic.state = .unstable
        · rw [if_neg (fun hx => hx hst)]
          exact hmv.mapInternal hlen2 w result
        · rw [if_pos hst]
          refine .filtered hci hl hfull (hmv.logic ▸ hst) ⟨⟨?_, hmv.inv.metaSize,
            hmv.inv.le_ghostSize, hmv.inv.ghostSize_le, hmv.inv.sane⟩, hmv.internal, hmv.logic⟩
            hlen2
          exact ⟨hmv.inv.ghosts.wf.withStats _, hmv.inv.ghosts.nodup, hmv.inv.ghosts.mem,
            hmv.inv.ghosts.cache_empty, hmv.inv.ghosts.meta_entries⟩
      · rw [if_neg hfull]
        exact hself.mapInternal (by omega) w result

/-- The ways a request ends, with the update of the learning logic. -/
inductive MapCase (P : Policy σ) (c : Nat) (m : MstarPolicy σ) (o : Oblock) (w : Bool)
    (result : CacheNucleusResult) : Exec (MstarPolicy σ × CacheNucleusResult) → Prop
  | passed {m' : MstarPolicy σ} {res : CacheNucleusResult}
      (hmap : P.map m.internal o w { result with op := .filter } = .ok (m'.internal, res))
      (hinv : m'.Inv c) (hlen : m'.mstarG.length ≤ 9 * c / 10)
      (hlogic : updateMstar m.logic (P.cacheLookup m.internal o).isSome
        (hashLookup m.nucleus o).isSome = .ok m'.logic) : MapCase P c m o w result (.ok (m', res))
  | filtered {m' : MstarPolicy σ} (hno : P.cacheLookup m.internal o = none)
      (hunknown : hashLookup m.nucleus o = none) (hfull : P.cacheIsFull m.internal = true)
      (hstate : m.logic.state ≠ .unstable) (hi : m'.internal = m.internal) (hinv : m'.Inv c)
      (hlen : m'.mstarG.length ≤ 9 * c / 10)
      (hlogic : updateMstar m.logic (P.cacheLookup m.internal o).isSome
        (hashLookup m.nucleus o).isSome = .ok m'.logic) :
      MapCase P c m o w result (.ok (m', { result with op := .filter }))
  | fault {e : Fault} (hmap : P.map m.internal o w { result with op := .filter } = .error e) :
      MapCase P c m o w result (.error e)

theorem Inv.map_case (h : m.Inv c) (hc : 10 ≤ c) (hc9 : 9 * c < 2 ^ 32)
    (hlen : m.mstarG.length ≤ 9 * c / 10) (o : Oblock) (w : Bool) (result : CacheNucleusResult) :
    MapCase P c m o w result (mstarMap P m o w result) := by
  have hcase := h.serve (P := P) hc hc9 hlen o w { result with op := .filter }
  obtain ⟨logic, hupd, hsane, _⟩ := updateMstar_spec h.sane (by omega)
    (P.cacheLookup m.internal o).isSome (hashLookup m.nucleus o).isSome
  unfold mstarMap
  dsimp only
  generalize mstarServe P m o w _ _ _ = x at hcase
  cases hcase with
  | fault hmap => exact .fault hmap
  | @passed m1 res hmap hinv hlogic hlen1 =>
    obtain ⟨m2, hrun2, hm2, hlen2⟩ := hinv.lengthControl hlen1
    simp only [ok_bind, hrun2, hm2.logic, hlogic, hupd, pure_eq_ok]
    refine .passed (hm2.internal ▸ hmap) ?_ hlen2 hupd
    exact ⟨hm2.inv.ghosts, hm2.inv.metaSize, hm2.inv.le_ghostSize, hm2.inv.ghostSize_le, hsane⟩
  | @filtered m1 hno hunknown hfull hstate hmv hlen1 =>
    obtain ⟨m2, hrun2, hm2, hlen2⟩ := hmv.inv.lengthControl hlen1
    simp only [ok_bind, hrun2, hm2.logic, hmv.logic, hupd, pure_eq_ok]
    refine .filtered hno hunknown hfull hstate (hm2.internal.trans hmv.internal) ?_ hlen2 hupd
    exact ⟨hm2.inv.ghosts, hm2.inv.metaSize, hm2.inv.le_ghostSize, hm2.inv.ghostSize_le, hsane⟩

/-! ## Runs -/

/-- The calls that make up a run. -/
def mstarCalls : Call → Prop
  | .map _ _ _ => True
  | .migrated _ => True
  | .insert _ _ => True
  | .remove _ _ => True
  | _ => False

instance : DecidablePred mstarCalls
  | .map _ _ _ => .isTrue trivial
  | .migrated _ => .isTrue trivial
  | .insert _ _ => .isTrue trivial
  | .remove _ _ => .isTrue trivial
  | .remap _ _ => .isFalse id
  | .setTime _ => .isFalse id

/-- Serving the call, the internal policy in state `i` faults with `e`. -/
def MapsFault (P : Policy σ) (i : σ) (e : Fault) : Call → Prop
  | .map o w result => P.map i o w { result with op := .filter } = .error e
  | c => P.call i c = .error e

/-- The invariant with the length the ghost list keeps between calls. -/
structure Bounded (c : Nat) (m : MstarPolicy σ) : Prop where
  inv : m.Inv c
  length_le : m.mstarG.length ≤ 9 * c / 10

theorem Bounded.withInternal (h : m.Bounded c) (i : σ) :
    ({ m with internal := i } : MstarPolicy σ).Bounded c :=
  ⟨⟨h.inv.ghosts, h.inv.metaSize, h.inv.le_ghostSize, h.inv.ghostSize_le, h.inv.sane⟩,
    h.length_le⟩

/-- A call that only asks the internal policy. -/
theorem Bounded.ask (h : m.Bounded c) {x : Exec σ} {d : Call}
    (hcall : P.call m.internal d = x.map fun i => (i, none)) :
    (∀ m' res, ((x >>= fun i => .ok ({ m with internal := i } : MstarPolicy σ)).map
      fun m => (m, (none : Option CacheNucleusResult))) = .ok (m', res) → m'.Bounded c) ∧
    ∀ e, ((x >>= fun i => .ok ({ m with internal := i } : MstarPolicy σ)).map
      fun m => (m, (none : Option CacheNucleusResult))) = .error e →
      P.call m.internal d = .error e := by
  cases x with
  | error f =>
    refine ⟨fun m' res hx => absurd hx (by simp [Except.map]), fun e hx => ?_⟩
    rw [hcall]
    exact congrArg Except.error (Except.error.inj hx)
  | ok i =>
    refine ⟨fun m' res hx => ?_, fun e hx => by cases hx⟩
    obtain ⟨rfl, _⟩ := Prod.mk.inj (Except.ok.inj hx)
    exact h.withInternal i

/-- A call keeps the bounds, and faults only where the internal policy does. -/
theorem Bounded.call (h : m.Bounded c) (hc : 10 ≤ c) (hc9 : 9 * c < 2 ^ 32) {call : Call}
    (hg : mstarCalls call) :
    (∀ m' res, (mstarApi P).call m call = .ok (m', res) → m'.Bounded c) ∧
    ∀ e, (mstarApi P).call m call = .error e → MapsFault P m.internal e call := by
  cases call with
  | map o w result =>
    have hcase := h.inv.map_case (P := P) hc hc9 h.length_le o w result
    constructor
    · intro m' res hx
      obtain ⟨r, _, hmap⟩ := Policy.call_map.mp hx
      rw [show mstarMap P m o w result = .ok (m', r) from hmap] at hcase
      cases hcase with
      | passed hmap hinv hlen hlogic => exact ⟨hinv, hlen⟩
      | filtered hno hunknown hfull hstate hi hinv hlen hlogic => exact ⟨hinv, hlen⟩
    · intro e hx
      have hmap := map_eq_error.mp hx
      rw [show mstarMap P m o w result = .error e from hmap] at hcase
      cases hcase with
      | fault hmap => exact hmap
  | migrated o => exact h.ask rfl
  | insert o cb => exact h.ask rfl
  | remove o keep =>
    have hask : ∀ {m1 : MstarPolicy σ}, m1.Bounded c → m1.internal = m.internal →
        (∀ m' res, ((P.remove m1.internal o keep >>= fun i => .ok
          ({ m1 with internal := i } : MstarPolicy σ)).map
          fun m => (m, (none : Option CacheNucleusResult))) = .ok (m', res) → m'.Bounded c) ∧
        ∀ e, ((P.remove m1.internal o keep >>= fun i => .ok
          ({ m1 with internal := i } : MstarPolicy σ)).map
          fun m => (m, (none : Option CacheNucleusResult))) = .error e →
          MapsFault P m.internal e (.remove o keep) := by
      intro m1 h1 hi
      rw [← hi]
      exact h1.ask (d := .remove o keep) rfl
    show (∀ m' res, (mstarRemove P m o keep).map _ = _ → _) ∧
      ∀ e, (mstarRemove P m o keep).map _ = _ → _
    unfold mstarRemove
    cases hl : hashLookup m.nucleus o with
    | none => exact hask h rfl
    | some r =>
      cases keep with
      | true => exact hask h rfl
      | false =>
        obtain ⟨m1, hrun, hmv, hq, _⟩ := h.inv.onlyRemove (h.inv.ghosts.lookup_mem hl)
        have hlen : m1.mstarG.length ≤ 9 * c / 10 := by
          rw [hq]
          exact List.length_erase_le.trans h.length_le
        simp only [hrun, ok_bind]
        exact hask ⟨hmv.inv, hlen⟩ hmv.internal
  | remap a b => exact hg.elim
  | setTime t => exact hg.elim

/-! ## Initialisation -/

def mstarPools (c : UInt32) : PoolId → Nat
  | .cache => 0
  | .metadata => c.toNat

theorem mstarPools_lt (c : UInt32) (p : PoolId) : mstarPools c p < 2 ^ 32 := by
  cases p
  · exact Nat.two_pow_pos 32
  · exact c.toNat_lt

theorem mstarInit_eq (c : UInt32) (i : σ) (adaptive : Bool) : mstarInit c i adaptive = .ok
    { nucleus := freshNucleus 0 c.toNat (mstarPools c), mstarG := []
      ghostSize := u32 (9 * c.toNat) / 10, internal := i
      logic := mstarLogicInit adaptive c.toNat } := by
  rw [mstarInit, policyInit_eq (n := mstarPools c) ?_ (mstarPools_lt c)]
  · rfl
  · intro p
    cases p <;> rfl

theorem mstarInit_bounded {c : UInt32} (hc9 : 9 * c.toNat < 2 ^ 32) {i : σ} {adaptive : Bool}
    (h : mstarInit c i adaptive = .ok m) : m.Bounded c.toNat ∧ m.internal = i := by
  rw [mstarInit_eq] at h
  obtain rfl := Except.ok.inj h
  have hfree : ∀ r, ((freshNucleus 0 c.toNat (mstarPools c)).entry r).allocated = false :=
    fun r => rfl
  refine ⟨⟨⟨⟨freshNucleus_wf (mstarPools_lt c), List.nodup_nil, fun r => ?_, rfl, rfl⟩, rfl, ?_,
    ?_, mstarLogicInit_sane _ _⟩, Nat.zero_le _⟩, rfl⟩
  · simp [hfree]
  · show c.toNat / 10 ≤ u32 (9 * c.toNat) / 10
    rw [u32_of_lt hc9]
    omega
  · show u32 (9 * c.toNat) / 10 ≤ 9 * c.toNat / 10
    rw [u32_of_lt hc9]

theorem Bounded.of_reachable {c : UInt32} (hc : 10 ≤ c.toNat) (hc9 : 9 * c.toNat < 2 ^ 32)
    {i : σ} {adaptive : Bool} {m0 : MstarPolicy σ} (hinit : mstarInit c i adaptive = .ok m0)
    (hs : ((mstarApi P).system fun _ => mstarCalls).Reachable m0 m) : m.Bounded c.toNat := by
  apply hs.invariant (mstarInit_bounded hc9 hinit).1
  intro a call b w ha hg hcall
  exact (ha.call hc hc9 hg).1 b w hcall

end MstarPolicy

open MstarPolicy

variable {m : MstarPolicy σ}

/-- The structural invariant of m* over every internal policy and every run of calls that the
internal policy answers. -/
theorem mstar_structure {c : UInt32} (hc : 10 ≤ c.toNat) (hc9 : 9 * c.toNat < 2 ^ 32) {i : σ}
    {adaptive : Bool} {m0 : MstarPolicy σ} (hinit : mstarInit c i adaptive = .ok m0)
    (hs : ((mstarApi P).system fun _ => mstarCalls).Reachable m0 m) :
    (∀ r, r ∈ m.nucleus.ht ↔ r ∈ m.mstarG) ∧
    (∀ r, r ∈ m.mstarG ↔ r.pool = .metadata ∧ (m.nucleus.entry r).allocated = true) ∧
    m.nucleus.ht.Nodup ∧ m.mstarG.Nodup ∧
    (m.mstarG.map fun r => (m.nucleus.entry r).oblock).Nodup ∧
    (c.toNat / 10 ≤ m.ghostSize ∧ m.ghostSize ≤ 9 * c.toNat / 10) ∧
    queueLength m.mstarG ≤ 9 * c.toNat / 10 ∧
    (0 < m.ghostSize ∧ m.ghostSize < m.nucleus.metaSize) ∧
    (m.nucleus.pool .metadata).free ≠ [] ∧
    ∀ call e, mstarCalls call → (mstarApi P).call m call = .error e →
      MapsFault P m.internal e call := by
  have h := Bounded.of_reachable hc hc9 hinit hs
  have hg := h.inv.ghosts
  have hlow := h.inv.le_ghostSize
  have hhigh := h.inv.ghostSize_le
  have hlen := h.length_le
  refine ⟨fun r => by rw [hg.wf.mem_ht, hg.mem], fun r => ?_, hg.wf.ht_nodup, hg.nodup,
    hg.oblocks_nodup, ⟨hlow, hhigh⟩, hlen, ⟨by omega, by rw [h.inv.metaSize]; omega⟩, ?_,
    fun call e hcall => (h.call hc hc9 hcall).2 e⟩
  · exact ⟨fun hr => ⟨hg.pool_eq hr, (hg.mem r).mp hr⟩, fun hr => (hg.mem r).mpr hr.2⟩
  · intro hf
    have := hg.free_append_queue
    rw [hf, List.length_nil] at this
    omega

/-- Ten blocks fill the cache, and two more miss it. -/
def mstarOverflowing : List Call :=
  [0, 1, 2, 3, 4, 5, 6, 7, 8, 9].flatMap (fun o => [.map o false {}, .migrated o]) ++
    [.map 10 false {}, .map 11 false {}]

/-- m* over LRU with ten slots, the cache full and two ghosts. -/
theorem mstar_structure_lru : ∃ lru m0 m, lruInit 10 = .ok lru ∧
    mstarInit 10 lru true = .ok m0 ∧
    ((mstarApi lruApi).system fun _ => mstarCalls).Reachable m0 m ∧
    cacheIsFull m.internal.nucleus = true ∧
    m.mstarG.map (fun r => (m.nucleus.entry r).oblock) = [10, 11] ∧
    (∀ r, r ∈ m.nucleus.ht ↔ r ∈ m.mstarG) ∧ m.ghostSize ≤ 9 := by
  have hlru := lruInit_eq 10
  generalize hs : ({ nucleus := _, lruQ := [] } : LruPolicy) = lru at hlru
  have hinit := mstarInit_eq 10 lru true
  generalize hm0 : MstarPolicy.mk _ _ _ _ _ = m0 at hinit
  obtain ⟨m, ws, hexec, hfull, hghosts⟩ : ∃ m ws,
      ((mstarApi lruApi).system fun _ => mstarCalls).exec m0 mstarOverflowing = .ok (m, ws) ∧
      cacheIsFull m.internal.nucleus = true ∧
      m.mstarG.map (fun r => (m.nucleus.entry r).oblock) = [10, 11] := by
    subst hm0 hs
    exact ⟨_, _, rfl, rfl, rfl⟩
  have hcalls : ∀ e ∈ mstarOverflowing, mstarCalls e := by decide
  have hadm : ((mstarApi lruApi).system fun _ => mstarCalls).Admits m0 mstarOverflowing :=
    Lib.System.admits_of_exec (fun e he _ => hcalls e he) hexec
  have hrun := (Lib.System.Run.of_exec hadm hexec).reachable
  obtain ⟨hht, _, _, _, _, hsize, _⟩ := mstar_structure (by decide) (by decide) hinit hrun
  exact ⟨lru, m0, m, hlru, hinit, hrun, hfull, hghosts, hht, hsize.2⟩

end Fomo
