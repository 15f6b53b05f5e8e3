import Fomo.Wrapper.FomoSteps
import Fomo.Algs.LruSteps

/-!
# The miss history over whole runs

Every call of FOMO either keeps the three history structures together or ends with a
fault of the internal policy. Over any run the table, the queue and the metadata pool
hold the same entries, and a commit always finds a free one.
-/
namespace Fomo

open FomoPolicy

variable {σ : Type} {P : Policy σ} {f f' : FomoPolicy σ} {o : Oblock} {c : Call}

/-- Serving the call, the internal policy in state `i` faults with `e`. -/
def InternalFault (P : Policy σ) (i : σ) (e : Fault) : Call → Prop
  | .map o _ result => P.nextVictim i o = .error e ∨ ∃ i' op victim,
      P.nextVictim i o = .ok (i', op, victim) ∧
      P.map i' o false { result with op := .fail } = .error e
  | .remove o keep => P.remove i o keep = .error e
  | .insert o cb => P.insert i o cb = .error e
  | .migrated o => P.migrated i o = .error e
  | .remap a b => P.remap i a b = .error e
  | .setTime _ => False

/-- What a call other than a request does to the remembered oblocks. -/
def callHistory : Call → List Oblock → List Oblock
  | .remove o false, h => h.erase o
  | .remap a b, h => (h.erase b).map (rename a b)
  | _, h => h

/-- A call other than a request leaves the automaton alone and is passed on. -/
structure Settles (P : Policy σ) (f : FomoPolicy σ) (c : Call) (f' : FomoPolicy σ) : Prop where
  internal : P.call f.internal c = .ok (f'.internal, none)
  inv : f'.Inv
  history : f'.history = callHistory c f.history
  state : f'.state = f.state
  counter : f'.counter = f.counter
  cHits : f'.cHits = f.cHits
  mhHits : f'.mhHits = f.mhHits
  ghostSize : f'.ghostSize = f.ghostSize
  periodSize : f'.periodSize = f.periodSize

/-- The three ways a call ends. -/
inductive CallCase (P : Policy σ) (f : FomoPolicy σ) :
    Call → Exec (FomoPolicy σ × Option CacheNucleusResult) → Prop
  | request {o : Oblock} {w result} {f' : FomoPolicy σ} {res}
      (hm : MapCase P f o result (.ok (f', res))) :
      CallCase P f (.map o w result) (.ok (f', some res))
  | settled {c : Call} {f' : FomoPolicy σ} (hc : ∀ o w result, c ≠ .map o w result)
      (hs : Settles P f c f') : CallCase P f c (.ok (f', none))
  | fault {c : Call} {e} (he : InternalFault P f.internal e c) : CallCase P f c (.error e)

/-- A call that ends in one call of the internal policy. -/
theorem CallCase.of_internal (hc : ∀ o w result, c ≠ .map o w result) {x : Exec σ}
    {f1 : FomoPolicy σ} (hinv : f1.Inv) (hsame : f.SameControl f1)
    (hhist : f1.history = callHistory c f.history)
    (hcall : ∀ i, x = .ok i → P.call f.internal c = .ok (i, none))
    (hfault : ∀ e, x = .error e → InternalFault P f.internal e c) :
    CallCase P f c ((x.map fun i => { f1 with internal := i }).map fun f => (f, none)) := by
  cases x with
  | error e => exact .fault (hfault e rfl)
  | ok i =>
    refine .settled hc ⟨hcall i rfl, hinv.congr rfl rfl rfl, hhist, ?_, ?_, ?_, ?_, ?_, ?_⟩
    all_goals rw [hsame]

theorem fomoCall_case (h : f.Inv) (c : Call) : CallCase P f c ((fomoApi P).call f c) := by
  cases c with
  | map o w result =>
    have hcase := fomoMap_case (P := P) h o w result
    show CallCase P f _ ((fomoMap P f o w result).map _)
    cases hx : fomoMap P f o w result with
    | ok a =>
      rw [hx] at hcase
      exact .request hcase
    | error e =>
      rw [hx] at hcase
      refine .fault ?_
      cases hcase with
      | victimFault hf hv => exact Or.inl hv
      | mapFault hf hv hop hm => exact Or.inr ⟨_, _, _, hv, hm⟩
  | remove o keep =>
    obtain ⟨f1, hinv, hsame, hhist, heq⟩ := fomoRemove_eq (P := P) h o keep
    show CallCase P f _ ((fomoRemove P f o keep).map _)
    rw [heq]
    refine .of_internal (by simp) hinv hsame ?_ (fun i hi => ?_) fun e he => he
    · rw [hhist]
      cases keep <;> rfl
    · simp [Policy.call, hi, Except.map]
  | insert o cb =>
    have heq : fomoInsert P f o cb =
        (P.insert f.internal o cb).map fun i => { f with internal := i } := by
      unfold fomoInsert
      cases P.insert f.internal o cb <;> rfl
    show CallCase P f _ ((fomoInsert P f o cb).map _)
    rw [heq]
    refine .of_internal (by simp) h (.refl f) rfl (fun i hi => ?_) fun e he => he
    simp [Policy.call, hi, Except.map]
  | migrated o =>
    have heq : fomoMigrated P f o =
        (P.migrated f.internal o).map fun i => { f with internal := i } := by
      unfold fomoMigrated
      cases P.migrated f.internal o <;> rfl
    show CallCase P f _ ((fomoMigrated P f o).map _)
    rw [heq]
    refine .of_internal (by simp) h (.refl f) rfl (fun i hi => ?_) fun e he => he
    simp [Policy.call, hi, Except.map]
  | remap a b =>
    obtain ⟨f1, hinv, hsame, hhist, heq⟩ := fomoRemap_eq (P := P) h a b
    show CallCase P f _ ((fomoRemap P f a b).map _)
    rw [heq]
    refine .of_internal (by simp) hinv hsame hhist (fun i hi => ?_) fun e he => he
    simp [Policy.call, hi, Except.map]
  | setTime t =>
    refine .settled (by simp) ⟨rfl, ⟨?_, h.queue_nodup, h.mem_queue, h.cache_empty, h.meta_entries,
      h.ghost_pos⟩, rfl, rfl, rfl, rfl, rfl, rfl, rfl⟩
    exact ⟨h.wf.pools, h.wf.start, h.wf.ht_nodup, h.wf.mem_ht, h.wf.inj⟩

/-- Every answered call keeps the invariant and the sizes. -/
theorem fomoCall_inv (h : f.Inv) {w : Option CacheNucleusResult}
    (hcall : (fomoApi P).call f c = .ok (f', w)) :
    f'.Inv ∧ f'.ghostSize = f.ghostSize ∧ f'.periodSize = f.periodSize := by
  have hcase := fomoCall_case (P := P) h c
  rw [hcall] at hcase
  cases hcase with
  | request hm =>
    cases hm with
    | filtered hf hc hi => exact ⟨hc.inv, hc.ghostSize, hc.periodSize⟩
    | refused hf hv => exact ⟨h.congr rfl rfl rfl, rfl, rfl⟩
    | admitted hf hv hop hm hc hi => exact ⟨hc.inv, hc.ghostSize, hc.periodSize⟩
  | settled hc hs => exact ⟨hs.inv, hs.ghostSize, hs.periodSize⟩

/-- The call of the internal policy that a call of FOMO may lead to. -/
def internalCall : Call → Call
  | .map o _ result => .map o false { result with op := .fail }
  | c => c

/-- An answered call leads to that one call of the internal policy, or to none. -/
theorem fomoCall_internal (h : f.Inv) {w : Option CacheNucleusResult}
    (hnv : ∀ o i op victim, P.nextVictim f.internal o = .ok (i, op, victim) → i = f.internal)
    (hcall : (fomoApi P).call f c = .ok (f', w)) :
    f'.internal = f.internal ∨
      ∃ w', P.call f.internal (internalCall c) = .ok (f'.internal, w') := by
  have hcase := fomoCall_case (P := P) h c
  rw [hcall] at hcase
  cases hcase with
  | request hm =>
    cases hm with
    | filtered hf hc hi => exact Or.inl hi
    | refused hf hv => exact Or.inl (hnv _ _ _ _ hv)
    | admitted hf hv hop hm hc hi =>
      right
      rw [hnv _ _ _ _ hv] at hm
      exact ⟨_, Policy.call_map.mpr ⟨_, rfl, hi ▸ hm⟩⟩
  | settled hc hs =>
    right
    cases c with
    | map o wr result => exact absurd rfl (hc o wr result)
    | _ => exact ⟨_, hs.internal⟩

/-- FOMO with a caller that keeps to no rules. -/
abbrev fomoSystem (P : Policy σ) :
    Lib.System (FomoPolicy σ) Call (Option CacheNucleusResult) Fault :=
  (fomoApi P).system fun _ _ => True

theorem fomo_run_inv {t : List (Call × Option CacheNucleusResult)}
    {guard : FomoPolicy σ → Call → Prop} (h : f.Inv)
    (hrun : ((fomoApi P).system guard).Run f t f') :
    f'.Inv ∧ f'.ghostSize = f.ghostSize ∧ f'.periodSize = f.periodSize := by
  refine hrun.invariant
    (I := fun g => g.Inv ∧ g.ghostSize = f.ghostSize ∧ g.periodSize = f.periodSize)
    ⟨h, rfl, rfl⟩ fun {a e b w} ha _ hstep => ?_
  obtain ⟨hinv, hg, hp⟩ := fomoCall_inv ha.1 hstep
  exact ⟨hinv, hg.trans ha.2.1, hp.trans ha.2.2⟩

/-- When asking for the next victim changes nothing, FOMO drives its internal policy through
states the policy reaches by itself, under the same rules for the caller. -/
theorem fomo_internal_reachable {G : σ → Call → Prop} {i0 : σ} (h : f.Inv)
    (hi0 : f.internal = i0)
    (hnv : ∀ i, (P.system G).Reachable i0 i → ∀ o i' op victim,
      P.nextVictim i o = .ok (i', op, victim) → i' = i)
    (hreach : ((fomoApi P).system fun f c => G f.internal (internalCall c)).Reachable f f') :
    f'.Inv ∧ (P.system G).Reachable i0 f'.internal := by
  refine hreach.invariant (I := fun g => g.Inv ∧ (P.system G).Reachable i0 g.internal)
    ⟨h, hi0 ▸ .refl _ _⟩ fun {a c b w} ha hg hstep => ⟨(fomoCall_inv ha.1 hstep).1, ?_⟩
  rcases fomoCall_internal ha.1 (hnv _ ha.2) hstep with hsame | ⟨w', hcall⟩
  · rw [hsame]
    exact ha.2
  · exact ha.2.step hg hcall

/-- The miss history over every run of calls that the internal policy answers: table,
queue and metadata pool hold the same entries, no oblock occurs twice, and the history
stays within `ghost_size`. A commit never finds the pool exhausted, so a call that
faults does so in the internal policy. -/
theorem fomo_miss_history {cacheSize : UInt32} (hsize : 0 < cacheSize.toNat) {i : σ}
    {f0 : FomoPolicy σ} (hinit : fomoInit cacheSize i = .ok f0)
    {t : List (Call × Option CacheNucleusResult)} (hrun : (fomoSystem P).Run f0 t f) :
    (∀ r, r ∈ f.nucleus.ht ↔ r ∈ f.fomoMh) ∧
    (∀ r, r ∈ f.fomoMh ↔ r.pool = .metadata ∧ (f.nucleus.entry r).allocated = true) ∧
    f.nucleus.ht.Nodup ∧ f.fomoMh.Nodup ∧
    (f.fomoMh.map fun r => (f.nucleus.entry r).oblock).Nodup ∧
    queueLength f.fomoMh = (f.nucleus.pool .metadata).nrAllocated ∧
    (f.nucleus.pool .metadata).nrAllocated ≤ f.ghostSize ∧ f.ghostSize = cacheSize.toNat ∧
    (∀ o (i : σ), ∃ f', fomoCommitHistory
      { f with internal := i, state := (fomoStaged P f o).state } (fomoStaged P f o) = .ok f') ∧
    ∀ call e, (fomoApi P).call f call = .error e → InternalFault P f.internal e call := by
  obtain ⟨hinv0, hghost0, _⟩ := fomoInit_spec hsize hinit
  obtain ⟨h, hghost, _⟩ := fomo_run_inv hinv0 hrun
  refine ⟨fun r => by rw [h.wf.mem_ht, h.mem_queue], fun r => ?_, h.wf.ht_nodup, h.queue_nodup,
    h.history_nodup, h.queue_length_eq, h.queue_length_eq ▸ h.queue_length_le,
    hghost.trans hghost0, fun o i => ?_, fun call e hcall => ?_⟩
  · exact ⟨fun hr => ⟨h.pool_eq hr, (h.mem_queue r).mp hr⟩, fun hr => (h.mem_queue r).mpr hr.2⟩
  · have hmh : (fomoStaged P f o).mhHit =
        (hashLookup f.nucleus (fomoStaged P f o).oblock).isSome := by
      rw [fomoStaged_eq]
      rfl
    obtain ⟨f', hrun', _⟩ := fomoCommitHistory_spec
      (f := { f with internal := i, state := (fomoStaged P f o).state })
      (h.congr rfl rfl rfl) (fomoStaged P f o) hmh
    exact ⟨f', hrun'⟩
  · have hcase := fomoCall_case (P := P) h call
    rw [hcall] at hcase
    cases hcase with
    | fault he => exact he

/-- FOMO over LRU with two slots: a miss is remembered and then renamed. -/
theorem fomo_miss_history_lru : ∃ lru f0 f t, lruInit 2 = .ok lru ∧
    fomoInit 2 lru = .ok f0 ∧ (fomoSystem lruApi).Run f0 t f ∧
    t.map Prod.fst = [.map 1 false {}, .migrated 1, .remap 1 4] ∧
    queueLength f.fomoMh = (f.nucleus.pool .metadata).nrAllocated := by
  have hlru := lruInit_eq 2
  generalize hs : ({ nucleus := _, lruQ := [] } : LruPolicy) = lru at hlru
  have hinit := fomoInit_eq 2 lru
  generalize hf0 : FomoPolicy.mk _ _ _ _ _ _ _ _ _ _ = f0 at hinit
  obtain ⟨f, w, hexec⟩ : ∃ f w, (fomoSystem lruApi).exec f0
      [.map 1 false {}, .migrated 1, .remap 1 4] = .ok (f, [w, none, none]) := by
    subst hf0 hs
    exact ⟨_, _, rfl⟩
  have hrun := Lib.System.Run.of_exec (Lib.System.admits_of_exec (fun _ _ _ => trivial) hexec) hexec
  exact ⟨_, _, _, _, hlru, hinit, hrun, rfl,
    (fomo_miss_history (by decide) hinit hrun).2.2.2.2.2.1⟩

end Fomo
