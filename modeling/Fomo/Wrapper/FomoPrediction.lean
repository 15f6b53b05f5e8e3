import Fomo.Wrapper.FomoInvariant
import Fomo.Wrapper.FomoAdmission
import Fomo.Algs.LruAsync

/-!
# FOMO transactions are atomic and predictable

Over an internal policy whose next victim predicts its map, asking FOMO for the next
victim predicts the map of FOMO, a refused request changes nothing, and a request that
commits is not refused by the internal policy afterwards.
-/
namespace Fomo

open FomoPolicy

variable {σ : Type}

/-- In this state asking for the next victim changes nothing and returns the operation of
the map, and for a replacement the entry it evicts. -/
def Predicts (P : Policy σ) (s : σ) (o : Oblock) : Prop :=
  ∃ op victim, P.nextVictim s o = .ok (s, op, victim) ∧
    ∀ w result s' res, P.map s o w result = .ok (s', res) → res.op = op ∧
      (op = .replace → ∃ e, victim = some e ∧ (P.entryAt s e).oblock = res.oldOblock)

variable {P : Policy σ} {f f' : FomoPolicy σ} {o : Oblock}

theorem Predicts.nextVictim_state {s s' : σ} {op : CacheNucleusOperation}
    {victim : Option EntryRef} (h : Predicts P s o)
    (hv : P.nextVictim s o = .ok (s', op, victim)) : s' = s := by
  obtain ⟨op', victim', hv', _⟩ := h
  rw [hv'] at hv
  exact (Prod.mk.inj (Except.ok.inj hv)).1.symm

/-- What `fomo_next_victim` answers over a policy that predicts itself. -/
theorem fomoNextVictim_eq {op : CacheNucleusOperation} {victim : Option EntryRef}
    (hv : P.nextVictim f.internal o = .ok (f.internal, op, victim)) :
    fomoNextVictim P f o = .ok (f,
      if f.filters P o then (.filter, none) else if op = .fail then (.fail, none)
      else (op, victim)) := by
  have hst : fomoTransactionSet P f (fomoTransactionInit f o) = fomoStaged P f o := rfl
  have hfilter : (fomoStaged P f o).filter = decide (f.filters P o) := by rw [fomoStaged_eq]
  simp only [fomoNextVictim, hst, fomoTransactionIsLegal_staged, hfilter]
  by_cases hf : f.filters P o
  · simp [hf]
  · by_cases hop : op = .fail
    · simp [hf, hv, Except.map, hop]
    · simp [hf, hv, Except.map, hop]

/-- The prediction passes from the internal policy to FOMO. -/
theorem predicts_fomo (h : f.Inv) (hP : Predicts P f.internal o) : Predicts (fomoApi P) f o := by
  obtain ⟨op, victim, hv, hmap⟩ := hP
  by_cases hf : f.filters P o
  · refine ⟨.filter, none, ?_, fun w result f' res hm => ⟨?_, by simp⟩⟩
    · show fomoNextVictim P f o = _
      rw [fomoNextVictim_eq hv, if_pos hf]
    · have hcase := fomoMap_case (P := P) h o w result
      rw [show fomoMap P f o w result = _ from hm] at hcase
      cases hcase with
      | filtered => rfl
      | refused hn => exact absurd hf hn
      | admitted hn => exact absurd hf hn
  · by_cases hop : op = .fail
    · subst hop
      refine ⟨.fail, none, ?_, fun w result f' res hm => ⟨?_, by simp⟩⟩
      · show fomoNextVictim P f o = _
        rw [fomoNextVictim_eq hv, if_neg hf, if_pos rfl]
      · have hcase := fomoMap_case (P := P) h o w result
        rw [show fomoMap P f o w result = _ from hm] at hcase
        cases hcase with
        | filtered hn => exact absurd hn hf
        | refused => rfl
        | admitted _ hv' hop' =>
          rw [hv] at hv'
          obtain ⟨_, rfl, _⟩ := by simpa using hv'
          exact absurd rfl hop'
    · refine ⟨op, victim, ?_, fun w result f' res hm => ?_⟩
      · show fomoNextVictim P f o = _
        rw [fomoNextVictim_eq hv, if_neg hf, if_neg hop]
      · have hcase := fomoMap_case (P := P) h o w result
        rw [show fomoMap P f o w result = _ from hm] at hcase
        cases hcase with
        | filtered hn => exact absurd hn hf
        | refused _ hv' =>
          rw [hv] at hv'
          obtain ⟨_, rfl, _⟩ := by simpa using hv'
          exact absurd rfl hop
        | admitted _ hv' _ hm' =>
          rw [hv] at hv'
          obtain ⟨rfl, _, _⟩ := by simpa using hv'
          exact hmap _ _ _ _ hm'

/-- LRU predicts itself. -/
theorem predicts_lru {s : LruPolicy} (h : s.Inv) (o : Oblock) : Predicts lruApi s o := by
  have hmap : ∀ w result s' res, lruApi.map s o w result = .ok (s', res) →
      LruPolicy.MapCase s o w result (.ok (s', res)) := by
    intro w result s' res hm
    rw [← hm]
    exact lruMapApi_case h o w result
  cases hl : hashLookup s.nucleus o with
  | some r =>
    refine ⟨.hit, none, ?_, fun w result s' res hm => ⟨?_, by simp⟩⟩
    · simp [lruApi, lruNextVictimApi, lruTransactionSet, lruTransactionInit, hl,
        lruTransactionIsLegal]
    · cases hmap _ _ _ _ hm with
      | hit => rfl
      | new habs => rw [h.wf.hashLookup_eq_none.mpr habs] at hl; simp at hl
      | replace habs => rw [h.wf.hashLookup_eq_none.mpr habs] at hl; simp at hl
      | fail habs => rw [h.wf.hashLookup_eq_none.mpr habs] at hl; simp at hl
  | none =>
    cases hf : (s.nucleus.pool .cache).free with
    | cons cb rest =>
      refine ⟨.new, none, ?_, fun w result s' res hm => ⟨?_, by simp⟩⟩
      · simp [lruApi, lruNextVictimApi, lruTransactionSet, lruTransactionInit, hl,
          lruTransactionIsLegal, cacheIsFull, epoolEmpty, hf]
      · cases hmap _ _ _ _ hm with
        | hit hl' => simp [hl] at hl'
        | new => rfl
        | replace _ hf' => simp [hf] at hf'
        | fail _ hf' => simp [hf] at hf'
    | nil =>
      cases hq : s.lruQ with
      | nil =>
        refine ⟨.fail, none, ?_, fun w result s' res hm => ⟨?_, by simp⟩⟩
        · simp [lruApi, lruNextVictimApi, lruTransactionSet, lruTransactionInit, hl,
            lruTransactionIsLegal, cacheIsFull, epoolEmpty, hf, hq]
        · cases hmap _ _ _ _ hm with
          | hit hl' => simp [hl] at hl'
          | new _ hf' => simp [hf] at hf'
          | replace _ _ hq' => simp [hq] at hq'
          | fail => rfl
      | cons r q =>
        refine ⟨.replace, some r, ?_, fun w result s' res hm => ?_⟩
        · simp [lruApi, lruNextVictimApi, lruTransactionSet, lruTransactionInit, hl,
            lruTransactionIsLegal, cacheIsFull, epoolEmpty, hf, hq]
        · cases hmap _ _ _ _ hm with
          | hit hl' => simp [hl] at hl'
          | new _ hf' => simp [hf] at hf'
          | replace _ _ hq' =>
            obtain ⟨rfl, rfl⟩ := List.cons.inj (hq.symm.trans hq')
            exact ⟨rfl, fun _ => ⟨_, rfl, rfl⟩⟩
          | fail _ _ hq' => simp [hq] at hq'

/-- FOMO over a policy that predicts itself wherever its caller, keeping to the rules `G`,
can take it: FOMO predicts itself, `FAIL` leaves FOMO and the internal policy as they
were, and a request whose transaction is legal does not end in `FAIL`. -/
theorem fomo_transactions {G : σ → Call → Prop} {cacheSize : UInt32}
    (hsize : 0 < cacheSize.toNat) {i0 : σ} {f0 : FomoPolicy σ}
    (hinit : fomoInit cacheSize i0 = .ok f0)
    (hP : ∀ i, (P.system G).Reachable i0 i → ∀ o, Predicts P i o)
    (hreach : ((fomoApi P).system fun f c => G f.internal (internalCall c)).Reachable f0 f)
    (o : Oblock) :
    (∃ op victim, fomoNextVictim P f o = .ok (f, op, victim) ∧
      ∀ w result f' res, fomoMap P f o w result = .ok (f', res) → res.op = op ∧
        (op = .replace → ∃ e, victim = some e ∧
          (P.entryAt f.internal e).oblock = res.oldOblock)) ∧
    ∀ w result f' res, fomoMap P f o w result = .ok (f', res) →
      (res.op = .fail → f' = f) ∧ (fomoLegal P f o = true → res.op ≠ .fail) := by
  obtain ⟨hinv0, _, _, hi0, _⟩ := fomoInit_spec hsize hinit
  obtain ⟨h, hi⟩ := fomo_internal_reachable hinv0 hi0
    (fun i hi o i' op victim hv => (hP i hi o).nextVictim_state hv) hreach
  refine ⟨predicts_fomo h (hP _ hi o), fun w result f' res hmap => ?_⟩
  obtain ⟨op, victim, hv, hpred⟩ := hP _ hi o
  have hcase := fomoMap_case (P := P) h o w result
  rw [hmap] at hcase
  cases hcase with
  | filtered hf => exact ⟨by simp, by simp⟩
  | refused hf hv' =>
    rw [hv] at hv'
    obtain ⟨rfl, rfl, rfl⟩ := by simpa using hv'
    refine ⟨fun _ => rfl, fun hlegal => ?_⟩
    rcases (fomoLegal_eq P f o).mp hlegal with hf' | ⟨i, op, v, hv', hop⟩
    · exact absurd hf' hf
    · rw [hv] at hv'
      obtain ⟨_, rfl, _⟩ := by simpa using hv'
      exact absurd rfl hop
  | admitted hf hv' hop hm hc hi' =>
    rw [hv] at hv'
    obtain ⟨rfl, rfl, rfl⟩ := by simpa using hv'
    have hres := (hpred _ _ _ _ hm).1
    rw [hres]
    exact ⟨fun hfail => absurd hfail hop, fun _ => hop⟩

/-- FOMO over an LRU whose only slot is still migrating: the next miss is refused, as
predicted, and leaves everything as it was. -/
theorem fomo_transactions_lru : ∃ (lru : LruPolicy) (f0 f f' : FomoPolicy LruPolicy)
    (res : CacheNucleusResult), lruInit 1 = .ok lru ∧ fomoInit 300 lru = .ok f0 ∧
    ((fomoApi lruApi).system fun f c => lruCalls f.internal (internalCall c)).Reachable f0 f ∧
    fomoMap lruApi f 2 false {} = .ok (f', res) ∧ res.op = .fail ∧ f' = f ∧
    ∃ op victim, fomoNextVictim lruApi f 2 = .ok (f, op, victim) ∧ res.op = op := by
  have hlru := lruInit_eq 1
  generalize hs : ({ nucleus := _, lruQ := [] } : LruPolicy) = lru at hlru
  have hinit := fomoInit_eq 300 lru
  generalize hf0 : FomoPolicy.mk _ _ _ _ _ _ _ _ _ _ = f0 at hinit
  obtain ⟨f, w, hstep, f', res, hmap, hop⟩ : ∃ f w,
      (fomoApi lruApi).call f0 (.map 1 false {}) = .ok (f, w) ∧
      ∃ f' res, fomoMap lruApi f 2 false {} = .ok (f', res) ∧ res.op = .fail := by
    subst hf0 hs
    exact ⟨_, _, rfl, _, _, rfl, rfl⟩
  have hreach : ((fomoApi lruApi).system
      fun f c => lruCalls f.internal (internalCall c)).Reachable f0 f :=
    (Lib.System.Reachable.refl _ _).step (e := .map 1 false {}) trivial hstep
  obtain ⟨⟨op, victim, hv, hpred⟩, hatomic⟩ := fomo_transactions (by decide) hinit
    (fun i hi o => predicts_lru (.of_reachable hlru hi) o) hreach 2
  exact ⟨_, _, f, f', res, hlru, hinit, hreach, hmap, hop, (hatomic _ _ _ _ hmap).1 hop, op,
    victim, hv, (hpred _ _ _ _ hmap).1⟩

end Fomo
