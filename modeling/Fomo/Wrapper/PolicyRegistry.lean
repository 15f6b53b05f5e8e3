import Fomo.Wrapper.FomoInvariant
import Fomo.Algs.LfuPolicy
import Fomo.Algs.LarcPolicy
import Fomo.Algs.LirsPolicy
import Fomo.Algs.MarcSteps

/-!
# The policies FOMO is registered over (`policy_registry/policy_registry.h`)

One name for each `fomo_*_create`. What a call of FOMO that returned did to its state and to
the internal policy does not depend on the history, so it is stated for any state of FOMO.
-/
namespace Fomo

open FomoPolicy

/-- The internal policies of the registry. LFU carries the content of the transaction it
leaves uninitialised. -/
inductive InternalPolicy
  | lru
  | lfu (lt : LfuTransaction)
  | arc
  | larc
  | lirs
  | marc

namespace InternalPolicy

def State : InternalPolicy → Type
  | lru => LruPolicy
  | lfu _ => LfuPolicy
  | arc => ArcPolicy
  | larc => LarcPolicy
  | lirs => LirsPolicy
  | marc => MarcPolicy

def api : (k : InternalPolicy) → Policy k.State
  | lru => lruApi
  | lfu lt => lfuApi lt
  | arc => arcApi
  | larc => larcApi
  | lirs => lirsApi
  | marc => marcApi

def create : (k : InternalPolicy) → UInt32 → UInt32 → Exec k.State
  | lru => lruCreate
  | lfu _ => lfuCreate
  | arc => arcCreate
  | larc => larcCreate
  | lirs => lirsCreate
  | marc => marcCreate

end InternalPolicy

variable {σ : Type} {P : Policy σ} {f f' : FomoPolicy σ} {o : Oblock} {w : Bool}
  {result res : CacheNucleusResult} {I : σ → Prop}

theorem fomoCreate_eq {c m : UInt32} {create : UInt32 → UInt32 → Exec σ} {i : σ}
    (h : create c m = .ok i) : fomoCreate c m create = .ok
    { nucleus := freshNucleus 0 c.toNat fun p => if p = .metadata then c.toNat else 0
      fomoMh := [], ghostSize := c.toNat, internal := i, state := .insert, counter := 0
      periodSize := max (c.toNat / 100) 1, cHits := 0, mhHits := 0, mhHitsTotal := 0 } := by
  rw [fomoCreate, h, ok_bind, fomoInit_eq]

/-! ## Requests that returned -/

theorem fomoRemoveEntry_ok {r : EntryRef} (hrun : fomoRemoveEntry f r = .ok f') :
    f'.state = f.state ∧ f'.internal = f.internal := by
  obtain ⟨cn, _, hrun⟩ := bind_eq_ok.mp hrun
  exact Except.ok.inj hrun ▸ ⟨rfl, rfl⟩

theorem fomoForget_ok (hrun : fomoForget f o = .ok f') :
    f'.state = f.state ∧ f'.internal = f.internal := by
  unfold fomoForget at hrun
  split at hrun
  · exact fomoRemoveEntry_ok hrun
  · exact Except.ok.inj hrun ▸ ⟨rfl, rfl⟩

theorem fomoRename_ok {a b : Oblock} (hrun : fomoRename f a b = .ok f') :
    f'.state = f.state ∧ f'.internal = f.internal := by
  unfold fomoRename at hrun
  split at hrun
  · obtain ⟨cn, _, hrun⟩ := bind_eq_ok.mp hrun
    exact Except.ok.inj hrun ▸ ⟨rfl, rfl⟩
  · exact Except.ok.inj hrun ▸ ⟨rfl, rfl⟩

/-- The history of misses is all that its update touches. -/
theorem fomoCommitHistory_ok {ft : FomoTransaction} (hrun : fomoCommitHistory f ft = .ok f') :
    f'.state = f.state ∧ f'.internal = f.internal := by
  unfold fomoCommitHistory at hrun
  split at hrun
  · split at hrun
    · obtain ⟨fe, _, hrun⟩ := bind_eq_ok.mp hrun
      exact fomoRemoveEntry_ok hrun
    · exact Except.ok.inj hrun ▸ ⟨rfl, rfl⟩
  · split at hrun
    · obtain ⟨fe, _, hrun⟩ := bind_eq_ok.mp hrun
      split at hrun
      · exact fomoRemoveEntry_ok hrun
      · exact Except.ok.inj hrun ▸ ⟨rfl, rfl⟩
    · dsimp only at hrun
      split at hrun
      · obtain ⟨lru, _, hrun⟩ := bind_eq_ok.mp hrun
        obtain ⟨f1, hrun1, hrun⟩ := bind_eq_ok.mp hrun
        obtain ⟨⟨cn, fe⟩, _, hrun⟩ := bind_eq_ok.mp hrun
        obtain rfl := Except.ok.inj hrun
        have hok := fomoRemoveEntry_ok hrun1
        exact hok
      · obtain ⟨f1, hrun1, hrun⟩ := bind_eq_ok.mp hrun
        obtain rfl := Except.ok.inj hrun1
        obtain ⟨⟨cn, fe⟩, _, hrun⟩ := bind_eq_ok.mp hrun
        exact Except.ok.inj hrun ▸ ⟨rfl, rfl⟩

/-- The three ways a request returns. -/
inductive Answered (P : Policy σ) (f : FomoPolicy σ) (o : Oblock) (result : CacheNucleusResult)
    (f' : FomoPolicy σ) (res : CacheNucleusResult) : Prop
  | filtered (hf : f.filters P o) (hst : f'.state = f.stagedState P o)
      (hi : f'.internal = f.internal)
  | refused {v : Option EntryRef} (hf : ¬f.filters P o)
      (hv : P.nextVictim f.internal o = .ok (f'.internal, .fail, v)) (hst : f'.state = f.state)
      (hres : res = { result with op := .fail })
  | admitted {i : σ} {op : CacheNucleusOperation} {v : Option EntryRef} (hf : ¬f.filters P o)
      (hv : P.nextVictim f.internal o = .ok (i, op, v)) (hop : op ≠ .fail)
      (hmap : P.map i o false { result with op := .fail } = .ok (f'.internal, res))
      (hst : f'.state = f.stagedState P o)

theorem fomoMap_answered (hmap : fomoMap P f o w result = .ok (f', res)) :
    Answered P f o result f' res := by
  have hunf : fomoMap P f o w result = (do
      let x ← fomoTransactionIsLegal P f (fomoStaged P f o)
      if x.2 then fomoTransactionCommit P x.1 (fomoStaged P f o) { result with op := .fail }
      else return (x.1, { result with op := .fail })) := rfl
  rw [hunf, fomoTransactionIsLegal_staged] at hmap
  have hfilter : (fomoStaged P f o).filter = decide (f.filters P o) := by rw [fomoStaged_eq]
  have hstate : (fomoStaged P f o).state = f.stagedState P o := by rw [fomoStaged_eq]
  have hob : (fomoStaged P f o).oblock = o := by rw [fomoStaged_eq]
  by_cases hf : f.filters P o
  · rw [if_pos hf, ok_bind, if_pos rfl] at hmap
    obtain ⟨f1, hrun1, hmap⟩ := bind_eq_ok.mp hmap
    obtain ⟨hst, hi⟩ := fomoCommitHistory_ok hrun1
    rw [if_pos (by rw [hfilter]; exact decide_eq_true hf)] at hmap
    obtain ⟨rfl, _⟩ := Prod.mk.inj (Except.ok.inj hmap)
    exact .filtered hf (hst.trans hstate) hi
  · rw [if_neg hf] at hmap
    obtain ⟨⟨f1, legal⟩, hleg, hmap⟩ := bind_eq_ok.mp hmap
    obtain ⟨⟨i, op, v⟩, hv, heq⟩ := map_eq_ok.mp hleg
    obtain ⟨rfl, rfl⟩ := Prod.mk.inj heq
    by_cases hop : op = .fail
    · subst hop
      rw [if_neg (by simp)] at hmap
      obtain ⟨rfl, rfl⟩ := Prod.mk.inj (Except.ok.inj hmap)
      exact .refused hf hv rfl rfl
    · rw [if_pos (by simpa using hop)] at hmap
      obtain ⟨f2, hrun2, hmap⟩ := bind_eq_ok.mp hmap
      obtain ⟨hst, hi⟩ := fomoCommitHistory_ok hrun2
      rw [if_neg (by rw [hfilter, decide_eq_false hf]; simp), hi, hob] at hmap
      obtain ⟨⟨i', res'⟩, hmap', hmap⟩ := bind_eq_ok.mp hmap
      obtain ⟨rfl, rfl⟩ := Prod.mk.inj (Except.ok.inj hmap)
      exact .admitted hf hv hop hmap' (hst.trans hstate)

/-! ## Invariants of the internal policy -/

theorem fomoMap_internal (h : P.Keeps I) (hi : I f.internal)
    (hmap : fomoMap P f o w result = .ok (f', res)) : I f'.internal := by
  cases fomoMap_answered hmap with
  | filtered hf hst heq => rw [heq]; exact hi
  | refused hf hv hst hres => exact h.nextVictim hi hv
  | admitted hf hv hop hm hst =>
    exact h.call (h.nextVictim hi hv) (Policy.call_map.mpr ⟨_, rfl, hm⟩)

/-- A call other than a request passes one call on. -/
theorem fomoCall_passed {c : Call} {x : Option CacheNucleusResult}
    (hc : ∀ o w result, c ≠ .map o w result) (hrun : (fomoApi P).call f c = .ok (f', x)) :
    ∃ y, P.call f.internal c = .ok (f'.internal, y) := by
  -- the answer of a call that ends in the one of the internal policy
  have hlast : ∀ {f1 : FomoPolicy σ} {y : Exec σ}, (do
      let i ← y
      return { f1 with internal := i } : Exec (FomoPolicy σ)) = .ok f' →
      y.map (fun i => (i, (none : Option CacheNucleusResult))) = .ok (f'.internal, none) := by
    intro f1 y hy
    obtain ⟨i, hi, heq⟩ := bind_eq_ok.mp hy
    rw [hi, ← Except.ok.inj heq]
    rfl
  cases c with
  | map o w result => exact absurd rfl (hc o w result)
  | setTime t =>
    obtain ⟨rfl, _⟩ := Prod.mk.inj (Except.ok.inj hrun)
    exact ⟨none, rfl⟩
  | insert o cb =>
    obtain ⟨f2, hrun2, heq⟩ := map_eq_ok.mp hrun
    obtain ⟨rfl, _⟩ := Prod.mk.inj heq
    exact ⟨none, hlast hrun2⟩
  | migrated o =>
    obtain ⟨f2, hrun2, heq⟩ := map_eq_ok.mp hrun
    obtain ⟨rfl, _⟩ := Prod.mk.inj heq
    exact ⟨none, hlast hrun2⟩
  | remove o keep =>
    obtain ⟨f2, hrun2, heq⟩ := map_eq_ok.mp hrun
    obtain ⟨rfl, _⟩ := Prod.mk.inj heq
    change fomoRemove P f o keep = .ok f2 at hrun2
    rw [fomoRemove_bind] at hrun2
    obtain ⟨f1, hrun1, hrun2⟩ := bind_eq_ok.mp hrun2
    have hi : f1.internal = f.internal := by
      cases keep with
      | true => exact Except.ok.inj hrun1 ▸ rfl
      | false => exact (fomoForget_ok hrun1).2
    rw [hi] at hrun2
    exact ⟨none, hlast hrun2⟩
  | remap a b =>
    obtain ⟨f2, hrun2, heq⟩ := map_eq_ok.mp hrun
    obtain ⟨rfl, _⟩ := Prod.mk.inj heq
    change fomoRemap P f a b = .ok f2 at hrun2
    rw [fomoRemap_bind] at hrun2
    obtain ⟨f1, hrun1, hrun2⟩ := bind_eq_ok.mp hrun2
    obtain ⟨f3, hrun3, hrun2⟩ := bind_eq_ok.mp hrun2
    rw [(fomoRename_ok hrun3).2, (fomoForget_ok hrun1).2] at hrun2
    exact ⟨none, hlast hrun2⟩

/-- What the internal policy keeps, FOMO keeps of it. -/
theorem fomo_keeps_internal (h : P.Keeps I) (hi : I f.internal)
    (hreach : (fomoSystem P).Reachable f f') : I f'.internal := by
  apply hreach.invariant hi
  intro g c g' x hg _ hstep
  by_cases hc : ∃ o w result, c = .map o w result
  · obtain ⟨o, w, result, rfl⟩ := hc
    obtain ⟨res, _, hmap⟩ := Policy.call_map.mp hstep
    exact fomoMap_internal (w := w) h hg hmap
  · obtain ⟨y, hcall⟩ := fomoCall_passed
      (fun o w result heq => hc ⟨o, w, result, heq⟩) hstep
    exact h.call hg hcall

end Fomo
