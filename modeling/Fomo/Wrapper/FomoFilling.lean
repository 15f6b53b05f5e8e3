import Fomo.Wrapper.PolicyRegistry
import Fomo.Algs.LruSteps
import Fomo.Algs.ArcStructure

/-!
# FOMO and a cache that is still filling

At the end of a period FOMO asks whether the cache pool of the internal policy's own nucleus is
full. For the base policies that is their cache. mARC keeps its cache in the ARC it wraps and
its own pool is empty, so FOMO judges it from the first period on.
-/
namespace Fomo

open FomoPolicy

namespace InternalPolicy

variable {k : InternalPolicy}

/-- Only mARC does not store its cache in its own nucleus. -/
theorem cacheIsFull_eq (hk : k ≠ .marc) (s : k.State) :
    cacheIsFull (k.api.nucleus s) = k.api.cacheIsFull s := by
  cases k with
  | marc => exact absurd rfl hk
  | _ => rfl

/-- In every state FOMO can take mARC to, its own cache pool is empty. -/
theorem marc_cacheIsFull {c m : UInt32} {f0 f : FomoPolicy MarcPolicy}
    (hinit : fomoCreate c m marcCreate = .ok f0)
    (hreach : (fomoSystem marcApi).Reachable f0 f) : cacheIsFull f.internal.nucleus = true := by
  obtain ⟨marc, hmarc, hfomo⟩ := bind_eq_ok.mp hinit
  obtain ⟨arc, _, hmarc⟩ := bind_eq_ok.mp hmarc
  have hghosts := (marcInit_ghosts hmarc).1
  rw [fomoInit_eq] at hfomo
  have h0 : f0.internal.Ghosts c.toNat := Except.ok.inj hfomo ▸ hghosts
  exact (fomo_keeps_internal (marc_keeps c.toNat) h0 hreach).cacheIsFull

end InternalPolicy

variable {k : InternalPolicy} {c m : UInt32} {f0 f f' : FomoPolicy k.State} {o : Oblock} {w : Bool}
  {result res : CacheNucleusResult}

/-- While the cache of the internal policy fills, FOMO keeps its state exactly when the
internal policy is not mARC, or the request does not end a period, or the counts of the
period with this request ask for no other state, or mARC would refuse the request. -/
theorem fomo_keeps_state_filling (hinit : fomoCreate c m k.create = .ok f0)
    (hreach : (fomoSystem k.api).Reachable f0 f)
    (hmap : fomoMap k.api f o w result = .ok (f', res)) :
    (k.api.cacheIsFull f.internal = false → f'.state = f.state) ↔
      (k = .marc → k.api.cacheIsFull f.internal = false → f.atBoundary →
        fomoVote f.periodSize (f.stagedCHits k.api o) (f.stagedMhHits o) f.state = f.state ∨
          fomoLegal k.api f o = false) := by
  have hans := fomoMap_answered hmap
  -- a request that is refused leaves the state, any other one moves to the staged state
  have hstate : f'.state = if fomoLegal k.api f o then f.stagedState k.api o else f.state := by
    cases hans with
    | filtered hf hst hi =>
      rw [if_pos ((fomoLegal_eq _ _ _).mpr (Or.inl hf)), hst]
    | refused hf hv hst hres =>
      rw [if_neg, hst]
      intro hlegal
      rcases (fomoLegal_eq _ _ _).mp hlegal with hx | ⟨i, op, v, hv', hop⟩
      · exact hf hx
      · rw [hv] at hv'
        obtain ⟨_, rfl, _⟩ := by simpa using hv'
        exact hop rfl
    | admitted hf hv hop hm hst =>
      rw [if_pos ((fomoLegal_eq _ _ _).mpr (Or.inr ⟨_, _, _, hv, hop⟩)), hst]
  by_cases hk : k = .marc
  · subst hk
    have hfull : cacheIsFull (InternalPolicy.marc.api.nucleus f.internal) = true :=
      InternalPolicy.marc_cacheIsFull hinit hreach
    have hst : f.stagedState InternalPolicy.marc.api o = if f.atBoundary then
        fomoVote f.periodSize (f.stagedCHits InternalPolicy.marc.api o) (f.stagedMhHits o) f.state
        else f.state := by
      unfold stagedState
      rw [hfull]
      simp
    rw [hstate, hst]
    cases hl : fomoLegal InternalPolicy.marc.api f o with
    | false => simp
    | true => by_cases hb : f.atBoundary <;> simp [hb]
  · refine iff_of_true (fun hfull => ?_) fun hx => absurd hx hk
    have hst : f.stagedState k.api o = f.state := by
      unfold stagedState
      rw [InternalPolicy.cacheIsFull_eq hk, hfull]
      simp
    rw [hstate, hst]
    split <;> rfl

/-! ## First requests -/

/-- FOMO as `fomo_create` leaves it over an internal policy of ten blocks. -/
def fomoFresh {σ : Type} (i : σ) : FomoPolicy σ where
  nucleus := freshNucleus 0 10 fun p => if p = .metadata then 10 else 0
  fomoMh := []
  ghostSize := 10
  internal := i
  state := .insert
  counter := 0
  periodSize := 1
  cHits := 0
  mhHits := 0
  mhHitsTotal := 0

def lruFresh : LruPolicy where
  nucleus := freshNucleus 10 0 fun p => if p = .cache then 10 else 0
  lruQ := []

/-- FOMO over an empty LRU cache keeps inserting. -/
theorem fomo_keeps_state_filling_lru : ∃ f' res,
    fomoCreate 10 10 InternalPolicy.lru.create = .ok (fomoFresh lruFresh) ∧
    fomoMap lruApi (fomoFresh lruFresh) 1 false {} = .ok (f', res) ∧
    lruApi.cacheIsFull lruFresh = false ∧ f'.state = .insert := by
  have hlru : InternalPolicy.lru.create 10 10 = .ok lruFresh := lruInit_eq 10
  have hinit : fomoCreate 10 10 InternalPolicy.lru.create = .ok (fomoFresh lruFresh) :=
    fomoCreate_eq hlru
  obtain ⟨f', res, hmap⟩ : ∃ f' res,
      fomoMap lruApi (fomoFresh lruFresh) 1 false {} = .ok (f', res) := ⟨_, _, rfl⟩
  have hfull : lruApi.cacheIsFull lruFresh = false := rfl
  have hiff := fomo_keeps_state_filling (k := .lru) hinit (Lib.System.Reachable.refl _ _) hmap
  exact ⟨f', res, hinit, hmap, hfull, hiff.mpr (fun hk => by cases hk) hfull⟩

def arcFresh : ArcPolicy where
  nucleus := freshNucleus 10 10 (arcPools 10 10)
  arcQ := fun _ => []
  p := 0
  length := fun _ => 0
  loc := fun _ => .t1

def marcFresh : MarcPolicy where
  nucleus := freshNucleus 0 10 (marcPools 10)
  internal := arcFresh
  tabu := 10
  tabuCounter := 20
  state := .unstable
  ghostQ := []
  ghostSize := 10
  ghostHits := 0
  ghostHitsOld := 0
  sample := Tools.windowStatsInit 10
  sampleAvg := Tools.windowStatsInit 1
  phaseHits := 0
  phaseIos := 0

theorem marcCreate_fresh : marcCreate 10 10 = .ok marcFresh := by
  rw [marcCreate, arcCreate_eq, ok_bind, marcInit_eq]
  rfl

/-- The first request of FOMO over an empty mARC turns FOMO to filtering. -/
theorem fomo_keeps_state_filling_marc : ¬∀ (k : InternalPolicy) (c m : UInt32)
    (f0 f f' : FomoPolicy k.State) (o : Oblock) (w : Bool) (result res : CacheNucleusResult),
    fomoCreate c m k.create = .ok f0 → (fomoSystem k.api).Reachable f0 f →
    fomoMap k.api f o w result = .ok (f', res) → k.api.cacheIsFull f.internal = false →
    f'.state = f.state := by
  intro hall
  have hmarc : InternalPolicy.marc.create 10 10 = .ok marcFresh := marcCreate_fresh
  have hinit : fomoCreate 10 10 InternalPolicy.marc.create = .ok (fomoFresh marcFresh) :=
    fomoCreate_eq hmarc
  obtain ⟨f', res, hmap, hst⟩ : ∃ f' res,
      fomoMap marcApi (fomoFresh marcFresh) 1 false {} = .ok (f', res) ∧ f'.state = .filter :=
    ⟨_, _, rfl, rfl⟩
  have hsame : f'.state = .insert :=
    hall .marc 10 10 (fomoFresh marcFresh) (fomoFresh marcFresh) f' 1 false {} res hinit
      (Lib.System.Reachable.refl _ _) hmap rfl
  rw [hst] at hsame
  cases hsame

end Fomo
