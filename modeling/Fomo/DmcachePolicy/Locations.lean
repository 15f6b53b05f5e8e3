import Fomo.DmcachePolicy.MarcLocates
import Fomo.DmcachePolicy.WrapperLocates

/-!
# One location per block (`dmcache_policy/dmcache_policy_registry.h`)

The location of a cached block is computed by a lookup, by the short-cut of a request that the
policy is not asked about, and by the policy. A lookup stores nothing, and under a wrapper the
short-cut looks for the entry in a pool that does not own it; everywhere else they agree.
-/
namespace Fomo

/-- The policies of the registry that are looked at here: all but LIRS, whose hits name no slot,
and the wrappers FOMO and m* over LRU only. LFU carries the content of the transaction it leaves
uninitialised. -/
inductive CoveredPolicy
  | lru
  | lfu (lt : LfuTransaction)
  | arc
  | larc
  | marc
  | fomoLru
  | mstarLru (adaptive : Bool)

namespace CoveredPolicy

def State : CoveredPolicy → Type
  | lru => LruPolicy
  | lfu _ => LfuPolicy
  | arc => ArcPolicy
  | larc => LarcPolicy
  | marc => MarcPolicy
  | fomoLru => FomoPolicy LruPolicy
  | mstarLru _ => MstarPolicy LruPolicy

def api : (k : CoveredPolicy) → Policy k.State
  | lru => lruApi
  | lfu lt => lfuApi lt
  | arc => arcApi
  | larc => larcApi
  | marc => marcApi
  | fomoLru => fomoApi lruApi
  | mstarLru _ => mstarApi lruApi

def create : (k : CoveredPolicy) → UInt32 → UInt32 → Exec k.State
  | lru => lruCreate
  | lfu _ => lfuCreate
  | arc => arcCreate
  | larc => larcCreate
  | marc => marcCreate
  | fomoLru => fun cacheSize metaSize => fomoCreate cacheSize metaSize lruCreate
  | mstarLru adaptive => fun cacheSize metaSize => mstarCreate cacheSize metaSize lruCreate adaptive

/-- Whether the entries lie in the pools of an internal policy. -/
def wraps : CoveredPolicy → Bool
  | lru | lfu _ | arc | larc => false
  | marc | fomoLru | mstarLru _ => true

/-- The heap of LFU answers for fewer than `2 ^ 31` slots, the others for any number. -/
def Answering (k : CoveredPolicy) (cacheSize : UInt32) : Prop :=
  match k with
  | lfu _ => cacheSize.toNat < 2 ^ 31
  | _ => True

end CoveredPolicy

theorem lruCreate_sized {c : UInt32} (s : LruPolicy) (hinit : lruCreate c c = .ok s) :
    s.Sized c.toNat := by
  obtain ⟨hinv, _, hn, _⟩ := lruInit_spec hinit
  exact ⟨hinv, hn⟩

/-- Each of these policies can be relied on from its creation on. -/
theorem CoveredPolicy.locates (k : CoveredPolicy) (c : UInt32) : ∃ I : k.State → Prop,
    k.api.Locates I k.wraps ∧ (k.Answering c → k.api.Answers I) ∧
      ∀ s, k.create c c = .ok s → I s := by
  cases k with
  | lru => exact ⟨_, lru_locates c.toNat, fun _ => lru_answers c.toNat, lruCreate_sized⟩
  | lfu lt =>
    refine ⟨_, lfu_locates lt c.toNat, fun hc => lfu_answers lt hc, fun s hs => ?_⟩
    exact ⟨(lfuInit_spec hs).1, (lfuInit_spec hs).2.1⟩
  | arc =>
    exact ⟨_, arc_locates c.toNat, fun _ => arc_answers c.toNat, fun s hs => arcCreate_sized hs⟩
  | larc =>
    exact ⟨_, larc_locates c.toNat, fun _ => larc_answers c.toNat,
      fun s hs => larcCreate_aimed hs⟩
  | marc =>
    exact ⟨_, marc_locates c.toNat, fun _ => marc_answers c.toNat,
      fun s hs => marcCreate_located hs⟩
  | fomoLru =>
    exact ⟨_, fomo_locates (lru_wrappable c.toNat), fun _ => fomo_answers (lru_wrappable c.toNat),
      fun s hs => fomoCreate_located lruCreate_sized hs⟩
  | mstarLru adaptive =>
    exact ⟨_, mstar_locates (lru_wrappable c.toNat),
      fun _ => mstar_answers (lru_wrappable c.toNat),
      fun s hs => mstarCreate_located lruCreate_sized hs⟩

variable {σ : Type} {P : Policy σ} {I : σ → Prop} {wraps : Bool} {d : DmcacheBase σ} {o : Oblock}
  {cb found : Cblock} {canBlock canMigrate : Bool} {bpResult : CacheNucleusResult}
  {result : PolicyResult}

variable (P) in
/-- A lookup of `o` returns 0 and leaves `cb` in the variable of the caller, which held `found`,
and a request for `o` completes with a hit in `cb`. -/
def DmcacheBase.Reports (d : DmcacheBase σ) (o : Oblock) (cb found : Cblock)
    (canBlock canMigrate : Bool) (bpResult : CacheNucleusResult) (result : PolicyResult) : Prop :=
  (∃ d', dmcacheBaseLookup P d o found = (d', cb, .ok)) ∧
    d.Hits P o cb canBlock canMigrate bpResult result

theorem Policy.Locates.reports_iff (h : P.Locates I wraps) (ha : P.Answers I) (hd : d.Ready I)
    (hc : (P.owner d.policy).Caches o cb) :
    d.Reports P o cb found canBlock canMigrate bpResult result ↔
      found = cb ∧ (wraps = true → ¬d.Skips P cb) := by
  have hlookup : (∃ d', dmcacheBaseLookup P d o found = (d', cb, .ok)) ↔ found = cb := by
    rw [h.lookup_eq hd hc]
    constructor
    · rintro ⟨d', heq⟩
      exact (Prod.mk.inj (Prod.mk.inj heq).2).1
    · rintro rfl
      exact ⟨d, rfl⟩
  exact and_congr hlookup (h.hits_iff ha hd hc)

/-- After any run, the location of a cached block is reported exactly when the caller of the lookup
knew it, and a wrapper is asked. LFU has too few slots for its heap to run in circles. -/
theorem one_location {k : CoveredPolicy} {c : UInt32} {useWb useTick : Bool}
    {d0 d : DmcacheBase k.State} (hinit : dmcacheBaseCreate k.api k.create c = .ok d0)
    (hk : k.Answering c)
    (hreach : (dmcacheSystem k.api (targetCalls k.api)).Reachable
      { d0 with useWb := useWb, useTick := useTick } d)
    (hc : (k.api.owner d.policy).Caches o cb) (found : Cblock) (canBlock canMigrate : Bool)
    (bpResult : CacheNucleusResult) (result : PolicyResult) :
    d.Reports k.api o cb found canBlock canMigrate bpResult result ↔
      found = cb ∧ (k.wraps = true → ¬d.Skips k.api cb) := by
  obtain ⟨I, hlocates, hanswers, h0⟩ := k.locates c
  exact hlocates.reports_iff (hanswers hk) (hlocates.reachable h0 hinit hreach) hc

/-- A block that came to the cache under FOMO and has been migrated. -/
theorem one_location_migrated : ∃ d0 d,
    dmcacheBaseCreate CoveredPolicy.fomoLru.api CoveredPolicy.fomoLru.create 2 = .ok d0 ∧
    (dmcacheSystem CoveredPolicy.fomoLru.api
      (targetCalls CoveredPolicy.fomoLru.api)).Reachable
      { d0 with useWb := false, useTick := false } d ∧
    d.Reports CoveredPolicy.fomoLru.api 5 1 1 true true {} {} := by
  have hinit : ∃ d0, dmcacheBaseCreate CoveredPolicy.fomoLru.api
        CoveredPolicy.fomoLru.create 2 = .ok d0 ∧
      (dmcacheSystem CoveredPolicy.fomoLru.api
        (targetCalls CoveredPolicy.fomoLru.api)).Admits
        { d0 with useWb := false, useTick := false } [.map 5 true true {} {}, .ioComplete 5] ∧
      ∃ d w1 w2, (dmcacheSystem CoveredPolicy.fomoLru.api
        (targetCalls CoveredPolicy.fomoLru.api)).exec
        { d0 with useWb := false, useTick := false } [.map 5 true true {} {}, .ioComplete 5] =
          .ok (d, [w1, w2]) ∧
        (CoveredPolicy.fomoLru.api.owner d.policy).Caches 5 1 ∧ d.useTick = false ∧
        ((CoveredPolicy.fomoLru.api.owner d.policy).entry ⟨.cache, 1⟩).migrating = false := by
    refine ⟨_, rfl, ?_, _, _, _, rfl, ⟨rfl, rfl⟩, rfl, rfl⟩
    exact And.intro trivial (And.intro trivial trivial)
  obtain ⟨d0, hinit, hadm, d, w1, w2, hexec, hc, htick, hm⟩ := hinit
  have hreach := (Lib.System.Run.of_exec hadm hexec).reachable
  refine ⟨d0, d, hinit, hreach,
    (one_location hinit trivial hreach hc 1 true true {} {}).mpr ⟨rfl, fun _ hskip => ?_⟩⟩
  rcases hskip with ⟨hx, _⟩ | hx
  · exact absurd (htick.symm.trans hx) (by decide)
  · exact absurd (hm.symm.trans hx) (by decide)

/-- Under FOMO a request for a block that is still migrating does not complete. -/
theorem one_location_migrating : ¬∀ (k : CoveredPolicy) (c : UInt32) (useWb useTick : Bool)
    (d0 d : DmcacheBase k.State) (o : Oblock) (cb found : Cblock) (canBlock canMigrate : Bool)
    (bpResult : CacheNucleusResult) (result : PolicyResult),
    dmcacheBaseCreate k.api k.create c = .ok d0 →
    (dmcacheSystem k.api (targetCalls k.api)).Reachable
      { d0 with useWb := useWb, useTick := useTick } d →
    (k.api.owner d.policy).Caches o cb →
    d.Reports k.api o cb found canBlock canMigrate bpResult result := by
  intro hall
  have hinit : ∃ d0, dmcacheBaseCreate CoveredPolicy.fomoLru.api
        CoveredPolicy.fomoLru.create 2 = .ok d0 ∧
      (dmcacheSystem CoveredPolicy.fomoLru.api
        (targetCalls CoveredPolicy.fomoLru.api)).Admits
        { d0 with useWb := false, useTick := false } [.map 5 true true {} {}] ∧
      ∃ d w1, (dmcacheSystem CoveredPolicy.fomoLru.api
        (targetCalls CoveredPolicy.fomoLru.api)).exec
        { d0 with useWb := false, useTick := false } [.map 5 true true {} {}] = .ok (d, [w1]) ∧
        (CoveredPolicy.fomoLru.api.owner d.policy).Caches 5 1 ∧
        dmcacheBaseMap CoveredPolicy.fomoLru.api d 5 true true {} {} = .error .assertion := by
    refine ⟨_, rfl, ?_, _, _, rfl, ⟨rfl, rfl⟩, rfl⟩
    exact And.intro trivial trivial
  obtain ⟨d0, hinit, hadm, d, w1, hexec, hc, hfault⟩ := hinit
  have hreach := (Lib.System.Run.of_exec hadm hexec).reachable
  obtain ⟨_, d', res, hrun, _⟩ :=
    hall .fomoLru 2 false false d0 d 5 1 1 true true {} {} hinit hreach hc
  cases hfault.symm.trans hrun

end Fomo
