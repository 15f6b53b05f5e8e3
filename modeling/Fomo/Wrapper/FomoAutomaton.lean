import Fomo.Wrapper.FomoInvariant
import Fomo.Wrapper.FomoAdmission
import Fomo.Lib.Window

/-!
# The reference automaton of FOMO

The automaton keeps the whole log of committed requests, with one bit for a cached
oblock and one for a remembered one, and votes on the last `p` of them whenever a period
ends over a full cache. The staged, scaled and reset counters of FOMO compute the same
states.
-/
namespace Fomo

open FomoPolicy

/-- What a committed request found: its oblock cached, its oblock remembered. -/
structure Found where
  cached : Bool
  remembered : Bool
  deriving DecidableEq

/-- The committed requests of these that found their oblock cached. -/
def cachedHits (log : List Found) : Nat := log.countP Found.cached

def historyHits (log : List Found) : Nat := log.countP Found.remembered

/-- The vote on one period of `p` requests. -/
def periodVote (p : Nat) (period : List Found) : FomoState → FomoState
  | .filter =>
    if 20 * historyHits period > p ∧ cachedHits period < historyHits period then .insert
    else .filter
  | .insert => if cachedHits period ≥ historyHits period then .filter else .insert

structure Automaton where
  state : FomoState := .insert
  log : List Found := []

/-- A committed request; `full` says whether the cache has no free entry. -/
def Automaton.commit (p : Nat) (a : Automaton) (found : Found) (full : Bool) : Automaton where
  state :=
    if (a.log.length + 1) % p = 0 ∧ full then periodVote p ((a.log ++ [found]).rtake p) a.state
    else a.state
  log := a.log ++ [found]

variable {σ : Type} {P : Policy σ} {f f' : FomoPolicy σ} {o : Oblock} {p : Nat} {a : Automaton}

/-- What the request for `o` finds. -/
def found (P : Policy σ) (f : FomoPolicy σ) (o : Oblock) : Found where
  cached := (P.cacheLookup f.internal o).isSome
  remembered := decide (o ∈ f.history)

/-- The automaton beside FOMO: it moves on committed requests alone. -/
def Automaton.observe (P : Policy σ) (p : Nat) (f : FomoPolicy σ) (c : Call) (a : Automaton) :
    Automaton :=
  match c with
  | .map o _ _ =>
    if fomoLegal P f o then a.commit p (found P f o) (cacheIsFull (P.nucleus f.internal)) else a
  | _ => a

def fomoObserved (P : Policy σ) (p : Nat) :
    Lib.System (FomoPolicy σ × Automaton) Call (Option CacheNucleusResult) Fault :=
  (fomoSystem P).ghost fun f c _ _ a => a.observe P p f c

/-- The counters of FOMO are the hits of the period under way. -/
structure Simulates (p : Nat) (f : FomoPolicy σ) (a : Automaton) : Prop where
  inv : f.Inv
  period_pos : 0 < p
  periodSize : f.periodSize = p
  state : f.state = a.state
  counter : f.counter = a.log.length % p
  cHits : f.cHits = 1000 * cachedHits (Lib.window p a.log)
  mhHits : f.mhHits = 1000 * historyHits (Lib.window p a.log)

theorem found_eq (h : f.Inv) : found P f o = ⟨f.cached P o, f.remembered o⟩ := by
  have hrem : decide (o ∈ f.history) = f.remembered o := by
    rw [Bool.eq_iff_iff, decide_eq_true_eq, remembered_iff h]
  rw [found, hrem]
  rfl

@[simp] theorem cachedHits_concat (log : List Found) (x : Found) :
    cachedHits (log ++ [x]) = cachedHits log + if x.cached then 1 else 0 := by
  cases hx : x.cached <;> simp [cachedHits, List.countP_append, hx]

@[simp] theorem historyHits_concat (log : List Found) (x : Found) :
    historyHits (log ++ [x]) = historyHits log + if x.remembered then 1 else 0 := by
  cases hx : x.remembered <;> simp [historyHits, List.countP_append, hx]

@[simp] theorem cachedHits_nil : cachedHits [] = 0 := rfl

@[simp] theorem historyHits_nil : historyHits [] = 0 := rfl

/-- Votes on thousandths are votes on counts. -/
theorem fomoVote_eq (p : Nat) (period : List Found) (s : FomoState) :
    fomoVote p (1000 * cachedHits period) (1000 * historyHits period) s =
      periodVote p period s := by
  have h1 : 1000 * historyHits period > 50 * p ↔ 20 * historyHits period > p := by omega
  have h2 : 1000 * cachedHits period < 1000 * historyHits period ↔
      cachedHits period < historyHits period := by omega
  have h3 : 1000 * cachedHits period ≥ 1000 * historyHits period ↔
      cachedHits period ≥ historyHits period := by omega
  cases s
  · simp only [fomoVote, periodVote, h1, h2]
  · simp only [fomoVote, periodVote, h3]

theorem Simulates.atBoundary_iff (h : Simulates p f a) :
    f.atBoundary ↔ (a.log.length + 1) % p = 0 := by
  rw [FomoPolicy.atBoundary, h.periodSize, h.counter, Nat.mod_add_mod]

theorem Simulates.stagedCHits (h : Simulates p f a) :
    f.stagedCHits P o = 1000 * cachedHits (Lib.window p a.log ++ [found P f o]) := by
  rw [FomoPolicy.stagedCHits, h.cHits, cachedHits_concat, found_eq h.inv]
  cases f.cached P o
  · simp
  · simp only [if_true]; omega

theorem Simulates.stagedMhHits (h : Simulates p f a) :
    f.stagedMhHits o = 1000 * historyHits (Lib.window p a.log ++ [found P f o]) := by
  rw [FomoPolicy.stagedMhHits, h.mhHits, historyHits_concat, found_eq h.inv]
  cases f.remembered o
  · simp
  · simp only [if_true]; omega

/-- The staged state is the automaton's next state. -/
theorem Simulates.stagedState (h : Simulates p f a) : f.stagedState P o =
    (a.commit p (found P f o) (cacheIsFull (P.nucleus f.internal))).state := by
  rw [FomoPolicy.stagedState, Automaton.commit, h.stagedCHits, h.stagedMhHits, h.periodSize,
    fomoVote_eq, h.state]
  simp only [h.atBoundary_iff]
  by_cases hb : (a.log.length + 1) % p = 0
  · rw [Lib.rtake_concat_of_boundary h.period_pos hb]
  · simp only [hb, false_and, if_false]

/-- The step lemma: a commit of FOMO is a commit of the automaton. -/
theorem Simulates.commit (h : Simulates p f a) (hc : Commits P f o f') : Simulates p f'
    (a.commit p (found P f o) (cacheIsFull (P.nucleus f.internal))) := by
  have hbound := h.atBoundary_iff
  constructor
  · exact hc.inv
  · exact h.period_pos
  · exact hc.periodSize.trans h.periodSize
  · exact hc.state.trans h.stagedState
  · rw [hc.counter, Automaton.commit, List.length_append, List.length_singleton]
    by_cases hb : (a.log.length + 1) % p = 0
    · rw [if_pos (hbound.mpr hb), hb]
    · rw [if_neg (fun hx => hb (hbound.mp hx)), h.counter, Lib.succ_mod_of_ne_zero hb]
  · rw [hc.cHits, Automaton.commit]
    by_cases hb : (a.log.length + 1) % p = 0
    · rw [if_pos (hbound.mpr hb), Lib.window_concat_of_boundary hb]
      rfl
    · rw [if_neg (fun hx => hb (hbound.mp hx)), Lib.window_concat hb, h.stagedCHits]
  · rw [hc.mhHits, Automaton.commit]
    by_cases hb : (a.log.length + 1) % p = 0
    · rw [if_pos (hbound.mpr hb), Lib.window_concat_of_boundary hb]
      rfl
    · rw [if_neg (fun hx => hb (hbound.mp hx)), Lib.window_concat hb, h.stagedMhHits]

/-- How a request ends, in terms of its legality. -/
theorem fomoMap_legal (h : f.Inv) {w : Bool} {result res : CacheNucleusResult}
    (hmap : fomoMap P f o w result = .ok (f', res)) :
    (fomoLegal P f o = false ∧ res = { result with op := .fail } ∧
      f' = { f with internal := f'.internal }) ∨
    (fomoLegal P f o = true ∧ Commits P f o f' ∧
      if f.filters P o then res = { result with op := .filter } ∧ f'.internal = f.internal
      else HandedOver P f o result f' res) := by
  have hcase := fomoMap_case (P := P) h o w result
  rw [hmap] at hcase
  cases hcase with
  | filtered hf hc hi =>
    right
    exact ⟨(fomoLegal_eq P f o).mpr (Or.inl hf), hc, by rw [if_pos hf]; exact ⟨rfl, hi⟩⟩
  | refused hf hv =>
    left
    refine ⟨?_, rfl, rfl⟩
    rw [← Bool.not_eq_true, fomoLegal_eq, not_or]
    exact ⟨hf, by simp [hv]⟩
  | admitted hf hv hop hm hc hi =>
    right
    subst hi
    refine ⟨(fomoLegal_eq P f o).mpr (Or.inr ⟨_, _, _, hv, hop⟩), hc, ?_⟩
    rw [if_neg hf]
    exact ⟨_, _, _, hv, hm⟩

/-- Every answered call of FOMO is matched by the automaton. -/
theorem Simulates.call (h : Simulates p f a) {c : Call} {w : Option CacheNucleusResult}
    (hcall : (fomoApi P).call f c = .ok (f', w)) : Simulates p f' (a.observe P p f c) := by
  have hcase := fomoCall_case (P := P) h.inv c
  cases c with
  | map o wr result =>
    obtain ⟨res, _, hmap⟩ := Policy.call_map.mp hcall
    rcases fomoMap_legal (w := wr) h.inv hmap with ⟨hlegal, _, hf'⟩ | ⟨hlegal, hc, _⟩
    · simp only [Automaton.observe, hlegal, Bool.false_eq_true, if_false]
      rw [hf']
      exact ⟨h.inv.congr rfl rfl rfl, h.period_pos, h.periodSize, h.state, h.counter, h.cHits,
        h.mhHits⟩
    · simp only [Automaton.observe, hlegal, if_true]
      exact h.commit hc
  | _ =>
    rw [hcall] at hcase
    cases hcase with
    | settled _ hs =>
      exact ⟨hs.inv, h.period_pos, hs.periodSize.trans h.periodSize, hs.state.trans h.state,
        hs.counter.trans h.counter, hs.cHits.trans h.cHits, hs.mhHits.trans h.mhHits⟩

/-- FOMO computes the states of its reference automaton: after every run the counters are
the hits of the period under way, in thousandths; a refused request changes nothing, and
a committed one is filtered or admitted under the automaton's next state. -/
theorem fomo_automaton {cacheSize : UInt32} (hsize : 0 < cacheSize.toNat) {i : σ}
    {f0 : FomoPolicy σ} (hinit : fomoInit cacheSize i = .ok f0)
    {t : List (Call × Option CacheNucleusResult)} (hp : p = max (cacheSize.toNat / 100) 1)
    (hrun : (fomoObserved P p).Run (f0, {}) t (f, a)) :
    f.state = a.state ∧ f.counter = a.log.length % p ∧
    f.cHits = 1000 * cachedHits (a.log.rtake (a.log.length % p)) ∧
    f.mhHits = 1000 * historyHits (a.log.rtake (a.log.length % p)) ∧
    ∀ o w result f' res, fomoMap P f o w result = .ok (f', res) →
      (fomoLegal P f o = false → res = { result with op := .fail } ∧
        f' = { f with internal := f'.internal }) ∧
      (fomoLegal P f o = true →
        f'.state = (a.commit p (found P f o) (cacheIsFull (P.nucleus f.internal))).state ∧
        if (found P f o).cached = false ∧ (found P f o).remembered = false ∧ f'.state = .filter
        then res = { result with op := .filter } ∧ f'.internal = f.internal
        else HandedOver P f o result f' res) := by
  obtain ⟨hinv0, _, _, _, hst0, hcnt0, hper0, hc0, hm0⟩ := fomoInit_spec hsize hinit
  have h0 : Simulates p f0 {} := by
    refine ⟨hinv0, by omega, hper0.trans hp.symm, hst0, ?_, ?_, ?_⟩
    · rw [hcnt0]; exact (Nat.zero_mod p).symm
    · rw [hc0]; simp [Lib.window, cachedHits]
    · rw [hm0]; simp [Lib.window, historyHits]
  have h : Simulates p f a := by
    refine hrun.invariant (I := fun x => Simulates p x.1 x.2) h0 fun {x c y w} hx _ hstep => ?_
    obtain ⟨hcall, hghost⟩ := Lib.System.ghost_step.mp hstep
    rw [hghost]
    exact hx.call hcall
  refine ⟨h.state, h.counter, h.cHits, h.mhHits, fun o w result f' res hmap => ?_⟩
  rcases fomoMap_legal h.inv hmap with ⟨hlegal, hres, hf'⟩ | ⟨hlegal, hc, hend⟩
  · exact ⟨fun _ => ⟨hres, hf'⟩, fun hl => by rw [hlegal] at hl; simp at hl⟩
  · refine ⟨fun hl => by rw [hlegal] at hl; simp at hl, fun _ => ⟨?_, ?_⟩⟩
    · exact hc.state.trans h.stagedState
    · rw [found_eq h.inv, hc.state]
      exact hend

/-- Two requests of FOMO over LRU, each a period of its own. -/
theorem fomo_automaton_lru : ∃ (lru : LruPolicy) (f0 f : FomoPolicy LruPolicy) (a : Automaton)
    (t : List (Call × Option CacheNucleusResult)), lruInit 2 = .ok lru ∧
    fomoInit 2 lru = .ok f0 ∧ (fomoObserved lruApi 1).Run (f0, {}) t (f, a) ∧
    a.log = [⟨false, false⟩, ⟨true, true⟩] ∧ f.state = a.state ∧
    f.counter = a.log.length % 1 := by
  have hlru := lruInit_eq 2
  generalize hs : ({ nucleus := _, lruQ := [] } : LruPolicy) = lru at hlru
  have hinit := fomoInit_eq 2 lru
  generalize hf0 : FomoPolicy.mk _ _ _ _ _ _ _ _ _ _ = f0 at hinit
  obtain ⟨f, a, w, w', hexec, hlog⟩ : ∃ f a w w', (fomoObserved lruApi 1).exec (f0, {})
      [.map 1 false {}, .map 1 true {}] = .ok ((f, a), [w, w']) ∧
      a.log = [⟨false, false⟩, ⟨true, true⟩] := by
    subst hf0 hs
    exact ⟨_, _, _, _, rfl, rfl⟩
  have hrun := Lib.System.Run.of_exec (Lib.System.admits_of_exec (fun _ _ _ => trivial) hexec) hexec
  obtain ⟨hst, hcnt, _⟩ := fomo_automaton (by decide) hinit (by decide) hrun
  exact ⟨_, _, _, _, _, hlru, hinit, hrun, hlog, hst, hcnt⟩

end Fomo
