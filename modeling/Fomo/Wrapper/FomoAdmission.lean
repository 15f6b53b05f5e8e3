import Fomo.Wrapper.FomoInvariant

/-!
# The admission filter

While FOMO filters, a miss is remembered and kept from the internal policy, and only
what is cached or remembered gets through. A remembered oblock stays so until
`ghost_size` others have been inserted after it.
-/
namespace Fomo

open FomoPolicy

variable {σ : Type} {P : Policy σ} {f f' : FomoPolicy σ} {o : Oblock}

/-- The request runs the internal policy's map. -/
def ReachesMap (P : Policy σ) (f : FomoPolicy σ) (o : Oblock) : Prop :=
  fomoLegal P f o = true ∧ (fomoStaged P f o).filter = false

/-- `f'` and `res` are what the internal policy's map of `o` left and answered. -/
def HandedOver (P : Policy σ) (f : FomoPolicy σ) (o : Oblock) (result : CacheNucleusResult)
    (f' : FomoPolicy σ) (res : CacheNucleusResult) : Prop :=
  ∃ i op victim, P.nextVictim f.internal o = .ok (i, op, victim) ∧
    P.map i o false { result with op := .fail } = .ok (f'.internal, res)

/-- Every request leaves FOMO filtering. -/
def staysFiltering (P : Policy σ) (f : FomoPolicy σ) : Call → Prop
  | .map o w result => ∀ f' res, fomoMap P f o w result = .ok (f', res) → f'.state = .filter
  | _ => True

/-- The call is no request for `o`, and neither removes nor remaps it. -/
def spares (o : Oblock) : Call → Prop
  | .map a _ _ => a ≠ o
  | .remove a keep => keep = true ∨ a ≠ o
  | .remap a b => a ≠ o ∧ b ≠ o
  | _ => True

/-- Counts the requests that inserted their oblock into the history. -/
def countInsertion (f : FomoPolicy σ) (c : Call) (f' : FomoPolicy σ)
    (_ : Option CacheNucleusResult) (n : Nat) : Nat :=
  match c with
  | .map a _ _ => if a ∉ f.history ∧ a ∈ f'.history then n + 1 else n
  | _ => n

/-- FOMO while it filters and `o` is left alone, with the insertions counted. -/
def filterSegment (P : Policy σ) (o : Oblock) :
    Lib.System (FomoPolicy σ × Nat) Call (Option CacheNucleusResult) Fault :=
  ((fomoApi P).system fun f c => staysFiltering P f c ∧ spares o c).ghost countInsertion

theorem reachesMap_iff : ReachesMap P f o ↔ ¬f.filters P o ∧ ∃ i op victim,
    P.nextVictim f.internal o = .ok (i, op, victim) ∧ op ≠ .fail := by
  have hfilter : (fomoStaged P f o).filter = false ↔ ¬f.filters P o := by
    rw [fomoStaged_eq]
    simp
  rw [ReachesMap, hfilter, fomoLegal_eq]
  constructor
  · rintro ⟨hf | hv, hn⟩
    · exact absurd hf hn
    · exact ⟨hn, hv⟩
  · rintro ⟨hn, hv⟩
    exact ⟨Or.inr hv, hn⟩

/-- Insertions of other oblocks push `o` towards the old end, one place each. -/
theorem holds_historyStep {n k : Nat} {a : Oblock} {cHit mhHit : Bool} {h : List Oblock}
    (hh : Lib.Holds o n h) (ha : a ≠ o) (hn : cHit = false → mhHit = false → n + 1 < k) :
    Lib.Holds o (if cHit = false ∧ mhHit = false then n + 1 else n)
      (historyStep k .filter cHit mhHit a h) := by
  cases cHit <;> cases mhHit <;> simp only [historyStep, Bool.false_eq_true, if_true, if_false,
    and_true, and_false, reduceCtorEq]
  · exact hh.remember (hn rfl rfl)
  · exact hh.erase ha
  · exact hh
  · exact hh.erase ha

theorem holds_callHistory {n : Nat} {c : Call} {h : List Oblock} (hh : Lib.Holds o n h)
    (hc : spares o c) : Lib.Holds o n (callHistory c h) := by
  cases c with
  | map a w result => exact hh
  | remove a keep =>
    cases keep with
    | true => exact hh
    | false => exact hh.erase (by simpa [spares] using hc)
  | insert a cb => exact hh
  | migrated a => exact hh
  | remap a b => exact (hh.erase hc.2).map (if_neg hc.1.symm)
  | setTime t => exact hh

/-- A request that commits while FOMO filters inserts exactly the misses. -/
theorem mem_historyStep {k : Nat} {cHit mhHit : Bool} {h : List Oblock}
    (hm : mhHit = true ↔ o ∈ h) :
    (o ∉ h ∧ o ∈ historyStep k .filter cHit mhHit o h) ↔ cHit = false ∧ mhHit = false := by
  cases cHit <;> cases mhHit <;> simp only [historyStep, Lib.remember, Bool.false_eq_true,
    if_true, if_false, false_iff, true_iff] at hm ⊢
  · simp [hm]
  · simp [hm]
  · simp [hm]
  · simp [hm]

theorem holds_of_history_eq {n : Nat} {c : Call} {w : Option CacheNucleusResult}
    (hh : Lib.Holds o n f.history) (heq : f'.history = f.history) :
    Lib.Holds o (countInsertion f c f' w n) f'.history := by
  have hcount : countInsertion f c f' w n = n := by
    cases c <;> simp [countInsertion, heq]
  rw [hcount, heq]
  exact hh

/-- One step of a filter segment. -/
theorem holds_step {n k : Nat} {c : Call} {w : Option CacheNucleusResult} (h : f.Inv)
    (hk : f.ghostSize = k) (hcall : (fomoApi P).call f c = .ok (f', w))
    (hstay : staysFiltering P f c) (hspare : spares o c) (hh : Lib.Holds o n f.history)
    (hlt : countInsertion f c f' w n < k) :
    Lib.Holds o (countInsertion f c f' w n) f'.history := by
  have hcase := fomoCall_case (P := P) h c
  rw [hcall] at hcase
  have hcommit : ∀ {a : Oblock} {wr result res}, c = .map a wr result →
      fomoMap P f a wr result = .ok (f', res) → Commits P f a f' →
      Lib.Holds o (countInsertion f c f' w n) f'.history := by
    rintro a wr result res rfl hmap hc
    have hst : f.stagedState P a = .filter := hc.state ▸ hstay f' res hmap
    have hhist := hc.history
    rw [hst, hk] at hhist
    have hiff : (a ∉ f.history ∧ a ∈ f'.history) ↔
        f.cached P a = false ∧ f.remembered a = false := by
      rw [hhist]
      exact mem_historyStep (remembered_iff h)
    simp only [countInsertion, hiff] at hlt ⊢
    rw [hhist]
    refine holds_historyStep hh hspare fun h1 h2 => ?_
    rwa [if_pos ⟨h1, h2⟩] at hlt
  cases hcase with
  | @request a wr result f' res hm =>
    have hmap : fomoMap P f a wr result = .ok (f', res) := by
      obtain ⟨_, hres, hmap⟩ := Policy.call_map.mp hcall
      obtain rfl := Option.some.inj hres
      exact hmap
    cases hm with
    | filtered hf hc hi => exact hcommit rfl hmap hc
    | refused hf hv =>
      exact holds_of_history_eq hh rfl
    | admitted hf hv hop hm hc hi => exact hcommit rfl hmap hc
  | settled hc hs =>
    have hcount : countInsertion f c f' none n = n := by
      cases c <;> first | rfl | exact absurd rfl (hc _ _ _)
    rw [hcount, hs.history]
    exact holds_callHistory hh hspare

/-- `o` stays remembered over a filter segment with fewer than `ghost_size` insertions. -/
theorem holds_run {t : List (Call × Option CacheNucleusResult)} {n : Nat} (h : f.Inv)
    (hh : Lib.Holds o 0 f.history) (hrun : (filterSegment P o).Run (f, 0) t (f', n))
    (hn : n < f.ghostSize) : Lib.Holds o n f'.history := by
  have key := hrun.invariant (I := fun p => p.1.Inv ∧ p.1.ghostSize = f.ghostSize ∧
    (p.2 < f.ghostSize → Lib.Holds o p.2 p.1.history)) ⟨h, rfl, fun _ => hh⟩ ?_
  · exact key.2.2 hn
  · rintro ⟨a, n⟩ c ⟨b, m⟩ w ⟨hinv, hg, hholds⟩ ⟨hstay, hspare⟩ hstep
    obtain ⟨hcall, hm⟩ := Lib.System.ghost_step.mp hstep
    obtain rfl : m = countInsertion a c b w n := hm
    obtain ⟨hinv', hg', _⟩ := fomoCall_inv hinv hcall
    refine ⟨hinv', hg'.trans hg, fun hlt => ?_⟩
    have hle : n ≤ countInsertion a c b w n := by
      unfold countInsertion
      split
      · split <;> omega
      · omega
    exact holds_step hinv hg hcall hstay hspare (hholds (Nat.lt_of_le_of_lt hle hlt)) hlt

/-! ## The law -/

/-- A request that leaves FOMO filtering and is no hit of either kind is filtered, unless
it is refused. -/
theorem fomoMap_miss (h : f.Inv) {w : Bool} {result res : CacheNucleusResult}
    (hmap : fomoMap P f o w result = .ok (f', res)) (hst : f'.state = .filter)
    (hc : f.cached P o = false) (hm : o ∉ f.history) (hlegal : fomoLegal P f o = true) :
    res = { result with op := .filter } ∧ f'.internal = f.internal ∧ f'.Inv ∧
      f'.history = Lib.remember f.ghostSize f.history o := by
  have hmf : f.remembered o = false := by
    rw [← Bool.not_eq_true, remembered_iff h]
    exact hm
  have hcase := fomoMap_case (P := P) h o w result
  rw [hmap] at hcase
  cases hcase with
  | filtered hf hcm hi =>
    refine ⟨rfl, hi, hcm.inv, ?_⟩
    rw [hcm.history, hc, hmf]
    simp [historyStep]
  | refused hf hv =>
    rcases (fomoLegal_eq P f o).mp hlegal with hf' | ⟨i, op, v, hv', hop⟩
    · exact absurd hf' hf
    · rw [hv] at hv'
      obtain ⟨_, rfl, _⟩ := by simpa using hv'
      exact absurd rfl hop
  | admitted hf hv hop hm hcm hi =>
    exact absurd ⟨hc, hmf, hcm.state.symm.trans hst⟩ hf

/-- A miss that is not legal met a period boundary that would let it in; it fails and commits
nothing. -/
theorem fomoMap_illegal_miss (h : f.Inv) {w : Bool} {result res : CacheNucleusResult}
    (hmap : fomoMap P f o w result = .ok (f', res)) (hst : f'.state = .filter)
    (hc : f.cached P o = false) (hm : o ∉ f.history) (hlegal : fomoLegal P f o = false) :
    f.atBoundary ∧ f.stagedState P o = .insert ∧ res = { result with op := .fail } ∧
      ∃ i v, P.nextVictim f.internal o = .ok (i, .fail, v) ∧ f' = { f with internal := i } := by
  have hmf : f.remembered o = false := by
    rw [← Bool.not_eq_true, remembered_iff h]
    exact hm
  have hno : ¬fomoLegal P f o = true := by
    rw [hlegal]
    decide
  rw [fomoLegal_eq, not_or] at hno
  obtain ⟨hnf, hnv⟩ := hno
  have hcase := fomoMap_case (P := P) h o w result
  rw [hmap] at hcase
  cases hcase with
  | filtered hf hcm hi => exact absurd hf hnf
  | @refused i v hf hv =>
    have hins : f.stagedState P o = .insert := by
      cases hs : f.stagedState P o with
      | insert => rfl
      | filter => exact absurd ⟨hc, hmf, hs⟩ hf
    refine ⟨?_, hins, rfl, i, v, hv, rfl⟩
    by_contra hb
    rw [stagedState, if_neg fun hx => hb hx.1] at hins
    have hst : f.state = .filter := hst
    rw [hst] at hins
    cases hins
  | admitted hf hv hop hm hcm hi => exact absurd ⟨_, _, _, hv, hop⟩ hnv

/-- A legal history hit while FOMO filters leaves the history and reaches the internal
policy. -/
theorem fomoMap_history_hit (h : f.Inv) {w : Bool} {result res : CacheNucleusResult}
    (hmap : fomoMap P f o w result = .ok (f', res)) (hst : f'.state = .filter)
    (hm : o ∈ f.history) (hlegal : fomoLegal P f o = true) :
    o ∉ f'.history ∧ ReachesMap P f o ∧ HandedOver P f o result f' res := by
  have hmt := (remembered_iff h).mpr hm
  have hnf : ¬f.filters P o := fun hf => by
    have := hf.2.1
    simp [hmt] at this
  have hcase := fomoMap_case (P := P) h o w result
  rw [hmap] at hcase
  cases hcase with
  | filtered hf => exact absurd hf hnf
  | refused hf hv =>
    rcases (fomoLegal_eq P f o).mp hlegal with hf' | ⟨i, op, v, hv', hop⟩
    · exact absurd hf' hf
    · rw [hv] at hv'
      obtain ⟨_, rfl, _⟩ := by simpa using hv'
      exact absurd rfl hop
  | admitted hf hv hop hmp hcm hi =>
    subst hi
    refine ⟨?_, reachesMap_iff.mpr ⟨hf, _, _, _, hv, hop⟩, _, _, _, hv, hmp⟩
    rw [hcm.history, ← hcm.state, hst, hmt]
    simp only [historyStep, if_true]
    split <;> exact h.history_nodup.not_mem_erase

/-- While FOMO filters: a legal miss is filtered, leaves the internal policy untouched and
becomes the most recent history entry; asked for again before `ghost_size` other
insertions it is a history hit, and if legal leaves the history for the internal policy;
a miss that is not legal, at a period boundary where it is staged under INSERT, fails and
commits nothing; and nothing reaches the internal policy's map but what was cached or
remembered. -/
theorem fomo_admission {cacheSize : UInt32} (hsize : 0 < cacheSize.toNat) {i : σ}
    {f0 f f1 : FomoPolicy σ} (hinit : fomoInit cacheSize i = .ok f0)
    (hreach : (fomoSystem P).Reachable f0 f) {o : Oblock} {w : Bool}
    {result res : CacheNucleusResult} (hmap : fomoMap P f o w result = .ok (f1, res))
    (hst : f1.state = .filter) :
    (f.cached P o = false → o ∉ f.history → fomoLegal P f o = true →
      res = { result with op := .filter } ∧ f1.internal = f.internal ∧
      f1.history.getLast? = some o ∧
      ∀ {t f2 n}, (filterSegment P o).Run (f1, 0) t (f2, n) → n < cacheSize.toNat →
        f2.cached P o = false → o ∈ f2.history ∧
        ∀ {w' result' f3 res'}, fomoMap P f2 o w' result' = .ok (f3, res') → f3.state = .filter →
          fomoLegal P f2 o = true →
          o ∉ f3.history ∧ ReachesMap P f2 o ∧ HandedOver P f2 o result' f3 res') ∧
    (f.cached P o = false → o ∉ f.history → fomoLegal P f o = false →
      f.atBoundary ∧ f.stagedState P o = .insert ∧ res = { result with op := .fail } ∧
      ∃ i v, P.nextVictim f.internal o = .ok (i, .fail, v) ∧ f1 = { f with internal := i }) ∧
    (ReachesMap P f o → f.cached P o = true ∨ o ∈ f.history) := by
  obtain ⟨t0, hrun0⟩ := hreach
  obtain ⟨hinv0, hghost0, _⟩ := fomoInit_spec hsize hinit
  obtain ⟨h, hghost, _⟩ := fomo_run_inv hinv0 hrun0
  rw [hghost0] at hghost
  refine ⟨fun hc hm hlegal => ?_, fomoMap_illegal_miss h hmap hst, fun hreach => ?_⟩
  · obtain ⟨hres, hi, h1, hhist⟩ := fomoMap_miss h hmap hst hc hm hlegal
    refine ⟨hres, hi, by simp [hhist, Lib.remember], fun {t f2 n} hrun hn _ => ?_⟩
    have hg1 : f1.ghostSize = cacheSize.toNat := by
      have hcall : (fomoApi P).call f (.map o w result) = .ok (f1, some res) :=
        Policy.call_map.mpr ⟨res, rfl, hmap⟩
      rw [(fomoCall_inv h hcall).2.1, hghost]
    have hholds := holds_run h1 (hhist ▸ Lib.holds_last o _) hrun (hg1 ▸ hn)
    have h2 : f2.Inv := (fomo_run_inv h1 hrun.unghost).1
    exact ⟨hholds.mem, fun {w' result' f3 res'} hmap' hst' hlegal' =>
      fomoMap_history_hit h2 hmap' hst' hholds.mem hlegal'⟩
  · obtain ⟨hnf, i', op, v, hv, hop⟩ := reachesMap_iff.mp hreach
    have hcase := fomoMap_case (P := P) h o w result
    rw [hmap] at hcase
    cases hcase with
    | filtered hf => exact absurd hf hnf
    | refused hf hv' =>
      rw [hv] at hv'
      obtain ⟨_, rfl, _⟩ := by simpa using hv'
      exact absurd rfl hop
    | admitted hf hv hop hm hcm hi =>
      by_contra hnone
      rw [not_or, ← remembered_iff h] at hnone
      simp only [Bool.not_eq_true] at hnone
      exact hf ⟨hnone.1, hnone.2, hcm.state.symm.trans hst⟩

/-- FOMO of 200 blocks over an LRU of one: the miss for 1 is remembered over a miss for 2
and handed to LRU when it is asked for again. -/
theorem fomo_admission_lru : ∃ (lru : LruPolicy) (f0 f1 f2 f3 : FomoPolicy LruPolicy)
    (res res' : CacheNucleusResult), lruInit 1 = .ok lru ∧
    fomoInit 200 lru = .ok f0 ∧ res.op = .filter ∧ f1.history.getLast? = some 1 ∧
    (∃ t n, (filterSegment lruApi 1).Run (f1, 0) t (f2, n) ∧
      t.map Prod.fst = [.map 2 false {}, .migrated 0]) ∧
    1 ∈ f2.history ∧ fomoMap lruApi f2 1 false {} = .ok (f3, res') ∧ 1 ∉ f3.history ∧
    HandedOver lruApi f2 1 {} f3 res' := by
  have hlru := lruInit_eq 1
  generalize hs : ({ nucleus := _, lruQ := [] } : LruPolicy) = lru at hlru
  have hinit := fomoInit_eq 200 lru
  generalize hf0 : FomoPolicy.mk _ _ _ _ _ _ _ _ _ _ = f0 at hinit
  obtain ⟨f, w, w', hexec, f1, res, hmap, hst, hc, hh, hlegal, hadm, f2, v, hexec2, hc2, f3, res',
      hmap3, hst3, hlegal3⟩ : ∃ f w w', (fomoSystem lruApi).exec f0
      [.map 0 false {}, .map 0 false {}] = .ok (f, [w, w']) ∧
      ∃ f1 res, fomoMap lruApi f 1 false {} = .ok (f1, res) ∧ f1.state = .filter ∧
      f.cached lruApi 1 = false ∧ f.history = [] ∧ fomoLegal lruApi f 1 = true ∧
      (filterSegment lruApi 1).Admits (f1, 0) [.map 2 false {}, .migrated 0] ∧
      ∃ f2 v, (filterSegment lruApi 1).exec (f1, 0) [.map 2 false {}, .migrated 0] =
        .ok ((f2, 1), [v, none]) ∧ f2.cached lruApi 1 = false ∧
      ∃ f3 res', fomoMap lruApi f2 1 false {} = .ok (f3, res') ∧ f3.state = .filter ∧
        fomoLegal lruApi f2 1 = true := by
    subst hf0 hs
    refine ⟨_, _, _, rfl, _, _, rfl, rfl, rfl, rfl, rfl, ?_, _, _, rfl, rfl, _, _, rfl, rfl, rfl⟩
    refine And.intro (And.intro (fun f' res h => ?_) (show (2 : Oblock) ≠ 1 by decide))
      (And.intro ⟨trivial, trivial⟩ trivial)
    exact (congrArg (fun x => match x with | .ok (g, _) => g.state | .error _ => .filter) h).symm
  have hrun := Lib.System.Run.of_exec (Lib.System.admits_of_exec (fun _ _ _ => trivial) hexec) hexec
  have hrun2 := Lib.System.Run.of_exec hadm hexec2
  obtain ⟨hfirst, _⟩ := fomo_admission (by decide) hinit hrun.reachable hmap hst
  obtain ⟨hres, _, hlast, hagain⟩ := hfirst hc (by simp [hh]) hlegal
  obtain ⟨hmem, hagain⟩ := hagain hrun2 (by decide) hc2
  obtain ⟨hno, _, hhand⟩ := hagain hmap3 hst3 hlegal3
  exact ⟨_, _, f1, f2, f3, res, res', hlru, hinit, by rw [hres], hlast, ⟨_, _, hrun2, rfl⟩, hmem,
    hmap3, hno, hhand⟩

/-- FOMO of 200 blocks over an LRU of one: with the only slot migrating, a miss that would
be admitted by the flip of the state at the end of a period is refused instead of filtered. -/
theorem fomo_refused_miss : ∃ lru f0 f f' res, lruInit 1 = .ok lru ∧ fomoInit 200 lru = .ok f0 ∧
    (fomoSystem lruApi).Reachable f0 f ∧ f.state = .filter ∧
    fomoMap lruApi f 3 false {} = .ok (f', res) ∧ f'.state = .filter ∧
    f.cached lruApi 3 = false ∧ 3 ∉ f.history ∧ res.op = .fail := by
  have hlru := lruInit_eq 1
  generalize hs : ({ nucleus := _, lruQ := [] } : LruPolicy) = lru at hlru
  have hinit := fomoInit_eq 200 lru
  generalize hf0 : FomoPolicy.mk _ _ _ _ _ _ _ _ _ _ = f0 at hinit
  obtain ⟨f, ws, hexec, f', res, hmap, hst, hst', hc, hh, hop⟩ : ∃ f ws,
      (fomoSystem lruApi).exec f0 [.map 0 false {}, .map 0 false {}, .map 1 false {},
        .map 2 false {}, .migrated 0, .map 1 false {}] = .ok (f, ws) ∧
      ∃ f' res, fomoMap lruApi f 3 false {} = .ok (f', res) ∧ f.state = .filter ∧
        f'.state = .filter ∧ f.cached lruApi 3 = false ∧ f.history = [2] ∧ res.op = .fail := by
    subst hf0 hs
    exact ⟨_, _, rfl, _, _, rfl, rfl, rfl, rfl, rfl, rfl⟩
  have hrun := Lib.System.Run.of_exec (Lib.System.admits_of_exec (fun _ _ _ => trivial) hexec) hexec
  refine ⟨_, _, f, f', res, hlru, hinit, hrun.reachable, hst, hmap, hst', hc, ?_, hop⟩
  rw [hh]
  decide

end Fomo
