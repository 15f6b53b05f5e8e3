import Fomo.Wrapper.FomoHistory

/-!
# The calls of FOMO

One lemma per call. The transaction of a request is staged before anything changes;
`fomoStaged` has its fields in closed form. A request is then filtered, refused,
admitted, or ended by a fault of the internal policy, and no other way.
-/
namespace Fomo

open FomoPolicy

variable {σ : Type}

/-- The vote of one period on the hits it counted, in thousandths. -/
def fomoVote (periodSize cHits mhHits : Nat) : FomoState → FomoState
  | .filter => if mhHits > 50 * periodSize ∧ cHits < mhHits then .insert else .filter
  | .insert => if cHits ≥ mhHits then .filter else .insert

namespace FomoPolicy

variable (P : Policy σ) (f : FomoPolicy σ) (o : Oblock)

/-- The cache lookup a transaction starts with. -/
def cached : Bool := (P.cacheLookup f.internal o).isSome

def remembered : Bool := (hashLookup f.nucleus o).isSome

/-- The next committed request ends a period. -/
def atBoundary : Prop := (f.counter + 1) % f.periodSize = 0

instance : Decidable f.atBoundary := inferInstanceAs (Decidable (_ = _))

def stagedCHits : Nat := f.cHits + if f.cached P o then 1000 else 0

def stagedMhHits : Nat := f.mhHits + if f.remembered o then 1000 else 0

/-- The state a request runs under. -/
def stagedState : FomoState :=
  if f.atBoundary ∧ cacheIsFull (P.nucleus f.internal) then
    fomoVote f.periodSize (f.stagedCHits P o) (f.stagedMhHits o) f.state
  else f.state

/-- The request is kept from the internal policy. -/
def filters : Prop :=
  f.cached P o = false ∧ f.remembered o = false ∧ f.stagedState P o = .filter

instance : Decidable (f.filters P o) := inferInstanceAs (Decidable (_ ∧ _))

end FomoPolicy

variable (P : Policy σ)

/-- The transaction of a request for `oblock`. -/
def fomoStaged (fomo : FomoPolicy σ) (oblock : Oblock) : FomoTransaction :=
  fomoTransactionSet P fomo (fomoTransactionInit fomo oblock)

/-- The transaction of a request is legal. -/
def fomoLegal (fomo : FomoPolicy σ) (oblock : Oblock) : Bool :=
  match fomoTransactionIsLegal P fomo (fomoStaged P fomo oblock) with
  | .ok (_, legal) => legal
  | .error _ => false

variable {P} {f f' : FomoPolicy σ} {o : Oblock}

theorem FomoState.eq_filter_iff (s : FomoState) : s = .filter ↔ s ≠ .insert := by
  cases s <;> simp

theorem fomoDetermineState_eq (f : FomoPolicy σ) (ft : FomoTransaction) :
    fomoDetermineState f ft = fomoVote f.periodSize ft.cHits ft.mhHits ft.state := by
  unfold fomoDetermineState fomoVote
  cases hs : ft.state <;> simp

theorem fomoStaged_eq (P : Policy σ) (f : FomoPolicy σ) (o : Oblock) : fomoStaged P f o =
    { oblock := o
      filter := decide (f.filters P o)
      state := f.stagedState P o
      cHit := f.cached P o
      mhHit := f.remembered o
      cHits := if f.atBoundary then 0 else f.stagedCHits P o
      mhHits := if f.atBoundary then 0 else f.stagedMhHits o
      mhHitsTotal := f.mhHitsTotal + if f.remembered o then 1 else 0
      counter := if f.atBoundary then 0 else f.counter + 1 } := by
  unfold fomoStaged fomoTransactionSet fomoTransactionInit filters stagedState stagedCHits
    stagedMhHits cached remembered atBoundary
  by_cases hc : (P.cacheLookup f.internal o).isSome <;>
    by_cases hm : (hashLookup f.nucleus o).isSome <;>
    by_cases hb : (f.counter + 1) % f.periodSize = 0 <;>
    by_cases hf : cacheIsFull (P.nucleus f.internal) <;>
    simp only [hc, hm, hb, hf, fomoDetermineState_eq, FomoState.eq_filter_iff] <;>
    grind

/-! ## Initialisation -/

theorem fomoInit_eq (c : UInt32) (i : σ) : fomoInit c i = .ok
    { nucleus := freshNucleus 0 c.toNat fun p => if p = .metadata then c.toNat else 0
      fomoMh := [], ghostSize := c.toNat, internal := i, state := .insert, counter := 0
      periodSize := max (c.toNat / 100) 1, cHits := 0, mhHits := 0, mhHitsTotal := 0 } := by
  have hn : ∀ p : PoolId, (if p = .metadata then c.toNat else 0) < 2 ^ 32 := fun p => by
    have := c.toNat_lt
    split <;> omega
  rw [fomoInit, policyInit_eq (n := fun p => if p = .metadata then c.toNat else 0) ?_ hn]
  · rfl
  · intro p
    cases p <;> rfl

/-- FOMO starts with an empty, well-formed history. -/
theorem fomoInit_spec {c : UInt32} (hc : 0 < c.toNat) {i : σ} (h : fomoInit c i = .ok f) :
    f.Inv ∧ f.ghostSize = c.toNat ∧ f.history = [] ∧ f.internal = i ∧ f.state = .insert ∧
      f.counter = 0 ∧ f.periodSize = max (c.toNat / 100) 1 ∧ f.cHits = 0 ∧ f.mhHits = 0 := by
  rw [fomoInit_eq] at h
  obtain rfl := Except.ok.inj h
  refine ⟨⟨?_, List.nodup_nil, ?_, ?_, ?_, hc⟩, rfl, rfl, rfl, rfl, rfl, rfl, rfl, rfl⟩
  · refine freshNucleus_wf fun p => ?_
    have := c.toNat_lt
    split <;> omega
  · intro r; simp [freshNucleus, CacheNucleus.entry, freshPool]
  · simp [freshNucleus, freshPool]
  · simp [freshNucleus, freshPool]

/-! ## Requests -/

/-- What a committed request does to FOMO itself. -/
structure Commits (P : Policy σ) (f : FomoPolicy σ) (o : Oblock) (f' : FomoPolicy σ) : Prop where
  inv : f'.Inv
  history : f'.history = historyStep f.ghostSize (f.stagedState P o) (f.cached P o)
    (f.remembered o) o f.history
  state : f'.state = f.stagedState P o
  counter : f'.counter = if f.atBoundary then 0 else f.counter + 1
  cHits : f'.cHits = if f.atBoundary then 0 else f.stagedCHits P o
  mhHits : f'.mhHits = if f.atBoundary then 0 else f.stagedMhHits o
  ghostSize : f'.ghostSize = f.ghostSize
  periodSize : f'.periodSize = f.periodSize

/-- The five ways a request for `o` ends. -/
inductive MapCase (P : Policy σ) (f : FomoPolicy σ) (o : Oblock) (result : CacheNucleusResult) :
    Exec (FomoPolicy σ × CacheNucleusResult) → Prop
  | filtered {f' : FomoPolicy σ} (hf : f.filters P o) (hc : Commits P f o f')
      (hi : f'.internal = f.internal) :
      MapCase P f o result (.ok (f', { result with op := .filter }))
  | refused {i v} (hf : ¬f.filters P o) (hv : P.nextVictim f.internal o = .ok (i, .fail, v)) :
      MapCase P f o result (.ok ({ f with internal := i }, { result with op := .fail }))
  | admitted {i op v i' res} {f' : FomoPolicy σ} (hf : ¬f.filters P o)
      (hv : P.nextVictim f.internal o = .ok (i, op, v)) (hop : op ≠ .fail)
      (hm : P.map i o false { result with op := .fail } = .ok (i', res))
      (hc : Commits P f o f') (hi : f'.internal = i') : MapCase P f o result (.ok (f', res))
  | victimFault {e} (hf : ¬f.filters P o) (hv : P.nextVictim f.internal o = .error e) :
      MapCase P f o result (.error e)
  | mapFault {i op v e} (hf : ¬f.filters P o) (hv : P.nextVictim f.internal o = .ok (i, op, v))
      (hop : op ≠ .fail) (hm : P.map i o false { result with op := .fail } = .error e) :
      MapCase P f o result (.error e)

/-- The bookkeeping of a commit never fails, and does what `Commits` says. -/
theorem fomoTransactionCommit_eq (h : f.Inv) (i : σ) (result : CacheNucleusResult) :
    ∃ f', Commits P f o f' ∧ f'.internal = i ∧
      fomoTransactionCommit P { f with internal := i } (fomoStaged P f o) result =
        if f.filters P o then
          .ok ({ f' with nucleus := f'.nucleus.incFilters }, { result with op := .filter })
        else (P.map i o false result).map fun (i, res) => ({ f' with internal := i }, res) := by
  let f1 : FomoPolicy σ := { f with
    internal := i
    counter := (fomoStaged P f o).counter, cHits := (fomoStaged P f o).cHits
    mhHits := (fomoStaged P f o).mhHits, state := (fomoStaged P f o).state
    mhHitsTotal := (fomoStaged P f o).mhHitsTotal }
  have hinv1 : f1.Inv := h.congr rfl rfl rfl
  have hmh : (fomoStaged P f o).mhHit =
      (hashLookup f1.nucleus (fomoStaged P f o).oblock).isSome := by
    rw [fomoStaged_eq]; rfl
  obtain ⟨f', hrun, hinv, hsame, hhist⟩ := fomoCommitHistory_spec hinv1 (fomoStaged P f o) hmh
  have hinternal : f'.internal = i := by rw [hsame]
  refine ⟨f', ⟨hinv, ?_, ?_, ?_, ?_, ?_, ?_, ?_⟩, hinternal, ?_⟩
  · rw [hhist, fomoStaged_eq]
    simp only [f1, fomoStaged_eq]
    rfl
  · rw [hsame]; simp only [f1, fomoStaged_eq]
  · rw [hsame]; simp only [f1, fomoStaged_eq]
  · rw [hsame]; simp only [f1, fomoStaged_eq]
  · rw [hsame]; simp only [f1, fomoStaged_eq]
  · rw [hsame]
  · rw [hsame]
  · show (do let fomo ← fomoCommitHistory f1 (fomoStaged P f o); _) = _
    rw [hrun]
    simp only [ok_bind, fomoStaged_eq, decide_eq_true_eq, hinternal]
    split
    · rfl
    · cases P.map i o false result <;> rfl

/-- Counting a filtered request touches nothing else. -/
theorem Commits.incFilters (h : Commits P f o f') :
    Commits P f o { f' with nucleus := f'.nucleus.incFilters } :=
  ⟨⟨h.inv.wf.withStats _, h.inv.queue_nodup, h.inv.mem_queue, h.inv.cache_empty,
    h.inv.meta_entries, h.inv.ghost_pos⟩, h.history, h.state, h.counter, h.cHits, h.mhHits,
    h.ghostSize, h.periodSize⟩

/-- The internal state belongs to the internal policy. -/
theorem Commits.withInternal (h : Commits P f o f') (i : σ) :
    Commits P f o { f' with internal := i } :=
  ⟨h.inv.congr rfl rfl rfl, h.history, h.state, h.counter, h.cHits, h.mhHits, h.ghostSize,
    h.periodSize⟩

theorem fomoTransactionIsLegal_staged (P : Policy σ) (f : FomoPolicy σ) (o : Oblock) :
    fomoTransactionIsLegal P f (fomoStaged P f o) =
      if f.filters P o then .ok (f, true)
      else (P.nextVictim f.internal o).map fun (i, op, _) =>
        ({ f with internal := i }, decide (op ≠ .fail)) := by
  simp only [fomoTransactionIsLegal, fomoStaged_eq, decide_eq_true_eq]
  split
  · rfl
  · cases P.nextVictim f.internal o <;> rfl

theorem fomoMap_case (h : f.Inv) (o : Oblock) (w : Bool) (result : CacheNucleusResult) :
    MapCase P f o result (fomoMap P f o w result) := by
  show MapCase P f o result (do
    let x ← fomoTransactionIsLegal P f (fomoStaged P f o)
    if x.2 then fomoTransactionCommit P x.1 (fomoStaged P f o) { result with op := .fail }
    else return (x.1, { result with op := .fail }))
  rw [fomoTransactionIsLegal_staged]
  by_cases hf : f.filters P o
  · obtain ⟨f', hc, hi, heq⟩ := fomoTransactionCommit_eq (P := P) (o := o) h f.internal
      { result with op := .fail }
    rw [if_pos hf] at heq
    simp only [if_pos hf, ok_bind, if_true]
    rw [heq]
    exact .filtered hf hc.incFilters hi
  · rw [if_neg hf]
    cases hv : P.nextVictim f.internal o with
    | error e => exact .victimFault hf hv
    | ok a =>
      obtain ⟨i, op, v⟩ := a
      by_cases hop : op = .fail
      · subst hop
        exact .refused hf hv
      · obtain ⟨f', hc, hi, heq⟩ := fomoTransactionCommit_eq (P := P) (o := o) h i
          { result with op := .fail }
        rw [if_neg hf] at heq
        simp only [Except.map, ok_bind, ne_eq, hop, not_false_eq_true, decide_true, if_true, heq]
        cases hm : P.map i o false { result with op := .fail } with
        | error e => exact .mapFault hf hv hop hm
        | ok b =>
          obtain ⟨i', res⟩ := b
          exact .admitted hf hv hop hm (hc.withInternal i') rfl

/-- A legal request commits. -/
theorem fomoLegal_eq (P : Policy σ) (f : FomoPolicy σ) (o : Oblock) : fomoLegal P f o = true ↔
    f.filters P o ∨ ∃ i op v, P.nextVictim f.internal o = .ok (i, op, v) ∧ op ≠ .fail := by
  rw [fomoLegal, fomoTransactionIsLegal_staged]
  by_cases hf : f.filters P o
  · simp [hf]
  · simp only [hf, false_or, if_false]
    cases hv : P.nextVictim f.internal o with
    | error e => simp [Except.map]
    | ok a =>
      obtain ⟨i, op, v⟩ := a
      simp [Except.map]

/-! ## The other calls -/

theorem remembered_iff (h : f.Inv) : f.remembered o = true ↔ o ∈ f.history :=
  h.mem_history.symm

/-- Drop the history entry of an oblock, if there is one. -/
def fomoForget (f : FomoPolicy σ) (o : Oblock) : Exec (FomoPolicy σ) :=
  match hashLookup f.nucleus o with
  | some fe => fomoRemoveEntry f fe
  | none => .ok f

theorem fomoForget_spec (h : f.Inv) (o : Oblock) : ∃ f', fomoForget f o = .ok f' ∧ f'.Inv ∧
    f.SameControl f' ∧ f'.history = f.history.erase o := by
  unfold fomoForget
  cases hl : hashLookup f.nucleus o with
  | none =>
    have hno : o ∉ f.history := by rw [h.mem_history, hl]; simp
    exact ⟨f, rfl, h, .refl f, (List.erase_of_not_mem hno).symm⟩
  | some r =>
    obtain ⟨hq, ho⟩ := h.lookup_mem hl
    obtain ⟨f1, hrun, hinv, hsame, hhist⟩ := h.removeEntry hq
    exact ⟨f1, hrun, hinv, hsame, by rw [hhist, ho]⟩

/-- Rename `a` to `b`. -/
def rename (a b o : Oblock) : Oblock := if o = a then b else o

/-- The history entry of `a`, if there is one, moves to the oblock `b`. -/
def fomoRename (f : FomoPolicy σ) (a b : Oblock) : Exec (FomoPolicy σ) :=
  match hashLookup f.nucleus a with
  | some fe => do
    let nucleus ← hashRemove f.nucleus fe
    let nucleus := nucleus.setEntry fe { nucleus.entry fe with oblock := b }
    .ok { f with nucleus := hashInsert nucleus fe }
  | none => .ok f

theorem fomoRename_spec (h : f.Inv) {a b : Oblock} (hb : b ∉ f.history) :
    ∃ f', fomoRename f a b = .ok f' ∧ f'.Inv ∧ f.SameControl f' ∧
      f'.history = f.history.map (rename a b) := by
  have habs : f.nucleus.Absent b := by
    rw [← h.wf.hashLookup_eq_none, ← Option.not_isSome_iff_eq_none, ← h.mem_history]
    exact hb
  unfold fomoRename
  cases hl : hashLookup f.nucleus a with
  | none =>
    have hna : a ∉ f.history := by rw [h.mem_history, hl]; simp
    refine ⟨f, rfl, h, .refl f, ?_⟩
    rw [List.map_congr_left (g := id), List.map_id]
    intro x hx
    refine if_neg ?_
    rintro rfl
    exact hna hx
  | some r =>
    obtain ⟨hq, ho⟩ := h.lookup_mem hl
    obtain ⟨cn, hrun, hrw⟩ := h.wf.defaultRemap hl habs
    refine ⟨{ f with nucleus := cn }, ?_, ⟨hrw.wf, h.queue_nodup, ?_, ?_, ?_, h.ghost_pos⟩,
      rfl, ?_⟩
    · have hmem := (h.wf.mem_ht r).mpr ((h.mem_queue r).mp hq)
      simp only [defaultRemap, hl, deref_some, ok_bind, hashRemove, if_pos hmem,
        pure_eq_ok, Except.ok.injEq] at hrun ⊢
      rw [← hrun]
    · intro x
      rw [h.mem_queue, hrw.entry]
      by_cases hx : x = r
      · subst hx; simp
      · simp [hx]
    · rw [hrw.nrEntries]; exact h.cache_empty
    · rw [hrw.nrEntries]; exact h.meta_entries
    · have hself : (cn.entry r).oblock = b := by rw [hrw.entry_self]
      have hkeep : ∀ x, x ≠ r → (cn.entry x).oblock = (f.nucleus.entry x).oblock := by
        intro x hx
        rw [hrw.entry_of_ne hx]
      have hmap := Lib.map_rename h.history_nodup hq hself hkeep
      rw [ho] at hmap
      exact hmap

/-- `fomo_remove` in terms of the two history operations. -/
theorem fomoRemove_bind (P : Policy σ) (f : FomoPolicy σ) (o : Oblock) (keep : Bool) :
    fomoRemove P f o keep = (do
      let fomo ← (if keep then .ok f else fomoForget f o)
      let internal ← P.remove fomo.internal o keep
      return { fomo with internal := internal }) := by
  unfold fomoRemove fomoForget
  cases keep <;> cases hashLookup f.nucleus o <;> rfl

theorem fomoRemap_bind (P : Policy σ) (f : FomoPolicy σ) (a b : Oblock) :
    fomoRemap P f a b = (do
      let fomo ← fomoForget f b
      let fomo ← fomoRename fomo a b
      let internal ← P.remap fomo.internal a b
      return { fomo with internal := internal }) := by
  unfold fomoRemap fomoForget
  cases hashLookup f.nucleus b with
  | none =>
    simp only [ok_bind, fomoRename]
    cases hashLookup f.nucleus a <;> simp
  | some fe =>
    refine bind_congr fun fomo => ?_
    simp only [fomoRename]
    cases hashLookup fomo.nucleus a <;> simp

/-- `fomo_remove` forgets the oblock unless it is asked to keep the history. -/
theorem fomoRemove_eq (h : f.Inv) (o : Oblock) (keep : Bool) :
    ∃ f1 : FomoPolicy σ, f1.Inv ∧ f.SameControl f1 ∧
      f1.history = (if keep then f.history else f.history.erase o) ∧
      fomoRemove P f o keep =
        (P.remove f.internal o keep).map fun i => { f1 with internal := i } := by
  cases keep with
  | true =>
    refine ⟨f, h, .refl f, rfl, ?_⟩
    simp only [fomoRemove_bind, if_true, ok_bind]
    cases P.remove f.internal o true <;> rfl
  | false =>
    obtain ⟨f1, hrun, hinv, hsame, hhist⟩ := fomoForget_spec h o
    have hi : f1.internal = f.internal := by rw [hsame]
    refine ⟨f1, hinv, hsame, by simpa using hhist, ?_⟩
    simp only [fomoRemove_bind, Bool.false_eq_true, if_false, hrun, ok_bind, hi]
    cases P.remove f.internal o false <;> rfl

/-- `fomo_remap` forgets the new name and then renames. -/
theorem fomoRemap_eq (h : f.Inv) (a b : Oblock) :
    ∃ f1 : FomoPolicy σ, f1.Inv ∧ f.SameControl f1 ∧
      f1.history = (f.history.erase b).map (rename a b) ∧
      fomoRemap P f a b = (P.remap f.internal a b).map fun i => { f1 with internal := i } := by
  obtain ⟨f1, hrun1, hinv1, hsame1, hhist1⟩ := fomoForget_spec h b
  have hno : b ∉ f1.history := by
    rw [hhist1]
    exact h.history_nodup.not_mem_erase
  obtain ⟨f2, hrun2, hinv2, hsame2, hhist2⟩ := fomoRename_spec hinv1 (a := a) hno
  have hi : f2.internal = f.internal := by rw [hsame2, hsame1]
  refine ⟨f2, hinv2, hsame1.trans hsame2, by rw [hhist2, hhist1], ?_⟩
  rw [fomoRemap_bind, hrun1, ok_bind, hrun2, ok_bind, hi]
  cases P.remap f.internal a b <;> rfl

end Fomo
