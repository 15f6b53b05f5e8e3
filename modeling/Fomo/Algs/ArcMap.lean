import Fomo.Algs.ArcSteps

/-!
# A request to ARC

The transaction says what a miss evicts before anything moves. A commit then frees the
ghost of the requested block, frees a ghost that has to go, frees the victim, leaves a
ghost of it and admits the block, one `Step` each.
-/
namespace Fomo

open ArcPolicy

variable {s s' : ArcPolicy} {r : EntryRef} {o : Oblock} {list : ArcList} {at' : ArcTransaction}

/-! ## The transaction -/

/-- The transactions `arc_transaction_set` can stage for `o`. -/
inductive ArcPolicy.Staged (s : ArcPolicy) (o : Oblock) : ArcTransaction → Prop
  | hit {r : EntryRef} (hl : hashLookup s.nucleus o = some r) (hp : r.pool = .cache) :
      Staged s o { arcTransactionInit s o with currentLoc := s.loc r, dest := .t2 }
  | b1 {r : EntryRef} (hl : hashLookup s.nucleus o = some r) (hloc : s.loc r = .b1) :
      Staged s o { arcReplace s { arcTransactionInit s o with
        currentLoc := .b1
        p := min s.nucleus.cacheSize (u32 (s.p + max (s.length .b2 / s.length .b1) 1)) } with
        dest := .t2 }
  | b2 {r : EntryRef} (hl : hashLookup s.nucleus o = some r) (hloc : s.loc r = .b2) :
      Staged s o { arcReplace s { arcTransactionInit s o with
        currentLoc := .b2
        p := if s.p > max (s.length .b1 / s.length .b2) 1 then
          s.p - max (s.length .b1 / s.length .b2) 1 else 0 } with
        dest := .t2 }
  | fullB1 (habs : s.nucleus.Absent o)
      (hc : u32 (s.length .t1 + s.length .b1) = s.nucleus.cacheSize)
      (ht : s.length .t1 < s.nucleus.cacheSize) :
      Staged s o { arcReplace s { arcTransactionInit s o with metaEvict := .b1 } with
        dest := .t1 }
  | fullT1 (habs : s.nucleus.Absent o)
      (hc : u32 (s.length .t1 + s.length .b1) = s.nucleus.cacheSize)
      (ht : s.nucleus.cacheSize ≤ s.length .t1) :
      Staged s o { arcTransactionInit s o with cacheEvict := .t1, dest := .t1 }
  | fullB2 (habs : s.nucleus.Absent o)
      (hc : u32 (s.length .t1 + s.length .b1) < s.nucleus.cacheSize)
      (hge : s.nucleus.cacheSize ≤ u32 (u32 (s.length .t1 + s.length .b1) +
        u32 (s.length .t2 + s.length .b2)))
      (h2 : u32 (u32 (s.length .t1 + s.length .b1) + u32 (s.length .t2 + s.length .b2)) =
        u32 (2 * s.nucleus.cacheSize)) :
      Staged s o { arcReplace s { arcTransactionInit s o with metaEvict := .b2 } with
        dest := .t1 }
  | replace (habs : s.nucleus.Absent o)
      (hc : u32 (s.length .t1 + s.length .b1) < s.nucleus.cacheSize)
      (hge : s.nucleus.cacheSize ≤ u32 (u32 (s.length .t1 + s.length .b1) +
        u32 (s.length .t2 + s.length .b2)))
      (h2 : u32 (u32 (s.length .t1 + s.length .b1) + u32 (s.length .t2 + s.length .b2)) ≠
        u32 (2 * s.nucleus.cacheSize)) :
      Staged s o { arcReplace s (arcTransactionInit s o) with dest := .t1 }
  | room (habs : s.nucleus.Absent o)
      (hc : u32 (s.length .t1 + s.length .b1) ≠ s.nucleus.cacheSize)
      (hlt : u32 (s.length .t1 + s.length .b1) < s.nucleus.cacheSize →
        u32 (u32 (s.length .t1 + s.length .b1) + u32 (s.length .t2 + s.length .b2)) <
          s.nucleus.cacheSize) :
      Staged s o { arcTransactionInit s o with dest := .t1 }

theorem arcTransactionSet_none (hl : hashLookup s.nucleus o = none) :
    ∃ at', arcTransactionSet s (arcTransactionInit s o) = .ok at' ∧
      (s.nucleus.Absent o → s.Staged o at') := by
  by_cases hc : u32 (s.length .t1 + s.length .b1) = s.nucleus.cacheSize
  · by_cases ht : s.length .t1 < s.nucleus.cacheSize
    · refine ⟨_, ?_, fun habs => .fullB1 habs hc ht⟩
      simp [arcTransactionSet, arcTransactionInit, hl, hc, ht]
    · refine ⟨_, ?_, fun habs => .fullT1 habs hc (by omega)⟩
      simp [arcTransactionSet, arcTransactionInit, hl, hc, ht]
  · by_cases hg : u32 (s.length .t1 + s.length .b1) < s.nucleus.cacheSize ∧
        s.nucleus.cacheSize ≤
          u32 (u32 (s.length .t1 + s.length .b1) + u32 (s.length .t2 + s.length .b2))
    · by_cases h2 : u32 (u32 (s.length .t1 + s.length .b1) + u32 (s.length .t2 + s.length .b2)) =
          u32 (2 * s.nucleus.cacheSize)
      · have hge : s.nucleus.cacheSize ≤ u32 (2 * s.nucleus.cacheSize) := h2 ▸ hg.2
        refine ⟨_, ?_, fun habs => .fullB2 habs hg.1 hg.2 h2⟩
        simp [arcTransactionSet, arcTransactionInit, hl, hc, hg.1, h2, hge]
      · refine ⟨_, ?_, fun habs => .replace habs hg.1 hg.2 h2⟩
        simp [arcTransactionSet, arcTransactionInit, hl, hc, hg, h2]
    · refine ⟨_, ?_, fun habs => .room habs hc fun h1 => ?_⟩
      · simp [arcTransactionSet, arcTransactionInit, hl, hc, hg]
      · by_contra hx
        exact hg ⟨h1, by omega⟩

/-- The ghost lists divide by their own length, so a ghost hit never divides by zero. -/
theorem arcTransactionSet_staged (h : s.Inv) (o : Oblock) :
    ∃ at', arcTransactionSet s (arcTransactionInit s o) = .ok at' ∧ s.Staged o at' := by
  cases hl : hashLookup s.nucleus o with
  | none =>
    obtain ⟨at', hrun, hst⟩ := arcTransactionSet_none hl
    exact ⟨at', hrun, hst (h.wf.hashLookup_eq_none.mp hl)⟩
  | some r =>
    have ha := (h.wf.hashLookup_eq_some.mp hl).1
    have hpos := h.length_pos ha
    have hpool := (h.home r ha).2
    by_cases hp : r.pool = .cache
    · refine ⟨_, ?_, .hit hl hp⟩
      simp [arcTransactionSet, arcTransactionInit, hl, inCache, hp]
    · by_cases hb1 : s.loc r = .b1
      · refine ⟨_, ?_, .b1 hl hb1⟩
        rw [hb1] at hpos
        simp [arcTransactionSet, arcTransactionInit, hl, inCache, hp, hb1, div32_of_pos hpos]
      · have hb2 : s.loc r = .b2 := by
          cases hloc : s.loc r <;> simp_all [ArcList.pool]
        refine ⟨_, ?_, .b2 hl hb2⟩
        rw [hb2] at hpos
        simp [arcTransactionSet, arcTransactionInit, hl, inCache, hp, hb2, div32_of_pos hpos]

/-- What `arc_replace` picks. -/
theorem arcReplace_cases (s : ArcPolicy) (at' : ArcTransaction) :
    (1 ≤ s.length .t1 ∧ ((at'.currentLoc = .b2 ∧ s.length .t1 = at'.p) ∨ at'.p < s.length .t1) ∧
      arcReplace s at' = { at' with cacheEvict := .t1, evictT1ToB1 := true }) ∨
    (¬(1 ≤ s.length .t1 ∧
        ((at'.currentLoc = .b2 ∧ s.length .t1 = at'.p) ∨ at'.p < s.length .t1)) ∧
      arcReplace s at' = { at' with cacheEvict := .t2 }) := by
  by_cases hc : 1 ≤ s.length .t1 ∧
      ((at'.currentLoc = .b2 ∧ s.length .t1 = at'.p) ∨ at'.p < s.length .t1)
  · exact Or.inl ⟨hc.1, hc.2, if_pos hc⟩
  · exact Or.inr ⟨hc, if_neg hc⟩

/-- The ghost list the victim of the transaction goes to, if any. -/
def ArcTransaction.ghostDest (at' : ArcTransaction) : ArcList :=
  if at'.cacheEvict = .t2 then .b2 else if at'.evictT1ToB1 then .b1 else .null

/-- What the commit relies on in a transaction that is no hit. -/
structure ArcPolicy.Planned (s : ArcPolicy) (o : Oblock) (at' : ArcTransaction) : Prop where
  oblock : at'.oblock = o
  uncached : ∀ r, hashLookup s.nucleus o = some r → r.pool = .metadata
  currentLoc : ¬(at'.currentLoc = .t1 ∨ at'.currentLoc = .t2)
  dest : at'.dest = .t1 ∨ at'.dest = .t2
  metaEvict : at'.metaEvict = .null ∨ (at'.metaEvict.pool = .metadata ∧ s.nucleus.Absent o)
  cacheEvict : at'.cacheEvict = .null ∨ at'.cacheEvict = .t1 ∨ at'.cacheEvict = .t2
  ghost : at'.cacheEvict = .null → at'.evictT1ToB1 = false

theorem ArcPolicy.Planned.replace (h : s.Planned o at') :
    s.Planned o (arcReplace s at') := by
  rcases arcReplace_cases s at' with ⟨_, _, heq⟩ | ⟨_, heq⟩
  · rw [heq]
    exact ⟨h.oblock, h.uncached, h.currentLoc, h.dest, h.metaEvict, Or.inr (Or.inl rfl),
      fun hx => nomatch hx⟩
  · rw [heq]
    exact ⟨h.oblock, h.uncached, h.currentLoc, h.dest, h.metaEvict, Or.inr (Or.inr rfl),
      fun hx => nomatch hx⟩

theorem arcReplace_dest (s : ArcPolicy) (at' : ArcTransaction) (list : ArcList) :
    { arcReplace s at' with dest := list } = arcReplace s { at' with dest := list } := by
  by_cases hc : 1 ≤ s.length .t1 ∧
      ((at'.currentLoc = .b2 ∧ s.length .t1 = at'.p) ∨ at'.p < s.length .t1)
  · rw [arcReplace, arcReplace, if_pos hc, if_pos hc]
  · rw [arcReplace, arcReplace, if_neg hc, if_neg hc]

/-- A staged transaction is a hit or plans a miss. -/
theorem ArcPolicy.Staged.hit_or_planned (h : s.Inv) (hst : s.Staged o at') :
    (∃ r, hashLookup s.nucleus o = some r ∧ r.pool = .cache ∧
      at' = { arcTransactionInit s o with currentLoc := s.loc r, dest := .t2 }) ∨
    s.Planned o at' := by
  have hghost : ∀ {x}, hashLookup s.nucleus o = some x → (s.loc x).pool = .metadata →
      ∀ r, hashLookup s.nucleus o = some r → r.pool = .metadata := by
    intro x hx hpool r hr
    obtain rfl := Option.some.inj (hx.symm.trans hr)
    exact (h.home x (h.wf.hashLookup_eq_some.mp hx).1).2 ▸ hpool
  have hnone : s.nucleus.Absent o → ∀ r, hashLookup s.nucleus o = some r → r.pool = .metadata := by
    intro habs r hr
    rw [h.wf.hashLookup_eq_none.mpr habs] at hr
    cases hr
  cases hst with
  | hit hl hp => exact Or.inl ⟨_, hl, hp, rfl⟩
  | b1 hl hloc =>
    rw [arcReplace_dest]
    exact Or.inr (Planned.replace ⟨rfl, hghost hl (by rw [hloc]; rfl), by simp, Or.inr rfl,
      Or.inl rfl, Or.inl rfl, fun _ => rfl⟩)
  | b2 hl hloc =>
    rw [arcReplace_dest]
    exact Or.inr (Planned.replace ⟨rfl, hghost hl (by rw [hloc]; rfl), by simp, Or.inr rfl,
      Or.inl rfl, Or.inl rfl, fun _ => rfl⟩)
  | fullB1 habs hc ht =>
    rw [arcReplace_dest]
    exact Or.inr (Planned.replace ⟨rfl, hnone habs, by simp [arcTransactionInit], Or.inl rfl,
      Or.inr ⟨rfl, habs⟩, Or.inl rfl, fun _ => rfl⟩)
  | fullT1 habs hc ht =>
    exact Or.inr ⟨rfl, hnone habs, by simp [arcTransactionInit], Or.inl rfl, Or.inl rfl,
      Or.inr (Or.inl rfl), fun _ => rfl⟩
  | fullB2 habs hc hge h2 =>
    rw [arcReplace_dest]
    exact Or.inr (Planned.replace ⟨rfl, hnone habs, by simp [arcTransactionInit], Or.inl rfl,
      Or.inr ⟨rfl, habs⟩, Or.inl rfl, fun _ => rfl⟩)
  | replace habs hc hge h2 =>
    rw [arcReplace_dest]
    exact Or.inr (Planned.replace ⟨rfl, hnone habs, by simp [arcTransactionInit], Or.inl rfl,
      Or.inl rfl, Or.inl rfl, fun _ => rfl⟩)
  | room habs hc hlt =>
    exact Or.inr ⟨rfl, hnone habs, by simp [arcTransactionInit], Or.inl rfl, Or.inl rfl,
      Or.inl rfl, fun _ => rfl⟩

/-! ## The commit, part by part -/

/-- The state a miss commits from: the target is set, the miss counted. -/
def ArcPolicy.aim (s : ArcPolicy) (p : Nat) : ArcPolicy :=
  { s with p := p, nucleus := s.nucleus.incMisses }

def arcForget (s : ArcPolicy) (o : Oblock) : Exec ArcPolicy :=
  match hashLookup s.nucleus o with
  | some ae => arcRemoveEntry s ae
  | none => .ok s

def arcMetaEvict (s : ArcPolicy) (list : ArcList) (result : CacheNucleusResult) :
    Exec ArcPolicy :=
  if list ≠ .null then do
    let (arc, _) ← arcEvict s list result
    return arc
  else .ok s

def arcMakeRoom (s : ArcPolicy) (at' : ArcTransaction) (result : CacheNucleusResult) :
    Exec (ArcPolicy × CacheNucleusResult) :=
  if at'.cacheEvict ≠ .null then do
    let (arc, result) ← arcEvict s at'.cacheEvict result
    if at'.ghostDest ≠ .null then do
      let arc ← arcGhost arc result.oldOblock at'.ghostDest
      return (arc, result)
    else return (arc, result)
  else .ok (s, result)

theorem arcTransactionCommit_miss (hpl : s.Planned o at') (result : CacheNucleusResult) :
    arcTransactionCommit s at' result = (do
      let result := { result with op := if at'.cacheEvict = .null then .new else .replace }
      let arc ← arcForget (s.aim at'.p) o
      let arc ← arcMetaEvict arc at'.metaEvict result
      let (arc, result) ← arcMakeRoom arc at' result
      arcArrive arc o at'.dest result) := by
  obtain rfl := hpl.oblock
  have hhit : decide (at'.currentLoc = .t1 ∨ at'.currentLoc = .t2) = false :=
    decide_eq_false hpl.currentLoc
  have hlook : hashLookup (s.aim at'.p).nucleus at'.oblock = hashLookup s.nucleus at'.oblock := rfl
  unfold arcTransactionCommit arcForget
  rw [hlook]
  -- only the branches on the plan are left; both sides make the same calls in each
  cases hashLookup s.nucleus at'.oblock with
  | none =>
    simp only [hhit, Bool.false_eq_true, if_false, ok_bind, arcMetaEvict, arcMakeRoom, arcGhost,
      arcArrive, ArcTransaction.ghostDest, aim]
    by_cases hm : at'.metaEvict = .null
    all_goals rcases hpl.cacheEvict with hc | hc | hc
    all_goals by_cases he : at'.evictT1ToB1 = true
    all_goals simp [hm, hc, he]
  | some r =>
    simp only [hhit, Bool.false_eq_true, if_false, ok_bind, arcMetaEvict, arcMakeRoom, arcGhost,
      arcArrive, ArcTransaction.ghostDest, aim]
    by_cases hm : at'.metaEvict = .null
    all_goals rcases hpl.cacheEvict with hc | hc | hc
    all_goals by_cases he : at'.evictT1ToB1 = true
    all_goals simp [hm, hc, he]

/-! ## What the parts do -/

theorem ArcPolicy.Inv.aim (h : s.Inv) (p : Nat) : (s.aim p).Inv := h.withTarget p _

theorem ArcPolicy.Inv.arcQ_null (h : s.Inv) : s.arcQ .null = [] := by
  apply List.eq_nil_iff_forall_not_mem.mpr
  intro r hr
  obtain ⟨ha, _, hloc⟩ := (h.queued.mem .null r).mp hr
  exact (h.home r ha).1 hloc

/-- A queue lists entries of its own pool. -/
theorem ArcPolicy.Inv.pool_of_mem (h : s.Inv) (hr : r ∈ s.arcQ list) : r.pool = list.pool := by
  obtain ⟨ha, _, rfl⟩ := (h.queued.mem list r).mp hr
  exact (h.home r ha).2.symm

/-- Freeing an entry does not reach the queues of the other pool. -/
theorem ArcPolicy.Frees.queue_of_pool (hs : s.Frees r s') (h : s.Inv) (hp : r.pool ≠ list.pool) :
    s'.arcQ list = s.arcQ list := by
  rw [hs.queue]
  exact List.erase_of_not_mem fun hr => hp (h.pool_of_mem hr)

/-- The entry, if there is one, has been freed. -/
inductive ArcPolicy.FreesAny (s : ArcPolicy) : Option EntryRef → ArcPolicy → Prop
  | none : FreesAny s none s
  | some {r : EntryRef} {s' : ArcPolicy} (ha : (s.nucleus.entry r).allocated = true)
      (hs : s.Frees r s') : FreesAny s (some r) s'

/-- A ghost of `o`, if one is kept, is at the recent end of its list. -/
inductive ArcPolicy.Ghosts (s : ArcPolicy) (o : Oblock) : ArcList → ArcPolicy → Prop
  | none : Ghosts s o .null s
  | some {list : ArcList} {i : Nat} {rest : List Nat} {s' : ArcPolicy}
      (hd : list.pool = .metadata) (hf : (s.nucleus.pool .metadata).free = i :: rest)
      (hs : s.Step ⟨.metadata, i⟩ (s.nucleus.freshEntry ⟨.metadata, i⟩ o) list rest
        (Function.update s.arcQ list (s.arcQ list ++ [⟨.metadata, i⟩])) s') : Ghosts s o list s'

theorem ArcPolicy.FreesAny.inv {x : Option EntryRef} (hs : s.FreesAny x s') (h : s.Inv) :
    s'.Inv := by
  cases hs with
  | none => exact h
  | some ha hs => exact hs.inv

theorem ArcPolicy.Ghosts.inv (hs : s.Ghosts o list s') (h : s.Inv) : s'.Inv := by
  cases hs with
  | none => exact h
  | some hd hf hs => exact hs.inv

/-- What the result says about the victim. -/
def ArcPolicy.evicted (s : ArcPolicy) (result : CacheNucleusResult) :
    Option EntryRef → CacheNucleusResult
  | none => result
  | some v => { result with
      oldOblock := (s.nucleus.entry v).oblock
      dirtyEviction := (s.nucleus.entry v).dirty }

theorem ArcPolicy.evicted_congr {v : Option EntryRef} (hv : ∀ r ∈ v, r.pool = .cache)
    (hkeep : ∀ i, s'.nucleus.entry ⟨.cache, i⟩ = s.nucleus.entry ⟨.cache, i⟩)
    (result : CacheNucleusResult) : s'.evicted result v = s.evicted result v := by
  cases v with
  | none => rfl
  | some v =>
    obtain ⟨vp, vi⟩ := v
    obtain rfl : vp = .cache := hv _ rfl
    simp only [evicted, hkeep vi]

theorem ArcPolicy.Planned.cachePool (hpl : s.Planned o at') : at'.cacheEvict.pool = .cache := by
  rcases hpl.cacheEvict with hx | hx | hx
  all_goals rw [hx]; rfl

theorem ArcPolicy.Planned.victim_pool (hpl : s.Planned o at') (h : s.Inv) :
    ∀ r ∈ queuePeek (s.arcQ at'.cacheEvict), r.pool = .cache := by
  intro r hr
  rw [h.pool_of_mem (List.mem_of_mem_head? hr), hpl.cachePool]

theorem ArcPolicy.Planned.ghost_pool (hpl : s.Planned o at') (h : s.Inv) :
    ∀ r ∈ queuePeek (s.arcQ at'.metaEvict), r.pool = .metadata := by
  intro r hr
  have hmem : r ∈ s.arcQ at'.metaEvict := List.mem_of_mem_head? hr
  rcases hpl.metaEvict with hx | ⟨hx, _⟩
  · rw [hx, h.arcQ_null] at hmem
    cases hmem
  · rw [h.pool_of_mem hmem, hx]

theorem arcForget_spec (h : s.Inv) (o : Oblock) :
    ∃ s', arcForget s o = .ok s' ∧ s.FreesAny (hashLookup s.nucleus o) s' := by
  unfold arcForget
  cases hl : hashLookup s.nucleus o with
  | none => exact ⟨s, rfl, .none⟩
  | some r =>
    have ha := (h.wf.hashLookup_eq_some.mp hl).1
    obtain ⟨s', hrun, hs⟩ := arcRemoveEntry_spec h ha
    exact ⟨s', hrun, .some ha hs⟩

theorem arcMetaEvict_spec (h : s.Inv) (list : ArcList) (result : CacheNucleusResult)
    (hne : list ≠ .null → s.arcQ list ≠ []) :
    ∃ s', arcMetaEvict s list result = .ok s' ∧ s.FreesAny (queuePeek (s.arcQ list)) s' := by
  unfold arcMetaEvict
  by_cases hl : list = .null
  · subst hl
    refine ⟨s, by simp, ?_⟩
    rw [h.arcQ_null]
    exact .none
  · obtain ⟨r, q, hq⟩ := List.exists_cons_of_ne_nil (hne hl)
    obtain ⟨s', hrun, hs⟩ := arcEvict_spec h hq result
    refine ⟨s', by simp [hl, hrun], ?_⟩
    rw [hq]
    exact .some (h.head hq).1 hs

theorem arcMetaEvict_nil (hl : list ≠ .null) (hq : s.arcQ list = []) (result : CacheNucleusResult) :
    arcMetaEvict s list result = .error .nullPointer := by
  simp [arcMetaEvict, hl, arcEvict_nil hq]

/-- Room is made in the cache and the victim leaves a ghost where the plan says so. -/
theorem arcMakeRoom_spec (h : s.Inv)
    (hce : at'.cacheEvict = .null ∨ at'.cacheEvict = .t1 ∨ at'.cacheEvict = .t2)
    (hg : at'.cacheEvict = .null → at'.evictT1ToB1 = false)
    (hne : at'.cacheEvict ≠ .null → s.arcQ at'.cacheEvict ≠ [])
    (hfull : at'.ghostDest ≠ .null → (s.nucleus.pool .metadata).free ≠ [])
    (result : CacheNucleusResult) :
    ∃ s3 s4, arcMakeRoom s at' result =
        .ok (s4, s.evicted result (queuePeek (s.arcQ at'.cacheEvict))) ∧
      s.FreesAny (queuePeek (s.arcQ at'.cacheEvict)) s3 ∧
      s3.Ghosts (s.evicted result (queuePeek (s.arcQ at'.cacheEvict))).oldOblock
        at'.ghostDest s4 := by
  unfold arcMakeRoom
  by_cases hc : at'.cacheEvict = .null
  · have hgd : at'.ghostDest = .null := by simp [ArcTransaction.ghostDest, hc, hg hc]
    refine ⟨s, s, ?_, ?_, ?_⟩
    · simp [hc, h.arcQ_null, evicted]
    · rw [hc, h.arcQ_null]
      exact .none
    · rw [hgd]
      exact .none
  · obtain ⟨r, q, hq⟩ := List.exists_cons_of_ne_nil (hne hc)
    obtain ⟨s3, hrun, hs⟩ := arcEvict_spec h hq result
    obtain ⟨ha, _, hloc⟩ := h.head hq
    have hpool : r.pool = .cache := by
      rw [← (h.home r ha).2, hloc]
      rcases hce with hx | hx | hx
      · exact absurd hx hc
      · rw [hx]; rfl
      · rw [hx]; rfl
    rw [hq, queuePeek_cons]
    by_cases hgd : at'.ghostDest = .null
    · refine ⟨s3, s3, ?_, .some ha hs, ?_⟩
      · simp [hc, hrun, hgd, evicted]
      · rw [hgd]
        exact .none
    · have hfree : (s3.nucleus.pool .metadata).free = (s.nucleus.pool .metadata).free :=
        hs.rewrites.free_of_ne _ (by rw [hpool]; decide)
      obtain ⟨i, rest, hf⟩ := List.exists_cons_of_ne_nil (hfull hgd)
      have habs : s3.nucleus.Absent (s.nucleus.entry r).oblock :=
        h.wf.absent_of_freed (h.wf.hashLookup_self ha) hs.rewrites rfl
      have hd : at'.ghostDest.pool = .metadata := by
        unfold ArcTransaction.ghostDest at hgd ⊢
        split_ifs at hgd ⊢ <;> first | rfl | exact absurd rfl hgd
      obtain ⟨s4, hrun4, hs4⟩ := arcGhost_spec hs.inv (hfree.trans hf) habs hd
      refine ⟨s3, s4, ?_, .some ha hs, .some hd (hfree.trans hf) hs4⟩
      simp [hc, hrun, hgd, hrun4, evicted]

/-- A victim whose ghost finds no room. -/
theorem arcMakeRoom_full (h : s.Inv)
    (hce : at'.cacheEvict = .null ∨ at'.cacheEvict = .t1 ∨ at'.cacheEvict = .t2)
    (hc : at'.cacheEvict ≠ .null) (hne : s.arcQ at'.cacheEvict ≠ []) (hgd : at'.ghostDest ≠ .null)
    (hfull : (s.nucleus.pool .metadata).free = []) (result : CacheNucleusResult) :
    arcMakeRoom s at' result = .error .assertion := by
  obtain ⟨r, q, hq⟩ := List.exists_cons_of_ne_nil hne
  obtain ⟨s3, hrun, hs⟩ := arcEvict_spec h hq result
  have hpool : r.pool ≠ .metadata := by
    have hmem : r ∈ s.arcQ at'.cacheEvict := by
      rw [hq]
      exact List.mem_cons_self
    rw [h.pool_of_mem hmem]
    rcases hce with hx | hx | hx
    · exact absurd hx hc
    · rw [hx]; decide
    · rw [hx]; decide
  have hfree := (hs.rewrites.free_of_ne .metadata (Ne.symm hpool)).trans hfull
  simp [arcMakeRoom, hc, hrun, hgd, arcGhost_full hfree]

/-- Statistics and dirty work at the end of a request. -/
theorem ArcPolicy.Step.finish {e : Entry} {free : List Nat} {q : ArcList → Queue}
    (hs : s.Step r e list free q s') (hp : r.pool = .cache) (ha : e.allocated = true)
    (ho : e.oblock = o) (w : Bool) :
    s.Step r { e with dirty := e.dirty || w } list free q
      { s' with nucleus := dirtyWork s'.nucleus.incIos o w } := by
  have hrw := hs.rewrites.withStats s'.nucleus.incIos.stats
  have hl := hrw.wf.hashLookup_eq_some (o := o) |>.mpr (by rw [hrw.entry_self]; exact ⟨ha, ho⟩)
  have hd := hrw.wf.dirtyWork_cache hl hp w
  rw [hrw.entry_self, hrw.free] at hd
  have hr : s'.nucleus.entry r = e := hs.rewrites.entry_self
  have hd' : s'.nucleus.Rewrites r { e with dirty := e.dirty || w } free
      (dirtyWork s'.nucleus.incIos o w) := hd.ofStats
  have halloc : (s'.nucleus.entry r).allocated = true := by rw [hr]; exact ha
  let s2 : ArcPolicy := { s' with nucleus := dirtyWork s'.nucleus.incIos o w }
  have hq : Queued s2.nucleus s2.loc s2.arcQ := by
    apply hs.inv.queued.same hd' (fun x _ => rfl)
    · rw [hr]
    · rw [hr]
    · rfl
  have hupd : s2.loc = Function.update s'.loc r (s'.loc r) := (Function.update_eq_self ..).symm
  have hstep : s'.Step r { e with dirty := e.dirty || w } (s'.loc r) free s2.arcQ s2 := by
    apply hs.inv.step hd' hupd hq rfl (hs.inv.wf.lt_of_allocated halloc)
      (fun _ => hs.inv.home r halloc)
    · intro hx
      rw [hp] at hx
      cases hx
    · intro l
      rw [hr]
      rfl
  exact ⟨hstep.inv, hrw.trans hd, hs.loc, hs.queue, hs.p⟩

/-! ## The outcomes -/

/-- A committed miss for `o` with the given victim: the block ends up in the slot `cb`. -/
inductive ArcPolicy.Missed (s : ArcPolicy) (o : Oblock) (w : Bool) (at' : ArcTransaction)
    (old : Oblock) : Cblock → ArcPolicy → Prop
  | mk {s1 s2 s3 s4 s' : ArcPolicy} {cb : Cblock} {rest : List Nat}
      (hm : at'.metaEvict ≠ .null → s.arcQ at'.metaEvict ≠ [])
      (forget : (s.aim at'.p).FreesAny (hashLookup s.nucleus o) s1)
      (hq1 : s1.arcQ at'.metaEvict = s.arcQ at'.metaEvict)
      (metaEvict : s1.FreesAny (queuePeek (s.arcQ at'.metaEvict)) s2)
      (hq2 : s2.arcQ at'.cacheEvict = s.arcQ at'.cacheEvict)
      (evict : s2.FreesAny (queuePeek (s.arcQ at'.cacheEvict)) s3)
      (ghost : s3.Ghosts old at'.ghostDest s4)
      (free : (s4.nucleus.pool .cache).free = cb :: rest)
      (arrive : s4.Step ⟨.cache, cb⟩
        { s4.nucleus.arrivingEntry ⟨.cache, cb⟩ o with dirty := w } at'.dest rest s4.arcQ s') :
      Missed s o w at' old cb s'

/-- Why a request cannot be served: the ghost to go, the room for a ghost or the free slot
that the plan counts on is missing. -/
def ArcPolicy.Stuck (s : ArcPolicy) (o : Oblock) (at' : ArcTransaction) : Prop :=
  (at'.metaEvict ≠ .null ∧ s.arcQ at'.metaEvict = []) ∨
  (at'.ghostDest ≠ .null ∧ at'.metaEvict = .null ∧ s.nucleus.Absent o ∧
    (s.nucleus.pool .metadata).free = []) ∨
  (at'.cacheEvict = .null ∧ (s.nucleus.pool .cache).free = [])

/-- The ways a request for `o` ends. -/
inductive ArcPolicy.MapCase (s : ArcPolicy) (o : Oblock) (w : Bool)
    (result : CacheNucleusResult) : Exec (ArcPolicy × CacheNucleusResult) → Prop
  | hit {r : EntryRef} {s' : ArcPolicy} (hl : hashLookup s.nucleus o = some r)
      (hp : r.pool = .cache)
      (hs : s.Step r { s.nucleus.entry r with dirty := (s.nucleus.entry r).dirty || w } .t2
        (s.nucleus.pool r.pool).free (s.touchedQ r .t2) s') :
      MapCase s o w result (.ok (s', { result with op := .hit, cblock := r.index }))
  | miss {at' : ArcTransaction} {s' : ArcPolicy} {cb : Cblock} {res : CacheNucleusResult}
      (hst : s.Staged o at') (hpl : s.Planned o at')
      (hne : at'.cacheEvict ≠ .null → s.arcQ at'.cacheEvict ≠ [])
      (hres : res = s.evicted { result with
        op := if at'.cacheEvict = .null then .new else .replace }
        (queuePeek (s.arcQ at'.cacheEvict)))
      (hmiss : s.Missed o w at' res.oldOblock cb s') :
      MapCase s o w result (.ok (s', { res with cblock := cb }))
  | refused {at' : ArcTransaction} (hst : s.Staged o at') (hpl : s.Planned o at')
      (hc : at'.cacheEvict ≠ .null) (hq : s.arcQ at'.cacheEvict = []) :
      MapCase s o w result (.ok (s, { result with op := .fail }))
  | stuck {at' : ArcTransaction} {f : Fault} (hst : s.Staged o at') (hpl : s.Planned o at')
      (hstuck : s.Stuck o at') : MapCase s o w result (.error f)

/-- Freeing ghosts changes nothing the eviction from the cache looks at. -/
theorem ArcPolicy.FreesAny.cache {x : Option EntryRef} (hs : s.FreesAny x s') (h : s.Inv)
    (hx : ∀ r ∈ x, r.pool = .metadata) :
    (∀ l : ArcList, l.pool = .cache → s'.arcQ l = s.arcQ l) ∧
      (∀ i, s'.nucleus.entry ⟨.cache, i⟩ = s.nucleus.entry ⟨.cache, i⟩) ∧
      (s'.nucleus.pool .cache).free = (s.nucleus.pool .cache).free := by
  cases hs with
  | none => exact ⟨fun _ _ => rfl, fun _ => rfl, rfl⟩
  | @some r s' ha hs =>
    have hp := hx r rfl
    refine ⟨fun l hl => ?_, fun i => ?_, ?_⟩
    · exact hs.queue_of_pool h (by rw [hp, hl]; decide)
    · apply hs.rewrites.entry_of_ne
      rintro rfl
      cases hp
    · exact hs.rewrites.free_of_ne _ (by rw [hp]; decide)

theorem ArcPolicy.FreesAny.absent {x : Option EntryRef} (hs : s.FreesAny x s')
    (ho : s.nucleus.Absent o) : s'.nucleus.Absent o := by
  cases hs with
  | none => exact ho
  | some ha hs => exact hs.rewrites.absent ho fun hx => nomatch hx

/-- A cached entry belongs to `T1` or `T2`. -/
theorem ArcPolicy.Inv.loc_of_cached (h : s.Inv) (ha : (s.nucleus.entry r).allocated = true)
    (hp : r.pool = .cache) : s.loc r = .t1 ∨ s.loc r = .t2 := by
  obtain ⟨hnull, hpool⟩ := h.home r ha
  rw [hp] at hpool
  cases hx : s.loc r with
  | t1 => exact Or.inl rfl
  | t2 => exact Or.inr rfl
  | null => exact absurd hx hnull
  | b1 => rw [hx] at hpool; cases hpool
  | b2 => rw [hx] at hpool; cases hpool

/-- The state a hit commits from. -/
def ArcPolicy.counted (s : ArcPolicy) : ArcPolicy := { s with nucleus := s.nucleus.incHits }

theorem arcTransactionCommit_touch (hl : hashLookup s.nucleus o = some r)
    (hloc : s.loc r = .t1 ∨ s.loc r = .t2) (result : CacheNucleusResult) :
    arcTransactionCommit s { arcTransactionInit s o with currentLoc := s.loc r, dest := .t2 }
      result = arcTouch s.counted r .t2 { result with op := .hit } := by
  have hdec : decide (s.loc r = .t1 ∨ s.loc r = .t2) = true := decide_eq_true hloc
  simp only [arcTransactionCommit, arcTransactionInit, hl, hdec, Option.any_some, ne_eq,
    not_true_eq_false, if_false, if_true, ok_bind, deref_some]
  rfl

/-- A hit goes to `T2`. -/
theorem arcTransactionCommit_hit (hl : hashLookup s.nucleus o = some r) (hp : r.pool = .cache)
    (h : s.Inv) (result : CacheNucleusResult) :
    ∃ s', arcTransactionCommit s
        { arcTransactionInit s o with currentLoc := s.loc r, dest := .t2 } result =
        .ok (s', { result with op := .hit, cblock := r.index }) ∧
      s.Step r (s.nucleus.entry r) .t2 (s.nucleus.pool r.pool).free (s.touchedQ r .t2) s' := by
  have ha := (h.wf.hashLookup_eq_some.mp hl).1
  have h0 : s.counted.Inv := h.withTarget s.p s.nucleus.incHits.stats
  obtain ⟨s', hrun, hs⟩ := arcTouch_spec h0 (r := r) ha hp (Or.inr rfl) { result with op := .hit }
  rw [arcTransactionCommit_touch hl (h.loc_of_cached ha hp)]
  exact ⟨s', hrun, hs.inv, hs.rewrites.ofStats, hs.loc, hs.queue, hs.p⟩

/-- Forgetting the entry of `o` makes it absent. -/
theorem ArcPolicy.FreesAny.absent_lookup (hs : s.FreesAny (hashLookup s.nucleus o) s')
    (h : s.Inv) : s'.nucleus.Absent o := by
  cases hl : hashLookup s.nucleus o with
  | none =>
    rw [hl] at hs
    exact hs.absent (h.wf.hashLookup_eq_none.mp hl)
  | some r =>
    rw [hl] at hs
    cases hs with
    | some ha hs => exact h.wf.absent_of_freed hl hs.rewrites rfl

/-- An entry that was freed is in the free list of its pool. -/
theorem ArcPolicy.FreesAny.free_ne_nil {x : Option EntryRef} (hs : s.FreesAny x s') {p : PoolId}
    (hx : ∀ r ∈ x, r.pool = p) (hf : (s'.nucleus.pool p).free = []) : x = Option.none ∧ s' = s := by
  cases hs with
  | none => exact ⟨rfl, rfl⟩
  | @some r s' ha hs =>
    have := hs.rewrites.free
    rw [hx r rfl, hf] at this
    cases this

/-- A ghost takes nothing from the cache. -/
theorem ArcPolicy.Ghosts.cache {a : Oblock} (hs : s.Ghosts a list s') :
    (∀ i, s'.nucleus.entry ⟨.cache, i⟩ = s.nucleus.entry ⟨.cache, i⟩) ∧
      (s'.nucleus.pool .cache).free = (s.nucleus.pool .cache).free := by
  cases hs with
  | none => exact ⟨fun _ => rfl, rfl⟩
  | some hd hf hs =>
    exact ⟨fun i => hs.rewrites.entry_of_ne (by simp), hs.rewrites.free_of_ne _ (by simp)⟩

theorem ArcPolicy.Ghosts.absent {a : Oblock} (hs : s.Ghosts a list s')
    (ho : s.nucleus.Absent o) (ha : list ≠ .null → a ≠ o) : s'.nucleus.Absent o := by
  cases hs with
  | none => exact ho
  | some hd hf hs =>
    refine hs.rewrites.absent ho fun _ => ha ?_
    rintro rfl
    cases hd

theorem ArcTransaction.cacheEvict_of_ghostDest
    (hg : at'.cacheEvict = .null → at'.evictT1ToB1 = false)
    (hgd : at'.ghostDest ≠ .null) : at'.cacheEvict ≠ .null := by
  intro hc
  apply hgd
  simp [ArcTransaction.ghostDest, hc, hg hc]

/-- A legal miss commits or gets stuck. -/
theorem arcTransactionCommit_case (h : s.Inv) (hpl : s.Planned o at')
    (hlegal : at'.cacheEvict ≠ .null → s.arcQ at'.cacheEvict ≠ []) (w : Bool)
    (result : CacheNucleusResult) :
    (∃ s5 res cb, arcTransactionCommit s at' result = .ok (s5, { res with cblock := cb }) ∧
      res = s.evicted { result with op := if at'.cacheEvict = .null then .new else .replace }
        (queuePeek (s.arcQ at'.cacheEvict)) ∧
      s.Missed o w at' res.oldOblock cb
        { s5 with nucleus := dirtyWork s5.nucleus.incIos o w }) ∨
    ∃ f, arcTransactionCommit s at' result = .error f ∧ s.Stuck o at' := by
  rw [arcTransactionCommit_miss hpl]
  have h0 := h.aim at'.p
  obtain ⟨s1, hrun1, hs1⟩ := arcForget_spec h0 o
  have h1 := hs1.inv h0
  have hghost : ∀ r ∈ hashLookup s.nucleus o, r.pool = .metadata := hpl.uncached
  obtain ⟨hq1, he1, hf1⟩ := hs1.cache h0 hghost
  -- a ghost is evicted only when there was none of `o` to forget
  have hmeta : at'.metaEvict ≠ .null → s1 = s.aim at'.p := by
    intro hm
    rcases hpl.metaEvict with hx | ⟨_, habs⟩
    · exact absurd hx hm
    · have hl : hashLookup (s.aim at'.p).nucleus o = none := h.wf.hashLookup_eq_none.mpr habs
      rw [hl] at hs1
      cases hs1
      rfl
  have hqm : s1.arcQ at'.metaEvict = s.arcQ at'.metaEvict := by
    by_cases hm : at'.metaEvict = .null
    · rw [hm, h1.arcQ_null, h.arcQ_null]
    · rw [hmeta hm]
      rfl
  have hmpool := hpl.ghost_pool h
  have hcpool := hpl.cachePool
  simp only [hrun1, ok_bind]
  by_cases hm : at'.metaEvict ≠ .null ∧ s.arcQ at'.metaEvict = []
  · have hq : s1.arcQ at'.metaEvict = [] := by
      rw [hmeta hm.1]
      exact hm.2
    exact Or.inr ⟨_, by rw [arcMetaEvict_nil hm.1 hq]; rfl, Or.inl hm⟩
  have hne : at'.metaEvict ≠ .null → s1.arcQ at'.metaEvict ≠ [] := by
    intro hx hq
    rw [hmeta hx] at hq
    exact hm ⟨hx, hq⟩
  obtain ⟨s2, hrun2, hs2⟩ := arcMetaEvict_spec h1 at'.metaEvict { result with
    op := if at'.cacheEvict = .null then .new else .replace } hne
  have h2 := hs2.inv h1
  rw [hqm] at hs2
  obtain ⟨hq2, he2, hf2⟩ := hs2.cache h1 hmpool
  simp only [hrun2, ok_bind]
  have hqc : s2.arcQ at'.cacheEvict = s.arcQ at'.cacheEvict :=
    (hq2 _ hcpool).trans (hq1 _ hcpool)
  have hvpool := hpl.victim_pool h
  have hev : ∀ res : CacheNucleusResult, s2.evicted res (queuePeek (s.arcQ at'.cacheEvict)) =
      s.evicted res (queuePeek (s.arcQ at'.cacheEvict)) :=
    evicted_congr hvpool fun i => (he2 i).trans (he1 i)
  have habs2 : s2.nucleus.Absent o := hs2.absent (hs1.absent_lookup h0)
  by_cases hfull : at'.ghostDest ≠ .null ∧ (s2.nucleus.pool .metadata).free = []
  · -- nothing was freed in the metadata pool, so it was full from the start
    have hc := ArcTransaction.cacheEvict_of_ghostDest hpl.ghost hfull.1
    obtain ⟨hnone2, rfl⟩ := hs2.free_ne_nil hmpool hfull.2
    obtain ⟨hnone1, rfl⟩ := hs1.free_ne_nil hghost hfull.2
    have hm0 : at'.metaEvict = .null := by
      by_contra hx
      refine hm ⟨hx, ?_⟩
      cases hq : s.arcQ at'.metaEvict with
      | nil => rfl
      | cons r q =>
        rw [hq] at hnone2
        cases hnone2
    have hfail := arcMakeRoom_full h2 hpl.cacheEvict hc (hlegal hc) hfull.1 hfull.2 { result with
      op := if at'.cacheEvict = .null then .new else .replace }
    have habs : s.nucleus.Absent o := h.wf.hashLookup_eq_none.mp hnone1
    exact Or.inr ⟨_, by rw [hfail]; rfl, Or.inr (Or.inl ⟨hfull.1, hm0, habs, hfull.2⟩)⟩
  obtain ⟨s3, s4, hrun3, hs3, hs4⟩ := arcMakeRoom_spec h2 hpl.cacheEvict hpl.ghost
    (fun hc => by rw [hqc]; exact hlegal hc) (fun hg hf => hfull ⟨hg, hf⟩) { result with
      op := if at'.cacheEvict = .null then .new else .replace }
  rw [hqc, hev] at hrun3 hs4
  rw [hqc] at hs3
  have h3 := hs3.inv h2
  have h4 := hs4.inv h3
  simp only [hrun3, ok_bind]
  have hold : at'.ghostDest ≠ .null → (s.evicted { result with
      op := if at'.cacheEvict = .null then .new else .replace }
      (queuePeek (s.arcQ at'.cacheEvict))).oldOblock ≠ o := by
    intro hg
    have hc := ArcTransaction.cacheEvict_of_ghostDest hpl.ghost hg
    obtain ⟨v, q, hq⟩ := List.exists_cons_of_ne_nil (hlegal hc)
    have hal := (h2.head (hqc.trans hq)).1
    rw [← hev, hq]
    exact habs2 v hal
  have habs4 : s4.nucleus.Absent o := hs4.absent (hs3.absent habs2) hold
  cases hf : (s4.nucleus.pool .cache).free with
  | nil =>
    have hf3 : (s3.nucleus.pool .cache).free = [] := hs4.cache.2.symm.trans hf
    obtain ⟨hnone, rfl⟩ := hs3.free_ne_nil hvpool hf3
    have hc : at'.cacheEvict = .null := by
      by_contra hc
      obtain ⟨v, q, hq⟩ := List.exists_cons_of_ne_nil (hlegal hc)
      rw [hq] at hnone
      cases hnone
    refine Or.inr ⟨_, arcArrive_full hf _ _ _, Or.inr (Or.inr ⟨hc, ?_⟩)⟩
    exact (hf1.symm.trans hf2.symm).trans hf3
  | cons cb rest =>
    obtain ⟨s5, hrun5, hs5⟩ := arcArrive_spec h4 hf habs4 hpl.dest (s.evicted { result with
      op := if at'.cacheEvict = .null then .new else .replace }
      (queuePeek (s.arcQ at'.cacheEvict)))
    exact Or.inl ⟨s5, _, cb, hrun5, rfl, fun hx hq => hm ⟨hx, hq⟩, hs1, hqm, hs2, hqc, hs3, hs4,
      hf, hs5.finish rfl rfl rfl w⟩

theorem arcMapApi_legal (hset : arcTransactionSet s (arcTransactionInit s o) = .ok at')
    (hlegal : at'.cacheEvict ≠ .null → s.arcQ at'.cacheEvict ≠ []) (w : Bool)
    (result : CacheNucleusResult) :
    arcMapApi s o w result = (do
      let (arc, result) ← arcTransactionCommit s at' result
      return ({ arc with nucleus := dirtyWork arc.nucleus.incIos o w }, result)) := by
  have hleg : arcTransactionIsLegal s at' = true := by
    by_cases hc : at'.cacheEvict = .null
    · simp [arcTransactionIsLegal, hc]
    · simp [arcTransactionIsLegal, hc, List.length_pos_iff.mpr (hlegal hc)]
  simp only [arcMapApi, hset, ok_bind, hleg, if_true]

theorem arcMapApi_illegal (hset : arcTransactionSet s (arcTransactionInit s o) = .ok at')
    (hc : at'.cacheEvict ≠ .null) (hq : s.arcQ at'.cacheEvict = []) (w : Bool)
    (result : CacheNucleusResult) :
    arcMapApi s o w result = .ok (s, { result with op := .fail }) := by
  have hleg : arcTransactionIsLegal s at' = false := by
    simp [arcTransactionIsLegal, hc, hq]
  simp only [arcMapApi, hset, ok_bind, hleg, Bool.false_eq_true, if_false, pure_eq_ok]

theorem arcMapApi_case (h : s.Inv) (o : Oblock) (w : Bool) (result : CacheNucleusResult) :
    s.MapCase o w result (arcMapApi s o w result) := by
  obtain ⟨at', hset, hst⟩ := arcTransactionSet_staged h o
  rcases hst.hit_or_planned h with ⟨r, hl, hp, rfl⟩ | hpl
  · obtain ⟨ha, ho⟩ := h.wf.hashLookup_eq_some.mp hl
    obtain ⟨s', hrun, hs⟩ := arcTransactionCommit_hit hl hp h result
    have hfin := hs.finish hp ha ho w
    rw [arcMapApi_legal hset fun hx => absurd rfl hx, hrun]
    exact .hit hl hp hfin
  · by_cases hlegal : at'.cacheEvict ≠ .null → s.arcQ at'.cacheEvict ≠ []
    · rw [arcMapApi_legal hset hlegal]
      rcases arcTransactionCommit_case h hpl hlegal w result with
        ⟨s5, res, cb, hrun, hres, hmiss⟩ | ⟨f, hrun, hstuck⟩
      · rw [hrun]
        exact .miss hst hpl hlegal hres hmiss
      · rw [hrun]
        exact .stuck hst hpl hstuck
    · have hc : at'.cacheEvict ≠ .null := fun hx => hlegal fun hy => absurd hx hy
      have hq : s.arcQ at'.cacheEvict = [] := by
        by_contra hx
        exact hlegal fun _ => hx
      rw [arcMapApi_illegal hset hc hq]
      exact .refused hst hpl hc hq

end Fomo
