import Fomo.Algs.ArcPolicy
import Fomo.Include.Queued
import Fomo.Lib.Count

/-!
# What the ARC operations do

Between its assertions ARC only ever frees an entry, takes one for a list, moves one to
another list or completes its migration. Each is a `Step`: one entry and its `loc` are
rewritten, the queues follow, and `length` keeps counting the entries of each list.
-/
namespace Fomo

/-- The pool the entries of a list lie in. -/
def ArcList.pool : ArcList → PoolId
  | .b1 | .b2 => .metadata
  | _ => .cache

namespace ArcPolicy

/-- The number of entries that belong to a list. -/
def members (s : ArcPolicy) (list : ArcList) : Nat :=
  Lib.slots (s.nucleus.pool list.pool).nrEntries fun i =>
    (s.nucleus.entry ⟨list.pool, i⟩).allocated && decide (s.loc ⟨list.pool, i⟩ = list)

/-- Queues and lengths agree with what the entries say. -/
structure Inv (s : ArcPolicy) : Prop where
  wf : s.nucleus.Wf
  queued : Queued s.nucleus s.loc s.arcQ
  home : ∀ r, (s.nucleus.entry r).allocated = true → s.loc r ≠ .null ∧ (s.loc r).pool = r.pool
  settled : ∀ r, r.pool = .metadata → (s.nucleus.entry r).migrating = false
  length : ∀ list, s.length list = s.members list

/-- `s'` is `s` with the entry `r` rewritten to `e`, its list set to `list`, the free list
of its pool and the queues replaced. -/
structure Step (s : ArcPolicy) (r : EntryRef) (e : Entry) (list : ArcList) (free : List Nat)
    (q : ArcList → Queue) (s' : ArcPolicy) : Prop where
  inv : s'.Inv
  rewrites : s.nucleus.Rewrites r e free s'.nucleus
  loc : s'.loc = Function.update s.loc r list
  queue : s'.arcQ = q
  p : s'.p = s.p

variable {s s' : ArcPolicy} {r : EntryRef} {e : Entry} {list : ArcList} {free : List Nat}
  {o : Oblock} {q : ArcList → Queue}

/-- `1` for an entry in use on the list. -/
def inList (e : Entry) (x list : ArcList) : Nat := if e.allocated = true ∧ x = list then 1 else 0

theorem inList_self (ha : e.allocated = true) (list : ArcList) : inList e list list = 1 :=
  if_pos ⟨ha, rfl⟩

theorem inList_of_ne {x : ArcList} (hx : x ≠ list) : inList e x list = 0 := if_neg fun h => hx h.2

theorem inList_of_free (ha : e.allocated = false) (x list : ArcList) : inList e x list = 0 :=
  if_neg fun h => by simp [ha] at h

/-- A rewrite changes the members of the entry's old and new list alone. -/
theorem Inv.members_rewrite (h : s.Inv) (hrw : s.nucleus.Rewrites r e free s'.nucleus)
    (hloc : s'.loc = Function.update s.loc r list)
    (hlt : r.index < (s.nucleus.pool r.pool).nrEntries)
    (hhome : e.allocated = true → list.pool = r.pool) (l : ArcList) :
    s'.members l + inList (s.nucleus.entry r) (s.loc r) l = s.members l + inList e list l := by
  have hn := hrw.nrEntries l.pool
  obtain ⟨rp, ri⟩ := r
  by_cases hp : l.pool = rp
  · subst hp
    have hupd := Lib.slots_update (n := (s.nucleus.pool l.pool).nrEntries) (j := ri)
      (p := fun i => (s.nucleus.entry ⟨l.pool, i⟩).allocated && decide (s.loc ⟨l.pool, i⟩ = l))
      (q := fun i => (s'.nucleus.entry ⟨l.pool, i⟩).allocated && decide (s'.loc ⟨l.pool, i⟩ = l))
      hlt fun i hi => by
        have hne : (⟨l.pool, i⟩ : EntryRef) ≠ ⟨l.pool, ri⟩ := by simpa using hi
        rw [hrw.entry_of_ne hne, hloc, Function.update_of_ne hne]
    rw [hrw.entry_self, hloc, Function.update_self] at hupd
    simp only [Bool.and_eq_true, decide_eq_true_eq] at hupd
    rw [members, members, hn, hloc]
    exact hupd
  · have h1 : inList (s.nucleus.entry ⟨rp, ri⟩) (s.loc ⟨rp, ri⟩) l = 0 := by
      by_cases ha : (s.nucleus.entry ⟨rp, ri⟩).allocated = true
      · apply inList_of_ne
        intro hl
        exact hp (hl ▸ (h.home _ ha).2)
      · exact inList_of_free (by simpa using ha) _ _
    have h2 : inList e list l = 0 := by
      by_cases ha : e.allocated = true
      · apply inList_of_ne
        intro hl
        exact hp (hl ▸ hhome ha)
      · exact inList_of_free (by simpa using ha) _ _
    rw [h1, h2, members, members, hn]
    apply Lib.slots_congr
    intro i _
    have hne : (⟨l.pool, i⟩ : EntryRef) ≠ ⟨rp, ri⟩ := fun heq => hp (congrArg EntryRef.pool heq)
    rw [hrw.entry_of_ne hne, hloc, Function.update_of_ne hne]

/-- The parts of a step, put together. -/
theorem Inv.step (h : s.Inv) (hrw : s.nucleus.Rewrites r e free s'.nucleus)
    (hloc : s'.loc = Function.update s.loc r list) (hq : Queued s'.nucleus s'.loc s'.arcQ)
    (hp : s'.p = s.p) (hlt : r.index < (s.nucleus.pool r.pool).nrEntries)
    (hhome : e.allocated = true → list ≠ .null ∧ list.pool = r.pool)
    (hset : r.pool = .metadata → e.migrating = false)
    (hlen : ∀ l, s'.length l + inList (s.nucleus.entry r) (s.loc r) l =
      s.length l + inList e list l) : s.Step r e list free s'.arcQ s' := by
  have hmem := h.members_rewrite hrw hloc hlt fun ha => (hhome ha).2
  refine ⟨⟨hrw.wf, hq, ?_, ?_, ?_⟩, hrw, hloc, rfl, hp⟩
  · intro x hx
    by_cases hxr : x = r
    · subst hxr
      rw [hrw.entry_self] at hx
      rw [hloc, Function.update_self]
      exact hhome hx
    · rw [hrw.entry_of_ne hxr] at hx
      rw [hloc, Function.update_of_ne hxr]
      exact h.home x hx
  · intro x hx
    by_cases hxr : x = r
    · subst hxr
      rw [hrw.entry_self]
      exact hset hx
    · rw [hrw.entry_of_ne hxr]
      exact h.settled x hx
  · intro l
    have h1 := hmem l
    have h2 := hlen l
    have h3 := h.length l
    omega

/-- How the lengths change in a step. -/
theorem Step.length (hs : s.Step r e list free q s') (h : s.Inv)
    (hlt : r.index < (s.nucleus.pool r.pool).nrEntries) (l : ArcList) :
    s'.length l + inList (s.nucleus.entry r) (s.loc r) l = s.length l + inList e list l := by
  have hhome : e.allocated = true → list.pool = r.pool := by
    intro ha
    have := (hs.inv.home r (by rw [hs.rewrites.entry_self]; exact ha)).2
    rwa [hs.loc, Function.update_self] at this
  have h1 := h.members_rewrite hs.rewrites hs.loc hlt hhome l
  have h2 := h.length l
  have h3 := hs.inv.length l
  omega

theorem Inv.length_pos (h : s.Inv) (ha : (s.nucleus.entry r).allocated = true) :
    0 < s.length (s.loc r) := by
  have hp := (h.home r ha).2
  rw [h.length]
  refine Lib.slots_pos (j := r.index) (by rw [hp]; exact h.wf.lt_of_allocated ha) ?_
  rw [hp]
  simp [ha]

theorem Inv.length_lt (h : s.Inv) (l : ArcList) : s.length l < 2 ^ 32 := by
  have hle := Lib.slots_le (s.nucleus.pool l.pool).nrEntries fun i =>
    (s.nucleus.entry ⟨l.pool, i⟩).allocated && decide (s.loc ⟨l.pool, i⟩ = l)
  have hn := (h.wf.pools l.pool).nr_lt
  rw [h.length]
  exact Nat.lt_of_le_of_lt hle hn

/-- The target and the statistics are no part of the invariant. -/
theorem Inv.withTarget (h : s.Inv) (p : Nat) (stats : PolicyStats) :
    ({ s with p := p, nucleus := { s.nucleus with stats := stats } } : ArcPolicy).Inv :=
  ⟨h.wf.withStats stats, ⟨h.queued.nodup, h.queued.mem⟩, h.home, h.settled, h.length⟩

/-- `s'` is `s` with the entry `r` freed. -/
def Frees (s : ArcPolicy) (r : EntryRef) (s' : ArcPolicy) : Prop :=
  s.Step r (s.nucleus.freedEntry r) .null (r.index :: (s.nucleus.pool r.pool).free)
    (fun l => (s.arcQ l).erase r) s'

end ArcPolicy

open ArcPolicy

variable {s s' : ArcPolicy} {r : EntryRef} {o : Oblock} {list : ArcList}

/-! ## Freeing -/

theorem arcRemoveEntry_spec (h : s.Inv) (ha : (s.nucleus.entry r).allocated = true) :
    ∃ s', arcRemoveEntry s r = .ok s' ∧ s.Frees r s' := by
  have hnull := (h.home r ha).1
  -- a migrating entry is in no queue, and demotions do not matter
  obtain ⟨st, hrun0⟩ : ∃ st, arcRemoveEntry s r = (do
      let nucleus ← cacheNucleusRemove { s.nucleus with stats := st } r
      return { s with
        nucleus := nucleus
        arcQ := fun l => (s.arcQ l).erase r
        length := Function.update s.length (s.loc r) (dec32 (s.length (s.loc r)))
        loc := Function.update s.loc r .null }) := by
    by_cases hm : (s.nucleus.entry r).migrating = true
    · have hq : (fun l => (s.arcQ l).erase r) = s.arcQ := by
        funext l
        exact List.erase_of_not_mem (h.queued.not_mem_of_migrating hm l)
      refine ⟨s.nucleus.stats, ?_⟩
      simp [arcRemoveEntry, hnull, hm, setLength, setLoc, hq]
    · by_cases hp : r.pool = .cache
      · refine ⟨s.nucleus.incDemotions.stats, ?_⟩
        simp [arcRemoveEntry, hnull, hm, setLength, setLoc, unqueue, inCache, hp,
          CacheNucleus.incDemotions]
      · refine ⟨s.nucleus.stats, ?_⟩
        simp [arcRemoveEntry, hnull, hm, setLength, setLoc, unqueue, inCache, hp]
  obtain ⟨cn, hrun, hrw⟩ := (h.wf.withStats st).cacheNucleusRemove (r := r) ha
  have hrw := hrw.ofStats
  let s' : ArcPolicy := { s with
    nucleus := cn
    arcQ := fun l => (s.arcQ l).erase r
    length := Function.update s.length (s.loc r) (dec32 (s.length (s.loc r)))
    loc := Function.update s.loc r .null }
  have hlen : ∀ l, s'.length l + inList (s.nucleus.entry r) (s.loc r) l =
      s.length l + inList (s.nucleus.freedEntry r) .null l := by
    intro l
    have hpos := h.length_pos ha
    have hlt := h.length_lt (s.loc r)
    rw [inList_of_free (e := CacheNucleus.freedEntry _ r) rfl]
    by_cases hl : s.loc r = l
    · subst hl
      have : s'.length (s.loc r) = dec32 (s.length (s.loc r)) := Function.update_self ..
      rw [inList_self ha, this, dec32_of_pos hpos (by omega)]
      omega
    · have : s'.length l = s.length l := Function.update_of_ne (Ne.symm hl) ..
      rw [inList_of_ne hl, this]
  have hq := h.queued.drop hrw (g := s'.loc) (fun x hx => Function.update_of_ne hx _ _)
    (Or.inl rfl)
  have hs : s.Step r (s.nucleus.freedEntry r) .null _ s'.arcQ s' :=
    h.step hrw rfl hq rfl (h.wf.lt_of_allocated ha) (fun hx => absurd hx Bool.false_ne_true)
      (fun _ => rfl) hlen
  exact ⟨s', by rw [hrun0, hrun]; rfl, hs⟩

/-- The head of a queue is settled. -/
theorem ArcPolicy.Inv.head (h : s.Inv) {q : Queue} (hq : s.arcQ list = r :: q) :
    (s.nucleus.entry r).allocated = true ∧ (s.nucleus.entry r).migrating = false ∧
      s.loc r = list :=
  (h.queued.mem list r).mp (by rw [hq]; exact List.mem_cons_self)

theorem arcEvict_spec (h : s.Inv) {q : Queue} (hq : s.arcQ list = r :: q)
    (result : CacheNucleusResult) :
    ∃ s', arcEvict s list result = .ok (s', { result with
        oldOblock := (s.nucleus.entry r).oblock
        dirtyEviction := (s.nucleus.entry r).dirty }) ∧ s.Frees r s' := by
  obtain ⟨ha, hm, hl⟩ := h.head hq
  obtain ⟨s', hrun, hs⟩ := arcRemoveEntry_spec h ha
  refine ⟨s', ?_, hs⟩
  -- the pop unlinks the entry; removing it from its queue again does nothing
  have hnd : (r :: q).Nodup := hq ▸ h.queued.nodup list
  have hpop : arcRemoveEntry { s with arcQ := Function.update s.arcQ list q } r =
      arcRemoveEntry s r := by
    have hqs : (fun l => (Function.update s.arcQ list q l).erase r) =
        fun l => (s.arcQ l).erase r := by
      funext l
      by_cases hll : l = list
      · subst hll
        rw [Function.update_self, hq, List.erase_cons_head,
          List.erase_of_not_mem (List.nodup_cons.mp hnd).1]
      · rw [Function.update_of_ne hll]
    simp only [arcRemoveEntry, hm, setLength, setLoc, unqueue, queueRemove_eq, hqs,
      Bool.false_eq_true, if_false]
  simp only [arcEvict, hq, queuePop_cons, deref_some, ok_bind, hpop, hrun, pure_eq_ok]

theorem arcEvict_nil (hq : s.arcQ list = []) (result : CacheNucleusResult) :
    arcEvict s list result = .error .nullPointer := by
  simp [arcEvict, hq]

/-! ## Taking an entry -/

theorem arcSetForList_null (s : ArcPolicy) (r : EntryRef) (list : ArcList) :
    arcSetForList (s.setLoc r .null) r list = { s with
      loc := Function.update s.loc r list
      length := Function.update s.length list (s.length list + 1) } := by
  simp [arcSetForList, setLoc, setLength, Function.update_idem]

/-- A free entry is taken for a list. -/
theorem ArcPolicy.Inv.enter (h : s.Inv) {cn : CacheNucleus} {e : Entry} {free : List Nat}
    {q : ArcList → Queue} (hrw : s.nucleus.Rewrites r e free cn)
    (hnew : (s.nucleus.entry r).allocated = false) (ha : e.allocated = true)
    (hl : list ≠ .null) (hp : list.pool = r.pool) (hset : r.pool = .metadata → e.migrating = false)
    (hq : Queued cn (Function.update s.loc r list) q) :
    s.Step r e list free q { s with
      nucleus := cn
      arcQ := q
      loc := Function.update s.loc r list
      length := Function.update s.length list (s.length list + 1) } := by
  have hlt := hrw.wf.lt_of_allocated (r := r) (by rw [hrw.entry_self]; exact ha)
  rw [hrw.nrEntries] at hlt
  let s' : ArcPolicy := { s with
    nucleus := cn
    arcQ := q
    loc := Function.update s.loc r list
    length := Function.update s.length list (s.length list + 1) }
  have hlen : ∀ l, s'.length l + inList (s.nucleus.entry r) (s.loc r) l =
      s.length l + inList e list l := by
    intro l
    rw [inList_of_free hnew]
    by_cases hll : list = l
    · subst hll
      have : s'.length list = s.length list + 1 := Function.update_self ..
      rw [this, inList_self ha]
    · have : s'.length l = s.length l := Function.update_of_ne (Ne.symm hll) ..
      rw [this, inList_of_ne hll]
  have hs : s.Step r e list free s'.arcQ s' :=
    h.step hrw rfl hq rfl hlt (fun _ => ⟨hl, hp⟩) hset hlen
  exact hs

/-- A ghost of `o` at the recent end of `dest`. -/
def arcGhost (s : ArcPolicy) (o : Oblock) (dest : ArcList) : Exec ArcPolicy := do
  let (nucleus, metaAe) ← insertInMeta s.nucleus o
  let arc := arcSetForList ({ s with nucleus := nucleus }.setLoc metaAe .null) metaAe dest
  return arc.push dest metaAe

theorem arcGhost_spec (h : s.Inv) {i : Nat} {rest : List Nat}
    (hf : (s.nucleus.pool .metadata).free = i :: rest) (habs : s.nucleus.Absent o)
    (hd : list.pool = .metadata) :
    ∃ s', arcGhost s o list = .ok s' ∧
      s.Step ⟨.metadata, i⟩ (s.nucleus.freshEntry ⟨.metadata, i⟩ o) list rest
        (Function.update s.arcQ list (s.arcQ list ++ [⟨.metadata, i⟩])) s' := by
  obtain ⟨cn, hrun, hrw⟩ := h.wf.insertInMeta hf habs
  have hfree := (h.wf.mem_free (r := ⟨.metadata, i⟩)).mp (by simp [hf])
  have hm := h.wf.not_migrating hfree.2
  have hq := h.queued.push hrw (g := Function.update s.loc ⟨.metadata, i⟩ list)
    (fun x hx => Function.update_of_ne hx _ _) (h.queued.not_mem_of_free hfree.2) rfl hm
    (Function.update_self ..)
  have hl : list ≠ .null := by
    intro hnull
    subst hnull
    cases hd
  refine ⟨_, ?_, h.enter hrw hfree.2 rfl hl hd (fun _ => hm) hq⟩
  simp only [arcGhost, hrun, ok_bind, arcSetForList_null, push, queuePush_eq, pure_eq_ok]

theorem arcGhost_full (hf : (s.nucleus.pool .metadata).free = []) (o : Oblock) (list : ArcList) :
    arcGhost s o list = .error .assertion := by
  simp only [arcGhost, insertInMeta, CacheNucleus.allocPoolEntry_nil hf, error_bind]

/-- `o` takes the first free slot for `dest` and starts to migrate. -/
def arcArrive (s : ArcPolicy) (o : Oblock) (dest : ArcList) (result : CacheNucleusResult) :
    Exec (ArcPolicy × CacheNucleusResult) := do
  let (nucleus, ae, result) ← insertInCache s.nucleus o result
  let arc := arcSetForList ({ s with nucleus := nucleus }.setLoc ae .null) ae dest
  let nucleus ← migratingCacheEntry arc.nucleus ae
  return ({ arc with nucleus := nucleus }, result)

theorem arcArrive_spec (h : s.Inv) {cb : Cblock} {rest : List Nat}
    (hf : (s.nucleus.pool .cache).free = cb :: rest) (habs : s.nucleus.Absent o)
    (hd : list = .t1 ∨ list = .t2) (result : CacheNucleusResult) :
    ∃ s', arcArrive s o list result = .ok (s', { result with cblock := cb }) ∧
      s.Step ⟨.cache, cb⟩ (s.nucleus.arrivingEntry ⟨.cache, cb⟩ o) list rest s.arcQ s' := by
  obtain ⟨cn1, cn, hrun1, hrun2, hrw⟩ := h.wf.insertMigrating hf habs result
  have hfree := (h.wf.mem_free (r := ⟨.cache, cb⟩)).mp (by simp [hf])
  have hq := h.queued.keep hrw (g := Function.update s.loc ⟨.cache, cb⟩ list)
    (fun x hx => Function.update_of_ne hx _ _) (h.queued.not_mem_of_free hfree.2) (Or.inr rfl)
  have hl : list ≠ .null ∧ list.pool = .cache := by
    rcases hd with rfl | rfl
    · exact ⟨by decide, rfl⟩
    · exact ⟨by decide, rfl⟩
  refine ⟨_, ?_, h.enter hrw hfree.2 rfl hl.1 hl.2 (fun hx => nomatch hx) hq⟩
  simp only [arcArrive, hrun1, ok_bind, arcSetForList_null, hrun2, pure_eq_ok]

theorem arcArrive_full (hf : (s.nucleus.pool .cache).free = []) (o : Oblock) (list : ArcList)
    (result : CacheNucleusResult) : arcArrive s o list result = .error .assertion := by
  simp only [arcArrive, insertInCache, CacheNucleus.allocPoolEntry_nil hf, error_bind]

/-! ## A hit -/

/-- A cached entry goes to `T2`; a settled one to the recent end. -/
def arcTouch (s : ArcPolicy) (ae : EntryRef) (dest : ArcList) (result : CacheNucleusResult) :
    Exec (ArcPolicy × CacheNucleusResult) := do
  let migrating := (s.nucleus.entry ae).migrating
  let arc := arcSetForList s ae dest
  let cblock ← inferCacheCblock arc.nucleus ae
  let result := { result with cblock := cblock }
  if migrating then return (arc, result)
  else return ((arc.unqueue ae).push dest ae, result)

/-- The queues after the cached entry `r` has been touched. -/
def ArcPolicy.touchedQ (s : ArcPolicy) (r : EntryRef) (dest : ArcList) : ArcList → Queue :=
  if (s.nucleus.entry r).migrating then s.arcQ
  else Function.update (fun l => (s.arcQ l).erase r) dest ((s.arcQ dest).erase r ++ [r])

theorem arcTouch_spec (h : s.Inv) (ha : (s.nucleus.entry r).allocated = true)
    (hp : r.pool = .cache) (hd : list = .t1 ∨ list = .t2) (result : CacheNucleusResult) :
    ∃ s', arcTouch s r list result = .ok (s', { result with cblock := r.index }) ∧
      s.Step r (s.nucleus.entry r) list (s.nucleus.pool r.pool).free (s.touchedQ r list) s' := by
  have hnull := (h.home r ha).1
  have hpos := h.length_pos ha
  have hlt := h.length_lt (s.loc r)
  have hl : list ≠ .null ∧ list.pool = r.pool := by
    rw [hp]
    rcases hd with rfl | rfl
    · exact ⟨by decide, rfl⟩
    · exact ⟨by decide, rfl⟩
  have hrw := h.wf.rewrites_self r
  have hhome : ∀ x, x ≠ r → Function.update s.loc r list x = s.loc x :=
    fun x hx => Function.update_of_ne hx _ _
  let s' : ArcPolicy := { s with
    arcQ := s.touchedQ r list
    loc := Function.update s.loc r list
    length := (arcSetForList s r list).length }
  have hq : Queued s'.nucleus s'.loc s'.arcQ := by
    show Queued s.nucleus (Function.update s.loc r list) (s.touchedQ r list)
    unfold touchedQ
    split
    · next hm => exact h.queued.keep hrw hhome (h.queued.not_mem_of_migrating hm) (Or.inr hm)
    · next hm => exact h.queued.touch hrw hhome ha (by simpa using hm) (Function.update_self ..)
  have hlen : ∀ l, s'.length l + inList (s.nucleus.entry r) (s.loc r) l =
      s.length l + inList (s.nucleus.entry r) list l := by
    intro l
    have hs' : s'.length = Function.update
        (Function.update s.length (s.loc r) (dec32 (s.length (s.loc r)))) list
        (Function.update s.length (s.loc r) (dec32 (s.length (s.loc r))) list + 1) := by
      simp [s', arcSetForList, hnull, setLength, setLoc]
    rw [hs', dec32_of_pos hpos (by omega)]
    by_cases h1 : s.loc r = l <;> by_cases h2 : list = l
    · subst h2
      rw [h1, inList_self ha, Function.update_self, Function.update_self, ← h1]
      omega
    · subst h1
      rw [inList_self ha, inList_of_ne h2, Function.update_of_ne (Ne.symm h2),
        Function.update_self]
      omega
    · subst h2
      rw [inList_self ha, inList_of_ne h1, Function.update_self,
        Function.update_of_ne (Ne.symm h1)]
    · rw [inList_of_ne h1, inList_of_ne h2, Function.update_of_ne (Ne.symm h2),
        Function.update_of_ne (Ne.symm h1)]
  have hs : s.Step r _ list _ s'.arcQ s' :=
    h.step hrw rfl hq rfl (h.wf.lt_of_allocated ha) (fun _ => hl)
      (fun hx => h.settled r hx) hlen
  refine ⟨s', ?_, hs⟩
  have hinfer := h.wf.inferCacheCblock hp
  by_cases hm : (s.nucleus.entry r).migrating = true
  · simp [arcTouch, arcSetForList, hnull, setLength, setLoc, hinfer, hm, s', touchedQ]
  · simp [arcTouch, arcSetForList, hnull, setLength, setLoc, hinfer, hm, s', touchedQ, unqueue,
      push]

/-! ## The other calls -/

theorem arcMigratedApi_spec (h : s.Inv) (hl : hashLookup s.nucleus o = some r)
    (hp : r.pool = .cache) (hm : (s.nucleus.entry r).migrating = true) :
    ∃ s', arcMigratedApi s o = .ok s' ∧
      s.Step r { s.nucleus.entry r with migrating := false } (s.loc r)
        (s.nucleus.pool r.pool).free
        (Function.update s.arcQ (s.loc r) (s.arcQ (s.loc r) ++ [r])) s' := by
  have ha := (h.wf.hashLookup_eq_some.mp hl).1
  have hhome := h.home r ha
  obtain ⟨cn, hrun, hrw⟩ := h.wf.migratedCacheEntry hp hm
  have hrw' := hrw.withStats cn.incPromotions.stats
  have hupd : Function.update s.loc r (s.loc r) = s.loc := Function.update_eq_self r s.loc
  let s' : ArcPolicy := { s with
    nucleus := cn.incPromotions
    arcQ := Function.update s.arcQ (s.loc r) (s.arcQ (s.loc r) ++ [r]) }
  have hq := h.queued.push hrw' (g := s.loc) (fun x _ => rfl)
    (h.queued.not_mem_of_migrating hm) ha rfl rfl
  have hs : s.Step r { s.nucleus.entry r with migrating := false } (s.loc r)
      (s.nucleus.pool r.pool).free s'.arcQ s' := by
    refine h.step hrw' hupd.symm hq rfl (h.wf.lt_of_allocated ha) (fun _ => hhome)
      (fun _ => rfl) fun l => ?_
    rfl
  refine ⟨s', ?_, hs⟩
  simp only [arcMigratedApi, hl, logAssert_true hm, ok_bind, hrun, logAssert_true hhome.1,
    push, queuePush_eq, pure_eq_ok, s']

/-- A completed migration that returns completed one. -/
theorem arcMigratedApi_step (h : s.Inv) (hrun : arcMigratedApi s o = .ok s') :
    ∃ r, hashLookup s.nucleus o = some r ∧
      s.Step r { s.nucleus.entry r with migrating := false } (s.loc r)
        (s.nucleus.pool r.pool).free
        (Function.update s.arcQ (s.loc r) (s.arcQ (s.loc r) ++ [r])) s' := by
  have hans := hrun
  unfold arcMigratedApi at hans
  cases hl : hashLookup s.nucleus o with
  | none =>
    rw [hl] at hans
    cases hans
  | some r =>
    rw [hl] at hans
    obtain ⟨_, hm, hans⟩ := bind_eq_ok.mp hans
    obtain ⟨x, hmig, _⟩ := bind_eq_ok.mp hans
    obtain ⟨_, hp, _⟩ := bind_eq_ok.mp hmig
    obtain ⟨s1, hrun1, hs⟩ := arcMigratedApi_spec h hl (logAssert_eq_ok.mp hp)
      (logAssert_eq_ok.mp hm)
    obtain rfl := Except.ok.inj (hrun1.symm.trans hrun)
    exact ⟨r, rfl, hs⟩

theorem arcInsertApi_spec (h : s.Inv) {cb : Cblock}
    (hcb : cb < (s.nucleus.pool .cache).nrEntries)
    (hfree : (s.nucleus.entry ⟨.cache, cb⟩).allocated = false) (habs : s.nucleus.Absent o) :
    ∃ s', arcInsertApi s o cb = .ok s' ∧
      s.Step ⟨.cache, cb⟩ (s.nucleus.freshEntry ⟨.cache, cb⟩ o) .t1
        ((s.nucleus.pool .cache).free.erase cb)
        (Function.update s.arcQ .t1 (s.arcQ .t1 ++ [⟨.cache, cb⟩])) s' := by
  obtain ⟨cn, hrun, hrw⟩ := h.wf.allocPoolEntryAt hcb hfree habs
  have hm := h.wf.not_migrating hfree
  have hq := h.queued.push hrw (g := Function.update s.loc ⟨.cache, cb⟩ .t1)
    (fun x hx => Function.update_of_ne hx _ _) (h.queued.not_mem_of_free hfree) rfl hm
    (Function.update_self ..)
  refine ⟨_, ?_, h.enter hrw hfree rfl (by decide) rfl (fun _ => hm) hq⟩
  simp only [arcInsertApi, insertInCacheAt, hrun, ok_bind, arcSetForList_null, push,
    queuePush_eq, pure_eq_ok]

theorem arcRemap_spec (h : s.Inv) {a b : Oblock} (hl : hashLookup s.nucleus a = some r)
    (habs : s.nucleus.Absent b) :
    ∃ s', arcApi.remap s a b = .ok s' ∧ s.Step r { s.nucleus.entry r with oblock := b } (s.loc r)
      (s.nucleus.pool r.pool).free s.arcQ s' := by
  obtain ⟨cn, hrun, hrw⟩ := h.wf.defaultRemap hl habs
  have ha := (h.wf.hashLookup_eq_some.mp hl).1
  have hq := h.queued.same hrw (g := s.loc) (fun x _ => rfl) rfl rfl rfl
  have hupd : Function.update s.loc r (s.loc r) = s.loc := Function.update_eq_self r s.loc
  let s' : ArcPolicy := { s with nucleus := cn }
  have hs : s.Step r { s.nucleus.entry r with oblock := b } (s.loc r)
      (s.nucleus.pool r.pool).free s'.arcQ s' := by
    refine h.step hrw hupd.symm hq rfl (h.wf.lt_of_allocated ha) (fun _ => h.home r ha)
      (fun hx => h.settled r hx) fun l => ?_
    rfl
  refine ⟨s', ?_, hs⟩
  simp only [arcApi, hrun, ok_bind, pure_eq_ok, s']

end Fomo
