import Fomo.Algs.ArcStructure
import Fomo.Lib.Arc
import Fomo.Lib.KeyedList

/-!
# Synchronous ARC

When the migration of every admitted block completes before the next request, the four
queues hold the oblocks that the ARC of the paper holds: the commit frees ghosts before
it evicts and queues the new block last, but nothing of that order shows in the lists.
-/
namespace Fomo

namespace ArcPolicy

/-- The oblocks of a queue, least recent first. -/
def oblocks (s : ArcPolicy) (list : ArcList) : List Oblock :=
  (s.arcQ list).map fun r => (s.nucleus.entry r).oblock

/-- The lists and the target as the paper sees them. -/
def reference (s : ArcPolicy) : Lib.Arc Oblock where
  t1 := s.oblocks .t1
  t2 := s.oblocks .t2
  b1 := s.oblocks .b1
  b2 := s.oblocks .b2
  p := s.p

/-- Between requests the bounds hold and nothing migrates. -/
structure Synced (c m : Nat) (s : ArcPolicy) : Prop where
  bounded : s.Bounded c m
  settled : ∀ r, (s.nucleus.entry r).migrating = false

variable {s s' s'' : ArcPolicy} {r : EntryRef} {o a : Oblock} {list l : ArcList} {e : Entry}
  {free : List Nat} {q : ArcList → Queue} {at' : ArcTransaction} {c m : Nat} {w : Bool}

/-! ## Oblocks of the queues -/

theorem Inv.oblocks_nodup (h : s.Inv) (l : ArcList) : (s.oblocks l).Nodup := by
  apply (h.queued.nodup l).map_on
  intro x hx y hy hxy
  exact h.wf.inj x y ((h.queued.mem l x).mp hx).1 ((h.queued.mem l y).mp hy).1 hxy

theorem Inv.mem_oblocks (h : s.Inv) : o ∈ s.oblocks l ↔ ∃ r, hashLookup s.nucleus o = some r ∧
    (s.nucleus.entry r).migrating = false ∧ s.loc r = l := by
  simp only [oblocks, List.mem_map, h.queued.mem, h.wf.hashLookup_eq_some]
  constructor
  · rintro ⟨r, ⟨ha, hm, hl⟩, ho⟩
    exact ⟨r, ⟨ha, ho⟩, hm, hl⟩
  · rintro ⟨r, ⟨ha, ho⟩, hm, hl⟩
    exact ⟨r, ⟨ha, hm, hl⟩, ho⟩

theorem Inv.not_mem_oblocks (h : s.Inv) (habs : s.nucleus.Absent o) (l : ArcList) :
    o ∉ s.oblocks l := by
  rw [h.mem_oblocks, h.wf.hashLookup_eq_none.mpr habs]
  simp

/-- The queues after a step that keeps the oblock of its entry. -/
theorem Step.oblocks_same (hs : s.Step r e list free q s')
    (he : e.oblock = (s.nucleus.entry r).oblock) (l : ArcList) :
    s'.oblocks l = (q l).map fun x => (s.nucleus.entry x).oblock := by
  rw [oblocks, hs.queue]
  refine List.map_congr_left fun x _ => ?_
  by_cases hx : x = r
  · rw [hx, hs.rewrites.entry_self, he]
  · rw [hs.rewrites.entry_of_ne hx]

/-- The queues after a step whose entry they do not list. -/
theorem Step.oblocks_out (hs : s.Step r e list free q s') (hr : r ∉ q l) :
    s'.oblocks l = (q l).map fun x => (s.nucleus.entry x).oblock := by
  rw [oblocks, hs.queue]
  refine List.map_congr_left fun x hx => ?_
  rw [hs.rewrites.entry_of_ne]
  rintro rfl
  exact hr hx

/-- The oblocks of a queue without an entry. -/
theorem Inv.oblocks_erase (h : s.Inv) (ha : (s.nucleus.entry r).allocated = true) (l : ArcList) :
    ((s.arcQ l).erase r).map (fun x => (s.nucleus.entry x).oblock) =
      (s.oblocks l).erase (s.nucleus.entry r).oblock := by
  by_cases hr : r ∈ s.arcQ l
  · exact Lib.map_erase_of_nodup (h.oblocks_nodup l) hr
  · rw [List.erase_of_not_mem hr, List.erase_of_not_mem]
    · rfl
    · intro hm
      obtain ⟨x, hx, heq⟩ := List.mem_map.mp hm
      obtain rfl := h.wf.inj x r ((h.queued.mem l x).mp hx).1 ha heq
      exact hr hx

theorem Frees.oblocks (hs : s.Frees r s') (h : s.Inv)
    (ha : (s.nucleus.entry r).allocated = true) (l : ArcList) :
    s'.oblocks l = (s.oblocks l).erase (s.nucleus.entry r).oblock := by
  rw [Step.oblocks_out hs (l := l) (h.queued.nodup l).not_mem_erase]
  exact h.oblocks_erase ha l

/-- Forgetting `o` takes it out of its list. -/
theorem FreesAny.oblocks_forget (hs : s.FreesAny (hashLookup s.nucleus o) s') (h : s.Inv)
    (l : ArcList) : s'.oblocks l = (s.oblocks l).erase o := by
  cases hl : hashLookup s.nucleus o with
  | none =>
    rw [hl] at hs
    cases hs
    rw [List.erase_of_not_mem]
    exact h.not_mem_oblocks (h.wf.hashLookup_eq_none.mp hl) l
  | some r =>
    rw [hl] at hs
    cases hs with
    | some ha hs => rw [hs.oblocks h ha, (h.wf.hashLookup_eq_some.mp hl).2]

/-- The list `l` after its head has left, when `l` is the list that loses one. -/
def cut (list l : ArcList) (os : List Oblock) : List Oblock := if list = l then os.tail else os

theorem FreesAny.oblocks_head (hs : s.FreesAny (queuePeek (s.arcQ list)) s') (h : s.Inv)
    (l : ArcList) : s'.oblocks l = cut list l (s.oblocks l) := by
  cases hq : s.arcQ list with
  | nil =>
    rw [hq] at hs
    cases hs
    unfold cut
    split
    · next heq =>
      subst heq
      simp [oblocks, hq]
    · rfl
  | cons r q =>
    rw [hq] at hs
    cases hs with
    | some ha hs =>
      rw [hs.oblocks h ha]
      unfold cut
      split
      · next heq =>
        subst heq
        simp [oblocks, hq]
      · next hne =>
        apply List.erase_of_not_mem
        rw [h.mem_oblocks, h.wf.hashLookup_self ha]
        rintro ⟨x, hx, _, hloc⟩
        obtain rfl := Option.some.inj hx
        exact hne ((h.head hq).2.2.symm.trans hloc)

/-- `[o]` on the list itself. -/
def only (list l : ArcList) (o : Oblock) : List Oblock := if list = l then [o] else []

theorem Ghosts.oblocks (hs : s.Ghosts a list s') (h : s.Inv) (hl : l ≠ .null) :
    s'.oblocks l = s.oblocks l ++ only list l a := by
  cases hs with
  | none => simp [only, Ne.symm hl]
  | @some list i rest s' hd hf hs =>
    have hfree := (h.wf.mem_free (r := ⟨.metadata, i⟩)).mp (hf ▸ List.mem_cons_self)
    have hout := h.queued.not_mem_of_free hfree.2 l
    by_cases heq : list = l
    · subst heq
      rw [ArcPolicy.oblocks, hs.queue, Function.update_self, List.map_append, List.map_cons,
        List.map_nil, hs.rewrites.entry_self, only, if_pos rfl]
      refine congrArg (· ++ [a]) (List.map_congr_left fun x hx => ?_)
      rw [hs.rewrites.entry_of_ne]
      rintro rfl
      exact hout hx
    · have hq : Function.update s.arcQ list (s.arcQ list ++ [⟨.metadata, i⟩]) l = s.arcQ l :=
        Function.update_of_ne (Ne.symm heq) ..
      rw [hs.oblocks_out (by rw [hq]; exact hout), hq, only, if_neg heq, List.append_nil]
      rfl

/-- The lists after a committed miss: the new block is not queued yet. -/
theorem Missed.oblocks {old : Oblock} {cb : Cblock} (hm : s.Missed o w at' old cb s')
    (h : s.Inv) (hl : l ≠ .null) : s'.oblocks l =
      cut at'.cacheEvict l (cut at'.metaEvict l ((s.oblocks l).erase o)) ++
        only at'.ghostDest l old := by
  obtain ⟨-, hs1, hq1, hs2, hq2, hs3, hs4, hf, hs5⟩ := hm
  have h0 := h.aim at'.p
  have h1 := hs1.inv h0
  have h2 := hs2.inv h1
  have h3 := hs3.inv h2
  have h4 := hs4.inv h3
  rw [← hq1] at hs2
  rw [← hq2] at hs3
  have hfree := (h4.wf.mem_free (r := ⟨.cache, cb⟩)).mp (hf ▸ List.mem_cons_self)
  have e1 : _ = (s.oblocks l).erase o := hs1.oblocks_forget h0 l
  rw [hs5.oblocks_out (h4.queued.not_mem_of_free hfree.2 l), ← e1, ← hs2.oblocks_head h1,
    ← hs3.oblocks_head h2, ← hs4.oblocks h3 hl]
  rfl

/-- The lists after a completed migration. -/
theorem migrated_oblocks (hs : s.Step r { s.nucleus.entry r with migrating := false } (s.loc r)
      free (Function.update s.arcQ (s.loc r) (s.arcQ (s.loc r) ++ [r])) s') (l : ArcList) :
    s'.oblocks l = s.oblocks l ++ only (s.loc r) l (s.nucleus.entry r).oblock := by
  rw [hs.oblocks_same rfl]
  by_cases hl : s.loc r = l
  · subst hl
    rw [Function.update_self, List.map_append, only, if_pos rfl]
    rfl
  · rw [Function.update_of_ne (Ne.symm hl), only, if_neg hl, List.append_nil]
    rfl

/-! ## Between requests -/

/-- Between requests a length is that of its queue. -/
theorem Synced.length (h : s.Synced c m) (l : ArcList) : (s.oblocks l).length = s.length l := by
  rw [oblocks, List.length_map, h.bounded.inv.length_of_settled h.settled, queueLength_eq]

theorem Synced.mem_of_lookup (h : s.Synced c m) (hl : hashLookup s.nucleus o = some r) :
    o ∈ s.oblocks l ↔ s.loc r = l := by
  rw [h.bounded.inv.mem_oblocks, hl]
  simp [h.settled]

theorem FreesAny.settled {x : Option EntryRef} (hs : s.FreesAny x s')
    (h : ∀ r, (s.nucleus.entry r).migrating = false) (y : EntryRef) :
    (s'.nucleus.entry y).migrating = false := by
  cases hs with
  | none => exact h y
  | @some r s' ha hs =>
    by_cases hy : y = r
    · subst hy
      rw [hs.rewrites.entry_self]
      rfl
    · rw [hs.rewrites.entry_of_ne hy]
      exact h y

theorem Ghosts.settled (hs : s.Ghosts a list s') (h : ∀ r, (s.nucleus.entry r).migrating = false)
    (y : EntryRef) : (s'.nucleus.entry y).migrating = false := by
  cases hs with
  | none => exact h y
  | @some list i rest s' hd hf hs =>
    by_cases hy : y = ⟨.metadata, i⟩
    · subst hy
      rw [hs.rewrites.entry_self]
      exact h _
    · rw [hs.rewrites.entry_of_ne hy]
      exact h y

/-- The migration of the admitted block completes. -/
theorem Synced.arrived (h : s.Synced c m) {old : Oblock} {cb : Cblock}
    (hm : s.Missed o w at' old cb s') (hb : s'.Bounded c m) : ∃ s'',
      arcMigratedApi s' o = .ok s'' ∧ s''.Synced c m ∧ s''.p = at'.p ∧ ∀ l, l ≠ .null →
        s''.oblocks l = cut at'.cacheEvict l (cut at'.metaEvict l ((s.oblocks l).erase o)) ++
          only at'.ghostDest l old ++ only at'.dest l o := by
  have hq := fun l hl => hm.oblocks h.bounded.inv (l := l) hl
  have hp := hm.sizes.p
  obtain ⟨-, hs1, hq1, hs2, hq2, hs3, hs4, hf, hs5⟩ := hm
  have hset4 := hs4.settled (hs3.settled (hs2.settled (hs1.settled h.settled)))
  have hentry := hs5.rewrites.entry_self
  have hl : hashLookup s'.nucleus o = some ⟨.cache, cb⟩ := by
    rw [hs5.inv.wf.hashLookup_eq_some, hentry]
    exact ⟨rfl, rfl⟩
  have hloc : s'.loc ⟨.cache, cb⟩ = at'.dest := by rw [hs5.loc, Function.update_self]
  obtain ⟨s'', hrun, hs⟩ := arcMigratedApi_spec hs5.inv hl rfl (by rw [hentry]; rfl)
  refine ⟨s'', hrun, ⟨?_, fun x => ?_⟩, hs.p.trans hp, fun l hll => ?_⟩
  · exact hb.same (by rw [hentry]; rfl) hs (by rw [hentry]; rfl)
  · by_cases hx : x = ⟨.cache, cb⟩
    · subst hx
      rw [hs.rewrites.entry_self]
    · rw [hs.rewrites.entry_of_ne hx, hs5.rewrites.entry_of_ne hx]
      exact hset4 x
  · have ho : (s'.nucleus.entry ⟨.cache, cb⟩).oblock = o := by
      rw [hentry]
      rfl
    rw [migrated_oblocks hs, ho, hloc, hq l hll]

/-! ## The plan of a miss is that of the paper -/

/-- The state and victim a plan announces. -/
def announced (s : ArcPolicy) (o old : Oblock) (at' : ArcTransaction) :
    Lib.Arc Oblock × Option Oblock :=
  let after := fun l => cut at'.cacheEvict l (cut at'.metaEvict l ((s.oblocks l).erase o)) ++
    only at'.ghostDest l old ++ only at'.dest l o
  ({ t1 := after .t1, t2 := after .t2, b1 := after .b1, b2 := after .b2, p := at'.p },
    if at'.cacheEvict = .null then none else some old)

theorem cut_self (l : ArcList) (os : List Oblock) : cut l l os = os.tail := if_pos rfl

theorem cut_of_ne (hl : list ≠ l) (os : List Oblock) : cut list l os = os := if_neg hl

theorem only_self (l : ArcList) (o : Oblock) : only l l o = [o] := if_pos rfl

theorem only_of_ne (hl : list ≠ l) (o : Oblock) : only list l o = [] := if_neg hl

/-- What `arc_replace` decides for a plan that has decided nothing else. -/
structure Replaces (s : ArcPolicy) (at0 : ArcTransaction) : Prop where
  list : (arcReplace s at0).cacheEvict = .t1 ∧ (arcReplace s at0).ghostDest = .b1 ∨
    (arcReplace s at0).cacheEvict = .t2 ∧ (arcReplace s at0).ghostDest = .b2
  t1_iff : (arcReplace s at0).cacheEvict = .t1 ↔ 1 ≤ s.length .t1 ∧
    (at0.p < s.length .t1 ∨ (at0.currentLoc = .b2 ∧ s.length .t1 = at0.p))
  same : (arcReplace s at0).metaEvict = at0.metaEvict ∧ (arcReplace s at0).dest = at0.dest ∧
    (arcReplace s at0).p = at0.p

theorem replaces (s : ArcPolicy) (at0 : ArcTransaction) : s.Replaces at0 := by
  rcases arcReplace_cases s at0 with ⟨h1, h2, heq⟩ | ⟨hno, heq⟩
  · refine ⟨?_, ?_, ?_⟩
    · rw [heq]
      exact Or.inl ⟨rfl, by simp [ArcTransaction.ghostDest]⟩
    · rw [heq]
      exact iff_of_true rfl ⟨h1, h2.symm⟩
    · rw [heq]
      exact ⟨rfl, rfl, rfl⟩
  · refine ⟨?_, ?_, ?_⟩
    · rw [heq]
      exact Or.inr ⟨rfl, by simp [ArcTransaction.ghostDest]⟩
    · rw [heq]
      exact iff_of_false (fun hx => by cases hx) fun hx => hno ⟨hx.1, hx.2.symm⟩
    · rw [heq]
      exact ⟨rfl, rfl, rfl⟩

/-- REPLACE of the paper picks the list `arc_replace` picks. -/
theorem Synced.replace_eq (h : s.Synced c m) {at0 : ArcTransaction} {a : Lib.Arc Oblock}
    {old : Oblock} (ht1 : a.t1 = s.oblocks .t1) (ht2 : a.t2 = s.oblocks .t2)
    (hp : a.p = at0.p) (hb2 : o ∈ a.b2 ↔ at0.currentLoc = .b2)
    (hold : (s.oblocks (arcReplace s at0).cacheEvict).head? = some old) :
    a.replace o = ({
      t1 := cut (arcReplace s at0).cacheEvict .t1 a.t1
      t2 := cut (arcReplace s at0).cacheEvict .t2 a.t2
      b1 := a.b1 ++ only (arcReplace s at0).ghostDest .b1 old
      b2 := a.b2 ++ only (arcReplace s at0).ghostDest .b2 old
      p := a.p }, some old) := by
  have hlen := h.length .t1
  have hr := replaces s at0
  rcases hr.list with ⟨hce, hgd⟩ | ⟨hce, hgd⟩
  · have hc := (hr.t1_iff.mp hce).2
    rw [hce, ← ht1] at hold
    rw [Lib.Arc.replace_t1 hold (by rw [ht1, hlen, hp, hb2]; exact hc), hce, hgd]
    simp [cut, only]
  · have hno : ¬(arcReplace s at0).cacheEvict = .t1 := by
      rw [hce]
      decide
    rw [hr.t1_iff] at hno
    rw [hce, ← ht2] at hold
    rw [Lib.Arc.replace_t2 hold (by rw [ht1, hlen, hp, hb2]; exact hno), hce, hgd]
    simp [cut, only]

/-- What a plan with REPLACE announces, list by list. -/
theorem announced_replace (s : ArcPolicy) (o old : Oblock) (at0 : ArcTransaction)
    (hm : at0.metaEvict = .null ∨ at0.metaEvict.pool = .metadata)
    (hd : at0.dest = .t1 ∨ at0.dest = .t2) :
    s.announced o old (arcReplace s at0) = ({
      t1 := cut (arcReplace s at0).cacheEvict .t1 ((s.oblocks .t1).erase o) ++ only at0.dest .t1 o
      t2 := cut (arcReplace s at0).cacheEvict .t2 ((s.oblocks .t2).erase o) ++ only at0.dest .t2 o
      b1 := cut at0.metaEvict .b1 ((s.oblocks .b1).erase o) ++
        only (arcReplace s at0).ghostDest .b1 old
      b2 := cut at0.metaEvict .b2 ((s.oblocks .b2).erase o) ++
        only (arcReplace s at0).ghostDest .b2 old
      p := at0.p }, some old) := by
  have hr := replaces s at0
  obtain ⟨h1, h2, h3⟩ := hr.same
  have hcut : ∀ l os, l.pool = .cache → l ≠ .null → cut at0.metaEvict l os = os := by
    intro l os hl hnull
    refine if_neg fun heq => ?_
    rcases hm with hm | hm
    · exact hnull (heq ▸ hm)
    · rw [heq, hl] at hm
      cases hm
  have hdest : ∀ l, l.pool = .metadata → only at0.dest l o = [] := by
    intro l hl
    refine if_neg fun heq => ?_
    subst heq
    rcases hd with hd | hd
    · rw [hd] at hl
      cases hl
    · rw [hd] at hl
      cases hl
  simp only [announced, h1, h2, h3, hcut .t1 _ rfl (by decide), hcut .t2 _ rfl (by decide),
    hdest .b1 rfl, hdest .b2 rfl]
  rcases hr.list with ⟨hce, hgd⟩ | ⟨hce, hgd⟩
  · rw [hce, hgd]
    simp [cut, only]
  · rw [hce, hgd]
    simp [cut, only]

/-- A hit in `B1` moves `p` as the paper says. -/
theorem Synced.p_b1 (h : s.Synced c m) (hc : 4 * c < 2 ^ 32)
    (hl : hashLookup s.nucleus o = some r) (hloc : s.loc r = .b1) :
    min s.nucleus.cacheSize (u32 (s.p + max (s.length .b2 / s.length .b1) 1)) =
      min (s.reference.p + Lib.Arc.delta s.reference.b1.length s.reference.b2.length) c := by
  have hpos := h.bounded.inv.length_pos (h.bounded.inv.wf.hashLookup_eq_some.mp hl).1
  rw [hloc] at hpos
  have hdelta := Lib.Arc.delta_eq hpos (s.length .b2)
  have hdle : Lib.Arc.delta (s.length .b1) (s.length .b2) ≤ 2 * c := by
    have hdiv := Nat.div_le_self (s.length .b2) (s.length .b1)
    obtain ⟨hs1, hs2, hs3⟩ := h.bounded.sums (by omega)
    have htot := h.bounded.total
    omega
  have hpc := h.bounded.p
  have hb1 : s.reference.b1.length = s.length .b1 := h.length .b1
  have hb2 : s.reference.b2.length = s.length .b2 := h.length .b2
  rw [hb1, hb2, ← hdelta, u32_of_lt (by omega), h.bounded.cacheSize, Nat.min_comm]
  rfl

/-- A hit in `B2` moves `p` as the paper says. -/
theorem Synced.p_b2 (h : s.Synced c m) (hl : hashLookup s.nucleus o = some r)
    (hloc : s.loc r = .b2) :
    (if s.p > max (s.length .b1 / s.length .b2) 1 then
      s.p - max (s.length .b1 / s.length .b2) 1 else 0) =
      s.reference.p - Lib.Arc.delta s.reference.b2.length s.reference.b1.length := by
  have hpos := h.bounded.inv.length_pos (h.bounded.inv.wf.hashLookup_eq_some.mp hl).1
  rw [hloc] at hpos
  have hb1 : s.reference.b1.length = s.length .b1 := h.length .b1
  have hb2 : s.reference.b2.length = s.length .b2 := h.length .b2
  rw [hb1, hb2, ← Lib.Arc.delta_eq hpos (s.length .b1)]
  show _ = s.p - _
  split <;> omega

/-- A miss does what the paper says. -/
theorem Synced.miss_eq (h : s.Synced c m) (hc : 4 * c < 2 ^ 32) (hst : s.Staged o at')
    (hpl : s.Planned o at') {old : Oblock}
    (hold : at'.cacheEvict ≠ .null → (s.oblocks at'.cacheEvict).head? = some old) :
    s.reference.miss c o = s.announced o old at' := by
  obtain ⟨hs1, hs2, hs3⟩ := h.bounded.sums (by omega)
  have hl1 := h.bounded.l1
  have htot := h.bounded.total
  have hsize := h.bounded.cacheSize
  have ht1 : s.reference.t1.length = s.length .t1 := h.length .t1
  have ht2 : s.reference.t2.length = s.length .t2 := h.length .t2
  have hb1 : s.reference.b1.length = s.length .b1 := h.length .b1
  have hb2 : s.reference.b2.length = s.length .b2 := h.length .b2
  have hnot := fun habs l => h.bounded.inv.not_mem_oblocks (o := o) habs l
  cases hst with
  | hit hl hp =>
    have := hpl.uncached _ hl
    rw [hp] at this
    cases this
  | @b1 r hl hloc =>
    have hmem : ∀ l, o ∈ s.oblocks l ↔ .b1 = l := fun l => by rw [h.mem_of_lookup hl, hloc]
    rw [h.p_b1 hc hl hloc, arcReplace_dest] at hold ⊢
    have hrep := h.replace_eq (o := o) (a := { s.reference with
      p := min (s.reference.p + Lib.Arc.delta s.reference.b1.length s.reference.b2.length) c })
      rfl rfl rfl (by simp [reference, hmem]) (hold (arcReplace_cacheEvict _ _))
    rw [announced_replace _ _ _ _ (Or.inl rfl) (Or.inr rfl),
      Lib.Arc.miss_b1 ((hmem _).mpr rfl) hrep]
    simp [reference, hmem, List.erase_append_left, List.erase_of_not_mem, cut_of_ne, only_self,
      only_of_ne, arcTransactionInit]
  | @b2 r hl hloc =>
    have hmem : ∀ l, o ∈ s.oblocks l ↔ .b2 = l := fun l => by rw [h.mem_of_lookup hl, hloc]
    rw [h.p_b2 hl hloc, arcReplace_dest] at hold ⊢
    have hrep := h.replace_eq (o := o) (a := { s.reference with
      p := s.reference.p - Lib.Arc.delta s.reference.b2.length s.reference.b1.length })
      rfl rfl rfl (by simp [reference, hmem]) (hold (arcReplace_cacheEvict _ _))
    rw [announced_replace _ _ _ _ (Or.inl rfl) (Or.inr rfl),
      Lib.Arc.miss_b2 (fun hx => by cases (hmem _).mp hx) ((hmem _).mpr rfl) hrep]
    simp [reference, hmem, List.erase_append_left, List.erase_of_not_mem, cut_of_ne, only_self,
      only_of_ne, arcTransactionInit]
  | fullB1 habs hfull ht =>
    have hno := hnot habs
    rw [hsize] at hfull ht
    rw [arcReplace_dest] at hold ⊢
    have hrep := h.replace_eq (o := o) (a := { s.reference with b1 := s.reference.b1.tail })
      rfl rfl rfl (by simp [reference, hno, arcTransactionInit])
      (hold (arcReplace_cacheEvict _ _))
    rw [announced_replace _ _ _ _ (Or.inr rfl) (Or.inl rfl),
      Lib.Arc.miss_full_b1 (hno _) (hno _) (by omega) (by omega) hrep]
    simp [reference, hno, List.erase_of_not_mem, cut_self, cut_of_ne, only_self, only_of_ne,
      arcTransactionInit]
  | fullT1 habs hfull ht =>
    have hno := hnot habs
    rw [hsize] at hfull ht
    have hv : (s.oblocks .t1).head? = some old := hold fun hx => by cases hx
    rw [Lib.Arc.miss_full_t1 (hno _) (hno _) (by omega) (by omega)]
    simp [announced, reference, hno, hv, List.erase_of_not_mem, cut, only,
      ArcTransaction.ghostDest, arcTransactionInit]
  | fullB2 habs hlt hge h2 =>
    have hno := hnot habs
    rw [hsize] at hlt hge
    rw [arcReplace_dest] at hold ⊢
    have htail : o ∉ (s.oblocks .b2).tail := fun hx => hno _ (List.mem_of_mem_tail hx)
    have hrep := h.replace_eq (o := o) (a := { s.reference with b2 := s.reference.b2.tail })
      rfl rfl rfl (by simp [reference, htail, arcTransactionInit])
      (hold (arcReplace_cacheEvict _ _))
    rw [announced_replace _ _ _ _ (Or.inr rfl) (Or.inl rfl),
      Lib.Arc.miss_full_b2 (hno _) (hno _) (by omega) (by omega) (by omega) hrep]
    simp [reference, hno, List.erase_of_not_mem, cut_self, cut_of_ne, only_self, only_of_ne,
      arcTransactionInit]
  | replace habs hlt hge h2 =>
    have hno := hnot habs
    rw [hsize] at hlt hge
    rw [arcReplace_dest] at hold ⊢
    have hrep := h.replace_eq (o := o) (a := s.reference)
      rfl rfl rfl (by simp [reference, hno, arcTransactionInit])
      (hold (arcReplace_cacheEvict _ _))
    rw [announced_replace _ _ _ _ (Or.inl rfl) (Or.inl rfl),
      Lib.Arc.miss_replace (hno _) (hno _) (by omega) (by omega) (by omega) hrep]
    simp [reference, hno, List.erase_of_not_mem, cut_of_ne, only_self, only_of_ne,
      arcTransactionInit]
  | room habs hne hroom =>
    have hno := hnot habs
    rw [hsize] at hne hroom
    rw [Lib.Arc.miss_room (hno _) (hno _) (by omega) (by omega)]
    simp [announced, reference, hno, List.erase_of_not_mem, cut, only,
      ArcTransaction.ghostDest, arcTransactionInit]

/-! ## Requests -/

/-- A plan that evicts from the cache finds a victim. -/
theorem Synced.victim (h : s.Synced c m) (hc0 : 1 ≤ c) (hc : 4 * c < 2 ^ 32)
    (hst : s.Staged o at') : at'.cacheEvict ≠ .null → s.arcQ at'.cacheEvict ≠ [] := by
  obtain ⟨hs1, hs2, hs3⟩ := h.bounded.sums (by omega)
  have hl1 := h.bounded.l1
  have htot := h.bounded.total
  have hpc := h.bounded.p
  have hsize := h.bounded.cacheSize
  have hgh := h.bounded.ghosts
  have hle := h.bounded.cached_le
  have hrep := fun a => (h.bounded.inv.replace_iff h.settled a).mpr
  have hpos := fun {r} (hl : hashLookup s.nucleus o = some r) =>
    h.bounded.inv.length_pos (h.bounded.inv.wf.hashLookup_eq_some.mp hl).1
  cases hst with
  | hit hl hp => exact fun hx => absurd rfl hx
  | @b1 r hl hloc =>
    have := hpos hl
    rw [hloc] at this
    exact hrep _ (Or.inl (by omega))
  | @b2 r hl hloc =>
    -- the target went below `c`, so a `T1` that fills the cache is above it
    have := hpos hl
    rw [hloc] at this
    refine hrep _ ?_
    dsimp only
    split
    · omega
    · omega
  | fullB1 habs hfull ht => exact hrep _ (Or.inl (by omega))
  | fullT1 habs hfull ht =>
    intro _ hq
    have := (h.bounded.inv.queue_nil_iff h.settled .t1).mp hq
    omega
  | fullB2 habs hlt hge h2 => exact hrep _ (Or.inl (by omega))
  | replace habs hlt hge h2 => exact hrep _ (Or.inl (by omega))
  | room habs hne hroom => exact fun hx => absurd rfl hx

/-- The answer of the paper's algorithm, as a result of the policy. -/
def Answers (res : CacheNucleusResult) : Lib.ArcAnswer Oblock → Prop
  | .hit => res.op = .hit
  | .miss none => res.op = .new
  | .miss (some victim) => res.op = .replace ∧ res.oldOblock = victim

/-- A hit moves its block to the recent end of `T2`. -/
theorem Synced.hit (h : s.Synced c m) (hb : s'.Bounded c m) (hl : hashLookup s.nucleus o = some r)
    (hp : r.pool = .cache) (hs : s.Step r e .t2 free (s.touchedQ r .t2) s')
    (he : e.oblock = (s.nucleus.entry r).oblock)
    (hm : e.migrating = (s.nucleus.entry r).migrating) :
    s'.Synced c m ∧ (s'.reference, .hit) = s.reference.request c o := by
  obtain ⟨ha, ho⟩ := h.bounded.inv.wf.hashLookup_eq_some.mp hl
  have hloc : o ∈ s.reference.t1 ∨ o ∈ s.reference.t2 := by
    obtain ⟨hnull, hpool⟩ := h.bounded.inv.home r ha
    have h1 : o ∈ s.oblocks .t1 ↔ _ := h.mem_of_lookup hl
    have h2 : o ∈ s.oblocks .t2 ↔ _ := h.mem_of_lookup hl
    rw [hp] at hpool
    rw [reference, h1, h2]
    cases hx : s.loc r <;> simp_all [ArcList.pool]
  have hghost : ∀ l : ArcList, l.pool = .metadata → (s.oblocks l).erase o = s.oblocks l := by
    intro l hpl
    apply List.erase_of_not_mem
    rw [h.mem_of_lookup hl]
    rintro rfl
    rw [(h.bounded.inv.home r ha).2, hp] at hpl
    cases hpl
  have hq : ∀ l, l ≠ .t2 → s'.oblocks l = (s.oblocks l).erase o := by
    intro l hl2
    rw [hs.oblocks_same he, touchedQ, h.settled, if_neg Bool.false_ne_true,
      Function.update_of_ne hl2, h.bounded.inv.oblocks_erase ha, ho]
  have ht2 : s'.oblocks .t2 = (s.oblocks .t2).erase o ++ [o] := by
    rw [hs.oblocks_same he, touchedQ, h.settled, if_neg Bool.false_ne_true, Function.update_self,
      List.map_append, h.bounded.inv.oblocks_erase ha, ho]
    simp [ho]
  refine ⟨⟨hb, fun x => ?_⟩, ?_⟩
  · by_cases hx : x = r
    · subst hx
      rw [hs.rewrites.entry_self, hm]
      exact h.settled x
    · rw [hs.rewrites.entry_of_ne hx]
      exact h.settled x
  · rw [Lib.Arc.request, if_pos hloc]
    simp only [reference, ht2, hq .t1 (by decide), hq .b1 (by decide), hq .b2 (by decide),
      hghost .b1 rfl, hghost .b2 rfl, hs.p]

theorem answers_ne_fail {results : List CacheNucleusResult}
    {answers : List (Lib.ArcAnswer Oblock)} (h : List.Forall₂ Answers results answers) :
    ∀ res ∈ results, res.op ≠ .fail := by
  induction h with
  | nil => simp
  | @cons res answer results answers hr _ ih =>
    refine List.forall_mem_cons.mpr ⟨fun hop => ?_, ih⟩
    cases answer with
    | hit => cases hop.symm.trans hr
    | miss victim =>
      cases victim with
      | none => cases hop.symm.trans hr
      | some v => cases hop.symm.trans hr.1

/-- One synchronous request. -/
theorem Synced.request (h : s.Synced c m) (hc0 : 1 ≤ c) (hc : 4 * c < 2 ^ 32) (hcm : c ≤ m)
    (x : Oblock × Bool) : ∃ s' res, arcApi.request s x = .ok (s', res) ∧ s'.Synced c m ∧
      s'.reference = (s.reference.request c x.1).1 ∧
      Answers res (s.reference.request c x.1).2 := by
  obtain ⟨o, w⟩ := x
  obtain ⟨s1, res, hcall, hb⟩ :=
    h.bounded.call (by omega) hcm (show arcCalls s (.map o w {}) from trivial)
  obtain ⟨res, rfl, hmap⟩ := Policy.call_map.mp hcall
  have hcase := arcMapApi_case h.bounded.inv o w {}
  rw [show arcMapApi s o w {} = .ok (s1, res) from hmap] at hcase
  cases hcase with
  | @hit r _ hl hp hs =>
    obtain ⟨hsync, hreq⟩ := h.hit hb hl hp hs rfl rfl
    refine ⟨s1, { op := .hit, cblock := r.index }, ?_, hsync, ?_, ?_⟩
    · simp [Policy.request, hmap]
    · rw [← hreq]
    · rw [← hreq]
      rfl
  | @miss at' _ cb res hst hpl hne hres hmiss =>
    obtain ⟨s2, hrun, hsync, hp, hq⟩ := h.arrived hmiss hb
    -- the policy reports the head of the queue that the paper evicts from
    have hold : at'.cacheEvict ≠ .null →
        (s.oblocks at'.cacheEvict).head? = some res.oldOblock := by
      intro hce
      obtain ⟨v, q, hv⟩ := List.exists_cons_of_ne_nil (hne hce)
      rw [hres, oblocks, hv]
      rfl
    have hop : res.op = if at'.cacheEvict = .null then .new else .replace := by
      rw [hres]
      cases queuePeek (s.arcQ at'.cacheEvict)
      all_goals rfl
    have hmissEq := h.miss_eq hc hst hpl hold
    have hno : ¬(o ∈ s.reference.t1 ∨ o ∈ s.reference.t2) := by
      have hnotin : ∀ l : ArcList, l.pool = .cache → o ∉ s.oblocks l := by
        intro l hl hmem
        obtain ⟨r, hr, _, hloc⟩ := h.bounded.inv.mem_oblocks.mp hmem
        have := (h.bounded.inv.home r (h.bounded.inv.wf.hashLookup_eq_some.mp hr).1).2
        rw [hloc, hl, hpl.uncached r hr] at this
        cases this
      rintro (hmem | hmem)
      · exact hnotin .t1 rfl hmem
      · exact hnotin .t2 rfl hmem
    have hreq : s.reference.request c o = (s2.reference, .miss
        (if at'.cacheEvict = .null then none else some res.oldOblock)) := by
      rw [Lib.Arc.request, if_neg hno, hmissEq]
      simp only [announced, reference, hq .t1 (by decide), hq .t2 (by decide),
        hq .b1 (by decide), hq .b2 (by decide), hp]
    refine ⟨s2, { res with cblock := cb }, ?_, hsync, by rw [hreq], ?_⟩
    · have hops : res.op = .new ∨ res.op = .replace := by
        rw [hop]
        split
        · exact Or.inl rfl
        · exact Or.inr rfl
      have hrun' : arcApi.migrated s1 o = .ok s2 := hrun
      simp [Policy.request, hmap, hops, hrun']
    · rw [hreq]
      by_cases hce : at'.cacheEvict = .null
      · rw [if_pos hce] at hop ⊢
        exact hop
      · rw [if_neg hce] at hop ⊢
        exact ⟨hop, rfl⟩
  | refused hst hpl hce hq => exact absurd hq (h.victim hc0 hc hst hce)

/-- A sequence of synchronous requests. -/
theorem Synced.requests (hc0 : 1 ≤ c) (hc : 4 * c < 2 ^ 32) (hcm : c ≤ m)
    (xs : List (Oblock × Bool)) (h : s.Synced c m) : ∃ s' results,
      arcApi.requests s xs = .ok (s', results) ∧ s'.Synced c m ∧
      s'.reference = (s.reference.requests c (xs.map Prod.fst)).1 ∧
      List.Forall₂ Answers results (s.reference.requests c (xs.map Prod.fst)).2 := by
  induction xs generalizing s with
  | nil => exact ⟨s, [], rfl, h, rfl, .nil⟩
  | cons x xs ih =>
    obtain ⟨s1, res, hrun1, h1, href1, hans1⟩ := h.request hc0 hc hcm x
    obtain ⟨s2, results, hrun2, h2, href2, hans2⟩ := ih h1
    rw [href1] at href2 hans2
    refine ⟨s2, res :: results, ?_, h2, href2, .cons hans1 hans2⟩
    simp only [Policy.requests, hrun1, hrun2, ok_bind, pure_eq_ok]

theorem Synced.of_create {c m : UInt32} (h : arcCreate c m = .ok s) :
    s.Synced c.toNat m.toNat ∧ s.reference = {} := by
  refine ⟨⟨arcCreate_bounded h, fun r => ?_⟩, ?_⟩
  · rw [(arcCreate_inv h).2]
    rfl
  · rw [arcCreate_eq] at h
    obtain rfl := Except.ok.inj h
    rfl

end ArcPolicy

open ArcPolicy

/-- Synchronous ARC is the ARC of the paper: the same lists and target, and every request is
the same hit or miss with the same victim. No request fails. -/
theorem arc_synchronous {c m : UInt32} (hc0 : 1 ≤ c.toNat) (hc : 4 * c.toNat < 2 ^ 32)
    (hcm : c.toNat ≤ m.toNat) {s0 : ArcPolicy} (hinit : arcCreate c m = .ok s0)
    (xs : List (Oblock × Bool)) : ∃ s results, arcApi.requests s0 xs = .ok (s, results) ∧
      s.reference = (Lib.Arc.requests c.toNat {} (xs.map Prod.fst)).1 ∧
      List.Forall₂ Answers results (Lib.Arc.requests c.toNat {} (xs.map Prod.fst)).2 ∧
      ∀ res ∈ results, res.op ≠ .fail := by
  obtain ⟨h0, href0⟩ := Synced.of_create hinit
  obtain ⟨s, results, hrun, _, href, hans⟩ := h0.requests hc0 hc hcm xs
  rw [href0] at href hans
  exact ⟨s, results, hrun, href, hans, answers_ne_fail hans⟩

/-- Block 1 comes back from `B1` and raises the target. -/
theorem arc_synchronous_two : ∃ s0 s results, arcCreate 2 2 = .ok s0 ∧
    arcApi.requests s0 [(1, false), (1, false), (2, true), (3, false), (2, false)] =
      .ok (s, results) ∧
    s.reference = (Lib.Arc.requests 2 {} [1, 1, 2, 3, 2]).1 := by
  obtain ⟨s, results, hrun, href, _⟩ := arc_synchronous (c := 2) (m := 2) (by decide) (by decide)
    (by decide) (arcCreate_eq 2 2) [(1, false), (1, false), (2, true), (3, false), (2, false)]
  exact ⟨_, s, results, arcCreate_eq 2 2, hrun, href⟩

end Fomo
