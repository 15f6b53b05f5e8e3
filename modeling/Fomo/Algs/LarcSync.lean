import Fomo.Algs.LarcGhosts
import Fomo.Include.QueueOblocks
import Fomo.Lib.Larc

/-!
# Synchronous LARC

When the migration of every admitted block completes before the next request, the two queues
hold the oblocks that LARC holds, and the ghost target is that of LARC in exact arithmetic.
-/
namespace Fomo

namespace LarcPolicy

/-- The oblocks of the queue of a pool, least recent first. -/
def oblocks (s : LarcPolicy) (p : PoolId) : List Oblock := s.nucleus.oblocks (s.queue p)

/-- The lists and the target of LARC. -/
def reference (s : LarcPolicy) : Lib.Larc Oblock where
  q := s.oblocks .cache
  qr := s.oblocks .metadata
  target := s.gSize

/-- Between requests the bounds hold and nothing migrates. -/
structure Synced (c m : Nat) (s : LarcPolicy) : Prop where
  bounded : s.Bounded m
  size : (s.nucleus.pool .cache).nrEntries = c
  settled : ∀ r, (s.nucleus.entry r).migrating = false

variable {s s' s'' : LarcPolicy} {r : EntryRef} {o : Oblock} {p : PoolId} {e : Entry}
  {free : List Nat} {q : PoolId → Queue} {c m g : Nat} {w : Bool}
  {result res : CacheNucleusResult}

/-! ## Oblocks of the queues -/

theorem Inv.not_mem_oblocks (h : s.Inv) (habs : s.nucleus.Absent o) (p : PoolId) :
    o ∉ s.oblocks p :=
  h.queued.not_mem_oblocks h.wf habs p

theorem Frees.oblocks (hs : s.Frees r s') (h : s.Inv)
    (ha : (s.nucleus.entry r).allocated = true) (p : PoolId) :
    s'.oblocks p = (s.oblocks p).erase (s.nucleus.entry r).oblock := by
  rw [LarcPolicy.oblocks, hs.queue]
  exact h.queued.oblocks_freed h.wf ha hs.rewrites p

/-- The head of a queue leaves it, and nothing leaves an empty one. -/
theorem FreesAny.oblocks_head (hs : s.FreesAny (queuePeek (s.queue p)) s') (h : s.Inv) :
    s'.oblocks p = (s.oblocks p).tail := by
  cases hq : s.queue p with
  | nil =>
    rw [hq] at hs
    cases hs
    simp [LarcPolicy.oblocks, hq, CacheNucleus.oblocks]
  | cons r q =>
    rw [hq] at hs
    cases hs with
    | some ha hs =>
      rw [hs.oblocks h ha]
      simp [LarcPolicy.oblocks, hq, CacheNucleus.oblocks]

/-- Freeing an entry of the other pool leaves the queue as it was. -/
theorem FreesAny.oblocks_other {x : Option EntryRef} (hs : s.FreesAny x s') (h : s.Inv)
    (hx : ∀ r ∈ x, r.pool ≠ p) : s'.oblocks p = s.oblocks p := by
  obtain ⟨hq, _, hentry⟩ := hs.other h hx
  rw [LarcPolicy.oblocks, hq]
  apply List.map_congr_left
  intro r hr
  obtain ⟨rp, i⟩ := r
  obtain rfl : rp = p := ((h.queued.mem p ⟨rp, i⟩).mp hr).2.2
  rw [hentry i]

/-- A new entry, `o` at the recent end of the queue of its pool. -/
theorem Step.oblocks_push (hs : s.Step r e free
      (Function.update s.queue r.pool (s.queue r.pool ++ [r])) s')
    (hr : ∀ p, r ∉ s.queue p) (p : PoolId) : s'.oblocks p =
      if p = r.pool then s.oblocks p ++ [e.oblock] else s.oblocks p := by
  rw [LarcPolicy.oblocks, hs.queue]
  split
  · next hp =>
    subst hp
    rw [Function.update_self, CacheNucleus.oblocks, List.map_append, List.map_singleton,
      hs.rewrites.entry_self]
    exact congrArg (· ++ [e.oblock]) (hs.rewrites.oblocks_out (hr r.pool))
  · next hp =>
    rw [Function.update_of_ne hp]
    exact hs.rewrites.oblocks_out (hr p)

/-! ## Between requests -/

/-- The queue of the cache and the free slots make up the cache. -/
theorem Synced.length (h : s.Synced c m) :
    (s.oblocks .cache).length + (s.nucleus.pool .cache).free.length = c := by
  have hlen := h.bounded.inv.wf.length_eq_nrAllocated (h.bounded.inv.queued.nodup .cache)
    (p := .cache) fun r => by
      rw [h.bounded.inv.queued.mem, h.settled]
      simp [and_comm]
  have hnr := (h.bounded.inv.wf.pools .cache).nr_allocated
  rw [h.size, ← hlen] at hnr
  rw [oblocks, CacheNucleus.oblocks, List.length_map]
  exact hnr

theorem Synced.mem_of_lookup (h : s.Synced c m) (hl : hashLookup s.nucleus o = some r) :
    o ∈ s.oblocks p ↔ r.pool = p := by
  rw [oblocks, h.bounded.inv.queued.mem_oblocks h.bounded.inv.wf, hl]
  simp [h.settled]

/-- The ghosts are the known blocks that are not cached. -/
theorem Synced.mem_ghosts (h : s.Synced c m)
    (hun : ∀ r ∈ hashLookup s.nucleus o, r.pool = .metadata) :
    o ∉ s.oblocks .cache ∧ (o ∈ s.oblocks .metadata ↔ (hashLookup s.nucleus o).isSome) := by
  cases hl : hashLookup s.nucleus o with
  | none =>
    have habs := h.bounded.inv.wf.hashLookup_eq_none.mp hl
    exact ⟨h.bounded.inv.not_mem_oblocks habs .cache,
      by simp [h.bounded.inv.not_mem_oblocks habs .metadata]⟩
  | some r =>
    have hp := hun r hl
    rw [h.mem_of_lookup hl, h.mem_of_lookup hl, hp]
    simp

theorem FreesAny.settled {x : Option EntryRef} (hs : s.FreesAny x s')
    (h : ∀ r, (s.nucleus.entry r).migrating = false) (y : EntryRef) :
    (s'.nucleus.entry y).migrating = false := by
  cases hs with
  | none => exact h y
  | @some r s' ha hs =>
    by_cases hy : y = r
    · subst hy
      rw [hs.rewrites.entry_self]
      rfl
    · rw [hs.rewrites.entry_of_ne hy]
      exact h y

theorem FreesAny.nrEntries {x : Option EntryRef} (hs : s.FreesAny x s') (p : PoolId) :
    (s'.nucleus.pool p).nrEntries = (s.nucleus.pool p).nrEntries :=
  hs.shrinks.nrEntries p

/-! ## The target -/

/-- The target of a hit in exact arithmetic. -/
theorem Bounded.decrease_eq (h : s.Bounded m) (hm : 10 ≤ m) (hg : larcDecreaseGSize s = .ok g) :
    g = Lib.Larc.lower m s.gSize := by
  have hup := h.gSize_le
  have hsub : sub32 m s.gSize = m - s.gSize := sub32_of_le (by omega) h.metaSize_lt
  have hdiv : div32 m (m - s.gSize) = .ok (m / (m - s.gSize)) := div32_of_pos (by omega)
  simp only [larcDecreaseGSize, h.metaSize, hsub, hdiv, ok_bind] at hg
  unfold Lib.Larc.lower
  split at hg
  · exact (Except.ok.inj hg).symm
  · next hle =>
    rw [← Except.ok.inj hg]
    omega

/-- The target of a miss in exact arithmetic. -/
theorem Bounded.increase_eq (h : s.Bounded m) (hm : 10 ≤ m) (hm9 : 9 * m < 2 ^ 32)
    (hg : larcIncreaseGSize s = .ok g) : g = Lib.Larc.raise m s.gSize := by
  have hlow := h.le_gSize hm9
  have hup := h.gSize_le
  have hpos : 0 < s.gSize := by omega
  have hquot : m / s.gSize ≤ m := Nat.div_le_self m s.gSize
  simp only [larcIncreaseGSize, h.metaSize, div32_of_pos hpos, ok_bind, pure_eq_ok,
    Except.ok.injEq] at hg
  rw [← hg, u32_of_lt hm9, u32_of_lt (by omega)]
  rfl

/-! ## A request -/

/-- The answer of LARC, as a result of the policy. -/
def Answers (res : CacheNucleusResult) : Lib.LarcAnswer Oblock → Prop
  | .hit => res.op = .hit
  | .miss none => res.op = .new
  | .miss (some victim) => res.op = .replace ∧ res.oldOblock = victim
  | .filtered => res.op = .filter

/-- A hit moves its block to the recent end and lowers the target. -/
theorem Synced.hit (h : s.Synced c m) (hb : s'.Bounded m) (hm : 10 ≤ m)
    (hl : hashLookup s.nucleus o = some r) (hp : r.pool = .cache)
    (hg : larcDecreaseGSize s = .ok g) (hs : (s.aim g).Step r e free (s.touchedQ r) s')
    (he : e.oblock = (s.nucleus.entry r).oblock)
    (hmig : e.migrating = (s.nucleus.entry r).migrating) :
    s'.Synced c m ∧ (s'.reference, .hit) = s.reference.request c m o := by
  obtain ⟨ha, ho⟩ := h.bounded.inv.wf.hashLookup_eq_some.mp hl
  have hq := h.bounded.inv.queued
  have hsame : ∀ p, s'.oblocks p = s.nucleus.oblocks (s.touchedQ r p) := by
    intro p
    rw [oblocks, hs.queue]
    exact hs.rewrites.oblocks_same he _
  have hcache : s'.oblocks .cache = (s.oblocks .cache).erase o ++ [o] := by
    have herase := hq.oblocks_erase h.bounded.inv.wf ha .cache
    rw [ho] at herase
    rw [hsame, touchedQ, h.settled, if_neg Bool.false_ne_true, hp, Function.update_self,
      CacheNucleus.oblocks, List.map_append, List.map_singleton, ho]
    exact congrArg (· ++ [o]) herase
  have hmeta : s'.oblocks .metadata = s.oblocks .metadata := by
    have hno : r ∉ s.queue .metadata := by
      intro hr
      have := ((hq.mem .metadata r).mp hr).2.2
      rw [hp] at this
      cases this
    rw [hsame, touchedQ, h.settled, if_neg Bool.false_ne_true, hp,
      Function.update_of_ne (by decide), List.erase_of_not_mem hno]
    rfl
  refine ⟨⟨hb, (hs.rewrites.nrEntries .cache).trans h.size, fun x => ?_⟩, ?_⟩
  · by_cases hx : x = r
    · subst hx
      rw [hs.rewrites.entry_self, hmig]
      exact h.settled x
    · rw [hs.rewrites.entry_of_ne hx]
      exact h.settled x
  · have hin : o ∈ s.reference.q := (h.mem_of_lookup hl).mpr hp
    rw [Lib.Larc.request_hit hin]
    simp only [reference, hcache, hmeta, hs.gSize, aim, h.bounded.decrease_eq hm hg]

/-- The block `o` takes a slot, and its migration completes. -/
theorem Synced.arrived {s2 : LarcPolicy} {cb : Cblock}
    (hset : ∀ r, (s2.nucleus.entry r).migrating = false)
    (hno : ∀ p, ⟨.cache, cb⟩ ∉ s2.queue p)
    (hb : s'.Bounded m) (hsize : (s2.nucleus.pool .cache).nrEntries = c)
    (hs : s2.Step ⟨.cache, cb⟩ e free s2.queue s') (ha : e.allocated = true)
    (ho : e.oblock = o) (hmig : e.migrating = true) :
    ∃ s'', larcMigratedApi s' o = .ok s'' ∧ s''.Synced c m ∧ s''.gSize = s2.gSize ∧
      s''.oblocks .cache = s2.oblocks .cache ++ [o] ∧
      s''.oblocks .metadata = s2.oblocks .metadata := by
  have hentry := hs.rewrites.entry_self
  have hl : hashLookup s'.nucleus o = some ⟨.cache, cb⟩ := by
    rw [hs.inv.wf.hashLookup_eq_some, hentry]
    exact ⟨ha, ho⟩
  have hmig' : (s'.nucleus.entry ⟨.cache, cb⟩).migrating = true := by rw [hentry, hmig]
  obtain ⟨s'', hrun, hs2⟩ := larcMigratedApi_spec hs.inv hl rfl hmig'
  have hq : s'.queue = s2.queue := hs.queue
  have hold : ∀ p, s'.oblocks p = s2.oblocks p := by
    intro p
    rw [oblocks, hq]
    exact hs.rewrites.oblocks_out (hno p)
  have hpush := Step.oblocks_push hs2 (hs.inv.queued.not_mem_of_migrating hmig')
  have ho' : (s'.nucleus.entry ⟨.cache, cb⟩).oblock = o := by rw [hentry, ho]
  refine ⟨s'', hrun, ⟨?_, ?_, fun x => ?_⟩, hs2.gSize.trans hs.gSize, ?_, ?_⟩
  · exact hb.step hs2 (Function.update_of_ne (by decide) _ _)
  · rw [hs2.rewrites.nrEntries, hs.rewrites.nrEntries, hsize]
  · by_cases hx : x = ⟨.cache, cb⟩
    · rw [hx, hs2.rewrites.entry_self]
    · rw [hs2.rewrites.entry_of_ne hx, hs.rewrites.entry_of_ne hx]
      exact hset x
  · rw [hpush, if_pos rfl, hold, ho']
  · have hne : PoolId.metadata ≠ (⟨.cache, cb⟩ : EntryRef).pool := fun hx => nomatch hx
    rw [hpush, if_neg hne, hold]

/-- Freeing the victim and then the ghost of `o`, list by list. -/
theorem Synced.cleared (h : s.Synced c m) {victim : Option EntryRef} {s1 s2 : LarcPolicy}
    (hun : ∀ r ∈ hashLookup s.nucleus o, r.pool = .metadata)
    (hv : victim = none ∨ victim = queuePeek s.larcQ)
    (evict : (s.aim g).FreesAny victim s1) (forget : s1.FreesAny (hashLookup s.nucleus o) s2) :
    s2.oblocks .cache = (if victim = none then s.oblocks .cache else (s.oblocks .cache).tail) ∧
      s2.oblocks .metadata = (s.oblocks .metadata).erase o := by
  have h0 : (s.aim g).Inv := h.bounded.inv.aim g
  have h1 := evict.inv h0
  have hcached : ∀ v ∈ victim, v.pool = .cache := by
    intro v hx
    rcases hv with hv | hv
    · rw [hv] at hx
      cases hx
    · rw [hv] at hx
      exact ((h.bounded.inv.queued.mem .cache v).mp (List.mem_of_mem_head? hx)).2.2
  constructor
  · rw [forget.oblocks_other h1 fun r hr => by rw [hun r hr]; decide]
    split
    · next hnone =>
      subst hnone
      cases evict
      rfl
    · next hsome =>
      rw [hv.resolve_left hsome] at evict
      exact FreesAny.oblocks_head (s := s.aim g) (p := .cache) evict h0
  · have hother : ∀ v ∈ victim, v.pool ≠ .metadata := by
      intro v hx
      rw [hcached v hx]
      decide
    have hmeta : s1.oblocks .metadata = s.oblocks .metadata := evict.oblocks_other h0 hother
    have hentries := (evict.other h0 hother).2.2
    cases hl : hashLookup s.nucleus o with
    | none =>
      have hghost := (h.mem_ghosts hun).2
      rw [hl] at forget hghost
      cases forget
      rw [hmeta, List.erase_of_not_mem (by simpa using hghost)]
    | some r =>
      rw [hl] at forget
      have hp : r.pool = .metadata := hun r hl
      obtain ⟨rp, i⟩ := r
      subst hp
      cases forget with
      | some ha hs =>
        rw [hs.oblocks h1 ha, hmeta, hentries i]
        exact congrArg _ (h.bounded.inv.wf.hashLookup_eq_some.mp hl).2

/-- A block that is not cached comes into free room, or as a ghost in the place of the least
recent block. -/
theorem Synced.take (h : s.Synced c m) (hb : s'.Bounded m) (hm : 10 ≤ m) (hm9 : 9 * m < 2 ^ 32)
    {victim : Option EntryRef} {s1 s2 : LarcPolicy} {cb : Cblock} {rest : List Nat}
    (hun : ∀ r ∈ hashLookup s.nucleus o, r.pool = .metadata)
    (hg : larcIncreaseGSize s = .ok g)
    (hv : (victim = none ∧ (s.nucleus.pool .cache).free ≠ []) ∨
      ∃ v q, victim = some v ∧ (s.nucleus.pool .cache).free = [] ∧ s.larcQ = v :: q ∧
        (hashLookup s.nucleus o).isSome)
    (evict : (s.aim g).FreesAny victim s1) (forget : s1.FreesAny (hashLookup s.nucleus o) s2)
    (hfree : (s2.nucleus.pool .cache).free = cb :: rest)
    (arrive : s2.Step ⟨.cache, cb⟩
      { s2.nucleus.arrivingEntry ⟨.cache, cb⟩ o with dirty := w } rest s2.queue s') :
    ∃ s'', larcMigratedApi s' o = .ok s'' ∧ s''.Synced c m ∧
      (s''.reference, .miss (victim.map fun v => (s.nucleus.entry v).oblock)) =
        s.reference.request c m o := by
  have h0 : (s.aim g).Inv := h.bounded.inv.aim g
  have h1 := evict.inv h0
  have h2 := forget.inv h1
  have hset := forget.settled (evict.settled h.settled)
  have hsize : (s2.nucleus.pool .cache).nrEntries = c := by
    rw [forget.nrEntries, evict.nrEntries]
    exact h.size
  have hno := h2.queued.not_mem_of_free
    ((h2.wf.mem_free (r := ⟨.cache, cb⟩)).mp (hfree ▸ List.mem_cons_self)).2
  obtain ⟨s'', hrun, hsync, hgs, hcache, hmeta⟩ :=
    Synced.arrived (o := o) hset hno hb hsize arrive rfl rfl rfl
  have hgSize : s''.gSize = Lib.Larc.raise m s.gSize := by
    rw [hgs, forget.shrinks.gSize, evict.shrinks.gSize]
    exact h.bounded.increase_eq hm hm9 hg
  have hpeek : victim = none ∨ victim = queuePeek s.larcQ := by
    rcases hv with ⟨hv, _⟩ | ⟨v, q, hv, _, hq, _⟩
    · exact Or.inl hv
    · exact Or.inr (by rw [hv, hq]; rfl)
  obtain ⟨hcache2, hmeta2⟩ := h.cleared hun hpeek evict forget
  obtain ⟨hnot, hghost⟩ := h.mem_ghosts hun
  have hlen := h.length
  have hnot' : o ∉ s.reference.q := hnot
  refine ⟨s'', hrun, hsync, ?_⟩
  rcases hv with ⟨rfl, hroom⟩ | ⟨v, q, rfl, hfull, hq, hknown⟩
  · have hlt : s.reference.q.length < c := by
      have := List.length_pos_iff.mpr hroom
      show (s.oblocks .cache).length < c
      omega
    rw [if_pos rfl] at hcache2
    rw [Lib.Larc.request_room hnot' hlt]
    simp only [reference, hcache, hmeta, hgSize, hcache2, hmeta2, Option.map_none]
  · have hle : c ≤ s.reference.q.length := by
      rw [hfull, List.length_nil] at hlen
      exact Nat.le_of_eq hlen.symm
    have hhead : s.reference.q.head? = some (s.nucleus.entry v).oblock := by
      show (s.nucleus.oblocks s.larcQ).head? = _
      rw [hq]
      rfl
    rw [Lib.Larc.request_ghost hnot' hle (hghost.mpr hknown), hhead]
    rw [if_neg (by simp)] at hcache2
    simp only [reference, hcache, hmeta, hgSize, hcache2, hmeta2, Option.map_some]

/-- A full cache refuses a block it does not know, and remembers it. -/
theorem Synced.filtered (h : s.Synced c m) (hb : s''.Bounded m) (hm : 10 ≤ m)
    (hm9 : 9 * m < 2 ^ 32) {i : Nat} {rest : List Nat} {s1 s2 : LarcPolicy}
    (habs : s.nucleus.Absent o) (hfull : (s.nucleus.pool .cache).free = [])
    (hg : larcIncreaseGSize s = .ok g) (hf : (s.nucleus.pool .metadata).free = i :: rest)
    (ghost : (s.aim g).Step ⟨.metadata, i⟩ (s.nucleus.freshEntry ⟨.metadata, i⟩ o) rest
      (Function.update s.queue .metadata (s.larcG ++ [⟨.metadata, i⟩])) s1)
    (trim : s1.FreesAny
      (if s.larcG.length + 1 > g then queuePeek (s.larcG ++ [⟨.metadata, i⟩]) else none) s2)
    (hend : s'' = { s2 with nucleus := s2.nucleus.incIos }) :
    s''.Synced c m ∧ (s''.reference, .filtered) = s.reference.request c m o := by
  have hfree := (h.bounded.inv.wf.mem_free (r := ⟨.metadata, i⟩)).mp (hf ▸ List.mem_cons_self)
  have hpush := Step.oblocks_push (s := s.aim g) ghost
    (h.bounded.inv.queued.not_mem_of_free hfree.2)
  have hne : PoolId.cache ≠ (⟨.metadata, i⟩ : EntryRef).pool := fun hx => nomatch hx
  have hcache1 : s1.oblocks .cache = s.oblocks .cache := (hpush .cache).trans (if_neg hne)
  have hmeta1 : s1.oblocks .metadata = s.oblocks .metadata ++ [o] := hpush .metadata
  have hset1 : ∀ r, (s1.nucleus.entry r).migrating = false := by
    intro r
    by_cases hr : r = ⟨.metadata, i⟩
    · rw [hr, ghost.rewrites.entry_self]
      exact h.settled _
    · rw [ghost.rewrites.entry_of_ne hr]
      exact h.settled r
  have hq1 : s1.queue .metadata = s.larcG ++ [⟨.metadata, i⟩] := by
    rw [ghost.queue, Function.update_self]
  have hlen : s.larcG.length = (s.oblocks .metadata).length := by
    rw [oblocks, CacheNucleus.oblocks, List.length_map]
    rfl
  rw [← hq1, hlen] at trim
  -- only ghosts leave
  have hcache2 : s2.oblocks .cache = s.oblocks .cache := by
    rw [trim.oblocks_other ghost.inv, hcache1]
    intro x hx
    split at hx
    · rw [((ghost.inv.queued.mem .metadata x).mp (List.mem_of_mem_head? hx)).2.2]
      decide
    · cases hx
  have hmeta2 : s2.oblocks .metadata = Lib.Larc.haunt (s.oblocks .metadata) o g := by
    unfold Lib.Larc.haunt
    split
    · next hlt =>
      rw [if_pos hlt] at trim
      rw [trim.oblocks_head ghost.inv, hmeta1]
    · next hle =>
      rw [if_neg hle] at trim
      cases trim
      exact hmeta1
  subst hend
  refine ⟨⟨hb, ?_, trim.settled hset1⟩, ?_⟩
  · show (s2.nucleus.pool .cache).nrEntries = c
    rw [trim.nrEntries, ghost.rewrites.nrEntries]
    exact h.size
  · have hnot : o ∉ s.reference.q := h.bounded.inv.not_mem_oblocks habs .cache
    have hnog : o ∉ s.reference.qr := h.bounded.inv.not_mem_oblocks habs .metadata
    have hle : c ≤ s.reference.q.length := by
      have := h.length
      rw [hfull, List.length_nil] at this
      exact Nat.le_of_eq this.symm
    have hgSize : s2.gSize = g := trim.shrinks.gSize.trans ghost.gSize
    rw [Lib.Larc.request_filtered hnot hle hnog]
    show (({ q := s2.oblocks .cache, qr := s2.oblocks .metadata, target := s2.gSize } :
      Lib.Larc Oblock), _) = _
    simp only [hcache2, hmeta2, hgSize, reference, h.bounded.increase_eq hm hm9 hg]

/-- One synchronous request. -/
theorem Synced.request (h : s.Synced c m) (hc : 1 ≤ c) (hm : 10 ≤ m) (hm9 : 9 * m < 2 ^ 32)
    (x : Oblock × Bool) : ∃ s' res, larcApi.request s x = .ok (s', res) ∧ s'.Synced c m ∧
      s'.reference = (s.reference.request c m x.1).1 ∧
      Answers res (s.reference.request c m x.1).2 := by
  obtain ⟨o, w⟩ := x
  obtain ⟨s1, res, hcall, hb⟩ :=
    h.bounded.call hm hm9 (show larcCalls s (.map o w {}) from trivial)
  obtain ⟨res, rfl, hmap⟩ := Policy.call_map.mp hcall
  have hcase := larcMapApi_case h.bounded.inv o w {}
  rw [show larcMapApi s o w {} = .ok (s1, res) from hmap] at hcase
  cases hcase with
  | @hit r g _ hl hp hg hs =>
    obtain ⟨hsync, hreq⟩ := h.hit hb hm hl hp hg hs rfl rfl
    refine ⟨s1, { op := .hit, cblock := r.index }, ?_, hsync, ?_, ?_⟩
    · simp [Policy.request, hmap]
    · rw [← hreq]
    · rw [← hreq]
      rfl
  | @take victim g s2 s3 _ cb rest res hun hg hv evict forget hfree arrive hres =>
    obtain ⟨s4, hrun, hsync, hreq⟩ := h.take hb hm hm9 hun hg hv evict forget hfree arrive
    have hrun' : larcApi.migrated s1 o = .ok s4 := hrun
    have hops : ∀ op, op = victim.elim CacheNucleusOperation.new (fun _ => .replace) →
        op = .new ∨ op = .replace := by
      intro op hop
      cases victim with
      | none => exact Or.inl hop
      | some v => exact Or.inr hop
    refine ⟨s4, { res with op := victim.elim .new fun _ => .replace, cblock := cb }, ?_, hsync,
      by rw [← hreq], ?_⟩
    · simp [Policy.request, hmap, hops _ rfl, hrun']
    · rw [← hreq]
      cases victim with
      | none => rfl
      | some v => exact ⟨rfl, by rw [hres]; rfl⟩
  | @filter i g rest s2 s3 habs hfull hg hf ghost trim =>
    obtain ⟨hsync, hreq⟩ := h.filtered hb hm hm9 habs hfull hg hf ghost trim rfl
    refine ⟨_, { op := .filter }, ?_, hsync, ?_, ?_⟩
    · simp [Policy.request, hmap]
    · rw [← hreq]
    · rw [← hreq]
      rfl
  | refused hl hp hfull hg hq =>
    have hlen := h.length
    have hnil : s.oblocks .cache = [] := by
      rw [oblocks, show s.queue .cache = [] from hq]
      rfl
    simp only [hfull, hnil, List.length_nil] at hlen
    omega

/-- A sequence of synchronous requests. -/
theorem Synced.requests (hc : 1 ≤ c) (hm : 10 ≤ m) (hm9 : 9 * m < 2 ^ 32)
    (xs : List (Oblock × Bool)) (h : s.Synced c m) : ∃ s' results,
      larcApi.requests s xs = .ok (s', results) ∧ s'.Synced c m ∧
      s'.reference = (s.reference.requests c m (xs.map Prod.fst)).1 ∧
      List.Forall₂ Answers results (s.reference.requests c m (xs.map Prod.fst)).2 := by
  induction xs generalizing s with
  | nil => exact ⟨s, [], rfl, h, rfl, .nil⟩
  | cons x xs ih =>
    obtain ⟨s1, res, hrun1, h1, href1, hans1⟩ := h.request hc hm hm9 x
    obtain ⟨s2, results, hrun2, h2, href2, hans2⟩ := ih h1
    rw [href1] at href2 hans2
    refine ⟨s2, res :: results, ?_, h2, href2, .cons hans1 hans2⟩
    simp only [Policy.requests, hrun1, hrun2, ok_bind, pure_eq_ok]

theorem Synced.of_create {c m : UInt32} (h : larcCreate c m = .ok s) :
    s.Synced c.toNat m.toNat ∧ s.reference = { target := m.toNat / 10 } := by
  have hb := larcCreate_bounded h
  rw [larcCreate_eq] at h
  obtain rfl := Except.ok.inj h
  exact ⟨⟨hb, rfl, fun _ => rfl⟩, rfl⟩

theorem answers_ne_fail {results : List CacheNucleusResult}
    {answers : List (Lib.LarcAnswer Oblock)} (h : List.Forall₂ Answers results answers) :
    ∀ res ∈ results, res.op ≠ .fail := by
  induction h with
  | nil => simp
  | @cons res answer results answers hr _ ih =>
    refine List.forall_mem_cons.mpr ⟨fun hop => ?_, ih⟩
    cases answer with
    | hit => cases hop.symm.trans hr
    | miss victim =>
      cases victim with
      | none => cases hop.symm.trans hr
      | some v => cases hop.symm.trans hr.1
    | filtered => cases hop.symm.trans hr

end LarcPolicy

open LarcPolicy

/-- Synchronous LARC is LARC in exact arithmetic, but for the room a cache that is not full has
for every block: the same lists and target, and every request is the same hit, admission with
the same victim, or refusal. No request fails. -/
theorem larc_synchronous {c m : UInt32} (hc : 1 ≤ c.toNat) (hm : 10 ≤ m.toNat)
    (hm9 : 9 * m.toNat < 2 ^ 32) {s0 : LarcPolicy} (hinit : larcCreate c m = .ok s0)
    (xs : List (Oblock × Bool)) : ∃ s results, larcApi.requests s0 xs = .ok (s, results) ∧
      s.reference = (Lib.Larc.requests c.toNat m.toNat { target := m.toNat / 10 }
        (xs.map Prod.fst)).1 ∧
      List.Forall₂ Answers results (Lib.Larc.requests c.toNat m.toNat { target := m.toNat / 10 }
        (xs.map Prod.fst)).2 ∧
      ∀ res ∈ results, res.op ≠ .fail := by
  obtain ⟨h0, href0⟩ := Synced.of_create hinit
  obtain ⟨s, results, hrun, _, href, hans⟩ := h0.requests hc hm hm9 xs
  rw [href0] at href hans
  exact ⟨s, results, hrun, href, hans, answers_ne_fail hans⟩

/-- Block 3 is refused once, and takes the place of block 2 when it comes again. -/
theorem larc_synchronous_two : ∃ s0 s results, larcCreate 2 20 = .ok s0 ∧
    larcApi.requests s0 [(1, false), (2, true), (1, false), (3, false), (3, true), (4, false)] =
      .ok (s, results) ∧
    s.oblocks .cache = [1, 3] ∧ s.oblocks .metadata = [4] := by
  obtain ⟨s, results, hrun, href, _⟩ := larc_synchronous (c := 2) (m := 20) (by decide)
    (by decide) (by decide) (larcCreate_eq 2 20)
    [(1, false), (2, true), (1, false), (3, false), (3, true), (4, false)]
  exact ⟨_, s, results, larcCreate_eq 2 20, hrun, congrArg Lib.Larc.q href,
    congrArg Lib.Larc.qr href⟩

end Fomo
