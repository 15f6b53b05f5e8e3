import Fomo.Algs.LirsStructure

/-!
# The length of the LIRS stack

`s_len` counts the entries of `S` and those that are still migrating. A removal takes an entry
out of the count only with its place in `S`, so the count is right in every run that removes
settled blocks only.
-/
namespace Fomo

/-- `lirs_remove_api` up to `lirs_prune_s`. -/
def lirsRemoveUnpruned (lirs : LirsPolicy) (oblock : Oblock) (removeToHistory : Bool) :
    Exec LirsPolicy := do
  let le ← deref (hashLookup lirs.nucleus oblock)
  if inCache (some le) then
    if removeToHistory && (lirs.isHIR le && decide (le ∈ lirs.s)) then
      lirsReplaceWithMeta lirs le
    else lirsRemoveEntry lirs le
  else lirsRemoveEntry lirs le

theorem lirsRemoveApi_eq (s : LirsPolicy) (o : Oblock) (keep : Bool) :
    lirsRemoveApi s o keep = (lirsRemoveUnpruned s o keep >>= lirsPruneS) := by
  cases hl : hashLookup s.nucleus o with
  | none => simp [lirsRemoveApi, lirsRemoveUnpruned, hl]
  | some r =>
    cases hin : inCache (some r) with
    | false => simp [lirsRemoveApi, lirsRemoveUnpruned, hl, hin]
    | true =>
      cases hk : (keep && (s.isHIR r && decide (r ∈ s.s))) with
      | false =>
        simp only [lirsRemoveApi, lirsRemoveUnpruned, hl, deref_some, ok_bind, hin, if_true, hk,
          Bool.false_eq_true, if_false]
      | true =>
        simp only [lirsRemoveApi, lirsRemoveUnpruned, hl, deref_some, ok_bind, hin, if_true, hk]

/-- Calls that remove settled blocks only. -/
def lirsSettledCalls (lirs : LirsPolicy) : Call → Prop
  | .remove o _ => ∃ cb, lirs.nucleus.Caches o cb ∧ ¬lirs.nucleus.Migrating cb
  | call => lirsCalls lirs call

namespace LirsPolicy

/-- `t` is a state in which the call comes to `lirs_prune_s`. -/
inductive Prunes (s : LirsPolicy) : Call → LirsPolicy → Prop
  | map {o w result lt t res} (hset : lirsTransactionSet s (lirsTransactionInit o) = .ok lt)
      (hlegal : lirsTransactionIsLegal s lt = true) (hrepeat : lt.isRepeat = false)
      (hrun : lirsTransactionUnpruned s lt result = .ok (t, res)) : Prunes s (.map o w result) t
  | remove {o keep t} (hrun : lirsRemoveUnpruned s o keep = .ok t) : Prunes s (.remove o keep) t

/-- The slot holds a migrating entry. -/
def awaiting (s : LirsPolicy) (i : Nat) : Bool :=
  (s.nucleus.entry ⟨.cache, i⟩).allocated && (s.nucleus.entry ⟨.cache, i⟩).migrating

/-- The number of migrating entries in the cache. -/
def migratingCount (s : LirsPolicy) : Nat :=
  Lib.slots (s.nucleus.pool .cache).nrEntries s.awaiting

/-- The accounts of a policy with `c` slots before `lirs_prune_s`, by at most `d` too long. -/
structure Accounted (c d : Nat) (s : LirsPolicy) : Prop where
  inv : s.Inv none
  entries : (s.nucleus.pool .cache).nrEntries = c
  sMaxlen : s.sMaxlen = lirsMaxlen c
  balanced : s.Balanced s.migratingCount
  sLen_le : s.sLen ≤ lirsMaxlen c + d

variable {s s' t : LirsPolicy} {x : Option EntryRef} {r : EntryRef} {o : Oblock} {c d i : Nat}
  {lt : LirsTransaction} {result res : CacheNucleusResult} {w keep : Bool}

theorem migratingCount_congr
    (hn : (s'.nucleus.pool .cache).nrEntries = (s.nucleus.pool .cache).nrEntries)
    (h : ∀ b, s'.awaiting b = s.awaiting b) : s'.migratingCount = s.migratingCount := by
  rw [migratingCount, hn]
  exact Lib.slots_congr fun b _ => h b

/-- One slot changes the count by itself alone. -/
theorem migratingCount_slot (hi : i < (s.nucleus.pool .cache).nrEntries)
    (hn : (s'.nucleus.pool .cache).nrEntries = (s.nucleus.pool .cache).nrEntries)
    (h : ∀ b, b ≠ i → s'.awaiting b = s.awaiting b) :
    s'.migratingCount + (if s.awaiting i then 1 else 0) =
      s.migratingCount + if s'.awaiting i then 1 else 0 := by
  rw [migratingCount, migratingCount, hn]
  exact Lib.slots_update hi fun b hb => (h b hb).symm

theorem SameSlots.migratingCount (h : s.SameSlots s') : s'.migratingCount = s.migratingCount :=
  migratingCount_congr (h.frame.nrEntries _) fun b => by rw [awaiting, awaiting, h.cache b]

theorem SameButDirty.migratingCount (h : s.SameButDirty s') :
    s'.migratingCount = s.migratingCount := by
  refine migratingCount_congr (h.frame.nrEntries _) fun b => ?_
  obtain ⟨e, he⟩ := h.entry ⟨.cache, b⟩
  rw [awaiting, awaiting, he]

theorem awaiting_of_awaits (hp : r.pool = .cache)
    (ha : (s.nucleus.entry r).allocated = true) :
    (if s.awaiting r.index then 1 else 0) = s.awaits r := by
  obtain ⟨rp, ri⟩ := r
  obtain rfl : rp = .cache := hp
  rw [awaiting, ha, Bool.true_and, awaits]

/-- A migrating entry is one of those counted. -/
theorem Inv.awaits_le_count (h : s.Inv x) (hp : r.pool = .cache)
    (ha : (s.nucleus.entry r).allocated = true) : s.awaits r ≤ s.migratingCount := by
  have hsame := awaiting_of_awaits hp ha
  split at hsame
  case isTrue hw =>
    rw [← hsame]
    have hlt := h.wf.lt_of_allocated ha
    rw [hp] at hlt
    exact Lib.slots_pos hlt hw
  case isFalse => omega

theorem Accounted.finished (h : s.Accounted c d) (o : Oblock) (w : Bool) :
    (s.finished o w).Accounted c d := by
  have hd := h.inv.finished o w
  obtain ⟨_, hstack, _, _, hlen⟩ := hd.lists
  refine ⟨hd.inv, (hd.frame.nrEntries _).trans h.entries, hd.frame.sMaxlen.trans h.sMaxlen, ?_,
    hlen.trans_le h.sLen_le⟩
  rw [hd.migratingCount]
  exact ⟨by rw [hlen, hstack]; exact h.balanced.sLen, hlen.trans_le h.balanced.le⟩

end LirsPolicy

open LirsPolicy

variable {s s' t : LirsPolicy} {x : Option EntryRef} {r : EntryRef} {o : Oblock} {c d i : Nat}
  {lt : LirsTransaction} {result res : CacheNucleusResult} {w keep : Bool}

/-- A request that comes to `lirs_prune_s` is planned. -/
theorem lirsTransactionSet_planned (hset : lirsTransactionSet s (lirsTransactionInit o) = .ok lt)
    (hrepeat : lt.isRepeat = false) :
    o ≠ s.lastOblock ∧ s.Planned o lt ∧ (lt.lirEvict = true → s.s ≠ []) := by
  have ho : o ≠ s.lastOblock := by
    intro ho
    rw [lirsTransactionSet_repeat ho] at hset
    obtain rfl := Except.ok.inj hset
    cases hrepeat
  rcases lirsTransactionSet_case ho with ⟨lt', hset', hpl, hs⟩ | ⟨hset', _⟩
  · obtain rfl := Except.ok.inj (hset.symm.trans hset')
    exact ⟨ho, hpl, hs⟩
  · rw [hset] at hset'
    cases hset'

/-- The end of the commit counts the entry of the request again. -/
theorem LirsPolicy.Accounted.of_finish {k : Nat} (h : s.Inv (some r)) (hp : r.pool = .cache)
    (ha : (s.nucleus.entry r).allocated = true)
    (hst : (s.nucleus.entry r).migrating = true ∨ lt.isHIR = false ∧ s.isHIR r = false)
    (hn : (s.nucleus.pool .cache).nrEntries = c) (hmax : s.sMaxlen = lirsMaxlen c)
    (hb : s.Balanced k) (hk : s.migratingCount = k + s.awaits r) (hle : s.sLen ≤ lirsMaxlen c)
    (hrun : s.finish lt r = .ok t) : t.Accounted c 1 := by
  have hM := lirsMaxlen_lt c
  rcases lirsTransactionFinish_case lt h hp ha hst with ⟨s6, hrun6, hfin⟩ | ⟨⟨f, hrun6⟩, _⟩
  · obtain rfl := Except.ok.inj (hrun.symm.trans hrun6)
    obtain ⟨hb6, hlen6⟩ := hfin.balanced k (by omega) hb
    refine ⟨hfin.inv, (hfin.sameSlots.frame.nrEntries _).trans hn,
      hfin.sameSlots.frame.sMaxlen.trans hmax, ?_, by omega⟩
    rw [hfin.sameSlots.migratingCount, hk]
    exact hb6
  · rw [hrun] at hrun6
    cases hrun6

/-- A request that comes to `lirs_prune_s` has counted itself. -/
theorem LirsPolicy.Accounted.unpruned (h : s.Accounted c 0)
    (hset : lirsTransactionSet s (lirsTransactionInit o) = .ok lt)
    (hlegal : lirsTransactionIsLegal s lt = true) (hrepeat : lt.isRepeat = false)
    (hrun : lirsTransactionUnpruned s lt result = .ok (t, res)) : t.Accounted c 1 := by
  obtain ⟨_, hpl, hs⟩ := lirsTransactionSet_planned hset hrepeat
  have hM := lirsMaxlen_lt c
  have hlen := h.balanced.sLen
  have hle := h.sLen_le
  by_cases hc : s.nucleus.Cached o
  · obtain ⟨r, hl, hp⟩ := h.inv.cached_iff.mp hc
    obtain ⟨s4, hhit, hrun4⟩ := lirsTransactionUnpruned_hit h.inv hl hp hpl result
    obtain ⟨t4, hrunt, heq⟩ := bind_eq_ok.mp (hrun4.symm.trans hrun)
    obtain ⟨rfl, -⟩ := Prod.mk.inj (Except.ok.inj heq)
    obtain ⟨ha, _⟩ := h.inv.wf.hashLookup_eq_some.mp hl
    have hentry : s4.nucleus.entry r = s.nucleus.entry r := by
      obtain ⟨rp, ri⟩ := r
      obtain rfl : rp = .cache := hp
      rw [hhit.sameSlots.cache ri, counted_entry]
    have hst : lt.isHIR = false ∧ s4.isHIR r = false := by
      rw [hpl.isHIR, hl, hhit.isHIR, Function.update_self]
      simp
    have hwait := h.inv.awaits_le_count hp ha
    have hwait4 : s4.awaits r = s.awaits r := by rw [awaits, awaits, hentry]
    have hcount : s4.migratingCount = s.migratingCount := hhit.sameSlots.migratingCount
    have hb4 := hhit.balanced (s.migratingCount - s.awaits r) (by
      rw [Nat.sub_add_cancel hwait]
      exact h.balanced)
    have hlen4 := hb4.sLen
    have hshort := hhit.length
    exact .of_finish hhit.inv hp (by rw [hentry]; exact ha) (Or.inr hst)
      ((hhit.sameSlots.frame.nrEntries _).trans h.entries)
      (hhit.sameSlots.frame.sMaxlen.trans h.sMaxlen) hb4 (by omega) (by omega) hrunt
  · have hun := h.inv.ghost_of_not_cached hc
    have hq : lt.hirEvict = true → s.q ≠ [] := by
      intro hev hnil
      rw [lirsTransactionIsLegal_eq hs, hev, hnil] at hlegal
      cases hlegal
    obtain ⟨s4, i, res4, hent, _, _, hrun4⟩ :=
      lirsTransactionUnpruned_miss h.inv hun hpl hq result (Or.inr ⟨_, hrun⟩)
    obtain ⟨t4, hrunt, heq⟩ := bind_eq_ok.mp (hrun4.symm.trans hrun)
    obtain ⟨rfl, -⟩ := Prod.mk.inj (Except.ok.inj heq)
    have hmig := hent.holds.migrating
    have hb4 := hent.balanced s.migratingCount (by omega) h.balanced
    have hlen4 := hb4.sLen
    have hshort := hent.length
    have hnr := hent.frame.nrEntries .cache
    rw [counted_pool] at hnr
    have hi : i < (s.nucleus.pool .cache).nrEntries := by
      rw [← hnr]
      exact hent.inv.wf.lt_of_allocated (r := ⟨.cache, i⟩) hent.holds.allocated
    have hslot := migratingCount_slot hi hnr fun b hb => by
      rw [awaiting, awaiting, hent.other b hb]
    rw [awaiting, hent.migrating, Bool.and_false, awaiting, hent.holds.allocated, hmig] at hslot
    simp only [Bool.false_eq_true, if_false, Bool.and_true, if_true, Nat.add_zero] at hslot
    exact .of_finish (hent.inv.hold hmig) rfl hent.holds.allocated (Or.inl hmig)
      (hnr.trans h.entries) (hent.frame.sMaxlen.trans h.sMaxlen) hb4
      (by rw [hslot, awaits_migrating hmig]) (by omega) hrunt

/-- `lirs_prune_s` takes back what is too long. -/
theorem LirsPolicy.Accounted.pruneS (h : t.Accounted c 1) (hrun : lirsPruneS t = .ok s) :
    s.Accounted c 0 := by
  by_cases hle : t.sLen ≤ t.sMaxlen
  · obtain rfl : t = s := Except.ok.inj ((if_pos hle).symm.trans hrun)
    exact ⟨h.inv, h.entries, h.sMaxlen, h.balanced, by rw [← h.sMaxlen]; exact hle⟩
  · have hr : t.r ≠ [] := by
      intro hnil
      rw [lirsPruneS_fault (Nat.not_le.mp hle) hnil] at hrun
      cases hrun
    obtain ⟨s', hrun', hinv, htrim, hdrop⟩ := lirsPruneS_spec h.inv (Or.inr hr)
    obtain rfl := Except.ok.inj (hrun.symm.trans hrun')
    have hcount := htrim.sameSlots.migratingCount
    have hb := htrim.balanced _ h.balanced
    have h1 := hb.sLen
    have h2 := h.balanced.sLen
    have h3 := h.sLen_le
    have h4 := hdrop (Nat.not_le.mp hle)
    refine ⟨hinv, (htrim.frame.nrEntries _).trans h.entries, htrim.frame.sMaxlen.trans h.sMaxlen,
      ?_, by omega⟩
    rw [hcount]
    exact hb

/-- A removal takes an entry out of the stack or leaves it to a ghost. -/
theorem lirsRemoveUnpruned_evicted (h : s.Inv none) (hl : hashLookup s.nucleus o = some r)
    (hp : r.pool = .cache) (hrun : lirsRemoveUnpruned s o keep = .ok t) : s.Evicted r t := by
  obtain ⟨ha, _⟩ := h.wf.hashLookup_eq_some.mp hl
  have hin : inCache (some r) = true := by simp [inCache, hp]
  by_cases hh : keep = true ∧ s.isHIR r = true ∧ r ∈ s.s
  · obtain ⟨rfl, hhir, hrs⟩ := hh
    have hrun' : lirsReplaceWithMeta s r = .ok t := by
      rw [← hrun]
      simp [lirsRemoveUnpruned, hl, hin, hhir, hrs]
    obtain ⟨s1, hrun1, he⟩ := lirsReplaceWithMeta_case h hrs hhir hp (Or.inr ⟨_, hrun'⟩)
    obtain rfl := Except.ok.inj (hrun'.symm.trans hrun1)
    exact he
  · obtain ⟨s1, hrun1, hf⟩ := lirsRemoveEntry_spec h ha
    have hcond : (keep && (s.isHIR r && decide (r ∈ s.s))) = false := by simpa using hh
    have hrun' : lirsRemoveUnpruned s o keep = .ok s1 := by
      simp only [lirsRemoveUnpruned, hl, deref_some, ok_bind, hin, if_true, hcond,
        Bool.false_eq_true, if_false, hrun1]
    obtain rfl := Except.ok.inj (hrun.symm.trans hrun')
    exact hf.evicted hp

/-- Freeing a slot takes its entry out of the migrating ones. -/
theorem LirsPolicy.Evicted.migratingCount (he : s.Evicted r t) (hp : r.pool = .cache)
    (hlt : r.index < (s.nucleus.pool .cache).nrEntries)
    (ha : (s.nucleus.entry r).allocated = true) :
    t.migratingCount + s.awaits r = s.migratingCount := by
  have hslot := migratingCount_slot hlt (he.frame.nrEntries _) fun b hb => by
    rw [awaiting, awaiting, he.slot.other b hb]
  have hfreed : t.awaiting r.index = false := by
    rw [awaiting, he.slot r.index, if_pos rfl]
    rfl
  rw [awaiting_of_awaits hp ha, hfreed] at hslot
  exact hslot

/-- A removal that comes to `lirs_prune_s` leaves the stack short enough. -/
theorem LirsPolicy.Accounted.evict (h : s.Accounted c 0) (he : s.Evicted r t)
    (hp : r.pool = .cache) (ha : (s.nucleus.entry r).allocated = true) :
    t.sLen ≤ t.sMaxlen ∧ ((s.nucleus.entry r).migrating = false → t.Accounted c 1) := by
  have hM := lirsMaxlen_lt c
  have hle := h.sLen_le
  have hlt := h.inv.wf.lt_of_allocated ha
  rw [hp] at hlt
  have hcount := he.migratingCount hp hlt ha
  have hb := he.balanced s.migratingCount (by omega) h.balanced
  have h1 := hb.sLen
  have h2 := h.balanced.sLen
  have h3 := he.length
  have hmax : t.sMaxlen = lirsMaxlen c := he.frame.sMaxlen.trans h.sMaxlen
  refine ⟨by omega, fun hm => ?_⟩
  refine ⟨he.inv, (he.frame.nrEntries _).trans h.entries, hmax, ?_, by omega⟩
  rw [awaits_settled hm] at hcount
  rw [show t.migratingCount = s.migratingCount from hcount]
  exact hb

/-- A completed migration moves an entry from the migrating ones into `S`. -/
theorem LirsPolicy.Accounted.migrated (h : s.Accounted c 0)
    (hrun : lirsMigratedApi s o = .ok t) : t.Accounted c 0 := by
  obtain ⟨r, hl, hmig⟩ := lirsMigratedApi_ok hrun
  obtain ⟨s1, hrun', hm⟩ := lirsMigratedApi_spec h.inv hl hmig
  obtain rfl := Except.ok.inj (hrun.symm.trans hrun')
  obtain ⟨ha, _⟩ := h.inv.wf.hashLookup_eq_some.mp hl
  have hp : r.pool = .cache := by
    cases hp : r.pool with
    | cache => rfl
    | metadata =>
      have hghost := ((h.inv.placed r).ghost ha hp).1
      rw [hmig] at hghost
      cases hghost
  have hlt := h.inv.wf.lt_of_allocated ha
  rw [hp] at hlt
  obtain ⟨rp, ri⟩ := r
  obtain rfl : rp = .cache := hp
  have hslot := migratingCount_slot hlt (hm.frame.nrEntries _) fun b hb => by
    rw [awaiting, awaiting, hm.rewrites.entry_of_ne (by simpa using hb)]
  rw [awaiting, ha, hmig, awaiting, hm.rewrites.entry_self] at hslot
  simp only [Bool.and_self, Bool.and_false, Bool.false_eq_true, if_true, if_false,
    Nat.add_zero] at hslot
  have hlen := h.balanced.sLen
  refine ⟨hm.inv, (hm.frame.nrEntries _).trans h.entries, hm.frame.sMaxlen.trans h.sMaxlen,
    ⟨?_, hm.sLen.trans_le h.balanced.le⟩, hm.sLen.trans_le h.sLen_le⟩
  rw [hm.sLen, hm.stack, List.length_append, List.length_singleton]
  omega

theorem LirsPolicy.Accounted.map (h : s.Accounted c 0)
    (hrun : lirsMapApi s o w result = .ok (s', res)) : s'.Accounted c 0 := by
  obtain ⟨lt, hset, hrest⟩ := bind_eq_ok.mp hrun
  cases hlegal : lirsTransactionIsLegal s lt with
  | false =>
    rw [hlegal] at hrest
    obtain ⟨rfl, -⟩ := Prod.mk.inj (Except.ok.inj hrest)
    exact h
  | true =>
    rw [hlegal, if_pos rfl] at hrest
    obtain ⟨⟨s7, res7⟩, hcommit, heq⟩ := bind_eq_ok.mp hrest
    obtain ⟨rfl, rfl⟩ := Prod.mk.inj (Except.ok.inj heq)
    refine (?_ : s7.Accounted c 0).finished o w
    cases hrepeat : lt.isRepeat with
    | true =>
      have ho : o = s.lastOblock := by
        by_contra ho
        rcases lirsTransactionSet_case ho with ⟨lt', hset', hpl, _⟩ | ⟨hset', _⟩
        · obtain rfl := Except.ok.inj (hset.symm.trans hset')
          rw [hpl.isRepeat] at hrepeat
          cases hrepeat
        · rw [hset] at hset'
          cases hset'
      rw [lirsTransactionSet_repeat ho] at hset
      obtain rfl := Except.ok.inj hset
      obtain ⟨st, hrun'⟩ := lirsTransactionCommit_repeat s _ result hrepeat rfl
      obtain ⟨rfl, -⟩ := Prod.mk.inj (Except.ok.inj (hcommit.symm.trans hrun'))
      exact ⟨h.inv.withStats st, h.entries, h.sMaxlen, ⟨h.balanced.sLen, h.balanced.le⟩,
        h.sLen_le⟩
    | false =>
      rw [lirsTransactionCommit_eq hrepeat] at hcommit
      obtain ⟨⟨t, rest⟩, hrunt, hprune⟩ := bind_eq_ok.mp hcommit
      obtain ⟨s8, hrun8, heq⟩ := bind_eq_ok.mp hprune
      obtain ⟨rfl, -⟩ := Prod.mk.inj (Except.ok.inj heq)
      exact (h.unpruned hset hlegal hrepeat hrunt).pruneS hrun8

/-- Only a removal of a migrating block leaves the accounts wrong. -/
theorem LirsPolicy.Accounted.step {call : Call} {ans : Option CacheNucleusResult}
    (h : s.Accounted c 0) (hg : lirsSettledCalls s call)
    (hrun : lirsApi.call s call = .ok (s', ans)) : s'.Accounted c 0 := by
  cases call with
  | map o w result =>
    obtain ⟨res, _, hmap⟩ := Policy.call_map.mp hrun
    exact h.map hmap
  | migrated o =>
    obtain ⟨s1, hrun1, heq⟩ := map_eq_ok.mp hrun
    exact (Prod.mk.inj heq).1 ▸ h.migrated hrun1
  | remove o keep =>
    obtain ⟨s1, hrun1, heq⟩ := map_eq_ok.mp hrun
    obtain ⟨rfl, -⟩ := Prod.mk.inj heq
    obtain ⟨cb, hcb, hmig⟩ := hg
    have hl := h.inv.wf.caches_iff.mp hcb
    obtain ⟨t, hrunt, hprune⟩ := bind_eq_ok.mp ((lirsRemoveApi_eq s o keep).symm.trans hrun1)
    have he := lirsRemoveUnpruned_evicted h.inv hl rfl hrunt
    exact ((h.evict he rfl hcb.1).2 (by simpa [CacheNucleus.Migrating] using hmig)).pruneS hprune
  | insert o cb => exact hg.elim
  | remap a b => exact hg.elim
  | setTime time => exact hg.elim

theorem lirsFresh_accounted (c m : UInt32) : (lirsFresh c m).Accounted c.toNat 0 := by
  have hzero : (lirsFresh c m).migratingCount = 0 := by
    rw [migratingCount, show (lirsFresh c m).awaiting = fun _ => false from rfl]
    simp [Lib.slots]
  refine ⟨(lirsFresh_sized c m).inv, rfl, rfl, ⟨?_, Nat.zero_le _⟩, Nat.zero_le _⟩
  rw [hzero]
  rfl

/-- `lirs_prune_s` prunes only a stack of more than `2 * cache_size` entries, which has a HIR
one. -/
def LirsPolicy.PrunesLong (c : Nat) (s : LirsPolicy) : Prop :=
  ∀ call t, lirsCalls s call → s.Prunes call t → t.sMaxlen < t.sLen →
    2 * c < t.s.length + t.migratingCount ∧ t.r ≠ []

theorem LirsPolicy.Accounted.prunesLong (h : s.Accounted c 0) (hc : c < 2 ^ 31) :
    s.PrunesLong c := by
  intro call t hg hprunes hlong
  cases hprunes with
  | map hset hlegal hrepeat hrun =>
    have ht := h.unpruned hset hlegal hrepeat hrun
    have hmax : t.sMaxlen = 2 * c := by
      rw [ht.sMaxlen, lirsMaxlen, u32_of_lt (by omega)]
    have hsum := ht.balanced.sLen
    refine ⟨by omega, fun hnil => ?_⟩
    -- without a HIR entry the stack holds the LIR blocks of the cache alone
    have hstack := ht.inv.length_le hnil
    have hlir : t.lirCount ≤ c := by
      rw [ht.inv.lirCount, ht.entries]
      exact Lib.slots_le _ _
    have hmig : t.migratingCount ≤ c := by
      rw [migratingCount, ht.entries]
      exact Lib.slots_le _ _
    omega
  | remove hrun =>
    obtain ⟨r, hl, hp⟩ := h.inv.cached_iff.mp hg
    obtain ⟨ha, _⟩ := h.inv.wf.hashLookup_eq_some.mp hl
    have he := lirsRemoveUnpruned_evicted h.inv hl hp hrun
    exact absurd (h.evict he hp ha).1 (Nat.not_le.mpr hlong)

/-- In every run that removes settled blocks only, `s_len` counts the stack and the migrating
entries, and with a `2 * cache_size` that fits its type `lirs_prune_s` finds what it prunes. -/
theorem lirs_stack_counted {c m : UInt32} {s0 s : LirsPolicy} (hinit : lirsCreate c m = .ok s0)
    (hs : (lirsApi.system lirsSettledCalls).Reachable s0 s) :
    s.sLen = s.s.length + s.migratingCount ∧ (c.toNat < 2 ^ 31 → s.PrunesLong c.toNat) := by
  rw [lirsCreate_eq] at hinit
  obtain rfl := Except.ok.inj hinit
  have h : s.Accounted c.toNat 0 :=
    hs.invariant (lirsFresh_accounted c m) fun ha hg hstep => ha.step hg hstep
  exact ⟨h.balanced.sLen, h.prunesLong⟩

/-- Two blocks come in, one migration completes, and its block is removed. -/
def lirsRemovedSettled : List Call :=
  [.map 5 false {}, .map 6 false {}, .migrated 5, .remove 5 false]

/-- A block is removed while it migrates. -/
def lirsRemovedMigrating : List Call := [.map 5 false {}, .remove 5 false]

theorem lirs_stack_counted_settled : ∃ s,
    (lirsApi.system lirsSettledCalls).Reachable (lirsFresh 3 1) s ∧ s.sLen = 1 ∧
      s.sLen = s.s.length + s.migratingCount := by
  have hadmits : (lirsApi.system lirsSettledCalls).Admits (lirsFresh 3 1) lirsRemovedSettled :=
    ⟨trivial, trivial, trivial, ⟨2, ⟨rfl, rfl⟩, fun hm => Bool.false_ne_true hm⟩, trivial⟩
  obtain ⟨s, ws, hexec, hlen⟩ : ∃ s ws, (lirsApi.system lirsSettledCalls).exec (lirsFresh 3 1)
      lirsRemovedSettled = .ok (s, ws) ∧ s.sLen = 1 := ⟨_, _, rfl, rfl⟩
  have hrun := (Lib.System.Run.of_exec hadmits hexec).reachable
  exact ⟨s, hrun, hlen, (lirs_stack_counted (lirsCreate_eq 3 1) hrun).1⟩

/-- The removed block stays in the count. -/
theorem lirs_stack_counted_migrating : ¬∀ (c m : UInt32) (s0 s : LirsPolicy), 3 ≤ c.toNat →
    lirsCreate c m = .ok s0 → (lirsApi.system lirsCalls).Reachable s0 s →
    s.sLen = s.s.length + s.migratingCount := by
  intro hall
  have hadmits : (lirsApi.system lirsCalls).Admits (lirsFresh 3 1) lirsRemovedMigrating :=
    ⟨trivial, ⟨2, rfl, rfl⟩, trivial⟩
  obtain ⟨s, ws, hexec, hlen, hcount⟩ : ∃ s ws, (lirsApi.system lirsCalls).exec (lirsFresh 3 1)
      lirsRemovedMigrating = .ok (s, ws) ∧ s.sLen = 1 ∧ s.s.length + s.migratingCount = 0 :=
    ⟨_, _, rfl, rfl, rfl⟩
  have hrun := (Lib.System.Run.of_exec hadmits hexec).reachable
  have hbad := hall 3 1 _ s (by decide) (lirsCreate_eq 3 1) hrun
  rw [hlen, hcount] at hbad
  cases hbad

end Fomo
