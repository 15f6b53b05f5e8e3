import Fomo.Algs.LirsEvictions

/-!
# LIRS requests

The commit takes the block out of the lists or brings it into the cache, makes room among
the LIR entries, and lists the block again. What the slots hold is settled by then: the
rest of the commit changes the lists and forgets ghosts only.
-/
namespace Fomo

namespace LirsPolicy

/-- The slots hold what they held; a ghost may be gone. -/
structure SameSlots (s s' : LirsPolicy) : Prop where
  cache : s.nucleus.SameCache s'.nucleus
  free : (s'.nucleus.pool .cache).free = (s.nucleus.pool .cache).free
  ghosts : ∀ i, (s'.nucleus.entry ⟨.metadata, i⟩).allocated = true →
    s'.nucleus.entry ⟨.metadata, i⟩ = s.nucleus.entry ⟨.metadata, i⟩
  frame : s.SameFrame s'

variable {s s' s'' : LirsPolicy} {x : Option EntryRef} {r u : EntryRef} {o a : Oblock}
  {lt : LirsTransaction} {cb : Cblock}

theorem SameSlots.refl (s : LirsPolicy) : s.SameSlots s :=
  ⟨fun _ => rfl, rfl, fun _ _ => rfl, .refl s⟩

theorem SameSlots.trans (h : s.SameSlots s') (h' : s'.SameSlots s'') : s.SameSlots s'' where
  cache := fun b => (h'.cache b).trans (h.cache b)
  free := h'.free.trans h.free
  ghosts := fun i hi => by
    have h2 := h'.ghosts i hi
    rw [h2] at hi
    exact h2.trans (h.ghosts i hi)
  frame := h.frame.trans h'.frame

theorem SameSlots.withLen (h : s.SameSlots s') (n : Nat) : s.SameSlots { s' with sLen := n } :=
  ⟨h.cache, h.free, h.ghosts, ⟨h.frame.nrEntries, h.frame.cacheSize, h.frame.hirLimit,
    h.frame.sMaxlen, h.frame.lastOblock⟩⟩

theorem Trimmed.sameSlots (h : s.Trimmed s') : s.SameSlots s' :=
  ⟨h.cache, h.free, h.ghosts, h.frame⟩

theorem Demoted.sameSlots (h : s.Demoted r s') : s.SameSlots s' := by
  have hn := h.nucleus
  exact ⟨fun _ => by rw [hn], by rw [hn], fun _ _ => by rw [hn], h.frame⟩

/-- The block is handled as a HIR block, unless a ghost or a cached one is in question. -/
def wantsHIR (s : LirsPolicy) (o : Oblock) : Bool :=
  if inCache (hashLookup s.nucleus o) || cacheIsFull s.nucleus ||
      !decide (sub32 s.nucleus.cacheSize (defaultResidency s.nucleus) > s.hirLimit) then
    ((hashLookup s.nucleus o).map s.isHIR).getD true
  else false

/-- The transaction of a request for another block than the last one. -/
structure Planned (s : LirsPolicy) (o : Oblock) (lt : LirsTransaction) : Prop where
  oblock : lt.oblock = o
  isRepeat : lt.isRepeat = false
  hirEvict : lt.hirEvict = (!inCache (hashLookup s.nucleus o) && cacheIsFull s.nucleus)
  isHIR : lt.isHIR = (s.wantsHIR o && (hashLookup s.nucleus o).isNone)
  lirEvict : lt.lirEvict = ((hashLookup s.nucleus o).isSome && s.wantsHIR o &&
    decide (u32 (s.lirCount + 1) > sub32 s.nucleus.cacheSize s.hirLimit))
  lirSLru : lt.lirSLru = (queuePeek s.s).any fun l => decide (o = (s.nucleus.entry l).oblock)

/-- A hit makes a HIR entry LIR. -/
def promote (s : LirsPolicy) (r : EntryRef) : LirsPolicy := { s with
  isHIR := Function.update s.isHIR r false
  lirCount := u32 (s.lirCount + 1) }

/-- The state in which the commit of a hit, or of a miss, starts. -/
def counted (s : LirsPolicy) (o : Oblock) (hit : Bool) : LirsPolicy := { s with
  nucleus := if hit then s.nucleus.incHits else s.nucleus.incMisses
  lastOblock := o }

end LirsPolicy

open LirsPolicy

variable {s s' : LirsPolicy} {x : Option EntryRef} {r u : EntryRef} {o : Oblock}
  {lt : LirsTransaction} {result res : CacheNucleusResult}

/-! ## The transaction -/

theorem lirsTransactionSet_repeat (ho : o = s.lastOblock) :
    lirsTransactionSet s (lirsTransactionInit o) =
      .ok { lirsTransactionInit o with isRepeat := true } := by
  simp [lirsTransactionSet, lirsTransactionInit, ho]

/-- Only an empty stack keeps a known HIR block from being planned. -/
theorem lirsTransactionSet_case (ho : o ≠ s.lastOblock) :
    (∃ lt, lirsTransactionSet s (lirsTransactionInit o) = .ok lt ∧ s.Planned o lt ∧
      (lt.lirEvict = true → s.s ≠ [])) ∨
    (lirsTransactionSet s (lirsTransactionInit o) = .error .nullPointer ∧ s.s = [] ∧
      (hashLookup s.nucleus o).isSome = true ∧ s.wantsHIR o = true) := by
  -- the plan before the test of the stack
  obtain ⟨remove, hset⟩ : ∃ remove, lirsTransactionSet s (lirsTransactionInit o) = (do
      let lt : LirsTransaction := { lirsTransactionInit o with
        isHIR := s.wantsHIR o
        hirEvict := !inCache (hashLookup s.nucleus o) && cacheIsFull s.nucleus
        hirRemove := remove
        lirSLru := (queuePeek s.s).any fun l => decide (o = (s.nucleus.entry l).oblock) }
      if (hashLookup s.nucleus o).isSome && lt.isHIR then do
        let le ← deref (queuePeek s.s)
        if le ∈ s.s then
          return { lt with
            isHIR := false
            lirEvict := decide (u32 (s.lirCount + 1) > sub32 s.nucleus.cacheSize s.hirLimit) }
        else return { lt with hirAdd := true }
      else if lt.isHIR then return { lt with hirAdd := true }
      else return lt) := by
    refine ⟨inCache (hashLookup s.nucleus o) && s.wantsHIR o, ?_⟩
    cases hc : inCache (hashLookup s.nucleus o) with
    | true =>
      cases hw : ((hashLookup s.nucleus o).map s.isHIR).getD true with
      | true => simp [lirsTransactionSet, lirsTransactionInit, ho, hc, hw, wantsHIR]
      | false => simp [lirsTransactionSet, lirsTransactionInit, ho, hc, hw, wantsHIR]
    | false =>
      cases hf : cacheIsFull s.nucleus with
      | true => simp [lirsTransactionSet, lirsTransactionInit, ho, hc, hf, wantsHIR]
      | false =>
        by_cases hroom : sub32 s.nucleus.cacheSize (defaultResidency s.nucleus) > s.hirLimit
        · simp [lirsTransactionSet, lirsTransactionInit, ho, hc, hf, hroom, wantsHIR]
        · simp [lirsTransactionSet, lirsTransactionInit, ho, hc, hf, hroom, wantsHIR]
  rw [hset]
  cases hl : hashLookup s.nucleus o with
  | none =>
    left
    cases hw : s.wantsHIR o with
    | true =>
      refine ⟨_, by simp; rfl, ?_, fun hx => by cases hx⟩
      constructor <;> simp [lirsTransactionInit, hl, hw]
    | false =>
      refine ⟨_, by simp; rfl, ?_, fun hx => by cases hx⟩
      constructor <;> simp [lirsTransactionInit, hl, hw]
  | some e =>
    cases hw : s.wantsHIR o with
    | false =>
      left
      refine ⟨_, by simp; rfl, ?_, fun hx => by cases hx⟩
      constructor <;> simp [lirsTransactionInit, hl, hw]
    | true =>
      cases hs : s.s with
      | nil => exact Or.inr ⟨by simp, rfl, rfl, rfl⟩
      | cons l t =>
        left
        refine ⟨_, by simp; rfl, ?_, fun _ => by simp⟩
        constructor <;> simp [lirsTransactionInit, hl, hw, hs]

/-- The plan of a request the shortcut does not take is legal unless `Q` is empty. -/
theorem lirsTransactionIsLegal_eq (hs : lt.lirEvict = true → s.s ≠ []) :
    lirsTransactionIsLegal s lt = (!lt.hirEvict || !s.q.isEmpty) := by
  have hsl : (!lt.lirEvict || decide (queueLength s.s > 0)) = true := by
    cases hev : lt.lirEvict with
    | false => rfl
    | true =>
      have := List.length_pos_of_ne_nil (hs hev)
      simpa using this
  rw [lirsTransactionIsLegal, hsl]
  cases s.q <;> simp

/-! ## The commit -/

theorem lirsTransactionCommit_repeat (s : LirsPolicy) (lt : LirsTransaction)
    (result : CacheNucleusResult) (hr : lt.isRepeat = true) (hev : lt.hirEvict = false) :
    ∃ st, lirsTransactionCommit s lt result =
      .ok ({ s with nucleus := { s.nucleus with stats := st } }, { result with
        op := if inCache (hashLookup s.nucleus lt.oblock) then .hit else .new }) := by
  cases hc : inCache (hashLookup s.nucleus lt.oblock) with
  | true => exact ⟨s.nucleus.incHits.stats, by simp [lirsTransactionCommit, hr, hc]; rfl⟩
  | false => exact ⟨s.nucleus.incMisses.stats, by simp [lirsTransactionCommit, hr, hc, hev]; rfl⟩

/-- The commit of a request for another block than the last one, up to `lirs_prune_s`. -/
def lirsTransactionUnpruned (lirs : LirsPolicy) (lt : LirsTransaction)
    (result : CacheNucleusResult) : Exec (LirsPolicy × CacheNucleusResult) := do
  let e := hashLookup lirs.nucleus lt.oblock
  let isHIR := (e.map lirs.isHIR).getD true
  let cached := inCache e
  let lirs := { lirs with
    nucleus := if cached then lirs.nucleus.incHits else lirs.nucleus.incMisses }
  let result := { result with
    op := if cached then .hit else if lt.hirEvict then .replace else .new }
  let lirs ← lirsTransactionTake { lirs with lastOblock := lt.oblock } e
  let lirs ← if lt.lirSLru then lirsFindLastLirLru lirs else .ok lirs
  let (lirs, result) ← if lt.hirEvict then lirsQEvict lirs result else .ok (lirs, result)
  let (lirs, le, result) ← lirsTransactionEnter lirs lt e isHIR result
  let lirs ← lirsTransactionDemote lirs lt
  let lirs ← lirsTransactionPush lirs lt le
  return ({ lirs with sLen := u32 (lirs.sLen + 1) }, result)

/-- The prune is the last thing the commit does. -/
theorem lirsTransactionCommit_eq (hr : lt.isRepeat = false) :
    lirsTransactionCommit s lt result = (do
      let x ← lirsTransactionUnpruned s lt result
      let s7 ← lirsPruneS x.1
      return (s7, x.2)) := by
  cases hb : lt.lirSLru <;> cases hev : lt.hirEvict <;>
    simp only [lirsTransactionCommit, lirsTransactionUnpruned, hr, hb, hev, Bool.false_eq_true,
      if_false, if_true, bind_assoc, pure_eq_ok, ok_bind]

/-- The part of the commit that follows the entry of the request. -/
theorem lirsTransactionUnpruned_eq (hpl : s.Planned o lt) :
    lirsTransactionUnpruned s lt result = (do
      let e := hashLookup s.nucleus o
      let s1 ← lirsTransactionTake (s.counted o (inCache e)) e
      let s2 ← if lt.lirSLru then lirsFindLastLirLru s1 else .ok s1
      let (s3, result) ←
        if lt.hirEvict then lirsQEvict s2 { result with
          op := if inCache e then .hit else if lt.hirEvict then .replace else .new }
        else .ok (s2, { result with
          op := if inCache e then .hit else if lt.hirEvict then .replace else .new })
      let (s4, le, result) ← lirsTransactionEnter s3 lt e ((e.map s.isHIR).getD true) result
      let s5 ← lirsTransactionDemote s4 lt
      let s6 ← lirsTransactionPush s5 lt le
      return ({ s6 with sLen := u32 (s6.sLen + 1) }, result)) := by
  have ho := hpl.oblock
  subst ho
  rfl

/-! ## The parts of the commit -/

namespace LirsPolicy

/-- A migrating entry is counted in `s_len` before it joins `S`. -/
def awaits (s : LirsPolicy) (r : EntryRef) : Nat :=
  if (s.nucleus.entry r).migrating then 1 else 0

theorem awaits_migrating (h : (s.nucleus.entry r).migrating = true) : s.awaits r = 1 := if_pos h

theorem awaits_settled (h : (s.nucleus.entry r).migrating = false) : s.awaits r = 0 := by
  rw [awaits, h]
  rfl

theorem awaits_le (s : LirsPolicy) (r : EntryRef) : s.awaits r ≤ 1 := by
  unfold awaits
  split <;> omega

/-- The hit entry has left the lists, if it was in any. -/
structure Held (s : LirsPolicy) (r : EntryRef) (s' : LirsPolicy) : Prop where
  inv : s'.Inv (some r)
  nucleus : s'.nucleus = s.nucleus
  frame : s.SameFrame s'
  isHIR : s'.isHIR = s.isHIR
  lirCount : s'.lirCount = s.lirCount
  stack : s'.s = s.s.erase r
  balanced : ∀ k, s.Balanced (k + s.awaits r) → s'.Balanced k

/-- The commit between the settling of the slots and the prune. -/
def finish (s : LirsPolicy) (lt : LirsTransaction) (r : EntryRef) : Exec LirsPolicy := do
  let s ← lirsTransactionDemote s lt
  let s ← lirsTransactionPush s lt r
  return { s with sLen := u32 (s.sLen + 1) }

/-- `s'` is what it leaves. -/
structure Finished (s : LirsPolicy) (lt : LirsTransaction) (r : EntryRef) (s' : LirsPolicy) :
    Prop where
  inv : s'.Inv none
  sameSlots : s.SameSlots s'
  pruned : s.Pruned → s'.Pruned
  lirCount : s'.lirCount + (if lt.lirEvict then 1 else 0) = s.lirCount
  isHIR : lt.lirEvict = false → s'.isHIR = s.isHIR
  isHIR_self : s'.isHIR r = s.isHIR r
  balanced : ∀ k, s.sLen + 1 < 2 ^ 32 → s.Balanced k →
    s'.Balanced (k + s.awaits r) ∧ s'.sLen ≤ s.sLen + 1

end LirsPolicy

/-- The answer the commit prepares. -/
def LirsTransaction.op (lt : LirsTransaction) (hit : Bool) : CacheNucleusOperation :=
  if hit then .hit else if lt.hirEvict then .replace else .new

/-- The part of the commit up to the entry of the request, one step after the other. -/
theorem lirsTransactionUnpruned_bind (hpl : s.Planned o lt) :
    lirsTransactionUnpruned s lt result = (do
      let s1 ← lirsTransactionTake (s.counted o (inCache (hashLookup s.nucleus o)))
        (hashLookup s.nucleus o)
      let s2 ← (if lt.lirSLru = true then lirsFindLastLirLru s1 else .ok s1 : Exec LirsPolicy)
      let x ← (if lt.hirEvict = true then
          lirsQEvict s2 { result with op := lt.op (inCache (hashLookup s.nucleus o)) }
        else .ok (s2, { result with op := lt.op (inCache (hashLookup s.nucleus o)) }) :
          Exec (LirsPolicy × CacheNucleusResult))
      let y ← lirsTransactionEnter x.1 lt (hashLookup s.nucleus o)
        (((hashLookup s.nucleus o).map s.isHIR).getD true) x.2
      let s6 ← y.1.finish lt y.2.1
      return (s6, y.2.2)) := by
  rw [lirsTransactionUnpruned_eq hpl]
  unfold LirsTransaction.op
  cases hb : lt.lirSLru <;> cases hev : lt.hirEvict <;>
    simp only [Bool.false_eq_true, if_false, if_true, finish, bind_assoc, pure_eq_ok, ok_bind]

theorem lirsTransactionTake_hit (h : s.Inv none) (hp : r.pool = .cache) :
    ∃ s', lirsTransactionTake s (some r) = .ok s' ∧ s.Held r s' := by
  cases hm : (s.nucleus.entry r).migrating with
  | false =>
    refine ⟨lirsRemoveFromQueues s r, by simp [lirsTransactionTake, inMeta, inCache, hp, hm],
      ⟨h.unqueue r hp, ?_, ?_, ?_, ?_, ?_, fun k hb => ?_⟩⟩
    · rw [lirsRemoveFromQueues_eq]
    · rw [lirsRemoveFromQueues_eq]
      exact ⟨fun _ => rfl, rfl, rfl, rfl, rfl⟩
    · rw [lirsRemoveFromQueues_eq]
    · rw [lirsRemoveFromQueues_eq]
    · rw [lirsRemoveFromQueues_eq]
    · rw [awaits_settled hm] at hb
      exact hb.unqueue r
  | true =>
    have hno : r ∉ s.s := fun hr => by
      have := (h.of_mem_s hr).2.1
      rw [hm] at this
      cases this
    refine ⟨{ s with sLen := dec32 s.sLen }, ?_, (h.hold hm).withLen _, rfl,
      ⟨fun _ => rfl, rfl, rfl, rfl, rfl⟩, rfl, rfl, (List.erase_of_not_mem hno).symm, ?_⟩
    · simp [lirsTransactionTake, inMeta, inCache, hp, hm]
    · intro k hb
      rw [awaits_migrating hm] at hb
      have h1 := hb.sLen
      have h2 := hb.le
      have hdec : dec32 s.sLen = s.sLen - 1 := dec32_of_pos (by omega) h2
      exact ⟨hdec.trans (by show s.sLen - 1 = s.s.length + k; omega), hdec.le.trans (by omega)⟩

/-- Pruning below the oldest LIR entry, when the plan asks for it. -/
theorem lirsFindLast_if (h : s.Inv x) (b : Bool) :
    ∃ s', (if b = true then lirsFindLastLirLru s else .ok s) = .ok s' ∧ s'.Inv x ∧
      s.Trimmed s' ∧ (b = true → s'.Pruned) := by
  cases b with
  | true =>
    obtain ⟨s', hrun, hinv, htrim, hpr⟩ := lirsFindLastLirLru_spec h
    exact ⟨s', hrun, hinv, htrim, fun _ => hpr⟩
  | false => exact ⟨s, rfl, h, .refl s, fun hx => by cases hx⟩

/-- Making room among the LIR entries needs one at the bottom of the stack. -/
theorem lirsTransactionDemote_case (h : s.Inv x) (lt : LirsTransaction) :
    (∃ s', lirsTransactionDemote s lt = .ok s' ∧ s'.Inv x ∧ s.SameSlots s' ∧
      (s.Pruned → s'.Pruned) ∧ s'.lirCount + (if lt.lirEvict then 1 else 0) = s.lirCount ∧
      (lt.lirEvict = false → s'.isHIR = s.isHIR) ∧
      (∀ r, x = some r → s'.isHIR r = s.isHIR r) ∧
      (∀ k, s.Balanced k → s'.Balanced k) ∧ s'.s.length ≤ s.s.length) ∨
    (∃ f, lirsTransactionDemote s lt = .error f) ∧ lt.lirEvict = true ∧
      ¬(s.Pruned ∧ s.s ≠ []) := by
  cases hev : lt.lirEvict with
  | false =>
    left
    exact ⟨s, by simp [lirsTransactionDemote, hev], h, .refl s, id, rfl, fun _ => rfl,
      fun _ _ => rfl, fun _ hb => hb, le_rfl⟩
  | true =>
    cases hs : s.s with
    | nil =>
      right
      exact ⟨⟨.nullPointer, by simp [lirsTransactionDemote, hev, lirsSEvict, hs]⟩, rfl,
        fun hx => hx.2 rfl⟩
    | cons l t =>
      cases hl : s.isHIR l with
      | true =>
        right
        refine ⟨⟨.assertion, by simp [lirsTransactionDemote, hev, lirsSEvict, hs, hl, logAssert]⟩,
          rfl, fun hx => ?_⟩
        have hc := hx.1
        unfold Pruned at hc
        rw [hs, Lib.clear_cons, hl] at hc
        cases hc
      | false =>
        left
        obtain ⟨s1, hrun1, hd⟩ := lirsSEvict_spec h hs hl
        obtain ⟨s2, hrun2, hinv, htrim, hpr⟩ := lirsFindLastLirLru_spec (hd.inv x h)
        have hstack := hd.stack
        refine ⟨s2, by simp [lirsTransactionDemote, hev, hrun1, hrun2], hinv,
          hd.sameSlots.trans htrim.sameSlots, fun _ => hpr, ?_, (fun hx => by cases hx), ?_,
          fun k hb => htrim.balanced k (hd.balanced k hb), ?_⟩
        · rw [htrim.lirCount]
          exact hd.lirCount
        · intro r hx
          rw [htrim.isHIR, hd.isHIR]
          refine Function.update_of_ne ?_ _ _
          rintro rfl
          exact (h.of_mem_s (r := r) (by rw [hs]; exact List.mem_cons_self)).2.2 hx
        · have h1 := htrim.sublist.length_le
          have h2 := congrArg List.length hstack
          rw [hs] at h2
          simp only [List.length_cons] at h2 ⊢
          omega

/-- The end of the commit: a migrating entry stays unlisted, a settled one is LIR by now. -/
theorem lirsTransactionFinish_case (lt : LirsTransaction) (h : s.Inv (some r))
    (hp : r.pool = .cache) (ha : (s.nucleus.entry r).allocated = true)
    (hst : (s.nucleus.entry r).migrating = true ∨ lt.isHIR = false ∧ s.isHIR r = false) :
    (∃ s', s.finish lt r = .ok s' ∧ s.Finished lt r s') ∨
    (∃ f, s.finish lt r = .error f) ∧ lt.lirEvict = true ∧ ¬(s.Pruned ∧ s.s ≠ []) := by
  rcases lirsTransactionDemote_case h lt with ⟨s5, hrun, hinv, hsame, hpr, hcount, hhir, hself,
    hbal, hlen⟩ | ⟨⟨f, hrun⟩, herr⟩
  · left
    obtain ⟨rp, ri⟩ := r
    obtain rfl : rp = .cache := hp
    have hentry := hsame.cache ri
    have hselfr := hself _ rfl
    cases hm : (s.nucleus.entry ⟨.cache, ri⟩).migrating with
    | true =>
      have hm5 : (s5.nucleus.entry ⟨.cache, ri⟩).migrating = true := by rw [hentry]; exact hm
      refine ⟨{ s5 with sLen := u32 (s5.sLen + 1) },
        by simp [finish, hrun, lirsTransactionPush, hm5], (hinv.release hm5).withLen _,
        hsame.withLen _, hpr, hcount, hhir, hselfr, ?_⟩
      intro k hlt hb
      have h1 := hb.sLen
      have h5 := (hbal k hb).sLen
      have hu : u32 (s5.sLen + 1) = s5.sLen + 1 := u32_of_lt (by omega)
      rw [awaits_migrating hm]
      refine ⟨⟨?_, ?_⟩, ?_⟩
      · show u32 (s5.sLen + 1) = s5.s.length + (k + 1)
        omega
      · show u32 (s5.sLen + 1) ≤ 2 ^ 32
        omega
      · show u32 (s5.sLen + 1) ≤ s.sLen + 1
        omega
    | false =>
      obtain ⟨hlt, hl⟩ := hst.resolve_left (by rw [hm]; decide)
      have hm5 : (s5.nucleus.entry ⟨.cache, ri⟩).migrating = false := by rw [hentry]; exact hm
      have ha5 : (s5.nucleus.entry ⟨.cache, ri⟩).allocated = true := by rw [hentry]; exact ha
      have hl5 : s5.isHIR ⟨.cache, ri⟩ = false := by rw [hselfr]; exact hl
      have hsame' : s.SameSlots (s5.settle ⟨.cache, ri⟩) :=
        ⟨hsame.cache, hsame.free, hsame.ghosts, ⟨hsame.frame.nrEntries, hsame.frame.cacheSize,
          hsame.frame.hirLimit, hsame.frame.sMaxlen, hsame.frame.lastOblock⟩⟩
      refine ⟨{ s5.settle ⟨.cache, ri⟩ with sLen := u32 (s5.sLen + 1) }, ?_,
        (hinv.settle rfl ha5 hm5).withLen _, hsame'.withLen _, ?_, hcount, hhir, hselfr, ?_⟩
      · simp [finish, hrun, lirsTransactionPush, hm5, hlt, lirsPushToQueues, logAssert, settle, hl5]
      · intro hpp
        exact Lib.Clear.push (hpr hpp) hl5
      · intro k hlt hb
        have h1 := hb.sLen
        have h5 := (hbal k hb).sLen
        have hu : u32 (s5.sLen + 1) = s5.sLen + 1 := u32_of_lt (by omega)
        rw [awaits_settled hm]
        refine ⟨⟨?_, ?_⟩, ?_⟩
        · show u32 (s5.sLen + 1) = (s5.s ++ [(⟨.cache, ri⟩ : EntryRef)]).length + (k + 0)
          simp only [List.length_append, List.length_singleton]
          omega
        · show u32 (s5.sLen + 1) ≤ 2 ^ 32
          omega
        · show u32 (s5.sLen + 1) ≤ s.sLen + 1
          omega
  · exact Or.inr ⟨⟨f, by simp [finish, hrun]⟩, herr⟩

/-! ## Hits -/

namespace LirsPolicy

/-- The hit entry `r` is out of the lists and LIR. -/
structure Hit (s : LirsPolicy) (o : Oblock) (r : EntryRef) (s' : LirsPolicy) : Prop where
  inv : s'.Inv (some r)
  sameSlots : (s.counted o true).SameSlots s'
  isHIR : s'.isHIR = Function.update s.isHIR r false
  lirCount : s'.lirCount = s.lirCount + if s.isHIR r then 1 else 0
  pruned : s.Pruned → s'.Pruned
  balanced : ∀ k, s.Balanced (k + s.awaits r) → s'.Balanced k
  length : s'.s.length ≤ s.s.length

theorem Inv.counted (h : s.Inv x) (o : Oblock) (hit : Bool) : (s.counted o hit).Inv x := by
  cases hit with
  | true =>
    have hinv := h.withStats s.nucleus.incHits.stats
    exact ⟨hinv.wf, hinv.q_nodup, hinv.g_nodup, hinv.s_nodup, hinv.r_eq,
      fun u => ⟨(hinv.placed u).mem_q, (hinv.placed u).mem_g, (hinv.placed u).settled,
        (hinv.placed u).mem_s, (hinv.placed u).ghost⟩, hinv.lirCount⟩
  | false =>
    have hinv := h.withStats s.nucleus.incMisses.stats
    exact ⟨hinv.wf, hinv.q_nodup, hinv.g_nodup, hinv.s_nodup, hinv.r_eq,
      fun u => ⟨(hinv.placed u).mem_q, (hinv.placed u).mem_g, (hinv.placed u).settled,
        (hinv.placed u).mem_s, (hinv.placed u).ghost⟩, hinv.lirCount⟩

@[simp] theorem counted_entry (s : LirsPolicy) (o : Oblock) (hit : Bool) :
    (s.counted o hit).nucleus.entry = s.nucleus.entry := by
  cases hit <;> rfl

@[simp] theorem counted_pool (s : LirsPolicy) (o : Oblock) (hit : Bool) :
    (s.counted o hit).nucleus.pool = s.nucleus.pool := by
  cases hit <;> rfl

end LirsPolicy

theorem lirsTransactionUnpruned_hit (h : s.Inv none) (hl : hashLookup s.nucleus o = some r)
    (hp : r.pool = .cache) (hpl : s.Planned o lt) (result : CacheNucleusResult) :
    ∃ s4, s.Hit o r s4 ∧ lirsTransactionUnpruned s lt result = (do
      let s6 ← s4.finish lt r
      return (s6, { result with op := .hit })) := by
  have hev : lt.hirEvict = false := by
    rw [hpl.hirEvict, hl]
    simp [inCache, hp]
  obtain ⟨ha, ho⟩ := h.wf.hashLookup_eq_some.mp hl
  obtain ⟨s1, hrun1, hheld⟩ := lirsTransactionTake_hit (h.counted o true) hp
  obtain ⟨s2, hrun2, hinv2, htrim, hpr⟩ := lirsFindLast_if hheld.inv lt.lirSLru
  have hcache : s2.nucleus.entry r = s.nucleus.entry r := by
    obtain ⟨rp, ri⟩ := r
    obtain rfl : rp = .cache := hp
    rw [htrim.cache ri, hheld.nucleus, counted_entry]
  have hhir2 : s2.isHIR = s.isHIR := htrim.isHIR.trans hheld.isHIR
  have hsame : (s.counted o true).SameSlots s2 := by
    have hn := hheld.nucleus
    have h1 : (s.counted o true).SameSlots s1 :=
      ⟨fun _ => by rw [hn], by rw [hn], fun _ _ => by rw [hn], hheld.frame⟩
    exact h1.trans htrim.sameSlots
  have hstack : s1.s = s.s.erase r := hheld.stack
  have hlen : s2.s.length ≤ s.s.length := by
    have h1 := htrim.sublist.length_le
    have h2 : (s.s.erase r).length ≤ s.s.length := List.length_erase_le
    rw [hstack] at h1
    omega
  -- `S` stays pruned: an entry other than the head leaves, or the front is pruned again
  have hpruned : s.Pruned → s2.Pruned := by
    intro hps
    cases hb : lt.lirSLru with
    | true => exact hpr hb
    | false =>
      apply htrim.pruned hheld.inv.s_nodup
      unfold Pruned at hps ⊢
      rw [hstack, hheld.isHIR]
      refine Lib.Clear.erase_of_head_ne hps fun hhead => ?_
      have hlru := hpl.lirSLru
      rw [hb, show queuePeek s.s = some r from hhead, Option.any_some, ho,
        decide_eq_true rfl] at hlru
      cases hlru
  have hrun : ∀ s4, lirsTransactionEnter s2 lt (some r) (s.isHIR r) { result with op := .hit } =
      .ok (s4, r, { result with op := .hit }) →
      lirsTransactionUnpruned s lt result = (do
        let s6 ← s4.finish lt r
        return (s6, { result with op := .hit })) := by
    intro s4 hrun4
    have hin : inCache (some r) = true := by simp [inCache, hp]
    have hop : lt.op true = .hit := rfl
    rw [lirsTransactionUnpruned_bind hpl, hl, hin, hrun1, ok_bind, hrun2, ok_bind, hev, hop,
      if_neg (by decide), ok_bind, Option.map_some, Option.getD_some, hrun4, ok_bind]
  cases hr : s.isHIR r with
  | true =>
    have hr2 : s2.isHIR r = true := by rw [hhir2]; exact hr
    obtain ⟨hlt, hinv4⟩ := hinv2.promote hp (by rw [hcache]; exact ha) hr2
    refine ⟨s2.promote r, ⟨hinv4, ?_, ?_, ?_, ?_, ?_, hlen⟩, hrun _ ?_⟩
    · exact hsame.trans ⟨fun _ => rfl, rfl, fun _ _ => rfl, fun _ => rfl, rfl, rfl, rfl, rfl⟩
    · show Function.update s2.isHIR r false = _
      rw [hhir2]
    · show u32 (s2.lirCount + 1) = _
      rw [u32_of_lt hlt, htrim.lirCount, hheld.lirCount, hr]
      rfl
    · intro hps
      have hno : r ∉ s2.s := hinv2.held.2.2
      have hp2 := hpruned hps
      unfold Pruned at hp2 ⊢
      show Lib.Clear (Function.update s2.isHIR r false) s2.s
      intro u hu
      have hur : u ≠ r := fun he => hno (he ▸ List.mem_of_mem_head? hu)
      rw [Function.update_of_ne hur]
      exact hp2 u hu
    · intro k hb
      have hb2 := htrim.balanced k (hheld.balanced k ⟨by rw [awaits, counted_entry]; exact hb.sLen,
        hb.le⟩)
      exact ⟨hb2.sLen, hb2.le⟩
    · rw [hr]
      simp [lirsTransactionEnter, inMeta, hp, promote]
  | false =>
    refine ⟨s2, ⟨hinv2, hsame, ?_, ?_, hpruned, ?_, hlen⟩, hrun _ ?_⟩
    · rw [hhir2, ← hr, Function.update_eq_self]
    · rw [htrim.lirCount, hheld.lirCount, hr]
      rfl
    · intro k hb
      exact htrim.balanced k (hheld.balanced k ⟨by rw [awaits, counted_entry]; exact hb.sLen,
        hb.le⟩)
    · rw [hr]
      simp [lirsTransactionEnter, inMeta, hp]

theorem lirsTransactionCommit_hit (h : s.Inv none) (hl : hashLookup s.nucleus o = some r)
    (hp : r.pool = .cache) (hpl : s.Planned o lt) (result : CacheNucleusResult) :
    ∃ s4, s.Hit o r s4 ∧ lirsTransactionCommit s lt result = (do
      let s6 ← s4.finish lt r
      let s7 ← lirsPruneS s6
      return (s7, { result with op := .hit })) := by
  obtain ⟨s4, hhit, hrun⟩ := lirsTransactionUnpruned_hit h hl hp hpl result
  refine ⟨s4, hhit, ?_⟩
  rw [lirsTransactionCommit_eq hpl.isRepeat, hrun]
  simp only [bind_assoc, pure_eq_ok, ok_bind]

/-! ## Misses -/

namespace LirsPolicy

/-- `o` is in the slot `i`, migrating and in no list. The slot was free or held a HIR entry. -/
structure Entered (s : LirsPolicy) (o : Oblock) (lt : LirsTransaction) (i : Nat)
    (s' : LirsPolicy) : Prop where
  inv : s'.Inv none
  holds : (s'.nucleus.entry ⟨.cache, i⟩).Holds o true false
  other : ∀ b, b ≠ i → s'.nucleus.entry ⟨.cache, b⟩ = s.nucleus.entry ⟨.cache, b⟩
  lir : s.lir i = false
  migrating : (s.nucleus.entry ⟨.cache, i⟩).migrating = false
  fresh : lt.hirEvict = false → (s.nucleus.entry ⟨.cache, i⟩).allocated = false
  free : (s'.nucleus.pool .cache).free = (s.nucleus.pool .cache).free.tail
  ghosts : lt.hirEvict = false → ∀ j, (s'.nucleus.entry ⟨.metadata, j⟩).allocated = true →
    s'.nucleus.entry ⟨.metadata, j⟩ = s.nucleus.entry ⟨.metadata, j⟩
  frame : (s.counted o false).SameFrame s'
  isHIR : s'.isHIR ⟨.cache, i⟩ = lt.isHIR
  isHIR_other : ∀ b, b ≠ i → s'.isHIR ⟨.cache, b⟩ = s.isHIR ⟨.cache, b⟩
  lirCount : s'.lirCount = s.lirCount + if lt.isHIR then 0 else 1
  pruned : s.Pruned → s'.Pruned
  length : s'.s.length ≤ s.s.length
  balanced : ∀ k, s.sLen < 2 ^ 32 - 1 → s.Balanced k → s'.Balanced k

/-- `s'` is `s` without the ghost of the request, if there is one. -/
structure Forgot (s : LirsPolicy) (o : Oblock) (s' : LirsPolicy) : Prop where
  inv : s'.Inv none
  absent : s'.nucleus.Absent o
  sameSlots : s.SameSlots s'
  q : s'.q = s.q
  isHIR : s'.isHIR = s.isHIR
  lirCount : s'.lirCount = s.lirCount
  pruned : s.Pruned → s'.Pruned
  length : s'.s.length ≤ s.s.length
  balanced : ∀ k, s.Balanced k → s'.Balanced k

end LirsPolicy

theorem lirsTransactionTake_miss (h : s.Inv none)
    (hun : ∀ r ∈ hashLookup s.nucleus o, r.pool = .metadata) :
    ∃ s', lirsTransactionTake s (hashLookup s.nucleus o) = .ok s' ∧ s.Forgot o s' := by
  cases hl : hashLookup s.nucleus o with
  | none =>
    exact ⟨s, rfl, h, h.wf.hashLookup_eq_none.mp hl, .refl s, rfl, rfl, rfl, id, le_rfl,
      fun _ hb => hb⟩
  | some r =>
    have hp := hun r hl
    obtain ⟨ha, _⟩ := h.wf.hashLookup_eq_some.mp hl
    obtain ⟨s', hrun, hf⟩ := lirsRemoveEntry_spec h ha
    have hne : ∀ b, (⟨.cache, b⟩ : EntryRef) ≠ r := by
      rintro b rfl
      cases hp
    have hhir := ((h.placed r).ghost ha hp).2
    have hnq : r ∉ s.q := fun hq => by
      have := (h.of_mem_q hq).2.1
      rw [hp] at this
      cases this
    refine ⟨s', by simp [lirsTransactionTake, inMeta, hp, hrun], hf.inv,
      h.wf.absent_of_freed hl hf.rewrites rfl, ⟨?_, ?_, ?_, hf.frame⟩, ?_, hf.isHIR, ?_, ?_, ?_,
      hf.balanced⟩
    · exact fun b => hf.rewrites.entry_of_ne (hne b)
    · exact hf.rewrites.free_of_ne .cache (by rw [hp]; decide)
    · intro j hj
      by_cases hjr : (⟨.metadata, j⟩ : EntryRef) = r
      · rw [hjr, hf.rewrites.entry_self] at hj
        cases hj
      · exact hf.rewrites.entry_of_ne hjr
    · rw [hf.q, List.erase_of_not_mem hnq]
    · have hcount := hf.lirCount
      have hzero : s.counts r = 0 := by simp [LirsPolicy.counts, hp]
      omega
    · intro hps
      unfold Pruned
      rw [hf.isHIR, hf.stack]
      exact Lib.Clear.erase hps hhir
    · rw [hf.stack]
      exact List.length_erase_le

namespace LirsPolicy

/-- The cache has room: slot `i` was free, or the head of `Q` left it. -/
structure Vacated (s : LirsPolicy) (o : Oblock) (evict : Bool) (i : Nat) (s' : LirsPolicy) :
    Prop where
  inv : s'.Inv none
  absent : s'.nucleus.Absent o
  free : (s'.nucleus.pool .cache).free = i :: (s.nucleus.pool .cache).free.tail
  other : ∀ j, j ≠ i → s'.nucleus.entry ⟨.cache, j⟩ = s.nucleus.entry ⟨.cache, j⟩
  lir : s.lir i = false
  settled : (s.nucleus.entry ⟨.cache, i⟩).migrating = false
  fresh : evict = false → (s.nucleus.entry ⟨.cache, i⟩).allocated = false
  frame : s.SameFrame s'
  isHIR : ∀ j, s'.isHIR ⟨.cache, j⟩ = s.isHIR ⟨.cache, j⟩
  lirCount : s'.lirCount = s.lirCount
  same : evict = false → s' = s
  pruned : s.Pruned → s'.Pruned
  length : s'.s.length ≤ s.s.length
  balanced : ∀ k, s.sLen < 2 ^ 32 - 1 → s.Balanced k → s'.Balanced k

/-- The entry of the request comes into the slot. -/
theorem Vacated.entered {s s1 s2 s3 s4 : LirsPolicy} {i : Nat} {rest : List Nat}
    (hv : s2.Vacated o lt.hirEvict i s3) (hforgot : (s.counted o false).Forgot o s1)
    (htrim : s1.Trimmed s2) (harr : s3.Arrived o lt.isHIR i rest s4)
    (hrest : rest = (s2.nucleus.pool .cache).free.tail) : s.Entered o lt i s4 := by
  have hsame : (s.counted o false).SameSlots s2 := hforgot.sameSlots.trans htrim.sameSlots
  have hfree2 : (s2.nucleus.pool .cache).free = (s.nucleus.pool .cache).free := by
    rw [hsame.free, counted_pool]
  have hcache2 : ∀ j, s2.nucleus.entry ⟨.cache, j⟩ = s.nucleus.entry ⟨.cache, j⟩ := fun j => by
    rw [hsame.cache j, counted_entry]
  have hhir2 : s2.isHIR = s.isHIR := htrim.isHIR.trans hforgot.isHIR
  have hne : ∀ b, b ≠ i → (⟨.cache, b⟩ : EntryRef) ≠ ⟨.cache, i⟩ := by
    intro b hb heq
    exact hb (congrArg EntryRef.index heq)
  refine ⟨harr.inv, ?_, ?_, ?_, ?_, ?_, ?_, ?_, ?_, ?_, ?_, ?_, ?_, ?_, ?_⟩
  · rw [harr.rewrites.entry_self]
    exact CacheNucleus.arriving_holds _ _ _ false
  · intro b hb
    rw [harr.rewrites.entry_of_ne (hne b hb), hv.other b hb, hcache2]
  · have hlir := hv.lir
    unfold LirsPolicy.lir at hlir ⊢
    rw [← hcache2, ← hhir2]
    exact hlir
  · rw [← hcache2]
    exact hv.settled
  · intro hx
    rw [← hcache2]
    exact hv.fresh hx
  · rw [← hfree2, ← hrest]
    exact harr.rewrites.free
  · intro hx j hj
    obtain rfl := hv.same hx
    have heq : s4.nucleus.entry ⟨.metadata, j⟩ = s3.nucleus.entry ⟨.metadata, j⟩ :=
      harr.rewrites.entry_of_ne (by simp)
    rw [heq] at hj ⊢
    rw [hsame.ghosts j hj, counted_entry]
  · exact (hsame.frame.trans hv.frame).trans harr.frame
  · rw [harr.isHIR, Function.update_self]
  · intro b hb
    rw [harr.isHIR, Function.update_of_ne (hne b hb), hv.isHIR, hhir2]
  · rw [harr.lirCount, hv.lirCount, htrim.lirCount, hforgot.lirCount]
    rfl
  · intro hps
    have hp3 := hv.pruned (htrim.pruned hforgot.inv.s_nodup (hforgot.pruned hps))
    have hno : (⟨.cache, i⟩ : EntryRef) ∉ s3.s := fun hx => by
      have ha := (hv.inv.of_mem_s hx).1
      have hfr := ((hv.inv.wf.mem_free (r := ⟨.cache, i⟩)).mp (by
        rw [hv.free]
        exact List.mem_cons_self)).2
      rw [hfr] at ha
      cases ha
    unfold Pruned at hp3 ⊢
    rw [harr.isHIR, harr.stack]
    intro u hu
    have hui : u ≠ ⟨.cache, i⟩ := fun he => hno (he ▸ List.mem_of_mem_head? hu)
    rw [Function.update_of_ne hui]
    exact hp3 u hu
  · rw [harr.stack]
    exact hv.length.trans (htrim.sublist.length_le.trans hforgot.length)
  · intro k hlt hb
    have hb1 := hforgot.balanced k (s := s.counted o false) ⟨hb.sLen, hb.le⟩
    have hb2 := htrim.balanced k hb1
    have hle : s2.sLen ≤ s.sLen := by
      have h1 := hb2.sLen
      have h2 := hb.sLen
      have h3 := htrim.sublist.length_le
      have h4 : s1.s.length ≤ s.s.length := hforgot.length
      omega
    have hb3 := hv.balanced k (by omega) hb2
    exact ⟨by rw [harr.sLen, harr.stack]; exact hb3.sLen, by rw [harr.sLen]; exact hb3.le⟩

end LirsPolicy

/-- Room in the cache: the head of `Q` leaves a full one. -/
theorem lirsQEvict_if (h : s.Inv none) (habs : s.nucleus.Absent o) {b : Bool}
    (hq : b = true → s.q ≠ []) (hf : b = false → (s.nucleus.pool .cache).free ≠ [])
    (hfull : b = true → (s.nucleus.pool .cache).free = []) (result : CacheNucleusResult)
    (hok : 0 < (s.nucleus.pool .metadata).nrEntries ∨
      ∃ x, (if b = true then lirsQEvict s result else .ok (s, result)) = .ok x) :
    ∃ s' res i, (if b = true then lirsQEvict s result else .ok (s, result)) = .ok (s', res) ∧
      res.op = result.op ∧ s.Vacated o b i s' := by
  cases b with
  | true =>
    obtain ⟨r, t, hqr⟩ := List.exists_cons_of_ne_nil (hq rfl)
    obtain ⟨s', hrun, he⟩ := lirsQEvict_spec h hqr result hok
    obtain ⟨hset, hp, hhir⟩ := h.of_mem_q (r := r) (by rw [hqr]; exact List.mem_cons_self)
    have hcounts : s.counts r = 0 := by
      rw [counts_allocated hset.1]
      simp [hhir]
    have hcount := he.lirCount
    obtain ⟨rp, ri⟩ := r
    obtain rfl : rp = .cache := hp
    refine ⟨s', _, ri, hrun, rfl, he.inv, he.absent o habs, ?_, fun j hj => he.slot.other j hj, ?_,
      hset.2.1, (fun hx => by cases hx), he.frame, he.isHIR, by omega, (fun hx => by cases hx),
      he.pruned hhir, he.length, he.balanced⟩
    · rw [he.free, hfull rfl]
      rfl
    · simp [LirsPolicy.lir, hhir]
  | false =>
    obtain ⟨i, rest, hir⟩ := List.exists_cons_of_ne_nil (hf rfl)
    have hfree := ((h.wf.mem_free (r := ⟨.cache, i⟩)).mp (by
      rw [hir]
      exact List.mem_cons_self)).2
    refine ⟨s, result, i, rfl, rfl, h, habs, by rw [hir]; rfl, fun _ _ => rfl, ?_,
      h.wf.not_migrating hfree, fun _ => hfree, .refl s, fun _ => rfl, rfl, fun _ => rfl, id,
      le_rfl, fun _ _ hb => hb⟩
    simp [LirsPolicy.lir, hfree]

theorem lirsTransactionUnpruned_miss (h : s.Inv none)
    (hun : ∀ r ∈ hashLookup s.nucleus o, r.pool = .metadata) (hpl : s.Planned o lt)
    (hq : lt.hirEvict = true → s.q ≠ []) (result : CacheNucleusResult)
    (hok : 0 < (s.nucleus.pool .metadata).nrEntries ∨
      ∃ x, lirsTransactionUnpruned s lt result = .ok x) :
    ∃ s4 i res, s.Entered o lt i s4 ∧ res.cblock = i ∧
      res.op = (if lt.hirEvict then .replace else .new) ∧
      lirsTransactionUnpruned s lt result = (do
        let s6 ← s4.finish lt ⟨.cache, i⟩
        return (s6, res)) := by
  have hin : inCache (hashLookup s.nucleus o) = false := by
    cases hl : hashLookup s.nucleus o with
    | none => rfl
    | some r => simp [inCache, hun r hl]
  have hev : lt.hirEvict = cacheIsFull s.nucleus := by
    rw [hpl.hirEvict, hin]
    rfl
  have hmeta : ((hashLookup s.nucleus o).isNone || inMeta (hashLookup s.nucleus o)) = true := by
    cases hl : hashLookup s.nucleus o with
    | none => rfl
    | some r => simp [inMeta, hun r hl]
  have hlook : hashLookup (s.counted o false).nucleus o = hashLookup s.nucleus o := rfl
  obtain ⟨s1, hrun1, hforgot⟩ := lirsTransactionTake_miss (h.counted o false) (o := o) hun
  rw [hlook] at hrun1
  obtain ⟨s2, hrun2, hinv2, htrim, _⟩ := lirsFindLast_if hforgot.inv lt.lirSLru
  have hsame : (s.counted o false).SameSlots s2 := hforgot.sameSlots.trans htrim.sameSlots
  have hfree2 : (s2.nucleus.pool .cache).free = (s.nucleus.pool .cache).free := by
    rw [hsame.free, counted_pool]
  have hok2 : 0 < (s2.nucleus.pool .metadata).nrEntries ∨ ∃ x,
      (if lt.hirEvict = true then lirsQEvict s2 { result with op := lt.op false }
        else .ok (s2, { result with op := lt.op false })) = .ok x := by
    rw [hsame.frame.nrEntries, counted_pool]
    refine hok.imp_right fun hx => ?_
    obtain ⟨x, hx⟩ := hx
    rw [lirsTransactionUnpruned_bind hpl, hin, hrun1, ok_bind, hrun2, ok_bind] at hx
    obtain ⟨y, hy, _⟩ := bind_eq_ok.mp hx
    exact ⟨y, hy⟩
  have hfull : lt.hirEvict = true → (s.nucleus.pool .cache).free = [] := by
    intro hx
    rw [hev] at hx
    exact List.isEmpty_iff.mp hx
  have hroom : lt.hirEvict = false → (s.nucleus.pool .cache).free ≠ [] := by
    intro hx hnil
    rw [hev] at hx
    simp [cacheIsFull, epoolEmpty, hnil] at hx
  obtain ⟨s3, res3, i, hrun3, hop3, hv⟩ := lirsQEvict_if hinv2 (htrim.absent hforgot.absent)
    (fun hx => by rw [htrim.q, hforgot.q]; exact hq hx)
    (fun hx => by rw [hfree2]; exact hroom hx) (fun hx => by rw [hfree2]; exact hfull hx)
    { result with op := lt.op false } hok2
  obtain ⟨cn1, cn, hrun4, hrun5, harr⟩ := lirsArrive_spec hv.inv hv.free hv.absent lt.isHIR res3
  let s4 : LirsPolicy := { s3 with
    nucleus := cn
    isHIR := Function.update s3.isHIR ⟨.cache, i⟩ lt.isHIR
    lirCount := if !lt.isHIR then u32 (s3.lirCount + 1) else s3.lirCount }
  have hent : lirsTransactionEnter s3 lt (hashLookup s.nucleus o)
      (((hashLookup s.nucleus o).map s.isHIR).getD true) res3 =
      .ok (s4, ⟨.cache, i⟩, { res3 with cblock := i }) := by
    rw [lirsTransactionEnter, if_pos hmeta, hpl.oblock, hrun4]
    simp only [ok_bind, hrun5, pure_eq_ok, s4]
  refine ⟨s4, i, { res3 with cblock := i }, hv.entered hforgot htrim harr rfl, rfl, hop3, ?_⟩
  rw [lirsTransactionUnpruned_bind hpl, hin, hrun1, ok_bind, hrun2, ok_bind, hrun3, ok_bind, hent,
    ok_bind]

theorem lirsTransactionCommit_miss (h : s.Inv none)
    (hun : ∀ r ∈ hashLookup s.nucleus o, r.pool = .metadata) (hpl : s.Planned o lt)
    (hq : lt.hirEvict = true → s.q ≠ []) (result : CacheNucleusResult)
    (hok : 0 < (s.nucleus.pool .metadata).nrEntries ∨
      ∃ x, lirsTransactionCommit s lt result = .ok x) :
    ∃ s4 i res, s.Entered o lt i s4 ∧ res.cblock = i ∧
      res.op = (if lt.hirEvict then .replace else .new) ∧
      lirsTransactionCommit s lt result = (do
        let s6 ← s4.finish lt ⟨.cache, i⟩
        let s7 ← lirsPruneS s6
        return (s7, res)) := by
  have hcommit : lirsTransactionCommit s lt result = _ := lirsTransactionCommit_eq hpl.isRepeat
  have hok' : 0 < (s.nucleus.pool .metadata).nrEntries ∨
      ∃ x, lirsTransactionUnpruned s lt result = .ok x := by
    refine hok.imp_right fun hx => ?_
    obtain ⟨x, hx⟩ := hx
    obtain ⟨y, hy, _⟩ := bind_eq_ok.mp (hcommit.symm.trans hx)
    exact ⟨y, hy⟩
  obtain ⟨s4, i, res, hent, hcb, hop, hrun⟩ := lirsTransactionUnpruned_miss h hun hpl hq result hok'
  refine ⟨s4, i, res, hent, hcb, hop, ?_⟩
  rw [hcommit, hrun]
  simp only [bind_assoc, pure_eq_ok, ok_bind]

end Fomo
