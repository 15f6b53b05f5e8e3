import Fomo.Algs.LirsContract

/-!
# Pruning the stack (`algs/lirs/lirs_policy.c`)

`lirs_find_last_lir_lru` peeks `S` and evicts the head of `R`. As long as `R` lists the HIR
entries of `S` in the order of `S`, a HIR head of `S` is the head of `R`, and both lists lose it
together.
-/
namespace Fomo

namespace LirsPolicy

/-- `R` lists the HIR entries of `S`, the entries of `S` are in use, and `s_len` counts at least
the length of `S`. -/
structure Stacked (s : LirsPolicy) : Prop where
  wf : s.nucleus.Wf
  q_nodup : s.q.Nodup
  g_nodup : s.g.Nodup
  s_nodup : s.s.Nodup
  allocated : ∀ r ∈ s.s, (s.nucleus.entry r).allocated = true
  r_eq : s.r = s.s.filter s.isHIR
  le_sLen : s.s.length ≤ s.sLen
  sLen_lt : s.sLen < 2 ^ 32

/-- The entry is a ghost, and it is in the list. -/
def ghostIn (l : Queue) (r : EntryRef) : Bool := decide (r ∈ l) && !inCache (some r)

/-- `s'` is `s` without the HIR entries `l` at the front of `S` and of `R`; the ghosts among
them are free, the cached ones stay as they are. -/
structure Drops (l : Queue) (s s' : LirsPolicy) : Prop where
  hir : ∀ r ∈ l, s.isHIR r = true
  s_eq : s.s = l ++ s'.s
  r_eq : s.r = l ++ s'.r
  q_eq : s'.q = s.q.filter fun r => !ghostIn l r
  g_eq : s'.g = s.g.filter fun r => !ghostIn l r
  sLen : s'.sLen + l.length = s.sLen
  freed : ∀ r, ghostIn l r = true → (s'.nucleus.entry r).allocated = false
  kept : ∀ r, ghostIn l r = false → s'.nucleus.entry r = s.nucleus.entry r
  isHIR : s'.isHIR = s.isHIR
  lirCount : s'.lirCount = s.lirCount
  frame : s.SameFrame s'

variable {s s' s'' : LirsPolicy} {x : Option EntryRef} {r : EntryRef} {l l' t : Queue}

/-- What the requests keep is more. -/
theorem Inv.stacked (h : s.Inv x) (hle : s.s.length ≤ s.sLen) (hlt : s.sLen < 2 ^ 32) :
    s.Stacked where
  wf := h.wf
  q_nodup := h.q_nodup
  g_nodup := h.g_nodup
  s_nodup := h.s_nodup
  allocated := fun _ hr => (h.of_mem_s hr).1
  r_eq := h.r_eq
  le_sLen := hle
  sLen_lt := hlt

theorem ghostIn_nil (r : EntryRef) : ghostIn [] r = false := rfl

theorem ghostIn_append (l l' : Queue) (r : EntryRef) :
    ghostIn (l ++ l') r = (ghostIn l r || ghostIn l' r) := by
  simp only [ghostIn, List.mem_append, Bool.decide_or, Bool.and_or_distrib_right]

theorem ghostIn_singleton (l r : EntryRef) :
    ghostIn [l] r = (decide (r = l) && !inCache (some l)) := by
  by_cases hr : r = l
  · simp [ghostIn, hr]
  · simp [ghostIn, hr]

theorem Drops.refl (s : LirsPolicy) : Drops [] s s where
  hir := fun _ hr => absurd hr List.not_mem_nil
  s_eq := rfl
  r_eq := rfl
  q_eq := by simp [ghostIn_nil]
  g_eq := by simp [ghostIn_nil]
  sLen := rfl
  freed := fun r hr => by
    rw [ghostIn_nil] at hr
    cases hr
  kept := fun _ _ => rfl
  isHIR := rfl
  lirCount := rfl
  frame := .refl s

theorem filter_ghostIn_append (q l l' : Queue) :
    (q.filter fun r => !ghostIn l r).filter (fun r => !ghostIn l' r) =
      q.filter fun r => !ghostIn (l ++ l') r := by
  rw [List.filter_filter]
  apply List.filter_congr
  intro r _
  rw [ghostIn_append, Bool.not_or, Bool.and_comm]

theorem Drops.trans (h : Drops l s s') (h' : Drops l' s' s'') : Drops (l ++ l') s s'' where
  hir := by
    intro r hr
    cases List.mem_append.mp hr with
    | inl hr => exact h.hir r hr
    | inr hr =>
      rw [← h.isHIR]
      exact h'.hir r hr
  s_eq := by rw [h.s_eq, h'.s_eq, List.append_assoc]
  r_eq := by rw [h.r_eq, h'.r_eq, List.append_assoc]
  q_eq := by rw [h'.q_eq, h.q_eq, filter_ghostIn_append]
  g_eq := by rw [h'.g_eq, h.g_eq, filter_ghostIn_append]
  sLen := by
    have h1 := h.sLen
    have h2 := h'.sLen
    rw [List.length_append]
    omega
  freed := by
    intro r hr
    rw [ghostIn_append, Bool.or_eq_true] at hr
    cases hl : ghostIn l' r with
    | true => exact h'.freed r hl
    | false =>
      have hg : ghostIn l r = true := hr.resolve_right (by rw [hl]; decide)
      rw [h'.kept r hl]
      exact h.freed r hg
  kept := by
    intro r hr
    rw [ghostIn_append, Bool.or_eq_false_iff] at hr
    rw [h'.kept r hr.2, h.kept r hr.1]
  isHIR := h'.isHIR.trans h.isHIR
  lirCount := h'.lirCount.trans h.lirCount
  frame := h.frame.trans h'.frame

/-- The rest of a stack is a stack. -/
theorem Stacked.drops (h : s.Stacked) (hd : Drops l s s') (hwf : s'.nucleus.Wf) :
    s'.Stacked := by
  have hs : s'.s.Sublist s.s := by
    rw [hd.s_eq]
    exact List.sublist_append_right l s'.s
  have hnodup := h.s_nodup
  rw [hd.s_eq, List.nodup_append] at hnodup
  refine ⟨hwf, ?_, ?_, hnodup.2.1, ?_, ?_, ?_, ?_⟩
  · rw [hd.q_eq]
    exact h.q_nodup.filter _
  · rw [hd.g_eq]
    exact h.g_nodup.filter _
  · intro r hr
    have hno : r ∉ l := fun hl => hnodup.2.2 r hl r hr rfl
    rw [hd.kept r (by simp [ghostIn, hno])]
    exact h.allocated r (hs.subset hr)
  · have hr := h.r_eq
    rw [hd.s_eq, hd.r_eq, List.filter_append, List.filter_eq_self.mpr hd.hir, ← hd.isHIR] at hr
    exact List.append_cancel_left hr
  · have h1 := h.le_sLen
    have h2 := hd.sLen
    rw [hd.s_eq, List.length_append] at h1
    omega
  · have h1 := h.sLen_lt
    have h2 := hd.sLen
    omega

end LirsPolicy

open LirsPolicy

variable {s : LirsPolicy} {l : EntryRef} {t : Queue}

/-- The HIR entry at the front of `S` is the head of `R`. -/
theorem LirsPolicy.Stacked.r_cons (h : s.Stacked) (hs : s.s = l :: t) (hl : s.isHIR l = true) :
    s.r = l :: t.filter s.isHIR := by
  rw [h.r_eq, hs, List.filter_cons_of_pos hl]

/-- A cached entry that leaves both lists is otherwise as it was. -/
theorem LirsPolicy.Stacked.drops_cached (h : s.Stacked) (hs : s.s = l :: t)
    (hl : s.isHIR l = true) (hp : inCache (some l) = true) (hlen : dec32 s.sLen + 1 = s.sLen) :
    Drops [l] s { s with
      s := s.s.erase l
      r := s.r.erase l
      sLen := dec32 s.sLen } where
  hir := fun r hr => by
    rw [List.mem_singleton.mp hr]
    exact hl
  s_eq := by simp [hs]
  r_eq := by simp [h.r_cons hs hl]
  q_eq := by simp [ghostIn_singleton, hp]
  g_eq := by simp [ghostIn_singleton, hp]
  sLen := hlen
  freed := fun r hr => by
    rw [ghostIn_singleton, hp, Bool.not_true, Bool.and_false] at hr
    cases hr
  kept := fun _ _ => rfl
  isHIR := rfl
  lirCount := rfl
  frame := ⟨fun _ => rfl, rfl, rfl, rfl, rfl⟩

/-- A ghost leaves every list, and is free. -/
theorem LirsPolicy.Stacked.drops_ghost (h : s.Stacked) (hs : s.s = l :: t)
    (hl : s.isHIR l = true) (hp : inCache (some l) = false) (hlen : dec32 s.sLen + 1 = s.sLen)
    {cn : CacheNucleus} (hrw : s.nucleus.Rewrites l (s.nucleus.freedEntry l)
      (l.index :: (s.nucleus.pool l.pool).free) cn) :
    Drops [l] s { lirsRemoveFromQueues s l with nucleus := cn } := by
  have hg : ∀ r, ghostIn [l] r = decide (r = l) := fun r => by
    rw [ghostIn_singleton, hp, Bool.not_false, Bool.and_true]
  have hfilter : ∀ q : Queue, q.Nodup → q.erase l = q.filter fun r => !ghostIn [l] r := by
    intro q hq
    rw [hq.erase_eq_filter]
    apply List.filter_congr
    intro r _
    rw [hg r]
    simp [bne, beq_eq_decide]
  rw [lirsRemoveFromQueues_eq, if_pos (by rw [hs]; exact List.mem_cons_self)]
  refine ⟨?_, ?_, ?_, hfilter _ h.q_nodup, hfilter _ h.g_nodup, hlen, ?_, ?_, rfl, rfl,
    ⟨hrw.nrEntries, hrw.cacheSize, rfl, rfl, rfl⟩⟩
  · intro r hr
    rw [List.mem_singleton.mp hr]
    exact hl
  · simp [hs]
  · simp [h.r_cons hs hl]
  · intro r hr
    rw [hg r, decide_eq_true_eq] at hr
    rw [hr, hrw.entry_self]
    rfl
  · intro r hr
    rw [hg r, decide_eq_false_iff_not] at hr
    exact hrw.entry_of_ne hr

/-- `lirs_r_evict` drops the HIR entry at the front of `S`. -/
theorem lirsREvict_drops (h : s.Stacked) (hs : s.s = l :: t) (hl : s.isHIR l = true) :
    queuePeek s.r = some l ∧
      ∃ s', lirsREvict s = .ok s' ∧ Drops [l] s s' ∧ s'.nucleus.Wf := by
  have hr := h.r_cons hs hl
  have hmem : l ∈ s.s := by
    rw [hs]
    exact List.mem_cons_self
  have hlen : dec32 s.sLen + 1 = s.sLen := by
    have hle := h.le_sLen
    have hlt := h.sLen_lt
    rw [hs, List.length_cons] at hle
    rw [dec32_of_pos (by omega) (by omega)]
    omega
  refine ⟨by rw [hr]; rfl, ?_⟩
  cases hp : inCache (some l) with
  | true => exact ⟨_, lirsREvict_cached hr hp, h.drops_cached hs hl hp hlen, h.wf⟩
  | false =>
    have hnodup : s.r.Nodup := by
      rw [h.r_eq]
      exact h.s_nodup.filter _
    obtain ⟨st, heq⟩ := lirsRemoveEntry_eq s l
    obtain ⟨cn, hcn, hrw⟩ := (h.wf.withStats st).cacheNucleusRemove (h.allocated l hmem)
    have hrw : s.nucleus.Rewrites l (s.nucleus.freedEntry l)
        (l.index :: (s.nucleus.pool l.pool).free) cn := hrw.ofStats
    refine ⟨_, ?_, h.drops_ghost hs hl hp hlen hrw, hrw.wf⟩
    rw [lirsREvict_ghost hr hp hmem h.s_nodup hnodup, heq, hcn, ok_bind, pure_eq_ok, hl]
    simp [lirsRemoveFromQueues_eq]

/-- The rounds drop the HIR entries below the oldest LIR entry one by one. -/
theorem lirsFindLastLirLruLoop_drops (h : s.Stacked) :
    ∃ s', (∀ fuel, s.s.length < fuel → lirsFindLastLirLruLoop s fuel = .ok s') ∧ s'.Stacked ∧
      Drops (s.s.takeWhile s.isHIR) s s' := by
  generalize hs : s.s = stack
  induction stack generalizing s with
  | nil =>
    refine ⟨s, ?_, h, .refl s⟩
    intro fuel hf
    obtain ⟨n, rfl⟩ := Nat.exists_eq_succ_of_ne_zero (Nat.ne_of_gt hf)
    simp [lirsFindLastLirLruLoop, hs]
  | cons l t ih =>
    cases hl : s.isHIR l with
    | false =>
      refine ⟨s, ?_, h, ?_⟩
      · intro fuel hf
        obtain ⟨n, rfl⟩ := Nat.exists_eq_succ_of_ne_zero (Nat.ne_of_gt (Nat.zero_lt_of_lt hf))
        simp [lirsFindLastLirLruLoop, hs, hl]
      · rw [List.takeWhile_cons, hl]
        exact .refl s
    | true =>
      obtain ⟨hpeek, s1, hrun, hdrop, hwf⟩ := lirsREvict_drops h hs hl
      have hs1 : s1.s = t := by
        have heq := hdrop.s_eq
        rw [hs] at heq
        exact (List.cons.inj heq).2.symm
      obtain ⟨s', hloop, hst, hrest⟩ := ih (h.drops hdrop hwf) hs1
      refine ⟨s', ?_, hst, ?_⟩
      · intro fuel hf
        obtain ⟨n, rfl⟩ := Nat.exists_eq_succ_of_ne_zero (Nat.ne_of_gt (Nat.zero_lt_of_lt hf))
        have hn : t.length < n := Nat.lt_of_succ_lt_succ hf
        simp [lirsFindLastLirLruLoop, hs, hl, hpeek, logAssert, hrun, hloop n hn]
      · rw [hdrop.isHIR] at hrest
        rw [List.takeWhile_cons, hl]
        exact hdrop.trans hrest

/-- `lirs_find_last_lir_lru` ends without tripping its assertion. `S` and `R` lose the longest
front of `S` that is all HIR; its ghosts are free and in no list, its cached entries stay in the
cache and in `Q`. -/
theorem lirsFindLastLirLru_prunes (h : s.Stacked) :
    ∃ s', (∀ fuel, s.s.length < fuel → lirsFindLastLirLruLoop s fuel = .ok s') ∧
      lirsFindLastLirLru s = .ok s' ∧ s'.Stacked ∧ Drops (s.s.takeWhile s.isHIR) s s' ∧
      s'.s = s.s.dropWhile s.isHIR := by
  obtain ⟨s', hloop, hst, hdrop⟩ := lirsFindLastLirLruLoop_drops h
  refine ⟨s', hloop, hloop _ (Nat.lt_succ_self _), hst, hdrop, ?_⟩
  have hsplit : s.s.takeWhile s.isHIR ++ s.s.dropWhile s.isHIR = s.s :=
    List.takeWhile_append_dropWhile
  exact List.append_cancel_left (hdrop.s_eq.symm.trans hsplit.symm)

/-- A ghost and a cached HIR block lie below the LIR block that came last. -/
def lirsUnprunedBlocks : List Call :=
  [.map 1 false {}, .migrated 1, .map 2 false {}, .migrated 2, .map 3 false {}, .migrated 3,
    .map 4 false {}, .migrated 4, .remove 3 true, .remove 1 false, .remove 2 false,
    .map 5 false {}, .migrated 5]

theorem lirsFindLastLirLru_prunes_two : ∃ s s',
    (lirsApi.system lirsCalls).Reachable (lirsFresh 4 1) s ∧
      s.s = [⟨.metadata, 0⟩, ⟨.cache, 0⟩, ⟨.cache, 2⟩] ∧ lirsFindLastLirLru s = .ok s' ∧
      Drops [⟨.metadata, 0⟩, ⟨.cache, 0⟩] s s' ∧ s'.s = [⟨.cache, 2⟩] := by
  have hadmits : (lirsApi.system lirsCalls).Admits (lirsFresh 4 1) lirsUnprunedBlocks :=
    ⟨trivial, trivial, trivial, trivial, trivial, trivial, trivial, trivial, ⟨1, rfl, rfl⟩,
      ⟨3, rfl, rfl⟩, ⟨2, rfl, rfl⟩, trivial, trivial, trivial⟩
  obtain ⟨s, ws, hexec, hs, hlen, h0, h1, h2⟩ : ∃ s ws,
      (lirsApi.system lirsCalls).exec (lirsFresh 4 1) lirsUnprunedBlocks = .ok (s, ws) ∧
      s.s = [⟨.metadata, 0⟩, ⟨.cache, 0⟩, ⟨.cache, 2⟩] ∧ s.sLen = 3 ∧
      s.isHIR ⟨.metadata, 0⟩ = true ∧ s.isHIR ⟨.cache, 0⟩ = true ∧
      s.isHIR ⟨.cache, 2⟩ = false := ⟨_, _, rfl, rfl, rfl, rfl, rfl, rfl⟩
  have hreach := (Lib.System.Run.of_exec hadmits hexec).reachable
  have hsized := Sized.of_reachable (by decide) (lirsCreate_eq 4 1) hreach
  have hst := hsized.inv.stacked (by rw [hs, hlen]; decide) (by rw [hlen]; decide)
  obtain ⟨s', _, hrun, _, hdrop, hstack⟩ := lirsFindLastLirLru_prunes hst
  rw [hs] at hdrop hstack
  simp only [List.takeWhile_cons, List.dropWhile_cons, h0, h1, h2, if_true, Bool.false_eq_true,
    if_false] at hdrop hstack
  exact ⟨s, s', hreach, hs, hrun, hdrop, hstack⟩

end Fomo
