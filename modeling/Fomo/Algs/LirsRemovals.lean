import Fomo.Algs.LirsGhosts

/-!
# Removals from the bottom of the LIRS stack

A request for the least recent entry of `S` prunes the HIR entries above it, a removal does
not: what is next in `S` becomes the bottom as it is.
-/
namespace Fomo

namespace LirsPolicy

/-- The removal of `r` has a ghost to spare if it needs one, and what is next in `S` after a
least recent `r` is LIR. -/
structure RemovesSafely (s : LirsPolicy) (r : EntryRef) (keep : Bool) : Prop where
  ghost : keep = true → s.isHIR r = true → r ∈ s.s → 0 < (s.nucleus.pool .metadata).nrEntries
  next : ∀ t, s.s = r :: t → Lib.Clear s.isHIR t

/-- The least recent entry of `S` is LIR, `R` lists its HIR entries and `s_len` counts it. -/
structure Bottomed (s : LirsPolicy) : Prop where
  pruned : s.Pruned
  r_eq : s.r = s.s.filter s.isHIR
  sLen : s.sLen = s.s.length

variable {s s' : LirsPolicy} {r m : EntryRef} {o : Oblock} {cb : Cblock} {keep : Bool}

/-- A lost ghost is a HIR entry of the stack. -/
theorem Listed.of_mem_lost (h : s.Listed) (hr : r ∈ s.lost) : r ∈ s.s ∧ s.isHIR r = true := by
  have hg : r ∈ s.g := by
    unfold lost at hr
    split at hr
    · exact List.mem_of_mem_take hr
    · cases hr
  exact h.mem_r.mp (h.ghost r hg).2

/-- A ghost in the place of a HIR entry keeps the bottom of the stack. -/
theorem Ghosted.bottomed (hgh : s.Ghosted r m s') (h : s.Listed)
    (hm : 0 < (s.nucleus.pool .metadata).nrEntries) (hb : s.Bottomed) (hhir : s.isHIR r = true) :
    s'.Bottomed := by
  have hfresh : ∀ u ∈ s.s.filter (· ∉ s.lost), u ≠ m := by
    rintro u hu rfl
    obtain ⟨hus, hul⟩ := List.mem_filter.mp hu
    rcases hgh.fresh with hno | hlost
    · exact hno hus
    · simp [hlost] at hul
  have hsame : ∀ u ∈ s.s.filter (· ∉ s.lost), s'.isHIR u = s.isHIR u := by
    intro u hu
    rw [hgh.isHIR, Function.update_of_ne (hfresh u hu)]
  refine ⟨?_, ?_, ?_⟩
  · unfold Pruned
    rw [hgh.stack]
    refine Lib.Clear.replace ?_ hhir hsame
    have hclear : Lib.Clear s.isHIR s.s := hb.pruned
    cases hs : s.s with
    | nil => exact Lib.clear_nil _
    | cons l t =>
      rw [hs] at hclear
      have hl := Lib.clear_cons.mp hclear
      have hlost : l ∉ s.lost := fun hmem => by
        rw [(h.of_mem_lost hmem).2] at hl
        cases hl
      rw [List.filter_cons_of_pos (by simpa using hlost)]
      exact Lib.clear_cons.mpr hl
  · rw [hgh.stack, hgh.hirs, Lib.filter_replace hhir (by rw [hgh.isHIR, Function.update_self])
      fun u hu _ => hsame u hu, h.r_eq, List.filter_filter, List.filter_filter]
    simp only [Bool.and_comm]
  · rw [hgh.sLen, hgh.stack, Lib.length_replace]
    obtain ⟨hfull, hroom⟩ := h.lost_eq hm
    cases hmeta : metaIsFull s.nucleus with
    | false =>
      rw [hroom hmeta, if_neg Bool.false_ne_true, hb.sLen]
      simp
    | true =>
      obtain ⟨g, t, hg, hlost⟩ := hfull hmeta
      have hgs := (h.of_mem_lost (r := g) (by rw [hlost]; exact List.mem_cons_self)).1
      have hfilter : s.s.filter (· ∉ s.lost) = s.s.erase g := by
        rw [h.s_nodup.erase_eq_filter, hlost]
        exact List.filter_congr fun u _ => by simp [bne, beq_eq_decide]
      have hpos := List.length_pos_of_mem hgs
      have hlt := h.sLen_lt
      rw [hfilter, List.length_erase_of_mem hgs, if_pos rfl, hb.sLen]
      exact dec32_of_pos hpos (by rw [← hb.sLen]; exact hlt.le)

/-- Taking an entry out of the lists leaves what is next in `S` at its bottom. -/
theorem Removed.bottomed_iff (hrem : s.Removed r s') (h : s.Listed) (hb : s.Bottomed) :
    s'.Bottomed ↔ ∀ t, s.s = r :: t → Lib.Clear s.isHIR t := by
  have hr : s'.r = s'.s.filter s'.isHIR := by
    rw [hrem.hirs, hrem.stack, hrem.isHIR, Lib.filter_erase h.s_nodup, h.r_eq]
  have hlen : s'.sLen = s'.s.length := by
    rw [hrem.sLen, hrem.stack]
    by_cases hrs : r ∈ s.s
    · rw [if_pos hrs, List.length_erase_of_mem hrs, hb.sLen]
      exact dec32_of_pos (List.length_pos_of_mem hrs) (by rw [← hb.sLen]; exact h.sLen_lt.le)
    · rw [if_neg hrs, List.erase_of_not_mem hrs, hb.sLen]
  have hclear : Lib.Clear s.isHIR s.s := hb.pruned
  have hpruned : s'.Pruned ↔ Lib.Clear s.isHIR (s.s.erase r) := by
    unfold Pruned
    rw [hrem.stack, hrem.isHIR]
  constructor
  · intro hb' t hs
    have hnext := hpruned.mp hb'.pruned
    rwa [hs, List.erase_cons_head] at hnext
  · intro hnext
    refine ⟨hpruned.mpr ?_, hr, hlen⟩
    by_cases hhead : s.s.head? = some r
    · obtain ⟨t, hs⟩ := List.head?_eq_some_iff.mp hhead
      rw [hs, List.erase_cons_head]
      exact hnext t hs
    · exact hclear.erase_of_head_ne hhead

end LirsPolicy

open LirsPolicy

variable {s s' : LirsPolicy} {r m : EntryRef} {o : Oblock} {cb : Cblock} {keep : Bool}

/-- `lirs_prune_s` leaves a stack alone that is not too long. -/
theorem lirsPruneS_of_le (hle : s.sLen ≤ s.sMaxlen) : lirsPruneS s = .ok s := if_pos hle

/-- A removal from a state with a LIR bottom leaves one iff the entry is not the bottom or a LIR
one comes next, and a ghost that is asked for can be had. -/
theorem lirs_removal_bottom (h : s.Listed) (hb : s.Bottomed) (hle : s.sLen ≤ s.sMaxlen)
    (hc : s.nucleus.Caches o cb) (keep : Bool) :
    (∃ s', lirsRemoveApi s o keep = .ok s' ∧ s'.Bottomed) ↔
      s.RemovesSafely ⟨.cache, cb⟩ keep := by
  have hl := h.wf.caches_iff.mp hc
  have hin : inCache (some (⟨.cache, cb⟩ : EntryRef)) = true := rfl
  by_cases hh : keep = true ∧ s.isHIR ⟨.cache, cb⟩ = true ∧ (⟨.cache, cb⟩ : EntryRef) ∈ s.s
  · obtain ⟨rfl, hhir, hrs⟩ := hh
    have hrun : lirsRemoveApi s o true = (lirsReplaceWithMeta s ⟨.cache, cb⟩ >>= lirsPruneS) := by
      simp [lirsRemoveApi, hl, hin, hhir, hrs]
    have hnext : ∀ t, s.s = ⟨.cache, cb⟩ :: t → Lib.Clear s.isHIR t := by
      intro t hs
      have hclear : Lib.Clear s.isHIR s.s := hb.pruned
      rw [hs, Lib.clear_cons, hhir] at hclear
      cases hclear
    rcases Nat.eq_zero_or_pos (s.nucleus.pool .metadata).nrEntries with hm | hm
    · have hfault := lirsReplaceWithMeta_fault h.wf hm (fun g hg => (h.mem_g g).mp hg) hrs hhir rfl
      refine iff_of_false (fun hok => ?_) fun hsafe => ?_
      · obtain ⟨s', hs', -⟩ := hok
        rw [hrun, hfault] at hs'
        cases hs'
      · have hpos := hsafe.ghost rfl hhir hrs
        rw [hm] at hpos
        exact Nat.lt_irrefl 0 hpos
    · obtain ⟨s', m, hrun', hgh⟩ := lirsReplaceWithMeta_ghosted h hm hrs hhir rfl
      have hb' := hgh.bottomed h hm hb hhir
      have hle' : s'.sLen ≤ s'.sMaxlen := by
        have hlen : s'.s.length ≤ s.s.length := by
          rw [hgh.stack, Lib.length_replace]
          exact List.length_filter_le _ _
        rw [hb'.sLen, hgh.sMaxlen]
        exact (hlen.trans hb.sLen.ge).trans hle
      refine iff_of_true ⟨s', ?_, hb'⟩ ⟨fun _ _ _ => hm, hnext⟩
      rw [hrun, hrun', ok_bind, lirsPruneS_of_le hle']
  · obtain ⟨s', hrun', hrem⟩ := lirsRemoveEntry_removed h.wf hc.1
    have hcond : (keep && (s.isHIR ⟨.cache, cb⟩ && decide ((⟨.cache, cb⟩ : EntryRef) ∈ s.s))) =
        false := by simpa using hh
    have hle' : s'.sLen ≤ s'.sMaxlen := by
      rw [hrem.sLen, hrem.sMaxlen]
      by_cases hrs : (⟨.cache, cb⟩ : EntryRef) ∈ s.s
      · have hpos := List.length_pos_of_mem hrs
        rw [if_pos hrs, dec32_of_pos (by rw [hb.sLen]; exact hpos) h.sLen_lt.le]
        omega
      · rwa [if_neg hrs]
    have hrun : lirsRemoveApi s o keep = .ok s' := by
      simp only [lirsRemoveApi, hl, deref_some, ok_bind, hin, if_true, hcond, Bool.false_eq_true,
        if_false, hrun', lirsPruneS_of_le hle']
    have hiff := hrem.bottomed_iff h hb
    constructor
    · intro hok
      obtain ⟨s'', hs'', hb'⟩ := hok
      obtain rfl := Except.ok.inj (hrun.symm.trans hs'')
      exact ⟨fun hk hhir hrs => absurd ⟨hk, hhir, hrs⟩ hh, hiff.mp hb'⟩
    · exact fun hsafe => ⟨s', hrun, hiff.mpr hsafe.next⟩

/-- The state of `lirsTwoBlocks`: the stack has a LIR block and a HIR one on top. -/
theorem lirsTwoBlocks_bottomed : ∃ s, (lirsApi.system lirsCalls).Reachable (lirsFresh 3 1) s ∧
    s.Listed ∧ (∀ r, (s.nucleus.entry r).migrating = false) ∧ s.Bottomed ∧ s.sLen ≤ s.sMaxlen ∧
    s.nucleus.Caches 5 2 ∧ s.nucleus.Caches 6 1 ∧ s.s = [⟨.cache, 2⟩, ⟨.cache, 1⟩] ∧
    s.isHIR ⟨.cache, 1⟩ = true := by
  obtain ⟨s, ws, hexec, hs, hhir2, hhir1, hlen, hmax, h5, h6, hmig⟩ : ∃ s ws,
      (lirsApi.system lirsCalls).exec (lirsFresh 3 1) lirsTwoBlocks = .ok (s, ws) ∧
      s.s = [⟨.cache, 2⟩, ⟨.cache, 1⟩] ∧ s.isHIR ⟨.cache, 2⟩ = false ∧
      s.isHIR ⟨.cache, 1⟩ = true ∧ s.sLen = 2 ∧ s.sMaxlen = 6 ∧ s.nucleus.Caches 5 2 ∧
      s.nucleus.Caches 6 1 ∧ ∀ p, (s.nucleus.pool p).migrating = [] :=
    ⟨_, _, rfl, rfl, rfl, rfl, rfl, rfl, ⟨rfl, rfl⟩, ⟨rfl, rfl⟩, fun p => by cases p <;> rfl⟩
  have hreach := (Lib.System.Run.of_exec lirsTwoBlocks_admits hexec).reachable
  have hsized := Sized.of_reachable (by decide) (lirsCreate_eq 3 1) hreach
  have hlisted := hsized.inv.listed (by rw [hlen]; decide)
  refine ⟨s, hreach, hlisted, fun r => ?_, ⟨?_, hlisted.r_eq, by rw [hlen, hs]; rfl⟩,
    by rw [hlen, hmax]; decide, h5, h6, hs, hhir1⟩
  · by_contra hm
    have hm : (s.nucleus.entry r).migrating = true := by simpa using hm
    have hmem := ((hlisted.wf.pools r.pool).mem_migrating r.index).mpr hm
    rw [hmig] at hmem
    cases hmem
  · rw [Pruned, hs]
    exact Lib.clear_cons.mpr hhir2

/-- The HIR block of the two is removed, and the bottom stays. -/
theorem lirs_removal_bottom_two : ∃ s s', (lirsApi.system lirsCalls).Reachable (lirsFresh 3 1) s ∧
    lirsRemoveApi s 6 false = .ok s' ∧ s'.Bottomed := by
  obtain ⟨s, hreach, hlisted, _, hb, hle, _, hc, hs, _⟩ := lirsTwoBlocks_bottomed
  have hsafe : s.RemovesSafely ⟨.cache, 1⟩ false := by
    refine ⟨fun hk => absurd hk Bool.false_ne_true, fun t ht => ?_⟩
    rw [hs] at ht
    simp at ht
  obtain ⟨s', hrun, hb'⟩ := (lirs_removal_bottom hlisted hb hle hc false).mpr hsafe
  exact ⟨s, s', hreach, hrun, hb'⟩

/-- The LIR block of the two is removed, and the HIR block is the bottom. -/
theorem lirs_removal_bottom_hir : ¬∀ (s : LirsPolicy) (o : Oblock) (cb : Cblock) (keep : Bool),
    s.Listed → (∀ r, (s.nucleus.entry r).migrating = false) → s.Bottomed → s.sLen ≤ s.sMaxlen →
    s.nucleus.Caches o cb → ∃ s', lirsRemoveApi s o keep = .ok s' ∧ s'.Bottomed := by
  intro hall
  obtain ⟨s, _, hlisted, hsettled, hb, hle, hc, _, hs, hhir⟩ := lirsTwoBlocks_bottomed
  obtain ⟨s', hrun, hb'⟩ := hall s 5 2 false hlisted hsettled hb hle hc
  obtain ⟨s1, hrun1, hrem⟩ := lirsRemoveEntry_removed hlisted.wf hc.1
  have hl := hlisted.wf.caches_iff.mp hc
  have hprune : lirsPruneS s1 = .ok s' := by
    rw [← hrun]
    simp [lirsRemoveApi, hl, inCache, hrun1]
  have hstack : s1.s = [⟨.cache, 1⟩] := by
    rw [hrem.stack, hs]
    rfl
  have hlen : s1.sLen ≤ s1.sMaxlen := by
    rw [hrem.sLen, hrem.sMaxlen, if_pos (by rw [hs]; exact List.mem_cons_self),
      dec32_of_pos (by rw [hb.sLen, hs]; decide) hlisted.sLen_lt.le]
    omega
  rw [lirsPruneS_of_le hlen] at hprune
  obtain rfl := Except.ok.inj hprune
  have hclear := hb'.pruned
  rw [Pruned, hstack, hrem.isHIR, Lib.clear_cons, hhir] at hclear
  cases hclear

end Fomo
