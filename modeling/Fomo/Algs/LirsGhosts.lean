import Fomo.Algs.LirsLength
import Fomo.Lib.ListHead

/-!
# Ghosts of LIRS

The ghost of a cached entry takes its place in `S` and `R`, whatever that place is. Nothing is
asked of a state here but that its lists fit the entries in use.
-/
namespace Fomo

theorem dec32_u32_succ {n : Nat} (h : n < 2 ^ 32) : dec32 (u32 (n + 1)) = n := by
  unfold dec32 u32
  omega

/-- `queue_swap` by way of its temporary nodes exchanges the places of two items. -/
theorem queueSwap_listSwap (q : Queue) {itemOld itemNew : EntryRef} (hne : itemOld ≠ itemNew) :
    Lib.listSwap q itemOld itemNew = (queueSwap q itemOld itemNew).map .item :=
  Lib.listSwap_eq hne q

namespace LirsPolicy

/-- The lists hold entries in use, each once: `R` the HIR entries of `S`, `G` the metadata
entries, all of which are in `S` and `R`. -/
structure Listed (s : LirsPolicy) : Prop where
  wf : s.nucleus.Wf
  q_nodup : s.q.Nodup
  g_nodup : s.g.Nodup
  s_nodup : s.s.Nodup
  q_cache : ∀ r ∈ s.q, r.pool = .cache
  s_allocated : ∀ r ∈ s.s, (s.nucleus.entry r).allocated = true
  r_eq : s.r = s.s.filter s.isHIR
  mem_g : ∀ r, r ∈ s.g ↔ (s.nucleus.entry r).allocated = true ∧ r.pool = .metadata
  ghost : ∀ r ∈ s.g, r ∈ s.s ∧ r ∈ s.r
  sLen_lt : s.sLen < 2 ^ 32

/-- The ghost that gives way to a new one: the head of `G` when the metadata pool is full. -/
def lost (s : LirsPolicy) : List EntryRef := if metaIsFull s.nucleus then s.g.take 1 else []

/-- The oblock of the cached entry `x` became the ghost `m`, in the place of `x`. -/
structure Ghosted (s : LirsPolicy) (x m : EntryRef) (s' : LirsPolicy) : Prop where
  pool : m.pool = .metadata
  fresh : m ∉ s.s ∨ m ∈ s.lost
  entry : (s'.nucleus.entry m).allocated = true ∧
    (s'.nucleus.entry m).oblock = (s.nucleus.entry x).oblock
  lookup : hashLookup s'.nucleus (s.nucleus.entry x).oblock = some m
  gone : (s'.nucleus.entry x).allocated = false
  lost : ∀ g ∈ s.lost, g ≠ m → (s'.nucleus.entry g).allocated = false
  other : ∀ u, u ≠ x → u ≠ m → u ∉ s.lost → s'.nucleus.entry u = s.nucleus.entry u
  stack : s'.s = Lib.replace x m (s.s.filter (· ∉ s.lost))
  hirs : s'.r = Lib.replace x m (s.r.filter (· ∉ s.lost))
  g : s'.g = s.g.filter (· ∉ s.lost) ++ [m]
  q : s'.q = s.q.erase x
  isHIR : s'.isHIR = Function.update s.isHIR m true
  sLen : s'.sLen = if metaIsFull s.nucleus then dec32 s.sLen else s.sLen
  sMaxlen : s'.sMaxlen = s.sMaxlen

variable {s s' : LirsPolicy} {r x m : EntryRef} {o : Oblock}

/-- The lists of every reachable state are like that. -/
theorem Inv.listed (h : s.Inv none) (hlen : s.sLen < 2 ^ 32) : s.Listed where
  wf := h.wf
  q_nodup := h.q_nodup
  g_nodup := h.g_nodup
  s_nodup := h.s_nodup
  q_cache := fun _ hr => (h.of_mem_q hr).2.1
  s_allocated := fun _ hr => (h.of_mem_s hr).1
  r_eq := h.r_eq
  mem_g := fun r => by
    rw [(h.placed r).mem_g]
    constructor
    · exact fun hr => ⟨hr.1.1, hr.2⟩
    · exact fun hr => ⟨⟨hr.1, ((h.placed r).ghost hr.1 hr.2).1, by simp⟩, hr.2⟩
  ghost := fun r hr => by
    obtain ⟨hset, hp⟩ := (h.placed r).mem_g.mp hr
    have hs := (h.placed r).mem_s hset fun hc => by
      rw [hp] at hc
      cases hc
    exact ⟨hs, h.mem_r.mpr ⟨hs, ((h.placed r).ghost hset.1 hp).2⟩⟩
  sLen_lt := hlen

theorem Listed.mem_r (h : s.Listed) : r ∈ s.r ↔ r ∈ s.s ∧ s.isHIR r = true := by
  rw [h.r_eq, List.mem_filter]

/-- `s'` is `s` with the entry `r` freed and in no list. -/
structure Removed (s : LirsPolicy) (r : EntryRef) (s' : LirsPolicy) : Prop where
  rewrites : s.nucleus.Rewrites r (s.nucleus.freedEntry r)
    (r.index :: (s.nucleus.pool r.pool).free) s'.nucleus
  q : s'.q = s.q.erase r
  g : s'.g = s.g.erase r
  hirs : s'.r = s.r.erase r
  stack : s'.s = s.s.erase r
  isHIR : s'.isHIR = s.isHIR
  sLen : s'.sLen = if r ∈ s.s then dec32 s.sLen else s.sLen
  sMaxlen : s'.sMaxlen = s.sMaxlen

end LirsPolicy

open LirsPolicy

variable {s s' : LirsPolicy} {r x m : EntryRef} {o : Oblock}

theorem lirsRemoveEntry_removed (hwf : s.nucleus.Wf) (ha : (s.nucleus.entry r).allocated = true) :
    ∃ s', lirsRemoveEntry s r = .ok s' ∧ s.Removed r s' := by
  obtain ⟨st, hrun0⟩ := lirsRemoveEntry_eq s r
  obtain ⟨cn, hrun, hrw⟩ := (hwf.withStats st).cacheNucleusRemove (r := r) ha
  refine ⟨_, by rw [hrun0, hrun, ok_bind, pure_eq_ok], ?_⟩
  rw [lirsRemoveFromQueues_eq]
  exact ⟨hrw.ofStats, rfl, rfl, rfl, rfl, rfl, rfl, rfl⟩

/-- A full metadata pool has an oldest ghost. -/
theorem LirsPolicy.Listed.g_ne_nil (h : s.Listed) (hm : 0 < (s.nucleus.pool .metadata).nrEntries)
    (hfull : (s.nucleus.pool .metadata).free = []) : s.g ≠ [] := by
  have ha : (s.nucleus.entry ⟨.metadata, 0⟩).allocated = true := by
    by_contra hx
    have hmem : 0 ∈ (s.nucleus.pool .metadata).free :=
      (h.wf.mem_free (r := ⟨.metadata, 0⟩)).mpr ⟨hm, by simpa using hx⟩
    rw [hfull] at hmem
    cases hmem
  exact List.ne_nil_of_mem ((h.mem_g _).mpr ⟨ha, rfl⟩)

/-- The metadata pool has room. -/
theorem lirsReplaceWithMeta_room (h : s.Listed) (hs : x ∈ s.s) (hhir : s.isHIR x = true)
    (hp : x.pool = .cache) {i : Nat} {rest : List Nat}
    (hf : (s.nucleus.pool .metadata).free = i :: rest) :
    ∃ s', lirsReplaceWithMeta s x = .ok s' ∧ s.Ghosted x ⟨.metadata, i⟩ s' := by
  have ha := h.s_allocated x hs
  have hmfree : (s.nucleus.entry ⟨.metadata, i⟩).allocated = false :=
    ((h.wf.mem_free (r := ⟨.metadata, i⟩)).mp (by rw [hf]; exact List.mem_cons_self)).2
  have hms : (⟨.metadata, i⟩ : EntryRef) ∉ s.s := fun hm => by
    have hma := h.s_allocated _ hm
    rw [hmfree] at hma
    cases hma
  have hxg : x ∉ s.g := fun hg => by
    have hgp := ((h.mem_g x).mp hg).2
    rw [hp] at hgp
    cases hgp
  have hne : x ≠ ⟨.metadata, i⟩ := by
    rintro rfl
    cases hp
  obtain ⟨cn, cn2, cn3, hrun1, hrw2, hrw3, hrun2⟩ := lirsReplace_run h.wf hs
    (h.mem_r.mpr ⟨hs, hhir⟩) hxg hhir hp ha hf hms fun hm => hms (h.mem_r.mp hm).1
  have hroom : metaIsFull s.nucleus = false := by simp [metaIsFull, epoolEmpty, hf]
  have hlost : s.lost = [] := by rw [lost, hroom]; rfl
  refine ⟨_, Eq.trans ?_ hrun2, rfl, .inl hms, ?_, ?_, ?_, ?_, ?_, ?_, ?_, ?_, rfl, rfl, ?_, rfl⟩
  · simp [lirsReplaceWithMeta, logAssert, hs, hhir, inCache, hp, hroom, hrun1, lirsPushToQueues]
  · exact ⟨by rw [hrw3.entry_self]; rfl, by rw [hrw3.entry_self]; rfl⟩
  · exact hrw3.wf.hashLookup_eq_some.mpr
      ⟨by rw [hrw3.entry_self]; rfl, by rw [hrw3.entry_self]; rfl⟩
  · rw [hrw3.entry_of_ne hne, hrw2.entry_self]
    rfl
  · rw [hlost]
    exact fun _ hg => absurd hg List.not_mem_nil
  · intro u hux hum _
    rw [hrw3.entry_of_ne hum, hrw2.entry_of_ne hux]
  · simp [hlost]
  · simp [hlost]
  · simp [hlost]
  · rw [hroom]
    exact dec32_u32_succ h.sLen_lt

/-- Without a ghost the lists still fit. -/
theorem LirsPolicy.Removed.listed {g : EntryRef} (hrem : s.Removed g s') (h : s.Listed) :
    s'.Listed := by
  have hr_nodup : s.r.Nodup := by
    rw [h.r_eq]
    exact h.s_nodup.filter _
  refine ⟨hrem.rewrites.wf, ?_, ?_, ?_, ?_, ?_, ?_, ?_, ?_, ?_⟩
  · rw [hrem.q]
    exact h.q_nodup.erase g
  · rw [hrem.g]
    exact h.g_nodup.erase g
  · rw [hrem.stack]
    exact h.s_nodup.erase g
  · intro u hu
    rw [hrem.q] at hu
    exact h.q_cache u (List.mem_of_mem_erase hu)
  · intro u hu
    rw [hrem.stack] at hu
    obtain ⟨hne, hus⟩ := h.s_nodup.mem_erase_iff.mp hu
    rw [hrem.rewrites.entry_of_ne hne]
    exact h.s_allocated u hus
  · rw [hrem.hirs, hrem.stack, hrem.isHIR, Lib.filter_erase h.s_nodup, h.r_eq]
  · intro u
    rw [hrem.g, h.g_nodup.mem_erase_iff, h.mem_g]
    by_cases hu : u = g
    · subst hu
      rw [hrem.rewrites.entry_self]
      simp [CacheNucleus.freedEntry]
    · rw [hrem.rewrites.entry_of_ne hu]
      exact and_iff_right hu
  · intro u hu
    rw [hrem.g] at hu
    obtain ⟨hne, hug⟩ := h.g_nodup.mem_erase_iff.mp hu
    obtain ⟨hus, hur⟩ := h.ghost u hug
    rw [hrem.stack, hrem.hirs]
    exact ⟨h.s_nodup.mem_erase_iff.mpr ⟨hne, hus⟩, hr_nodup.mem_erase_iff.mpr ⟨hne, hur⟩⟩
  · rw [hrem.sLen]
    split
    · exact u32_lt _
    · exact h.sLen_lt

/-- The oldest ghost is forgotten, and its entry is free for the new one. -/
theorem lirsGEvict_listed (h : s.Listed) (hm : 0 < (s.nucleus.pool .metadata).nrEntries)
    (hf : (s.nucleus.pool .metadata).free = []) :
    ∃ g t s1, s.g = g :: t ∧ g.pool = .metadata ∧ lirsGEvict s = .ok s1 ∧ s.Removed g s1 ∧
      (s1.nucleus.pool .metadata).free = [g.index] := by
  obtain ⟨g, t, hg⟩ := List.exists_cons_of_ne_nil (h.g_ne_nil hm hf)
  have hgm : g ∈ s.g := by
    rw [hg]
    exact List.mem_cons_self
  obtain ⟨ha, hp⟩ := (h.mem_g g).mp hgm
  obtain ⟨s1, hrun, hrem⟩ := lirsRemoveEntry_removed h.wf ha
  refine ⟨g, t, s1, hg, hp, by simp [lirsGEvict, hg, hrun], hrem, ?_⟩
  have hfree := hrem.rewrites.free
  rwa [hp, hf] at hfree

/-- The head of `G` makes room first. -/
theorem lirsReplaceWithMeta_full (h : s.Listed) (hm : 0 < (s.nucleus.pool .metadata).nrEntries)
    (hs : x ∈ s.s) (hhir : s.isHIR x = true) (hp : x.pool = .cache)
    (hf : (s.nucleus.pool .metadata).free = []) :
    ∃ s' m, lirsReplaceWithMeta s x = .ok s' ∧ s.Ghosted x m s' := by
  obtain ⟨g, t, s1, hg, hgp, hrun1, hrem, hf1⟩ := lirsGEvict_listed h hm hf
  have hgs := h.ghost g (by rw [hg]; exact List.mem_cons_self)
  have hxg : x ≠ g := by
    rintro rfl
    rw [hp] at hgp
    cases hgp
  have hfull : metaIsFull s.nucleus = true := by simp [metaIsFull, epoolEmpty, hf]
  have hlost : s.lost = [g] := by simp [lost, hfull, hg]
  have herase : ∀ l : Queue, l.Nodup → l.erase g = l.filter (· ∉ s.lost) := by
    intro l hl
    rw [hl.erase_eq_filter, hlost]
    exact List.filter_congr fun u _ => by simp [bne, beq_eq_decide]
  have hr_nodup : s.r.Nodup := by
    rw [h.r_eq]
    exact h.s_nodup.filter _
  have hgq : g ∉ s.q := fun hq => by
    rw [h.q_cache g hq] at hgp
    cases hgp
  have hxs1 : x ∈ s1.s := by
    rw [hrem.stack]
    exact h.s_nodup.mem_erase_iff.mpr ⟨hxg, hs⟩
  have hx1 : s1.nucleus.entry x = s.nucleus.entry x := hrem.rewrites.entry_of_ne hxg
  obtain ⟨s', hrun, hgh⟩ := lirsReplaceWithMeta_room (hrem.listed h) hxs1
    (by rw [hrem.isHIR]; exact hhir) hp hf1
  have hgm : (⟨.metadata, g.index⟩ : EntryRef) = g := by rw [← hgp]
  rw [hgm] at hgh
  have hroom1 : metaIsFull s1.nucleus = false := by simp [metaIsFull, epoolEmpty, hf1]
  have hlost1 : s1.lost = [] := by rw [lost, hroom1]; rfl
  refine ⟨s', g, ?_, hgp, .inr (by rw [hlost]; exact List.mem_cons_self), ?_, ?_, hgh.gone, ?_,
    ?_, ?_, ?_, ?_, ?_, ?_, ?_, ?_⟩
  · rw [← hrun]
    simp only [lirsReplaceWithMeta, logAssert, hs, hxs1, hhir, hrem.isHIR, inCache, hfull,
      hroom1, hx1, hrun1, ok_bind, if_true, Bool.false_eq_true, if_false]
  · rw [← hx1]
    exact hgh.entry
  · rw [← hx1]
    exact hgh.lookup
  · intro u hu hne
    rw [hlost] at hu
    exact absurd (List.mem_singleton.mp hu) hne
  · intro u hux hug hul
    rw [hgh.other u hux hug (by rw [hlost1]; exact List.not_mem_nil),
      hrem.rewrites.entry_of_ne hug]
  · rw [hgh.stack, hlost1, ← herase _ h.s_nodup, hrem.stack]
    simp
  · rw [hgh.hirs, hlost1, ← herase _ hr_nodup, hrem.hirs]
    simp
  · rw [hgh.g, hlost1, ← herase _ h.g_nodup, hrem.g]
    simp
  · rw [hgh.q, hrem.q, List.erase_of_not_mem hgq]
  · rw [hgh.isHIR, hrem.isHIR]
  · rw [hgh.sLen, hroom1, hfull, hrem.sLen, if_pos hgs.1]
    simp only [Bool.false_eq_true, if_false, if_true]
  · rw [hgh.sMaxlen, hrem.sMaxlen]

theorem lirsReplaceWithMeta_ghosted (h : s.Listed)
    (hm : 0 < (s.nucleus.pool .metadata).nrEntries) (hs : x ∈ s.s) (hhir : s.isHIR x = true)
    (hp : x.pool = .cache) : ∃ s' m, lirsReplaceWithMeta s x = .ok s' ∧ s.Ghosted x m s' := by
  cases hf : (s.nucleus.pool .metadata).free with
  | nil => exact lirsReplaceWithMeta_full h hm hs hhir hp hf
  | cons i rest =>
    obtain ⟨s', hrun, hgh⟩ := lirsReplaceWithMeta_room h hs hhir hp hf
    exact ⟨s', ⟨.metadata, i⟩, hrun, hgh⟩

/-- One ghost is lost, or none. -/
theorem LirsPolicy.Listed.lost_eq (h : s.Listed) (hm : 0 < (s.nucleus.pool .metadata).nrEntries) :
    (metaIsFull s.nucleus = true → ∃ g t, s.g = g :: t ∧ s.lost = [g]) ∧
      (metaIsFull s.nucleus = false → s.lost = []) := by
  refine ⟨fun hfull => ?_, fun hroom => ?_⟩
  · obtain ⟨g, t, hg⟩ := List.exists_cons_of_ne_nil (h.g_ne_nil hm (List.isEmpty_iff.mp hfull))
    exact ⟨g, t, hg, by simp [lost, hfull, hg]⟩
  · rw [lost, hroom]
    rfl

/-- LIRS ghosting keeps positions: only the head of `G` is lost, when the metadata pool is full. -/
theorem lirs_ghosting (h : s.Listed) (hm : 0 < (s.nucleus.pool .metadata).nrEntries)
    (hq : x ∈ s.q) (hs : x ∈ s.s) (hhir : s.isHIR x = true) :
    ∃ s' m, lirsReplaceWithMeta s x = .ok s' ∧ s.Ghosted x m s' ∧
      (metaIsFull s.nucleus = true → ∃ g t, s.g = g :: t ∧ s.lost = [g]) ∧
      (metaIsFull s.nucleus = false → s.lost = []) := by
  obtain ⟨s', m, hrun, hgh⟩ := lirsReplaceWithMeta_ghosted h hm hs hhir (h.q_cache x hq)
  exact ⟨s', m, hrun, hgh, h.lost_eq hm⟩

/-- The HIR block of two blocks cached becomes a ghost. -/
theorem lirs_ghosting_two : ∃ s s' m, (lirsApi.system lirsCalls).Reachable (lirsFresh 3 1) s ∧
    s.s = [⟨.cache, 2⟩, ⟨.cache, 1⟩] ∧ lirsReplaceWithMeta s ⟨.cache, 1⟩ = .ok s' ∧
    s.Ghosted ⟨.cache, 1⟩ m s' := by
  obtain ⟨s, ws, hexec, hq, hs, hhir, hlen⟩ : ∃ s ws,
      (lirsApi.system lirsCalls).exec (lirsFresh 3 1) lirsTwoBlocks = .ok (s, ws) ∧
      s.q = [⟨.cache, 1⟩] ∧ s.s = [⟨.cache, 2⟩, ⟨.cache, 1⟩] ∧ s.isHIR ⟨.cache, 1⟩ = true ∧
      s.sLen = 2 := ⟨_, _, rfl, rfl, rfl, rfl, rfl⟩
  have hreach := (Lib.System.Run.of_exec lirsTwoBlocks_admits hexec).reachable
  have hsized := Sized.of_reachable (by decide) (lirsCreate_eq 3 1) hreach
  obtain ⟨s', m, hrun, hgh, _⟩ := lirs_ghosting (x := ⟨.cache, 1⟩)
    (hsized.inv.listed (by rw [hlen]; decide)) (by rw [hsized.metaEntries]; decide)
    (by rw [hq]; exact List.mem_cons_self) (by rw [hs]; simp) hhir
  exact ⟨s, s', m, hreach, hs, hrun, hgh⟩

end Fomo
