import Fomo.Algs.LirsSteps

/-!
# Evictions and arrivals of LIRS

The head of `Q` gives up its slot and, while it is in the stack, leaves a ghost in its
place there. The oldest LIR entry of the stack moves to `Q`. A block arrives migrating, in
no list.
-/
namespace Fomo

namespace LirsPolicy

/-- `s'` is `s` with the slot of the cached entry `r` free, and perhaps a ghost of its block. -/
structure Evicted (s : LirsPolicy) (r : EntryRef) (s' : LirsPolicy) : Prop where
  inv : s'.Inv none
  slot : s.nucleus.SetsSlot r.index (s.nucleus.freedEntry r) s'.nucleus
  free : (s'.nucleus.pool .cache).free = r.index :: (s.nucleus.pool .cache).free
  absent : ∀ o, s.nucleus.Absent o → s'.nucleus.Absent o
  frame : s.SameFrame s'
  isHIR : ∀ i, s'.isHIR ⟨.cache, i⟩ = s.isHIR ⟨.cache, i⟩
  lirCount : s'.lirCount + s.counts r = s.lirCount
  length : s'.s.length ≤ s.s.length
  pruned : s.isHIR r = true → s.Pruned → s'.Pruned
  balanced : ∀ k, s.sLen < 2 ^ 32 - 1 → s.Balanced k → s'.Balanced k

/-- The LIR entry `l` left the bottom of the stack for `Q`. -/
structure Demoted (s : LirsPolicy) (l : EntryRef) (s' : LirsPolicy) : Prop where
  inv : ∀ x, s.Inv x → s'.Inv x
  nucleus : s'.nucleus = s.nucleus
  frame : s.SameFrame s'
  isHIR : s'.isHIR = Function.update s.isHIR l true
  lirCount : s'.lirCount + 1 = s.lirCount
  stack : s.s = l :: s'.s
  balanced : ∀ k, s.Balanced k → s'.Balanced k

/-- `o` arrived in the free slot `i`, in no list. -/
structure Arrived (s : LirsPolicy) (o : Oblock) (hir : Bool) (i : Nat) (rest : List Nat)
    (s' : LirsPolicy) : Prop where
  inv : s'.Inv none
  rewrites : s.nucleus.Rewrites ⟨.cache, i⟩ (s.nucleus.arrivingEntry ⟨.cache, i⟩ o) rest
    s'.nucleus
  frame : s.SameFrame s'
  isHIR : s'.isHIR = Function.update s.isHIR ⟨.cache, i⟩ hir
  lirCount : s'.lirCount = s.lirCount + if hir then 0 else 1
  stack : s'.s = s.s
  r : s'.r = s.r
  sLen : s'.sLen = s.sLen

end LirsPolicy

open LirsPolicy

variable {s s' : LirsPolicy} {x : Option EntryRef} {r l u : EntryRef} {o : Oblock}

theorem LirsPolicy.Frees.evicted (hf : s.Frees none r s') (hp : r.pool = .cache) :
    s.Evicted r s' where
  inv := hf.inv
  slot := by
    obtain ⟨rp, ri⟩ := r
    obtain rfl : rp = .cache := hp
    exact hf.rewrites.setsSlot
  free := by
    have hfree := hf.rewrites.free
    rwa [hp] at hfree
  absent := fun _ ho => hf.absent ho
  frame := hf.frame
  isHIR := fun i => by rw [hf.isHIR]
  lirCount := hf.lirCount
  length := by
    rw [hf.stack]
    exact List.length_erase_le
  pruned := fun hhir hpr => by
    unfold Pruned
    rw [hf.isHIR, hf.stack]
    exact Lib.Clear.erase hpr hhir
  balanced := fun k _ hb => hf.balanced k hb

/-! ## The oldest LIR entry -/

theorem lirsSEvict_spec (h : s.Inv x) {t : Queue} (hs : s.s = l :: t) (hl : s.isHIR l = false) :
    ∃ s', lirsSEvict s = .ok s' ∧ s.Demoted l s' := by
  have hmem : l ∈ s.s := by
    rw [hs]
    exact List.mem_cons_self
  have hcache : ∀ y, s.Inv y → l.pool = .cache := by
    intro y hy
    cases hp : l.pool with
    | cache => rfl
    | metadata =>
      have hg := ((hy.placed l).ghost (hy.of_mem_s hmem).1 hp).2
      rw [hl] at hg
      cases hg
  have hp := hcache x h
  have ha := (h.of_mem_s hmem).1
  have hcount := h.counts_le l
  rw [counts_allocated ha, if_pos ⟨hp, hl⟩] at hcount
  have hlt := h.lirCount_lt
  have hdec : dec32 s.lirCount = s.lirCount - 1 := dec32_of_pos hcount (by omega)
  let s' : LirsPolicy := { s with
    isHIR := Function.update s.isHIR l true
    lirCount := dec32 s.lirCount
    q := s.q.erase l ++ [l], g := s.g.erase l, r := s.r.erase l, s := s.s.erase l
    sLen := dec32 s.sLen }
  have hrun : lirsSEvict s = .ok s' := by
    simp [lirsSEvict, hs, hl, inCache, hp, logAssert, lirsPushToQueues, lirsRemoveFromQueues_eq, s']
  refine ⟨s', hrun, ?_, rfl, ⟨fun _ => rfl, rfl, rfl, rfl, rfl⟩, rfl, ?_, ?_, ?_⟩
  · intro y hy
    have hset := hy.of_mem_s hmem
    have hrw : s.nucleus.Rewrites l (s.nucleus.entry l) (s.nucleus.pool l.pool).free
        s'.nucleus := hy.wf.rewrites_self l
    have hno : l ∉ s.s.erase l := hy.s_nodup.not_mem_erase
    apply hy.change hrw (fun u hu => Function.update_of_ne hu _ _) (fun _ _ => Iff.rfl)
      (Queued.nodup_touch hy.q_nodup l) (hy.g_nodup.erase l) (hy.s_nodup.erase l)
    · intro u hu
      refine ⟨?_, hy.g_nodup.mem_erase_iff.trans (and_iff_right hu),
        hy.s_nodup.mem_erase_iff.trans (and_iff_right hu)⟩
      show u ∈ s.q.erase l ++ [l] ↔ u ∈ s.q
      rw [List.mem_append, hy.q_nodup.mem_erase_iff]
      simp [hu]
    · show s.r.erase l = (s.s.erase l).filter (Function.update s.isHIR l true)
      rw [hy.r_eq, ← Lib.filter_erase hy.s_nodup]
      refine List.filter_congr fun u hu => ?_
      have hul : u ≠ l := fun he => hno (he ▸ hu)
      rw [Function.update_of_ne hul]
    · constructor
      · show l ∈ s.q.erase l ++ [l] ↔ s.Settled y l ∧ l.pool = .cache ∧
          Function.update s.isHIR l true l = true
        simp [hset, hp]
      · show l ∈ s.g.erase l ↔ s.Settled y l ∧ l.pool = .metadata
        simp [hy.g_nodup.not_mem_erase, hp]
      · exact fun hm => absurd hm hno
      · intro _ hm
        have hm := hm hp
        rw [show s'.isHIR l = true from Function.update_self l true s.isHIR] at hm
        cases hm
      · intro _ hm
        rw [hp] at hm
        cases hm
    · show dec32 s.lirCount + s.counts l = s.lirCount + s'.counts l
      have hone : s.counts l = 1 := by rw [counts_allocated ha, if_pos ⟨hp, hl⟩]
      have hzero : s'.counts l = 0 := by
        rw [counts_allocated (s := s') ha]
        simp [s']
      omega
  · show dec32 s.lirCount + 1 = s.lirCount
    omega
  · show s.s = l :: s.s.erase l
    rw [hs, List.erase_cons_head]
  · intro k hb
    exact hb.erase hmem rfl rfl

/-! ## Arrivals -/

theorem lirsArrive_spec (h : s.Inv none) {i : Nat} {rest : List Nat}
    (hf : (s.nucleus.pool .cache).free = i :: rest) (habs : s.nucleus.Absent o) (hir : Bool)
    (result : CacheNucleusResult) :
    ∃ cn1 cn, insertInCache s.nucleus o result =
        .ok (cn1, ⟨.cache, i⟩, { result with cblock := i }) ∧
      migratingCacheEntry cn1 ⟨.cache, i⟩ = .ok cn ∧
      s.Arrived o hir i rest { s with
        nucleus := cn
        isHIR := Function.update s.isHIR ⟨.cache, i⟩ hir
        lirCount := if !hir then u32 (s.lirCount + 1) else s.lirCount } := by
  obtain ⟨cn1, cn, hrun1, hrun2, hrw⟩ := h.wf.insertMigrating hf habs result
  refine ⟨cn1, cn, hrun1, hrun2, ?_⟩
  obtain ⟨hi, hfree⟩ := (h.wf.mem_free (r := ⟨.cache, i⟩)).mp (by
    rw [hf]
    exact List.mem_cons_self)
  have hset : ¬s.Settled none ⟨.cache, i⟩ := by
    intro hset
    rw [hset.1] at hfree
    cases hfree
  have hp := h.placed ⟨.cache, i⟩
  have hs : ⟨.cache, i⟩ ∉ s.s := fun hm => hset (hp.settled hm)
  have hlt := h.lirCount_succ_lt hi (by unfold lir; rw [hfree]; rfl)
  let s' : LirsPolicy := { s with
    nucleus := cn
    isHIR := Function.update s.isHIR ⟨.cache, i⟩ hir
    lirCount := if !hir then u32 (s.lirCount + 1) else s.lirCount }
  have hrw' : s.nucleus.Rewrites ⟨.cache, i⟩ (s.nucleus.arrivingEntry ⟨.cache, i⟩ o) rest
      s'.nucleus := hrw
  have hcount : s'.lirCount = s.lirCount + if hir then 0 else 1 := by
    cases hir
    · exact u32_of_lt hlt
    · rfl
  have hself := hrw'.entry_self
  have hset' : ¬s'.Settled none ⟨.cache, i⟩ := by
    intro hx
    rw [Settled, hself] at hx
    cases hx.2.1
  refine ⟨?_, hrw', ⟨hrw'.nrEntries, hrw'.cacheSize, rfl, rfl, rfl⟩, rfl, hcount, rfl, rfl, rfl⟩
  apply h.change hrw' (fun u hu => Function.update_of_ne hu _ _) (fun _ _ => Iff.rfl) h.q_nodup
    h.g_nodup h.s_nodup (fun _ _ => ⟨Iff.rfl, Iff.rfl, Iff.rfl⟩)
  · show s.r = s.s.filter (Function.update s.isHIR ⟨.cache, i⟩ hir)
    rw [h.r_eq]
    refine List.filter_congr fun u hu => ?_
    have hui : u ≠ ⟨.cache, i⟩ := fun he => hs (he ▸ hu)
    rw [Function.update_of_ne hui]
  · refine @Placed.nowhere s' _ _ hset' (fun hm => hset (hp.mem_q.mp hm).1)
      (fun hm => hset (hp.mem_g.mp hm).1) hs ?_
    intro _ hm
    cases hm
  · show s'.lirCount + s.counts ⟨.cache, i⟩ = s.lirCount + s'.counts ⟨.cache, i⟩
    have ha : (s'.nucleus.entry ⟨.cache, i⟩).allocated = true := by
      rw [hself]
      rfl
    rw [counts_free hfree, counts_allocated ha, hcount]
    cases hir
    · simp [s']
    · simp [s']

/-! ## Ghosts -/

/-- The oldest ghost is forgotten when the ghosts fill their pool. -/
theorem lirsGEvict_spec (h : s.Inv none) (hm : 0 < (s.nucleus.pool .metadata).nrEntries)
    (hfull : (s.nucleus.pool .metadata).free = []) :
    ∃ s' g, lirsGEvict s = .ok s' ∧ s.Frees none g s' ∧ g.pool = .metadata ∧
      s.isHIR g = true := by
  have ha : (s.nucleus.entry ⟨.metadata, 0⟩).allocated = true := by
    by_contra hx
    have hmem : 0 ∈ (s.nucleus.pool .metadata).free :=
      (h.wf.mem_free (r := ⟨.metadata, 0⟩)).mpr ⟨hm, by simpa using hx⟩
    rw [hfull] at hmem
    cases hmem
  have hgm : (⟨.metadata, 0⟩ : EntryRef) ∈ s.g :=
    (h.placed _).mem_g.mpr ⟨⟨ha, ((h.placed _).ghost ha rfl).1, by simp⟩, rfl⟩
  cases hg : s.g with
  | nil =>
    rw [hg] at hgm
    cases hgm
  | cons g t =>
    obtain ⟨hset, hp⟩ := (h.placed g).mem_g.mp (by rw [hg]; exact List.mem_cons_self)
    obtain ⟨s', hrun, hf⟩ := lirsRemoveEntry_spec h hset.1
    exact ⟨s', g, by simp [lirsGEvict, hg, hrun], hf, hp, ((h.placed g).ghost hset.1 hp).2⟩

/-- A ghost enters the stack. -/
theorem LirsPolicy.Inv.ghost {m : EntryRef} {rest : List Nat} {cn : CacheNucleus} (h : s.Inv none)
    (hm : m.pool = .metadata) (hfree : (s.nucleus.entry m).allocated = false)
    (hrw : s.nucleus.Rewrites m (s.nucleus.freshEntry m o) rest cn) {st : Queue}
    (hst : st.Nodup) (hmst : m ∈ st) (hother : ∀ u, u ≠ m → (u ∈ st ↔ u ∈ s.s)) (n : Nat) :
    ({ s with
      nucleus := cn
      isHIR := Function.update s.isHIR m true
      g := s.g ++ [m]
      r := st.filter (Function.update s.isHIR m true)
      s := st
      sLen := n } : LirsPolicy).Inv none := by
  let s' : LirsPolicy := { s with
    nucleus := cn
    isHIR := Function.update s.isHIR m true
    g := s.g ++ [m]
    r := st.filter (Function.update s.isHIR m true)
    s := st
    sLen := n }
  have hp := h.placed m
  have hmset : ¬s.Settled none m := by
    intro hx
    rw [hx.1] at hfree
    cases hfree
  have hmg : m ∉ s.g := fun hg => hmset (hp.mem_g.mp hg).1
  have hmq : m ∉ s.q := fun hq => hmset (hp.mem_q.mp hq).1
  have hrw' : s.nucleus.Rewrites m (s.nucleus.freshEntry m o) rest s'.nucleus := hrw
  have hmig := h.wf.not_migrating hfree
  have hset : s'.Settled none m := by
    refine ⟨?_, ?_, by simp⟩
    · rw [hrw'.entry_self]
      rfl
    · rw [hrw'.entry_self]
      exact hmig
  have hgn : (s.g ++ [m]).Nodup := by
    have := Queued.nodup_touch h.g_nodup m
    rwa [List.erase_of_not_mem hmg] at this
  apply h.change hrw' (fun u hu => Function.update_of_ne hu _ _) (fun _ _ => Iff.rfl) h.q_nodup
    hgn hst
  · intro u hu
    refine ⟨Iff.rfl, ?_, hother u hu⟩
    show u ∈ s.g ++ [m] ↔ u ∈ s.g
    simp [hu]
  · rfl
  · constructor
    · show m ∈ s.q ↔ _
      simp [hmq, hm]
    · show m ∈ s.g ++ [m] ↔ _
      simp [hset, hm]
    · exact fun _ => hset
    · exact fun _ _ => hmst
    · exact fun _ _ => ⟨hset.2.1, Function.update_self m true s.isHIR⟩
  · show s.lirCount + s.counts m = s.lirCount + s'.counts m
    simp [LirsPolicy.counts, hm]

/-- What the replacement leaves behind, once the metadata pool has room. -/
theorem lirsReplace_run (hwf : s.nucleus.Wf) (hrs : r ∈ s.s) (hrr : r ∈ s.r) (hrg : r ∉ s.g)
    (hhir : s.isHIR r = true) (hp : r.pool = .cache) (ha : (s.nucleus.entry r).allocated = true)
    {i : Nat} {rest : List Nat} (hf : (s.nucleus.pool .metadata).free = i :: rest)
    (hms : ⟨.metadata, i⟩ ∉ s.s) (hmr : ⟨.metadata, i⟩ ∉ s.r) :
    ∃ cn cn2 cn3, insertInMeta s.nucleus (s.nucleus.entry r).oblock = .ok (cn, ⟨.metadata, i⟩) ∧
      s.nucleus.Rewrites r (s.nucleus.freedEntry r) (r.index :: (s.nucleus.pool r.pool).free) cn2 ∧
      cn2.Rewrites ⟨.metadata, i⟩ (cn2.freshEntry ⟨.metadata, i⟩ (s.nucleus.entry r).oblock) rest
        cn3 ∧
      lirsRemoveEntry { s with
        nucleus := cn
        isHIR := Function.update s.isHIR ⟨.metadata, i⟩ true
        g := s.g ++ [⟨.metadata, i⟩]
        r := queueSwap (s.r ++ [⟨.metadata, i⟩]) r ⟨.metadata, i⟩
        s := queueSwap (s.s ++ [⟨.metadata, i⟩]) r ⟨.metadata, i⟩
        sLen := u32 (s.sLen + 1) } r = .ok { s with
          nucleus := cn3
          isHIR := Function.update s.isHIR ⟨.metadata, i⟩ true
          q := s.q.erase r
          g := s.g ++ [⟨.metadata, i⟩]
          r := Lib.replace r ⟨.metadata, i⟩ s.r
          s := Lib.replace r ⟨.metadata, i⟩ s.s
          sLen := dec32 (u32 (s.sLen + 1)) } := by
  let m : EntryRef := ⟨.metadata, i⟩
  obtain ⟨cn, hrun, hremove⟩ := hwf.insertInMeta_remove hp ha hf
  let s0 : LirsPolicy := { s with
    nucleus := cn
    isHIR := Function.update s.isHIR m true
    g := s.g ++ [m]
    r := queueSwap (s.r ++ [m]) r m
    s := queueSwap (s.s ++ [m]) r m
    sLen := u32 (s.sLen + 1) }
  obtain ⟨st, hrun0⟩ := lirsRemoveEntry_eq s0 r
  obtain ⟨cn2, cn3, hrw2, hrw3, hrun3⟩ := hremove st
  have hmne : m ≠ r := by
    rintro rfl
    cases hp
  have hrs0 : r ∈ s0.s := by
    show r ∈ (s.s ++ [m]).map (Equiv.swap r m)
    rw [List.map_append, List.mem_append]
    exact Or.inr (by simp)
  have hhir0 : s0.isHIR r = true := by
    show Function.update s.isHIR m true r = true
    rw [Function.update_of_ne (Ne.symm hmne)]
    exact hhir
  have hnuc : s0.nucleus = cn := rfl
  have hgm : (s.g ++ [m]).erase r = s.g ++ [m] := by
    refine List.erase_of_not_mem fun hmem => ?_
    rcases List.mem_append.mp hmem with hmem | hmem
    · exact hrg hmem
    · exact hmne (List.mem_singleton.mp hmem).symm
  refine ⟨cn, cn2, cn3, hrun, hrw2, hrw3, ?_⟩
  have hrun1 : lirsRemoveEntry s0 r = _ := hrun0
  show lirsRemoveEntry s0 r = _
  rw [hrun1, hnuc, hrun3, ok_bind, pure_eq_ok, lirsRemoveFromQueues_eq, if_pos hrs0, hhir0]
  simp only [s0, queueSwap, Lib.erase_swap_push hrr hmr, Lib.erase_swap_push hrs hms, hgm,
    Bool.not_true, Bool.false_eq_true, if_false, m]

/-- A cached HIR entry of the stack gives its place there to a ghost, once the metadata pool
has room. -/
theorem lirsReplace_room (h : s.Inv none) (hrs : r ∈ s.s) (hhir : s.isHIR r = true)
    (hp : r.pool = .cache) {i : Nat} {rest : List Nat}
    (hf : (s.nucleus.pool .metadata).free = i :: rest) :
    ∃ cn s', insertInMeta s.nucleus (s.nucleus.entry r).oblock = .ok (cn, ⟨.metadata, i⟩) ∧
      lirsRemoveEntry { s with
        nucleus := cn
        isHIR := Function.update s.isHIR ⟨.metadata, i⟩ true
        g := s.g ++ [⟨.metadata, i⟩]
        r := queueSwap (s.r ++ [⟨.metadata, i⟩]) r ⟨.metadata, i⟩
        s := queueSwap (s.s ++ [⟨.metadata, i⟩]) r ⟨.metadata, i⟩
        sLen := u32 (s.sLen + 1) } r = .ok s' ∧ s.Evicted r s' := by
  let m : EntryRef := ⟨.metadata, i⟩
  have ha := (h.of_mem_s hrs).1
  have hmr : m ≠ r := by
    rintro rfl
    cases hp
  have hmfree : (s.nucleus.entry m).allocated = false := ((h.wf.mem_free (r := m)).mp (by
    show i ∈ (s.nucleus.pool .metadata).free
    rw [hf]
    exact List.mem_cons_self)).2
  have hms : m ∉ s.s := fun hm => by
    have := (h.of_mem_s hm).1
    rw [hmfree] at this
    cases this
  have hrr : r ∈ s.r := h.mem_r.mpr ⟨hrs, hhir⟩
  have hmr' : m ∉ s.r := fun hm => hms (h.mem_r.mp hm).1
  have hrg : r ∉ s.g := fun hm => by
    have := ((h.placed r).mem_g.mp hm).2
    rw [hp] at this
    cases this
  obtain ⟨cn, cn2, cn3, hrun, hrw2, hrw3, hrun3⟩ :=
    lirsReplace_run h.wf hrs hrr hrg hhir hp ha hf hms hmr'
  -- first the cached entry goes, then the ghost takes its place in the stack
  let s1 : LirsPolicy := { s with
    nucleus := cn2, q := s.q.erase r, g := s.g.erase r, r := s.r.erase r, s := s.s.erase r
    sLen := dec32 s.sLen }
  have hcounts : s.counts r = 0 := by
    rw [counts_allocated ha]
    simp [hhir]
  have hrw2' : s.nucleus.Rewrites r (s.nucleus.freedEntry r)
    (r.index :: (s.nucleus.pool r.pool).free) s1.nucleus := hrw2
  have hf1 : s.Frees none r s1 := h.frees hrw2' ⟨hrw2.nrEntries, hrw2.cacheSize, rfl, rfl, rfl⟩
    rfl rfl rfl rfl rfl (by rw [hcounts]; rfl) fun k hb => hb.erase hrs rfl rfl
  have he1 := hf1.evicted hp
  have hmfree1 : (s1.nucleus.entry m).allocated = false := by
    rw [hrw2'.entry_of_ne hmr]
    exact hmfree
  have hmem : ∀ u, u ≠ m → (u ∈ Lib.replace r m s.s ↔ u ∈ s1.s) := by
    intro u hu
    show _ ↔ u ∈ s.s.erase r
    rw [Lib.mem_replace hrs, h.s_nodup.mem_erase_iff]
    simp [hu, and_comm]
  have hmem_m : m ∈ Lib.replace r m s.s := (Lib.mem_replace hrs).mpr (Or.inl rfl)
  have hinv := hf1.inv.ghost rfl hmfree1 hrw3 (Lib.nodup_replace h.s_nodup hms) hmem_m hmem
    (dec32 (u32 (s.sLen + 1)))
  have hfil : (Lib.replace r m s.s).filter (Function.update s.isHIR m true) =
      Lib.replace r m s.r := by
    rw [h.r_eq]
    refine Lib.filter_replace hhir (Function.update_self m true s.isHIR) fun u hu _ => ?_
    have hum : u ≠ m := fun he => hms (he ▸ hu)
    rw [Function.update_of_ne hum]
  refine ⟨cn, _, hrun, hrun3, ⟨?_, ?_, ?_, ?_, ?_, ?_, ?_, ?_, ?_, ?_⟩⟩
  · have hg1 : s1.g = s.g := List.erase_of_not_mem hrg
    rw [hg1, show s1.isHIR = s.isHIR from rfl, hfil] at hinv
    exact hinv
  · intro b
    exact (hrw3.entry_of_ne (by simp)).trans (he1.slot b)
  · exact (hrw3.free_of_ne .cache (by simp)).trans he1.free
  · intro a hab
    exact hrw3.absent (he1.absent a hab) fun _ => hab r ha
  · exact he1.frame.trans ⟨hrw3.nrEntries, hrw3.cacheSize, rfl, rfl, rfl⟩
  · intro j
    have hne : (⟨.cache, j⟩ : EntryRef) ≠ m := by simp [m]
    exact Function.update_of_ne hne true s.isHIR
  · exact he1.lirCount
  · exact (Lib.length_replace r m s.s).le
  · intro _ hpr
    refine Lib.Clear.replace hpr hhir fun u hu => ?_
    have hum : u ≠ m := fun he => hms (he ▸ hu)
    exact Function.update_of_ne hum true s.isHIR
  · intro k hlt hb
    have hlen : (Lib.replace r m s.s).length = s.s.length := Lib.length_replace r m s.s
    have hdec : dec32 (u32 (s.sLen + 1)) = s.sLen := by
      rw [u32_of_lt (by omega), dec32_of_pos (by omega) (by omega)]
      omega
    exact ⟨hdec.trans (hb.sLen.trans (congrArg (· + k) hlen.symm)), hdec.le.trans hb.le⟩

/-- Evictions compose with the loss of a ghost before them. -/
theorem LirsPolicy.Evicted.after_ghost {s1 : LirsPolicy} {g : EntryRef} (h : s1.Evicted r s')
    (hf : s.Frees none g s1) (hg : g.pool = .metadata) (hgh : s.isHIR g = true)
    (hp : r.pool = .cache) : s.Evicted r s' := by
  have hne : ∀ i, (⟨.cache, i⟩ : EntryRef) ≠ g := by
    rintro i rfl
    cases hg
  have hcache : ∀ i, s1.nucleus.entry ⟨.cache, i⟩ = s.nucleus.entry ⟨.cache, i⟩ := fun i =>
    hf.rewrites.entry_of_ne (hne i)
  have hfreeEq : (s1.nucleus.pool .cache).free = (s.nucleus.pool .cache).free :=
    hf.rewrites.free_of_ne .cache (by rw [hg]; decide)
  have hcg : s.counts g = 0 := by simp [LirsPolicy.counts, hg]
  have hcr : s1.counts r = s.counts r := by
    unfold LirsPolicy.counts LirsPolicy.lir
    rw [hcache, hf.isHIR]
  have hbal : ∀ k, s.Balanced k → s1.sLen ≤ s.sLen := by
    intro k hb
    have h1 := hb.sLen
    have h2 := (hf.balanced k hb).sLen
    have h3 : s1.s.length ≤ s.s.length := by
      rw [hf.stack]
      exact List.length_erase_le
    omega
  refine ⟨h.inv, ?_, h.free.trans (by rw [hfreeEq]), fun a ha => h.absent a (hf.absent ha),
    hf.frame.trans h.frame, fun i => (h.isHIR i).trans (by rw [hf.isHIR]), ?_, ?_, ?_, ?_⟩
  · intro b
    obtain ⟨rp, ri⟩ := r
    obtain rfl : rp = .cache := hp
    have hslot := h.slot b
    unfold CacheNucleus.freedEntry at hslot ⊢
    rw [hcache, hcache] at hslot
    exact hslot
  · have h1 := h.lirCount
    have h2 := hf.lirCount
    omega
  · refine h.length.trans ?_
    rw [hf.stack]
    exact List.length_erase_le
  · intro hhir hpr
    apply h.pruned (by rw [hf.isHIR]; exact hhir)
    unfold Pruned
    rw [hf.isHIR, hf.stack]
    exact Lib.Clear.erase hpr hgh
  · intro k hlt hb
    have hle := hbal k hb
    exact h.balanced k (by omega) (hf.balanced k hb)

theorem lirsReplaceWithMeta_spec (h : s.Inv none) (hm : 0 < (s.nucleus.pool .metadata).nrEntries)
    (hrs : r ∈ s.s) (hhir : s.isHIR r = true) (hp : r.pool = .cache) :
    ∃ s', lirsReplaceWithMeta s r = .ok s' ∧ s.Evicted r s' := by
  cases hf : (s.nucleus.pool .metadata).free with
  | cons i rest =>
    obtain ⟨cn, s', hrun1, hrun2, he⟩ := lirsReplace_room h hrs hhir hp hf
    refine ⟨s', ?_, he⟩
    rw [← hrun2]
    simp [lirsReplaceWithMeta, logAssert, hrs, hhir, inCache, hp, metaIsFull, epoolEmpty, hf,
      hrun1, lirsPushToQueues]
  | nil =>
    obtain ⟨s1, g, hrun0, hg, hgp, hga⟩ := lirsGEvict_spec h hm hf
    have hgr : r ≠ g := by
      rintro rfl
      rw [hp] at hgp
      cases hgp
    have hrs1 : r ∈ s1.s := by
      rw [hg.stack, h.s_nodup.mem_erase_iff]
      exact ⟨hgr, hrs⟩
    have hf1 : (s1.nucleus.pool .metadata).free = [g.index] := by
      have := hg.rewrites.free
      rwa [hgp, hf] at this
    have hhir1 : s1.isHIR r = true := by
      rw [hg.isHIR]
      exact hhir
    obtain ⟨cn, s', hrun1, hrun2, he⟩ := lirsReplace_room hg.inv hrs1 hhir1 hp hf1
    have hobl : (s1.nucleus.entry r).oblock = (s.nucleus.entry r).oblock := by
      rw [hg.rewrites.entry_of_ne hgr]
    rw [hobl] at hrun1
    refine ⟨s', ?_, he.after_ghost hg hgp hga hp⟩
    rw [← hrun2]
    simp [lirsReplaceWithMeta, logAssert, hrs, hhir, inCache, hp, metaIsFull, epoolEmpty, hf,
      hrun0, hrun1, lirsPushToQueues]

/-- A metadata pool without entries has no ghost to give up. -/
theorem lirsReplaceWithMeta_fault (hwf : s.nucleus.Wf)
    (hm : (s.nucleus.pool .metadata).nrEntries = 0)
    (hghost : ∀ g ∈ s.g, (s.nucleus.entry g).allocated = true ∧ g.pool = .metadata)
    (hrs : r ∈ s.s) (hhir : s.isHIR r = true) (hp : r.pool = .cache) :
    lirsReplaceWithMeta s r = .error .nullPointer := by
  have hfree : (s.nucleus.pool .metadata).free = [] := by
    rw [List.eq_nil_iff_forall_not_mem]
    intro i hi
    have hlt := ((hwf.mem_free (r := ⟨.metadata, i⟩)).mp hi).1
    rw [hm] at hlt
    exact absurd hlt (Nat.not_lt_zero i)
  have hg : s.g = [] := by
    rw [List.eq_nil_iff_forall_not_mem]
    intro g hg
    obtain ⟨ha, hgp⟩ := hghost g hg
    have hlt := hwf.lt_of_allocated ha
    rw [hgp, hm] at hlt
    exact absurd hlt (Nat.not_lt_zero _)
  simp [lirsReplaceWithMeta, logAssert, hrs, hhir, inCache, hp, metaIsFull, epoolEmpty, hfree,
    lirsGEvict, hg]

/-- What the replacement does when it is possible. -/
theorem lirsReplaceWithMeta_case (h : s.Inv none) (hrs : r ∈ s.s) (hhir : s.isHIR r = true)
    (hp : r.pool = .cache)
    (hok : 0 < (s.nucleus.pool .metadata).nrEntries ∨ ∃ s', lirsReplaceWithMeta s r = .ok s') :
    ∃ s', lirsReplaceWithMeta s r = .ok s' ∧ s.Evicted r s' := by
  rcases Nat.eq_zero_or_pos (s.nucleus.pool .metadata).nrEntries with hm | hm
  · obtain ⟨s', hrun⟩ := hok.resolve_left (by omega)
    rw [lirsReplaceWithMeta_fault h.wf hm (fun g hg => ?_) hrs hhir hp] at hrun
    · cases hrun
    · obtain ⟨hset, hgp⟩ := (h.placed g).mem_g.mp hg
      exact ⟨hset.1, hgp⟩
  · exact lirsReplaceWithMeta_spec h hm hrs hhir hp

/-! ## The head of `Q` -/

theorem lirsQEvict_spec (h : s.Inv none) {t : Queue} (hq : s.q = r :: t)
    (result : CacheNucleusResult)
    (hok : 0 < (s.nucleus.pool .metadata).nrEntries ∨ ∃ x, lirsQEvict s result = .ok x) :
    ∃ s', lirsQEvict s result = .ok (s', { result with
        oldOblock := (s.nucleus.entry r).oblock
        dirtyEviction := (s.nucleus.entry r).dirty }) ∧ s.Evicted r s' := by
  obtain ⟨hset, hp, hhir⟩ := h.of_mem_q (r := r) (by rw [hq]; exact List.mem_cons_self)
  by_cases hrs : r ∈ s.s
  · have hok' : 0 < (s.nucleus.pool .metadata).nrEntries ∨
        ∃ s', lirsReplaceWithMeta s r = .ok s' := by
      refine hok.imp_right fun hx => ?_
      obtain ⟨x, hx⟩ := hx
      simp only [lirsQEvict, hq, queuePeek_cons, deref_some, ok_bind, hrs, if_true] at hx
      obtain ⟨s', hs', _⟩ := bind_eq_ok.mp hx
      exact ⟨s', hs'⟩
    obtain ⟨s', hrun, he⟩ := lirsReplaceWithMeta_case h hrs hhir hp hok'
    exact ⟨s', by simp [lirsQEvict, hq, hrs, hrun], he⟩
  · obtain ⟨s', hrun, hf⟩ := lirsRemoveEntry_spec h hset.1
    exact ⟨s', by simp [lirsQEvict, hq, hrs, hrun], hf.evicted hp⟩

end Fomo
