import Fomo.Sim.SimLirHirCount

/-!
# Runs of the LIR and HIR counts

The tracker is related to the last blocks and to the accesses each of them has had. Each part of an
update changes the accesses of one block, or the blocks.
-/
namespace Fomo

open Lib (mostRecent)

namespace LirHirTracker

/-- The tracker has the blocks `recent`, accessed as `heat` says. -/
structure Holds (recent : List Oblock) (heat : Oblock → Nat) (h : LirHirTracker) : Prop where
  table : h.table.Tracks recent.toFinset
  queue : h.q.map h.table.oblock = recent
  q_ht : ∀ i ∈ h.q, i ∈ h.table.ht
  nodup : recent.Nodup
  inCache_iff : ∀ i ∈ h.table.ht, h.inCache i = true ↔ 0 < heat (h.table.oblock i)
  freq_eq : ∀ i ∈ h.table.ht, h.freq i = heat (h.table.oblock i)
  hir : h.hirCount = (heated (fun v => decide (v = 1)) recent.toFinset heat).card
  lir : h.lirCount = (heated (fun v => decide (v > 1)) recent.toFinset heat).card

variable {h h' h1 : LirHirTracker} {recent rest : List Oblock} {heat heat' : Oblock → Nat}
  {o b : Oblock} {i j n v : Nat}

/-- Only the accesses to the blocks of the queue matter. -/
theorem Holds.congr (H : h.Holds recent heat) (heq : ∀ a ∈ recent, heat' a = heat a) :
    h.Holds recent heat' := by
  have hcount : ∀ p, heated p recent.toFinset heat' = heated p recent.toFinset heat := by
    intro p
    refine Finset.filter_congr fun a ha => ?_
    rw [heq a (List.mem_toFinset.mp ha)]
  have hob : ∀ i ∈ h.table.ht, h.table.oblock i ∈ recent := fun i hi =>
    List.mem_toFinset.mp (H.table.mem_tracked hi)
  refine ⟨H.table, H.queue, H.q_ht, H.nodup, fun i hi => ?_, fun i hi => ?_, ?_, ?_⟩
  · rw [heq _ (hob i hi)]
    exact H.inCache_iff i hi
  · rw [heq _ (hob i hi)]
    exact H.freq_eq i hi
  · rw [hcount]
    exact H.hir
  · rw [hcount]
    exact H.lir

theorem Holds.mem_recent (H : h.Holds recent heat) (hi : i ∈ h.table.ht) :
    h.table.oblock i ∈ recent := List.mem_toFinset.mp (H.table.mem_tracked hi)

theorem Holds.length_eq (H : h.Holds recent heat) :
    recent.length = h.table.entryPool.nrAllocated := by
  rw [← H.table.card_eq, List.toFinset_card_of_nodup H.nodup]

/-- The counters are those of blocks in the pool. -/
theorem Holds.heated_lt (H : h.Holds recent heat) (p : Nat → Bool) (f : Oblock → Nat) :
    (heated p recent.toFinset f).card < 2 ^ 32 := by
  have hle : (heated p recent.toFinset f).card ≤ recent.toFinset.card := Finset.card_filter_le _ _
  have hpool : h.table.entryPool.Wf := HoardTracker.Table.pool H.table
  have hnr := hpool.nr_allocated
  have hlt := hpool.nr_lt
  rw [H.table.card_eq] at hle
  omega

/-! ## One block -/

/-- An entry with another number of accesses, when the counters follow. -/
theorem Holds.set (H : h.Holds recent heat) (hi : i ∈ h.table.ht) (hob : h.table.oblock i = o)
    (htable : h'.table = h.table) (hq : h'.q = h.q)
    (hin : h'.inCache = Function.update h.inCache i (decide (0 < v)))
    (hfreq : h'.freq = Function.update h.freq i v)
    (hhir : h'.hirCount =
      (heated (fun v => decide (v = 1)) recent.toFinset (Function.update heat o v)).card)
    (hlir : h'.lirCount =
      (heated (fun v => decide (v > 1)) recent.toFinset (Function.update heat o v)).card) :
    h'.Holds recent (Function.update heat o v) := by
  have hne : ∀ j ∈ h.table.ht, j ≠ i → h.table.oblock j ≠ o := fun j hj hji heq =>
    hji (H.table.inj hj hi (heq.trans hob.symm))
  refine ⟨htable ▸ H.table, ?_, ?_, H.nodup, fun j hj => ?_, fun j hj => ?_, hhir, hlir⟩
  · rw [hq, htable]
    exact H.queue
  · rw [hq, htable]
    exact H.q_ht
  · rw [htable] at hj ⊢
    rw [hin]
    by_cases hji : j = i
    · rw [hji, Function.update_self, hob, Function.update_self, decide_eq_true_eq]
    · rw [Function.update_of_ne hji, Function.update_of_ne (hne j hj hji)]
      exact H.inCache_iff j hj
  · rw [htable] at hj ⊢
    rw [hfreq]
    by_cases hji : j = i
    · rw [hji, Function.update_self, hob, Function.update_self]
    · rw [Function.update_of_ne hji, Function.update_of_ne (hne j hj hji)]
      exact H.freq_eq j hj

/-- The counters before and after a block has another number of accesses. -/
theorem Holds.counts (H : h.Holds recent heat) (ho : o ∈ recent) (v : Nat) :
    ∃ hir lir, hir < 2 ^ 32 ∧ lir < 2 ^ 32 ∧
      h.hirCount = hir + (if heat o = 1 then 1 else 0) ∧
      h.lirCount = lir + (if heat o > 1 then 1 else 0) ∧
      (heated (fun v => decide (v = 1)) recent.toFinset (Function.update heat o v)).card =
        hir + (if v = 1 then 1 else 0) ∧
      (heated (fun v => decide (v > 1)) recent.toFinset (Function.update heat o v)).card =
        lir + (if v > 1 then 1 else 0) ∧
      h.hirCount < 2 ^ 32 ∧ h.lirCount < 2 ^ 32 ∧
      hir + (if v = 1 then 1 else 0) < 2 ^ 32 ∧ lir + (if v > 1 then 1 else 0) < 2 ^ 32 := by
  have ho := List.mem_toFinset.mpr ho
  have hir := heated_card_erase (fun v => decide (v = 1)) heat ho
  have lir := heated_card_erase (fun v => decide (v > 1)) heat ho
  have hir' := heated_card_update (fun v => decide (v = 1)) heat ho v
  have lir' := heated_card_update (fun v => decide (v > 1)) heat ho v
  have hlt := H.heated_lt (fun v => decide (v = 1)) heat
  have hlt2 := H.heated_lt (fun v => decide (v > 1)) heat
  have hlt3 := H.heated_lt (fun v => decide (v = 1)) (Function.update heat o v)
  have hlt4 := H.heated_lt (fun v => decide (v > 1)) (Function.update heat o v)
  rw [← H.hir] at hir hlt
  rw [← H.lir] at lir hlt2
  simp only [decide_eq_true_eq] at hir lir hir' lir'
  rw [hir'] at hlt3
  rw [lir'] at hlt4
  exact ⟨_, _, by omega, by omega, hir, lir, hir', lir', hlt, hlt2, hlt3, hlt4⟩

/-- The members that change when an entry is no longer counted. -/
theorem lirHirUncount_eq (h : LirHirTracker) (i : Nat) : lirHirUncount h i = { h with
    inCache := Function.update h.inCache i false
    freq := Function.update h.freq i 0
    hirCount := if h.freq i = 1 then dec32 h.hirCount else h.hirCount
    lirCount := if h.freq i = 1 then h.lirCount
      else if h.freq i > 1 then dec32 h.lirCount else h.lirCount } := by
  unfold lirHirUncount
  split
  · rfl
  · split
    · rfl
    · rfl

/-- A block that is no longer counted. -/
theorem Holds.uncount (H : h.Holds recent heat) (hi : i ∈ h.table.ht)
    (hob : h.table.oblock i = o) :
    (lirHirUncount h i).Holds recent (Function.update heat o 0) := by
  obtain ⟨hir, lir, hhlt, hllt, hh, hl, hh', hl', hh32, hl32, _⟩ :=
    H.counts (hob ▸ H.mem_recent hi) 0
  have hf : h.freq i = heat o := by rw [H.freq_eq i hi, hob]
  rw [if_neg (by decide), Nat.add_zero] at hh' hl'
  rw [lirHirUncount_eq]
  refine H.set hi hob rfl rfl rfl rfl ?_ ?_
  · dsimp only
    rw [hh', hf]
    by_cases h1 : heat o = 1
    · rw [if_pos h1] at hh ⊢
      rw [dec32_of_pos (by omega) (by omega)]
      omega
    · rw [if_neg h1] at hh ⊢
      exact hh
  · dsimp only
    rw [hl', hf]
    by_cases h1 : heat o = 1
    · rw [if_neg (by omega)] at hl
      rw [if_pos h1]
      exact hl
    · rw [if_neg h1]
      by_cases h2 : heat o > 1
      · rw [if_pos h2] at hl ⊢
        rw [dec32_of_pos (by omega) (by omega)]
        omega
      · rw [if_neg h2] at hl ⊢
        exact hl

/-- A block that had no accesses has its first one. -/
theorem Holds.enter (H : h.Holds recent heat) (hi : i ∈ h.table.ht) (hob : h.table.oblock i = o)
    (hzero : heat o = 0) : (lirHirEnter h i).Holds recent (Function.update heat o 1) := by
  obtain ⟨hir, lir, hhlt, hllt, hh, hl, hh', hl', hh32, hl32, hh3, hl3⟩ :=
    H.counts (hob ▸ H.mem_recent hi) 1
  rw [if_neg (by omega)] at hh hl
  rw [if_pos rfl] at hh' hh3
  refine H.set hi hob rfl rfl rfl rfl ?_ ?_
  · show u32 (h.hirCount + 1) = _
    rw [hh', hh]
    exact u32_of_lt hh3
  · show h.lirCount = _
    rw [hl', hl, if_neg (by decide)]

/-- A further access to a cached block. -/
theorem Holds.again (H : h.Holds recent heat) (hi : i ∈ h.table.ht) (hob : h.table.oblock i = o)
    (hpos : 0 < heat o) (hlt : heat o + 1 < 2 ^ 32) :
    (lirHirHit h i true).Holds recent (Function.update heat o (heat o + 1)) := by
  obtain ⟨hir, lir, hhlt, hllt, hh, hl, hh', hl', hh32, hl32, hh3, hl3⟩ :=
    H.counts (hob ▸ H.mem_recent hi) (heat o + 1)
  have hf : u32 (h.freq i + 1) = heat o + 1 := by
    rw [H.freq_eq i hi, hob, u32_of_lt hlt]
  have hin : h.inCache i = true := (H.inCache_iff i hi).mpr (hob ▸ hpos)
  have hdec : decide (0 < heat o + 1) = true := by simp
  by_cases h2 : heat o = 1
  · rw [if_pos h2] at hh
    rw [if_neg (by omega)] at hl
    rw [if_neg (by omega)] at hh' hh3
    rw [if_pos (by omega)] at hl' hl3
    have hrun : lirHirHit h i true = { lirHirSet h i true (heat o + 1) with
        hirCount := hir, lirCount := lir + 1 } := by
      simp only [lirHirHit, Bool.not_true, Bool.false_eq_true, if_false, hin, if_true, hf]
      rw [if_pos (by omega)]
      simp only [lirHirSet, hh, hl, LirHirTracker.mk.injEq, true_and]
      exact ⟨by rw [Nat.add_zero]; exact u32_of_lt hl3, by
        rw [dec32_of_pos (by omega) (by omega)]; omega⟩
    rw [hrun]
    exact H.set hi hob rfl rfl (by rw [hdec]; rfl) rfl hh'.symm hl'.symm
  · have hrun : lirHirHit h i true = lirHirSet h i true (heat o + 1) := by
      simp only [lirHirHit, Bool.not_true, Bool.false_eq_true, if_false, hin, if_true, hf]
      rw [if_neg (by omega)]
    rw [if_neg h2] at hh
    rw [if_pos (by omega)] at hl
    rw [if_neg (by omega)] at hh'
    rw [if_pos (by omega)] at hl'
    rw [hrun]
    exact H.set hi hob rfl rfl (by rw [hdec]; rfl) rfl (hh.trans hh'.symm) (hl.trans hl'.symm)

/-- A block that is not cached. -/
theorem Holds.clear (H : h.Holds recent heat) (hi : i ∈ h.table.ht) (hob : h.table.oblock i = o)
    (hzero : heat o = 0) : (lirHirSet h i false 0).Holds recent heat := by
  have hsame : Function.update heat o 0 = heat := by rw [← hzero, Function.update_eq_self]
  have H' : (lirHirSet h i false 0).Holds recent (Function.update heat o 0) := by
    refine H.set hi hob rfl rfl rfl rfl ?_ ?_
    · rw [hsame]
      exact H.hir
    · rw [hsame]
      exact H.lir
  rwa [hsame] at H'

/-! ## The queue -/

/-- The block at the head of the queue loses its entry. -/
theorem Holds.evict (H : h.Holds (b :: rest) heat) : ∃ h', lirHirEvict h = .ok h' ∧
    h'.Holds rest heat ∧ h'.table.entryPool.nrEntries = h.table.entryPool.nrEntries := by
  obtain ⟨hout, hnodup⟩ := List.nodup_cons.mp H.nodup
  have hqueue := H.queue
  cases hq : h.q with
  | nil =>
    rw [hq] at hqueue
    cases hqueue
  | cons i q =>
    rw [hq, List.map_cons] at hqueue
    obtain ⟨hob, hrest⟩ := List.cons.inj hqueue
    have hi : i ∈ h.table.ht := H.q_ht i (by rw [hq]; exact List.mem_cons_self)
    have H0 := H.uncount hi hob
    rw [lirHirUncount_eq] at H0
    obtain ⟨table, hrun, htab, hnr, hht, hobt⟩ := H.table.remove hi
    have hmem : ∀ x, x ∈ table.ht ↔ x ≠ i ∧ x ∈ h.table.ht := fun x => by
      rw [hht]
      exact H.table.nodup.mem_erase_iff
    have hb : b ∈ (b :: rest).toFinset := List.mem_toFinset.mpr List.mem_cons_self
    have hset : (b :: rest).toFinset.erase b = rest.toFinset := by
      rw [List.toFinset_cons, Finset.erase_insert]
      exact fun hx => hout (List.mem_toFinset.mp hx)
    -- a block without accesses is in no count
    have hcount : ∀ p : Nat → Bool, p 0 = false →
        (heated p (b :: rest).toFinset (Function.update heat b 0)).card =
          (heated p rest.toFinset (Function.update heat b 0)).card := by
      intro p hp
      rw [heated_card_erase p _ hb, hset, Function.update_self, if_neg (by simp [hp])]
      rfl
    rw [hob, hset] at htab
    rw [lirHirEvict, hq, List.head?_cons, deref_some, ok_bind, List.tail_cons, lirHirUncount_eq]
    dsimp only
    rw [hrun, ok_bind]
    have Hrest : ({ h with
        table := table
        q := q
        freq := Function.update h.freq i 0
        inCache := Function.update h.inCache i false
        hirCount := if h.freq i = 1 then dec32 h.hirCount else h.hirCount
        lirCount := if h.freq i = 1 then h.lirCount
          else if h.freq i > 1 then dec32 h.lirCount else h.lirCount } : LirHirTracker).Holds rest
          (Function.update heat b 0) := by
      refine ⟨htab, ?_, fun x hx => ?_, hnodup, fun x hx => ?_, fun x hx => ?_,
        H0.hir.trans (hcount _ (by decide)), H0.lir.trans (hcount _ (by decide))⟩
      · rw [hobt]
        exact hrest
      · refine (hmem x).mpr ⟨?_, H.q_ht x (by rw [hq]; exact List.mem_cons_of_mem _ hx)⟩
        rintro rfl
        exact hout (hrest ▸ hob ▸ List.mem_map_of_mem hx)
      · rw [hobt]
        exact H0.inCache_iff x ((hmem x).mp hx).2
      · rw [hobt]
        exact H0.freq_eq x ((hmem x).mp hx).2
    refine ⟨_, rfl, Hrest.congr fun a ha => ?_, hnr⟩
    rw [Function.update_of_ne]
    rintro rfl
    exact hout ha

/-- A new entry at the end of the queue. -/
theorem Holds.append (H : h.Holds recent heat) (ho : o ∉ recent)
    (hroom : recent.length < h.table.entryPool.nrEntries) : ∃ table i,
    h.table.alloc o = some (table, i) ∧
      ({ h with
          table := table
          q := h.q ++ [i]
          inCache := Function.update h.inCache i false
          freq := Function.update h.freq i 0 } : LirHirTracker).Holds (recent ++ [o])
        (Function.update heat o 0) ∧
      table.entryPool.nrEntries = h.table.entryPool.nrEntries ∧ i ∈ table.ht ∧
      table.oblock i = o := by
  have ho' : o ∉ recent.toFinset := fun hx => ho (List.mem_toFinset.mp hx)
  obtain ⟨table, i, halloc, htab, hnr, hht, hni, hob⟩ := H.table.alloc ho'
    (by rwa [List.toFinset_card_of_nodup H.nodup])
  have hself : table.oblock i = o := by rw [hob, Function.update_self]
  have hne : ∀ j ∈ h.table.ht, j ≠ i := by
    rintro j hj rfl
    exact hni hj
  have hother : ∀ j ∈ h.table.ht, table.oblock j = h.table.oblock j := fun j hj => by
    rw [hob, Function.update_of_ne (hne j hj)]
  have hobo : ∀ j ∈ h.table.ht, h.table.oblock j ≠ o := fun j hj heq =>
    ho (heq ▸ H.mem_recent hj)
  have hset : (recent ++ [o]).toFinset = insert o recent.toFinset := by
    ext a
    rw [List.mem_toFinset, List.mem_append, List.mem_singleton, Finset.mem_insert,
      List.mem_toFinset, or_comm]
  have hcount : ∀ p : Nat → Bool, p 0 = false → (heated p recent.toFinset heat).card =
      (heated p (recent ++ [o]).toFinset (Function.update heat o 0)).card := by
    intro p hp
    rw [hset, heated_card_update p heat (Finset.mem_insert_self o _), Finset.erase_insert ho',
      if_neg (by simp [hp])]
    rfl
  have hi : i ∈ table.ht := by
    rw [hht]
    exact List.mem_cons_self
  refine ⟨table, i, halloc, ⟨hset ▸ htab, ?_, fun x hx => ?_, ?_, fun x hx => ?_, fun x hx => ?_,
    H.hir.trans (hcount _ (by decide)), H.lir.trans (hcount _ (by decide))⟩, hnr, hi, hself⟩
  · rw [List.map_append, List.map_singleton, hself, ← H.queue]
    exact congrArg (· ++ [o]) (List.map_congr_left fun j hj => hother j (H.q_ht j hj))
  · rw [hht]
    rcases List.mem_append.mp hx with hx | hx
    · exact List.mem_cons_of_mem _ (H.q_ht x hx)
    · rw [List.mem_singleton.mp hx]
      exact List.mem_cons_self
  · refine List.nodup_append.mpr ⟨H.nodup, List.nodup_singleton o, fun a ha x hx => ?_⟩
    rw [List.mem_singleton.mp hx]
    rintro rfl
    exact ho ha
  · have hx : x ∈ table.ht := hx
    rw [hht] at hx
    rcases List.mem_cons.mp hx with rfl | hx
    · simp [hself]
    · dsimp only
      rw [Function.update_of_ne (hne x hx), hother x hx, Function.update_of_ne (hobo x hx)]
      exact H.inCache_iff x hx
  · have hx : x ∈ table.ht := hx
    rw [hht] at hx
    rcases List.mem_cons.mp hx with rfl | hx
    · simp [hself]
    · dsimp only
      rw [Function.update_of_ne (hne x hx), hother x hx, Function.update_of_ne (hobo x hx)]
      exact H.freq_eq x hx

/-- A block that has an entry goes to the end of the queue. -/
theorem Holds.renew (H : h.Holds recent heat) (hi : i ∈ h.table.ht)
    (hob : h.table.oblock i = o) :
    ({ h with q := h.q.erase i ++ [i] } : LirHirTracker).Holds (recent.erase o ++ [o]) heat := by
  have ho : o ∈ recent := hob ▸ H.mem_recent hi
  have hiq : i ∈ h.q := by
    rw [← H.queue, List.mem_map] at ho
    obtain ⟨j, hj, heq⟩ := ho
    exact H.table.inj (H.q_ht j hj) hi (heq.trans hob.symm) ▸ hj
  have hset : (recent.erase o ++ [o]).toFinset = recent.toFinset := by
    ext a
    rw [List.mem_toFinset, List.mem_append, List.mem_singleton, List.mem_toFinset,
      H.nodup.mem_erase_iff]
    by_cases ha : a = o
    · simp [ha, ho]
    · simp [ha]
  refine ⟨hset ▸ H.table, ?_, fun x hx => ?_, ?_, H.inCache_iff, H.freq_eq, hset ▸ H.hir,
    hset ▸ H.lir⟩
  · rw [List.map_append, Lib.map_erase_of_nodup (by rw [H.queue]; exact H.nodup) hiq, H.queue, hob]
    exact congrArg (_ ++ ·) (congrArg (fun a => [a]) hob)
  · rcases List.mem_append.mp hx with hx | hx
    · exact H.q_ht x (List.mem_of_mem_erase hx)
    · rw [List.mem_singleton.mp hx]
      exact hi
  · refine List.nodup_append.mpr ⟨H.nodup.erase o, List.nodup_singleton o, fun a ha x hx => ?_⟩
    rw [List.mem_singleton.mp hx]
    rintro rfl
    exact H.nodup.not_mem_erase ha

/-! ## Updates -/

/-- The entry of the accessed block is the last one of the queue. -/
theorem Holds.access (H : h.Holds recent heat) (hpos : 0 < h.table.entryPool.nrEntries)
    (o : Oblock) : ∃ h' i, lirHirAccess h o = .ok (h', i, decide (o ∈ recent)) ∧
      h'.Holds (Lib.trim h.table.entryPool.nrEntries (recent.erase o ++ [o]))
        (if o ∈ recent then heat else Function.update heat o 0) ∧
      h'.table.entryPool.nrEntries = h.table.entryPool.nrEntries ∧ i ∈ h'.table.ht ∧
      h'.table.oblock i = o := by
  have hlen := H.length_eq
  have hpool : h.table.entryPool.Wf := HoardTracker.Table.pool H.table
  have hnr := hpool.nr_allocated
  rw [lirHirAccess]
  by_cases ho : o ∈ recent
  · obtain ⟨i, hl, hi, hob⟩ := H.table.exists_lookup (List.mem_toFinset.mpr ho)
    have herase := List.length_erase_of_mem ho
    have hshort : ¬(recent.erase o ++ [o]).length > h.table.entryPool.nrEntries := by
      rw [List.length_append, herase, List.length_singleton]
      omega
    rw [hl, if_pos ho, decide_eq_true ho, Lib.trim, if_neg hshort]
    exact ⟨_, i, rfl, H.renew hi hob, rfl, hi, hob⟩
  · have hl : h.table.lookup o = none :=
      H.table.lookup_eq_none.mpr fun hx => ho (List.mem_toFinset.mp hx)
    rw [hl, if_neg ho, decide_eq_false ho, List.erase_of_not_mem ho]
    have hlast : ∃ h1 rest, lirHirMakeRoom h = .ok h1 ∧ h1.Holds rest heat ∧
        h1.table.entryPool.nrEntries = h.table.entryPool.nrEntries ∧ o ∉ rest ∧
        rest.length < h.table.entryPool.nrEntries ∧
        Lib.trim h.table.entryPool.nrEntries (recent ++ [o]) = rest ++ [o] := by
      cases hfree : h.table.entryPool.free with
      | nil =>
        rw [hfree, List.length_nil] at hnr
        cases hrecent : recent with
        | nil =>
          rw [hrecent, List.length_nil] at hlen
          omega
        | cons b rest =>
          subst hrecent
          obtain ⟨h1, hrun, H1, hnr1⟩ := H.evict
          have hshort : rest.length + 1 = h.table.entryPool.nrAllocated := hlen
          have hlong : (b :: rest ++ [o]).length > h.table.entryPool.nrEntries := by
            rw [List.length_append, List.length_cons, List.length_singleton]
            omega
          rw [lirHirMakeRoom, if_pos (by rw [epoolEmpty, hfree]; rfl), Lib.trim, if_pos hlong]
          exact ⟨h1, rest, hrun, H1, hnr1, fun hx => ho (List.mem_cons_of_mem b hx), by omega, rfl⟩
      | cons x free =>
        rw [hfree, List.length_cons] at hnr
        have hshort : ¬(recent ++ [o]).length > h.table.entryPool.nrEntries := by
          rw [List.length_append, List.length_singleton]
          omega
        rw [lirHirMakeRoom, if_neg (by simp [epoolEmpty, hfree]), Lib.trim, if_neg hshort]
        exact ⟨h, recent, rfl, H, rfl, ho, by omega, rfl⟩
    obtain ⟨h1, rest, hrun, H1, hnr1, ho1, hroom, htrim⟩ := hlast
    obtain ⟨table, i, halloc, H2, hnr2, hi, hob⟩ := H1.append ho1 (by rw [hnr1]; exact hroom)
    dsimp only
    rw [hrun, ok_bind, halloc, htrim]
    exact ⟨_, i, rfl, H2, hnr2.trans hnr1, hi, hob⟩

/-- The victim of a replacement is no longer counted, if it has an entry. -/
theorem Holds.forget (H : h.Holds recent heat) (o : Oblock) :
    (lirHirForget h o).Holds recent (Function.update heat o 0) ∧
      (lirHirForget h o).table = h.table := by
  rw [lirHirForget]
  by_cases ho : o ∈ recent
  · obtain ⟨i, hl, hi, hob⟩ := H.table.exists_lookup (List.mem_toFinset.mpr ho)
    rw [hl]
    exact ⟨H.uncount hi hob, by dsimp only; rw [lirHirUncount_eq]⟩
  · rw [H.table.lookup_eq_none.mpr fun hx => ho (List.mem_toFinset.mp hx)]
    refine ⟨H.congr fun a ha => ?_, rfl⟩
    rw [Function.update_of_ne]
    rintro rfl
    exact ho ha

/-- One update, for an access of a cache that holds the blocks with accesses. -/
theorem Holds.update {m : Nat} {cached : Finset Oblock} {a : HoardAccess} (H : h.Holds recent heat)
    (hpos : 0 < h.table.entryPool.nrEntries) (hs : Serves m cached a)
    (hcached : ∀ o, 0 < heat o ↔ o ∈ cached) (hlt : heat a.1 + 1 < 2 ^ 32) :
    ∃ h', lirHirTrackerUpdate h a.1 a.2 = .ok h' ∧
      h'.Holds (Lib.trim h.table.entryPool.nrEntries (recent.erase a.1 ++ [a.1]))
        (heatStep recent heat a) ∧
      h'.table.entryPool.nrEntries = h.table.entryPool.nrEntries := by
  obtain ⟨o, result⟩ := a
  dsimp only at hlt ⊢
  obtain ⟨h1, i, hrun, H1, hnr, hi, hob⟩ := H.access hpos o
  have hzero : o ∉ cached → heat o = 0 := fun ho => by
    have hno := mt (hcached o).mp ho
    omega
  -- a block that is not cached has no accesses, whether it was known or not
  have hsame : o ∉ cached → h1.Holds (Lib.trim h.table.entryPool.nrEntries (recent.erase o ++ [o]))
      heat := fun ho => by
    by_cases hrec : o ∈ recent
    · rwa [if_pos hrec] at H1
    · rwa [if_neg hrec, ← hzero ho, Function.update_eq_self] at H1
  rw [lirHirTrackerUpdate, hrun, ok_bind]
  unfold Serves at hs
  unfold heatStep
  cases hop : result.op with
  | hit =>
    simp only [hop] at hs ⊢
    by_cases hrec : o ∈ recent
    · rw [if_pos hrec] at H1
      rw [if_pos hrec, decide_eq_true hrec]
      have H2 := H1.again hi hob ((hcached o).mpr hs) hlt
      refine ⟨_, rfl, H2, ?_⟩
      rw [← hnr]
      unfold lirHirHit
      simp only [Bool.not_true, Bool.false_eq_true, if_false]
      split
      · split
        · rfl
        · rfl
      · rfl
    · rw [if_neg hrec] at H1
      rw [if_neg hrec, decide_eq_false hrec]
      have H2 := H1.enter hi hob (Function.update_self ..)
      rw [Function.update_idem] at H2
      exact ⟨_, rfl, H2, hnr⟩
  | filter =>
    simp only [hop] at hs ⊢
    exact ⟨_, rfl, (hsame hs).clear hi hob (hzero hs), hnr⟩
  | fail =>
    simp only [hop] at hs ⊢
    exact ⟨_, rfl, (hsame hs).clear hi hob (hzero hs), hnr⟩
  | new =>
    simp only [hop] at hs ⊢
    exact ⟨_, rfl, (hsame hs.1).enter hi hob (hzero hs.1), hnr⟩
  | replace =>
    simp only [hop] at hs ⊢
    obtain ⟨H2, htable⟩ := (hsame hs.1).forget result.oldOblock
    have hne : o ≠ result.oldOblock := fun heq => hs.1 (heq ▸ hs.2)
    have H3 := H2.enter (htable ▸ hi) (htable ▸ hob)
      ((Function.update_of_ne hne _ _).trans (hzero hs.1))
    refine ⟨_, rfl, H3, ?_⟩
    show (lirHirForget h1 _).table.entryPool.nrEntries = _
    rw [htable, hnr]

/-! ## Runs -/

/-- The tracker after the accesses `t`. -/
structure Follows (n : Nat) (t : List HoardAccess) (h : LirHirTracker) : Prop where
  holds : h.Holds (mostRecent n (t.map Prod.fst)) (lirHirTrace n t).2
  nrEntries : h.table.entryPool.nrEntries = n

end LirHirTracker

open LirHirTracker

variable {n m : Nat} {t : List HoardAccess} {a : HoardAccess} {heat : Oblock → Nat}
  {cached : Finset Oblock} {recent : List Oblock}

theorem lirHirTrace_concat (n : Nat) (t : List HoardAccess) (a : HoardAccess) :
    lirHirTrace n (t ++ [a]) = (Lib.trim n ((lirHirTrace n t).1.erase a.1 ++ [a.1]),
      heatStep (lirHirTrace n t).1 (lirHirTrace n t).2 a) := by
  rw [lirHirTrace, List.foldl_concat]
  rfl

/-- The blocks are those accessed last. -/
theorem lirHirTrace_fst (n : Nat) (t : List HoardAccess) :
    (lirHirTrace n t).1 = mostRecent n (t.map Prod.fst) := by
  induction t using List.reverseRecOn with
  | nil => simp [lirHirTrace, mostRecent, List.rtake]
  | append_singleton t a ih =>
    rw [lirHirTrace_concat, List.map_append, List.map_singleton, Lib.mostRecent_concat_trim, ih]

/-- The cached blocks keep on being those with accesses. -/
theorem heatStep_pos (hs : Serves m cached a) (hcached : ∀ o, 0 < heat o ↔ o ∈ cached)
    (o : Oblock) : 0 < heatStep recent heat a o ↔ o ∈ cachedStep cached a := by
  unfold Serves at hs
  unfold heatStep cachedStep
  cases hop : a.2.op with
  | filter => exact hcached o
  | fail => exact hcached o
  | hit =>
    simp only [hop] at hs ⊢
    by_cases ho : o = a.1
    · rw [ho, Function.update_self]
      refine iff_of_true ?_ hs
      split
      · omega
      · omega
    · rw [Function.update_of_ne ho]
      exact hcached o
  | new =>
    dsimp only
    rw [Finset.mem_insert]
    by_cases ho : o = a.1
    · rw [ho, Function.update_self]
      simp
    · rw [Function.update_of_ne ho, hcached]
      simp [ho]
  | replace =>
    dsimp only
    rw [Finset.mem_insert, Finset.mem_erase]
    by_cases ho : o = a.1
    · rw [ho, Function.update_self]
      simp
    · rw [Function.update_of_ne ho]
      by_cases hold : o = a.2.oldOblock
      · rw [hold, Function.update_self]
        simp [hold ▸ ho]
      · rw [Function.update_of_ne hold, hcached]
        simp [ho, hold]

theorem heatStep_le (recent : List Oblock) (hle : ∀ o, heat o ≤ n) (a : HoardAccess) (o : Oblock) :
    heatStep recent heat a o ≤ n + 1 := by
  have hupd : ∀ {f : Oblock → Nat} (b : Oblock) (v : Nat), (∀ o, f o ≤ n + 1) → v ≤ n + 1 →
      Function.update f b v o ≤ n + 1 := by
    intro f b v hf hv
    rw [Function.update_apply]
    split
    · exact hv
    · exact hf o
  have hheat : ∀ o, heat o ≤ n + 1 := fun o => (hle o).trans (Nat.le_succ n)
  unfold heatStep
  cases hop : a.2.op with
  | filter => exact hheat o
  | fail => exact hheat o
  | new => exact hupd _ _ hheat (by omega)
  | hit =>
    refine hupd _ _ hheat ?_
    split
    · exact Nat.succ_le_succ (hle a.1)
    · omega
  | replace =>
    refine hupd _ _ (fun x => ?_) (by omega)
    rw [Function.update_apply]
    split
    · omega
    · exact hheat x

theorem lirHirTrace_pos (hc : Consistent m t) (o : Oblock) :
    0 < (lirHirTrace n t).2 o ↔ o ∈ hoardCached t := by
  induction hc generalizing o with
  | nil => simp [lirHirTrace, hoardCached]
  | @snoc t a _ hs ih =>
    rw [lirHirTrace_concat, HoardTracker.hoardCached_concat]
    exact heatStep_pos hs ih o

theorem lirHirTrace_le (n : Nat) (t : List HoardAccess) (o : Oblock) :
    (lirHirTrace n t).2 o ≤ t.length := by
  induction t using List.reverseRecOn generalizing o with
  | nil => simp [lirHirTrace]
  | append_singleton t a ih =>
    rw [lirHirTrace_concat, List.length_append, List.length_singleton]
    exact heatStep_le _ ih a o

theorem LirHirTracker.Follows.step {h : LirHirTracker} (H : h.Follows n t) (hn : 0 < n)
    (hc : Consistent m t) (hs : Serves m (hoardCached t) a) (hlt : t.length + 1 < 2 ^ 32) :
    ∃ h', lirHirTrackerUpdate h a.1 a.2 = .ok h' ∧ h'.Follows n (t ++ [a]) := by
  have hheat := lirHirTrace_le n t a.1
  obtain ⟨h', hrun, H', hnr⟩ := H.holds.update (by rw [H.nrEntries]; exact hn) hs
    (lirHirTrace_pos hc) (by omega)
  refine ⟨h', hrun, ?_, hnr.trans H.nrEntries⟩
  rw [H.nrEntries, ← Lib.mostRecent_concat_trim] at H'
  rw [List.map_append, List.map_singleton, lirHirTrace_concat, lirHirTrace_fst]
  exact H'

theorem lirHirRun_concat {h0 h h' : LirHirTracker} (hrun : lirHirRun h0 t = .ok h)
    (hstep : lirHirTrackerUpdate h a.1 a.2 = .ok h') : lirHirRun h0 (t ++ [a]) = .ok h' := by
  rw [lirHirRun, List.foldlM_append]
  show lirHirRun h0 t >>= _ = _
  rw [hrun, ok_bind, List.foldlM_cons, hstep, ok_bind]
  rfl

theorem LirHirTracker.Follows.run {h0 : LirHirTracker} (H0 : h0.Follows n []) (hn : 0 < n)
    (hc : Consistent m t) (hlt : t.length < 2 ^ 32) :
    ∃ h, lirHirRun h0 t = .ok h ∧ h.Follows n t := by
  induction hc with
  | nil => exact ⟨h0, rfl, H0⟩
  | @snoc t a hc hs ih =>
    rw [List.length_append, List.length_singleton] at hlt
    obtain ⟨h, hrun, H⟩ := ih (by omega)
    obtain ⟨h', hstep, H'⟩ := H.step hn hc hs hlt
    exact ⟨h', lirHirRun_concat hrun hstep, H'⟩

theorem lirHirTrackerInit_follows (cacheSize : UInt32) : ∃ h0,
    lirHirTrackerInit cacheSize = .ok h0 ∧ h0.Follows cacheSize.toNat [] := by
  obtain ⟨table, hinit, htab, hnr, hht⟩ := EntryTable.init_spec cacheSize.toNat_lt
  have hnil : mostRecent cacheSize.toNat (([] : List HoardAccess).map Prod.fst) = [] := by
    simp [mostRecent, List.rtake]
  refine ⟨_, by rw [lirHirTrackerInit, hinit]; rfl, ?_, hnr⟩
  rw [hnil]
  refine ⟨htab, rfl, fun i hi => ?_, List.nodup_nil, fun i hi => ?_, fun i hi => ?_, rfl, rfl⟩
  · cases hi
  · rw [hht] at hi
    cases hi
  · rw [hht] at hi
    cases hi

/-- For the accesses of a cache, the two counters are the numbers of the blocks, among the last
`cache_size` accessed, that have been accessed once and more than once since they came into the
cache or back among these blocks. -/
theorem lirHirTracker_exact (cacheSize : UInt32) (hpos : 0 < cacheSize.toNat) (m : Nat)
    (t : List HoardAccess) (hc : Consistent m t) (hlt : t.length < 2 ^ 32) :
    ∃ h0 h, lirHirTrackerInit cacheSize = .ok h0 ∧ lirHirRun h0 t = .ok h ∧
      h.hirCount = (heated (fun v => decide (v = 1))
        (mostRecent cacheSize.toNat (t.map Prod.fst)).toFinset
        (lirHirTrace cacheSize.toNat t).2).card ∧
      h.lirCount = (heated (fun v => decide (v > 1))
        (mostRecent cacheSize.toNat (t.map Prod.fst)).toFinset
        (lirHirTrace cacheSize.toNat t).2).card := by
  obtain ⟨h0, hinit, H0⟩ := lirHirTrackerInit_follows cacheSize
  obtain ⟨h, hrun, H⟩ := H0.run hpos hc hlt
  exact ⟨h0, h, hinit, hrun, H.holds.hir, H.holds.lir⟩

/-- A block that is hit twice, and one that is filtered, in a queue of two. -/
theorem lirHirTracker_two : ∃ h0 h, lirHirTrackerInit 2 = .ok h0 ∧
    lirHirRun h0 [(5, { op := .new }), (7, { op := .filter }), (5, { op := .hit })] = .ok h ∧
    h.hirCount = 0 ∧ h.lirCount = 1 := by
  have hc : Consistent 1
      [(5, { op := .new }), (7, { op := .filter }), (5, { op := .hit })] := by
    refine .snoc (t := [(5, { op := .new }), (7, { op := .filter })])
      (.snoc (t := [(5, { op := .new })]) (.snoc (t := []) .nil ?_) ?_) ?_
    · exact ⟨by decide, by decide⟩
    · show (7 : Oblock) ∉ _
      decide
    · show (5 : Oblock) ∈ _
      decide
  obtain ⟨h0, h, hinit, hrun, hhir, hlir⟩ := lirHirTracker_exact 2 (by decide) 1 _ hc (by decide)
  exact ⟨h0, h, hinit, hrun, hhir.trans (by decide), hlir.trans (by decide)⟩

end Fomo
