import Fomo.Wrapper.FomoPolicy
import Fomo.Include.NucleusSpec
import Fomo.Lib.BoundedHistory
import Fomo.Lib.KeyedList

/-!
# The miss history of FOMO

The hash table, the queue and the metadata pool of FOMO hold the same entries. Read
as a list of oblocks they are a bounded history, and a committed transaction changes
it by `historyStep`. A request falls into one of four cases: filtered, admitted,
refused by the legality check, or ended by a fault of the internal policy.
-/
namespace Fomo

variable {σ : Type} {P : Policy σ}

namespace FomoPolicy

/-- The remembered oblocks, least recent first. -/
def history (f : FomoPolicy σ) : List Oblock := f.fomoMh.map fun r => (f.nucleus.entry r).oblock

/-- Table, queue and pool agree, and the pool has one entry per history slot. -/
structure Inv (f : FomoPolicy σ) : Prop where
  wf : f.nucleus.Wf
  queue_nodup : f.fomoMh.Nodup
  mem_queue : ∀ r, r ∈ f.fomoMh ↔ (f.nucleus.entry r).allocated = true
  cache_empty : (f.nucleus.pool .cache).nrEntries = 0
  meta_entries : (f.nucleus.pool .metadata).nrEntries = f.ghostSize
  ghost_pos : 0 < f.ghostSize

variable {f f' : FomoPolicy σ} {r : EntryRef} {o : Oblock}

theorem Inv.pool_eq (h : f.Inv) (hr : r ∈ f.fomoMh) : r.pool = .metadata := by
  have hlt := h.wf.lt_of_allocated ((h.mem_queue r).mp hr)
  cases hp : r.pool with
  | metadata => rfl
  | cache => rw [hp, h.cache_empty] at hlt; omega

theorem Inv.queue_length_eq (h : f.Inv) :
    f.fomoMh.length = (f.nucleus.pool .metadata).nrAllocated :=
  h.wf.length_eq_nrAllocated h.queue_nodup fun r =>
    ⟨fun hr => ⟨h.pool_eq hr, (h.mem_queue r).mp hr⟩, fun hr => (h.mem_queue r).mpr hr.2⟩

/-- Every metadata slot is either free or queued. -/
theorem Inv.free_append_queue (h : f.Inv) :
    (f.nucleus.pool .metadata).free.length + f.fomoMh.length = f.ghostSize := by
  have hnr := (h.wf.pools .metadata).nr_allocated
  rw [h.meta_entries, ← h.queue_length_eq] at hnr
  omega

theorem Inv.queue_length_le (h : f.Inv) : f.fomoMh.length ≤ f.ghostSize := by
  have := h.free_append_queue
  omega

theorem history_length (f : FomoPolicy σ) : f.history.length = f.fomoMh.length := List.length_map _

theorem Inv.history_nodup (h : f.Inv) : f.history.Nodup :=
  h.queue_nodup.map_on fun x hx y hy hxy =>
    h.wf.inj x y ((h.mem_queue x).mp hx) ((h.mem_queue y).mp hy) hxy

theorem Inv.mem_history (h : f.Inv) : o ∈ f.history ↔ (hashLookup f.nucleus o).isSome := by
  constructor
  · intro ho
    obtain ⟨x, hx, rfl⟩ := List.mem_map.mp ho
    rw [h.wf.hashLookup_self ((h.mem_queue x).mp hx)]
    rfl
  · intro ho
    obtain ⟨x, hx⟩ := Option.isSome_iff_exists.mp ho
    obtain ⟨hxa, hxo⟩ := h.wf.hashLookup_eq_some.mp hx
    exact List.mem_map.mpr ⟨x, (h.mem_queue x).mpr hxa, hxo⟩

theorem Inv.lookup_mem (h : f.Inv) (hl : hashLookup f.nucleus o = some r) :
    r ∈ f.fomoMh ∧ (f.nucleus.entry r).oblock = o := by
  obtain ⟨ha, ho⟩ := h.wf.hashLookup_eq_some.mp hl
  exact ⟨(h.mem_queue r).mpr ha, ho⟩

/-- Neither the internal policy nor the control fields take part in the invariant. -/
theorem Inv.congr (h : f.Inv) (hn : f'.nucleus = f.nucleus) (hq : f'.fomoMh = f.fomoMh)
    (hg : f'.ghostSize = f.ghostSize) : f'.Inv := by
  constructor
  · rw [hn]; exact h.wf
  · rw [hq]; exact h.queue_nodup
  · intro r; rw [hn, hq]; exact h.mem_queue r
  · rw [hn]; exact h.cache_empty
  · rw [hn, hg]; exact h.meta_entries
  · rw [hg]; exact h.ghost_pos

/-- `f'` is `f` up to the history structures. -/
def SameControl (f f' : FomoPolicy σ) : Prop :=
  f' = { f with nucleus := f'.nucleus, fomoMh := f'.fomoMh }

theorem SameControl.refl (f : FomoPolicy σ) : f.SameControl f := rfl

theorem SameControl.trans {f'' : FomoPolicy σ} (h : f.SameControl f') (h' : f'.SameControl f'') :
    f.SameControl f'' := by
  unfold SameControl at *
  rw [h', h]

/-! ## The history operations -/

/-- `fomo_remove_entry` forgets the oblock of a queued entry. -/
theorem Inv.removeEntry (h : f.Inv) (hr : r ∈ f.fomoMh) :
    ∃ f', fomoRemoveEntry f r = .ok f' ∧ f'.Inv ∧ f.SameControl f' ∧
      f'.history = f.history.erase (f.nucleus.entry r).oblock := by
  have ha := (h.mem_queue r).mp hr
  obtain ⟨cn, hrun, hrw⟩ := h.wf.cacheNucleusRemove ha
  refine ⟨{ f with fomoMh := f.fomoMh.erase r, nucleus := cn }, ?_, ?_, rfl, ?_⟩
  · simp [fomoRemoveEntry, hrun]
  · constructor
    · exact hrw.wf
    · exact h.queue_nodup.erase r
    · intro x
      simp only [h.queue_nodup.mem_erase_iff, h.mem_queue, hrw.entry]
      by_cases hx : x = r
      · subst hx; simp [CacheNucleus.freedEntry]
      · simp [hx]
    · rw [hrw.nrEntries]; exact h.cache_empty
    · rw [hrw.nrEntries]; exact h.meta_entries
    · exact h.ghost_pos
  · have hkey : ∀ x, x ≠ r → (cn.entry x).oblock = (f.nucleus.entry x).oblock := fun x hx => by
      rw [hrw.entry_of_ne hx]
    exact (Lib.map_erase_congr h.queue_nodup hkey).trans (Lib.map_erase_of_nodup h.history_nodup hr)

/-- Moving a queued entry to the recent end. -/
theorem Inv.requeue (h : f.Inv) (hr : r ∈ f.fomoMh) :
    ({ f with fomoMh := queuePush (queueRemove f.fomoMh r) r } : FomoPolicy σ).Inv ∧
      ({ f with fomoMh := queuePush (queueRemove f.fomoMh r) r } : FomoPolicy σ).history =
        f.history.erase (f.nucleus.entry r).oblock ++ [(f.nucleus.entry r).oblock] := by
  have hperm : (f.fomoMh.erase r ++ [r]).Perm f.fomoMh :=
    List.perm_append_singleton r _ |>.trans (List.perm_cons_erase hr).symm
  refine ⟨⟨h.wf, ?_, ?_, h.cache_empty, h.meta_entries, h.ghost_pos⟩, ?_⟩
  · exact hperm.nodup_iff.mpr h.queue_nodup
  · intro x
    exact hperm.mem_iff.trans (h.mem_queue x)
  · show (f.fomoMh.erase r ++ [r]).map _ = _
    rw [List.map_append, Lib.map_erase_of_nodup h.history_nodup hr]
    rfl

/-- `insert_in_meta` and the push at the recent end, with room in the pool. -/
theorem Inv.insertEntry (h : f.Inv) (hlen : f.fomoMh.length < f.ghostSize)
    (ho : o ∉ f.history) :
    ∃ cn fe, insertInMeta f.nucleus o = .ok (cn, fe) ∧
      ({ f with nucleus := cn, fomoMh := queuePush f.fomoMh fe } : FomoPolicy σ).Inv ∧
      ({ f with nucleus := cn, fomoMh := queuePush f.fomoMh fe } : FomoPolicy σ).history =
        f.history ++ [o] := by
  have habs : f.nucleus.Absent o := by
    rw [← h.wf.hashLookup_eq_none, ← Option.not_isSome_iff_eq_none, ← h.mem_history]
    exact ho
  have hroom := h.free_append_queue
  obtain ⟨i, rest, hf⟩ : ∃ i rest, (f.nucleus.pool .metadata).free = i :: rest := by
    cases hf : (f.nucleus.pool .metadata).free with
    | nil => rw [hf] at hroom; simp at hroom; omega
    | cons i rest => exact ⟨i, rest, rfl⟩
  obtain ⟨cn, hrun, hrw⟩ := h.wf.insertInMeta hf habs
  have hfree := h.wf.mem_free (r := ⟨.metadata, i⟩) |>.mp (by simp [hf])
  have hni : (⟨.metadata, i⟩ : EntryRef) ∉ f.fomoMh := fun hm => by
    have := (h.mem_queue _).mp hm
    simp [hfree.2] at this
  refine ⟨cn, ⟨.metadata, i⟩, hrun, ⟨hrw.wf, ?_, ?_, ?_, ?_, h.ghost_pos⟩, ?_⟩
  · refine List.nodup_append.mpr ⟨h.queue_nodup, List.nodup_singleton _, ?_⟩
    intro x hx y hy
    rw [List.mem_singleton] at hy
    rintro rfl
    exact hni (hy ▸ hx)
  · intro x
    simp only [queuePush_eq, List.mem_append, List.mem_singleton, h.mem_queue, hrw.entry]
    by_cases hx : x = ⟨.metadata, i⟩
    · subst hx; simp [CacheNucleus.freshEntry]
    · simp [hx]
  · rw [hrw.nrEntries]; exact h.cache_empty
  · rw [hrw.nrEntries]; exact h.meta_entries
  · have hkeep : ∀ x ∈ f.fomoMh, (cn.entry x).oblock = (f.nucleus.entry x).oblock := by
      intro x hx
      have hxi : x ≠ ⟨.metadata, i⟩ := by rintro rfl; exact hni hx
      rw [hrw.entry_of_ne hxi]
    show (f.fomoMh ++ [_]).map _ = _
    rw [List.map_append, List.map_congr_left hkeep]
    simp [history, hrw.entry_self, CacheNucleus.freshEntry]

end FomoPolicy

/-- What a committed transaction does to the remembered oblocks. -/
def historyStep (ghostSize : Nat) (state : FomoState) (cHit mhHit : Bool) (o : Oblock)
    (h : List Oblock) : List Oblock :=
  if cHit then (if mhHit then h.erase o else h)
  else if mhHit then (if state = .filter then h.erase o else h.erase o ++ [o])
  else Lib.remember ghostSize h o

open FomoPolicy

variable {f f' : FomoPolicy σ} {o : Oblock}

/-- The four commit branches keep the three structures together. -/
theorem fomoCommitHistory_spec (h : f.Inv) (ft : FomoTransaction)
    (hmh : ft.mhHit = (hashLookup f.nucleus ft.oblock).isSome) :
    ∃ f', fomoCommitHistory f ft = .ok f' ∧ f'.Inv ∧ f.SameControl f' ∧
      f'.history = historyStep f.ghostSize f.state ft.cHit ft.mhHit ft.oblock f.history := by
  unfold fomoCommitHistory historyStep
  cases hm : ft.mhHit with
  | true =>
    obtain ⟨fe, hl⟩ := Option.isSome_iff_exists.mp (hmh.symm.trans hm)
    obtain ⟨hq, ho⟩ := h.lookup_mem hl
    obtain ⟨f1, hrun, hinv, hsame, hhist⟩ := h.removeEntry hq
    rw [ho] at hhist
    simp only [hl, deref_some, ok_bind, if_true]
    cases hc : ft.cHit with
    | true => exact ⟨f1, by simpa using hrun, hinv, hsame, by simpa using hhist⟩
    | false =>
      by_cases hs : f.state = .filter
      · exact ⟨f1, by simpa [hs] using hrun, hinv, hsame, by simpa [hs] using hhist⟩
      · obtain ⟨hinv', hhist'⟩ := h.requeue hq
        rw [ho] at hhist'
        exact ⟨_, by simp [hs], hinv', rfl, by simpa [hs] using hhist'⟩
  | false =>
    have hno : ft.oblock ∉ f.history := by
      rw [h.mem_history, ← hmh, hm]
      simp
    cases hc : ft.cHit with
    | true => exact ⟨f, by simp, h, .refl f, by simp⟩
    | false =>
      have hlen := f.history_length
      simp only [Bool.false_eq_true, if_false, queueLength_eq]
      by_cases hfull : f.fomoMh.length = f.ghostSize
      · -- the history is full: its oldest entry makes room
        cases hq : f.fomoMh with
        | nil => rw [hq] at hfull; have := h.ghost_pos; simp at hfull; omega
        | cons lru q =>
          obtain ⟨f1, hrun, hinv, hsame, hhist⟩ := h.removeEntry (r := lru) (by simp [hq])
          have htail : f1.history = f.history.tail := by
            rw [hhist]
            simp [history, hq]
          have hghost : f1.ghostSize = f.ghostSize := by rw [hsame]
          have hno1 : ft.oblock ∉ f1.history := by
            rw [htail]
            exact fun hm => hno (List.mem_of_mem_tail hm)
          have hlen1 : f1.fomoMh.length < f1.ghostSize := by
            have h1 := h.ghost_pos
            rw [← history_length, htail, List.length_tail, hlen, hghost]
            omega
          obtain ⟨cn, fe, hins, hinv2, hhist2⟩ := hinv.insertEntry hlen1 hno1
          refine ⟨_, ?_, hinv2, ?_, ?_⟩
          · rw [hq] at hfull
            simp [hfull, hrun, hins]
          · rw [hsame]; rfl
          · rw [hhist2, htail, Lib.remember_of_full (by rw [hlen, hfull])]
      · have hlt : f.fomoMh.length < f.ghostSize := by
          have := h.queue_length_le
          omega
        obtain ⟨cn, fe, hins, hinv2, hhist2⟩ := h.insertEntry hlt hno
        refine ⟨_, ?_, hinv2, rfl, ?_⟩
        · simp [hfull, hins]
        · rw [hhist2, Lib.remember_of_lt (by rw [hlen]; exact hlt)]

end Fomo
