import Fomo.Sim.SimRecencyClassifier

/-!
# Runs of the recency classifier

The four queues are windows over the events, and the pool has two entries more than the windows
can have blocks. A block that leaves its last window loses its entry.
-/
namespace Fomo

open Lib (mostRecent)

namespace RecencyClassifier

/-- The blocks of the windows `w`. -/
def known (w : RecencyType → List Oblock) : Finset Oblock :=
  (w .accessed ++ w .inserted ++ w .evicted ++ w .filtered).toFinset

/-- The classifier has the windows `w`, and an entry for each block of `tracked`. -/
structure Holds (tracked : Finset Oblock) (w : RecencyType → List Oblock)
    (c : RecencyClassifier) : Prop where
  table : c.table.Tracks tracked
  queue : ∀ rType, (c.q rType).map c.table.oblock = w rType
  q_ht : ∀ rType, ∀ i ∈ c.q rType, i ∈ c.table.ht
  nodup : ∀ rType, (w rType).Nodup
  flags : ∀ i ∈ c.table.ht,
    c.recencyFlags i = flagsOf fun rType => decide (c.table.oblock i ∈ w rType)
  idle : ∀ i, i ∉ c.table.ht → c.recencyFlags i = 0

/-- What no call changes but the last step of an update. -/
structure SameRest (c c' : RecencyClassifier) : Prop where
  count : c'.count = c.count
  cacheSize : c'.cacheSize = c.cacheSize
  nrEntries : c'.table.entryPool.nrEntries = c.table.entryPool.nrEntries

variable {c c' c1 : RecencyClassifier} {tracked : Finset Oblock} {w : RecencyType → List Oblock}
  {rType : RecencyType} {o b : Oblock} {i j n : Nat}

theorem SameRest.trans (h : c.SameRest c1) (h' : c1.SameRest c') : c.SameRest c' :=
  ⟨h'.count.trans h.count, h'.cacheSize.trans h.cacheSize, h'.nrEntries.trans h.nrEntries⟩

theorem mem_known : o ∈ known w ↔ ∃ rType, o ∈ w rType := by
  rw [known, List.mem_toFinset, List.mem_append, List.mem_append, List.mem_append]
  constructor
  · rintro (((h | h) | h) | h)
    · exact ⟨_, h⟩
    · exact ⟨_, h⟩
    · exact ⟨_, h⟩
    · exact ⟨_, h⟩
  · rintro ⟨rType, h⟩
    cases rType with
    | accessed => exact Or.inl (Or.inl (Or.inl h))
    | inserted => exact Or.inl (Or.inl (Or.inr h))
    | evicted => exact Or.inl (Or.inr h)
    | filtered => exact Or.inr h

theorem known_card_le (h : ∀ rType, (w rType).length ≤ n) : (known w).card ≤ 4 * n := by
  have ha := h .accessed
  have hi := h .inserted
  have he := h .evicted
  have hf := h .filtered
  refine (List.toFinset_card_le _).trans ?_
  rw [List.length_append, List.length_append, List.length_append]
  omega

/-- Other windows of one type. -/
theorem mem_update {l : List Oblock} {rType' : RecencyType}
    (h : b ∈ l ↔ b ∈ w rType) : b ∈ Function.update w rType l rType' ↔ b ∈ w rType' := by
  by_cases hr : rType' = rType
  · rw [hr, Function.update_self, h]
  · rw [Function.update_of_ne hr]

/-- Taking an entry out of a queue takes its block out of the window. -/
theorem Holds.map_erase (H : c.Holds tracked w) (hi : i ∈ c.table.ht) (rType : RecencyType) :
    ((c.q rType).erase i).map c.table.oblock = (w rType).erase (c.table.oblock i) := by
  by_cases hq : i ∈ c.q rType
  · rw [Lib.map_erase_of_nodup (by rw [H.queue]; exact H.nodup rType) hq, H.queue]
  · have hno : c.table.oblock i ∉ w rType := by
      intro hmem
      rw [← H.queue, List.mem_map] at hmem
      obtain ⟨j, hj, heq⟩ := hmem
      exact hq (H.table.inj (H.q_ht rType j hj) hi heq ▸ hj)
    rw [List.erase_of_not_mem hq, List.erase_of_not_mem hno, H.queue]

theorem nodup_push {l : List Oblock} (h : l.Nodup) (o : Oblock) : (l.erase o ++ [o]).Nodup := by
  refine List.nodup_append.mpr ⟨h.erase o, List.nodup_singleton o, fun a ha x hx => ?_⟩
  rw [List.mem_singleton.mp hx]
  rintro rfl
  exact h.not_mem_erase ha

/-- The entry at the end of a queue, before the queue is trimmed. -/
theorem Holds.append (H : c.Holds (insert (c.table.oblock i) (known w)) w) (hi : i ∈ c.table.ht)
    (rType : RecencyType) : { c with
        q := Function.update c.q rType ((c.q rType).erase i ++ [i])
        recencyFlags := Function.update c.recencyFlags i
          (c.recencyFlags i ||| recencyTypeFlag rType) }.Holds
      (insert (c.table.oblock i) (known w)) (Function.update w rType
        ((w rType).erase (c.table.oblock i) ++ [c.table.oblock i])) := by
  refine ⟨H.table, fun r => ?_, fun r x hx => ?_, fun r => ?_, fun x hx => ?_, fun x hx => ?_⟩
  · by_cases hr : r = rType
    · subst hr
      simp only [Function.update_self, List.map_append, H.map_erase hi, List.map_cons, List.map_nil]
    · simp only [Function.update_of_ne hr]
      exact H.queue r
  · by_cases hr : r = rType
    · subst hr
      simp only [Function.update_self, List.mem_append, List.mem_singleton] at hx
      rcases hx with hx | rfl
      · exact H.q_ht r x (List.mem_of_mem_erase hx)
      · exact hi
    · simp only [Function.update_of_ne hr] at hx
      exact H.q_ht r x hx
  · by_cases hr : r = rType
    · subst hr
      rw [Function.update_self]
      exact nodup_push (H.nodup r) _
    · rw [Function.update_of_ne hr]
      exact H.nodup r
  · by_cases hxi : x = i
    · subst hxi
      simp only [Function.update_self]
      rw [H.flags x hi, flagsOf_set]
      congr 1
      funext r
      by_cases hr : r = rType
      · subst hr
        simp
      · rw [Function.update_of_ne hr, Function.update_of_ne hr]
    · have hne : c.table.oblock x ≠ c.table.oblock i := fun heq => hxi (H.table.inj hx hi heq)
      simp only [Function.update_of_ne hxi]
      rw [H.flags x hx]
      congr 1
      funext r
      refine decide_eq_decide.mpr (mem_update ?_).symm
      rw [List.mem_append, List.mem_singleton, List.mem_erase_of_ne hne]
      simp [hne]
  · have hxi : x ≠ i := by
      rintro rfl
      exact hx hi
    simp only [Function.update_of_ne hxi]
    exact H.idle x hx

/-- The head of a queue is the entry of the head of the window. -/
theorem Holds.head (H : c.Holds tracked w) {rest : List Oblock} (hw : w rType = b :: rest) :
    ∃ v q, c.q rType = v :: q ∧ c.table.oblock v = b ∧ q.map c.table.oblock = rest ∧
      v ∈ c.table.ht := by
  have hqueue := H.queue rType
  rw [hw] at hqueue
  cases hq : c.q rType with
  | nil =>
    rw [hq] at hqueue
    cases hqueue
  | cons v q =>
    rw [hq, List.map_cons] at hqueue
    obtain ⟨hvb, hrest⟩ := List.cons.inj hqueue
    exact ⟨v, q, rfl, hvb, hrest, H.q_ht rType v (by rw [hq]; exact List.mem_cons_self)⟩

section Pop

variable {rest : List Oblock} {v : Nat} {q : List Nat}

/-- Only the block that leaves is concerned. -/
theorem mem_pop (hw : w rType = b :: rest) (hob : o ≠ b) (r : RecencyType) :
    o ∈ Function.update w rType rest r ↔ o ∈ w r := by
  refine mem_update ?_
  rw [hw, List.mem_cons]
  simp [hob]

theorem known_pop (hw : w rType = b :: rest) (hob : o ≠ b) :
    o ∈ known (Function.update w rType rest) ↔ o ∈ known w := by
  rw [mem_known, mem_known]
  exact exists_congr (mem_pop hw hob)

theorem Holds.pop_flags (H : c.Holds tracked w) (hw : w rType = b :: rest)
    (hv : v ∈ c.table.ht) (hvb : c.table.oblock v = b) :
    c.recencyFlags v &&& ~~~recencyTypeFlag rType =
      flagsOf fun r => decide (b ∈ Function.update w rType rest r) := by
  have hout : b ∉ rest := (List.nodup_cons.mp (hw ▸ H.nodup rType)).1
  rw [H.flags v hv, flagsOf_clear, hvb]
  congr 1
  funext r
  by_cases hr : r = rType
  · subst hr
    simp [hout]
  · rw [Function.update_of_ne hr, Function.update_of_ne hr]

/-- The classifier without the head of a queue, whatever becomes of its entry. -/
theorem Holds.unlink (H : c.Holds tracked w) (hw : w rType = b :: rest)
    (hq : c.q rType = v :: q) (hvb : c.table.oblock v = b) (hrest : q.map c.table.oblock = rest)
    {table : EntryTable} (hob : table.oblock = c.table.oblock)
    (htab : table.Tracks (known (Function.update w rType rest)))
    (hmem : ∀ x, x ≠ v → (x ∈ table.ht ↔ x ∈ c.table.ht))
    (hvt : v ∈ table.ht ↔ b ∈ known (Function.update w rType rest)) :
    ({ c with
        q := Function.update c.q rType q
        recencyFlags := Function.update c.recencyFlags v
          (c.recencyFlags v &&& ~~~recencyTypeFlag rType)
        table := table } : RecencyClassifier).Holds
      (known (Function.update w rType rest)) (Function.update w rType rest) := by
  have hv : v ∈ c.table.ht := H.q_ht rType v (by rw [hq]; exact List.mem_cons_self)
  have hflags := H.pop_flags hw hv hvb
  refine ⟨htab, fun r => ?_, fun r x hx => ?_, fun r => ?_, fun x hx => ?_, fun x hx => ?_⟩
  · by_cases hr : r = rType
    · subst hr
      simp only [Function.update_self, hob]
      exact hrest
    · simp only [Function.update_of_ne hr, hob]
      exact H.queue r
  · obtain ⟨hxc, hxb⟩ : x ∈ c.table.ht ∧ c.table.oblock x ∈ Function.update w rType rest r := by
      by_cases hr : r = rType
      · subst hr
        simp only [Function.update_self] at hx ⊢
        exact ⟨H.q_ht r x (by rw [hq]; exact List.mem_cons_of_mem _ hx),
          hrest ▸ List.mem_map_of_mem hx⟩
      · simp only [Function.update_of_ne hr] at hx ⊢
        exact ⟨H.q_ht r x hx, H.queue r ▸ List.mem_map_of_mem hx⟩
    by_cases hxv : x = v
    · subst hxv
      rw [hvb] at hxb
      exact hvt.mpr (mem_known.mpr ⟨r, hxb⟩)
    · exact (hmem x hxv).mpr hxc
  · by_cases hr : r = rType
    · subst hr
      rw [Function.update_self]
      exact (List.nodup_cons.mp (hw ▸ H.nodup r)).2
    · rw [Function.update_of_ne hr]
      exact H.nodup r
  · simp only [hob]
    by_cases hxv : x = v
    · subst hxv
      rw [Function.update_self, hflags, hvb]
    · have hxc := (hmem x hxv).mp hx
      have hne : c.table.oblock x ≠ b := fun heq => hxv (H.table.inj hxc hv (heq.trans hvb.symm))
      rw [Function.update_of_ne hxv, H.flags x hxc]
      congr 1
      funext r
      exact decide_eq_decide.mpr (mem_pop hw hne r).symm
  · by_cases hxv : x = v
    · subst hxv
      have hno : ∀ r, b ∉ Function.update w rType rest r := fun r hr =>
        hx (hvt.mpr (mem_known.mpr ⟨r, hr⟩))
      simp only [Function.update_self]
      rw [hflags, flagsOf_eq_zero]
      exact fun r => decide_eq_false (hno r)
    · simp only [Function.update_of_ne hxv]
      exact H.idle x fun hxc => hx ((hmem x hxv).mpr hxc)

/-- The block at the head of a queue leaves the window, and loses its entry with its last one. -/
theorem Holds.pop (H : c.Holds (known w) w) (hw : w rType = b :: rest)
    (hlong : (w rType).length > c.cacheSize) :
    ∃ c', recencyClassifierTrim c rType = .ok c' ∧
      c'.Holds (known (Function.update w rType rest)) (Function.update w rType rest) ∧
      c.SameRest c' ∧ c'.table.oblock = c.table.oblock ∧
      ∀ j ∈ c.table.ht, c.table.oblock j ∈ known (Function.update w rType rest) →
        j ∈ c'.table.ht := by
  obtain ⟨v, q, hq, hvb, hrest, hv⟩ := H.head hw
  have hlen : (c.q rType).length > c.cacheSize := by
    rwa [← H.queue rType, List.length_map] at hlong
  have hzero : c.recencyFlags v &&& ~~~recencyTypeFlag rType = 0 ↔
      b ∉ known (Function.update w rType rest) := by
    rw [H.pop_flags hw hv hvb, flagsOf_eq_zero, mem_known, not_exists]
    exact forall_congr' fun r => decide_eq_false_iff_not
  rw [recencyClassifierTrim, if_pos hlen, hq, List.head?_cons, deref_some, ok_bind]
  dsimp only [List.tail_cons]
  by_cases hb : b ∈ known (Function.update w rType rest)
  · have hsame : known (Function.update w rType rest) = known w := by
      ext a
      by_cases ha : a = b
      · rw [ha]
        exact iff_of_true hb (mem_known.mpr ⟨rType, by rw [hw]; exact List.mem_cons_self⟩)
      · exact known_pop hw ha
    rw [if_neg fun hz => hzero.mp hz hb]
    exact ⟨_, rfl, H.unlink hw hq hvb hrest rfl (hsame ▸ H.table) (fun _ _ => Iff.rfl)
      (iff_of_true hv hb), ⟨rfl, rfl, rfl⟩, rfl, fun _ hj _ => hj⟩
  · have herase : (known w).erase (c.table.oblock v) = known (Function.update w rType rest) := by
      ext a
      rw [Finset.mem_erase, hvb]
      by_cases ha : a = b
      · rw [ha]
        exact iff_of_false (fun hx => hx.1 rfl) hb
      · rw [known_pop hw ha]
        exact and_iff_right ha
    rw [if_pos (hzero.mpr hb)]
    obtain ⟨table, hrun, htab, hnr, hht, hob⟩ := H.table.remove hv
    rw [herase] at htab
    have hmem : ∀ x, x ∈ table.ht ↔ x ≠ v ∧ x ∈ c.table.ht := fun x => by
      rw [hht]
      exact H.table.nodup.mem_erase_iff
    rw [hrun, ok_bind]
    refine ⟨_, rfl, H.unlink hw hq hvb hrest hob htab
      (fun x hxv => (hmem x).trans (and_iff_right hxv))
      (iff_of_false (fun hx => ((hmem v).mp hx).1 rfl) hb), ⟨rfl, rfl, hnr⟩, hob,
      fun j hj hjk => (hmem j).mpr ⟨?_, hj⟩⟩
    rintro rfl
    exact hb (hvb ▸ hjk)

end Pop

/-! ## Updates -/

/-- The windows after an event of one type for `o`. -/
def pushWindow (n : Nat) (w : RecencyType → List Oblock) (rType : RecencyType) (o : Oblock) :
    RecencyType → List Oblock :=
  Function.update w rType (Lib.trim n ((w rType).erase o ++ [o]))

theorem length_trim_push (hlen : (w rType).length ≤ n) :
    (Lib.trim n ((w rType).erase o ++ [o])).length ≤ n := by
  have hle := List.length_erase_le (a := o) (l := w rType)
  rw [Lib.trim]
  split
  · rw [List.length_tail, List.length_append, List.length_singleton]
    omega
  · omega

theorem length_pushWindow (hlen : ∀ r, (w r).length ≤ n) (r : RecencyType) :
    (pushWindow n w rType o r).length ≤ n := by
  by_cases hr : r = rType
  · subst hr
    rw [pushWindow, Function.update_self]
    exact length_trim_push (hlen r)
  · rw [pushWindow, Function.update_of_ne hr]
    exact hlen r

/-- With room for one block the block of the event is in its window. -/
theorem mem_pushWindow (hn : 0 < n) (w : RecencyType → List Oblock) (rType : RecencyType)
    (o : Oblock) : o ∈ pushWindow n w rType o rType := by
  rw [pushWindow, Function.update_self, Lib.trim]
  split
  · next hlong =>
    cases he : (w rType).erase o with
    | nil =>
      rw [he] at hlong
      exact absurd hlong (by simp; omega)
    | cons x l => simp
  · simp

theorem known_push (w : RecencyType → List Oblock) (rType : RecencyType) (o : Oblock) :
    known (Function.update w rType ((w rType).erase o ++ [o])) = insert o (known w) := by
  ext a
  rw [Finset.mem_insert, mem_known, mem_known]
  by_cases ha : a = o
  · refine iff_of_true ⟨rType, ?_⟩ (Or.inl ha)
    simp [ha]
  · rw [or_iff_right ha]
    refine exists_congr fun r => mem_update ?_
    rw [List.mem_append, List.mem_singleton, List.mem_erase_of_ne ha, or_iff_left ha]

theorem Holds.push (H : c.Holds (insert o (known w)) w) (hi : i ∈ c.table.ht)
    (hob : c.table.oblock i = o) (rType : RecencyType) :
    ∃ c', recencyClassifierPushToQueue c rType i = .ok c' ∧
      c'.Holds (known (pushWindow c.cacheSize w rType o)) (pushWindow c.cacheSize w rType o) ∧
      c.SameRest c' ∧ c'.table.oblock = c.table.oblock ∧
      ∀ j ∈ c.table.ht, c.table.oblock j ∈ known (pushWindow c.cacheSize w rType o) →
        j ∈ c'.table.ht := by
  subst hob
  have H1 := H.append hi rType
  rw [← known_push w rType] at H1
  rw [recencyClassifierPushToQueue]
  generalize hc1 : ({ c with
    q := Function.update c.q rType ((c.q rType).erase i ++ [i])
    recencyFlags := Function.update c.recencyFlags i
      (c.recencyFlags i ||| recencyTypeFlag rType) } : RecencyClassifier) = c1 at H1
  have hrest : c.SameRest c1 ∧ c1.table = c.table := by
    subst hc1
    exact ⟨⟨rfl, rfl, rfl⟩, rfl⟩
  have hw1 : Function.update w rType ((w rType).erase (c.table.oblock i) ++ [c.table.oblock i])
      rType = (w rType).erase (c.table.oblock i) ++ [c.table.oblock i] := Function.update_self ..
  by_cases hlong : ((w rType).erase (c.table.oblock i) ++ [c.table.oblock i]).length > c.cacheSize
  · obtain ⟨b, rest, hbrest⟩ := List.exists_cons_of_ne_nil
      (l := (w rType).erase (c.table.oblock i) ++ [c.table.oblock i]) (by simp)
    have hpush : pushWindow c.cacheSize w rType (c.table.oblock i) = Function.update
        (Function.update w rType ((w rType).erase (c.table.oblock i) ++ [c.table.oblock i]))
        rType rest := by
      rw [pushWindow, Lib.trim, if_pos hlong, hbrest, List.tail_cons, Function.update_idem]
    obtain ⟨c', hrun, H', hrest', hob', hkeep⟩ := H1.pop (hw1.trans hbrest)
      (by rw [hw1, hrest.1.cacheSize]; exact hlong)
    rw [← hpush] at H' hkeep
    refine ⟨c', hrun, H', hrest.1.trans hrest', by rw [hob', hrest.2], ?_⟩
    rw [hrest.2] at hkeep
    exact hkeep
  · have hpush : pushWindow c.cacheSize w rType (c.table.oblock i) = Function.update w rType
        ((w rType).erase (c.table.oblock i) ++ [c.table.oblock i]) := by
      rw [pushWindow, Lib.trim, if_neg hlong]
    have hshort : ¬(c1.q rType).length > c1.cacheSize := by
      rw [hrest.1.cacheSize, ← List.length_map (f := c1.table.oblock), H1.queue, hw1]
      exact hlong
    rw [hpush, recencyClassifierTrim, if_neg hshort]
    exact ⟨c1, rfl, H1, hrest.1, by rw [hrest.2], fun j hj _ => hrest.2 ▸ hj⟩

/-- The entry of the accessed block, or a new one with no flag. -/
theorem Holds.entry (H : c.Holds (known w) w) (o : Oblock)
    (hroom : (known w).card < c.table.entryPool.nrEntries) :
    ∃ c' i, recencyClassifierEntry c o = .ok (c', i) ∧ c'.Holds (insert o (known w)) w ∧
      c.SameRest c' ∧ i ∈ c'.table.ht ∧ c'.table.oblock i = o ∧
      ∀ j ∈ c.table.ht, j ∈ c'.table.ht ∧ c'.table.oblock j = c.table.oblock j := by
  rw [recencyClassifierEntry]
  by_cases ho : o ∈ known w
  · obtain ⟨i, hl, hi, hob⟩ := H.table.exists_lookup ho
    rw [hl, Finset.insert_eq_of_mem ho]
    exact ⟨c, i, rfl, H, ⟨rfl, rfl, rfl⟩, hi, hob, fun j hj => ⟨hj, rfl⟩⟩
  · obtain ⟨table, i, halloc, htab, hnr, hht, hni, hob⟩ := H.table.alloc ho hroom
    have hself : table.oblock i = o := by rw [hob, Function.update_self]
    have hother : ∀ j ∈ c.table.ht, table.oblock j = c.table.oblock j := by
      intro j hj
      rw [hob, Function.update_of_ne]
      rintro rfl
      exact hni hj
    have hkeep : ∀ j ∈ c.table.ht, j ∈ table.ht := fun j hj => by
      rw [hht]
      exact List.mem_cons_of_mem i hj
    rw [H.table.lookup_eq_none.mpr ho, halloc]
    refine ⟨{ c with table := table }, i, rfl, ⟨htab, fun r => ?_, fun r x hx => ?_, H.nodup,
      fun x hx => ?_, fun x hx => ?_⟩, ⟨rfl, rfl, hnr⟩, ?_, hself, fun j hj => ⟨hkeep j hj,
      hother j hj⟩⟩
    · rw [← H.queue r]
      exact List.map_congr_left fun j hj => hother j (H.q_ht r j hj)
    · exact hkeep x (H.q_ht r x hx)
    · have hx : x ∈ table.ht := hx
      rw [hht] at hx
      rcases List.mem_cons.mp hx with rfl | hx
      · show c.recencyFlags x = flagsOf fun r => decide (table.oblock x ∈ w r)
        rw [H.idle x hni, hself, eq_comm, flagsOf_eq_zero]
        exact fun r => decide_eq_false fun hmem => ho (mem_known.mpr ⟨r, hmem⟩)
      · show c.recencyFlags x = flagsOf fun r => decide (table.oblock x ∈ w r)
        rw [hother x hx]
        exact H.flags x hx
    · exact H.idle x fun hxc => hx (hkeep x hxc)
    · show i ∈ table.ht
      rw [hht]
      exact List.mem_cons_self

/-- The windows after an access. -/
def accessWindows (n : Nat) (w : RecencyType → List Oblock) (a : HoardAccess) :
    RecencyType → List Oblock :=
  match a.2.op with
  | .hit => pushWindow n w .accessed a.1
  | .filter => pushWindow n (pushWindow n w .accessed a.1) .filtered a.1
  | .new => pushWindow n (pushWindow n w .accessed a.1) .inserted a.1
  | .replace => pushWindow n (pushWindow n (pushWindow n w .accessed a.1) .evicted
      a.2.oldOblock) .inserted a.1
  | .fail => w

theorem accessWindows_eq (n : Nat) (t : List HoardAccess) (a : HoardAccess) :
    accessWindows n (recencyWindow n t) a = recencyWindow n (t ++ [a]) := by
  funext r
  unfold accessWindows recencyWindow
  rw [List.flatMap_append, List.flatMap_singleton]
  cases hop : a.2.op
  all_goals
    cases r
    all_goals
      simp only [pushWindow, Function.update_apply, recencyEvents, hop, reduceCtorEq, if_true,
        if_false, List.append_nil, Lib.mostRecent_concat_trim]

/-- `++count[classification]` -/
def counted (count : List Nat) (k : BitVec 32) : List Nat :=
  count.modify k.toNat fun n => u32 (n + 1)

/-- One update: the counter of the class goes up and the windows move on. -/
theorem Holds.update (H : c.Holds (known w) w) (hpos : 0 < c.cacheSize)
    (hlen : ∀ r, (w r).length ≤ c.cacheSize)
    (hroom : 4 * c.cacheSize < c.table.entryPool.nrEntries) (hcount : c.count.length = 32)
    (a : HoardAccess) : ∃ c', recencyClassifierUpdate c a.1 a.2 = .ok c' ∧
      c'.Holds (known (accessWindows c.cacheSize w a)) (accessWindows c.cacheSize w a) ∧
      c'.cacheSize = c.cacheSize ∧
      c'.table.entryPool.nrEntries = c.table.entryPool.nrEntries ∧
      c'.count = if a.2.op = .fail then c.count else counted c.count
        (flagsOf (fun r => decide (a.1 ∈ w r)) ||| if a.2.op = .hit then 1 else 0) := by
  obtain ⟨o, result⟩ := a
  dsimp only
  by_cases hfail : result.op = .fail
  · rw [recencyClassifierUpdate, if_pos hfail, if_pos hfail]
    refine ⟨c, rfl, ?_, rfl, rfl, rfl⟩
    simp only [accessWindows, hfail]
    exact H
  rw [recencyClassifierUpdate, if_neg hfail, if_neg hfail]
  obtain ⟨c1, i, hrun1, H1, hrest1, hi1, hob1, _⟩ := H.entry o
    ((known_card_le hlen).trans_lt hroom)
  have hclass : c1.recencyFlags i = flagsOf fun r => decide (o ∈ w r) := by
    rw [H1.flags i hi1, hob1]
  obtain ⟨c2, hrun2, H2, hrest2, hob2, hkeep2⟩ := H1.push hi1 hob1 .accessed
  rw [hrest1.cacheSize] at H2 hkeep2
  have hrest2 := hrest1.trans hrest2
  -- the accessed block stays in the first window
  have hin2 : o ∈ known (pushWindow c.cacheSize w .accessed o) :=
    mem_known.mpr ⟨_, mem_pushWindow hpos w .accessed o⟩
  have hi2 : i ∈ c2.table.ht := hkeep2 i hi1 (hob1 ▸ hin2)
  have hobi2 : c2.table.oblock i = o := by rw [hob2, hob1]
  -- the counter is one of the array
  have hfinish : ∀ {c3 : RecencyClassifier} {w' : RecencyType → List Oblock} (hit : Bool),
      c.SameRest c3 → c3.Holds (known w') w' →
      ∃ c', recencyClassifierCount c3 (flagsOf (fun r => decide (o ∈ w r)) |||
          if hit then 1 else 0) = .ok c' ∧ c'.Holds (known w') w' ∧ c'.cacheSize = c.cacheSize ∧
        c'.table.entryPool.nrEntries = c.table.entryPool.nrEntries ∧
        c'.count = counted c.count (flagsOf (fun r => decide (o ∈ w r)) |||
          if hit then 1 else 0) := by
    intro c3 w' hit hrest H3
    have hlt := flagsOf_lt (fun r => decide (o ∈ w r)) hit
    rw [recencyClassifierCount, if_pos (by rw [hrest.count, hcount]; exact hlt)]
    exact ⟨_, rfl, ⟨H3.table, H3.queue, H3.q_ht, H3.nodup, H3.flags, H3.idle⟩, hrest.cacheSize,
      hrest.nrEntries, by rw [hrest.count]; rfl⟩
  -- a further event for the same block
  have hagain : ∀ {c3 : RecencyClassifier} {w' : RecencyType → List Oblock} (rType : RecencyType),
      c.SameRest c3 → c3.Holds (known w') w' → i ∈ c3.table.ht → c3.table.oblock i = o →
      ∃ c4, recencyClassifierPushToQueue c3 rType i = .ok c4 ∧ c.SameRest c4 ∧
        c4.Holds (known (pushWindow c.cacheSize w' rType o))
          (pushWindow c.cacheSize w' rType o) := by
    intro c3 w' rType hrest H3 hi3 hob3
    have hmem : o ∈ known w' := hob3 ▸ H3.table.mem_tracked hi3
    have H3' : c3.Holds (insert o (known w')) w' := by
      rw [Finset.insert_eq_of_mem hmem]
      exact H3
    obtain ⟨c4, hrun4, H4, hrest4, _⟩ := H3'.push hi3 hob3 rType
    rw [hrest.cacheSize] at H4
    exact ⟨c4, hrun4, hrest.trans hrest4, H4⟩
  simp only [hrun1, hrun2, hclass, ok_bind]
  unfold accessWindows
  cases hop : result.op with
  | fail => exact absurd hop hfail
  | hit =>
    obtain ⟨c', hrun, hend⟩ := hfinish true hrest2 H2
    exact ⟨c', hrun, hend⟩
  | filter =>
    obtain ⟨c3, hrun3, hrest3, H3⟩ := hagain .filtered hrest2 H2 hi2 hobi2
    obtain ⟨c', hrun, hend⟩ := hfinish false hrest3 H3
    refine ⟨c', ?_, hend⟩
    simp only [hrun3, ok_bind]
    simpa using hrun
  | new =>
    obtain ⟨c3, hrun3, hrest3, H3⟩ := hagain .inserted hrest2 H2 hi2 hobi2
    obtain ⟨c', hrun, hend⟩ := hfinish false hrest3 H3
    refine ⟨c', ?_, hend⟩
    simp only [hrun3, ok_bind]
    simpa using hrun
  | replace =>
    have hlen2 : ∀ r, (pushWindow c.cacheSize w .accessed o r).length ≤ c.cacheSize :=
      length_pushWindow hlen
    obtain ⟨c3, e, hrun3, H3, hrest3, he, hobe, hkeep3⟩ := H2.entry result.oldOblock
      ((known_card_le hlen2).trans_lt (by rw [hrest2.nrEntries]; exact hroom))
    obtain ⟨hi3, hobi3⟩ := hkeep3 i hi2
    obtain ⟨c4, hrun4, H4, hrest4, hob4, hkeep4⟩ := H3.push he hobe .evicted
    have hrest3 := hrest2.trans hrest3
    rw [hrest3.cacheSize] at H4 hkeep4
    -- its window is another one
    have hin4 : o ∈ known (pushWindow c.cacheSize (pushWindow c.cacheSize w .accessed o) .evicted
        result.oldOblock) := by
      refine mem_known.mpr ⟨.accessed, ?_⟩
      rw [pushWindow, Function.update_of_ne (by decide)]
      exact mem_pushWindow hpos w .accessed o
    have hi4 : i ∈ c4.table.ht := hkeep4 i hi3 (by rw [hobi3, hobi2]; exact hin4)
    obtain ⟨c5, hrun5, hrest5, H5⟩ := hagain .inserted (hrest3.trans hrest4) H4 hi4
      (by rw [hob4, hobi3, hobi2])
    obtain ⟨c', hrun, hend⟩ := hfinish false hrest5 H5
    refine ⟨c', ?_, hend⟩
    simp only [hrun3, hrun4, hrun5, ok_bind]
    simpa using hrun

/-- An entry is found exactly while a queue holds it. -/
theorem Holds.lookup_iff (H : c.Holds (known w) w) :
    c.table.lookup o = some i ↔ c.table.oblock i = o ∧ ∃ rType, i ∈ c.q rType := by
  rw [H.table.lookup_eq_some, and_comm]
  apply and_congr_right
  intro _
  constructor
  · intro hi
    obtain ⟨rType, hmem⟩ := mem_known.mp (H.table.mem_tracked hi)
    rw [← H.queue rType, List.mem_map] at hmem
    obtain ⟨j, hj, heq⟩ := hmem
    exact ⟨rType, H.table.inj (H.q_ht rType j hj) hi heq ▸ hj⟩
  · intro ⟨rType, hi⟩
    exact H.q_ht rType i hi

/-! ## Runs -/

/-- The classifier after the accesses `t`, with windows of `n` blocks. -/
structure Follows (n k : Nat) (t : List HoardAccess) (c : RecencyClassifier) : Prop where
  holds : c.Holds (known (recencyWindow n t)) (recencyWindow n t)
  cacheSize : c.cacheSize = n
  nrEntries : c.table.entryPool.nrEntries = k
  length : c.count.length = 32

theorem Follows.step {k : Nat} {t : List HoardAccess} (H : c.Follows n k t) (hn : 0 < n)
    (hk : 4 * n < k) (a : HoardAccess) : ∃ c', recencyClassifierUpdate c a.1 a.2 = .ok c' ∧
      c'.Follows n k (t ++ [a]) ∧
      c'.count = if a.2.op = .fail then c.count else counted c.count (recencyClass n t a) := by
  have hlen : ∀ r, (recencyWindow n t r).length ≤ c.cacheSize := by
    intro r
    rw [H.cacheSize, recencyWindow, Lib.length_mostRecent]
    exact Nat.min_le_left _ _
  obtain ⟨c', hrun, H', hsize, hnr, hcount⟩ := H.holds.update (by rw [H.cacheSize]; exact hn) hlen
    (by rw [H.cacheSize, H.nrEntries]; exact hk) H.length a
  rw [H.cacheSize, accessWindows_eq] at H'
  refine ⟨c', hrun, ⟨H', hsize.trans H.cacheSize, hnr.trans H.nrEntries, ?_⟩, hcount⟩
  rw [hcount]
  split
  · exact H.length
  · rw [counted, List.length_modify, H.length]

end RecencyClassifier

open RecencyClassifier

theorem recencyCount_concat (n : Nat) (t : List HoardAccess) (a : HoardAccess) (k : Nat) :
    recencyCount n (t ++ [a]) k = recencyCount n t k +
      if a.2.op ≠ .fail ∧ (recencyClass n t a).toNat = k then 1 else 0 := by
  rw [recencyCount, List.length_append, List.length_singleton, List.range_succ,
    List.countP_append, List.countP_singleton, List.take_left]
  congr 1
  · refine List.countP_congr fun i hi => ?_
    have hi := List.mem_range.mp hi
    rw [List.getElem?_append_left hi, List.take_append_of_le_length hi.le]
  · rw [List.getElem?_concat_length]
    simp

theorem recencyRun_concat {c0 c c' : RecencyClassifier} {t : List HoardAccess} {a : HoardAccess}
    (hrun : recencyRun c0 t = .ok c) (hstep : recencyClassifierUpdate c a.1 a.2 = .ok c') :
    recencyRun c0 (t ++ [a]) = .ok c' := by
  rw [recencyRun, List.foldlM_append]
  show recencyRun c0 t >>= _ = _
  rw [hrun, ok_bind, List.foldlM_cons, hstep, ok_bind]
  rfl

theorem counted_getElem? {count : List Nat} {m k : Nat} (hm : count[k]? = some (u32 m))
    (x : BitVec 32) :
    (counted count x)[k]? = some (u32 (m + if x.toNat = k then 1 else 0)) := by
  rw [counted, List.getElem?_modify, hm]
  by_cases hx : x.toNat = k
  · rw [if_pos hx, ← u32_succ]
    simp [hx]
  · simp [hx]

theorem RecencyClassifier.Follows.run {c0 : RecencyClassifier} {n k : Nat}
    (H0 : c0.Follows n k []) (hzero : ∀ i, i < 32 → c0.count[i]? = some 0) (hn : 0 < n)
    (hk : 4 * n < k) (t : List HoardAccess) : ∃ c, recencyRun c0 t = .ok c ∧ c.Follows n k t ∧
      ∀ i, i < 32 → c.count[i]? = some (u32 (recencyCount n t i)) := by
  induction t using List.reverseRecOn with
  | nil => exact ⟨c0, rfl, H0, hzero⟩
  | append_singleton t a ih =>
    obtain ⟨c, hrun, H, hcount⟩ := ih
    obtain ⟨c', hstep, H', hcount'⟩ := H.step hn hk a
    refine ⟨c', recencyRun_concat hrun hstep, H', fun i hi => ?_⟩
    rw [hcount', recencyCount_concat]
    by_cases hop : a.2.op = .fail
    · rw [if_pos hop, if_neg fun hx => hx.1 hop]
      exact hcount i hi
    · rw [if_neg hop, counted_getElem? (hcount i hi)]
      simp only [ne_eq, hop, not_false_eq_true, true_and]

/-- The classifier never runs out of entries, and each counter has counted the accesses of its
class: those that hit or miss, for blocks among the last `cache_size` accessed, inserted, evicted
and filtered ones or not, as the bits of the class say. A block has its entry exactly while one of
the queues holds it. -/
theorem recencyClassifier_exact (cacheSize : UInt32) (hpos : 0 < cacheSize.toNat)
    (hsize : 4 * cacheSize.toNat + 2 < 2 ^ 32) (t : List HoardAccess) :
    ∃ c0 c, recencyClassifierInit (List.replicate 32 0) cacheSize = .ok c0 ∧
      recencyRun c0 t = .ok c ∧
      (∀ k, k < 32 → c.count[k]? = some (u32 (recencyCount cacheSize.toNat t k))) ∧
      ∀ o e, c.table.lookup o = some e ↔ c.table.oblock e = o ∧ ∃ rType, e ∈ c.q rType := by
  obtain ⟨table, hinit, htab, hnr, hht⟩ := EntryTable.init_spec hsize
  have hstart : recencyClassifierInit (List.replicate 32 0) cacheSize = .ok
      ⟨table, fun _ => [], fun _ => 0, List.replicate 32 0, cacheSize.toNat⟩ := by
    rw [recencyClassifierInit, u32_of_lt hsize, hinit]
    rfl
  have hnil : recencyWindow cacheSize.toNat [] = fun _ => [] := by
    funext r
    simp [recencyWindow, mostRecent]
  have H0 : (RecencyClassifier.mk table (fun _ => []) (fun _ => 0) (List.replicate 32 0)
      cacheSize.toNat).Follows cacheSize.toNat (4 * cacheSize.toNat + 2) [] := by
    refine ⟨?_, rfl, hnr, rfl⟩
    rw [hnil]
    refine ⟨htab, fun _ => rfl, fun _ i hi => ?_, fun _ => List.nodup_nil, fun i hi => ?_,
      fun _ _ => rfl⟩
    · cases hi
    · rw [hht] at hi
      cases hi
  have hzero : ∀ i, i < 32 → (List.replicate 32 0)[i]? = some 0 := fun i hi => by
    rw [List.getElem?_replicate, if_pos hi]
  obtain ⟨c, hrun, H, hcount⟩ := H0.run hzero hpos (by omega) t
  exact ⟨_, c, hstart, hrun, hcount, fun _ _ => H.holds.lookup_iff⟩

/-- One block filtered, then let in over another, then hit. -/
theorem recencyClassifier_three : ∃ c0 c, recencyClassifierInit (List.replicate 32 0) 1 = .ok c0 ∧
    recencyRun c0 [(5, { op := .filter }), (5, { op := .replace, oldOblock := 7 }), (5, {})] =
      .ok c ∧
    c.count[0b10010]? = some 1 := by
  obtain ⟨c0, c, hinit, hrun, hcount, _⟩ := recencyClassifier_exact 1 (by decide) (by decide)
    [(5, { op := .filter }), (5, { op := .replace, oldOblock := 7 }), (5, {})]
  exact ⟨c0, c, hinit, hrun, hcount 0b10010 (by decide)⟩

end Fomo
