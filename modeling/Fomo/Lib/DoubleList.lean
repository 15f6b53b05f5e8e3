import Fomo.Lib.MostRecent

/-!
# A directory of two lists

Items seen once are listed in `L1`, items seen again in `L2`, both least recent first. With room
for `c` items in `L1` and for `2 * c` in both, the directory keeps the `c` items seen last.
-/
namespace Fomo.Lib

variable {α : Type*} [DecidableEq α] {c k : Nat} {a x y : α} {l r xs : List α}

/-- An item with `k` more recent ones is not among the last `k`. -/
theorem notMem_mostRecent (h : (a :: r).Sublist l.dedup) (hk : k ≤ r.length) :
    a ∉ mostRecent k l := by
  obtain ⟨p, hp, _⟩ := exists_append_mostRecent k l
  have hnodup : (p ++ mostRecent k l).Nodup := hp ▸ List.nodup_dedup l
  have hlen := length_mostRecent k l
  rw [hp, List.sublist_append_iff] at h
  obtain ⟨s, s', heq, hs, hs'⟩ := h
  cases s with
  | nil =>
    have hle := hs'.length_le
    rw [← List.nil_append s', ← heq, List.length_cons] at hle
    omega
  | cons b s =>
    obtain rfl := (List.cons.inj heq).1
    exact fun hmem => (List.nodup_append.mp hnodup).2.2 a (hs.subset List.mem_cons_self) a hmem rfl

theorem mem_mostRecent_concat (h : a ∈ mostRecent k (l ++ [x])) : a = x ∨ a ∈ mostRecent k l := by
  rw [mostRecent_concat_trim] at h
  have h : a ∈ (mostRecent k l).erase x ++ [x] := by
    unfold trim at h
    split at h
    · exact List.mem_of_mem_tail h
    · exact h
  rcases List.mem_append.mp h with h | h
  · exact Or.inr (List.mem_of_mem_erase h)
  · exact Or.inl (List.mem_singleton.mp h)

structure DoubleList (α : Type*) where
  l1 : List α := []
  l2 : List α := []

namespace DoubleList

/-- A new item goes to `L1`, which drops its first item when it is full; otherwise `L2` drops one
when both are full. An item that is listed goes to `L2`. -/
def request (c : Nat) (d : DoubleList α) (x : α) : DoubleList α :=
  if x ∈ d.l1 then { l1 := d.l1.erase x, l2 := d.l2 ++ [x] }
  else if x ∈ d.l2 then { d with l2 := d.l2.erase x ++ [x] }
  else if d.l1.length = c then { d with l1 := d.l1.tail ++ [x] }
  else if d.l1.length + d.l2.length = 2 * c then { l1 := d.l1 ++ [x], l2 := d.l2.tail }
  else { d with l1 := d.l1 ++ [x] }

def requests (c : Nat) (d : DoubleList α) (xs : List α) : DoubleList α := xs.foldl (request c) d

def Mem (d : DoubleList α) (a : α) : Prop := a ∈ d.l1 ∨ a ∈ d.l2

/-- The directory after the items `xs`. -/
structure Recalls (c : Nat) (xs : List α) (d : DoubleList α) : Prop where
  l1 : d.l1.Sublist xs.dedup
  l2 : d.l2.Sublist xs.dedup
  disjoint : ∀ a ∈ d.l1, a ∉ d.l2
  l1_le : d.l1.length ≤ c
  length_le : d.l1.length + d.l2.length ≤ 2 * c
  recent : ∀ a ∈ mostRecent c xs, d.Mem a

variable {d : DoubleList α}

theorem Recalls.nil (c : Nat) : Recalls c [] ({} : DoubleList α) := by
  refine ⟨List.nil_sublist _, List.nil_sublist _, fun a ha => ?_, Nat.zero_le _, Nat.zero_le _,
    fun a ha => ?_⟩
  · cases ha
  · simp [mostRecent, List.rtake] at ha

theorem Recalls.nodup_l1 (h : d.Recalls c xs) : d.l1.Nodup := (List.nodup_dedup xs).sublist h.l1

theorem Recalls.nodup_l2 (h : d.Recalls c xs) : d.l2.Nodup := (List.nodup_dedup xs).sublist h.l2

/-- What is left of a list keeps its place before the new item. -/
theorem sublist_concat (h : l.Sublist xs.dedup) (hx : x ∉ l) : l.Sublist (xs ++ [x]).dedup := by
  rw [dedup_concat, ← List.erase_of_not_mem hx]
  exact (h.erase x).trans (List.sublist_append_left _ _)

theorem sublist_concat_snoc (h : l.Sublist xs.dedup) (hx : x ∉ l) :
    (l ++ [x]).Sublist (xs ++ [x]).dedup := by
  rw [dedup_concat, ← List.erase_of_not_mem hx]
  exact (h.erase x).append (List.Sublist.refl _)

/-- The items seen last are listed if only others were dropped. -/
theorem Recalls.recent_concat (h : d.Recalls c xs) {d' : DoubleList α} (hx : d'.Mem x)
    (hkeep : ∀ a, a ≠ x → d.Mem a → d'.Mem a ∨ a ∉ mostRecent c (xs ++ [x])) :
    ∀ a ∈ mostRecent c (xs ++ [x]), d'.Mem a := by
  intro a ha
  by_cases hax : a = x
  · exact hax ▸ hx
  · have hold := (mem_mostRecent_concat ha).resolve_left hax
    exact (hkeep a hax (h.recent a hold)).resolve_right fun hno => hno ha

/-- An item of `L1` is seen again. -/
theorem Recalls.again (h : d.Recalls c xs) (h1 : x ∈ d.l1) :
    Recalls c (xs ++ [x]) { l1 := d.l1.erase x, l2 := d.l2 ++ [x] } := by
  have hout : x ∉ d.l1.erase x := h.nodup_l1.not_mem_erase
  have herase := List.length_erase_of_mem h1
  have hpos := List.length_pos_of_mem h1
  have hl1 := h.l1_le
  have hlen := h.length_le
  refine ⟨sublist_concat (List.erase_sublist.trans h.l1) hout,
    sublist_concat_snoc h.l2 (h.disjoint x h1), fun a ha hmem => ?_, ?_, ?_,
    h.recent_concat (Or.inr (by simp)) fun a hax ha => Or.inl ?_⟩
  · rcases List.mem_append.mp hmem with hmem | hmem
    · exact h.disjoint a (List.mem_of_mem_erase ha) hmem
    · rw [List.mem_singleton.mp hmem] at ha
      exact hout ha
  · dsimp only
    omega
  · dsimp only
    rw [List.length_append, List.length_singleton]
    omega
  · rcases ha with ha | ha
    · exact Or.inl ((List.mem_erase_of_ne hax).mpr ha)
    · exact Or.inr (List.mem_append_left _ ha)

/-- An item of `L2` is seen again. -/
theorem Recalls.renew (h : d.Recalls c xs) (h1 : x ∉ d.l1) (h2 : x ∈ d.l2) :
    Recalls c (xs ++ [x]) { d with l2 := d.l2.erase x ++ [x] } := by
  have hout : x ∉ d.l2.erase x := h.nodup_l2.not_mem_erase
  have herase := List.length_erase_of_mem h2
  have hpos := List.length_pos_of_mem h2
  have hlen := h.length_le
  refine ⟨sublist_concat h.l1 h1, sublist_concat_snoc (List.erase_sublist.trans h.l2) hout,
    fun a ha hmem => ?_, h.l1_le, ?_, h.recent_concat (Or.inr (by simp)) fun a hax ha => Or.inl ?_⟩
  · rcases List.mem_append.mp hmem with hmem | hmem
    · exact h.disjoint a ha (List.mem_of_mem_erase hmem)
    · rw [List.mem_singleton.mp hmem] at ha
      exact h1 ha
  · dsimp only
    rw [List.length_append, List.length_singleton]
    omega
  · rcases ha with ha | ha
    · exact Or.inl ha
    · exact Or.inr (List.mem_append_left _ ((List.mem_erase_of_ne hax).mpr ha))

/-- A new item comes in, and what is dropped was not seen lately. -/
theorem Recalls.enter (h : d.Recalls c xs) (h1 : x ∉ d.l1) (h2 : x ∉ d.l2)
    (hl : l.Sublist d.l1) (hr : r.Sublist d.l2) (hle : l.length + 1 ≤ c)
    (hlen : l.length + 1 + r.length ≤ 2 * c)
    (hdrop1 : ∀ a ∈ d.l1, a ∈ l ∨ a ∉ mostRecent c (xs ++ [x]))
    (hdrop2 : ∀ a ∈ d.l2, a ∈ r ∨ a ∉ mostRecent c (xs ++ [x])) :
    Recalls c (xs ++ [x]) { l1 := l ++ [x], l2 := r } := by
  have hlength : (l ++ [x]).length = l.length + 1 := by simp
  refine ⟨sublist_concat_snoc (hl.trans h.l1) fun hx => h1 (hl.subset hx),
    sublist_concat (hr.trans h.l2) fun hx => h2 (hr.subset hx), fun a ha hmem => ?_,
    hlength.trans_le hle, ?_, h.recent_concat (Or.inl (by simp)) fun a _ ha => ?_⟩
  · rcases List.mem_append.mp ha with ha | ha
    · exact h.disjoint a (hl.subset ha) (hr.subset hmem)
    · rw [List.mem_singleton.mp ha] at hmem
      exact h2 (hr.subset hmem)
  · dsimp only
    rw [hlength]
    exact hlen
  · rcases ha with ha | ha
    · exact (hdrop1 a ha).imp_left fun hmem => Or.inl (List.mem_append_left _ hmem)
    · exact (hdrop2 a ha).imp_left Or.inr

theorem Recalls.request (h : d.Recalls c xs) (x : α) (hc : 0 < c) :
    (d.request c x).Recalls c (xs ++ [x]) := by
  have hl1 := h.l1_le
  have hlen := h.length_le
  unfold DoubleList.request
  split
  · next h1 => exact h.again h1
  split
  · next h1 h2 => exact h.renew h1 h2
  next h1 h2 =>
  split
  · next hfull =>
    refine h.enter h1 h2 (List.tail_sublist _) (List.Sublist.refl _) ?_ ?_ (fun a ha => ?_)
      fun a ha => Or.inl ha
    · rw [List.length_tail]
      omega
    · rw [List.length_tail]
      omega
    · cases hd : d.l1 with
      | nil => rw [hd] at ha; cases ha
      | cons y rest =>
        rw [hd] at ha h1
        rcases List.mem_cons.mp ha with rfl | ha
        · refine Or.inr (notMem_mostRecent (r := rest ++ [x]) (sublist_concat_snoc (hd ▸ h.l1) h1)
            ?_)
          rw [List.length_append, List.length_singleton, ← hfull, hd, List.length_cons]
        · exact Or.inl ha
  split
  · next hboth =>
    refine h.enter h1 h2 (List.Sublist.refl _) (List.tail_sublist _) (by omega) ?_
      (fun a ha => Or.inl ha) fun a ha => ?_
    · rw [List.length_tail]
      omega
    · cases hd : d.l2 with
      | nil => rw [hd] at ha; cases ha
      | cons y rest =>
        rw [hd] at ha h2 hboth
        rcases List.mem_cons.mp ha with rfl | ha
        · refine Or.inr (notMem_mostRecent (r := rest) (sublist_concat (hd ▸ h.l2) h2) ?_)
          rw [List.length_cons] at hboth
          omega
        · exact Or.inl ha
  · exact h.enter h1 h2 (List.Sublist.refl _) (List.Sublist.refl _) (by omega) (by omega)
      (fun a ha => Or.inl ha) fun a ha => Or.inl ha

end DoubleList

end Fomo.Lib
