import Fomo.Lib.WriteBack
import Mathlib.Data.List.Basic

/-!
# Larger write-back caches

The items of a cache in the order of use are among those of a larger one. So the larger one
misses less, and it also writes back less: each item it drops marked was dropped marked by the
smaller one since it was written.
-/
namespace Fomo.Lib

variable {α : Type*} [DecidableEq α] {k k' : Nat} {l : List α} {a x : α}

/-! ## Lists -/

theorem mostRecent_subset (hk : k ≤ k') (l : List α) : mostRecent k l ⊆ mostRecent k' l := by
  obtain ⟨p, hp, _⟩ := exists_append_mostRecent k l
  obtain ⟨p', hp', _⟩ := exists_append_mostRecent k' l
  have hlen : (mostRecent k l).length ≤ (mostRecent k' l).length := by
    rw [length_mostRecent, length_mostRecent]
    omega
  exact (List.suffix_of_suffix_length_le ⟨p, hp.symm⟩ ⟨p', hp'.symm⟩ hlen).subset

omit [DecidableEq α] in
/-- An item that no longer fits is the first one. -/
theorem mem_trim_or (h : x ∈ l) : x ∈ trim k l ∨ k < l.length ∧ l.head? = some x := by
  unfold trim
  split
  · next hlt =>
    cases l with
    | nil => exact Or.inl h
    | cons y l =>
      rcases List.mem_cons.mp h with rfl | hx
      · exact Or.inr ⟨hlt, rfl⟩
      · exact Or.inl hx
  · exact Or.inl h

omit [DecidableEq α] in
theorem trim_sublist (k : Nat) (l : List α) : (trim k l).Sublist l := by
  unfold trim
  split
  · exact List.tail_sublist l
  · exact List.Sublist.refl l

/-- One exception counts at most once. -/
theorem countP_le_of_except {p q : α → Bool} {u : α} (hl : l.Nodup)
    (h : ∀ x ∈ l, p x = true → q x = true ∨ x = u) : l.countP p ≤ l.countP q + 1 := by
  induction l with
  | nil => simp
  | cons y l ih =>
    obtain ⟨hy, hl⟩ := List.nodup_cons.mp hl
    have hrest : ∀ x ∈ l, p x = true → q x = true ∨ x = u := fun x hx =>
      h x (List.mem_cons_of_mem y hx)
    rw [List.countP_cons, List.countP_cons]
    by_cases hyu : y = u
    · have hle : l.countP p ≤ l.countP q := by
        apply List.countP_mono_left
        intro x hx hpx
        refine (hrest x hx hpx).resolve_right fun hxu => ?_
        rw [hxu, ← hyu] at hx
        exact hy hx
      split <;> split <;> omega
    · have hpq : p y = true → q y = true := fun hpy =>
        (h y List.mem_cons_self hpy).resolve_right hyu
      have := ih hl hrest
      by_cases hpy : p y = true
      · rw [if_pos hpy, if_pos (hpq hpy)]
        omega
      · rw [if_neg hpy]
        omega

namespace WriteBack

variable {m m' : WriteBack α} {write : Bool}

/-- The item would be written back if it left. -/
def dirty (m : WriteBack α) (x : α) : Bool := decide (x ∈ m.items) && m.mark x

/-- The marked items of the larger cache that the smaller one has written back already. -/
def owed (m m' : WriteBack α) : Nat := m'.items.countP fun x => m'.mark x && !m.dirty x

/-- A smaller and a larger cache after the accesses `l`. -/
structure Includes (k k' : Nat) (l : List α) (m m' : WriteBack α) : Prop where
  small : m.items = mostRecent k l
  large : m'.items = mostRecent k' l
  dirty : ∀ x, m.dirty x = true → m'.mark x = true

theorem Includes.nil (k k' : Nat) : Includes (α := α) k k' [] {} {} :=
  ⟨by simp [mostRecent], by simp [mostRecent], fun x hx => by simp [WriteBack.dirty] at hx⟩

theorem dirty_eq_true : m.dirty x = true ↔ x ∈ m.items ∧ m.mark x = true := by
  simp [dirty]

/-- The item used is in the cache. -/
theorem mem_access (hk : 0 < k) (m : WriteBack α) (a : α) (write : Bool) :
    a ∈ (m.access k a write).items := by
  unfold access trim
  split
  · next hlt =>
    have hne : m.items.erase a ≠ [] := by
      intro hnil
      rw [hnil] at hlt
      simp at hlt
      omega
    rw [List.tail_append_of_ne_nil hne]
    simp
  · simp

theorem mem_items_of_access (hx : x ∈ (m.access k a write).items) (hne : x ≠ a) : x ∈ m.items := by
  rcases List.mem_append.mp ((trim_sublist k _).subset hx) with h | h
  · exact List.mem_of_mem_erase h
  · exact absurd (List.mem_singleton.mp h) hne

/-- An item that an access drops is the first one of a full cache. -/
theorem dropped (hlen : m.items.length ≤ k) (hx : x ∈ m.items) (hne : x ≠ a)
    (hno : x ∉ (m.access k a write).items) :
    a ∉ m.items ∧ m.items.length = k ∧ m.items.head? = some x := by
  have hmem : x ∈ m.items.erase a ++ [a] :=
    List.mem_append_left _ ((List.mem_erase_of_ne hne).mpr hx)
  rcases mem_trim_or (k := k) hmem with h | ⟨hlt, hhead⟩
  · exact absurd h hno
  · have ha : a ∉ m.items := by
      intro ha
      rw [List.length_append, List.length_singleton, List.length_erase_of_mem ha] at hlt
      have := List.length_pos_of_mem ha
      omega
    rw [List.erase_of_not_mem ha] at hlt hhead
    rw [List.length_append, List.length_singleton] at hlt
    refine ⟨ha, by omega, ?_⟩
    cases hm : m.items with
    | nil =>
      rw [hm] at hx
      cases hx
    | cons y ys =>
      rw [hm] at hhead
      exact hhead

/-- What is owed of the item used was owed before. -/
theorem owed_self (hk0 : 0 < k)
    (hp : ((m'.access k' a write).mark a && !(m.access k a write).dirty a) = true) :
    a ∈ m'.items ∧ (m'.mark a && !m.dirty a) = true := by
  rw [Bool.and_eq_true, mark_access_self, Bool.not_eq_true', WriteBack.dirty,
    decide_eq_true (mem_access hk0 m a write), Bool.true_and, mark_access_self] at hp
  obtain ⟨hmark', hclean⟩ := hp
  rw [Bool.or_eq_false_iff] at hclean
  rw [hclean.2, Bool.or_false, Bool.and_eq_true, decide_eq_true_eq] at hmark'
  refine ⟨hmark'.1, ?_⟩
  rw [hmark'.2, Bool.true_and, Bool.not_eq_true']
  exact hclean.1

namespace Includes

variable (h : Includes k k' l m m')
include h

theorem small_le : m.items.length ≤ k := by
  rw [h.small, length_mostRecent]
  exact Nat.min_le_left _ _

theorem subset (hk : k ≤ k') : m.items ⊆ m'.items := by
  rw [h.small, h.large]
  exact mostRecent_subset hk l

/-- A write marks the item in both caches, and what the smaller one drops is no matter. -/
theorem access (hk : k ≤ k') (a : α) (write : Bool) :
    Includes k k' (l ++ [a]) (m.access k a write) (m'.access k' a write) := by
  refine ⟨items_access h.small, items_access h.large, fun x hx => ?_⟩
  obtain ⟨hmem, hmark⟩ := dirty_eq_true.mp hx
  by_cases hxa : x = a
  · subst hxa
    rw [mark_access_self] at hmark ⊢
    have hold : (decide (x ∈ m.items) && m.mark x) = true →
        (decide (x ∈ m'.items) && m'.mark x) = true := by
      intro hd
      have hin := (dirty_eq_true.mp hd).1
      simp [h.subset hk hin, h.dirty x hd]
    cases write with
    | true => simp
    | false =>
      rw [Bool.or_false] at hmark ⊢
      exact hold hmark
  · rw [mark_access_of_ne hxa] at hmark ⊢
    exact h.dirty x (dirty_eq_true.mpr ⟨mem_items_of_access hmem hxa, hmark⟩)

/-- An item newly owed has just been written back by the smaller cache. -/
theorem owed_of_access (hx : x ∈ m'.items.erase a)
    (hp : ((m'.access k' a write).mark x && !(m.access k a write).dirty x) = true) :
    (m'.mark x && !m.dirty x) = true ∨ m.WritesBack k a ∧ m.items.head? = some x := by
  have hnodup : m'.items.Nodup := h.large ▸ mostRecent_nodup k' l
  have hne : x ≠ a := (hnodup.mem_erase_iff.mp hx).1
  rw [Bool.and_eq_true, mark_access_of_ne hne, Bool.not_eq_true'] at hp
  obtain ⟨hmark', hclean⟩ := hp
  cases hd : m.dirty x with
  | false => exact Or.inl (by simp [hmark'])
  | true =>
    obtain ⟨hmem, hmark⟩ := dirty_eq_true.mp hd
    have hno : x ∉ (m.access k a write).items := by
      intro hin
      have hstill : (m.access k a write).dirty x = true :=
        dirty_eq_true.mpr ⟨hin, by rw [mark_access_of_ne hne, hmark]⟩
      rw [hclean] at hstill
      cases hstill
    obtain ⟨ha, hfull, hhead⟩ := dropped h.small_le hmem hne hno
    exact Or.inr ⟨⟨ha, hfull, by simp [hhead, hmark]⟩, hhead⟩

/-- What the larger cache writes back and owes after an access is covered by what the smaller one
writes back then and the debt before. -/
theorem owed_access (hk0 : 0 < k) (hk : k ≤ k') (a : α) (write : Bool) :
    owed (m.access k a write) (m'.access k' a write) +
        (if m'.WritesBack k' a then 1 else 0) ≤
      owed m m' + if m.WritesBack k a then 1 else 0 := by
  have h1 := h.access hk a write
  have hnodup : m'.items.Nodup := h.large ▸ mostRecent_nodup k' l
  let p := fun x => m'.mark x && !m.dirty x
  let p1 := fun x => (m'.access k' a write).mark x && !(m.access k a write).dirty x
  have hrest : (m'.items.erase a).countP p1 ≤
      (m'.items.erase a).countP p + if m.WritesBack k a then 1 else 0 := by
    split
    · next hwb =>
      obtain ⟨u, hu⟩ : ∃ u, m.items.head? = some u := by
        cases hhead : m.items.head? with
        | none =>
          have := hwb.2.2
          rw [hhead] at this
          cases this
        | some u => exact ⟨u, rfl⟩
      apply countP_le_of_except (u := u) (hnodup.erase a)
      intro x hx hpx
      rcases h.owed_of_access hx hpx with hold | ⟨_, hhead⟩
      · exact Or.inl hold
      · exact Or.inr (Option.some.inj (hhead.symm.trans hu))
    · next hno =>
      apply List.countP_mono_left
      intro x hx hpx
      exact (h.owed_of_access hx hpx).resolve_right fun hwb => hno hwb.1
  have hself : (m'.items.erase a).countP p + (if p1 a then 1 else 0) ≤ m'.items.countP p := by
    split
    · next hpa =>
      obtain ⟨hin, hold⟩ := owed_self hk0 hpa
      rw [(List.perm_cons_erase hin).countP_eq p, List.countP_cons, if_pos hold]
    · exact List.erase_sublist.countP_le
  have hdrop : owed (m.access k a write) (m'.access k' a write) +
      (if m'.WritesBack k' a then 1 else 0) ≤ (m'.items.erase a ++ [a]).countP p1 := by
    split
    · next hwb =>
      obtain ⟨ha, hfull, hhead⟩ := hwb
      cases hm : m'.items with
      | nil => simp [hm] at hhead
      | cons v vs =>
        rw [hm] at ha hfull hhead hnodup
        have hv : v ≠ a := fun heq => ha (heq ▸ List.mem_cons_self)
        have hitems : (m'.access k' a write).items = vs ++ [a] := by
          have hlt : k' < (v :: vs ++ [a]).length := by
            rw [List.length_append, List.length_singleton]
            omega
          rw [WriteBack.access, hm, List.erase_of_not_mem ha, trim, if_pos hlt]
          rfl
        -- the item dropped is in neither cache any more
        have hpv : p1 v = true := by
          have hno : v ∉ (m.access k a write).items := by
            intro hin
            have hin' := h1.subset hk hin
            rw [hitems, List.mem_append, List.mem_singleton] at hin'
            exact hin'.elim (List.nodup_cons.mp hnodup).1 hv
          have hclean : (m.access k a write).dirty v = false := by
            simp [WriteBack.dirty, hno]
          have hmark : m'.mark v = true := hhead
          simp only [p1, hclean, mark_access_of_ne hv, hmark, Bool.not_false, Bool.and_true]
        rw [owed, hitems, List.erase_of_not_mem ha, List.cons_append, List.countP_cons,
          if_pos hpv]
    · exact (trim_sublist k' _).countP_le
  rw [List.countP_append, List.countP_singleton] at hdrop
  have howed : owed m m' = m'.items.countP p := rfl
  omega

end Includes

end WriteBack

end Fomo.Lib
