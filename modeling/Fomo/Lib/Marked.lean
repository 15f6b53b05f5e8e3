import Mathlib.Data.List.Nodup
import Mathlib.Logic.Equiv.Basic

/-!
# A list and the sublist of its marked members

A list keeps its marked members in a second list, in the same order. Removing, appending
and replacing in the first are the same operations in the second, and the front of the
list up to its first unmarked member is the front of the sublist.
-/
namespace Fomo.Lib

variable {α : Type*} [DecidableEq α] {l t : List α} {a b x : α} {p p' : α → Bool}

theorem filter_erase (hl : l.Nodup) (p : α → Bool) (a : α) :
    (l.erase a).filter p = (l.filter p).erase a := by
  rw [hl.erase_eq_filter, (hl.filter p).erase_eq_filter, List.filter_filter, List.filter_filter]
  exact List.filter_congr fun x _ => Bool.and_comm _ _

/-- `l` with `b` in the place of `a`. -/
def replace (a b : α) (l : List α) : List α := l.map fun x => if x = a then b else x

theorem length_replace (a b : α) (l : List α) : (replace a b l).length = l.length :=
  List.length_map _

theorem mem_replace (ha : a ∈ l) : x ∈ replace a b l ↔ x = b ∨ x ∈ l ∧ x ≠ a := by
  unfold replace
  rw [List.mem_map]
  constructor
  · intro hx
    obtain ⟨y, hy, hyx⟩ := hx
    by_cases hya : y = a
    · rw [if_pos hya] at hyx
      exact Or.inl hyx.symm
    · rw [if_neg hya] at hyx
      exact Or.inr ⟨hyx ▸ hy, hyx ▸ hya⟩
  · intro hx
    rcases hx with hx | ⟨hx, hne⟩
    · exact ⟨a, ha, by rw [if_pos rfl, hx]⟩
    · exact ⟨x, hx, if_neg hne⟩

theorem nodup_replace (hl : l.Nodup) (hb : b ∉ l) : (replace a b l).Nodup := by
  refine hl.map_on fun x hx y hy hxy => ?_
  have hbx : b ≠ x := fun he => hb (he ▸ hx)
  have hby : b ≠ y := fun he => hb (he ▸ hy)
  grind

theorem filter_replace (ha : p a = true) (hb : p' b = true)
    (h : ∀ x ∈ l, x ≠ a → p' x = p x) :
    (replace a b l).filter p' = replace a b (l.filter p) := by
  induction l with
  | nil => rfl
  | cons y l ih =>
    have ih := ih fun x hx => h x (List.mem_cons_of_mem _ hx)
    unfold replace at ih ⊢
    by_cases hy : y = a
    · subst hy
      simp [ha, hb, ih]
    · have hp := h y List.mem_cons_self hy
      cases hpy : p y <;> simp [hy, hp, hpy, ih]

/-- Pushing `b`, exchanging it with `a` and removing `a` puts `b` in the place of `a`. -/
theorem erase_swap_push (ha : a ∈ l) (hb : b ∉ l) :
    ((l ++ [b]).map (Equiv.swap a b)).erase a = replace a b l := by
  have hmap : l.map (Equiv.swap a b) = replace a b l := by
    refine List.map_congr_left fun x hx => ?_
    have hxb : x ≠ b := fun he => hb (he ▸ hx)
    by_cases hxa : x = a
    · rw [hxa, Equiv.swap_apply_left, if_pos rfl]
    · rw [Equiv.swap_apply_of_ne_of_ne hxa hxb, if_neg hxa]
  have hno : a ∉ replace a b l := by
    have hab : a ≠ b := fun he => hb (he ▸ ha)
    rw [mem_replace ha]
    simp [hab]
  rw [List.map_append, hmap, List.erase_append_right _ hno]
  simp

/-! ## The front of the list -/

/-- Nothing marked stands in front of the first unmarked member. -/
def Clear (p : α → Bool) (l : List α) : Prop := ∀ x ∈ l.head?, p x = false

omit [DecidableEq α] in
theorem clear_nil (p : α → Bool) : Clear p [] := by
  intro x hx
  cases hx

omit [DecidableEq α] in
theorem clear_cons : Clear p (a :: t) ↔ p a = false := by
  simp [Clear]

/-- The first member stays. -/
theorem Clear.erase_of_head_ne (h : Clear p l) (hne : l.head? ≠ some a) :
    Clear p (l.erase a) := by
  cases l with
  | nil => exact h
  | cons y l =>
    have hya : y ≠ a := fun he => hne (congrArg some he)
    rw [List.erase_cons_tail (by simpa using hya)]
    exact clear_cons.mpr (clear_cons.mp h)

theorem Clear.erase (h : Clear p l) (ha : p a = true) : Clear p (l.erase a) :=
  h.erase_of_head_ne fun hhead => by simp [h a hhead] at ha

theorem Clear.replace (h : Clear p l) (ha : p a = true) (hp : ∀ x ∈ l, p' x = p x) :
    Clear p' (replace a b l) := by
  cases l with
  | nil => exact clear_nil _
  | cons y l =>
    have hy := clear_cons.mp h
    have hne : y ≠ a := fun he => by simp [he, ha] at hy
    have hcons : Lib.replace a b (y :: l) = y :: Lib.replace a b l := by
      simp [Lib.replace, hne]
    rw [hcons]
    exact clear_cons.mpr ((hp y List.mem_cons_self).trans hy)

omit [DecidableEq α] in
theorem Clear.push (h : Clear p l) (ha : p a = false) : Clear p (l ++ [a]) := by
  cases l with
  | nil => exact clear_cons.mpr ha
  | cons y l => exact clear_cons.mpr (clear_cons.mp h)

omit [DecidableEq α] in
/-- Appending behind a list that has a member. -/
theorem Clear.append (h : Clear p l) (hne : l ≠ []) : Clear p (l ++ t) := by
  cases l with
  | nil => exact absurd rfl hne
  | cons y l => exact clear_cons.mpr (clear_cons.mp h)

end Fomo.Lib
