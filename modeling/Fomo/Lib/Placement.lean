import Mathlib.Logic.Function.Basic

/-!
# Items placed in slots

A table says for each slot which item lies in it. Two parties that tell each other every move
keep the same table; what they have to agree on is stated as a relation between items and slots.
-/
namespace Fomo.Lib

variable {α β : Type*} [DecidableEq α] [DecidableEq β]

abbrev Placement (α β : Type*) := β → Option α

namespace Placement

def put (m : Placement α β) (b : β) (a : α) : Placement α β := Function.update m b (some a)

def clear (m : Placement α β) (b : β) : Placement α β := Function.update m b none

/-- `a` is taken out, wherever it lies. -/
def take (m : Placement α β) (a : α) : Placement α β := fun b => if m b = some a then none else m b

def rename (m : Placement α β) (a a' : α) : Placement α β := fun b =>
  if m b = some a then some a' else m b

omit [DecidableEq α] [DecidableEq β] in
/-- The table says where the items lie, `R a b` standing for `a` in `b`. -/
def Describes (m : Placement α β) (R : α → β → Prop) : Prop := ∀ a b, m b = some a ↔ R a b

variable {m : Placement α β} {R R' : α → β → Prop} {a a' : α} {b b' : β}

omit [DecidableEq α] [DecidableEq β] in
theorem Describes.empty (h : ∀ a b, ¬R a b) : Describes (fun _ => none) R := fun a b =>
  iff_of_false (by simp) (h a b)

omit [DecidableEq α] [DecidableEq β] in
theorem Describes.congr (h : Describes m R) (hR : ∀ a b, R' a b ↔ R a b) : Describes m R' :=
  fun a b => (h a b).trans (hR a b).symm

omit [DecidableEq α] [DecidableEq β] in
theorem Describes.eq_none (h : Describes m R) : m b = none ↔ ∀ a, ¬R a b := by
  constructor
  · intro hn a ha
    rw [(h a b).mpr ha] at hn
    cases hn
  · intro hno
    cases hb : m b with
    | none => rfl
    | some a => exact absurd ((h a b).mp hb) (hno a)

omit [DecidableEq α] in
theorem Describes.put (h : Describes m R)
    (hR : ∀ x y, R' x y ↔ (x = a ∧ y = b) ∨ (y ≠ b ∧ R x y)) : Describes (m.put b a) R' := by
  intro x y
  rw [hR, Placement.put]
  by_cases hy : y = b
  · rw [hy, Function.update_self]
    simp [eq_comm]
  · rw [Function.update_of_ne hy, h x y]
    simp [hy]

omit [DecidableEq α] in
theorem Describes.clear (h : Describes m R) (hR : ∀ x y, R' x y ↔ y ≠ b ∧ R x y) :
    Describes (m.clear b) R' := by
  intro x y
  rw [hR, Placement.clear]
  by_cases hy : y = b
  · rw [hy, Function.update_self]
    simp
  · rw [Function.update_of_ne hy, h x y]
    simp [hy]

omit [DecidableEq β] in
theorem Describes.take (h : Describes m R) (hR : ∀ x y, R' x y ↔ x ≠ a ∧ R x y) :
    Describes (m.take a) R' := by
  intro x y
  rw [hR, Placement.take, ← h x y]
  by_cases hy : m y = some a
  · rw [if_pos hy, hy]
    simp [eq_comm]
  · rw [if_neg hy]
    constructor
    · intro hx
      refine ⟨?_, hx⟩
      rintro rfl
      exact hy hx
    · exact And.right

omit [DecidableEq β] in
theorem Describes.rename (h : Describes m R)
    (hR : ∀ x y, R' x y ↔ (x = a' ∧ R a y) ∨ (x ≠ a ∧ R x y)) : Describes (m.rename a a') R' := by
  intro x y
  rw [hR, Placement.rename, ← h x y, ← h a y]
  by_cases hy : m y = some a
  · rw [if_pos hy, hy]
    simp [eq_comm]
  · rw [if_neg hy]
    simp only [hy, and_false, false_or]
    constructor
    · intro hx
      refine ⟨?_, hx⟩
      rintro rfl
      exact hy hx
    · exact And.right

end Placement

end Fomo.Lib
