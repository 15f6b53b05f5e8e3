/-!
# Computations seen through a view

Two fallible computations of which the second does what the first does, on values that a view
leaves less of. The rules follow the shape of a program.
-/
namespace Fomo.Lib

universe u v

variable {φ : Type u} {α β γ δ : Type v} {f : α → β} {g : γ → δ} {x x' : Except φ α}
  {y y' : Except φ β}

/-- The computation `y` faults where `x` does, and returns the view of what `x` returns. -/
def Viewed (f : α → β) (x : Except φ α) (y : Except φ β) : Prop := y = x.map f

namespace Viewed

theorem ok {a : α} {b : β} (h : b = f a) : Viewed f (.ok a : Except φ α) (.ok b) := by
  rw [h]
  rfl

theorem pure {a : α} {b : β} (h : b = f a) :
    Viewed f (Pure.pure a : Except φ α) (Pure.pure b) := ok h

theorem error (f : α → β) (e : φ) : Viewed f (.error e) (.error e) := rfl

theorem same (x : Except φ α) : Viewed id x x := by
  cases x <;> rfl

theorem bind {k : α → Except φ γ} {k' : β → Except φ δ} (h : Viewed f x y)
    (hk : ∀ a, Viewed g (k a) (k' (f a))) : Viewed g (x >>= k) (y >>= k') := by
  obtain rfl := h
  cases x with
  | error e => rfl
  | ok a => exact hk a

theorem ite {p : Prop} [Decidable p] (h : Viewed f x y) (h' : Viewed f x' y') :
    Viewed f (if p then x else x') (if p then y else y') := by
  by_cases hp : p
  · rw [if_pos hp, if_pos hp]
    exact h
  · rw [if_neg hp, if_neg hp]
    exact h'

/-- What the second returns is the view of what the first returned. -/
theorem eq_ok (h : Viewed f x y) {b : β} (hy : y = .ok b) : ∃ a, x = .ok a ∧ f a = b := by
  obtain rfl := h
  cases x with
  | error e => cases hy
  | ok a => exact ⟨a, rfl, Except.ok.inj hy⟩

end Viewed

end Fomo.Lib
