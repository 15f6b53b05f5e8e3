import Mathlib.Data.List.DropRight

/-!
# Tumbling windows

A log is cut into periods of `p` items. `window p l` is the part of the log that
belongs to the period under way; when a period ends it is empty again, and the period
that just ended is the last `p` items of the log.
-/
namespace Fomo.Lib

variable {α : Type*} {p : Nat} {l : List α}

def window (p : Nat) (l : List α) : List α := l.rtake (l.length % p)

theorem succ_mod_of_ne_zero {n : Nat} (h : (n + 1) % p ≠ 0) : (n + 1) % p = n % p + 1 := by
  have hmod : (n % p + 1) % p = (n + 1) % p := Nat.mod_add_mod n p 1
  rcases Nat.eq_zero_or_pos p with hp | hp
  · subst hp
    simp
  · have hlt := Nat.mod_lt n hp
    rcases Nat.lt_or_ge (n % p + 1) p with hr | hr
    · rw [← hmod, Nat.mod_eq_of_lt hr]
    · have hself : n % p + 1 = p := by omega
      rw [hself, Nat.mod_self] at hmod
      omega

theorem mod_of_succ_mod_eq_zero {n : Nat} (hp : 0 < p) (h : (n + 1) % p = 0) :
    n % p = p - 1 := by
  have hmod : (n % p + 1) % p = 0 := by rw [Nat.mod_add_mod, h]
  have hlt := Nat.mod_lt n hp
  rcases Nat.lt_or_ge (n % p + 1) p with hr | hr
  · rw [Nat.mod_eq_of_lt hr] at hmod
    omega
  · omega

theorem window_concat (h : (l.length + 1) % p ≠ 0) (a : α) :
    window p (l ++ [a]) = window p l ++ [a] := by
  have hlen : (l ++ [a]).length % p = l.length % p + 1 := by
    rw [List.length_append, List.length_singleton]
    exact succ_mod_of_ne_zero h
  rw [window, hlen, List.rtake_concat_succ, window]

theorem window_concat_of_boundary (h : (l.length + 1) % p = 0) (a : α) :
    window p (l ++ [a]) = [] := by
  have hlen : (l ++ [a]).length % p = 0 := by simpa using h
  rw [window, hlen, List.rtake_zero]

/-- At the end of a period the last `p` items are the window and the item that ends it. -/
theorem rtake_concat_of_boundary (hp : 0 < p) (h : (l.length + 1) % p = 0) (a : α) :
    (l ++ [a]).rtake p = window p l ++ [a] := by
  have hmod := mod_of_succ_mod_eq_zero hp h
  obtain ⟨q, rfl⟩ : ∃ q, p = q + 1 := ⟨p - 1, by omega⟩
  rw [List.rtake_concat_succ, window, hmod, Nat.add_sub_cancel]

end Fomo.Lib
