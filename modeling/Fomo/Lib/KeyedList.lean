import Mathlib.Data.List.Nodup

/-!
# Lists of references seen through their keys

A container lists references; what matters outside is the list of the keys they
carry. With distinct keys, list operations on references are the same operations on
keys, and rewriting the key of one reference renames one key.
-/
namespace Fomo.Lib

variable {ρ κ : Type*} [DecidableEq ρ] [DecidableEq κ] {key key' : ρ → κ} {l : List ρ} {a : ρ}

theorem map_erase_of_nodup (h : (l.map key).Nodup) (ha : a ∈ l) :
    (l.erase a).map key = (l.map key).erase (key a) := by
  induction l with
  | nil => simp at ha
  | cons x l ih =>
    rw [List.map_cons, List.nodup_cons] at h
    by_cases hx : x = a
    · subst hx; simp
    · have ha' : a ∈ l := (List.mem_cons.mp ha).resolve_left (Ne.symm hx)
      have hk : key x ≠ key a := fun he => h.1 (he ▸ List.mem_map_of_mem ha')
      rw [List.erase_cons_tail (by simpa using hx), List.map_cons, List.map_cons,
        List.erase_cons_tail (by simpa using hk), ih h.2 ha']

omit [DecidableEq κ] in
/-- Keys of the other references decide the keys of the list without `a`. -/
theorem map_erase_congr (hl : l.Nodup) (hk : ∀ x, x ≠ a → key' x = key x) :
    (l.erase a).map key' = (l.erase a).map key :=
  List.map_congr_left fun x hx => hk x (hl.mem_erase_iff.mp hx).1

omit [DecidableEq ρ] in
/-- Rewriting the key of `a` from `k` to `k'` renames `k` to `k'` in the list of keys. -/
theorem map_rename {k' : κ} (h : (l.map key).Nodup) (ha : a ∈ l) (hself : key' a = k')
    (hk : ∀ x, x ≠ a → key' x = key x) :
    l.map key' = (l.map key).map fun x => if x = key a then k' else x := by
  rw [List.map_map]
  refine List.map_congr_left fun x hx => ?_
  by_cases hxa : x = a
  · subst hxa; simp [hself]
  · have hne : key x ≠ key a := fun he => hxa (List.inj_on_of_nodup_map h hx ha he)
    simp [hk x hxa, hne]

end Fomo.Lib
