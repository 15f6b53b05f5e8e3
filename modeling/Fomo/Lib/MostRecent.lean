import Mathlib.Data.List.Dedup
import Mathlib.Data.List.DropRight

/-!
# The most recent distinct items of a sequence

`mostRecent k l` lists the last `k` distinct items of `l`, each at its last
occurrence. It can be maintained item by item: an item it holds moves to the end, a
new one is added, and at the bound the first one is dropped.
-/
namespace Fomo.Lib

variable {α : Type*} [DecidableEq α] {k : Nat} {l : List α} {a : α}

def mostRecent (k : Nat) (l : List α) : List α := l.dedup.rtake k

theorem dedup_concat (l : List α) (a : α) : (l ++ [a]).dedup = l.dedup.erase a ++ [a] := by
  induction l with
  | nil => simp
  | cons x l ih =>
    rw [List.cons_append]
    by_cases hx : x ∈ l
    · rw [List.dedup_cons_of_mem (List.mem_append_left _ hx), List.dedup_cons_of_mem hx, ih]
    · by_cases hxa : x = a
      · subst hxa
        rw [List.dedup_cons_of_mem (by simp), List.dedup_cons_of_notMem hx, ih,
          List.erase_of_not_mem (by simpa using hx), List.erase_cons_head]
      · rw [List.dedup_cons_of_notMem (by simp [hx, hxa]), List.dedup_cons_of_notMem hx, ih,
          List.erase_cons_tail (by simpa using hxa), List.cons_append]

theorem mostRecent_nodup (k : Nat) (l : List α) : (mostRecent k l).Nodup :=
  (List.nodup_dedup l).sublist (List.drop_sublist _ _)

theorem length_mostRecent (k : Nat) (l : List α) :
    (mostRecent k l).length = min k l.dedup.length := by
  simp only [mostRecent, List.rtake, List.length_drop]
  omega

/-- The distinct items split into the forgotten and the recent ones. -/
theorem exists_append_mostRecent (k : Nat) (l : List α) : ∃ p, l.dedup = p ++ mostRecent k l ∧
    ((mostRecent k l).length < k → p = []) := by
  refine ⟨l.dedup.take (l.dedup.length - k), (List.take_append_drop _ _).symm, fun h => ?_⟩
  rw [length_mostRecent] at h
  rw [List.take_eq_nil_iff]
  omega

omit [DecidableEq α] in
theorem rtake_append_of_length {p q : List α} (h : q.length = k ∨ p = [] ∧ q.length ≤ k) :
    (p ++ q).rtake k = q := by
  rcases h with h | ⟨rfl, h⟩
  · simp [List.rtake, h]
  · have : q.length - k = 0 := by omega
    simp [List.rtake, this]

theorem mostRecent_concat {p q : List α} (hp : l.dedup.erase a = p ++ q)
    (hq : q.length = k ∨ p = [] ∧ q.length ≤ k) : mostRecent (k + 1) (l ++ [a]) = q ++ [a] := by
  rw [mostRecent, dedup_concat, hp, List.rtake_concat_succ, rtake_append_of_length hq]

theorem mostRecent_concat_of_mem (h : a ∈ mostRecent k l) :
    mostRecent k (l ++ [a]) = (mostRecent k l).erase a ++ [a] := by
  obtain ⟨p, hp, hnil⟩ := exists_append_mostRecent k l
  have hle : (mostRecent k l).length ≤ k := by rw [length_mostRecent]; omega
  have hpos := List.length_pos_of_mem h
  have hnd : (p ++ mostRecent k l).Nodup := hp ▸ List.nodup_dedup l
  have hap : a ∉ p := fun hm => (List.nodup_append.mp hnd).2.2 a hm a h rfl
  obtain ⟨j, rfl⟩ : ∃ j, k = j + 1 := ⟨k - 1, by omega⟩
  refine mostRecent_concat (p := p) (by rw [hp, List.erase_append_right _ hap]) ?_
  rw [List.length_erase_of_mem h]
  rcases Nat.lt_or_ge (mostRecent (j + 1) l).length (j + 1) with hlt | hge
  · exact Or.inr ⟨hnil hlt, by omega⟩
  · exact Or.inl (by omega)

theorem mostRecent_concat_of_lt (h : a ∉ mostRecent k l) (hk : (mostRecent k l).length < k) :
    mostRecent k (l ++ [a]) = mostRecent k l ++ [a] := by
  obtain ⟨p, hp, hnil⟩ := exists_append_mostRecent k l
  obtain rfl := hnil hk
  rw [List.nil_append] at hp
  obtain ⟨j, rfl⟩ : ∃ j, k = j + 1 := ⟨k - 1, by omega⟩
  refine mostRecent_concat (p := []) ?_ (Or.inr ⟨rfl, by omega⟩)
  rw [hp, List.erase_of_not_mem h, List.nil_append]

theorem mostRecent_concat_of_full (h : a ∉ mostRecent k l) (hk : (mostRecent k l).length = k)
    (h0 : 0 < k) : mostRecent k (l ++ [a]) = (mostRecent k l).tail ++ [a] := by
  obtain ⟨p, hp, _⟩ := exists_append_mostRecent k l
  obtain ⟨j, rfl⟩ : ∃ j, k = j + 1 := ⟨k - 1, by omega⟩
  cases hm : mostRecent (j + 1) l with
  | nil => rw [hm] at hk; simp at hk
  | cons x t =>
    rw [hm] at hp hk h
    refine mostRecent_concat (p := p.erase a ++ [x]) ?_ (Or.inl (by simpa using hk))
    rw [List.tail_cons, List.append_assoc, List.singleton_append, hp]
    by_cases hap : a ∈ p
    · rw [List.erase_append_left _ hap]
    · rw [List.erase_append_right _ hap, List.erase_of_not_mem h, List.erase_of_not_mem hap]

/-- `l` without its first item, if it has more than `k`. -/
def trim (k : Nat) (l : List α) : List α := if l.length > k then l.tail else l

/-- One item more, in every case: it goes to the end, and at most one item is dropped. -/
theorem mostRecent_concat_trim (k : Nat) (l : List α) (a : α) :
    mostRecent k (l ++ [a]) = trim k ((mostRecent k l).erase a ++ [a]) := by
  have hlen := length_mostRecent k l
  by_cases ha : a ∈ mostRecent k l
  · have hpos := List.length_pos_of_mem ha
    rw [mostRecent_concat_of_mem ha, trim, if_neg]
    rw [List.length_append, List.length_erase_of_mem ha, List.length_singleton]
    omega
  · rw [List.erase_of_not_mem ha, trim, List.length_append, List.length_singleton]
    rcases Nat.lt_or_ge (mostRecent k l).length k with hlt | hge
    · rw [if_neg (by omega), mostRecent_concat_of_lt ha hlt]
    · rw [if_pos (by omega)]
      by_cases h0 : 0 < k
      · rw [mostRecent_concat_of_full ha (by omega) h0, List.tail_append_of_ne_nil]
        intro hnil
        rw [hnil, List.length_nil] at hge
        omega
      · obtain rfl : k = 0 := by omega
        have hnil : ∀ l : List α, mostRecent 0 l = [] := fun l =>
          List.eq_nil_of_length_eq_zero (by rw [length_mostRecent, Nat.zero_min])
        rw [hnil, hnil]
        rfl

end Fomo.Lib
