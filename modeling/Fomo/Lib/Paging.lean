import Fomo.Lib.MostRecent
import Mathlib.Data.Finset.Card
import Mathlib.Data.List.Count

/-!
# The recency list against any other cache

A cache of `h` items is filled on demand by someone who may know the requests to come, and who may
pass requests by. The recency list of `k ≥ h` items pays for its misses with what the other one
pays, and with a debt: a place of the recency list owes the more, the more recent it is, unless
the other cache holds its item.
-/
namespace Fomo.Lib

variable {α : Type*} [DecidableEq α]

theorem mem_mostRecent_iff {k : Nat} {l : List α} {x : α} :
    x ∈ mostRecent k l ↔ x ∈ l.dedup.reverse.take k := by
  rw [mostRecent, List.rtake_eq_reverse_take_reverse, List.mem_reverse]

/-- The requests for items that the recency list does not hold. -/
def recencyMisses (k : Nat) (l : List α) : Nat :=
  (List.range l.length).countP fun i => decide (∀ x ∈ l[i]?, x ∉ mostRecent k (l.take i))

theorem recencyMisses_concat (k : Nat) (l : List α) (x : α) : recencyMisses k (l ++ [x]) =
    recencyMisses k l + if x ∈ mostRecent k l then 0 else 1 := by
  rw [recencyMisses, List.length_append, List.length_singleton, List.range_succ,
    List.countP_append, List.countP_singleton, List.take_left]
  congr 1
  · refine List.countP_congr fun i hi => ?_
    have hi := List.mem_range.mp hi
    rw [List.getElem?_append_left hi, List.take_append_of_le_length hi.le]
  · by_cases hx : x ∈ mostRecent k l
    · simp [hx]
    · simp [hx]

theorem length_dedup_concat (l : List α) (x : α) :
    (l ++ [x]).dedup.length = l.dedup.length + if x ∈ l then 0 else 1 := by
  rw [dedup_concat, List.length_append, List.length_singleton]
  split
  · next hx =>
    have hpos := List.length_pos_of_mem (List.mem_dedup.mpr hx)
    rw [List.length_erase_of_mem (List.mem_dedup.mpr hx)]
    omega
  · next hx => rw [List.erase_of_not_mem (by rwa [List.mem_dedup])]

/-- With room for all items nothing is forgotten. -/
theorem mostRecent_of_room {k : Nat} {l : List α} (h : l.dedup.length ≤ k) :
    mostRecent k l = l.dedup := by
  obtain ⟨p, hp, _⟩ := exists_append_mostRecent k l
  have hlen := length_mostRecent k l
  rw [Nat.min_eq_right h] at hlen
  have hpl := congrArg List.length hp
  rw [List.length_append, hlen] at hpl
  have hnil : p = [] := List.eq_nil_of_length_eq_zero (by omega)
  rw [hp, hnil, List.nil_append]

/-- Every item is missed when it comes first. -/
theorem le_recencyMisses (k : Nat) (l : List α) : l.dedup.length ≤ recencyMisses k l := by
  induction l using List.reverseRecOn with
  | nil => exact Nat.zero_le _
  | append_singleton l x ih =>
    rw [length_dedup_concat, recencyMisses_concat]
    by_cases hx : x ∈ l
    · rw [if_pos hx]
      omega
    · have hno : x ∉ mostRecent k l := by
        intro hmem
        rw [mem_mostRecent_iff] at hmem
        have := List.mem_of_mem_take hmem
        rw [List.mem_reverse, List.mem_dedup] at this
        exact hx this
      rw [if_neg hx, if_neg hno]
      omega

/-- With room for all items that is all. -/
theorem recencyMisses_of_room {k : Nat} {l : List α} (h : l.dedup.length ≤ k) :
    recencyMisses k l = l.dedup.length := by
  induction l using List.reverseRecOn with
  | nil => rfl
  | append_singleton l x ih =>
    rw [length_dedup_concat] at h ⊢
    have hle := (Nat.le_add_right _ _).trans h
    rw [recencyMisses_concat, ih hle, mostRecent_of_room hle]
    simp only [List.mem_dedup]

/-- A cache filled on demand after the requests `l`: a hit changes nothing, a miss brings the item
in or passes it by, and items may go at any time. -/
inductive Demand (h : Nat) : List α → Finset α → Nat → Nat → Prop
  | nil : Demand h [] ∅ 0 0
  | hit {l : List α} {x : α} {C : Finset α} {admitted passed : Nat}
      (hd : Demand h l C admitted passed) (hx : x ∈ C) : Demand h (l ++ [x]) C admitted passed
  | enter {l : List α} {x : α} {C C' : Finset α} {admitted passed : Nat}
      (hd : Demand h l C admitted passed) (hx : x ∉ C) (hin : x ∈ C') (hsub : C' ⊆ insert x C)
      (hcard : C'.card ≤ h) : Demand h (l ++ [x]) C' (admitted + 1) passed
  | pass {l : List α} {x : α} {C C' : Finset α} {admitted passed : Nat}
      (hd : Demand h l C admitted passed) (hx : x ∉ C) (hsub : C' ⊆ C) :
      Demand h (l ++ [x]) C' admitted (passed + 1)
  | drop {l : List α} {C C' : Finset α} {admitted passed : Nat}
      (hd : Demand h l C admitted passed) (hsub : C' ⊆ C) : Demand h l C' admitted passed

variable {k h admitted passed : Nat} {l r : List α} {x p : α} {C O O' : Finset α}

theorem Demand.card_le (hd : Demand h l C admitted passed) : C.card ≤ h := by
  induction hd with
  | nil => exact Nat.zero_le h
  | hit hd hx ih => exact ih
  | enter hd hx hin hsub hcard ih => exact hcard
  | pass hd hx hsub ih => exact (Finset.card_le_card hsub).trans ih
  | drop hd hsub ih => exact (Finset.card_le_card hsub).trans ih

/-! ## The debt -/

/-- What the places of a recency list of `k` items owe, most recent first. An empty place owes
too. -/
def owed (O : Finset α) : Nat → List α → Nat
  | 0, _ => 0
  | k + 1, [] => k + 1 + owed O k []
  | k + 1, x :: r => (if x ∈ O then 0 else k + 1) + owed O k r

/-- The places that owe. -/
def owing (O : Finset α) : Nat → List α → Nat
  | 0, _ => 0
  | k + 1, [] => 1 + owing O k []
  | k + 1, x :: r => (if x ∈ O then 0 else 1) + owing O k r

theorem owed_succ (O : Finset α) (k : Nat) (r : List α) :
    owed O (k + 1) r = owed O k r + owing O (k + 1) r := by
  induction k generalizing r with
  | zero =>
    cases r with
    | nil => rfl
    | cons x r => simp [owed, owing]
  | succ k ih =>
    cases r with
    | nil =>
      have hk := ih []
      have h1 : owed O (k + 1 + 1) [] = k + 1 + 1 + owed O (k + 1) [] := rfl
      have h2 : owed O (k + 1) [] = k + 1 + owed O k [] := rfl
      have h3 : owing O (k + 1 + 1) [] = 1 + owing O (k + 1) [] := rfl
      omega
    | cons x r =>
      rw [owed, ih r, owed, owing]
      split
      · omega
      · omega

/-- Without another cache every place owes. -/
theorem two_mul_owed_empty (k : Nat) : 2 * owed (∅ : Finset α) k [] = k * (k + 1) := by
  induction k with
  | zero => rfl
  | succ k ih =>
    rw [owed, Nat.mul_add, ih, ← Nat.add_mul, Nat.mul_comm, Nat.add_comm 2 k]

/-- Only the first `k` places count. -/
theorem owed_take (O : Finset α) (k : Nat) (r : List α) : owed O k (r.take k) = owed O k r := by
  induction k generalizing r with
  | zero => rfl
  | succ k ih =>
    cases r with
    | nil => rfl
    | cons x r => rw [List.take_succ_cons, owed, owed, ih]

theorem owing_add_count (O : Finset α) (k : Nat) (r : List α) :
    owing O k r + (r.take k).countP (fun x => decide (x ∈ O)) = k := by
  induction k generalizing r with
  | zero => rfl
  | succ k ih =>
    cases r with
    | nil =>
      have hk := ih []
      rw [owing, List.take_nil, List.countP_nil] at *
      omega
    | cons x r =>
      have hk := ih r
      rw [owing, List.take_succ_cons, List.countP_cons]
      by_cases hx : x ∈ O
      · simp only [hx, if_true, decide_true]
        omega
      · simp only [hx, if_false, decide_false, Bool.false_eq_true]
        omega

theorem countP_mem_le_card (hr : r.Nodup) (O : Finset α) :
    r.countP (fun x => decide (x ∈ O)) ≤ O.card := by
  rw [List.countP_eq_length_filter,
    ← List.toFinset_card_of_nodup (hr.filter fun x => decide (x ∈ O))]
  refine Finset.card_le_card fun x hx => ?_
  rw [List.mem_toFinset, List.mem_filter, decide_eq_true_eq] at hx
  exact hx.2

/-- At least the places beyond the other cache owe. -/
theorem le_owing (hr : r.Nodup) (O : Finset α) (k : Nat) : k ≤ owing O k r + O.card := by
  have hsum := owing_add_count O k r
  have hle := countP_mem_le_card (hr.sublist (List.take_sublist k r)) O
  omega

/-- One more owes when the other cache holds an item that the list does not. -/
theorem lt_owing (hr : r.Nodup) (hp : p ∈ O) (hmiss : p ∉ r.take k) :
    k < owing O k r + O.card := by
  have hsum := owing_add_count O k r
  have hle := countP_mem_le_card (hr.sublist (List.take_sublist k r)) (O.erase p)
  have hsame : (r.take k).countP (fun x => decide (x ∈ O.erase p)) =
      (r.take k).countP (fun x => decide (x ∈ O)) := by
    refine List.countP_congr fun x hx => ?_
    have hne : x ≠ p := fun heq => hmiss (heq ▸ hx)
    simp [hne]
  have hcard := Finset.card_erase_add_one hp
  omega

/-- A cache that holds more leaves less owed. -/
theorem owed_anti (hsub : O ⊆ O') (k : Nat) (r : List α) : owed O' k r ≤ owed O k r := by
  induction k generalizing r with
  | zero => exact le_refl 0
  | succ k ih =>
    cases r with
    | nil => exact Nat.add_le_add_left (ih []) _
    | cons x r =>
      refine Nat.add_le_add ?_ (ih r)
      by_cases hx : x ∈ O
      · rw [if_pos (hsub hx), if_pos hx]
      · rw [if_neg hx]
        split
        · exact Nat.zero_le _
        · exact le_refl _

theorem owed_le_count (O O' : Finset α) (k : Nat) (r : List α) : owed O' k r ≤
    owed O k r + k * (r.take k).countP fun x => decide (x ∈ O \ O') := by
  induction k generalizing r with
  | zero => exact Nat.zero_le _
  | succ k ih =>
    cases r with
    | nil => exact (Nat.add_le_add_left (ih []) _).trans (by simp [owed])
    | cons x r =>
      have hk := ih r
      rw [owed, owed, List.take_succ_cons, List.countP_cons, Nat.mul_add]
      generalize (r.take k).countP (fun x => decide (x ∈ O \ O')) = n at hk ⊢
      have hmul : k * n ≤ (k + 1) * n := Nat.mul_le_mul_right n (Nat.le_succ k)
      by_cases hx : x ∈ O
      · by_cases hx' : x ∈ O'
        · rw [if_pos hx, if_pos hx']
          omega
        · have hmem : decide (x ∈ O \ O') = true := by simp [hx, hx']
          rw [if_pos hx, if_neg hx', if_pos hmem, Nat.mul_one]
          omega
      · rw [if_neg hx]
        split
        · omega
        · omega

/-- What the other cache drops is owed again, at most `k` for each item. -/
theorem owed_drop (hr : r.Nodup) (hsub : O' ⊆ O) (k : Nat) :
    owed O' k r + k * O'.card ≤ owed O k r + k * O.card := by
  have hle := owed_le_count O O' k r
  have hcount := Nat.mul_le_mul_left k
    (countP_mem_le_card (hr.sublist (List.take_sublist k r)) (O \ O'))
  have hcard := Finset.card_sdiff_add_card_eq_card hsub
  rw [← hcard, Nat.mul_add]
  omega

/-! ## A request moves its item to the front -/

/-- One place more for one item more. -/
theorem owed_insert (O : Finset α) (p : α) (k : Nat) (a b : List α) :
    owed O k (a ++ b) ≤ owed O (k + 1) (a ++ p :: b) := by
  induction a generalizing k with
  | nil => exact Nat.le_add_left _ _
  | cons x a ih =>
    cases k with
    | zero => exact Nat.zero_le _
    | succ k =>
      refine Nat.add_le_add ?_ (ih k)
      split
      · exact le_refl 0
      · exact Nat.le_succ _

/-- An item of the other cache moves to the front: the places it passes owe less. -/
theorem owed_front (hp : p ∈ O) (k : Nat) (a b : List α) :
    owed O k (p :: (a ++ b)) ≤ owed O k (a ++ p :: b) := by
  induction a generalizing k with
  | nil => exact le_refl _
  | cons x a ih =>
    cases k with
    | zero => exact le_refl 0
    | succ k =>
      have hk := ih k
      cases k with
      | zero => simp [owed, hp]
      | succ k =>
        rw [owed, if_pos hp] at hk ⊢
        rw [List.cons_append, owed, List.cons_append, owed]
        split
        · omega
        · omega

/-- A request that the list answers: it owes more only if the other cache passed the item by. -/
theorem owed_hit (hmem : p ∈ r.take k) (O : Finset α) :
    owed O k (p :: r.erase p) ≤ owed O k r + if p ∈ O then 0 else k := by
  obtain ⟨a, b, _, hr, herase⟩ := List.exists_erase_eq (List.mem_of_mem_take hmem)
  rw [herase, hr]
  by_cases hp : p ∈ O
  · rw [if_pos hp]
    exact owed_front hp k a b
  · rw [if_neg hp]
    cases k with
    | zero => exact Nat.zero_le _
    | succ k =>
      have hle := owed_insert O p k a b
      rw [owed, if_neg hp]
      omega

theorem take_erase_of_notMem (hmiss : p ∉ r.take k) : (r.erase p).take k = r.take k := by
  induction k generalizing r with
  | zero => rfl
  | succ k ih =>
    cases r with
    | nil => rfl
    | cons x r =>
      rw [List.take_succ_cons, List.mem_cons, not_or] at hmiss
      have hne : ¬(x == p) = true := by simpa using Ne.symm hmiss.1
      rw [List.erase_cons_tail hne, List.take_succ_cons, List.take_succ_cons, ih hmiss.2]

/-- A request that the list does not answer: every place that owes comes to owe one less. -/
theorem owed_miss (hmiss : p ∉ r.take k) (O : Finset α) :
    owed O k (p :: r.erase p) + owing O k r = owed O k r + if p ∈ O then 0 else k := by
  cases k with
  | zero => simp [owed, owing]
  | succ k =>
    have hmiss' : p ∉ r.take k := fun hmem =>
      hmiss ((List.take_sublist_take_left (Nat.le_succ k)).subset hmem)
    rw [owed, ← owed_take, take_erase_of_notMem hmiss', owed_take, owed_succ O k r]
    split
    · omega
    · omega

/-! ## Runs -/

theorem dedup_concat_reverse (l : List α) (x : α) :
    (l ++ [x]).dedup.reverse = x :: l.dedup.reverse.erase x := by
  have hn := List.nodup_dedup l
  rw [dedup_concat, List.reverse_append, List.reverse_singleton, List.singleton_append,
    hn.erase_eq_filter, (List.nodup_reverse.mpr hn).erase_eq_filter, List.filter_reverse]

/-- What a request costs the recency list, when the other cache holds its item afterwards. -/
theorem owed_request (hr : r.Nodup) (hp : p ∈ O) (hcard : O.card ≤ h) (hk : h ≤ k) :
    owed O k (p :: r.erase p) + (k - h + 1) * (if p ∈ r.take k then 0 else 1) ≤ owed O k r := by
  by_cases hmem : p ∈ r.take k
  · have hle := owed_hit hmem O
    rw [if_pos hp] at hle
    rw [if_pos hmem]
    omega
  · have heq := owed_miss hmem O
    have hlt := lt_owing hr hp hmem
    rw [if_pos hp] at heq
    rw [if_neg hmem]
    omega

/-- The same when the other cache passes the item by. -/
theorem owed_request_passed (hr : r.Nodup) (hp : p ∉ O) (hcard : O.card ≤ h) (hk : h ≤ k) :
    owed O k (p :: r.erase p) + (k - h + 1) * (if p ∈ r.take k then 0 else 1) ≤
      owed O k r + (k + 1) := by
  by_cases hmem : p ∈ r.take k
  · have hle := owed_hit hmem O
    rw [if_neg hp] at hle
    rw [if_pos hmem]
    omega
  · have heq := owed_miss hmem O
    have hle := le_owing hr O k
    rw [if_neg hp] at heq
    rw [if_neg hmem]
    omega

/-- The misses so far and the debt are covered by what the other cache paid. -/
theorem Demand.covers (hd : Demand h l C admitted passed) (hk : h ≤ k) :
    (k - h + 1) * recencyMisses k l + owed C k l.dedup.reverse + k * C.card ≤
      k * admitted + (k + 1) * passed + owed (∅ : Finset α) k [] := by
  induction hd with
  | nil => simp [recencyMisses]
  | @hit l x C admitted passed hd hx ih =>
    have hr := List.nodup_reverse.mpr (List.nodup_dedup l)
    have hstep := owed_request hr hx hd.card_le hk
    rw [recencyMisses_concat, dedup_concat_reverse, Nat.mul_add]
    simp only [mem_mostRecent_iff]
    omega
  | @enter l x C C' admitted passed hd hx hin hsub hcard ih =>
    have hr := List.nodup_reverse.mpr (List.nodup_dedup l)
    have hstep := owed_request hr hin hcard hk
    have hdrop := owed_drop hr hsub k
    have hanti := owed_anti (Finset.subset_insert x C) k l.dedup.reverse
    rw [Finset.card_insert_of_notMem hx, Nat.mul_succ] at hdrop
    rw [recencyMisses_concat, dedup_concat_reverse, Nat.mul_add, Nat.mul_succ]
    simp only [mem_mostRecent_iff]
    omega
  | @pass l x C C' admitted passed hd hx hsub ih =>
    have hr := List.nodup_reverse.mpr (List.nodup_dedup l)
    have hcard := (Finset.card_le_card hsub).trans hd.card_le
    have hstep := owed_request_passed hr (fun hmem => hx (hsub hmem)) hcard hk
    have hdrop := owed_drop hr hsub k
    rw [recencyMisses_concat, dedup_concat_reverse, Nat.mul_add, Nat.mul_succ]
    simp only [mem_mostRecent_iff]
    omega
  | @drop l C C' admitted passed hd hsub ih =>
    have hr := List.nodup_reverse.mpr (List.nodup_dedup l)
    have hdrop := owed_drop hr hsub k
    omega

/-- The recency list of `k` items against any cache of `h` items, whatever it knows. -/
theorem recencyMisses_le (hd : Demand h l C admitted passed) (hk : h ≤ k) :
    2 * ((k - h + 1) * recencyMisses k l) ≤
      2 * (k * admitted + (k + 1) * passed) + k * (k + 1) := by
  have hle := hd.covers hk
  have hempty := two_mul_owed_empty (α := α) k
  omega

end Fomo.Lib
