import Mathlib.Data.List.Nodup
import Mathlib.Data.List.Perm.Subperm
import Mathlib.Data.List.Range

/-!
# Delay lines

An item that goes into a delay line comes out `d` ticks later, unless it is removed before. At
most one item goes in at a tick, after the one that comes out and before the one that is removed,
so the items wait in the order of their deadlines and only the first one can be due.
-/
namespace Fomo.Lib

variable {α : Type*}

inductive DelayEvent (α : Type*)
  | added (a : α)
  | removed (a : α)
  | returned (a : α)

/-- By the log, `a` went in `d` ticks before `x` and was not removed before `x`. -/
def Completes (d : Nat) (log : List (Nat × DelayEvent α)) (x : Nat) (a : α) : Prop :=
  ∃ t, x = t + d ∧ (t, .added a) ∈ log ∧ ∀ u, t ≤ u → u < x → (u, .removed a) ∉ log

/-- The items `l` wait at `time`, each beside the time it is due at. The line is `fresh` while
nothing has gone in or been removed at `time`. -/
structure DelayLine (d time : Nat) (fresh : Prop) (log : List (Nat × DelayEvent α))
    (l : List (Nat × α)) : Prop where
  sorted : l.Pairwise fun p q => p.1 < q.1
  late : ∀ p ∈ l, time < p.1
  soon : ∀ p ∈ l, p.1 ≤ time + d
  sooner : fresh → ∀ p ∈ l, p.1 < time + d
  added_le : ∀ t a, (t, .added a) ∈ log → t ≤ time
  removed_le : ∀ t a, (t, .removed a) ∈ log → t ≤ time
  removed_lt : fresh → ∀ t a, (t, .removed a) ∈ log → t < time
  waiting : ∀ x a, (x, a) ∈ l ↔ time < x ∧ Completes d log x a
  done : ∀ x a, (x, .returned a) ∈ log ↔ x ≤ time ∧ Completes d log x a

variable {d time x : Nat} {fresh : Prop} {log : List (Nat × DelayEvent α)} {l : List (Nat × α)}
  {a b : α}

/-! ## What an event does to the completions -/

theorem completes_returned (t : Nat) (b : α) :
    Completes d (log ++ [(t, .returned b)]) x a ↔ Completes d log x a := by
  simp [Completes]

/-- An item that goes in completes, when nothing has been removed since. -/
theorem completes_added (hr : ∀ t a, (t, .removed a) ∈ log → t < time) (b : α) :
    Completes d (log ++ [(time, .added b)]) x a ↔
      Completes d log x a ∨ (x = time + d ∧ a = b) := by
  constructor
  · rintro ⟨t, hx, hadd, hno⟩
    have hno : ∀ u, t ≤ u → u < x → (u, .removed a) ∉ log := fun u h1 h2 hu =>
      hno u h1 h2 (List.mem_append_left _ hu)
    rcases List.mem_append.mp hadd with hadd | hadd
    · exact Or.inl ⟨t, hx, hadd, hno⟩
    · obtain ⟨rfl, hab⟩ := Prod.mk.inj (List.mem_singleton.mp hadd)
      exact Or.inr ⟨hx, DelayEvent.added.inj hab⟩
  · have hkeep : ∀ u, (u, .removed a) ∈ log ++ [(time, .added b)] → (u, .removed a) ∈ log := by
      intro u hu
      rcases List.mem_append.mp hu with hu | hu
      · exact hu
      · exact absurd (Prod.mk.inj (List.mem_singleton.mp hu)).2 (by simp)
    rintro (⟨t, hx, hadd, hno⟩ | ⟨hx, rfl⟩)
    · exact ⟨t, hx, List.mem_append_left _ hadd, fun u h1 h2 hu => hno u h1 h2 (hkeep u hu)⟩
    · refine ⟨time, hx, List.mem_append_right _ (List.mem_singleton_self _), fun u h1 _ hu => ?_⟩
      have hlt := hr u a (hkeep u hu)
      omega

/-- A removal stops what is not due yet. -/
theorem completes_removed (ht : ∀ t a, (t, .added a) ∈ log → t ≤ time) (b : α) :
    Completes d (log ++ [(time, .removed b)]) x a ↔ Completes d log x a ∧ (a = b → x ≤ time) := by
  constructor
  · rintro ⟨t, hx, hadd, hno⟩
    rcases List.mem_append.mp hadd with hadd | hadd
    · refine ⟨⟨t, hx, hadd, fun u h1 h2 hu => hno u h1 h2 (List.mem_append_left _ hu)⟩, ?_⟩
      intro hab
      by_contra hlt
      refine hno time (ht t a hadd) (by omega) (List.mem_append_right _ ?_)
      rw [hab]
      exact List.mem_singleton_self _
    · exact absurd (Prod.mk.inj (List.mem_singleton.mp hadd)).2 (by simp)
  · rintro ⟨⟨t, hx, hadd, hno⟩, hle⟩
    refine ⟨t, hx, List.mem_append_left _ hadd, fun u h1 h2 hu => ?_⟩
    rcases List.mem_append.mp hu with hu | hu
    · exact hno u h1 h2 hu
    · obtain ⟨rfl, hab⟩ := Prod.mk.inj (List.mem_singleton.mp hu)
      have := hle (DelayEvent.removed.inj hab)
      omega

/-! ## The ticks -/

namespace DelayLine

theorem init (d : Nat) : DelayLine d 0 False ([] : List (Nat × DelayEvent α)) [] where
  sorted := List.Pairwise.nil
  late := by simp
  soon := by simp
  sooner := False.elim
  added_le := by simp
  removed_le := by simp
  removed_lt := False.elim
  waiting := by simp [Completes]
  done := by simp [Completes]

theorem imp {fresh' : Prop} (h : DelayLine d time fresh log l) (hf : fresh' → fresh) :
    DelayLine d time fresh' log l :=
  ⟨h.sorted, h.late, h.soon, fun hx => h.sooner (hf hx), h.added_le, h.removed_le,
    fun hx => h.removed_lt (hf hx), h.waiting, h.done⟩

/-- Nothing is due at the next tick. -/
theorem pass (h : DelayLine d time fresh log l) (hno : ∀ p ∈ l, p.1 ≠ time + 1) :
    DelayLine d (time + 1) True log l where
  sorted := h.sorted
  late := fun p hp => by
    have := h.late p hp
    have := hno p hp
    omega
  soon := fun p hp => by
    have := h.soon p hp
    omega
  sooner := fun _ p hp => by
    have := h.soon p hp
    omega
  added_le := fun t a ht => (h.added_le t a ht).trans (Nat.le_succ _)
  removed_le := fun t a ht => (h.removed_le t a ht).trans (Nat.le_succ _)
  removed_lt := fun _ t a ht => Nat.lt_succ_of_le (h.removed_le t a ht)
  waiting := fun x a => by
    rw [h.waiting]
    refine ⟨fun hx => ⟨?_, hx.2⟩, fun hx => ⟨by omega, hx.2⟩⟩
    have := hno _ ((h.waiting x a).mpr hx)
    omega
  done := fun x a => by
    rw [h.done]
    refine ⟨fun hx => ⟨by omega, hx.2⟩, fun hx => ⟨?_, hx.2⟩⟩
    by_contra hlt
    exact hno _ ((h.waiting x a).mpr ⟨by omega, hx.2⟩) (by dsimp only; omega)

/-- The first item is due at the next tick and comes out. -/
theorem pop (h : DelayLine d time fresh log ((time + 1, a) :: l)) :
    DelayLine d (time + 1) True (log ++ [(time + 1, .returned a)]) l where
  sorted := (List.pairwise_cons.mp h.sorted).2
  late := (List.pairwise_cons.mp h.sorted).1
  soon := fun p hp => by
    have := h.soon p (List.mem_cons_of_mem _ hp)
    omega
  sooner := fun _ p hp => by
    have := h.soon p (List.mem_cons_of_mem _ hp)
    omega
  added_le := fun t b ht => (h.added_le t b (by simpa using ht)).trans (Nat.le_succ _)
  removed_le := fun t b ht => (h.removed_le t b (by simpa using ht)).trans (Nat.le_succ _)
  removed_lt := fun _ t b ht => Nat.lt_succ_of_le (h.removed_le t b (by simpa using ht))
  waiting := fun x b => by
    rw [completes_returned]
    have hw := h.waiting x b
    rw [List.mem_cons] at hw
    constructor
    · intro hx
      exact ⟨(List.pairwise_cons.mp h.sorted).1 _ hx, (hw.mp (Or.inr hx)).2⟩
    · intro hx
      refine (hw.mpr ⟨by omega, hx.2⟩).resolve_left fun heq => ?_
      have := (Prod.mk.inj heq).1
      omega
  done := fun x b => by
    rw [completes_returned, List.mem_append, h.done, List.mem_singleton]
    have hw := h.waiting x b
    rw [List.mem_cons] at hw
    constructor
    · rintro (hx | hx)
      · exact ⟨by omega, hx.2⟩
      · obtain ⟨rfl, hb⟩ := Prod.mk.inj hx
        obtain rfl := DelayEvent.returned.inj hb
        exact ⟨Nat.le_refl _, (hw.mp (Or.inl rfl)).2⟩
    · intro hx
      by_cases hle : x ≤ time
      · exact Or.inl ⟨hle, hx.2⟩
      · obtain rfl : x = time + 1 := by omega
        rcases hw.mpr ⟨by omega, hx.2⟩ with heq | hmem
        · rw [(Prod.mk.inj heq).2]
          exact Or.inr rfl
        · exact absurd ((List.pairwise_cons.mp h.sorted).1 _ hmem) (Nat.lt_irrefl _)

/-- An item goes in behind the others. -/
theorem push (h : DelayLine d time True log l) (hd : 0 < d) (b : α) :
    DelayLine d time False (log ++ [(time, .added b)]) (l ++ [(time + d, b)]) where
  sorted := by
    rw [List.pairwise_append]
    refine ⟨h.sorted, List.pairwise_singleton _ _, fun p hp q hq => ?_⟩
    rw [List.mem_singleton.mp hq]
    exact h.sooner trivial p hp
  late := fun p hp => by
    rcases List.mem_append.mp hp with hp | hp
    · exact h.late p hp
    · rw [List.mem_singleton.mp hp]
      exact Nat.lt_add_of_pos_right hd
  soon := fun p hp => by
    rcases List.mem_append.mp hp with hp | hp
    · exact h.soon p hp
    · rw [List.mem_singleton.mp hp]
  sooner := False.elim
  added_le := fun t a ht => by
    rcases List.mem_append.mp ht with ht | ht
    · exact h.added_le t a ht
    · exact (Prod.mk.inj (List.mem_singleton.mp ht)).1.le
  removed_le := fun t a ht => h.removed_le t a (by simpa using ht)
  removed_lt := False.elim
  waiting := fun x a => by
    rw [completes_added (h.removed_lt trivial), List.mem_append, h.waiting, List.mem_singleton,
      Prod.mk.injEq]
    constructor
    · rintro (hx | ⟨rfl, rfl⟩)
      · exact ⟨hx.1, Or.inl hx.2⟩
      · exact ⟨Nat.lt_add_of_pos_right hd, Or.inr ⟨rfl, rfl⟩⟩
    · rintro ⟨hlt, hx | hx⟩
      · exact Or.inl ⟨hlt, hx⟩
      · exact Or.inr hx
  done := fun x a => by
    rw [completes_added (h.removed_lt trivial), List.mem_append, h.done, List.mem_singleton]
    constructor
    · rintro (hx | hx)
      · exact ⟨hx.1, Or.inl hx.2⟩
      · exact absurd (Prod.mk.inj hx).2 (by simp)
    · rintro ⟨hle, hx | hx⟩
      · exact Or.inl ⟨hle, hx⟩
      · omega

/-- An item may be removed from anywhere. -/
theorem remove [DecidableEq α] (h : DelayLine d time fresh log l) (b : α) :
    DelayLine d time False (log ++ [(time, .removed b)]) (l.filter fun p => p.2 ≠ b) where
  sorted := h.sorted.sublist List.filter_sublist
  late := fun p hp => h.late p (List.mem_filter.mp hp).1
  soon := fun p hp => h.soon p (List.mem_filter.mp hp).1
  sooner := False.elim
  added_le := fun t a ht => h.added_le t a (by simpa using ht)
  removed_le := fun t a ht => by
    rcases List.mem_append.mp ht with ht | ht
    · exact h.removed_le t a ht
    · exact (Prod.mk.inj (List.mem_singleton.mp ht)).1.le
  removed_lt := False.elim
  waiting := fun x a => by
    rw [completes_removed h.added_le, List.mem_filter, h.waiting, decide_eq_true_iff]
    constructor
    · rintro ⟨⟨hlt, hx⟩, hne⟩
      exact ⟨hlt, hx, fun hab => absurd hab hne⟩
    · rintro ⟨hlt, hx, himp⟩
      exact ⟨⟨hlt, hx⟩, fun hab => absurd (himp hab) (Nat.not_le_of_lt hlt)⟩
  done := fun x a => by
    rw [completes_removed h.added_le, List.mem_append, h.done, List.mem_singleton]
    constructor
    · rintro (hx | hx)
      · exact ⟨hx.1, hx.2, fun _ => hx.1⟩
      · exact absurd (Prod.mk.inj hx).2 (by simp)
    · intro hx
      exact Or.inl ⟨hx.1, hx.2.1⟩

/-- Items that are due one after the other are few. -/
theorem length_le (h : DelayLine d time fresh log l) : l.length ≤ d := by
  have hnodup : (l.map fun p => p.1 - time - 1).Nodup := by
    rw [List.nodup_iff_pairwise_ne, List.pairwise_map]
    refine h.sorted.imp_of_mem fun {p q} hp hq hlt => ?_
    have := h.late p hp
    omega
  have hsub : (l.map fun p => p.1 - time - 1) ⊆ List.range d := by
    intro x hx
    obtain ⟨p, hp, rfl⟩ := List.mem_map.mp hx
    have h1 := h.late p hp
    have h2 := h.soon p hp
    rw [List.mem_range]
    omega
  simpa using (hnodup.subperm hsub).length_le

end DelayLine

end Fomo.Lib
