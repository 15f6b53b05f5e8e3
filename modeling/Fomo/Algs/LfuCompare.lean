import Fomo.Algs.LfuPolicy
import Mathlib.Data.Prod.Lex
import Mathlib.Order.Compare

/-!
# The order of LFU on all values

`lfu_compare` returns a 32-bit difference as an `int`. Its sign is that of the values as long
as no two of them are `2 ^ 31` or more apart; from there on it may go round in a circle.
-/
namespace Fomo

/-- Values whose difference keeps its sign as an `int`, both ways. -/
def Near32 (a b : Nat) : Prop := a < b + 2 ^ 31 ∧ b < a + 2 ^ 31

variable {a b c : Nat}

theorem Near32.symm (h : Near32 a b) : Near32 b a := ⟨h.2, h.1⟩

theorem diff32_of_near (h : Near32 a b) : diff32 a b = (a : Int) - b := by
  obtain ⟨hab, hba⟩ := h
  unfold diff32
  rw [Int.bmod_eq_of_le_mul_two]
  · omega
  · omega

/-- Beyond the range of an `int` the larger value looks like the smaller one. -/
theorem diff32_neg_of_far (ha : a < 2 ^ 32) (hfar : b + 2 ^ 31 ≤ a) : diff32 a b < 0 := by
  unfold diff32 Int.bmod
  dsimp only
  split
  · omega
  · omega

theorem cmp_diff32 (h : Near32 a b) : cmp (diff32 a b) 0 = cmp a b := by
  rw [diff32_of_near h]
  rcases Nat.lt_trichotomy a b with hlt | heq | hgt
  · rw [(cmp_eq_lt_iff _ _).mpr hlt, cmp_eq_lt_iff]
    omega
  · rw [(cmp_eq_eq_iff _ _).mpr heq, cmp_eq_eq_iff]
    omega
  · rw [(cmp_eq_gt_iff _ _).mpr hgt, cmp_eq_gt_iff]
    omega

/-- Only near values compare as they are in both orders of the arguments. -/
theorem near32_of_cmp (ha : a < 2 ^ 32) (hb : b < 2 ^ 32) (hab : cmp (diff32 a b) 0 = cmp a b)
    (hba : cmp (diff32 b a) 0 = cmp b a) : Near32 a b := by
  constructor
  · by_contra hfar
    have hneg := diff32_neg_of_far ha (Nat.not_lt.mp hfar)
    rw [(cmp_eq_lt_iff _ _).mpr hneg, eq_comm, cmp_eq_lt_iff] at hab
    omega
  · by_contra hfar
    have hneg := diff32_neg_of_far hb (Nat.not_lt.mp hfar)
    rw [(cmp_eq_lt_iff _ _).mpr hneg, eq_comm, cmp_eq_lt_iff] at hba
    omega

/-! ## Pairs of key and time -/

/-- Fewer accesses first, then older ones. -/
def lfuRank (cn : CacheNucleus) (head : EntryRef → HeapHead) (r : EntryRef) : ℕ ×ₗ ℕ :=
  toLex ((head r).key, (cn.entry r).time)

/-- The values of the entries fit the 32-bit fields. -/
def LfuWords (cn : CacheNucleus) (head : EntryRef → HeapHead) (S : Set EntryRef) : Prop :=
  ∀ r ∈ S, (head r).key < 2 ^ 32 ∧ (cn.entry r).time < 2 ^ 32

/-- `lfu_compare` is the lexicographic order on the entries, as a heap needs it. -/
structure LfuTotal (cn : CacheNucleus) (head : EntryRef → HeapHead) (S : Set EntryRef) : Prop where
  sign : ∀ a ∈ S, ∀ b ∈ S,
    cmp (lfuCompare cn head a b) 0 = cmp (lfuRank cn head a) (lfuRank cn head b)
  antisymm : ∀ a ∈ S, ∀ b ∈ S, lfuCompare cn head a b < 0 ↔ 0 < lfuCompare cn head b a
  trans : ∀ a ∈ S, ∀ b ∈ S, ∀ c ∈ S, lfuCompare cn head a b ≤ 0 →
    lfuCompare cn head b c ≤ 0 → lfuCompare cn head a c ≤ 0

/-- The fields two entries are told apart by are near. -/
def LfuNear (cn : CacheNucleus) (head : EntryRef → HeapHead) (a b : EntryRef) : Prop :=
  Near32 (head a).key (head b).key ∧
    ((head a).key = (head b).key → Near32 (cn.entry a).time (cn.entry b).time)

variable {cn : CacheNucleus} {head : EntryRef → HeapHead} {S : Set EntryRef} {r s : EntryRef}

theorem cmp_lfuRank_of_eq (h : (head r).key = (head s).key) :
    cmp (lfuRank cn head r) (lfuRank cn head s) = cmp (cn.entry r).time (cn.entry s).time := by
  rcases Nat.lt_trichotomy (cn.entry r).time (cn.entry s).time with hlt | heq | hgt
  · rw [(cmp_eq_lt_iff _ _).mpr hlt, cmp_eq_lt_iff, lfuRank, lfuRank, Prod.Lex.toLex_lt_toLex]
    exact Or.inr ⟨h, hlt⟩
  · rw [(cmp_eq_eq_iff _ _).mpr heq, cmp_eq_eq_iff, lfuRank, lfuRank, h, heq]
  · rw [(cmp_eq_gt_iff _ _).mpr hgt, cmp_eq_gt_iff, lfuRank, lfuRank, Prod.Lex.toLex_lt_toLex]
    exact Or.inr ⟨h.symm, hgt⟩

theorem cmp_lfuRank_of_ne (h : (head r).key ≠ (head s).key) :
    cmp (lfuRank cn head r) (lfuRank cn head s) = cmp (head r).key (head s).key := by
  rcases Nat.lt_or_gt_of_ne h with hlt | hgt
  · rw [(cmp_eq_lt_iff _ _).mpr hlt, cmp_eq_lt_iff, lfuRank, lfuRank, Prod.Lex.toLex_lt_toLex]
    exact Or.inl hlt
  · rw [(cmp_eq_gt_iff _ _).mpr hgt, cmp_eq_gt_iff, lfuRank, lfuRank, Prod.Lex.toLex_lt_toLex]
    exact Or.inl hgt

theorem cmp_lfuCompare (h : LfuNear cn head r s) :
    cmp (lfuCompare cn head r s) 0 = cmp (lfuRank cn head r) (lfuRank cn head s) := by
  unfold lfuCompare
  by_cases heq : (head r).key = (head s).key
  · rw [if_pos heq, cmp_lfuRank_of_eq heq, cmp_diff32 (h.2 heq)]
  · rw [if_neg heq, cmp_lfuRank_of_ne heq, cmp_diff32 h.1]

/-- A comparison with the signs of an order inherits its laws. -/
theorem LfuTotal.of_sign (h : ∀ a ∈ S, ∀ b ∈ S,
    cmp (lfuCompare cn head a b) 0 = cmp (lfuRank cn head a) (lfuRank cn head b)) :
    LfuTotal cn head S := by
  have hlt : ∀ a ∈ S, ∀ b ∈ S,
      lfuCompare cn head a b < 0 ↔ lfuRank cn head a < lfuRank cn head b := by
    intro a ha b hb
    rw [← cmp_eq_lt_iff, h a ha b hb, cmp_eq_lt_iff]
  have hgt : ∀ a ∈ S, ∀ b ∈ S,
      0 < lfuCompare cn head a b ↔ lfuRank cn head b < lfuRank cn head a := by
    intro a ha b hb
    rw [← cmp_eq_gt_iff, h a ha b hb, cmp_eq_gt_iff]
  have hle : ∀ a ∈ S, ∀ b ∈ S,
      lfuCompare cn head a b ≤ 0 ↔ lfuRank cn head a ≤ lfuRank cn head b := by
    intro a ha b hb
    rw [← not_lt, hgt a ha b hb, not_lt]
  constructor
  · exact h
  · intro a ha b hb
    rw [hlt a ha b hb, hgt b hb a ha]
  · intro a ha b hb c hc hab hbc
    rw [hle a ha c hc]
    exact ((hle a ha b hb).mp hab).trans ((hle b hb c hc).mp hbc)

/-- On any set of entries `lfu_compare` is the lexicographic order of keys and times exactly
when no two of them are told apart by values `2 ^ 31` or more apart. -/
theorem lfuCompare_total (cn : CacheNucleus) (head : EntryRef → HeapHead) (S : Set EntryRef)
    (hwords : LfuWords cn head S) :
    LfuTotal cn head S ↔ ∀ a ∈ S, ∀ b ∈ S, LfuNear cn head a b := by
  constructor
  · intro h a ha b hb
    have hab := h.sign a ha b hb
    have hba := h.sign b hb a ha
    unfold lfuCompare at hab hba
    obtain ⟨hka, hta⟩ := hwords a ha
    obtain ⟨hkb, htb⟩ := hwords b hb
    by_cases heq : (head a).key = (head b).key
    · rw [if_pos heq, cmp_lfuRank_of_eq heq] at hab
      rw [if_pos heq.symm, cmp_lfuRank_of_eq heq.symm] at hba
      constructor
      · rw [heq]
        exact ⟨by omega, by omega⟩
      · exact fun _ => near32_of_cmp hta htb hab hba
    · rw [if_neg heq, cmp_lfuRank_of_ne heq] at hab
      rw [if_neg (Ne.symm heq), cmp_lfuRank_of_ne (Ne.symm heq)] at hba
      exact ⟨near32_of_cmp hka hkb hab hba, fun h => absurd h heq⟩
  · intro h
    exact LfuTotal.of_sign fun a ha b hb => cmp_lfuCompare (h a ha b hb)

/-- Three entries by their index: each key is `2 ^ 31 - 1` above the one before. -/
def spreadKeys (r : EntryRef) : HeapHead where
  key := min r.index 2 * (2 ^ 31 - 1)
  index := r.index

theorem spreadKeys_words (S : Set EntryRef) : LfuWords {} spreadKeys S := by
  intro r _
  constructor
  · show min r.index 2 * (2 ^ 31 - 1) < 2 ^ 32
    have hle := Nat.mul_le_mul_right (2 ^ 31 - 1) (Nat.min_le_right r.index 2)
    omega
  · show (0 : Nat) < 2 ^ 32
    decide

theorem lfuCompare_total_neighbours :
    LfuTotal {} spreadKeys {⟨.cache, 0⟩, ⟨.cache, 1⟩} := by
  refine (lfuCompare_total _ _ _ (spreadKeys_words _)).mpr ?_
  rintro a (rfl | rfl) b (rfl | rfl) <;> simp [LfuNear, Near32, spreadKeys, CacheNucleus.entry]

/-- The first below the second, the second below the third, the third below the first. -/
theorem lfuCompare_circle : LfuWords {} spreadKeys Set.univ ∧
    lfuCompare {} spreadKeys ⟨.cache, 0⟩ ⟨.cache, 1⟩ < 0 ∧
    lfuCompare {} spreadKeys ⟨.cache, 1⟩ ⟨.cache, 2⟩ < 0 ∧
    lfuCompare {} spreadKeys ⟨.cache, 2⟩ ⟨.cache, 0⟩ < 0 ∧
    ¬LfuTotal {} spreadKeys Set.univ := by
  have h20 : lfuCompare {} spreadKeys ⟨.cache, 2⟩ ⟨.cache, 0⟩ < 0 := by decide
  refine ⟨spreadKeys_words _, by decide, by decide, h20, fun h => ?_⟩
  have hsign := h.sign ⟨.cache, 2⟩ trivial ⟨.cache, 0⟩ trivial
  have hrank : cmp (lfuRank {} spreadKeys ⟨.cache, 2⟩) (lfuRank {} spreadKeys ⟨.cache, 0⟩) = .gt :=
    (cmp_lfuRank_of_ne (by decide)).trans (by decide)
  rw [(cmp_eq_lt_iff _ _).mpr h20, hrank] at hsign
  cases hsign

end Fomo
