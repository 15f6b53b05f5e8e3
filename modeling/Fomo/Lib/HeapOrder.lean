import Mathlib.Data.Finset.Card
import Mathlib.Order.Lattice
import Mathlib.Order.Antisymmetrization
import Mathlib.Logic.Equiv.Basic

/-!
# Heap order

The values of the first `n` places of an array, ordered along the parents of a binary
tree. One place may be out of order: below its value the heap is fine for a sift up,
above it for a sift down, and an exchange along the tree moves the fault by one place. A
sift down asks nothing of the places above its start.
-/
namespace Fomo.Lib

variable {α : Type*} [LinearOrder α] {n m i k hole : Nat} {v v' : Nat → α}

/-- The place above `i`. -/
def above (i : Nat) : Nat := (i - 1) / 2

theorem above_lt (h : 0 < i) : above i < i := by
  unfold above
  omega

/-- `i` is `j`, or a place on the way from `j` to the root. -/
inductive Over (i : Nat) : Nat → Prop
  | refl : Over i i
  | step {j : Nat} : 0 < j → Over i (above j) → Over i j

theorem Over.le (h : Over i k) : i ≤ k := by
  induction h with
  | refl => exact le_rfl
  | step hpos _ ih => exact ih.trans (above_lt hpos).le

theorem over_zero (k : Nat) : Over 0 k := by
  induction k using Nat.strongRecOn with
  | ind k ih =>
    by_cases hpos : 0 < k
    · exact .step hpos (ih _ (above_lt hpos))
    · obtain rfl : k = 0 := by omega
      exact .refl

theorem Over.trans (h : Over i k) (h' : Over k m) : Over i m := by
  induction h' with
  | refl => exact h
  | step hpos _ ih => exact .step hpos ih

/-- A place on the way is the start, or on the way from the place above it. -/
theorem Over.cases_above (h : Over i k) : i = k ∨ 0 < k ∧ Over i (above k) := by
  cases h with
  | refl => exact Or.inl rfl
  | step hpos h => exact Or.inr ⟨hpos, h⟩

/-- Two places on one way are one over the other. -/
theorem Over.total (h : Over i m) (h' : Over k m) : Over i k ∨ Over k i := by
  induction h with
  | refl => exact Or.inr h'
  | step hpos h ih =>
    rcases h'.cases_above with rfl | ⟨_, h'⟩
    · exact Or.inl (.step hpos h)
    · exact ih h'

def HeapOrdered (n : Nat) (v : Nat → α) : Prop := ∀ i, 0 < i → i < n → v (above i) ≤ v i

/-- Only the value of `hole` may be too small for the place above it. -/
structure UpOrder (n hole : Nat) (v : Nat → α) : Prop where
  except : ∀ i, 0 < i → i < n → i ≠ hole → v (above i) ≤ v i
  grand : ∀ i, 0 < i → i < n → 0 < hole → above i = hole → v (above hole) ≤ v i

/-- The order below the places outside `S`. -/
def OrderedOff (S : Nat → Prop) (n : Nat) (v : Nat → α) : Prop :=
  ∀ i, 0 < i → i < n → ¬S (above i) → v (above i) ≤ v i

theorem OrderedOff.mono {S T : Nat → Prop} (h : OrderedOff S n v) (hST : ∀ i, S i → T i) :
    OrderedOff T n v := fun i hpos hi hT => h i hpos hi fun hS => hT (hST _ hS)

/-- Outside `S`, only the value of `hole` may be too large for the places below it. -/
structure SiftOrder (S : Nat → Prop) (n hole : Nat) (v : Nat → α) : Prop where
  except : ∀ i, 0 < i → i < n → ¬S (above i) → above i ≠ hole → v (above i) ≤ v i
  grand : ∀ i, 0 < i → i < n → 0 < hole → ¬S (above hole) → above i = hole →
    v (above hole) ≤ v i

/-- Only the value of `hole` may be too large for the places below it. -/
structure DownOrder (n hole : Nat) (v : Nat → α) : Prop where
  except : ∀ i, 0 < i → i < n → above i ≠ hole → v (above i) ≤ v i
  grand : ∀ i, 0 < i → i < n → 0 < hole → above i = hole → v (above hole) ≤ v i

/-- The root is the least value. -/
theorem HeapOrdered.root_le (h : HeapOrdered n v) (hi : i < n) : v 0 ≤ v i := by
  induction i using Nat.strongRecOn with
  | _ i ih =>
    by_cases hpos : 0 < i
    · have hlt := above_lt hpos
      exact (ih _ hlt (Nat.lt_trans hlt hi)).trans (h i hpos hi)
    · obtain rfl : i = 0 := by omega
      exact le_rfl

theorem HeapOrdered.mono (h : HeapOrdered n v) (hm : m ≤ n) : HeapOrdered m v :=
  fun i hpos hi => h i hpos (Nat.lt_of_lt_of_le hi hm)

theorem HeapOrdered.congr (h : HeapOrdered n v) (hv : ∀ i, i < n → v' i = v i) :
    HeapOrdered n v' := by
  intro i hpos hi
  rw [hv i hi, hv _ (Nat.lt_trans (above_lt hpos) hi)]
  exact h i hpos hi

/-- Two levels at once. -/
theorem HeapOrdered.grand (h : HeapOrdered n v) (hpos : 0 < i) (hi : i < n)
    (hhole : 0 < above i) : v (above (above i)) ≤ v i :=
  (h _ hhole (Nat.lt_trans (above_lt hpos) hi)).trans (h i hpos hi)

/-- A value that grew may have to go down. -/
theorem HeapOrdered.raise (h : HeapOrdered n v) (hk : v k ≤ v' k)
    (hv : ∀ i, i < n → i ≠ k → v' i = v i) : DownOrder n k v' := by
  constructor
  · intro i hpos hi hne
    have hlt := above_lt hpos
    rw [hv _ (Nat.lt_trans hlt hi) hne]
    by_cases hik : i = k
    · subst hik
      exact (h i hpos hi).trans hk
    · rw [hv i hi hik]
      exact h i hpos hi
  · intro i hpos hi hk0 hik
    subst hik
    have hlt := above_lt hpos
    have hlt' := above_lt hk0
    rw [hv _ (by omega) (by omega), hv i hi (by omega)]
    exact h.grand hpos hi hk0

/-- A value that shrank may have to go up. -/
theorem HeapOrdered.lower (h : HeapOrdered n v) (hk : v' k ≤ v k)
    (hv : ∀ i, i < n → i ≠ k → v' i = v i) : UpOrder n k v' := by
  constructor
  · intro i hpos hi hne
    have hlt := above_lt hpos
    rw [hv i hi hne]
    by_cases hik : above i = k
    · subst hik
      exact hk.trans (h i hpos hi)
    · rw [hv _ (Nat.lt_trans hlt hi) hik]
      exact h i hpos hi
  · intro i hpos hi hk0 hik
    subst hik
    have hlt := above_lt hpos
    have hlt' := above_lt hk0
    rw [hv _ (by omega) (by omega), hv i hi (by omega)]
    exact h.grand hpos hi hk0

/-- A value added at the end may have to go up. -/
theorem HeapOrdered.extend (h : HeapOrdered n v) (hv : ∀ i, i < n → v' i = v i) :
    UpOrder (n + 1) n v' := by
  constructor
  · intro i hpos hi hne
    exact h.congr hv i hpos (by omega)
  · intro i hpos hi _ hin
    have := above_lt hpos
    omega

theorem UpOrder.finish (h : UpOrder n hole v) (hstop : 0 < hole → v (above hole) ≤ v hole) :
    HeapOrdered n v := by
  intro i hpos hi
  by_cases heq : i = hole
  · subst heq
    exact hstop hpos
  · exact h.except i hpos hi heq

theorem SiftOrder.finish {S : Nat → Prop} (h : SiftOrder S n hole v)
    (hstop : ∀ i, 0 < i → i < n → above i = hole → v hole ≤ v i) : OrderedOff S n v := by
  intro i hpos hi hS
  by_cases heq : above i = hole
  · rw [heq]
    exact hstop i hpos hi heq
  · exact h.except i hpos hi hS heq

theorem DownOrder.sift (h : DownOrder n hole v) : SiftOrder (fun _ => False) n hole v where
  except := fun i hpos hi _ => h.except i hpos hi
  grand := fun i hpos hi h0 _ => h.grand i hpos hi h0

/-- The values on the way from `hole` up do not matter to a sift down from `hole`. -/
theorem OrderedOff.sift (h : OrderedOff (fun i => Over i hole) n v) :
    SiftOrder (fun i => Over i hole ∧ i < hole) n hole v := by
  constructor
  · intro i hpos hi hS hne
    exact h i hpos hi fun hover => hS ⟨hover, lt_of_le_of_ne hover.le hne⟩
  · intro i hpos hi h0 hS
    exact absurd ⟨.step h0 .refl, above_lt h0⟩ hS

/-- An exchange with the place above moves the fault up. -/
theorem UpOrder.swap (h : UpOrder n hole v) (hpos : 0 < hole) (hlt : hole < n)
    (hless : v hole ≤ v (above hole)) :
    UpOrder n (above hole) fun i => v (Equiv.swap hole (above hole) i) := by
  have hup := above_lt hpos
  -- what stands above the new place of the fault is below what stood there
  have htop : 0 < above hole → v (above (above hole)) ≤ v (above hole) := fun h0 =>
    h.except _ h0 (Nat.lt_trans hup hlt) (Nat.ne_of_lt hup)
  constructor
  · intro i hi0 hi hne
    by_cases hih : i = hole
    · subst hih
      simpa using hless
    · rw [Equiv.swap_apply_of_ne_of_ne hih hne]
      by_cases hph : above i = hole
      · rw [hph, Equiv.swap_apply_left]
        exact h.grand i hi0 hi hpos hph
      · by_cases hpp : above i = above hole
        · rw [hpp, Equiv.swap_apply_right]
          have := h.except i hi0 hi hih
          rw [hpp] at this
          exact hless.trans this
        · rw [Equiv.swap_apply_of_ne_of_ne hph hpp]
          exact h.except i hi0 hi hih
  · intro i hi0 hi h0 hip
    have hup' := above_lt h0
    have hlt' := above_lt hi0
    rw [Equiv.swap_apply_of_ne_of_ne (by omega) (by omega)]
    by_cases hih : i = hole
    · subst hih
      rw [Equiv.swap_apply_left]
      exact htop h0
    · rw [Equiv.swap_apply_of_ne_of_ne hih (by omega)]
      have := h.except i hi0 hi hih
      rw [hip] at this
      exact (htop h0).trans this

/-- An exchange with the least place below moves the fault down. -/
theorem SiftOrder.swap {S : Nat → Prop} (h : SiftOrder S n hole v) (hS : ∀ i, S i → i < hole)
    (hk0 : 0 < k) (hk : k < n) (hkh : above k = hole) (hless : v k ≤ v hole)
    (hmin : ∀ i, 0 < i → i < n → above i = hole → v k ≤ v i) :
    SiftOrder S n k fun i => v (Equiv.swap hole k i) := by
  have hup : hole < k := hkh ▸ above_lt hk0
  constructor
  · intro i hi0 hi hiS hne
    have hlt := above_lt hi0
    by_cases hih : i = hole
    · subst hih
      rw [Equiv.swap_apply_left, Equiv.swap_apply_of_ne_of_ne (by omega) (by omega)]
      exact h.grand k hk0 hk hi0 hiS hkh
    · by_cases hik : i = k
      · subst hik
        rw [hkh, Equiv.swap_apply_left, Equiv.swap_apply_right]
        exact hless
      · rw [Equiv.swap_apply_of_ne_of_ne hih hik]
        by_cases hph : above i = hole
        · rw [hph, Equiv.swap_apply_left]
          exact hmin i hi0 hi hph
        · rw [Equiv.swap_apply_of_ne_of_ne hph hne]
          exact h.except i hi0 hi hiS hph
  · intro i hi0 hi _ _ hik
    have hlt := above_lt hi0
    have hkS : ¬S k := fun hk => Nat.lt_asymm hup (hS k hk)
    rw [hkh, Equiv.swap_apply_left, Equiv.swap_apply_of_ne_of_ne (by omega) (by omega)]
    have hle := h.except i hi0 hi (by rwa [hik]) (by omega)
    rwa [hik] at hle

/-! ## Ranks -/

universe u

/-- A total preorder is the order of the ranks of its elements. -/
theorem exists_rank {ι : Type u} (le : ι → ι → Prop) (htotal : ∀ a b, le a b ∨ le b a)
    (htrans : ∀ a b c, le a b → le b c → le a c) :
    ∃ (β : Type u) (_ : LinearOrder β) (rank : ι → β), ∀ a b, rank a ≤ rank b ↔ le a b := by
  classical
  let order : Preorder ι :=
    { le := le
      le_refl := fun a => (htotal a a).elim id id
      le_trans := htrans }
  have total : Std.Total (α := ι) (· ≤ ·) := ⟨htotal⟩
  exact ⟨Antisymmetrization ι (· ≤ ·), inferInstance, toAntisymmetrization (· ≤ ·),
    fun a b => toAntisymmetrization_le_toAntisymmetrization_iff⟩

/-- The elements of a finite set by the number of those below. -/
theorem exists_count (s : Finset α) : ∃ count : α → Nat,
    ∀ a b, a ∈ s → a < b → count a < count b := by
  refine ⟨fun b => (s.filter (· < b)).card, fun a b ha hab => Finset.card_lt_card ?_⟩
  rw [Finset.ssubset_iff_of_subset]
  · exact ⟨a, Finset.mem_filter.mpr ⟨ha, hab⟩, fun hmem =>
      lt_irrefl a (Finset.mem_filter.mp hmem).2⟩
  · intro c hc
    obtain ⟨hcs, hca⟩ := Finset.mem_filter.mp hc
    exact Finset.mem_filter.mpr ⟨hcs, hca.trans hab⟩

end Fomo.Lib
