import Mathlib.Data.List.Nodup
import Mathlib.Logic.Function.Basic

/-!
# Flags set by name

A table names flags. A list of names sets them one by one, up to the first name that the table
does not have.
-/
namespace Fomo.Lib

variable {κ ι : Type*} [DecidableEq κ] {table : List (κ × ι)} {flags : ι → Bool} {k : κ}
  {names : List κ} {x : ι}

/-- The table has the flag under one of the names. -/
def Named (table : List (κ × ι)) (names : List κ) (x : ι) : Prop :=
  ∃ k ∈ names, (k, x) ∈ table

def known (table : List (κ × ι)) (k : κ) : Bool := decide (k ∈ table.map Prod.fst)

/-- The flags after the names, and whether all of them were known. -/
def setNames [DecidableEq ι] (table : List (κ × ι)) (flags : ι → Bool) :
    List κ → (ι → Bool) × Bool
  | [] => (flags, true)
  | k :: names =>
    match table.lookup k with
    | some x => setNames table (Function.update flags x true) names
    | none => (flags, false)

theorem known_iff : known table k = true ↔ k ∈ table.map Prod.fst := decide_eq_true_iff

theorem lookup_isNone_iff : table.lookup k = none ↔ ¬known table k = true := by
  rw [known_iff, List.lookup_eq_none_iff, List.mem_map]
  constructor
  · rintro hno ⟨⟨a, x⟩, hmem, rfl⟩
    simpa using hno _ hmem
  · intro hno a hmem
    rw [bne_iff_ne]
    rintro rfl
    exact hno ⟨a, hmem, rfl⟩

/-- With distinct names the first match is the only one. -/
theorem lookup_iff_mem (hn : (table.map Prod.fst).Nodup) :
    table.lookup k = some x ↔ (k, x) ∈ table := by
  induction table with
  | nil => exact iff_of_false (Option.some_ne_none x).symm List.not_mem_nil
  | cons e table ih =>
    obtain ⟨a, y⟩ := e
    rw [List.map_cons, List.nodup_cons] at hn
    rw [List.lookup_cons, List.mem_cons, Prod.mk.injEq]
    by_cases hk : k = a
    · subst hk
      have hno : (k, x) ∉ table := fun hmem => hn.1 (List.mem_map.mpr ⟨_, hmem, rfl⟩)
      simp [hno, eq_comm]
    · rw [beq_false_of_ne hk, ih hn.2]
      exact (or_iff_right fun heq => hk heq.1).symm

variable [DecidableEq ι]

theorem setNames_head (table : List (κ × ι)) (flags : ι → Bool) (k : κ) (x : ι) :
    setNames ((k, x) :: table) flags [k] = (Function.update flags x true, true) := by
  simp [setNames]

theorem setNames_skip {a : κ} (hk : k ≠ a) (flags : ι → Bool) (x : ι) :
    setNames ((a, x) :: table) flags [k] = setNames table flags [k] := by
  have hlookup : ((a, x) :: table).lookup k = table.lookup k := by
    rw [List.lookup_cons, beq_false_of_ne hk]
  cases hl : table.lookup k with
  | none => simp [setNames, hlookup, hl]
  | some y => simp [setNames, hlookup, hl]

/-- Names after names. -/
theorem setNames_append (table : List (κ × ι)) (flags : ι → Bool) (names names' : List κ) :
    setNames table flags (names ++ names') =
      if (setNames table flags names).2 then setNames table (setNames table flags names).1 names'
      else setNames table flags names := by
  induction names generalizing flags with
  | nil => rfl
  | cons k names ih =>
    cases hl : table.lookup k with
    | none => simp [setNames, hl]
    | some x => simpa [setNames, hl] using ih (Function.update flags x true)

/-- All names are known, or the first unknown one ends the list. -/
theorem setNames_known : (setNames table flags names).2 = true ↔
    ∀ k ∈ names, known table k = true := by
  induction names generalizing flags with
  | nil => simp [setNames]
  | cons k names ih =>
    rw [setNames, List.forall_mem_cons]
    cases hl : table.lookup k with
    | none => simp [lookup_isNone_iff.mp hl]
    | some x =>
      have hk : known table k = true := by
        by_contra hno
        rw [lookup_isNone_iff.mpr hno] at hl
        cases hl
      exact ih.trans (and_iff_right hk).symm

/-- The flags named before the first unknown name are set, and no others. -/
theorem setNames_flags (hn : (table.map Prod.fst).Nodup) (x : ι) :
    (setNames table flags names).1 x = true ↔
      flags x = true ∨ Named table (names.takeWhile (known table)) x := by
  induction names generalizing flags with
  | nil => simp [setNames, Named]
  | cons k names ih =>
    rw [setNames]
    cases hl : table.lookup k with
    | none =>
      rw [List.takeWhile_cons_of_neg (lookup_isNone_iff.mp hl)]
      simp [Named]
    | some y =>
      have hy := (lookup_iff_mem hn).mp hl
      have hk : known table k = true := known_iff.mpr (List.mem_map_of_mem hy)
      have hself : ∀ z, (k, z) ∈ table ↔ z = y := fun z => by
        rw [← lookup_iff_mem hn, hl, Option.some.injEq, eq_comm]
      rw [List.takeWhile_cons_of_pos hk]
      refine ih.trans ?_
      unfold Named
      rw [List.exists_mem_cons_iff, hself x, ← or_assoc]
      refine or_congr_left ?_
      by_cases hx : x = y
      · simp [hx]
      · simp [hx]

end Fomo.Lib
