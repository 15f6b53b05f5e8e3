import Mathlib.Algebra.Group.Nat.Defs
import Mathlib.Logic.Function.Basic

/-!
# Types, faults and access results

`types.h`, `common.h` and the result part of `cache_nucleus_struct.h`. A counter is
a natural number; arithmetic that can leave the 32-bit word is reduced explicitly.
-/
namespace Fomo

/-- Origin device block address, `uint64_t`. -/
abbrev Oblock := UInt64

/-- Cache device block address, an index below `2^32`. -/
abbrev Cblock := Nat

/-- The ways a call ends without returning: a failed `LOG_ASSERT` aborts, the others are
traps of the machine, accesses past an array or a wait for a lock that stays taken. A loop
whose bound in the model is used up is `outOfFuel`. -/
inductive Fault
  | assertion
  | nullPointer
  | divisionByZero
  | outOfBounds
  | deadlock
  | outOfFuel
  deriving DecidableEq, Repr

abbrev Exec := Except Fault

variable {α β : Type}

/-- `LOG_ASSERT(expr)`. -/
def logAssert (p : Prop) [Decidable p] : Exec Unit := if p then .ok () else .error .assertion

/-- Use of a pointer that must not be `NULL`. -/
def deref : Option α → Exec α
  | some a => .ok a
  | none => .error .nullPointer

/-- A 32-bit unsigned value. -/
def u32 (n : Nat) : Nat := n % 2 ^ 32

/-- `--n` on a 32-bit unsigned counter. -/
def dec32 (n : Nat) : Nat := u32 (n + (2 ^ 32 - 1))

/-- `a - b` on 32-bit unsigned values. -/
def sub32 (a b : Nat) : Nat := u32 (a + 2 ^ 32 - b)

/-- 32-bit unsigned division. -/
def div32 (a b : Nat) : Exec Nat := if b = 0 then .error .divisionByZero else .ok (a / b)

/-- 32-bit unsigned remainder. -/
def mod32 (a b : Nat) : Exec Nat := if b = 0 then .error .divisionByZero else .ok (a % b)

/-- `a - b` on 64-bit unsigned values. -/
def sub64 (a b : Nat) : Nat := if b ≤ a then a - b else a + 2 ^ 64 - b

/-- `max` of `kernel/common.h`, on 32-bit unsigned values. -/
def max32 (a b : Nat) : Nat := max (u32 a) (u32 b)

/-- `min` of `kernel/common.h`. -/
def min32 (a b : Nat) : Nat := min (u32 a) (u32 b)

/-- 64-bit unsigned division. -/
def div64 (a b : Nat) : Exec Nat := if b = 0 then .error .divisionByZero else .ok (a / b)

theorem u32_of_lt {n : Nat} (h : n < 2 ^ 32) : u32 n = n := Nat.mod_eq_of_lt h

theorem u32_lt (n : Nat) : u32 n < 2 ^ 32 := Nat.mod_lt _ (by decide)

theorem u32_le (n : Nat) : u32 n ≤ n := Nat.mod_le _ _

theorem u32_u32 (n : Nat) : u32 (u32 n) = u32 n := u32_of_lt (u32_lt n)

theorem u32_succ (n : Nat) : u32 (u32 n + 1) = u32 (n + 1) := by
  unfold u32
  omega

theorem dec32_of_pos {n : Nat} (h0 : 0 < n) (h : n ≤ 2 ^ 32) : dec32 n = n - 1 := by
  unfold dec32 u32
  omega

theorem sub32_of_le {a b : Nat} (h : b ≤ a) (ha : a < 2 ^ 32) : sub32 a b = a - b := by
  unfold sub32 u32
  omega

theorem div32_of_pos {a b : Nat} (h : 0 < b) : div32 a b = .ok (a / b) := if_neg (by omega)

theorem mod32_of_pos {a b : Nat} (h : 0 < b) : mod32 a b = .ok (a % b) := if_neg (by omega)

theorem div64_of_pos {a b : Nat} (h : 0 < b) : div64 a b = .ok (a / b) := if_neg (by omega)

theorem sub64_of_le {a b : Nat} (h : b ≤ a) : sub64 a b = a - b := if_pos h

theorem max32_of_lt {a b : Nat} (ha : a < 2 ^ 32) (hb : b < 2 ^ 32) : max32 a b = max a b := by
  rw [max32, u32_of_lt ha, u32_of_lt hb]

theorem min32_of_lt {a b : Nat} (ha : a < 2 ^ 32) (hb : b < 2 ^ 32) : min32 a b = min a b := by
  rw [min32, u32_of_lt ha, u32_of_lt hb]

/-! ## The error monad -/

@[simp] theorem ok_bind (a : α) (f : α → Exec β) : (Except.ok a : Exec α) >>= f = f a := rfl

@[simp] theorem error_bind (e : Fault) (f : α → Exec β) :
    (Except.error e : Exec α) >>= f = .error e := rfl

@[simp] theorem pure_eq_ok (a : α) : (pure a : Exec α) = .ok a := rfl

theorem bind_eq_ok {x : Exec α} {f : α → Exec β} {b : β} :
    x >>= f = .ok b ↔ ∃ a, x = .ok a ∧ f a = .ok b := by
  cases x with
  | error e => simp
  | ok a => simp

theorem logAssert_true {p : Prop} [Decidable p] (h : p) : logAssert p = .ok () := if_pos h

theorem logAssert_eq_ok {p : Prop} [Decidable p] {u : Unit} : logAssert p = .ok u ↔ p := by
  unfold logAssert
  split <;> simp_all

@[simp] theorem deref_some (a : α) : deref (some a) = .ok a := rfl

@[simp] theorem deref_none : deref (none : Option α) = .error .nullPointer := rfl

theorem deref_eq_ok {o : Option α} {a : α} : deref o = .ok a ↔ o = some a := by
  cases o <;> simp

/-! ## Access results -/

/-- `enum cache_nucleus_operation`. -/
inductive CacheNucleusOperation
  | hit
  | filter
  | new
  | replace
  | fail
  deriving DecidableEq, Repr

/-- `struct cache_nucleus_result`. A call fills in the fields its operation defines
and leaves the others as the caller passed them. -/
structure CacheNucleusResult where
  op : CacheNucleusOperation := .hit
  oldOblock : Oblock := 0
  cblock : Cblock := 0
  dirtyEviction : Bool := false
  deriving DecidableEq, Repr

end Fomo
