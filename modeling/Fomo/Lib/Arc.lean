import Mathlib.Data.List.Basic

/-!
# Adaptive replacement

ARC with `c` pages: `T1` and `T2` list the pages seen once and more than once, `B1` and
`B2` the pages lately evicted from them, all least recent first. A ghost hit moves the
target `p` for the length of `T1`; REPLACE demotes a page by comparing with the target.
-/
namespace Fomo.Lib

structure Arc (α : Type*) where
  t1 : List α := []
  t2 : List α := []
  b1 : List α := []
  b2 : List α := []
  p : Nat := 0

/-- How a request ends. A miss may evict a page. -/
inductive ArcAnswer (α : Type*)
  | hit
  | miss (victim : Option α)

def ArcAnswer.isHit {α : Type*} : ArcAnswer α → Bool
  | .hit => true
  | .miss _ => false

namespace Arc

variable {α : Type*} [DecidableEq α]

/-- The learning rate of a hit in a ghost list of length `own`. -/
def delta (own other : Nat) : Nat := if other ≤ own then 1 else other / own

theorem delta_eq {own : Nat} (h : 0 < own) (other : Nat) :
    delta own other = max (other / own) 1 := by
  unfold delta
  split
  · next hle =>
    have : other / own ≤ 1 := by
      rw [Nat.div_le_iff_le_mul h]
      omega
    omega
  · next hlt =>
    have : 1 ≤ other / own := (Nat.le_div_iff_mul_le h).mpr (by omega)
    omega

/-- REPLACE: the least recent page of `T1` or `T2` goes to the ghosts. -/
def replace (a : Arc α) (x : α) : Arc α × Option α :=
  if a.t1 ≠ [] ∧ (a.p < a.t1.length ∨ (x ∈ a.b2 ∧ a.t1.length = a.p)) then
    ({ a with t1 := a.t1.tail, b1 := a.b1 ++ a.t1.head?.toList }, a.t1.head?)
  else ({ a with t2 := a.t2.tail, b2 := a.b2 ++ a.t2.head?.toList }, a.t2.head?)

theorem replace_t1 {a : Arc α} {x v : α} (h : a.t1.head? = some v)
    (hc : a.p < a.t1.length ∨ (x ∈ a.b2 ∧ a.t1.length = a.p)) :
    a.replace x = ({ a with t1 := a.t1.tail, b1 := a.b1 ++ [v] }, some v) := by
  have hne : a.t1 ≠ [] := by
    rintro hnil
    simp [hnil] at h
  rw [replace, if_pos ⟨hne, hc⟩, h]
  rfl

theorem replace_t2 {a : Arc α} {x v : α} (h : a.t2.head? = some v)
    (hc : ¬(1 ≤ a.t1.length ∧ (a.p < a.t1.length ∨ (x ∈ a.b2 ∧ a.t1.length = a.p)))) :
    a.replace x = ({ a with t2 := a.t2.tail, b2 := a.b2 ++ [v] }, some v) := by
  rw [replace, if_neg, h]
  · rfl
  · intro hx
    exact hc ⟨List.length_pos_iff.mpr hx.1, hx.2⟩

/-- A page of `B1` (Case II), of `B2` (Case III), or of no list (Case IV) comes in. -/
def miss (c : Nat) (a : Arc α) (x : α) : Arc α × Option α :=
  if x ∈ a.b1 then
    let (a, v) := replace { a with p := min (a.p + delta a.b1.length a.b2.length) c } x
    ({ a with b1 := a.b1.erase x, t2 := a.t2 ++ [x] }, v)
  else if x ∈ a.b2 then
    let (a, v) := replace { a with p := a.p - delta a.b2.length a.b1.length } x
    ({ a with b2 := a.b2.erase x, t2 := a.t2 ++ [x] }, v)
  else if a.t1.length + a.b1.length = c then
    if a.t1.length < c then
      let (a, v) := replace { a with b1 := a.b1.tail } x
      ({ a with t1 := a.t1 ++ [x] }, v)
    else ({ a with t1 := a.t1.tail ++ [x] }, a.t1.head?)
  else if c ≤ a.t1.length + a.t2.length + a.b1.length + a.b2.length then
    let full : Bool := a.t1.length + a.t2.length + a.b1.length + a.b2.length = 2 * c
    let (a, v) := replace (if full then { a with b2 := a.b2.tail } else a) x
    ({ a with t1 := a.t1 ++ [x] }, v)
  else ({ a with t1 := a.t1 ++ [x] }, none)

section

variable {c : Nat} {a a' : Arc α} {x : α} {v : Option α}

theorem miss_b1 (hx : x ∈ a.b1)
    (hr : replace { a with p := min (a.p + delta a.b1.length a.b2.length) c } x = (a', v)) :
    a.miss c x = ({ a' with b1 := a'.b1.erase x, t2 := a'.t2 ++ [x] }, v) := by
  rw [miss, if_pos hx, hr]

theorem miss_b2 (h1 : x ∉ a.b1) (hx : x ∈ a.b2)
    (hr : replace { a with p := a.p - delta a.b2.length a.b1.length } x = (a', v)) :
    a.miss c x = ({ a' with b2 := a'.b2.erase x, t2 := a'.t2 ++ [x] }, v) := by
  rw [miss, if_neg h1, if_pos hx, hr]

/-- `T1` and `B1` are full, and `B1` has the page that goes. -/
theorem miss_full_b1 (h1 : x ∉ a.b1) (h2 : x ∉ a.b2) (hl : a.t1.length + a.b1.length = c)
    (ht : a.t1.length < c) (hr : replace { a with b1 := a.b1.tail } x = (a', v)) :
    a.miss c x = ({ a' with t1 := a'.t1 ++ [x] }, v) := by
  rw [miss, if_neg h1, if_neg h2, if_pos hl, if_pos ht, hr]

theorem miss_full_t1 (h1 : x ∉ a.b1) (h2 : x ∉ a.b2) (hl : a.t1.length + a.b1.length = c)
    (ht : c ≤ a.t1.length) :
    a.miss c x = ({ a with t1 := a.t1.tail ++ [x] }, a.t1.head?) := by
  rw [miss, if_neg h1, if_neg h2, if_pos hl, if_neg (Nat.not_lt.mpr ht)]

/-- All four lists are full. -/
theorem miss_full_b2 (h1 : x ∉ a.b1) (h2 : x ∉ a.b2) (hl : a.t1.length + a.b1.length ≠ c)
    (hc : c ≤ a.t1.length + a.t2.length + a.b1.length + a.b2.length)
    (hfull : a.t1.length + a.t2.length + a.b1.length + a.b2.length = 2 * c)
    (hr : replace { a with b2 := a.b2.tail } x = (a', v)) :
    a.miss c x = ({ a' with t1 := a'.t1 ++ [x] }, v) := by
  rw [miss, if_neg h1, if_neg h2, if_neg hl, if_pos hc]
  simp only [hfull, decide_true, if_true, hr]

theorem miss_replace (h1 : x ∉ a.b1) (h2 : x ∉ a.b2) (hl : a.t1.length + a.b1.length ≠ c)
    (hc : c ≤ a.t1.length + a.t2.length + a.b1.length + a.b2.length)
    (hfull : a.t1.length + a.t2.length + a.b1.length + a.b2.length ≠ 2 * c)
    (hr : replace a x = (a', v)) : a.miss c x = ({ a' with t1 := a'.t1 ++ [x] }, v) := by
  rw [miss, if_neg h1, if_neg h2, if_neg hl, if_pos hc]
  simp only [hfull, decide_false, Bool.false_eq_true, if_false, hr]

theorem miss_room (h1 : x ∉ a.b1) (h2 : x ∉ a.b2) (hl : a.t1.length + a.b1.length ≠ c)
    (hc : a.t1.length + a.t2.length + a.b1.length + a.b2.length < c) :
    a.miss c x = ({ a with t1 := a.t1 ++ [x] }, none) := by
  rw [miss, if_neg h1, if_neg h2, if_neg hl, if_neg (Nat.not_le.mpr hc)]

end

/-- A request for `x`. A hit (Case I) makes it the most recent page of `T2`. -/
def request (c : Nat) (a : Arc α) (x : α) : Arc α × ArcAnswer α :=
  if x ∈ a.t1 ∨ x ∈ a.t2 then
    ({ a with t1 := a.t1.erase x, t2 := a.t2.erase x ++ [x] }, .hit)
  else
    let (a, v) := a.miss c x
    (a, .miss v)

def requests (c : Nat) (a : Arc α) : List α → Arc α × List (ArcAnswer α)
  | [] => (a, [])
  | x :: xs =>
    let (a, answer) := a.request c x
    let (a, answers) := requests c a xs
    (a, answer :: answers)

end Arc

end Fomo.Lib
