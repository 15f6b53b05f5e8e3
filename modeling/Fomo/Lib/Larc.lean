import Mathlib.Data.List.Nodup

/-!
# Lazy adaptive replacement

LARC with `c` pages: `q` lists the cached pages and `qr` the ghosts, pages lately refused, both
least recent first. A page comes into a full cache only as a ghost. A hit lowers the target for
the ghosts and a miss raises it, within a tenth and nine tenths of `m`.
-/
namespace Fomo.Lib

structure Larc (α : Type*) where
  q : List α := []
  qr : List α := []
  target : Nat

/-- How a request ends. A page that comes in may evict one. -/
inductive LarcAnswer (α : Type*)
  | hit
  | miss (victim : Option α)
  | filtered

def LarcAnswer.isHit {α : Type*} : LarcAnswer α → Bool
  | .hit => true
  | .miss _ => false
  | .filtered => false

namespace Larc

variable {α : Type*} [DecidableEq α]

/-- The target after a hit. -/
def lower (m target : Nat) : Nat := max (m / 10) (target - m / (m - target))

/-- The target after a miss. -/
def raise (m target : Nat) : Nat := min (9 * m / 10) (target + m / target)

/-- A new ghost, and the oldest one goes if there are too many. -/
def haunt (qr : List α) (x : α) (target : Nat) : List α :=
  if target < qr.length + 1 then (qr ++ [x]).tail else qr ++ [x]

def request (c m : Nat) (a : Larc α) (x : α) : Larc α × LarcAnswer α :=
  if x ∈ a.q then
    ({ a with q := a.q.erase x ++ [x], target := lower m a.target }, .hit)
  else if a.q.length < c then
    ({ q := a.q ++ [x], qr := a.qr.erase x, target := raise m a.target }, .miss none)
  else if x ∈ a.qr then
    ({ q := a.q.tail ++ [x], qr := a.qr.erase x, target := raise m a.target }, .miss a.q.head?)
  else
    ({ a with qr := haunt a.qr x (raise m a.target), target := raise m a.target }, .filtered)

def requests (c m : Nat) (a : Larc α) : List α → Larc α × List (LarcAnswer α)
  | [] => (a, [])
  | x :: xs =>
    let (a, answer) := a.request c m x
    let (a, answers) := requests c m a xs
    (a, answer :: answers)

variable {c m : Nat} {a : Larc α} {x : α}

theorem request_hit (hx : x ∈ a.q) : a.request c m x =
    ({ a with q := a.q.erase x ++ [x], target := lower m a.target }, .hit) :=
  if_pos hx

theorem request_room (hx : x ∉ a.q) (hc : a.q.length < c) : a.request c m x =
    ({ q := a.q ++ [x], qr := a.qr.erase x, target := raise m a.target }, .miss none) := by
  rw [request, if_neg hx, if_pos hc]

theorem request_ghost (hx : x ∉ a.q) (hc : c ≤ a.q.length) (hg : x ∈ a.qr) : a.request c m x =
    ({ q := a.q.tail ++ [x], qr := a.qr.erase x, target := raise m a.target },
      .miss a.q.head?) := by
  rw [request, if_neg hx, if_neg (Nat.not_lt.mpr hc), if_pos hg]

theorem request_filtered (hx : x ∉ a.q) (hc : c ≤ a.q.length) (hg : x ∉ a.qr) :
    a.request c m x =
      ({ a with qr := haunt a.qr x (raise m a.target), target := raise m a.target },
        .filtered) := by
  rw [request, if_neg hx, if_neg (Nat.not_lt.mpr hc), if_neg hg]

end Larc

end Fomo.Lib
