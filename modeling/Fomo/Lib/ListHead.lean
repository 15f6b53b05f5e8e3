import Mathlib.Logic.Equiv.Basic
import Mathlib.Data.List.Basic

/-!
# Nodes of a linked list

A circular list is the sequence of its nodes from the head on. Two nodes change places by way
of temporary nodes that hold the places, so that it does not matter how they lie.
-/
namespace Fomo.Lib

variable {α : Type*} [DecidableEq α]

/-- `list_add(node, at)` puts the node right behind `at`. -/
def listAdd (l : List α) (node at' : α) : List α :=
  l.flatMap fun x => if x = at' then [x, node] else [x]

/-- `list_del(node)` -/
def listDel (l : List α) (node : α) : List α := l.filter fun x => decide (x ≠ node)

/-- A node of the list or one of the two holders. -/
inductive SwapNode (α : Type*)
  | item (a : α)
  | oldTmp
  | newTmp
deriving DecidableEq

open SwapNode

/-- `queue_swap` on the nodes, in the order of the source. -/
def listSwap (l : List α) (old new : α) : List (SwapNode α) :=
  let nodes := l.map item
  let nodes := listAdd nodes oldTmp (item old)
  let nodes := listAdd nodes newTmp (item new)
  let nodes := listDel nodes (item old)
  let nodes := listDel nodes (item new)
  let nodes := listAdd nodes (item new) oldTmp
  let nodes := listAdd nodes (item old) newTmp
  let nodes := listDel nodes oldTmp
  listDel nodes newTmp

theorem listAdd_append (l t : List α) (node at' : α) :
    listAdd (l ++ t) node at' = listAdd l node at' ++ listAdd t node at' := List.flatMap_append

theorem listDel_append (l t : List α) (node : α) :
    listDel (l ++ t) node = listDel l node ++ listDel t node := List.filter_append _ _

theorem listSwap_append (l t : List α) (old new : α) :
    listSwap (l ++ t) old new = listSwap l old new ++ listSwap t old new := by
  simp only [listSwap, List.map_append, listAdd_append, listDel_append]

theorem listSwap_singleton {old new : α} (hne : old ≠ new) (x : α) :
    listSwap [x] old new = [item (Equiv.swap old new x)] := by
  by_cases hold : x = old
  · subst hold
    simp [listSwap, listAdd, listDel, hne]
  · by_cases hnew : x = new
    · subst hnew
      simp [listSwap, listAdd, listDel, Ne.symm hne]
    · simp [listSwap, listAdd, listDel, hold, hnew, Equiv.swap_apply_of_ne_of_ne hold hnew]

/-- The holders are gone in the end, and the two nodes have changed places. -/
theorem listSwap_eq {old new : α} (hne : old ≠ new) (l : List α) :
    listSwap l old new = (l.map (Equiv.swap old new)).map item := by
  induction l with
  | nil => rfl
  | cons x l ih =>
    rw [← List.singleton_append, listSwap_append, listSwap_singleton hne, ih, List.map_append,
      List.map_append]
    rfl

end Fomo.Lib
