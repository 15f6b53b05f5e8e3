import Fomo.Lib.ListHead
import Mathlib.Data.List.Chain
import Mathlib.Data.List.Nodup

/-!
# Circular lists of pointers

Nodes carry a pointer to the next and one to the previous node. Several circles live in one
memory; adding a node behind another and deleting one act on the circles as on lists.
-/
namespace Fomo.Lib

variable {α ι : Type*}

/-- The pointers of the nodes. `none` is a pointer that must not be followed. -/
structure Links (α : Type*) where
  next : α → Option α
  prev : α → Option α

/-! ## Lists as the circles see them -/

section

variable [DecidableEq α]

theorem listAdd_of_not_mem {l : List α} {x new : α} (hx : x ∉ l) : listAdd l new x = l := by
  induction l with
  | nil => rfl
  | cons a l ih =>
    have ha : a ≠ x := fun h => hx (h ▸ List.mem_cons_self)
    have hl := ih fun h => hx (List.mem_cons_of_mem a h)
    unfold listAdd at hl ⊢
    rw [List.flatMap_cons, hl, if_neg ha]
    rfl

theorem listAdd_split {c₁ c₂ : List α} {x new : α} (h : (c₁ ++ x :: c₂).Nodup) :
    listAdd (c₁ ++ x :: c₂) new x = c₁ ++ x :: new :: c₂ := by
  obtain ⟨_, h₂, hd⟩ := List.nodup_append.mp h
  have hx₁ : x ∉ c₁ := fun hx => hd x hx x List.mem_cons_self rfl
  have hx₂ : x ∉ c₂ := (List.nodup_cons.mp h₂).1
  rw [listAdd_append, listAdd_of_not_mem hx₁, ← List.singleton_append, listAdd_append,
    listAdd_of_not_mem hx₂]
  simp [listAdd]

theorem listAdd_head {l : List α} {h new : α} (hl : h ∉ l) :
    listAdd (h :: l) new h = h :: new :: l := by
  rw [← List.singleton_append, listAdd_append, listAdd_of_not_mem hl]
  simp [listAdd]

@[simp] theorem mem_listAdd {l : List α} {x y new : α} :
    y ∈ listAdd l new x ↔ y ∈ l ∨ y = new ∧ x ∈ l := by
  induction l with
  | nil => simp [listAdd]
  | cons a l ih =>
    have hcons : listAdd (a :: l) new x = listAdd [a] new x ++ listAdd l new x :=
      listAdd_append [a] l _ _
    rw [hcons, List.mem_append, ih]
    by_cases ha : a = x
    · simp only [listAdd, List.flatMap_cons, List.flatMap_nil, ha, if_true, List.mem_append,
        List.mem_cons, List.not_mem_nil, or_false, true_or, and_true]
      tauto
    · simp only [listAdd, List.flatMap_cons, List.flatMap_nil, ha, if_false, List.mem_append,
        List.mem_cons, List.not_mem_nil, or_false, Ne.symm ha, false_or]
      tauto

theorem nodup_listAdd {l : List α} {x new : α} (h : l.Nodup) (hnew : new ∉ l) :
    (listAdd l new x).Nodup := by
  by_cases hx : x ∈ l
  · obtain ⟨c₁, c₂, rfl⟩ := List.append_of_mem hx
    have hperm : (c₁ ++ x :: new :: c₂).Perm (new :: (c₁ ++ x :: c₂)) := by
      rw [List.append_cons c₁ x (new :: c₂), List.append_cons c₁ x c₂]
      exact List.perm_middle
    rw [listAdd_split h, hperm.nodup_iff]
    exact List.nodup_cons.mpr ⟨hnew, h⟩
  · rwa [listAdd_of_not_mem hx]

theorem listDel_of_not_mem {l : List α} {x : α} (hx : x ∉ l) : listDel l x = l := by
  refine List.filter_eq_self.mpr fun y hy => ?_
  simp only [decide_eq_true_eq]
  rintro rfl
  exact hx hy

@[simp] theorem mem_listDel {l : List α} {x y : α} : y ∈ listDel l x ↔ y ∈ l ∧ y ≠ x := by
  simp [listDel]

theorem not_mem_listDel (l : List α) (x : α) : x ∉ listDel l x := fun h => (mem_listDel.mp h).2 rfl

theorem head?_listAdd (l : List α) (new x : α) : (listAdd l new x).head? = l.head? := by
  cases l with
  | nil => rfl
  | cons a l =>
    rw [listAdd, List.flatMap_cons]
    split <;> rfl

theorem head?_listDel {l : List α} {x h : α} (hl : l.head? = some h) (hne : h ≠ x) :
    (listDel l x).head? = some h := by
  obtain ⟨t, rfl⟩ := List.head?_eq_some_iff.mp hl
  rw [listDel, List.filter_cons_of_pos (by simpa using hne)]
  rfl

theorem listDel_split {c₁ c₂ : List α} {x : α} (h : (c₁ ++ x :: c₂).Nodup) :
    listDel (c₁ ++ x :: c₂) x = c₁ ++ c₂ := by
  obtain ⟨_, h₂, hd⟩ := List.nodup_append.mp h
  have hx₁ : x ∉ c₁ := fun hx => hd x hx x List.mem_cons_self rfl
  have hx₂ : x ∉ c₂ := (List.nodup_cons.mp h₂).1
  rw [listDel_append, listDel_of_not_mem hx₁, ← List.singleton_append, listDel_append,
    listDel_of_not_mem hx₂]
  simp [listDel]

end

namespace Links

section

variable [DecidableEq α]

def setNext (m : Links α) (x y : α) : Links α :=
  { m with next := Function.update m.next x (some y) }

def setPrev (m : Links α) (x y : α) : Links α :=
  { m with prev := Function.update m.prev x (some y) }

/-- `INIT_LIST_HEAD` -/
def init (m : Links α) (x : α) : Links α := (m.setNext x x).setPrev x x

/-- `__list_add` -/
def insert (m : Links α) (new prev next : α) : Links α :=
  (((m.setPrev next new).setNext new next).setPrev new prev).setNext prev new

/-- `list_add` -/
def add (m : Links α) (new head : α) : Option (Links α) := do
  let next ← m.next head
  return m.insert new head next

/-- `list_add_tail` -/
def addTail (m : Links α) (new head : α) : Option (Links α) := do
  let prev ← m.prev head
  return m.insert new prev head

/-- `__list_del` -/
def unlink (m : Links α) (prev next : α) : Links α := (m.setPrev next prev).setNext prev next

/-- `__list_del_entry` -/
def delEntry (m : Links α) (entry : α) : Option (Links α) := do
  let prev ← m.prev entry
  let next ← m.next entry
  return m.unlink prev next

/-- `list_del` leaves poison in the pointers of the node. -/
def del (m : Links α) (entry : α) : Option (Links α) := do
  let m ← m.delEntry entry
  return { next := Function.update m.next entry none, prev := Function.update m.prev entry none }

/-- `list_del_init` -/
def delInit (m : Links α) (entry : α) : Option (Links α) := do
  let m ← m.delEntry entry
  return m.init entry

/-- `list_empty` -/
def empty (m : Links α) (head : α) : Bool := m.next head = some head

end

/-! ## Circles -/

/-- Each of the two nodes points at the other. -/
def Adjacent (m : Links α) (x y : α) : Prop := m.next x = some y ∧ m.prev y = some x

/-- The nodes of the list follow each other, the first one after the last. -/
def Circle (m : Links α) (c : List α) : Prop := (c ++ c.head?.toList).IsChain m.Adjacent

/-- The memory holds disjoint circles. -/
structure Holds (m : Links α) (circles : ι → List α) : Prop where
  circle : ∀ i, m.Circle (circles i)
  nodup : ∀ i, (circles i).Nodup
  disjoint : ∀ i j x, x ∈ circles i → x ∈ circles j → i = j

variable {m m' : Links α} {c c₁ c₂ : List α} {x y z new h n p : α} {circles : ι → List α} {i j : ι}

theorem chain_congr {R S : α → α → Prop} {l : List α} (hl : (l ++ [z]).IsChain R)
    (h : ∀ x ∈ l, ∀ y ∈ l ++ [z], R x y → S x y) : (l ++ [z]).IsChain S := by
  induction l with
  | nil => exact List.isChain_singleton z
  | cons a l ih =>
    have htail := ih hl.tail fun x hx y hy =>
      h x (List.mem_cons_of_mem a hx) y (List.mem_cons_of_mem a hy)
    refine htail.cons fun y hy => ?_
    exact h a List.mem_cons_self y (List.mem_cons_of_mem a (List.mem_of_mem_head? hy))
      (hl.rel_head? hy)

theorem circle_of_head (hh : c.head? = some h) :
    m.Circle c ↔ (c ++ [h]).IsChain m.Adjacent := by
  rw [Circle, hh]
  rfl

theorem circle_congr (hc : m.Circle c)
    (h : ∀ x ∈ c, ∀ y ∈ c, m.Adjacent x y → m'.Adjacent x y) : m'.Circle c := by
  cases hhead : c.head? with
  | none =>
    rw [List.head?_eq_none_iff.mp hhead]
    exact List.isChain_nil
  | some a =>
    rw [circle_of_head hhead] at hc ⊢
    refine chain_congr hc fun x hx y hy => h x hx y ?_
    rcases List.mem_append.mp hy with hy | hy
    · exact hy
    · rw [List.mem_singleton.mp hy]
      exact List.mem_of_mem_head? hhead

/-- The neighbours of a node of a circle. -/
theorem Circle.split (hc : m.Circle (c₁ ++ x :: c₂)) (hh : (c₁ ++ x :: c₂).head? = some h) :
    ∃ n r, c₂ ++ [h] = n :: r ∧ m.Adjacent x n ∧ (n :: r).IsChain m.Adjacent ∧
      (c₁ ++ [x]).IsChain m.Adjacent := by
  rw [circle_of_head hh, List.append_assoc, List.cons_append, List.isChain_split] at hc
  obtain ⟨hleft, hright⟩ := hc
  cases hr : c₂ ++ [h] with
  | nil => simp at hr
  | cons n r =>
    rw [hr, List.isChain_cons_cons] at hright
    exact ⟨n, r, rfl, hright.1, hright.2, hleft⟩

/-- The pointers of a node outside the circles do not matter. -/
theorem Holds.off (hm : m.Holds circles) (hx : ∀ j, x ∉ circles j)
    (hnext : ∀ y, y ≠ x → m'.next y = m.next y) (hprev : ∀ y, y ≠ x → m'.prev y = m.prev y) :
    m'.Holds circles := by
  refine ⟨fun j => ?_, hm.nodup, hm.disjoint⟩
  refine circle_congr (hm.circle j) fun y hy z hz hyz => ⟨?_, ?_⟩
  · rw [hnext y fun h => hx j (h ▸ hy), hyz.1]
  · rw [hprev z fun h => hx j (h ▸ hz), hyz.2]

theorem Holds.next_head (hm : m.Holds circles) {l : List α} (hc : circles i = h :: x :: l) :
    m.next h = some x := by
  have hcirc := hm.circle i
  rw [hc, circle_of_head rfl] at hcirc
  exact (List.isChain_cons_cons.mp hcirc).1.1

/-- A circle may be forgotten. -/
theorem Holds.forget [DecidableEq ι] (hm : m.Holds circles) (k : ι) :
    m.Holds (Function.update circles k []) := by
  have hsub : ∀ j x, x ∈ Function.update circles k [] j → x ∈ circles j := by
    intro j x hx
    by_cases hj : j = k
    · subst hj
      rw [Function.update_self] at hx
      cases hx
    · rwa [Function.update_of_ne hj] at hx
  constructor
  · intro j
    by_cases hj : j = k
    · subst hj
      rw [Function.update_self]
      exact List.isChain_nil
    · rw [Function.update_of_ne hj]
      exact hm.circle j
  · intro j
    by_cases hj : j = k
    · subst hj
      rw [Function.update_self]
      exact List.nodup_nil
    · rw [Function.update_of_ne hj]
      exact hm.nodup j
  · exact fun j l x hj hl => hm.disjoint j l x (hsub j x hj) (hsub l x hl)

/-! ## Adding a node -/

section

variable [DecidableEq α]

theorem insert_next (m : Links α) (new prev next y : α) : (m.insert new prev next).next y =
    if y = prev then some new else if y = new then some next else m.next y := by
  simp only [insert, setNext, setPrev, Function.update_apply]

theorem insert_prev (m : Links α) (new prev next y : α) : (m.insert new prev next).prev y =
    if y = new then some prev else if y = next then some new else m.prev y := by
  simp only [insert, setNext, setPrev, Function.update_apply]

/-- Nodes that were neighbours stay so around an insertion behind `x`. -/
theorem Adjacent.insert (h : m.Adjacent y z) (hxn : m.Adjacent x n) (hyx : y ≠ x) (hy : y ≠ new)
    (hz : z ≠ new) : (m.insert new x n).Adjacent y z := by
  have hzn : z ≠ n := by
    rintro rfl
    exact hyx (Option.some.inj (h.2.symm.trans hxn.2))
  constructor
  · rw [insert_next, if_neg hyx, if_neg hy, h.1]
  · rw [insert_prev, if_neg hz, if_neg hzn, h.2]

theorem adjacent_insert_left : (m.insert new x n).Adjacent x new := by
  constructor
  · rw [insert_next, if_pos rfl]
  · rw [insert_prev, if_pos rfl]

theorem adjacent_insert_right (hx : x ≠ new) (hn : n ≠ new) :
    (m.insert new x n).Adjacent new n := by
  constructor
  · rw [insert_next, if_neg (Ne.symm hx), if_pos rfl]
  · rw [insert_prev, if_neg hn, if_pos rfl]

/-- A node is added behind a node of the circle. -/
theorem Circle.insert (hc : m.Circle (c₁ ++ x :: c₂)) (hnd : (c₁ ++ x :: c₂).Nodup)
    (hnew : new ∉ c₁ ++ x :: c₂) :
    ∃ n, m.Adjacent x n ∧ n ≠ new ∧ (m.insert new x n).Circle (c₁ ++ x :: new :: c₂) := by
  obtain ⟨h, hh⟩ : ∃ h, (c₁ ++ x :: c₂).head? = some h := by cases c₁ <;> exact ⟨_, rfl⟩
  have hh' : (c₁ ++ x :: new :: c₂).head? = some h := by
    rw [← hh]
    cases c₁ <;> rfl
  obtain ⟨n, r, hr, hxn, hright, hleft⟩ := hc.split hh
  have hmem : h ∈ c₁ ++ x :: c₂ := List.mem_of_mem_head? hh
  have hmemn : ∀ y ∈ c₂ ++ [h], y ∈ c₁ ++ x :: c₂ := by
    intro y hy
    rcases List.mem_append.mp hy with hy | hy
    · simp [hy]
    · rwa [List.mem_singleton.mp hy]
  have hne : ∀ y ∈ c₁ ++ x :: c₂, y ≠ new := fun y hy heq => hnew (heq ▸ hy)
  have hxnew : x ≠ new := hne x (by simp)
  have hnnew : n ≠ new := hne n (hmemn n (by simp [hr]))
  obtain ⟨_, h₂, hd⟩ := List.nodup_append.mp hnd
  refine ⟨n, hxn, hnnew, ?_⟩
  rw [circle_of_head hh', List.append_assoc, List.cons_append, List.cons_append, hr,
    List.isChain_split, List.isChain_cons_cons, List.isChain_cons_cons]
  refine ⟨?_, adjacent_insert_left, adjacent_insert_right hxnew hnnew, ?_⟩
  · refine chain_congr hleft fun y hy z hz hyz => hyz.insert hxn ?_ ?_ ?_
    · exact hd y hy x List.mem_cons_self
    · exact hne y (by simp [hy])
    · refine hne z ?_
      rcases List.mem_append.mp hz with hz | hz
      · simp [hz]
      · simp [List.mem_singleton.mp hz]
  · rw [← hr] at hright ⊢
    refine chain_congr hright fun y hy z hz hyz => hyz.insert hxn ?_ ?_ ?_
    · rintro rfl
      exact (List.nodup_cons.mp h₂).1 hy
    · exact hne y (by simp [hy])
    · exact hne z (hmemn z hz)

/-- `list_add` acts on all circles as on lists. -/
theorem Holds.add {a : α} (hm : m.Holds circles) (hx : x ∈ circles i) (hnew : ∀ j, a ∉ circles j) :
    ∃ m', m.add a x = some m' ∧ m'.Holds fun j => listAdd (circles j) a x := by
  obtain ⟨c₁, c₂, hc⟩ := List.append_of_mem hx
  have hci := hm.circle i
  have hndi := hm.nodup i
  have hnewi := hnew i
  rw [hc] at hci hndi hnewi
  obtain ⟨n, hxn, hnn, hcirc⟩ := hci.insert hndi hnewi
  have hother : ∀ j, j ≠ i → x ∉ circles j := fun j hj hxj => hj (hm.disjoint j i x hxj hx)
  refine ⟨m.insert a x n, by rw [Links.add, hxn.1]; rfl, ?_, ?_, ?_⟩
  · intro j
    by_cases hj : j = i
    · subst hj
      rwa [hc, listAdd_split hndi]
    · rw [listAdd_of_not_mem (hother j hj)]
      refine circle_congr (hm.circle j) fun y hy z hz hyz => hyz.insert hxn ?_ ?_ ?_
      · exact fun h => hother j hj (h ▸ hy)
      · exact fun h => hnew j (h ▸ hy)
      · exact fun h => hnew j (h ▸ hz)
  · exact fun j => nodup_listAdd (hm.nodup j) (hnew j)
  · intro j k y hj hk
    rcases mem_listAdd.mp hj with hyj | ⟨rfl, hxj⟩
    · rcases mem_listAdd.mp hk with hyk | ⟨rfl, _⟩
      · exact hm.disjoint j k y hyj hyk
      · exact absurd hyj (hnew j)
    · rcases mem_listAdd.mp hk with hyk | ⟨_, hxk⟩
      · exact absurd hyk (hnew k)
      · exact hm.disjoint j k x hxj hxk

/-- `list_add_tail` puts the node at the end. -/
theorem Holds.addTail [DecidableEq ι] (hm : m.Holds circles) {l : List α}
    (hc : circles i = h :: l) (hnew : ∀ j, new ∉ circles j) :
    ∃ m', m.addTail new h = some m' ∧
      m'.Holds (Function.update circles i (h :: (l ++ [new]))) := by
  -- the last node of the circle, whose next one is the head
  obtain ⟨c, p, hp⟩ : ∃ c p, h :: l = c ++ [p] := by
    rcases List.eq_nil_or_concat (h :: l) with hnil | ⟨c, p, hp⟩
    · cases hnil
    · exact ⟨c, p, hp.trans List.concat_eq_append⟩
  have hcirc := hm.circle i
  have hnd := hm.nodup i
  rw [hc] at hcirc
  rw [hc, hp] at hnd
  have hadj : m.Adjacent p h := by
    rw [circle_of_head rfl, hp, List.append_assoc, List.singleton_append,
      List.isChain_split] at hcirc
    exact List.isChain_pair.mp hcirc.2
  have hmem : p ∈ circles i := by simp [hc, hp]
  obtain ⟨m', hadd, h'⟩ := hm.add hmem hnew
  rw [Links.add, hadj.1] at hadd
  refine ⟨m', by rw [Links.addTail, hadj.2]; exact hadd, ?_⟩
  have hcircles : Function.update circles i (h :: (l ++ [new])) =
      fun j => listAdd (circles j) new p := by
    funext j
    by_cases hj : j = i
    · subst hj
      rw [Function.update_self, hc, hp, listAdd_split hnd, ← List.cons_append, hp,
        List.append_assoc, List.singleton_append]
    · rw [Function.update_of_ne hj, listAdd_of_not_mem]
      exact fun hpj => hj (hm.disjoint j i p hpj hmem)
  rwa [hcircles]

/-! ## Deleting a node -/

theorem unlink_next (m : Links α) (prev next y : α) :
    (m.unlink prev next).next y = if y = prev then some next else m.next y := by
  simp only [unlink, setNext, setPrev, Function.update_apply]

theorem unlink_prev (m : Links α) (prev next y : α) :
    (m.unlink prev next).prev y = if y = next then some prev else m.prev y := by
  simp only [unlink, setNext, setPrev, Function.update_apply]

/-- Nodes that were neighbours stay so around a deletion of `x`. -/
theorem Adjacent.unlink (h : m.Adjacent y z) (hxn : m.Adjacent x n) (hyp : y ≠ p) (hyx : y ≠ x) :
    (m.unlink p n).Adjacent y z := by
  have hzn : z ≠ n := by
    rintro rfl
    exact hyx (Option.some.inj (h.2.symm.trans hxn.2))
  constructor
  · rw [unlink_next, if_neg hyp, h.1]
  · rw [unlink_prev, if_neg hzn, h.2]

theorem adjacent_unlink : (m.unlink p n).Adjacent p n := by
  constructor
  · rw [unlink_next, if_pos rfl]
  · rw [unlink_prev, if_pos rfl]

/-- A node that does not come first is deleted from the circle. -/
theorem Circle.unlink (hc : m.Circle (c₁ ++ p :: x :: c₂)) (hnd : (c₁ ++ p :: x :: c₂).Nodup) :
    ∃ n, m.Adjacent p x ∧ m.Adjacent x n ∧ (m.unlink p n).Circle (c₁ ++ p :: c₂) := by
  obtain ⟨h, hh⟩ : ∃ h, (c₁ ++ p :: x :: c₂).head? = some h := by cases c₁ <;> exact ⟨_, rfl⟩
  have hh' : (c₁ ++ p :: c₂).head? = some h := by
    rw [← hh]
    cases c₁ <;> rfl
  obtain ⟨x', r, hr, hpx, hright, hleft⟩ := hc.split hh
  obtain ⟨rfl, rfl⟩ := List.cons.inj hr
  have hcons : c₁ ++ p :: x :: c₂ = (c₁ ++ [p]) ++ x :: c₂ := by simp
  obtain ⟨n, r, hr, hxn, hright, _⟩ := (hcons ▸ hc).split (hcons ▸ hh)
  obtain ⟨_, h₂, hd⟩ := List.nodup_append.mp hnd
  obtain ⟨hp, hx⟩ := List.nodup_cons.mp h₂
  refine ⟨n, hpx, hxn, ?_⟩
  rw [circle_of_head hh', List.append_assoc, List.cons_append, hr, List.isChain_split,
    List.isChain_cons_cons]
  refine ⟨?_, adjacent_unlink, ?_⟩
  · refine chain_congr hleft fun y hy z _ hyz => hyz.unlink hxn ?_ ?_
    · exact hd y hy p List.mem_cons_self
    · exact hd y hy x (by simp)
  · rw [← hr] at hright ⊢
    refine chain_congr hright fun y hy z _ hyz => hyz.unlink hxn ?_ ?_
    · rintro rfl
      exact hp (List.mem_cons_of_mem x hy)
    · rintro rfl
      exact (List.nodup_cons.mp hx).1 hy

theorem Holds.delEntry (hm : m.Holds circles) (hx : x ∈ circles i)
    (hhead : (circles i).head? ≠ some x) :
    ∃ m', m.delEntry x = some m' ∧ m'.Holds fun j => listDel (circles j) x := by
  obtain ⟨c, c₂, hc⟩ := List.append_of_mem hx
  -- the node before `x`
  obtain ⟨c₁, p, rfl⟩ : ∃ c₁ p, c = c₁ ++ [p] := by
    rcases List.eq_nil_or_concat c with rfl | ⟨c₁, p, rfl⟩
    · rw [hc] at hhead
      exact absurd rfl hhead
    · exact ⟨c₁, p, List.concat_eq_append⟩
  rw [List.append_assoc, List.singleton_append] at hc
  have hci := hm.circle i
  have hndi := hm.nodup i
  rw [hc] at hci hndi
  obtain ⟨n, hpx, hxn, hcirc⟩ := hci.unlink hndi
  have hother : ∀ j, j ≠ i → x ∉ circles j := fun j hj hxj => hj (hm.disjoint j i x hxj hx)
  have hp : p ∈ circles i := by simp [hc]
  refine ⟨m.unlink p n, by rw [Links.delEntry, hpx.2, hxn.1]; rfl, ?_, ?_, ?_⟩
  · intro j
    by_cases hj : j = i
    · subst hj
      rw [List.append_cons] at hc hndi
      rwa [hc, listDel_split hndi, ← List.append_cons]
    · rw [listDel_of_not_mem (hother j hj)]
      refine circle_congr (hm.circle j) fun y hy z _ hyz => hyz.unlink hxn ?_ ?_
      · rintro rfl
        exact hj (hm.disjoint j i y hy hp)
      · exact fun h => hother j hj (h ▸ hy)
  · exact fun j => (hm.nodup j).filter _
  · intro j k y hj hk
    exact hm.disjoint j k y (List.mem_of_mem_filter hj) (List.mem_of_mem_filter hk)

/-- `list_del` acts on all circles as on lists. -/
theorem Holds.del (hm : m.Holds circles) (hx : x ∈ circles i) (hhead : (circles i).head? ≠ some x) :
    ∃ m', m.del x = some m' ∧ m'.Holds fun j => listDel (circles j) x := by
  obtain ⟨m', hdel, h'⟩ := hm.delEntry hx hhead
  refine ⟨_, by rw [Links.del, hdel]; rfl, ?_⟩
  refine h'.off (fun j => not_mem_listDel _ x) ?_ ?_
  · exact fun y hy => Function.update_of_ne hy _ _
  · exact fun y hy => Function.update_of_ne hy _ _

/-! ## Nodes on their own -/

/-- `INIT_LIST_HEAD` closes a circle of one node. -/
theorem Holds.init [DecidableEq ι] (hm : m.Holds circles) (hx : ∀ j, x ∉ circles j) (k : ι)
    (hk : circles k = []) : (m.init x).Holds (Function.update circles k [x]) := by
  have hoff : (m.init x).Holds circles := by
    refine hm.off hx ?_ ?_
    · exact fun y hy => Function.update_of_ne hy _ _
    · exact fun y hy => Function.update_of_ne hy _ _
  have hadj : (m.init x).Adjacent x x :=
    ⟨Function.update_self x _ _, Function.update_self x _ _⟩
  constructor
  · intro j
    by_cases hj : j = k
    · subst hj
      rw [Function.update_self, circle_of_head rfl]
      exact List.isChain_pair.mpr hadj
    · rw [Function.update_of_ne hj]
      exact hoff.circle j
  · intro j
    by_cases hj : j = k
    · subst hj
      rw [Function.update_self]
      exact List.nodup_singleton x
    · rw [Function.update_of_ne hj]
      exact hm.nodup j
  · intro j l y hyj hyl
    by_cases hj : j = k
    · subst hj
      rw [Function.update_self, List.mem_singleton] at hyj
      subst hyj
      by_contra hl
      rw [Function.update_of_ne (Ne.symm hl)] at hyl
      exact hx l hyl
    · rw [Function.update_of_ne hj] at hyj
      by_cases hl : l = k
      · subst hl
        rw [Function.update_self, List.mem_singleton] at hyl
        subst hyl
        exact absurd hyj (hx j)
      · rw [Function.update_of_ne hl] at hyl
        exact hm.disjoint j l y hyj hyl

/-- `list_del_init` takes a node out of its circle into one of its own. -/
theorem Holds.delInit [DecidableEq ι] (hm : m.Holds circles) (hx : x ∈ circles i)
    (hhead : (circles i).head? ≠ some x) (k : ι) (hk : circles k = []) :
    ∃ m', m.delInit x = some m' ∧
      m'.Holds (Function.update (fun j => listDel (circles j) x) k [x]) := by
  obtain ⟨m', hdel, h'⟩ := hm.delEntry hx hhead
  refine ⟨m'.init x, by rw [Links.delInit, hdel]; rfl, ?_⟩
  refine h'.init (fun j => not_mem_listDel _ x) k ?_
  rw [hk]
  rfl

/-- `list_del_init` on a node on its own changes nothing. -/
theorem Holds.delInit_alone (hm : m.Holds circles) (hx : circles i = [x]) :
    m.delInit x = some m := by
  have hc := hm.circle i
  rw [hx, circle_of_head rfl] at hc
  obtain ⟨hnext, hprev⟩ := List.isChain_pair.mp hc
  rw [Links.delInit, Links.delEntry, hprev, hnext]
  have hn : Function.update m.next x (some x) = m.next := by
    rw [← hnext]
    exact Function.update_eq_self x m.next
  have hp : Function.update m.prev x (some x) = m.prev := by
    rw [← hprev]
    exact Function.update_eq_self x m.prev
  simp only [unlink, Links.init, setNext, setPrev, hn, hp, Option.bind_eq_bind, Option.bind_some,
    Option.pure_def]

/-! ## The ends of a circle -/

theorem Holds.empty (hm : m.Holds circles) {l : List α} (hc : circles i = h :: l) :
    m.empty h = l.isEmpty := by
  cases l with
  | nil =>
    have hcirc := hm.circle i
    rw [hc, circle_of_head rfl] at hcirc
    rw [Links.empty, (List.isChain_pair.mp hcirc).1]
    simp
  | cons x l =>
    have hnd := hm.nodup i
    rw [hc] at hnd
    have hne : x ≠ h := by
      rintro rfl
      exact (List.nodup_cons.mp hnd).1 List.mem_cons_self
    rw [Links.empty, hm.next_head hc]
    simpa using hne

end

end Links

end Fomo.Lib
