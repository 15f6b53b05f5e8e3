import Fomo.Include.Common
import Fomo.Lib.LinkedRing

/-!
# Queues in memory (`tools/queue.h`, `kernel/list.h`)

The queues as rings of `struct list_head`, each with its head in the `struct queue`. An item
names the queue it is in. The calls act on the rings as on lists of items.
-/
namespace Fomo.QueueLinks

open Lib

/-- A `struct list_head` of a queue or of an item. -/
inductive QueueNode (ι α : Type)
  | head (q : ι)
  | item (a : α)
  deriving DecidableEq

/-- The nodes, with the two temporaries of `queue_swap`. -/
abbrev Node (ι α : Type) := SwapNode (QueueNode ι α)

variable {ι α : Type}

def headNode (q : ι) : Node ι α := .item (.head q)

def itemNode (a : α) : Node ι α := .item (.item a)

/-- The queues `ι` and the items `α` in memory. -/
structure QueueMem (ι α : Type) where
  links : Links (Node ι α)
  parentQueue : α → Option ι
  len : ι → Nat

/-- Every queue after `queue_init`, every item after `queue_head_init`. -/
def queuesInit : QueueMem ι α where
  links := { next := some, prev := some }
  parentQueue := fun _ => none
  len := fun _ => 0

def queueLength (m : QueueMem ι α) (q : ι) : Nat := m.len q

/-- `NULL` when the next node of the head is the head itself. -/
def queuePeek (m : QueueMem ι α) (q : ι) : Option α :=
  match m.links.next (headNode q) with
  | some (.item (.item a)) => some a
  | _ => none

section

variable [DecidableEq ι] [DecidableEq α]

def queueEmpty (m : QueueMem ι α) (q : ι) : Bool := m.links.empty (headNode q)

def queuePush (m : QueueMem ι α) (q : ι) (item : α) : Exec (QueueMem ι α) := do
  let links ← deref (m.links.addTail (itemNode item) (headNode q))
  return {
    links := links
    parentQueue := Function.update m.parentQueue item (some q)
    len := Function.update m.len q (u32 (m.len q + 1)) }

def queueRemove (m : QueueMem ι α) (item : α) : Exec (QueueMem ι α) :=
  match m.parentQueue item with
  | none => .ok m
  | some q => do
    let links ← deref (m.links.del (itemNode item))
    return {
      links := links
      parentQueue := Function.update m.parentQueue item none
      len := Function.update m.len q (dec32 (m.len q)) }

def queueSwap (m : QueueMem ι α) (itemOld itemNew : α) : Exec (QueueMem ι α) := do
  let oldQueue := m.parentQueue itemOld
  let newQueue := m.parentQueue itemNew
  -- add temp spot holders
  let links ← deref (m.links.add .oldTmp (itemNode itemOld))
  let links ← deref (links.add .newTmp (itemNode itemNew))
  -- remove originals
  let links ← deref (links.del (itemNode itemOld))
  let links ← deref (links.del (itemNode itemNew))
  -- add them after the opposite temp spot holder
  let links ← deref (links.add (itemNode itemNew) .oldTmp)
  let links ← deref (links.add (itemNode itemOld) .newTmp)
  -- remove temp spot holders
  let links ← deref (links.del .oldTmp)
  let links ← deref (links.del .newTmp)
  return { m with
    links := links
    parentQueue :=
      Function.update (Function.update m.parentQueue itemOld newQueue) itemNew oldQueue }

def queuePop (m : QueueMem ι α) (q : ι) : Exec (QueueMem ι α × Option α) :=
  match queuePeek m q with
  | none => .ok (m, none)
  | some item => do
    let m ← queueRemove m item
    return (m, some item)

end

/-! ## Well-formed queues -/

def queueNodes (q : ι) (l : List α) : List (QueueNode ι α) := .head q :: l.map .item

/-- The ring of a queue, from its head on. -/
def ring (q : ι) (l : List α) : List (Node ι α) := (queueNodes q l).map .item

/-- The queues hold the lists of items. -/
structure QueueMem.Wf (m : QueueMem ι α) (items : ι → List α) : Prop where
  links : m.links.Holds fun q => ring q (items q)
  parent : ∀ a q, a ∈ items q ↔ m.parentQueue a = some q
  len : ∀ q, m.len q = (items q).length
  word : ∀ q, m.len q < 2 ^ 32

variable {m m' : QueueMem ι α} {items : ι → List α} {p q q' : ι} {a b : α} {l : List α}

@[simp] theorem mem_ring_item : itemNode a ∈ ring q l ↔ a ∈ l := by
  simp [itemNode, ring, queueNodes]

@[simp] theorem mem_ring_head : headNode q' ∈ ring q l ↔ q' = q := by
  simp [headNode, ring, queueNodes]

@[simp] theorem oldTmp_not_mem_ring : .oldTmp ∉ ring q l := by simp [ring]

@[simp] theorem newTmp_not_mem_ring : .newTmp ∉ ring q l := by simp [ring]

theorem nodup_ring : (ring q l).Nodup ↔ l.Nodup := by
  have hitem : Function.Injective (QueueNode.item : α → QueueNode ι α) := fun _ _ h => by
    injection h
  have hswap : Function.Injective (SwapNode.item : QueueNode ι α → Node ι α) := fun _ _ h => by
    injection h
  rw [ring, queueNodes, List.nodup_map_iff hswap, List.nodup_cons, List.nodup_map_iff hitem]
  simp

theorem QueueMem.Wf.nodup (h : m.Wf items) (q : ι) : (items q).Nodup :=
  nodup_ring.mp (h.links.nodup q)

theorem head?_ring (q : ι) (l : List α) : (ring q l).head? = some (headNode q) := rfl

theorem queuesInit_wf : (queuesInit : QueueMem ι α).Wf fun _ => [] := by
  refine ⟨⟨fun q => ?_, fun q => ?_, fun q q' x hx hx' => ?_⟩, ?_, fun _ => rfl, ?_⟩
  · rw [Links.circle_of_head rfl]
    exact List.isChain_pair.mpr ⟨rfl, rfl⟩
  · exact nodup_ring.mpr List.nodup_nil
  · obtain rfl := List.mem_singleton.mp hx
    injection List.mem_singleton.mp hx' with h
    injection h
  · simp [queuesInit]
  · simp [queuesInit]

/-! ## Items come and go -/

variable [DecidableEq ι] [DecidableEq α]

theorem listDel_ring (hl : l.Nodup) (q : ι) (a : α) :
    listDel (ring q l) (itemNode a) = ring q (l.erase a) := by
  rw [hl.erase_eq_filter, ring, queueNodes, List.map_cons, List.map_map, ring, queueNodes,
    List.map_cons, List.map_map, listDel, List.filter_cons_of_pos (by simp [itemNode]),
    List.filter_map]
  congr 2
  refine List.filter_congr fun x _ => ?_
  by_cases hx : x = a <;> simp [itemNode, hx]

theorem queuePush_wf (h : m.Wf items) (hni : ∀ q, a ∉ items q)
    (hlen : (items q).length + 1 < 2 ^ 32) : ∃ m', queuePush m q a = .ok m' ∧
      m'.Wf (Function.update items q (items q ++ [a])) := by
  obtain ⟨links, hadd, hlinks⟩ := h.links.addTail (i := q) rfl fun q =>
    mem_ring_item.not.mpr (hni q)
  refine ⟨_, by rw [queuePush]; exact congrArg (· >>= _) (congrArg deref hadd), ?_, ?_, ?_, ?_⟩
  · have hrings : (fun q' => ring q' (Function.update items q (items q ++ [a]) q')) =
        Function.update (fun q => ring q (items q)) q
          (headNode q :: ((items q).map QueueNode.item).map SwapNode.item ++ [itemNode a]) := by
      funext q'
      by_cases hq : q' = q
      · subst hq
        simp [ring, queueNodes, headNode, itemNode]
      · rw [Function.update_of_ne hq, Function.update_of_ne hq]
    rw [hrings]
    exact hlinks
  · intro x q'
    show _ ↔ Function.update m.parentQueue a (some q) x = some q'
    by_cases hx : x = a
    · subst hx
      rw [Function.update_self, Option.some.injEq]
      by_cases hq : q' = q
      · subst hq
        simp
      · simpa [Function.update_of_ne hq, Ne.symm hq] using hni q'
    · rw [Function.update_of_ne hx, ← h.parent]
      by_cases hq : q' = q
      · subst hq
        simp [hx]
      · rw [Function.update_of_ne hq]
  · intro q'
    show Function.update m.len q (u32 (m.len q + 1)) q' = _
    by_cases hq : q' = q
    · subst hq
      rw [Function.update_self, Function.update_self, h.len, u32_of_lt hlen, List.length_append,
        List.length_singleton]
    · rw [Function.update_of_ne hq, Function.update_of_ne hq, h.len]
  · intro q'
    show Function.update m.len q (u32 (m.len q + 1)) q' < _
    by_cases hq : q' = q
    · subst hq
      rw [Function.update_self]
      exact u32_lt _
    · rw [Function.update_of_ne hq]
      exact h.word q'

/-- An item in no queue stays there. -/
theorem queueRemove_wf (h : m.Wf items) (a : α) : ∃ m', queueRemove m a = .ok m' ∧
    m'.Wf (fun q => (items q).erase a) := by
  cases hp : m.parentQueue a with
  | none =>
    refine ⟨m, by rw [queueRemove, hp], ?_⟩
    have hitems : (fun q => (items q).erase a) = items := by
      funext q
      refine List.erase_of_not_mem fun ha => ?_
      rw [(h.parent a q).mp ha] at hp
      cases hp
    rwa [hitems]
  | some q =>
    have ha : a ∈ items q := (h.parent a q).mpr hp
    have hother : ∀ q', q' ≠ q → a ∉ items q' := fun q' hq ha' => by
      rw [(h.parent a q').mp ha'] at hp
      exact hq (Option.some.inj hp)
    obtain ⟨links, hdel, hlinks⟩ := h.links.del (i := q) (mem_ring_item.mpr ha)
      (by rw [head?_ring]; exact fun h => by cases h)
    have hpos := List.length_pos_of_mem ha
    refine ⟨_, by rw [queueRemove, hp]; exact congrArg (· >>= _) (congrArg deref hdel),
      ?_, ?_, ?_, ?_⟩
    · have hrings : (fun q => ring q ((items q).erase a)) =
          fun q => listDel (ring q (items q)) (itemNode a) :=
        funext fun q => (listDel_ring (h.nodup q) q a).symm
      rw [hrings]
      exact hlinks
    · intro x q'
      show _ ↔ Function.update m.parentQueue a none x = some q'
      rw [(h.nodup q').mem_erase_iff, h.parent]
      by_cases hx : x = a
      · subst hx
        simp
      · simp [hx]
    · intro q'
      show Function.update m.len q (dec32 (m.len q)) q' = _
      by_cases hq : q' = q
      · subst hq
        rw [Function.update_self, h.len, List.length_erase_of_mem ha,
          dec32_of_pos hpos (h.len q' ▸ (h.word q').le)]
      · rw [Function.update_of_ne hq, h.len, List.erase_of_not_mem (hother q' hq)]
    · intro q'
      show Function.update m.len q (dec32 (m.len q)) q' < _
      by_cases hq : q' = q
      · subst hq
        rw [Function.update_self]
        exact u32_lt _
      · rw [Function.update_of_ne hq]
        exact h.word q'

theorem queueEmpty_eq (h : m.Wf items) (q : ι) : queueEmpty m q = (items q).isEmpty := by
  rw [queueEmpty, h.links.empty (i := q) (h := headNode q) rfl]
  cases items q <;> rfl

theorem queuePeek_eq (h : m.Wf items) (q : ι) : queuePeek m q = (items q).head? := by
  cases hl : items q with
  | nil =>
    have hempty := h.links.empty (i := q) (h := headNode q) rfl
    rw [hl] at hempty
    have hnext : m.links.next (headNode q) = some (headNode q) := by
      simpa [Links.empty] using hempty
    rw [queuePeek, hnext]
    rfl
  | cons a l =>
    have hnext := h.links.next_head (i := q) (h := headNode q) (x := itemNode a)
      (by rw [hl]; rfl)
    rw [queuePeek, hnext]
    rfl

theorem queuePop_wf (h : m.Wf items) (q : ι) : ∃ m', queuePop m q = .ok (m', (items q).head?) ∧
    m'.Wf (Function.update items q (items q).tail) := by
  cases hl : items q with
  | nil =>
    refine ⟨m, by rw [queuePop, queuePeek_eq h, hl]; rfl, ?_⟩
    rwa [List.tail_nil, ← hl, Function.update_eq_self]
  | cons a l =>
    obtain ⟨m', hrun, h'⟩ := queueRemove_wf h a
    refine ⟨m', by rw [queuePop, queuePeek_eq h, hl, List.head?_cons]; simp [hrun], ?_⟩
    have hitems : Function.update items q (a :: l).tail = fun q => (items q).erase a := by
      funext q'
      by_cases hq : q' = q
      · subst hq
        rw [Function.update_self, hl, List.erase_cons_head, List.tail_cons]
      · rw [Function.update_of_ne hq, List.erase_of_not_mem]
        intro ha
        have hp := (h.parent a q').mp ha
        rw [(h.parent a q).mp (by rw [hl]; exact List.mem_cons_self)] at hp
        exact hq (Option.some.inj hp).symm
    rwa [hitems]

/-! ## The exchange -/

theorem swap_queueNodes (q : ι) (l : List α) (a b : α) :
    (queueNodes q l).map (Equiv.swap (.item a) (.item b)) =
      queueNodes q (l.map (Equiv.swap a b)) := by
  have hitem : ∀ x, Equiv.swap (QueueNode.item a) (.item b) (QueueNode.item x : QueueNode ι α) =
      .item (Equiv.swap a b x) := by
    intro x
    rw [Equiv.swap_apply_def, Equiv.swap_apply_def]
    simp only [QueueNode.item.injEq]
    split_ifs <;> rfl
  rw [queueNodes, List.map_cons, Equiv.swap_apply_of_ne_of_ne (by simp) (by simp), List.map_map,
    queueNodes, List.map_map]
  congr 1
  exact List.map_congr_left fun x _ => hitem x

theorem listSwap_queueNodes (hne : a ≠ b) (q : ι) (l : List α) :
    listSwap (queueNodes q l) (.item a) (.item b) = ring q (l.map (Equiv.swap a b)) := by
  rw [listSwap_eq fun h => hne (by injection h), swap_queueNodes, ring]

/-- The steps of the source never meet a bad pointer, whether the items are neighbours in
either order, lie apart or in two queues. -/
theorem queueSwap_links (h : m.links.Holds fun q => ring q (items q)) (hne : a ≠ b)
    (ha : a ∈ items q) (hb : b ∈ items p) : ∃ links, queueSwap m a b = .ok { m with
        links := links
        parentQueue := Function.update (Function.update m.parentQueue a (m.parentQueue b)) b
          (m.parentQueue a) } ∧
      links.Holds fun q => ring q ((items q).map (Equiv.swap a b)) := by
  have hab : (itemNode a : Node ι α) ≠ itemNode b := fun h => hne (by
    injection h with h
    injection h)
  have hitem : ∀ q : ι, ∀ x : α, headNode q ≠ (itemNode x : Node ι α) := fun q x h => by
    injection h with h
    injection h
  have hold : ∀ x : α, (itemNode x : Node ι α) ≠ .oldTmp := fun x h => by injection h
  have hnew : ∀ x : α, (itemNode x : Node ι α) ≠ .newTmp := fun x h => by injection h
  obtain ⟨l₁, e₁, h₁⟩ := h.add (mem_ring_item.mpr ha) fun q => oldTmp_not_mem_ring (q := q)
  obtain ⟨l₂, e₂, h₂⟩ := h₁.add (i := p) (x := itemNode b) (a := .newTmp)
    (by simp [hb]) (by simp)
  have hh₂ : ∀ q, (listAdd (listAdd (ring q (items q)) .oldTmp (itemNode a)) .newTmp
      (itemNode b)).head? = some (headNode q) := by
    intro q
    rw [head?_listAdd, head?_listAdd, head?_ring]
  obtain ⟨l₃, e₃, h₃⟩ := h₂.del (i := q) (x := itemNode a) (by simp [ha])
    (by rw [hh₂]; simpa using hitem q a)
  have hh₃ := fun q => head?_listDel (hh₂ q) (hitem q a)
  obtain ⟨l₄, e₄, h₄⟩ := h₃.del (i := p) (x := itemNode b) (by simp [hb, Ne.symm hab])
    (by rw [hh₃]; simpa using hitem p b)
  have hh₄ := fun q => head?_listDel (hh₃ q) (hitem q b)
  obtain ⟨l₅, e₅, h₅⟩ := h₄.add (i := q) (x := .oldTmp) (a := itemNode b)
    (by simp [ha, Ne.symm (hold a), Ne.symm (hold b)]) (by simp)
  obtain ⟨l₆, e₆, h₆⟩ := h₅.add (i := p) (x := .newTmp) (a := itemNode a)
    (by simp [hb, Ne.symm (hnew a), Ne.symm (hnew b)]) (by simp [hab])
  have hh₆ : ∀ q, (listAdd (listAdd (listDel (listDel (listAdd (listAdd (ring q (items q)) .oldTmp
      (itemNode a)) .newTmp (itemNode b)) (itemNode a)) (itemNode b)) (itemNode b) .oldTmp)
      (itemNode a) .newTmp).head? = some (headNode q) := by
    intro q
    rw [head?_listAdd, head?_listAdd, hh₄]
  obtain ⟨l₇, e₇, h₇⟩ := h₆.del (i := q) (x := .oldTmp)
    (by simp [ha, Ne.symm (hold a), Ne.symm (hold b)]) (by rw [hh₆]; exact fun h => by cases h)
  have hh₇ := fun q => head?_listDel (x := .oldTmp) (hh₆ q) fun h => by cases h
  obtain ⟨l₈, e₈, h₈⟩ := h₇.del (i := p) (x := .newTmp)
    (by simp [hb, Ne.symm (hnew a), Ne.symm (hnew b)]) (by rw [hh₇]; exact fun h => by cases h)
  refine ⟨l₈, ?_, ?_⟩
  · simp only [queueSwap, e₁, e₂, e₃, e₄, e₅, e₆, e₇, e₈, deref_some, ok_bind, pure_eq_ok]
  · have hswap : (fun q => ring q ((items q).map (Equiv.swap a b))) =
        fun q => listSwap (queueNodes q (items q)) (.item a) (.item b) :=
      funext fun q => (listSwap_queueNodes hne q (items q)).symm
    rw [hswap]
    exact h₈

/-- `queue_swap` exchanges the places of two items: each queue reads as before with the two
names exchanged, whatever the places. -/
theorem queueSwap_wf (h : m.Wf items) (hne : a ≠ b) (ha : a ∈ items q) (hb : b ∈ items p) :
    ∃ m', queueSwap m a b = .ok m' ∧ m'.Wf (fun q => (items q).map (Equiv.swap a b)) ∧
      m'.parentQueue a = some p ∧ m'.parentQueue b = some q ∧
      (∀ c, c ≠ a → c ≠ b → m'.parentQueue c = m.parentQueue c) ∧ m'.len = m.len := by
  obtain ⟨links, hrun, hlinks⟩ := queueSwap_links h.links hne ha hb
  have hpa := (h.parent a q).mp ha
  have hpb := (h.parent b p).mp hb
  -- every item names the queue its partner named
  have hparent : ∀ c, Function.update (Function.update m.parentQueue a (m.parentQueue b)) b
      (m.parentQueue a) c = m.parentQueue (Equiv.swap a b c) := by
    intro c
    rw [Equiv.swap_apply_def, Function.update_apply, Function.update_apply]
    split_ifs with hcb hca hca
    · exact absurd (hca.symm.trans hcb) hne
    · rfl
    · rfl
    · rfl
  refine ⟨_, hrun, ⟨hlinks, ?_, ?_, h.word⟩, ?_, ?_, ?_, rfl⟩
  · intro c r
    refine Iff.trans ?_ (Eq.congr_left (hparent c).symm)
    rw [← h.parent, List.mem_map_of_involutive (Equiv.swap_apply_self a b)]
  · intro r
    rw [List.length_map]
    exact h.len r
  · rw [← hpb]
    exact (hparent a).trans (by rw [Equiv.swap_apply_left])
  · rw [← hpa]
    exact (hparent b).trans (by rw [Equiv.swap_apply_right])
  · intro c hca hcb
    exact (hparent c).trans (by rw [Equiv.swap_apply_of_ne_of_ne hca hcb])

/-- Two neighbours of one queue, the later one named first. -/
theorem queueSwap_neighbours : ∃ m m' : QueueMem Bool Nat, m.Wf (fun q => cond q [0, 1] [2]) ∧
    queueSwap m 1 0 = .ok m' ∧ m'.Wf (fun q => cond q [1, 0] [2]) := by
  obtain ⟨m₁, _, h₁⟩ := queuePush_wf (q := true) (a := 0) queuesInit_wf (by simp) (by decide)
  obtain ⟨m₂, _, h₂⟩ := queuePush_wf (q := true) (a := 1) h₁
    (by intro q; cases q <;> decide) (by decide)
  obtain ⟨m₃, _, h₃⟩ := queuePush_wf (q := false) (a := 2) h₂
    (by intro q; cases q <;> decide) (by decide)
  obtain ⟨m', hrun, h', _⟩ := queueSwap_wf (a := 1) (b := 0) (q := true) (p := true) h₃
    (by decide) (by decide) (by decide)
  refine ⟨m₃, m', ?_, hrun, ?_⟩
  · convert h₃ using 2 with q
    cases q <;> rfl
  · convert h' using 2 with q
    cases q <;> decide

end Fomo.QueueLinks
