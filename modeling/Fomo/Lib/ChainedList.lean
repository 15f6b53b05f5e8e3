import Mathlib.Data.List.Nodup
import Mathlib.Logic.Function.Basic

/-!
# Chains with back pointers

A chain hangs from a head. Every node points to the next one and back to the pointer that
points to it, so that it can be unlinked without its head. Several chains live in one memory.
-/
namespace Fomo.Lib

universe u

variable {α β : Type u}

/-- The address of a pointer: that of a head or of a node. -/
inductive ChainRef (β α : Type u)
  | first (b : β)
  | next (a : α)
  deriving DecidableEq

open ChainRef

/-- `next` and `pprev` are `none` where they must not be followed. -/
structure Chains (β α : Type u) where
  first : β → Option α
  next : α → Option (Option α)
  pprev : α → Option (ChainRef β α)

namespace Chains

/-- `*r` -/
def read (m : Chains β α) : ChainRef β α → Option (Option α)
  | .first b => some (m.first b)
  | .next a => m.next a

section

variable [DecidableEq α]

/-- `a->pprev = r`, for a node that is there. -/
def setPprev (m : Chains β α) (a : Option α) (r : ChainRef β α) : Chains β α :=
  match a with
  | none => m
  | some a => { m with pprev := Function.update m.pprev a (some r) }

variable [DecidableEq β]

/-- `*r = a` -/
def write (m : Chains β α) (a : Option α) : ChainRef β α → Chains β α
  | .first b => { m with first := Function.update m.first b a }
  | .next x => { m with next := Function.update m.next x (some a) }

/-- `hlist_del` leaves poison in the pointers of the node. -/
def del (m : Chains β α) (n : α) : Option (Chains β α) := do
  let next ← m.next n
  let pprev ← m.pprev n
  let m := (m.write next pprev).setPprev next pprev
  return { m with next := Function.update m.next n none, pprev := Function.update m.pprev n none }

/-- `hlist_add_head` -/
def addHead (m : Chains β α) (n : α) (h : β) : Chains β α :=
  let first := m.first h
  let m := (m.write first (.next n)).setPprev first (.next n)
  (m.write (some n) (.first h)).setPprev (some n) (.first h)

end

/-! ## The chains in memory -/

/-- The pointer at `r` starts the chain of the nodes `l`. -/
def Chain (m : Chains β α) : ChainRef β α → List α → Prop
  | r, [] => m.read r = some none
  | r, a :: l => m.read r = some (some a) ∧ m.pprev a = some r ∧ m.Chain (.next a) l

/-- The memory holds disjoint chains. -/
structure Holds (m : Chains β α) (chains : β → List α) : Prop where
  chain : ∀ b, m.Chain (.first b) (chains b)
  nodup : ∀ b, (chains b).Nodup
  disjoint : ∀ b c x, x ∈ chains b → x ∈ chains c → b = c

variable {m m' : Chains β α} {r : ChainRef β α} {a n x : α} {b : β} {l : List α}
  {chains : β → List α}

theorem Chain.read (h : m.Chain r l) : m.read r = some l.head? := by
  cases l with
  | nil => exact h
  | cons a l => exact h.1

theorem Chain.next {t : List α} (h : m.Chain r (l ++ n :: t)) : m.next n = some t.head? := by
  induction l generalizing r with
  | nil => exact h.2.2.read
  | cons a l ih => exact ih h.2.2

/-- A chain stands while its start and its nodes are left alone. -/
theorem Chain.congr (h : m.Chain r l) (hr : m'.read r = m.read r)
    (hnext : ∀ a ∈ l, m'.next a = m.next a) (hpprev : ∀ a ∈ l, m'.pprev a = m.pprev a) :
    m'.Chain r l := by
  induction l generalizing r with
  | nil => exact hr.trans h
  | cons a l ih =>
    obtain ⟨hread, hback, htail⟩ := h
    refine ⟨hr.trans hread, (hpprev a List.mem_cons_self).trans hback, ih htail ?_ ?_ ?_⟩
    · exact hnext a List.mem_cons_self
    · exact fun x hx => hnext x (List.mem_cons_of_mem a hx)
    · exact fun x hx => hpprev x (List.mem_cons_of_mem a hx)

/-- What follows a pointer is a chain with another pointer to it, once its first node
points back there. -/
theorem Chain.moved {s : ChainRef β α} (h : m.Chain r l) (hs : m'.read s = m.read r)
    (hnext : ∀ a ∈ l, m'.next a = m.next a)
    (hhead : ∀ a, l.head? = some a → m'.pprev a = some s)
    (hpprev : ∀ a ∈ l.tail, m'.pprev a = m.pprev a) : m'.Chain s l := by
  cases l with
  | nil => exact hs.trans h
  | cons a l =>
    obtain ⟨hread, _, htail⟩ := h
    refine ⟨hs.trans hread, hhead a rfl, htail.congr ?_ ?_ hpprev⟩
    · exact hnext a List.mem_cons_self
    · exact fun x hx => hnext x (List.mem_cons_of_mem a hx)

/-- `m'` is `m` with the pointer `p` to `n` moved on to the nodes `t`. -/
structure Unlinked (m m' : Chains β α) (n : α) (p : ChainRef β α) (t : List α) : Prop where
  at_ref : m'.read p = some t.head?
  read : ∀ s, s ≠ p → s ≠ .next n → m'.read s = m.read s
  at_head : ∀ x, t.head? = some x → m'.pprev x = some p
  pprev : ∀ x, x ≠ n → t.head? ≠ some x → m'.pprev x = m.pprev x

/-- The pointer to a node of a chain lies in the chain before it. -/
theorem Chain.unlink {t : List α} (h : m.Chain r (l ++ n :: t)) (hnd : (l ++ n :: t).Nodup)
    (hr : ∀ x ∈ l ++ n :: t, r ≠ .next x) :
    ∃ p, m.pprev n = some p ∧ m.next n = some t.head? ∧ (p = r ∨ ∃ x ∈ l, p = .next x) ∧
      ∀ m', m.Unlinked m' n p t → m'.Chain r (l ++ t) := by
  induction l generalizing r with
  | nil =>
    obtain ⟨_, hback, htail⟩ := h
    refine ⟨r, hback, htail.read, Or.inl rfl, fun m' hm' => ?_⟩
    have hnt : n ∉ t := (List.nodup_cons.mp hnd).1
    refine htail.moved ?_ ?_ hm'.at_head ?_
    · rw [hm'.at_ref]
      exact htail.read.symm
    · intro x hx
      refine hm'.read (.next x) (hr x (List.mem_cons_of_mem n hx)).symm ?_
      rintro ⟨⟩
      exact hnt hx
    · intro x hx
      refine hm'.pprev x (fun h => hnt (h ▸ List.mem_of_mem_tail hx)) fun hh => ?_
      obtain ⟨t', rfl⟩ := List.head?_eq_some_iff.mp hh
      exact (List.nodup_cons.mp (List.nodup_cons.mp hnd).2).1 hx
  | cons a l ih =>
    obtain ⟨hread, hback, htail⟩ := h
    obtain ⟨ha, hnd⟩ := List.nodup_cons.mp hnd
    obtain ⟨p, hp, hnext, hin, hall⟩ := ih htail hnd fun x hx => by
      rintro ⟨⟩
      exact ha hx
    have hpx : ∃ x ∈ a :: l, p = .next x := by
      rcases hin with rfl | ⟨x, hx, rfl⟩
      · exact ⟨a, List.mem_cons_self, rfl⟩
      · exact ⟨x, List.mem_cons_of_mem a hx, rfl⟩
    refine ⟨p, hp, hnext, Or.inr hpx, fun m' hm' => ⟨?_, ?_, hall m' hm'⟩⟩
    · obtain ⟨x, hx, rfl⟩ := hpx
      have hx' : x ∈ (a :: l) ++ n :: t := List.mem_append_left _ hx
      rw [hm'.read r (hr x hx') (hr n (by simp)), hread]
    · rw [hm'.pprev a (fun h => ha (by simp [h])) fun h => ha ?_, hback]
      exact List.mem_append_right l (List.mem_cons_of_mem n (List.mem_of_mem_head? h))

section

variable [DecidableEq α]

@[simp] theorem setPprev_first (m : Chains β α) (a : Option α) (r : ChainRef β α) :
    (m.setPprev a r).first = m.first := by
  cases a <;> rfl

@[simp] theorem setPprev_next (m : Chains β α) (a : Option α) (r : ChainRef β α) :
    (m.setPprev a r).next = m.next := by
  cases a <;> rfl

theorem setPprev_pprev (m : Chains β α) (a : Option α) (r : ChainRef β α) (x : α) :
    (m.setPprev a r).pprev x = if a = some x then some r else m.pprev x := by
  cases a with
  | none => simp [setPprev]
  | some a => simp [setPprev, Function.update_apply, eq_comm]

theorem setPprev_read (m : Chains β α) (a : Option α) (r s : ChainRef β α) :
    (m.setPprev a r).read s = m.read s := by
  cases a <;> cases s <;> rfl

variable [DecidableEq β]

@[simp] theorem write_first_next (m : Chains β α) (a : Option α) (b : β) :
    (m.write a (.first b)).next = m.next := rfl

@[simp] theorem write_next_first (m : Chains β α) (a : Option α) (x : α) :
    (m.write a (.next x)).first = m.first := rfl

@[simp] theorem write_pprev (m : Chains β α) (a : Option α) (r : ChainRef β α) :
    (m.write a r).pprev = m.pprev := by
  cases r <;> rfl

theorem write_read (m : Chains β α) (a : Option α) (r s : ChainRef β α) :
    (m.write a r).read s = if s = r then some a else m.read s := by
  cases r <;> cases s <;> simp [write, read, Function.update_apply]
  split <;> rfl

/-! ## A new first node -/

theorem addHead_first (m : Chains β α) (n : α) (h b : β) :
    (m.addHead n h).first b = if b = h then some n else m.first b := by
  simp [addHead, write, Function.update_apply]

theorem addHead_next (m : Chains β α) (n : α) (h : β) (x : α) :
    (m.addHead n h).next x = if x = n then some (m.first h) else m.next x := by
  simp [addHead, write, Function.update_apply]

theorem addHead_pprev (m : Chains β α) (n : α) (h : β) (x : α) : (m.addHead n h).pprev x =
    if x = n then some (.first h)
    else if m.first h = some x then some (.next n) else m.pprev x := by
  simp only [addHead, setPprev_pprev, write_pprev, Option.some.injEq, eq_comm]

/-- `hlist_add_head` puts a new node in front of one chain. -/
theorem Holds.addHead (hm : m.Holds chains) (hn : ∀ b, n ∉ chains b) (h : β) :
    (m.addHead n h).Holds (Function.update chains h (n :: chains h)) := by
  have hfirst : m.first h = (chains h).head? := Option.some.inj (hm.chain h).read
  have hne : ∀ b, ∀ x ∈ chains b, x ≠ n := fun b x hx heq => hn b (heq ▸ hx)
  constructor
  · intro b
    by_cases hb : b = h
    · subst hb
      rw [Function.update_self]
      refine ⟨?_, ?_, ?_⟩
      · rw [Chains.read, addHead_first, if_pos rfl]
      · rw [addHead_pprev, if_pos rfl]
      · refine (hm.chain b).moved ?_ ?_ ?_ ?_
        · show (m.addHead n b).next n = some (m.first b)
          rw [addHead_next, if_pos rfl]
        · intro x hx
          rw [addHead_next, if_neg (hne b x hx)]
        · intro x hx
          rw [addHead_pprev, if_neg (hne b x (List.mem_of_mem_head? hx)), hfirst, if_pos hx]
        · intro x hx
          rw [addHead_pprev, if_neg (hne b x (List.mem_of_mem_tail hx)), hfirst, if_neg]
          intro hhead
          obtain ⟨t, ht⟩ := List.head?_eq_some_iff.mp hhead
          have hnd := hm.nodup b
          rw [ht] at hx hnd
          exact (List.nodup_cons.mp hnd).1 hx
    · rw [Function.update_of_ne hb]
      refine (hm.chain b).congr ?_ ?_ ?_
      · rw [Chains.read, Chains.read, addHead_first, if_neg hb]
      · intro x hx
        rw [addHead_next, if_neg (hne b x hx)]
      · intro x hx
        rw [addHead_pprev, if_neg (hne b x hx), if_neg]
        rw [hfirst]
        exact fun hh => hb (hm.disjoint b h x hx (List.mem_of_mem_head? hh))
  · intro b
    by_cases hb : b = h
    · subst hb
      rw [Function.update_self]
      exact List.nodup_cons.mpr ⟨hn b, hm.nodup b⟩
    · rw [Function.update_of_ne hb]
      exact hm.nodup b
  · have hmem : ∀ b x, x ∈ Function.update chains h (n :: chains h) b →
        x ∈ chains b ∨ x = n ∧ b = h := by
      intro b x hx
      by_cases hb : b = h
      · subst hb
        rw [Function.update_self] at hx
        rcases List.mem_cons.mp hx with rfl | hx
        · exact Or.inr ⟨rfl, rfl⟩
        · exact Or.inl hx
      · rw [Function.update_of_ne hb] at hx
        exact Or.inl hx
    intro b c x hb hc
    rcases hmem b x hb with hxb | ⟨rfl, rfl⟩
    · rcases hmem c x hc with hxc | ⟨rfl, _⟩
      · exact hm.disjoint b c x hxb hxc
      · exact absurd hxb (hn b)
    · rcases hmem c x hc with hxc | ⟨_, rfl⟩
      · exact absurd hxc (hn c)
      · rfl

/-! ## A node unlinked by itself -/

theorem del_eq {t : List α} {p : ChainRef β α} (hnext : m.next n = some t.head?)
    (hpprev : m.pprev n = some p) (ht : n ∉ t) (hp : p ≠ .next n) :
    ∃ m', m.del n = some m' ∧ m.Unlinked m' n p t := by
  refine ⟨_, by rw [del, hnext, hpprev]; rfl, ?_, ?_, ?_, ?_⟩
  · cases p with
    | first b => simp [Chains.read, write]
    | next y =>
      have hy : y ≠ n := fun h => hp (h ▸ rfl)
      simp [Chains.read, write, hy]
  · intro s hsp hsn
    cases s with
    | first b =>
      show ((m.write t.head? p).setPprev t.head? p).read (.first b) = _
      rw [setPprev_read, write_read, if_neg hsp]
    | next y =>
      have hy : y ≠ n := fun h => hsn (h ▸ rfl)
      refine (Function.update_of_ne hy _ _).trans ?_
      show ((m.write t.head? p).setPprev t.head? p).read (.next y) = _
      rw [setPprev_read, write_read, if_neg hsp]
  · intro x hx
    have hxn : x ≠ n := fun h => ht (h ▸ List.mem_of_mem_head? hx)
    refine (Function.update_of_ne hxn _ _).trans ?_
    rw [setPprev_pprev, if_pos hx]
  · intro x hxn hx
    refine (Function.update_of_ne hxn _ _).trans ?_
    rw [setPprev_pprev, if_neg hx, write_pprev]

/-- `hlist_del` takes a node out of its chain. -/
theorem Holds.del (hm : m.Holds chains) (hn : n ∈ chains b) :
    ∃ m', m.del n = some m' ∧ m'.Holds fun c => (chains c).erase n := by
  obtain ⟨l, t, hl⟩ := List.append_of_mem hn
  have hnd := hm.nodup b
  have hchain := hm.chain b
  rw [hl] at hnd hchain
  obtain ⟨p, hp, hnext, hin, hall⟩ := hchain.unlink hnd fun x _ => by rintro ⟨⟩
  obtain ⟨_, h₂, hd⟩ := List.nodup_append.mp hnd
  have hnl : n ∉ l := fun h => hd n h n List.mem_cons_self rfl
  have hpn : p ≠ .next n := by
    rcases hin with rfl | ⟨x, hx, rfl⟩
    · rintro ⟨⟩
    · rintro ⟨⟩
      exact hnl hx
  obtain ⟨m', hdel, hm'⟩ := del_eq hnext hp (List.nodup_cons.mp h₂).1 hpn
  have hother : ∀ c, c ≠ b → ∀ x ∈ chains c, x ∉ chains b := fun c hc x hx hxb =>
    hc (hm.disjoint c b x hx hxb)
  refine ⟨m', hdel, ?_, fun c => (hm.nodup c).erase n, ?_⟩
  · intro c
    by_cases hc : c = b
    · subst hc
      have herase : (chains c).erase n = l ++ t := by
        rw [hl, List.erase_append_right _ hnl, List.erase_cons_head]
      rw [herase]
      exact hall m' hm'
    · have hni : n ∉ chains c := fun h => hother c hc n h hn
      rw [List.erase_of_not_mem hni]
      have href : ∀ x ∈ chains c, ChainRef.next x ≠ p := by
        rintro x hx rfl
        rcases hin with h | ⟨y, hy, h⟩
        · cases h
        · cases h
          exact hother c hc x hx (by simp [hl, hy])
      refine (hm.chain c).congr ?_ ?_ ?_
      · refine hm'.read _ ?_ (by rintro ⟨⟩)
        rintro rfl
        rcases hin with h | ⟨y, _, h⟩
        · cases h
          exact hc rfl
        · cases h
      · intro x hx
        refine hm'.read (.next x) (href x hx) ?_
        rintro ⟨⟩
        exact hni hx
      · intro x hx
        refine hm'.pprev x (fun h => hni (h ▸ hx)) fun hh => ?_
        refine hother c hc x hx ?_
        rw [hl]
        exact List.mem_append_right l (List.mem_cons_of_mem n (List.mem_of_mem_head? hh))
  · exact fun c d x hc hd => hm.disjoint c d x (List.mem_of_mem_erase hc) (List.mem_of_mem_erase hd)

end

end Chains

end Fomo.Lib
