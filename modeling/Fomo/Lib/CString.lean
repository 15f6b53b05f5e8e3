import Mathlib.Data.List.Basic

/-!
# C strings in memory

A memory is a list of byte arrays, the last one allocated last. A string ends at the first zero
byte. The functions of the string library are `none` where they would leave an array.
-/
namespace Fomo.Lib

abbrev ByteMem := List (List UInt8)

/-- A pointer into an array. -/
structure BytePtr where
  block : Nat
  offset : Nat
  deriving DecidableEq, Repr

/-- `p + n` -/
def BytePtr.add (p : BytePtr) (n : Nat) : BytePtr := { p with offset := p.offset + n }

/-- The bytes of a string literal, without the zero. -/
def literal (s : String) : List UInt8 := s.toList.map fun c => UInt8.ofNat c.toNat

def strlenBytes : List UInt8 → Option Nat
  | [] => none
  | c :: l => if c = 0 then some 0 else (strlenBytes l).map (· + 1)

def strcmpBytes : List UInt8 → List UInt8 → Option Int
  | a :: s, b :: t =>
    if a ≠ b then some ((a.toNat : Int) - b.toNat)
    else if a = 0 then some 0
    else strcmpBytes s t
  | _, _ => none

namespace ByteMem

/-- A new array of zeros. -/
def alloc (m : ByteMem) (size : Nat) : BytePtr × ByteMem :=
  (⟨m.length, 0⟩, m ++ [List.replicate size 0])

/-- The bytes from the pointer to the end of its array. -/
def bytesAt (m : ByteMem) (p : BytePtr) : List UInt8 := (m[p.block]?.getD []).drop p.offset

/-- `*p` -/
def load (m : ByteMem) (p : BytePtr) : Option UInt8 := (m.bytesAt p).head?

/-- `*p = c` -/
def store (m : ByteMem) (p : BytePtr) (c : UInt8) : Option ByteMem :=
  if m.bytesAt p = [] then none else some (m.modify p.block (·.set p.offset c))

def strlen (m : ByteMem) (p : BytePtr) : Option Nat := strlenBytes (m.bytesAt p)

def strcmp (m : ByteMem) (p q : BytePtr) : Option Int := strcmpBytes (m.bytesAt p) (m.bytesAt q)

/-- The bytes are stored one by one, the zero last. -/
def strcpyBytes (m : ByteMem) (dst : BytePtr) : List UInt8 → Option ByteMem
  | [] => none
  | c :: l => do
    let m ← m.store dst c
    if c = 0 then return m else m.strcpyBytes (dst.add 1) l

/-- The arrays do not overlap. -/
def strcpy (m : ByteMem) (dst src : BytePtr) : Option ByteMem :=
  m.strcpyBytes dst (m.bytesAt src)

/-- The string `s` starts at the pointer. -/
def StringAt (m : ByteMem) (p : BytePtr) (s : List UInt8) : Prop :=
  0 ∉ s ∧ ∃ t, m.bytesAt p = s ++ 0 :: t

end ByteMem

/-! ## Strings -/

variable {s t x y : List UInt8} {c : UInt8} {m : ByteMem} {p q : BytePtr}

theorem strlenBytes_eq (hs : 0 ∉ s) : strlenBytes (s ++ 0 :: x) = some s.length := by
  induction s with
  | nil => rfl
  | cons c s ih =>
    rw [List.mem_cons, not_or] at hs
    rw [List.cons_append, strlenBytes, if_neg (Ne.symm hs.1), ih hs.2]
    rfl

theorem byte_sub_ne_zero {a b : UInt8} (h : a ≠ b) : ((a.toNat : Int) - b.toNat) ≠ 0 := by
  intro heq
  have hab : (a.toNat : Int) = b.toNat := by omega
  exact h (UInt8.toNat_inj.mp (Int.ofNat.inj hab))

theorem strcmpBytes_eq (hs : 0 ∉ s) (ht : 0 ∉ t) :
    ∃ r, strcmpBytes (s ++ 0 :: x) (t ++ 0 :: y) = some r ∧ (r = 0 ↔ s = t) := by
  induction s generalizing t with
  | nil =>
    cases t with
    | nil => exact ⟨0, rfl, iff_of_true rfl rfl⟩
    | cons b t =>
      rw [List.mem_cons, not_or] at ht
      exact ⟨_, if_pos ht.1, iff_of_false (byte_sub_ne_zero ht.1) (List.cons_ne_nil b t).symm⟩
  | cons a s ih =>
    rw [List.mem_cons, not_or] at hs
    cases t with
    | nil =>
      have ha := Ne.symm hs.1
      exact ⟨_, if_pos ha, iff_of_false (byte_sub_ne_zero ha) (List.cons_ne_nil a s)⟩
    | cons b t =>
      rw [List.mem_cons, not_or] at ht
      by_cases hab : a = b
      · subst hab
        obtain ⟨r, hr, hiff⟩ := ih hs.2 ht.2
        refine ⟨r, ?_, hiff.trans (by rw [List.cons_inj_right])⟩
        rw [List.cons_append, List.cons_append, strcmpBytes, if_neg (not_not.mpr rfl),
          if_neg (Ne.symm hs.1), hr]
      · refine ⟨_, if_pos hab, iff_of_false (byte_sub_ne_zero hab) ?_⟩
        intro heq
        exact hab (List.cons.inj heq).1

namespace ByteMem

theorem StringAt.strlen (h : m.StringAt p s) : m.strlen p = some s.length := by
  obtain ⟨hs, x, hx⟩ := h
  rw [ByteMem.strlen, hx, strlenBytes_eq hs]

theorem StringAt.strcmp (h : m.StringAt p s) (h' : m.StringAt q t) :
    ∃ r, m.strcmp p q = some r ∧ (r = 0 ↔ s = t) := by
  obtain ⟨hs, x, hx⟩ := h
  obtain ⟨ht, y, hy⟩ := h'
  rw [ByteMem.strcmp, hx, hy]
  exact strcmpBytes_eq hs ht

/-! ## What a new array does not change -/

theorem bytesAt_append (hp : m.bytesAt p ≠ []) (l : ByteMem) :
    ByteMem.bytesAt (m ++ l) p = m.bytesAt p := by
  have hlt : p.block < m.length := by
    by_contra hge
    apply hp
    rw [bytesAt, List.getElem?_eq_none (Nat.not_lt.mp hge), Option.getD_none, List.drop_nil]
  rw [bytesAt, bytesAt, List.getElem?_append_left hlt]

theorem StringAt.append (h : m.StringAt p s) (l : ByteMem) :
    ByteMem.StringAt (m ++ l) p s := by
  obtain ⟨hs, x, hx⟩ := h
  have hne : m.bytesAt p ≠ [] := by
    rw [hx]
    exact List.append_ne_nil_of_right_ne_nil s (List.cons_ne_nil 0 x)
  exact ⟨hs, x, (bytesAt_append hne l).trans hx⟩

/-! ## The last array -/

theorem bytesAt_last (m : ByteMem) (l l' : List UInt8) :
    ByteMem.bytesAt (m ++ [l ++ l']) ⟨m.length, l.length⟩ = l' := by
  simp [bytesAt]

/-- A string in an array of its own. -/
theorem stringAt_last (m : ByteMem) (hs : 0 ∉ s) :
    ByteMem.StringAt (m ++ [s ++ [0]]) ⟨m.length, 0⟩ s := ⟨hs, [], bytesAt_last m [] (s ++ [0])⟩

theorem load_last (m : ByteMem) (l l' : List UInt8) (c : UInt8) :
    ByteMem.load (m ++ [l ++ c :: l']) ⟨m.length, l.length⟩ = some c := by
  rw [load, bytesAt_last, List.head?_cons]

theorem modify_last {α : Type*} (m : List α) (a : α) (f : α → α) :
    (m ++ [a]).modify m.length f = m ++ [f a] := by
  induction m with
  | nil => rfl
  | cons b m ih => rw [List.cons_append, List.length_cons, List.modify_succ_cons, ih]; rfl

theorem store_last (m : ByteMem) (l l' : List UInt8) (b c : UInt8) :
    ByteMem.store (m ++ [l ++ b :: l']) ⟨m.length, l.length⟩ c = some (m ++ [l ++ c :: l']) := by
  rw [store, bytesAt_last, if_neg (List.cons_ne_nil b l')]
  simp [modify_last]

theorem store_last_end (m : ByteMem) (l : List UInt8) (c : UInt8) :
    ByteMem.store (m ++ [l]) ⟨m.length, l.length⟩ c = none := by
  have hend : ByteMem.bytesAt (m ++ [l]) ⟨m.length, l.length⟩ = [] := by
    simpa using bytesAt_last m l []
  rw [store, if_pos hend]

theorem add_one_last (b : Nat) (l : List UInt8) (c : UInt8) :
    (⟨b, l.length⟩ : BytePtr).add 1 = ⟨b, (l ++ [c]).length⟩ := by
  rw [List.length_append]
  rfl

/-- A string that fits is copied with its zero. -/
theorem strcpyBytes_last (m : ByteMem) (l l' x : List UInt8) (hs : 0 ∉ s)
    (hfit : s.length < l'.length) :
    ByteMem.strcpyBytes (m ++ [l ++ l']) ⟨m.length, l.length⟩ (s ++ 0 :: x) =
      some (m ++ [l ++ (s ++ 0 :: l'.drop (s.length + 1))]) := by
  induction s generalizing l l' with
  | nil =>
    cases l' with
    | nil => cases hfit
    | cons b l' =>
      rw [List.nil_append, strcpyBytes, store_last]
      rfl
  | cons c s ih =>
    rw [List.mem_cons, not_or] at hs
    cases l' with
    | nil => cases hfit
    | cons b l' =>
      have hrest := ih (l ++ [c]) l' hs.2 (Nat.lt_of_succ_lt_succ hfit)
      rw [List.append_assoc, List.append_assoc] at hrest
      rw [List.cons_append, strcpyBytes, store_last, add_one_last _ _ c]
      simpa [Ne.symm hs.1] using hrest

/-- A string that does not fit is written past the end. -/
theorem strcpyBytes_last_none (m : ByteMem) (l l' x : List UInt8) (hs : 0 ∉ s)
    (hlong : l'.length ≤ s.length) :
    ByteMem.strcpyBytes (m ++ [l ++ l']) ⟨m.length, l.length⟩ (s ++ 0 :: x) = none := by
  induction s generalizing l l' with
  | nil =>
    obtain rfl := List.length_eq_zero_iff.mp (Nat.le_zero.mp hlong)
    rw [List.append_nil, List.nil_append, strcpyBytes, store_last_end]
    rfl
  | cons c s ih =>
    rw [List.mem_cons, not_or] at hs
    cases l' with
    | nil =>
      rw [List.append_nil, List.cons_append, strcpyBytes, store_last_end]
      rfl
    | cons b l' =>
      have hrest := ih (l ++ [c]) l' hs.2 (Nat.le_of_succ_le_succ hlong)
      rw [List.append_assoc] at hrest
      rw [List.cons_append, strcpyBytes, store_last, add_one_last _ _ c]
      simpa [Ne.symm hs.1] using hrest

end ByteMem

end Fomo.Lib
