import Fomo.Lib.Arc
import Fomo.Lib.DoubleList

/-!
# The directory of ARC

Read as `B1 ++ T1` and `B2 ++ T2`, the four lists of ARC are a directory of two lists. The target
and REPLACE move the boundary between a list and its ghosts; they never change the directory.
-/
namespace Fomo.Lib

namespace Arc

variable {α : Type*} [DecidableEq α] {c : Nat} {a : Arc α} {x : α} {xs : List α}

def directory (a : Arc α) : DoubleList α := { l1 := a.b1 ++ a.t1, l2 := a.b2 ++ a.t2 }

def cached (a : Arc α) : Nat := a.t1.length + a.t2.length

/-- The sizes that ARC keeps: the cache is full before there are ghosts. -/
structure Balanced (c : Nat) (xs : List α) (a : Arc α) : Prop where
  recalls : a.directory.Recalls c xs
  cached_le : a.cached ≤ c
  full : a.b1 ≠ [] ∨ a.b2 ≠ [] → a.cached = c
  p_le : a.p ≤ c

omit [DecidableEq α] in
theorem cons_tail_eq (l : List α) : l.head?.toList ++ l.tail = l := by
  cases l with
  | nil => rfl
  | cons y l => rfl

theorem directory_replace (a : Arc α) (x : α) : (a.replace x).1.directory = a.directory := by
  unfold replace directory
  split
  · simp only [List.append_assoc, cons_tail_eq]
  · simp only [List.append_assoc, cons_tail_eq]

theorem p_replace (a : Arc α) (x : α) : (a.replace x).1.p = a.p := by
  unfold replace
  split
  · rfl
  · rfl

/-- REPLACE takes a page out of a full cache when `T1` is not all of it, or is longer than its
target. -/
theorem cached_replace (h : a.cached = c) (hc : 0 < c)
    (ht : a.t1.length < c ∨ a.p < a.t1.length ∨ (x ∈ a.b2 ∧ a.t1.length = a.p)) :
    (a.replace x).1.cached + 1 = c := by
  unfold cached at h
  unfold replace cached
  split
  · next hx =>
    have hpos := List.length_pos_iff.mpr hx.1
    dsimp only
    rw [List.length_tail]
    omega
  · next hx =>
    have hpos : 0 < a.t2.length := by
      by_contra h0
      refine hx ⟨List.length_pos_iff.mp (by omega), ht.resolve_left (by omega)⟩
    dsimp only
    rw [List.length_tail]
    omega

theorem mem_replace_b1 (h : x ∈ a.b1) : x ∈ (a.replace x).1.b1 := by
  unfold replace
  split
  · exact List.mem_append_left _ h
  · exact h

theorem mem_replace_b2 (h : x ∈ a.b2) : x ∈ (a.replace x).1.b2 := by
  unfold replace
  split
  · exact h
  · exact List.mem_append_left _ h

theorem Balanced.nil (c : Nat) : Balanced c [] ({} : Arc α) :=
  ⟨DoubleList.Recalls.nil c, Nat.zero_le _, fun h => by simp at h, Nat.zero_le _⟩

/-- A request does to the directory what it does to a directory of two lists. -/
structure Directs (c : Nat) (d : DoubleList α) (a' : Arc α) (x : α) : Prop where
  directory : a'.directory = d.request c x
  cached_le : a'.cached ≤ c
  full : a'.b1 ≠ [] ∨ a'.b2 ≠ [] → a'.cached = c
  p_le : a'.p ≤ c

theorem Balanced.after {a' : Arc α} (h : a.Balanced c xs) (hc : 0 < c)
    (hd : Directs c a.directory a' x) : a'.Balanced c (xs ++ [x]) :=
  ⟨hd.directory ▸ h.recalls.request x hc, hd.cached_le, hd.full, hd.p_le⟩

/-- The members of the lists, each in one list only. -/
theorem Balanced.mem_directory (h : a.Balanced c xs) :
    (x ∈ a.b1 → x ∉ a.t1) ∧ (x ∈ a.b2 → x ∉ a.t2) ∧
    ((x ∈ a.b1 ∨ x ∈ a.t1) → x ∉ a.b2 ∧ x ∉ a.t2) := by
  have h1 := List.nodup_append.mp h.recalls.nodup_l1
  have h2 := List.nodup_append.mp h.recalls.nodup_l2
  refine ⟨fun hb ht => h1.2.2 x hb x ht rfl, fun hb ht => h2.2.2 x hb x ht rfl, fun hx => ?_⟩
  have hno := h.recalls.disjoint x (List.mem_append.mpr hx)
  exact ⟨fun hb => hno (List.mem_append_left _ hb), fun ht => hno (List.mem_append_right _ ht)⟩

theorem Balanced.hit (h : a.Balanced c xs) (hx : x ∈ a.t1 ∨ x ∈ a.t2) :
    Directs c a.directory { a with t1 := a.t1.erase x, t2 := a.t2.erase x ++ [x] } x := by
  obtain ⟨hb1, hb2, hno⟩ := h.mem_directory (x := x)
  have hle := h.cached_le
  have hfull := h.full
  unfold cached at hle hfull
  by_cases h1 : x ∈ a.t1
  · obtain ⟨-, hn2⟩ := hno (Or.inr h1)
    have hlen := List.length_erase_of_mem h1
    have hpos := List.length_pos_of_mem h1
    have hsame : (a.t1.erase x).length + (a.t2 ++ [x]).length = a.t1.length + a.t2.length := by
      rw [List.length_append, List.length_singleton]
      omega
    rw [List.erase_of_not_mem hn2]
    refine ⟨?_, hsame.trans_le hle, fun hg => hsame.trans (hfull hg), h.p_le⟩
    have hmem : x ∈ a.directory.l1 := List.mem_append_right _ h1
    rw [DoubleList.request, if_pos hmem, directory, directory,
      List.erase_append_right _ fun hb => hb1 hb h1, List.append_assoc]
  · have h2 := hx.resolve_left h1
    have hnb2 : x ∉ a.b2 := fun hb => hb2 hb h2
    have hn1 : x ∉ a.directory.l1 := fun hm => (hno (List.mem_append.mp hm)).2 h2
    have hmem : x ∈ a.directory.l2 := List.mem_append_right _ h2
    have hlen := List.length_erase_of_mem h2
    have hpos := List.length_pos_of_mem h2
    have hsame : a.t1.length + (a.t2.erase x ++ [x]).length = a.t1.length + a.t2.length := by
      rw [List.length_append, List.length_singleton]
      omega
    rw [List.erase_of_not_mem h1]
    refine ⟨?_, hsame.trans_le hle, fun hg => hsame.trans (hfull hg), h.p_le⟩
    rw [DoubleList.request, if_neg hn1, if_pos hmem, directory, directory,
      List.erase_append_right _ hnb2, List.append_assoc]

/-- What REPLACE leaves to be done. -/
structure Replaced (c : Nat) (a a' : Arc α) (x : α) : Prop where
  directory : a'.directory = a.directory
  p : a'.p = a.p
  cached : a'.cached + 1 = c
  b1 : x ∈ a.b1 → x ∈ a'.b1
  b2 : x ∈ a.b2 → x ∈ a'.b2

theorem replaced {a' : Arc α} {v : Option α} (hr : a.replace x = (a', v)) (h : a.cached = c)
    (hc : 0 < c) (ht : a.t1.length < c ∨ a.p < a.t1.length ∨ (x ∈ a.b2 ∧ a.t1.length = a.p)) :
    Replaced c a a' x := by
  have hdir := directory_replace a x
  have hp := p_replace a x
  have hcached := cached_replace h hc ht
  have hb1 := fun hb => mem_replace_b1 (a := a) (x := x) hb
  have hb2 := fun hb => mem_replace_b2 (a := a) (x := x) hb
  rw [hr] at hdir hp hcached hb1 hb2
  exact ⟨hdir, hp, hcached, hb1, hb2⟩

section Miss

variable {a' : Arc α}

/-- A ghost of `B1` comes back. -/
theorem Replaced.enter_b1 (hr : Replaced c a a' x) (hx : x ∈ a.b1) (hp : a.p ≤ c) :
    Directs c a.directory { a' with b1 := a'.b1.erase x, t2 := a'.t2 ++ [x] } x := by
  have hcached : a'.t1.length + (a'.t2 ++ [x]).length = c := by
    have h := hr.cached
    unfold Arc.cached at h
    rw [List.length_append, List.length_singleton]
    omega
  refine ⟨?_, hcached.le, fun _ => hcached, hr.p.trans_le hp⟩
  rw [← hr.directory]
  have hmem : x ∈ a'.directory.l1 := List.mem_append_left _ (hr.b1 hx)
  rw [DoubleList.request, if_pos hmem, Arc.directory, Arc.directory,
    List.erase_append_left _ (hr.b1 hx), List.append_assoc]

/-- A ghost of `B2` comes back. -/
theorem Replaced.enter_b2 (hr : Replaced c a a' x) (hx : x ∈ a.b2) (hn : x ∉ a.directory.l1)
    (hp : a.p ≤ c) :
    Directs c a.directory { a' with b2 := a'.b2.erase x, t2 := a'.t2 ++ [x] } x := by
  have hcached : a'.t1.length + (a'.t2 ++ [x]).length = c := by
    have h := hr.cached
    unfold Arc.cached at h
    rw [List.length_append, List.length_singleton]
    omega
  refine ⟨?_, hcached.le, fun _ => hcached, hr.p.trans_le hp⟩
  rw [← hr.directory] at hn ⊢
  have hmem : x ∈ a'.directory.l2 := List.mem_append_left _ (hr.b2 hx)
  rw [DoubleList.request, if_neg hn, if_pos hmem, Arc.directory, Arc.directory,
    ← List.append_assoc, List.erase_append_left _ (hr.b2 hx)]

/-- A new page comes in after REPLACE. -/
theorem Replaced.enter (hr : Replaced c a a' x) (hp : a.p ≤ c) {d : DoubleList α}
    (hd : d.request c x = { a.directory with l1 := a.directory.l1 ++ [x] }) :
    Directs c d { a' with t1 := a'.t1 ++ [x] } x := by
  have hcached : (a'.t1 ++ [x]).length + a'.t2.length = c := by
    have h := hr.cached
    unfold Arc.cached at h
    rw [List.length_append, List.length_singleton]
    omega
  refine ⟨?_, hcached.le, fun _ => hcached, hr.p.trans_le hp⟩
  rw [hd, ← hr.directory]
  simp only [Arc.directory, List.append_assoc]

theorem Balanced.miss (h : a.Balanced c xs) (hc : 0 < c) (ht1 : x ∉ a.t1) (ht2 : x ∉ a.t2) :
    Directs c a.directory (a.miss c x).1 x := by
  obtain ⟨-, -, hno⟩ := h.mem_directory (x := x)
  have hl1 := h.recalls.l1_le
  have hlen := h.recalls.length_le
  have hle := h.cached_le
  have hp := h.p_le
  have hfull : ∀ {y : α} {l : List α}, y ∈ l → l = a.b1 ∨ l = a.b2 → a.cached = c := by
    rintro y l hy (rfl | rfl)
    · exact h.full (Or.inl (List.ne_nil_of_mem hy))
    · exact h.full (Or.inr (List.ne_nil_of_mem hy))
  unfold directory at hl1 hlen
  rw [List.length_append] at hl1
  rw [List.length_append, List.length_append] at hlen
  by_cases h1 : x ∈ a.b1
  · have hpos := List.length_pos_of_mem h1
    cases hr : replace { a with p := min (a.p + delta a.b1.length a.b2.length) c } x with
    | mk a' v =>
      rw [miss_b1 h1 hr]
      have hroom : a.t1.length < c := by omega
      exact (replaced hr (hfull h1 (Or.inl rfl)) hc (Or.inl hroom)).enter_b1 h1
        (Nat.min_le_right _ _)
  by_cases h2 : x ∈ a.b2
  · have hn : x ∉ a.b1 ++ a.t1 := fun hm => (List.mem_append.mp hm).elim h1 ht1
    cases hr : replace { a with p := a.p - delta a.b2.length a.b1.length } x with
    | mk a' v =>
      have hcached := hfull h2 (Or.inr rfl)
      have hlt : a.t1.length < c ∨ a.p - delta a.b2.length a.b1.length < a.t1.length ∨
          (x ∈ a.b2 ∧ a.t1.length = a.p - delta a.b2.length a.b1.length) := by
        unfold cached at hcached
        by_cases hlt : a.t1.length < c
        · exact Or.inl hlt
        · by_cases heq : a.t1.length = a.p - delta a.b2.length a.b1.length
          · exact Or.inr (Or.inr ⟨h2, heq⟩)
          · exact Or.inr (Or.inl (by omega))
      rw [miss_b2 h1 h2 hr]
      exact (replaced hr hcached hc hlt).enter_b2 h2 hn ((Nat.sub_le _ _).trans hp)
  -- the page is in no list
  have hn1 : x ∉ a.directory.l1 := fun hm => (List.mem_append.mp hm).elim h1 ht1
  have hn2 : x ∉ a.directory.l2 := fun hm => (List.mem_append.mp hm).elim h2 ht2
  have hl1len : a.directory.l1.length = a.b1.length + a.t1.length := List.length_append
  have hl2len : a.directory.l2.length = a.b2.length + a.t2.length := List.length_append
  have hghosts : ∀ {l : List α}, 0 < l.length → l = a.b1 ∨ l = a.b2 → a.cached = c := by
    intro l hpos hl
    obtain ⟨y, hy⟩ := List.exists_mem_of_length_pos hpos
    exact hfull hy hl
  by_cases hl : a.t1.length + a.b1.length = c
  · have hreq : a.directory.request c x =
        { a.directory with l1 := a.directory.l1.tail ++ [x] } := by
      rw [DoubleList.request, if_neg hn1, if_neg hn2, if_pos (by omega)]
    by_cases ht : a.t1.length < c
    · have hne : a.b1 ≠ [] := List.length_pos_iff.mp (by omega)
      cases hr : replace { a with b1 := a.b1.tail } x with
      | mk a' v =>
        rw [miss_full_b1 h1 h2 hl ht hr]
        refine (replaced hr (hghosts (by omega) (Or.inl rfl)) hc (Or.inl ht)).enter hp ?_
        rw [hreq, directory, List.tail_append_of_ne_nil hne]
        rfl
    · have hb1 : a.b1 = [] := List.length_eq_zero_iff.mp (by omega)
      have ht2 : a.t2.length = 0 := by
        unfold cached at hle
        omega
      rw [miss_full_t1 h1 h2 hl (by omega)]
      have hcached : (a.t1.tail ++ [x]).length + a.t2.length = c := by
        rw [List.length_append, List.length_tail, List.length_singleton]
        omega
      refine ⟨?_, hcached.le, fun _ => hcached, hp⟩
      rw [hreq, directory, directory, hb1]
      rfl
  · have hnl : a.directory.l1.length ≠ c := by omega
    by_cases hroom : c ≤ a.t1.length + a.t2.length + a.b1.length + a.b2.length
    · have hcached : a.cached = c := by
        by_cases hg : 0 < a.b1.length + a.b2.length
        · by_cases hb : 0 < a.b1.length
          · exact hghosts hb (Or.inl rfl)
          · exact hghosts (l := a.b2) (by omega) (Or.inr rfl)
        · unfold cached at hle ⊢
          omega
      have hcachedlen := hcached
      unfold cached at hcachedlen
      by_cases hall : a.t1.length + a.t2.length + a.b1.length + a.b2.length = 2 * c
      · have hne : a.b2 ≠ [] := List.length_pos_iff.mp (by omega)
        cases hr : replace { a with b2 := a.b2.tail } x with
        | mk a' v =>
          rw [miss_full_b2 h1 h2 hl hroom hall hr]
          refine (replaced hr hcached hc (Or.inl (show a.t1.length < c by omega))).enter hp ?_
          rw [DoubleList.request, if_neg hn1, if_neg hn2, if_neg hnl, if_pos (by omega)]
          rw [directory, List.tail_append_of_ne_nil hne]
          rfl
      · cases hr : replace a x with
        | mk a' v =>
          rw [miss_replace h1 h2 hl hroom hall hr]
          refine (replaced hr hcached hc (Or.inl (by omega))).enter hp ?_
          rw [DoubleList.request, if_neg hn1, if_neg hn2, if_neg hnl, if_neg (by omega)]
    · rw [miss_room h1 h2 hl (by omega)]
      have hone : (a.t1 ++ [x]).length + a.t2.length = a.t1.length + a.t2.length + 1 := by
        rw [List.length_append, List.length_singleton]
        omega
      refine ⟨?_, hone.trans_le (by omega), fun hg => ?_, hp⟩
      · rw [DoubleList.request, if_neg hn1, if_neg hn2, if_neg hnl, if_neg (by omega)]
        simp only [directory, List.append_assoc]
      · have hcached := h.full hg
        unfold cached at hcached
        omega

theorem Balanced.request (h : a.Balanced c xs) (hc : 0 < c) (x : α) :
    Directs c a.directory (a.request c x).1 x := by
  unfold Arc.request
  split
  · next hx => exact h.hit hx
  · next hx => exact h.miss hc (fun h1 => hx (Or.inl h1)) fun h2 => hx (Or.inr h2)

/-- Over any requests the directory is that of the two lists. -/
theorem Balanced.requests (h : a.Balanced c xs) (hc : 0 < c) (ys : List α) :
    (a.requests c ys).1.directory = a.directory.requests c ys ∧
      (a.requests c ys).1.Balanced c (xs ++ ys) := by
  induction ys generalizing a xs with
  | nil =>
    rw [List.append_nil]
    exact ⟨rfl, h⟩
  | cons y ys ih =>
    have hd := h.request hc y
    obtain ⟨hdir, hb⟩ := ih (h.after hc hd)
    rw [hd.directory] at hdir
    rw [List.append_assoc] at hb
    exact ⟨hdir, hb⟩

end Miss

end Arc

end Fomo.Lib
