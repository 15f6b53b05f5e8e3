import Fomo.Mstar.MstarLogic

/-!
# The phases of m*

A clock beside the run counts the updates since the last new phase. It says when the next
one begins, and that the windows hold the last `T` bits by then, although a change of
state clears them.
-/
namespace Fomo

/-- The updates, one after the other; each is a cache hit bit and a ghost hit bit. -/
def updates (logic : MstarLogic) (us : List (Bool × Bool)) : Exec MstarLogic :=
  us.foldlM (fun logic u => updateMstar logic u.1 u.2) logic

/-- The update number `k` runs `enter_new_phase`. -/
def EntersAt (logic : MstarLogic) (us : List (Bool × Bool)) (k : Nat) : Prop :=
  ∃ u, us[k]? = some u ∧ ∃ l, updates logic (us.take k) = .ok l ∧
    (l.counted u.1 u.2).tabuCounter = 0

/-- The update number `k` changes the state to `next`. -/
def ChangesTo (logic : MstarLogic) (us : List (Bool × Bool)) (k : Nat) (next : MstarStateId) :
    Prop :=
  k < us.length ∧ ∃ l l', updates logic (us.take k) = .ok l ∧
    updates logic (us.take (k + 1)) = .ok l' ∧ l'.state = next ∧ next ≠ l.state

/-- The values in a window, oldest first. -/
def WindowStats.contents (stats : WindowStats) : List Nat :=
  (List.range stats.len).map fun i => stats.values ((stats.start + i) % stats.size)

def bitOf (b : Bool) : Nat := if b then 1 else 0

/-- The window holds exactly the last `T` bits, and their sum is the number of ones. -/
def WindowStats.Samples (stats : WindowStats) (T : Nat) (bits : List Bool) : Prop :=
  T ≤ bits.length ∧ stats.contents = (bits.rtake T).map bitOf ∧
    stats.sum = (bits.rtake T).countP (· = true)

/-- The phases of a run: when `enter_new_phase` runs, how far changes of state are apart,
and what the windows hold when a phase ends. -/
structure PhaseDiscipline (T : Nat) (logic : MstarLogic) (us : List (Bool × Bool)) : Prop where
  answers : ∃ l, updates logic us = .ok l
  first : ∀ k, k < us.length → (∀ i, i < k → ¬EntersAt logic us i) →
    (EntersAt logic us k ↔ k + 1 = 2 * T)
  next : ∀ j k, j < k → k < us.length → EntersAt logic us j →
    (∀ i, j < i → i < k → ¬EntersAt logic us i) →
    (EntersAt logic us k ↔ ((ChangesTo logic us j .unstable → k = j + 2 * T) ∧
      (¬ChangesTo logic us j .unstable → k = j + T)))
  changes : ∀ j k s s', j < k → ChangesTo logic us j s → ChangesTo logic us k s' → T ≤ k - j
  lasts : ∀ j k s, j < k → ChangesTo logic us j .unstable → ChangesTo logic us k s →
    2 * T ≤ k - j
  windows : ∀ k u l, us[k]? = some u → updates logic (us.take k) = .ok l →
    EntersAt logic us k →
    (l.counted u.1 u.2).thisPhase.cacheStats.Samples T ((us.take (k + 1)).map Prod.fst) ∧
    (l.counted u.1 u.2).thisPhase.ghostStats.Samples T ((us.take (k + 1)).map Prod.snd)

variable {logic l l' : MstarLogic} {us : List (Bool × Bool)} {u : Bool × Bool} {T i j k : Nat}

open Lib

/-! ## Prefixes -/

theorem updates_concat (logic : MstarLogic) (us : List (Bool × Bool)) (u : Bool × Bool) :
    updates logic (us ++ [u]) = (updates logic us >>= fun l => updateMstar l u.1 u.2) := by
  rw [updates, List.foldlM_append]
  simp only [List.foldlM_cons, List.foldlM_nil, bind_pure]
  rfl

theorem entersAt_append {v : List (Bool × Bool)} (h : i < us.length) :
    EntersAt logic (us ++ v) i ↔ EntersAt logic us i := by
  unfold EntersAt
  rw [List.getElem?_append_left h, List.take_append_of_le_length (Nat.le_of_lt h)]

theorem changesTo_append {v : List (Bool × Bool)} {s : MstarStateId} (h : i < us.length) :
    ChangesTo logic (us ++ v) i s ↔ ChangesTo logic us i s := by
  unfold ChangesTo
  rw [List.take_append_of_le_length (Nat.le_of_lt h), List.take_append_of_le_length h]
  have h' : i < (us ++ v).length := by
    rw [List.length_append]
    omega
  simp only [h, h', true_and]

theorem changesTo_last {u : Bool × Bool} (hl : updates logic us = .ok l)
    (hl' : updates logic (us ++ [u]) = .ok l') (s : MstarStateId) :
    ChangesTo logic (us ++ [u]) us.length s ↔ l'.state = s ∧ s ≠ l.state := by
  have htake : (us ++ [u]).take (us.length + 1) = us ++ [u] :=
    List.take_of_length_le (by simp)
  unfold ChangesTo
  rw [List.take_left, htake, hl, hl']
  constructor
  · rintro ⟨_, a, b, ha, hb, hs⟩
    obtain rfl := Except.ok.inj ha
    obtain rfl := Except.ok.inj hb
    exact hs
  · intro hs
    exact ⟨by simp, l, l', rfl, rfl, hs⟩

theorem entersAt_take (h : i < k) : EntersAt logic (us.take k) i ↔ EntersAt logic us i := by
  by_cases hlt : i < us.length
  · have hi : i < (us.take k).length := by
      rw [List.length_take]
      omega
    rw [← entersAt_append (v := us.drop k) hi, List.take_append_drop]
  · have h1 : us[i]? = none := List.getElem?_eq_none (by omega)
    have h2 : (us.take k)[i]? = none := List.getElem?_eq_none (by rw [List.length_take]; omega)
    simp [EntersAt, h1, h2]

theorem changesTo_take {s : MstarStateId} (h : i < k) :
    ChangesTo logic (us.take k) i s ↔ ChangesTo logic us i s := by
  by_cases hlt : i < us.length
  · have hi : i < (us.take k).length := by
      rw [List.length_take]
      omega
    rw [← changesTo_append (v := us.drop k) hi, List.take_append_drop]
  · have h2 : ¬i < (us.take k).length := by
      rw [List.length_take]
      omega
    simp only [ChangesTo, hlt, h2, false_and]

theorem EntersAt.lt (h : EntersAt logic us k) : k < us.length := by
  obtain ⟨u, hu, _⟩ := h
  exact (List.getElem?_eq_some_iff.mp hu).1

/-! ## The clock -/

/-- The length of the phase after a change to UNSTABLE, with the wrap of `2 * TABU`; a
counter that is 0 lasts one update. -/
def unstableSpan (T : Nat) : Nat := max 1 (u32 (2 * T))

/-- After the updates `us`: `since` updates of the phase are over, which lasts `span`, and
the windows were cleared `cleared` updates ago. -/
structure Clock (T : Nat) (logic : MstarLogic) (us : List (Bool × Bool)) (l : MstarLogic)
    (since span cleared : Nat) : Prop where
  run : updates logic us = .ok l
  sane : l.Sane T
  counter : max 1 l.tabuCounter = span - since
  since_lt : since < span
  since_le : since ≤ us.length
  quiet : ∀ i, us.length - since ≤ i → i < us.length → ¬EntersAt logic us i
  start : since = us.length → span = unstableSpan T
  last : since < us.length → EntersAt logic us (us.length - since - 1) ∧
    (ChangesTo logic us (us.length - since - 1) .unstable → span = unstableSpan T) ∧
    (¬ChangesTo logic us (us.length - since - 1) .unstable → span = T)
  since_cleared : since ≤ cleared
  cleared_le : cleared ≤ us.length
  cache : l.thisPhase.cacheStats.Holds T
    (((us.map fun u => bitOf u.1)).rtake (min T cleared))
  ghost : l.thisPhase.ghostStats.Holds T
    (((us.map fun u => bitOf u.2)).rtake (min T cleared))

theorem clock_init {c : UInt32} (hT : 0 < c.toNat) (adaptive : Bool) :
    Clock c.toNat (mstarLogicInit adaptive c.toNat) [] (mstarLogicInit adaptive c.toNat) 0
      (unstableSpan c.toNat) 0 := by
  have hcounter : (mstarLogicInit adaptive c.toNat).tabuCounter = u32 (2 * c.toNat) ∧
      (mstarLogicInit adaptive c.toNat).thisPhase = phaseStatsInit c.toNat := by
    cases adaptive
    · exact ⟨rfl, rfl⟩
    · exact ⟨rfl, rfl⟩
  have hspan : 1 ≤ unstableSpan c.toNat := Nat.le_max_left _ _
  refine ⟨rfl, mstarLogicInit_sane adaptive _, ?_, hspan, Nat.le_refl _, fun i _ hi => ?_,
    fun _ => rfl, fun h => ?_, Nat.le_refl _, Nat.le_refl _, ?_, ?_⟩
  · rw [hcounter.1]
    rfl
  · exact absurd hi (Nat.not_lt_zero i)
  · exact absurd h (Nat.not_lt_zero _)
  · rw [hcounter.2, Nat.min_zero]
    exact windowStatsInit_holds hT
  · rw [hcounter.2, Nat.min_zero]
    exact windowStatsInit_holds hT

variable {since span cleared : Nat}

theorem bitOf_le (b : Bool) : bitOf b ≤ 1 := by cases b <;> decide

theorem counted_cache (l : MstarLogic) (c g : Bool) : (l.counted c g).thisPhase.cacheStats =
    windowStatsPush l.thisPhase.cacheStats (bitOf c) := rfl

theorem counted_ghost (l : MstarLogic) (c g : Bool) : (l.counted c g).thisPhase.ghostStats =
    windowStatsPush l.thisPhase.ghostStats (bitOf g) := rfl

/-- A new phase begins when the span is over. -/
theorem Clock.enters_iff (h : Clock T logic us l since span cleared) (c g : Bool) :
    (l.counted c g).tabuCounter = 0 ↔ since + 1 = span := by
  have h1 := h.counter
  have h2 := h.since_lt
  rw [counted_tabuCounter]
  omega

theorem Clock.entersAt_iff (h : Clock T logic us l since span cleared) (u : Bool × Bool) :
    EntersAt logic (us ++ [u]) us.length ↔ since + 1 = span := by
  rw [← h.enters_iff u.1 u.2]
  constructor
  · intro hx
    obtain ⟨v, hv, l', hrun, h0⟩ := hx
    have hu : (us ++ [u])[us.length]? = some u := by simp
    rw [hu] at hv
    obtain rfl := Option.some.inj hv
    rw [List.take_left, h.run] at hrun
    obtain rfl := Except.ok.inj hrun
    exact h0
  · intro h0
    exact ⟨u, by simp, l, by rw [List.take_left, h.run], h0⟩

/-- The windows after the bits of one more update. -/
theorem Clock.pushed (h : Clock T logic us l since span cleared) (hT : 0 < T) (hT32 : T < 2 ^ 32)
    (u : Bool × Bool) :
    (l.counted u.1 u.2).thisPhase.cacheStats.Holds T
      ((((us ++ [u]).map fun u => bitOf u.1)).rtake (min T (cleared + 1))) ∧
    (l.counted u.1 u.2).thisPhase.ghostStats.Holds T
      ((((us ++ [u]).map fun u => bitOf u.2)).rtake (min T (cleared + 1))) := by
  have hle := h.cleared_le
  rw [counted_cache, counted_ghost, List.map_append, List.map_append, List.map_singleton,
    List.map_singleton, ← remember_rtake hT (by rw [List.length_map]; exact hle),
    ← remember_rtake hT (by rw [List.length_map]; exact hle)]
  exact ⟨h.cache.push hT hT32 (bitOf_le _), h.ghost.push hT hT32 (bitOf_le _)⟩

theorem Clock.step (h : Clock T logic us l since span cleared) (hT : 0 < T) (hT32 : T < 2 ^ 32)
    (u : Bool × Bool) :
    ∃ l' since' span' cleared', Clock T logic (us ++ [u]) l' since' span' cleared' := by
  obtain ⟨l', hrun, hsane, hcase⟩ := updateMstar_spec h.sane hT u.1 u.2
  have hrun' : updates logic (us ++ [u]) = .ok l' := by
    rw [updates_concat, h.run]
    exact hrun
  have hlen : (us ++ [u]).length = us.length + 1 := by simp
  have henters := h.entersAt_iff u
  have hold : ∀ i, i < us.length → (EntersAt logic (us ++ [u]) i ↔ EntersAt logic us i) :=
    fun i hi => entersAt_append hi
  have hwin := h.pushed hT hT32 u
  have hle := h.since_le
  have hlt := h.since_lt
  have hcounter := h.counter
  have hsc := h.since_cleared
  have hcl := h.cleared_le
  rcases hcase with ⟨h0, rfl⟩ | ⟨h0, hnew⟩
  · -- the phase goes on
    have hne : since + 1 ≠ span := fun hx => h0 ((h.enters_iff u.1 u.2).mpr hx)
    refine ⟨_, since + 1, span, cleared + 1, hrun', hsane, ?_, by omega, by omega, ?_, ?_, ?_,
      by omega, by omega, hwin.1, hwin.2⟩
    · rw [counted_tabuCounter]
      omega
    · intro i hi hi'
      rw [hlen] at hi hi'
      by_cases heq : i = us.length
      · subst heq
        exact fun hx => hne (henters.mp hx)
      · rw [hold i (by omega)]
        exact h.quiet i (by omega) (by omega)
    · intro hs
      exact h.start (by omega)
    · intro hs
      have hidx : (us ++ [u]).length - (since + 1) - 1 = us.length - since - 1 := by omega
      have hi : us.length - since - 1 < us.length := by omega
      rw [hidx, hold _ hi, changesTo_append hi]
      exact h.last (by omega)
  · -- a new phase begins
    have heq := (h.enters_iff u.1 u.2).mp h0
    have hent : EntersAt logic (us ++ [u]) us.length := henters.mpr heq
    have hch : ChangesTo logic (us ++ [u]) us.length .unstable ↔
        l'.state = .unstable ∧ l'.state ≠ l.state :=
      (changesTo_last h.run hrun' _).trans (and_congr_right fun hs => by rw [hs])
    have hquiet : ∀ i, (us ++ [u]).length - 0 ≤ i → i < (us ++ [u]).length →
        ¬EntersAt logic (us ++ [u]) i := fun i hi hi' => by omega
    have hidx : (us ++ [u]).length - 0 - 1 = us.length := by omega
    cases hnew with
    | stay hs hc hp =>
      refine ⟨l', 0, T, cleared + 1, hrun', hsane, by omega, hT, by omega, hquiet,
        fun hx => by omega, fun _ => ?_, by omega, by omega, ?_, ?_⟩
      · rw [hidx, hch]
        refine ⟨hent, fun hx => ?_, fun _ => rfl⟩
        exact absurd (hs.trans (counted_state _ _ _)) hx.2
      · rw [hp]
        exact hwin.1
      · rw [hp]
        exact hwin.2
    | change hs hc hp =>
      rw [counted_state] at hs
      refine ⟨l', 0, if l'.state = .unstable then unstableSpan T else T, 0, hrun', hsane, ?_, ?_,
        by omega, hquiet, fun hx => by omega, fun _ => ?_, by omega, by omega, ?_, ?_⟩
      · rw [hc]
        split
        · rfl
        · omega
      · split
        · exact Nat.le_max_left _ _
        · exact hT
      · rw [hidx, hch]
        refine ⟨hent, fun hx => if_pos hx.1, fun hx => if_neg fun hu => hx ⟨hu, hs⟩⟩
      · rw [hp, Nat.min_zero, List.rtake_zero]
        exact hwin.1.clear hT
      · rw [hp, Nat.min_zero, List.rtake_zero]
        exact hwin.2.clear hT

/-- Every run has its clock. -/
theorem clock_run {c : UInt32} (hT : 0 < c.toNat) (adaptive : Bool) (us : List (Bool × Bool)) :
    ∃ l since span cleared, Clock c.toNat (mstarLogicInit adaptive c.toNat) us l since span
      cleared := by
  induction us using List.reverseRecOn with
  | nil => exact ⟨_, _, _, _, clock_init hT adaptive⟩
  | append_singleton us u ih =>
    obtain ⟨l, since, span, cleared, h⟩ := ih
    exact h.step hT c.toNat_lt u

/-! ## Spacing -/

variable {c : UInt32} {adaptive : Bool}

theorem length_take_of_lt (h : k < us.length) : (us.take k).length = k := by
  rw [List.length_take]
  omega

/-- The phase the update `k` falls in: it began with the last new phase before `k`. -/
theorem phase_at {a : Bool} (hT : 0 < c.toNat) (hk : k < us.length) :
    ∃ since span, (EntersAt (mstarLogicInit a c.toNat) us k ↔ since + 1 = span) ∧
      since ≤ k ∧
      (∀ i, k - since ≤ i → i < k → ¬EntersAt (mstarLogicInit a c.toNat) us i) ∧
      (since = k → span = unstableSpan c.toNat) ∧
      (since < k → EntersAt (mstarLogicInit a c.toNat) us (k - since - 1) ∧
        (ChangesTo (mstarLogicInit a c.toNat) us (k - since - 1) .unstable →
          span = unstableSpan c.toNat) ∧
        (¬ChangesTo (mstarLogicInit a c.toNat) us (k - since - 1) .unstable →
          span = c.toNat)) := by
  obtain ⟨l, since, span, cleared, h⟩ := clock_run hT a (us.take k)
  have hlen := length_take_of_lt hk
  have hle := h.since_le
  have hstart := h.start
  have hquiet := h.quiet
  have hlast := h.last
  rw [hlen] at hle hstart hquiet hlast
  refine ⟨since, span, ?_, hle, fun i hi hik => ?_, hstart, fun hs => ?_⟩
  · have hent := h.entersAt_iff us[k]
    rw [hlen, List.take_append_getElem hk, entersAt_take (Nat.lt_succ_self k)] at hent
    exact hent
  · rw [← entersAt_take hik]
    exact hquiet i hi hik
  · have hi : k - since - 1 < k := by omega
    rw [← entersAt_take hi, ← changesTo_take hi]
    exact hlast hs

/-- The first phase lasts as long as one after a change to UNSTABLE. -/
theorem first_phase (hT : 0 < c.toNat) (hk : k < us.length)
    (hno : ∀ i, i < k → ¬EntersAt (mstarLogicInit adaptive c.toNat) us i) :
    EntersAt (mstarLogicInit adaptive c.toNat) us k ↔ k + 1 = unstableSpan c.toNat := by
  obtain ⟨since, span, hiff, hle, _, hstart, hlast⟩ := phase_at (a := adaptive) hT hk
  by_cases hs : since < k
  · exact absurd (hlast hs).1 (hno _ (by omega))
  · rw [hiff, hstart (by omega)]
    omega

/-- A phase lasts `T` updates, or as long as the change to UNSTABLE that began it says. -/
theorem next_phase (hT : 0 < c.toNat) (hjk : j < k) (hk : k < us.length)
    (hj : EntersAt (mstarLogicInit adaptive c.toNat) us j)
    (hno : ∀ i, j < i → i < k → ¬EntersAt (mstarLogicInit adaptive c.toNat) us i) :
    ∃ span, (EntersAt (mstarLogicInit adaptive c.toNat) us k ↔ k = j + span) ∧
      (ChangesTo (mstarLogicInit adaptive c.toNat) us j .unstable →
        span = unstableSpan c.toNat) ∧
      (¬ChangesTo (mstarLogicInit adaptive c.toNat) us j .unstable → span = c.toNat) := by
  obtain ⟨since, span, hiff, hle, hquiet, _, hlast⟩ := phase_at (a := adaptive) hT hk
  have hs : since < k := by
    by_contra hs
    exact hquiet j (by omega) hjk hj
  obtain ⟨hent, hu, hn⟩ := hlast hs
  have hj' : k - since - 1 = j := by
    rcases Nat.lt_trichotomy (k - since - 1) j with hlt | heq | hgt
    · exact absurd hj (hquiet j (by omega) hjk)
    · exact heq
    · exact absurd hent (hno _ hgt (by omega))
  rw [hj'] at hu hn
  refine ⟨span, ?_, hu, hn⟩
  rw [hiff]
  omega

/-- New phases are at least as far apart as the first of them says. -/
theorem phases_apart (hT : 0 < c.toNat) (hj : EntersAt (mstarLogicInit adaptive c.toNat) us j)
    (hjk : j < k) (hk : EntersAt (mstarLogicInit adaptive c.toNat) us k) :
    (ChangesTo (mstarLogicInit adaptive c.toNat) us j .unstable →
      unstableSpan c.toNat ≤ k - j) ∧
    (¬ChangesTo (mstarLogicInit adaptive c.toNat) us j .unstable → c.toNat ≤ k - j) := by
  induction k using Nat.strong_induction_on with
  | _ k ih =>
    by_cases hno : ∀ i, j < i → i < k → ¬EntersAt (mstarLogicInit adaptive c.toNat) us i
    · obtain ⟨span, hiff, hu, hn⟩ := next_phase hT hjk hk.lt hj hno
      have heq := hiff.mp hk
      exact ⟨fun hx => by have := hu hx; omega, fun hx => by have := hn hx; omega⟩
    · push Not at hno
      obtain ⟨i, hji, hik, hi⟩ := hno
      obtain ⟨h1, h2⟩ := ih i hik hji hi
      exact ⟨fun hx => by have := h1 hx; omega, fun hx => by have := h2 hx; omega⟩

/-- The state changes only in a new phase. -/
theorem ChangesTo.entersAt (hT : 0 < c.toNat) {s : MstarStateId}
    (h : ChangesTo (mstarLogicInit adaptive c.toNat) us k s) :
    EntersAt (mstarLogicInit adaptive c.toNat) us k := by
  obtain ⟨hk, l, l', hl, hl', hs, hne⟩ := h
  obtain ⟨l1, since, span, cleared, hclock⟩ := clock_run hT adaptive (us.take k)
  obtain rfl := Except.ok.inj (hclock.run.symm.trans hl)
  rw [← List.take_append_getElem hk, updates_concat, hl, ok_bind] at hl'
  obtain ⟨l2, hrun, _, hcase⟩ := updateMstar_spec hclock.sane hT us[k].1 us[k].2
  obtain rfl := Except.ok.inj (hrun.symm.trans hl')
  rcases hcase with ⟨h0, rfl⟩ | ⟨h0, _⟩
  · rw [counted_state] at hs
    exact absurd hs.symm hne
  · exact ⟨us[k], List.getElem?_eq_getElem hk, l1, hl, h0⟩

/-! ## The windows -/

theorem WindowStats.Holds.contents_eq {stats : WindowStats} {bits : List Nat}
    (h : stats.Holds T bits) : stats.contents = bits := by
  apply List.ext_getElem
  · simp only [WindowStats.contents, List.length_map, List.length_range, h.len]
  · intro i h1 h2
    simp only [WindowStats.contents, List.getElem_map, List.getElem_range, h.size_eq]
    exact h.rings.contents i h2

theorem sum_bitOf (bits : List Bool) : (bits.map bitOf).sum = bits.countP (· = true) := by
  induction bits with
  | nil => rfl
  | cons b bits ih =>
    rw [List.map_cons, List.sum_cons, ih, List.countP_cons]
    cases b
    · simp [bitOf]
    · simp [bitOf, Nat.add_comm]

/-- A window of the last `T` bits is a sample. -/
theorem WindowStats.Holds.samples {stats : WindowStats} {bits : List Bool}
    (h : stats.Holds T ((bits.map bitOf).rtake T)) (hT : T ≤ bits.length) :
    stats.Samples T bits := by
  have hmap : (bits.map bitOf).rtake T = (bits.rtake T).map bitOf := by
    simp only [List.rtake, List.length_map, List.map_drop]
  rw [hmap] at h
  exact ⟨hT, h.contents_eq, by rw [h.sum, sum_bitOf]⟩

/-- By the time a phase ends its windows are full. -/
theorem windows_full (hT : 0 < c.toNat) (hspan : c.toNat ≤ unstableSpan c.toNat)
    (hu : us[k]? = some u) (hl : updates (mstarLogicInit adaptive c.toNat) (us.take k) = .ok l)
    (hent : EntersAt (mstarLogicInit adaptive c.toNat) us k) :
    (l.counted u.1 u.2).thisPhase.cacheStats.Samples c.toNat
      ((us.take (k + 1)).map Prod.fst) ∧
    (l.counted u.1 u.2).thisPhase.ghostStats.Samples c.toNat
      ((us.take (k + 1)).map Prod.snd) := by
  obtain ⟨hk, rfl⟩ := List.getElem?_eq_some_iff.mp hu
  obtain ⟨l1, since, span, cleared, h⟩ := clock_run hT adaptive (us.take k)
  obtain rfl := Except.ok.inj (h.run.symm.trans hl)
  have hlen := length_take_of_lt hk
  have hiff := h.entersAt_iff us[k]
  have hstart := h.start
  have hlast := h.last
  have hle := h.since_le
  have hsc := h.since_cleared
  have hcl := h.cleared_le
  have hwin := h.pushed hT c.toNat_lt us[k]
  rw [hlen] at hstart hlast hle hcl
  rw [hlen, List.take_append_getElem hk, entersAt_take (Nat.lt_succ_self k)] at hiff
  rw [List.take_append_getElem hk] at hwin
  have hend := hiff.mp hent
  have hT' : c.toNat ≤ span := by
    by_cases hs : since < k
    · obtain ⟨_, h1, h2⟩ := hlast hs
      by_cases hx : ChangesTo (mstarLogicInit adaptive c.toNat) (us.take k) (k - since - 1)
          .unstable
      · rw [h1 hx]
        exact hspan
      · rw [h2 hx]
    · rw [hstart (by omega)]
      exact hspan
  have hmin : min c.toNat (cleared + 1) = c.toNat := Nat.min_eq_left (by omega)
  rw [hmin] at hwin
  have hbits : ∀ f : Bool × Bool → Bool, (us.take (k + 1)).map (fun u => bitOf (f u)) =
      ((us.take (k + 1)).map f).map bitOf := fun f => by rw [List.map_map]; rfl
  have htake : c.toNat ≤ (us.take (k + 1)).length := by
    rw [List.length_take]
    omega
  rw [hbits Prod.fst, hbits Prod.snd] at hwin
  exact ⟨hwin.1.samples (by rw [List.length_map]; exact htake),
    hwin.2.samples (by rw [List.length_map]; exact htake)⟩

/-! ## The discipline -/

theorem unstableSpan_of_lt (h : 2 * T < 2 ^ 32) (hT : 0 < T) : unstableSpan T = 2 * T := by
  unfold unstableSpan
  rw [u32_of_lt h]
  omega

/-- Before the first phase is over no new phase begins. -/
theorem not_entersAt_of_short (hT : 0 < c.toNat) (hs : us.length < unstableSpan c.toNat)
    (k : Nat) : ¬EntersAt (mstarLogicInit adaptive c.toNat) us k := by
  induction k using Nat.strong_induction_on with
  | _ k ih =>
    intro hk
    have := (first_phase hT hk.lt ih).mp hk
    have := hk.lt
    omega

/-- Before the first phase is over nothing can go wrong. -/
theorem discipline_of_short (hT : 0 < c.toNat) (hs : us.length < unstableSpan c.toNat)
    (hle : unstableSpan c.toNat ≤ 2 * c.toNat) :
    PhaseDiscipline c.toNat (mstarLogicInit adaptive c.toNat) us := by
  have hno := @not_entersAt_of_short us c adaptive hT hs
  obtain ⟨l, _, _, _, h⟩ := clock_run hT adaptive us
  refine ⟨⟨l, h.run⟩, fun k hk _ => ?_, fun j _ _ _ hj => absurd hj (hno j),
    fun j _ _ _ _ hj => absurd (hj.entersAt hT) (hno j),
    fun j _ _ _ hj => absurd (hj.entersAt hT) (hno j), fun k _ _ _ _ hk => absurd hk (hno k)⟩
  exact iff_of_false (hno k) (by omega)

/-- When `2 * TABU` does not wrap every run keeps the discipline. -/
theorem discipline_of_lt (hT : 0 < c.toNat) (h2 : 2 * c.toNat < 2 ^ 32) :
    PhaseDiscipline c.toNat (mstarLogicInit adaptive c.toNat) us := by
  have hspan := unstableSpan_of_lt h2 hT
  obtain ⟨l, _, _, _, h⟩ := clock_run hT adaptive us
  refine ⟨⟨l, h.run⟩, fun k hk hno => ?_, fun j k hjk hk hj hno => ?_,
    fun j k s s' hjk hj hk => ?_, fun j k s hjk hj hk => ?_, fun k u l hu hl hk => ?_⟩
  · rw [first_phase hT hk hno, hspan]
  · obtain ⟨span, hiff, hu, hn⟩ := next_phase hT hjk hk hj hno
    rw [hspan] at hu
    by_cases hx : ChangesTo (mstarLogicInit adaptive c.toNat) us j .unstable
    · rw [hiff, hu hx]
      exact ⟨fun h => ⟨fun _ => h, fun hn => absurd hx hn⟩, fun h => h.1 hx⟩
    · rw [hiff, hn hx]
      exact ⟨fun h => ⟨fun hy => absurd hy hx, fun _ => h⟩, fun h => h.2 hx⟩
  · obtain ⟨hu, hn⟩ := phases_apart hT (hj.entersAt hT) hjk (hk.entersAt hT)
    rw [hspan] at hu
    by_cases hx : ChangesTo (mstarLogicInit adaptive c.toNat) us j .unstable
    · have := hu hx
      omega
    · exact hn hx
  · obtain ⟨hu, _⟩ := phases_apart hT (hj.entersAt hT) hjk (hk.entersAt hT)
    rw [hspan] at hu
    exact hu hj
  · exact windows_full hT (by omega) hu hl hk

/-- When it wraps the first phase ends too early, if the run gets there. -/
theorem not_discipline_of_long (hT : 0 < c.toNat) (h2 : unstableSpan c.toNat < 2 * c.toNat)
    (hlong : unstableSpan c.toNat ≤ us.length) :
    ¬PhaseDiscipline c.toNat (mstarLogicInit adaptive c.toNat) us := by
  intro h
  have hpos : 1 ≤ unstableSpan c.toNat := Nat.le_max_left _ _
  have hno : ∀ i, i < unstableSpan c.toNat - 1 →
      ¬EntersAt (mstarLogicInit adaptive c.toNat) us i := by
    intro i
    induction i using Nat.strong_induction_on with
    | _ i ih =>
      intro hi hent
      have := (first_phase hT hent.lt fun j hj => ih j hj (by omega)).mp hent
      omega
  have hent := (first_phase hT (k := unstableSpan c.toNat - 1) (by omega) hno).mpr (by omega)
  have := (h.first _ (by omega) hno).mp hent
  omega

/-- The phase discipline, over every sequence of updates. -/
theorem mstar_phase_discipline (hT : 1 ≤ c.toNat) (adaptive : Bool) (us : List (Bool × Bool)) :
    PhaseDiscipline c.toNat (mstarLogicInit adaptive c.toNat) us ↔
      2 * c.toNat < 2 ^ 32 ∨ us.length < max 1 (2 * c.toNat - 2 ^ 32) := by
  have hlt := c.toNat_lt
  by_cases h2 : 2 * c.toNat < 2 ^ 32
  · exact iff_of_true (discipline_of_lt hT h2) (Or.inl h2)
  · have hspan : unstableSpan c.toNat = max 1 (2 * c.toNat - 2 ^ 32) := by
      unfold unstableSpan u32
      omega
    constructor
    · intro h
      by_contra hx
      push Not at hx
      exact not_discipline_of_long hT (by omega) (by omega) h
    · intro hx
      exact discipline_of_short hT (by omega) (by omega)

/-- With two slots the first phase ends at the fourth of seven updates, and the second one two
updates later. -/
theorem mstar_phase_discipline_short : ∃ us : List (Bool × Bool), us.length = 7 ∧
    EntersAt (mstarLogicInit true (2 : UInt32).toNat) us 3 ∧
    EntersAt (mstarLogicInit true (2 : UInt32).toNat) us 5 ∧
    PhaseDiscipline (2 : UInt32).toNat (mstarLogicInit true (2 : UInt32).toNat) us := by
  have h := (mstar_phase_discipline (c := 2) (by decide) true (List.replicate 7 (true, false))).mpr
    (Or.inl (by decide))
  refine ⟨_, rfl, ?_, ?_, h⟩
  · exact ⟨(true, false), rfl, _, rfl, rfl⟩
  · exact ⟨(true, false), rfl, _, rfl, rfl⟩

/-- With `2 ^ 31` slots the first update already begins a new phase. -/
theorem mstar_phase_discipline_wrapped : ¬∀ (c : UInt32) (adaptive : Bool)
    (us : List (Bool × Bool)), 1 ≤ c.toNat →
    PhaseDiscipline c.toNat (mstarLogicInit adaptive c.toNat) us := by
  intro hall
  have h := hall 0x80000000 false [(false, false)] (by decide)
  exact not_discipline_of_long (by decide) (by decide) (by decide) h

end Fomo
