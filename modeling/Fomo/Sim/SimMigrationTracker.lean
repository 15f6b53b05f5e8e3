import Fomo.Include.Epool

/-!
# The migration tracker (`sim/sim_migration_tracker.h`)

The simulator keeps an operation for every migration under way, in the order in which they
complete. Each operation waits until the access its delay ends at.
-/
namespace Fomo

/-- `struct migration_tracker`. The operations are entries of the pool, and `migratedTime` is
their field of that name. -/
structure MigrationTracker where
  ht : List Nat
  entryPool : EntryPool
  q : List Nat
  migratedTime : Nat → Nat
  delay : Nat

/-- `hash_lookup` in the table of the tracker. -/
def trackerLookup (tracker : MigrationTracker) (oblock : Oblock) : Option Nat :=
  tracker.ht.find? fun i => decide ((tracker.entryPool.entries i).oblock = oblock)

def migrationRemove (tracker : MigrationTracker) (oblock : Oblock) : Exec MigrationTracker :=
  match trackerLookup tracker oblock with
  | none => .ok tracker
  | some op => do
    let pool ← freeEntry tracker.entryPool op
    return { tracker with
      migratedTime := Function.update tracker.migratedTime op 0
      q := tracker.q.erase op
      ht := tracker.ht.erase op
      entryPool := pool }

def migrationAdd (tracker : MigrationTracker) (currentTime : Nat) (oblock : Oblock) :
    Exec MigrationTracker :=
  match trackerLookup tracker oblock with
  | some _ => .ok tracker
  | none => do
    let (pool, op) ← deref (allocEntry tracker.entryPool)
    return { tracker with
      entryPool := pool.set op { pool.entries op with oblock := oblock }
      ht := op :: tracker.ht
      migratedTime := Function.update tracker.migratedTime op (u32 (currentTime + tracker.delay))
      q := tracker.q ++ [op] }

/-- The block whose migration completes now, if there is one. -/
def migrationNext (tracker : MigrationTracker) (currentTime : Nat) :
    Exec (MigrationTracker × Option Oblock) :=
  match tracker.q.head? with
  | none => .ok (tracker, none)
  | some next =>
    if tracker.migratedTime next = currentTime then do
      let oblock := (tracker.entryPool.entries next).oblock
      let tracker ← migrationRemove tracker oblock
      return (tracker, some oblock)
    else .ok (tracker, none)

/-- The allocations are taken to succeed. -/
def migrationTrackerInit (delay : Nat) : Exec MigrationTracker := do
  let pool ← epoolInit (epoolCreate {} (u32 (2 * delay))) 0
  return { ht := [], entryPool := pool, q := [], migratedTime := fun _ => 0, delay := delay }

namespace MigrationTracker

variable {t t' : MigrationTracker} {o m : Oblock} {i j n time : Nat} {rest : Nat → Nat}

/-- There is an operation for `o`. -/
def Tracks (t : MigrationTracker) (o : Oblock) : Prop :=
  ∃ i ∈ t.q, (t.entryPool.entries i).oblock = o

/-- The table, the queue and the pool hold the same operations, for different blocks. -/
structure Wf (t : MigrationTracker) : Prop where
  pool : t.entryPool.Wf
  ht_nodup : t.ht.Nodup
  mem_ht : ∀ i, i ∈ t.ht ↔ (t.entryPool.entries i).allocated = true
  q_nodup : t.q.Nodup
  mem_q : ∀ i, i ∈ t.q ↔ (t.entryPool.entries i).allocated = true
  inj : ∀ i j, i ∈ t.q → j ∈ t.q →
    (t.entryPool.entries i).oblock = (t.entryPool.entries j).oblock → i = j

/-- At `time`, the operation `i` waits for `rest i` accesses, and for fewer than `n`. -/
structure Due (t : MigrationTracker) (time n : Nat) (rest : Nat → Nat) : Prop where
  time : ∀ i ∈ t.q, t.migratedTime i = u32 (time + rest i)
  lt : ∀ i ∈ t.q, rest i < n
  sorted : t.q.Pairwise fun i j => rest i < rest j

theorem Wf.lookup_eq_some (h : t.Wf) :
    trackerLookup t o = some i ↔ i ∈ t.q ∧ (t.entryPool.entries i).oblock = o := by
  constructor
  · intro hl
    have hmem := (h.mem_ht i).mp (List.mem_of_find?_eq_some hl)
    exact ⟨(h.mem_q i).mpr hmem, by simpa using List.find?_some hl⟩
  · rintro ⟨hi, ho⟩
    have hmem := (h.mem_ht i).mpr ((h.mem_q i).mp hi)
    cases hl : trackerLookup t o with
    | none =>
      have hn := List.find?_eq_none.mp hl i hmem
      simp [ho] at hn
    | some j =>
      have hj := (h.mem_q j).mpr ((h.mem_ht j).mp (List.mem_of_find?_eq_some hl))
      have ho' : (t.entryPool.entries j).oblock = o := by simpa using List.find?_some hl
      rw [h.inj j i hj hi (ho'.trans ho.symm)]

theorem Wf.lookup_eq_none (h : t.Wf) : trackerLookup t o = none ↔ ¬t.Tracks o := by
  constructor
  · rintro hl ⟨i, hi, ho⟩
    rw [h.lookup_eq_some.mpr ⟨hi, ho⟩] at hl
    cases hl
  · intro hno
    cases hl : trackerLookup t o with
    | none => rfl
    | some i => exact absurd ⟨i, h.lookup_eq_some.mp hl⟩ hno

/-- The operations of `t'` are those of `t` without the one for `o`. -/
structure Dropped (t : MigrationTracker) (o : Oblock) (t' : MigrationTracker) : Prop where
  wf : t'.Wf
  tracks : ∀ a, t'.Tracks a ↔ a ≠ o ∧ t.Tracks a
  delay : t'.delay = t.delay
  nrEntries : t'.entryPool.nrEntries = t.entryPool.nrEntries
  sublist : t'.q.Sublist t.q
  times : ∀ i ∈ t'.q, t'.migratedTime i = t.migratedTime i
  other : ∀ i ∈ t'.q, (t.entryPool.entries i).oblock ≠ o

theorem migrationRemove_spec (h : t.Wf) (o : Oblock) :
    ∃ t', migrationRemove t o = .ok t' ∧ t.Dropped o t' := by
  unfold migrationRemove
  cases hl : trackerLookup t o with
  | none =>
    have hno := h.lookup_eq_none.mp hl
    refine ⟨t, rfl, h, fun a => ⟨fun ha => ⟨?_, ha⟩, fun ha => ha.2⟩, rfl, rfl,
      List.Sublist.refl _, fun _ _ => rfl, fun i hi hia => hno ⟨i, hi, hia⟩⟩
    rintro rfl
    exact hno ha
  | some op =>
    obtain ⟨hop, ho⟩ := h.lookup_eq_some.mp hl
    obtain ⟨pool, hfree, hwf, hentries, _, hnr, _⟩ := h.pool.freeEntry ((h.mem_q op).mp hop)
    have hother : ∀ i, i ≠ op → pool.entries i = t.entryPool.entries i := fun i hi => by
      rw [hentries, Function.update_of_ne hi]
    have hself : (pool.entries op).allocated = false := by
      rw [hentries, Function.update_self]
    -- what the table and the queue have in common
    have hmem : ∀ l : List Nat, l.Nodup → (∀ i, i ∈ l ↔ (t.entryPool.entries i).allocated = true) →
        ∀ i, i ∈ l.erase op ↔ (pool.entries i).allocated = true := by
      intro l hnodup hl i
      rw [hnodup.mem_erase_iff, hl]
      by_cases hi : i = op
      · subst hi
        simp [hself]
      · simp [hi, hother i hi]
    dsimp only
    rw [hfree]
    refine ⟨_, rfl, ⟨hwf, h.ht_nodup.erase _, hmem _ h.ht_nodup h.mem_ht, h.q_nodup.erase _,
      hmem _ h.q_nodup h.mem_q, ?_⟩, ?_, rfl, hnr, List.erase_sublist, ?_, ?_⟩
    · intro i j hi hj hij
      obtain ⟨hine, hi⟩ := h.q_nodup.mem_erase_iff.mp hi
      obtain ⟨hjne, hj⟩ := h.q_nodup.mem_erase_iff.mp hj
      dsimp only at hij
      rw [hother i hine, hother j hjne] at hij
      exact h.inj i j hi hj hij
    · intro a
      constructor
      · rintro ⟨i, hi, hia⟩
        obtain ⟨hine, hi⟩ := h.q_nodup.mem_erase_iff.mp hi
        dsimp only at hia
        rw [hother i hine] at hia
        refine ⟨?_, i, hi, hia⟩
        rintro rfl
        exact hine (h.inj i op hi hop (hia.trans ho.symm))
      · rintro ⟨hne, i, hi, hia⟩
        have hine : i ≠ op := by
          rintro rfl
          exact hne (hia.symm.trans ho)
        refine ⟨i, h.q_nodup.mem_erase_iff.mpr ⟨hine, hi⟩, ?_⟩
        dsimp only
        rw [hother i hine]
        exact hia
    · intro i hi
      exact Function.update_of_ne (h.q_nodup.mem_erase_iff.mp hi).1 _ _
    · intro i hi hia
      obtain ⟨hine, hi⟩ := h.q_nodup.mem_erase_iff.mp hi
      exact hine (h.inj i op hi hop (hia.trans ho.symm))

theorem Dropped.due (h : t.Dropped o t') (hd : t.Due time n rest) : t'.Due time n rest := by
  have hsub : ∀ i ∈ t'.q, i ∈ t.q := fun i hi => h.sublist.subset hi
  refine ⟨fun i hi => ?_, fun i hi => hd.lt i (hsub i hi), hd.sorted.sublist h.sublist⟩
  rw [h.times i hi]
  exact hd.time i (hsub i hi)

/-! ## The next completion -/

theorem Due.not_due (hd : t.Due time n rest) (hn : n ≤ 2 ^ 32) (ht : time < 2 ^ 32) (hi : i ∈ t.q) :
    t.migratedTime i = time ↔ rest i = 0 := by
  have hlt := hd.lt i hi
  rw [hd.time i hi, u32]
  constructor
  · intro heq
    omega
  · intro heq
    rw [heq, Nat.add_zero, Nat.mod_eq_of_lt ht]

/-- The operation whose time has come is handed over and dropped, and only the first can be. -/
theorem migrationNext_spec (h : t.Wf) (time : Nat) :
    (migrationNext t time = .ok (t, none) ∧ ∀ i ∈ t.q.head?, t.migratedTime i ≠ time) ∨
    ∃ t' i, t.q.head? = some i ∧ t.migratedTime i = time ∧
      migrationNext t time = .ok (t', some (t.entryPool.entries i).oblock) ∧
      t.Tracks (t.entryPool.entries i).oblock ∧ t.Dropped (t.entryPool.entries i).oblock t' := by
  unfold migrationNext
  cases hq : t.q.head? with
  | none => exact Or.inl ⟨rfl, fun i hi => (by cases hi)⟩
  | some i =>
    dsimp only
    by_cases htime : t.migratedTime i = time
    · obtain ⟨t', hrun, hdrop⟩ := migrationRemove_spec h (t.entryPool.entries i).oblock
      refine Or.inr ⟨t', i, rfl, htime, ?_, ⟨i, List.mem_of_mem_head? hq, rfl⟩, hdrop⟩
      rw [if_pos htime, hrun]
      rfl
    · refine Or.inl ⟨by rw [if_neg htime], fun j hj => ?_⟩
      obtain rfl := Option.some.inj hj
      exact htime

/-- Nothing is due any more. -/
theorem Due.next_pos (hd : t.Due time n rest) (h : t.Wf) (hn : n ≤ 2 ^ 32) (ht : time < 2 ^ 32)
    {x : Option Oblock} (hrun : migrationNext t time = .ok (t', x)) :
    t'.Due time n rest ∧ ∀ i ∈ t'.q, 0 < rest i := by
  rcases migrationNext_spec h time with ⟨hsame, hhead⟩ | ⟨t1, i, hq, htime, hsome, _, hdrop⟩
  · obtain ⟨rfl, _⟩ := Prod.mk.inj (Except.ok.inj (hsame.symm.trans hrun))
    refine ⟨hd, fun i hi => ?_⟩
    cases hq : t.q with
    | nil =>
      rw [hq] at hi
      cases hi
    | cons a q =>
      have ha : a ∈ t.q := hq ▸ List.mem_cons_self
      have hpos : 0 < rest a := by
        have hne := hhead a (by rw [hq]; rfl)
        rw [Ne, hd.not_due hn ht ha] at hne
        omega
      rw [hq] at hi
      rcases List.mem_cons.mp hi with rfl | hi
      · exact hpos
      · have hsorted := hd.sorted
        rw [hq, List.pairwise_cons] at hsorted
        exact hpos.trans (hsorted.1 i hi)
  · obtain ⟨rfl, _⟩ := Prod.mk.inj (Except.ok.inj (hsome.symm.trans hrun))
    refine ⟨hdrop.due hd, fun j hj => ?_⟩
    have hjq := hdrop.sublist.subset hj
    have hne : j ≠ i := by
      rintro rfl
      exact hdrop.other j hj rfl
    cases hqc : t.q with
    | nil =>
      rw [hqc] at hq
      cases hq
    | cons a q =>
      rw [hqc] at hq hjq
      obtain rfl : a = i := by simpa using hq
      have hsorted := hd.sorted
      rw [hqc, List.pairwise_cons] at hsorted
      have hmem : j ∈ q := (List.mem_cons.mp hjq).resolve_left hne
      exact Nat.zero_lt_of_lt (hsorted.1 j hmem)

/-! ## A new operation -/

/-- `t'` is `t` with an operation for `o` at the end of the queue. -/
structure Added (t : MigrationTracker) (time : Nat) (o : Oblock) (t' : MigrationTracker) :
    Prop where
  wf : t'.Wf
  tracks : ∀ a, t'.Tracks a ↔ a = o ∨ t.Tracks a
  delay : t'.delay = t.delay
  nrEntries : t'.entryPool.nrEntries = t.entryPool.nrEntries
  last : ∃ op, op ∉ t.q ∧ t'.q = t.q ++ [op] ∧
    t'.migratedTime = Function.update t.migratedTime op (u32 (time + t.delay))

theorem migrationAdd_spec (h : t.Wf) (hno : ¬t.Tracks o) (time : Nat)
    (hfree : t.entryPool.free ≠ []) :
    ∃ t', migrationAdd t time o = .ok t' ∧ t.Added time o t' := by
  obtain ⟨op, free, hf⟩ := List.exists_cons_of_ne_nil hfree
  have hop : op ∈ t.entryPool.free := hf ▸ List.mem_cons_self
  have hfresh : (t.entryPool.entries op).allocated = false := ((h.pool.mem_free op).mp hop).2
  have hni : op ∉ t.q := fun hi => by
    have ha := (h.mem_q op).mp hi
    rw [hfresh] at ha
    cases ha
  have hnht : op ∉ t.ht := fun hi => by
    have ha := (h.mem_ht op).mp hi
    rw [hfresh] at ha
    cases ha
  have hwf := h.pool.allocThisEntry hop
  let pool := (allocThisEntry t.entryPool op).set op
    { (allocThisEntry t.entryPool op).entries op with oblock := o }
  have hself : pool.entries op =
      { t.entryPool.entries op with allocated := true, oblock := o } := by
    simp [pool, allocThisEntry]
  have hother : ∀ i, i ≠ op → pool.entries i = t.entryPool.entries i := fun i hi => by
    simp [pool, allocThisEntry, Function.update_of_ne hi]
  have hrun : migrationAdd t time o = .ok { t with
      entryPool := pool
      ht := op :: t.ht
      migratedTime := Function.update t.migratedTime op (u32 (time + t.delay))
      q := t.q ++ [op] } := by
    unfold migrationAdd
    rw [h.lookup_eq_none.mpr hno]
    dsimp only
    rw [allocEntry, hf]
    rfl
  have hkeep : ∀ i ∈ t.q, pool.entries i = t.entryPool.entries i := fun i hi =>
    hother i fun heq => hni (heq ▸ hi)
  have hmem : ∀ l : List Nat, (∀ i, i ∈ l ↔ (t.entryPool.entries i).allocated = true) →
      ∀ i, (i ∈ l ∨ i = op) ↔ (pool.entries i).allocated = true := by
    intro l hl i
    by_cases hi : i = op
    · subst hi
      simp [hself]
    · simp [hi, hother i hi, hl]
  refine ⟨_, hrun, ⟨hwf.set rfl rfl, List.nodup_cons.mpr ⟨hnht, h.ht_nodup⟩, fun i => ?_, ?_,
    fun i => ?_, ?_⟩, fun a => ?_, rfl, rfl, op, hni, rfl, rfl⟩
  · rw [List.mem_cons, or_comm]
    exact hmem _ h.mem_ht i
  · rw [← List.concat_eq_append, List.nodup_concat]
    exact ⟨hni, h.q_nodup⟩
  · rw [List.mem_append, List.mem_singleton]
    exact hmem _ h.mem_q i
  · intro i j hi hj hij
    rw [List.mem_append, List.mem_singleton] at hi hj
    change (pool.entries i).oblock = (pool.entries j).oblock at hij
    rcases hi with hi | rfl
    · rw [hkeep i hi] at hij
      rcases hj with hj | rfl
      · rw [hkeep j hj] at hij
        exact h.inj i j hi hj hij
      · rw [hself] at hij
        exact absurd ⟨i, hi, hij⟩ hno
    · rcases hj with hj | rfl
      · rw [hself, hkeep j hj] at hij
        exact absurd ⟨j, hj, hij.symm⟩ hno
      · rfl
  · constructor
    · rintro ⟨i, hi, hia⟩
      change (pool.entries i).oblock = a at hia
      rcases List.mem_append.mp hi with hi | hi
      · rw [hkeep i hi] at hia
        exact Or.inr ⟨i, hi, hia⟩
      · rw [List.mem_singleton.mp hi, hself] at hia
        exact Or.inl hia.symm
    · rintro (rfl | ⟨i, hi, hia⟩)
      · refine ⟨op, List.mem_append_right _ List.mem_cons_self, ?_⟩
        show (pool.entries op).oblock = a
        rw [hself]
      · refine ⟨i, List.mem_append_left _ hi, ?_⟩
        show (pool.entries i).oblock = a
        rw [hkeep i hi]
        exact hia

/-- The new operation waits the longest. -/
theorem Added.due (h : t.Added time o t') (hd : t.Due time n rest) (hn : n ≤ t.delay)
    (hpos : ∀ i ∈ t.q, 0 < rest i) (hdelay : 0 < t.delay) :
    ∃ rest', t'.Due time (t.delay + 1) rest' ∧ ∀ i ∈ t'.q, 0 < rest' i := by
  obtain ⟨op, hni, hq, htimes⟩ := h.last
  have hold : ∀ i ∈ t.q, i ≠ op := fun i hi heq => hni (heq ▸ hi)
  refine ⟨Function.update rest op t.delay, ⟨fun i hi => ?_, fun i hi => ?_, ?_⟩, fun i hi => ?_⟩
  · rw [hq, List.mem_append, List.mem_singleton] at hi
    rw [htimes]
    rcases hi with hi | rfl
    · rw [Function.update_of_ne (hold i hi), Function.update_of_ne (hold i hi), hd.time i hi]
    · rw [Function.update_self, Function.update_self]
  · rw [hq, List.mem_append, List.mem_singleton] at hi
    rcases hi with hi | rfl
    · rw [Function.update_of_ne (hold i hi)]
      have := hd.lt i hi
      omega
    · rw [Function.update_self]
      omega
  · rw [hq, List.pairwise_append]
    refine ⟨hd.sorted.imp_of_mem fun hi hj hlt => ?_, List.pairwise_singleton _ _, ?_⟩
    · rw [Function.update_of_ne (hold _ hi), Function.update_of_ne (hold _ hj)]
      exact hlt
    · intro i hi j hj
      rw [List.mem_singleton.mp hj, Function.update_of_ne (hold i hi), Function.update_self]
      exact Nat.lt_of_lt_of_le (hd.lt i hi) hn
  · rw [hq, List.mem_append, List.mem_singleton] at hi
    rcases hi with hi | rfl
    · rw [Function.update_of_ne (hold i hi)]
      exact hpos i hi
    · rw [Function.update_self]
      exact hdelay

/-- An access later, everything waits for one access less. -/
theorem Due.tick (hd : t.Due time (n + 1) rest) (hpos : ∀ i ∈ t.q, 0 < rest i) :
    t.Due (u32 (time + 1)) n fun i => rest i - 1 := by
  refine ⟨fun i hi => ?_, fun i hi => ?_, hd.sorted.imp_of_mem fun hi hj hlt => ?_⟩
  · have := hpos i hi
    rw [hd.time i hi]
    simp only [u32]
    omega
  · have h1 := hd.lt i hi
    have h2 := hpos i hi
    omega
  · have h1 := hpos _ hi
    have h2 := hpos _ hj
    omega

/-- Operations that complete one after the other are few. -/
theorem Due.length_le (hd : t.Due time n rest) : t.q.length ≤ n := by
  rw [← List.length_map rest]
  refine EntryPool.length_le_of_nodup ?_ fun x hx => ?_
  · exact (List.pairwise_map.mpr hd.sorted).imp fun hlt => Nat.ne_of_lt hlt
  · obtain ⟨i, hi, rfl⟩ := List.mem_map.mp hx
    exact hd.lt i hi

theorem Wf.free_ne_nil (h : t.Wf) (hlen : t.q.length < t.entryPool.nrEntries) :
    t.entryPool.free ≠ [] := by
  have hnr := h.pool.nr_allocated
  have hq := h.pool.length_eq_nrAllocated h.q_nodup h.mem_q
  intro hnil
  rw [hnil, List.length_nil] at hnr
  omega

/-- Room for twice as many operations as the delay asks for, up to a wrap. -/
theorem migrationTrackerInit_spec (delay : Nat) : ∃ t, migrationTrackerInit delay = .ok t ∧ t.Wf ∧
    t.q = [] ∧ t.delay = delay ∧ t.entryPool.nrEntries = u32 (2 * delay) := by
  have hinit : migrationTrackerInit delay = .ok {
      ht := []
      entryPool := freshPool (u32 (2 * delay))
      q := []
      migratedTime := fun _ => 0
      delay := delay } := by
    rw [migrationTrackerInit, epoolInit_create (u32_lt (2 * delay))]
    rfl
  refine ⟨_, hinit, ⟨freshPool_wf (u32_lt _), List.nodup_nil, ?_, List.nodup_nil, ?_, ?_⟩, rfl,
    rfl, rfl⟩
  · intro i
    simp [freshPool]
  · intro i
    simp [freshPool]
  · intro i j hi
    cases hi

end MigrationTracker

end Fomo
