import Fomo.Include.EpoolLinks
import Fomo.Lib.Run

/-!
# Runs of an entry pool

Initialising a pool links all its entries into the free list, if the pool counted its slots
from 0 until then. From there on any calls keep the entries partitioned.
-/
namespace Fomo.EpoolLinks

open Lib

variable {m m' : PoolMem} {ep ep' : EntryPool} {i k n t : Nat}

/-! ## Initialisation -/

/-- The fields that `epool_init` writes. -/
def resetEntry (e : Entry) : Entry :=
  { e with dirty := false, allocated := false, migrating := false }

/-- The lists of a pool whose first `k` entries have been linked. -/
def linked (k : Nat) : EntryPool := { free := (List.range k).reverse }

theorem init_links (links : Links PoolNode) :
    ((links.init .free).init .migrating).Holds (ring (linked 0)) := by
  have hnil : links.Holds fun _ : PoolRing => [] :=
    ⟨fun _ => List.isChain_nil, fun _ => List.nodup_nil, fun _ _ _ h _ => by cases h⟩
  have hfree := hnil.init (x := .free) (by simp) .free rfl
  have hboth := hfree.init (x := .migrating) ?_ .migrating (by simp)
  · convert hboth using 1
    funext r
    cases r <;> simp [ring, linked]
  · intro r
    by_cases hr : r = .free
    · subst hr
      simp
    · simp [Function.update_of_ne hr]

theorem add_linked {links : Links PoolNode} (hl : links.Holds (ring (linked k))) :
    ∃ links', links.add (.entry k) .free = some links' ∧ links'.Holds (ring (linked (k + 1))) := by
  have hnew : ∀ r, PoolNode.entry k ∉ ring (linked k) r := by
    intro r
    cases r <;> simp [ring, linked]
  obtain ⟨links', hadd, hl'⟩ := hl.add (i := .free) (x := .free) (by simp [ring]) hnew
  refine ⟨links', hadd, ?_⟩
  convert hl' using 1
  funext r
  cases r with
  | free =>
    simp only [ring, linked, List.range_succ, List.reverse_append, List.reverse_singleton,
      List.singleton_append, List.map_cons]
    rw [listAdd_head (by simp)]
  | migrating => rw [listAdd_of_not_mem (by simp [ring])]; rfl
  | own j => simp [ring, linked, listAdd]

/-- The loop of `epool_init` in a pool that counts from 0. -/
theorem epoolInitLoop_zero (h0 : m.startingIndex = 0) (hn : m.nrEntries < 2 ^ 32) :
    ∀ k ≤ m.nrEntries, ∃ links, epoolInitLoop m k = .ok { m with
        links := links
        entries := fun i => if i < k then resetEntry (m.entries i) else m.entries i } ∧
      links.Holds (ring (linked k)) := by
  intro k
  induction k with
  | zero => exact fun _ => ⟨_, by simp [epoolInitLoop], init_links m.links⟩
  | succ k ih =>
    intro hk
    obtain ⟨links, hrun, hl⟩ := ih (by omega)
    obtain ⟨links', hadd, hl'⟩ := add_linked hl
    have hat : epoolAt { m with
        links := links
        entries := fun i => if i < k then resetEntry (m.entries i) else m.entries i } k =
          some k := by
      rw [epoolAt, h0, sub32_of_le (Nat.zero_le k) (by omega), Nat.sub_zero]
      exact if_neg (Nat.not_le.mpr hk)
    refine ⟨links', ?_, hl'⟩
    rw [epoolInitLoop, hrun, ok_bind, hat, deref_some, ok_bind, hadd, deref_some, ok_bind]
    refine congrArg Except.ok ?_
    simp only [PoolMem.set, PoolMem.mk.injEq, and_true, true_and]
    funext i
    by_cases hi : i = k
    · subst hi
      simp [resetEntry]
    · rw [Function.update_of_ne hi]
      have hiff : i < k + 1 ↔ i < k := by omega
      simp only [hiff]

/-- Every slot the loop visited was one the pool knew. -/
theorem epoolInitLoop_at : ∀ {k : Nat} {m' : PoolMem}, epoolInitLoop m k = .ok m' →
    m'.nrEntries = m.nrEntries ∧ m'.startingIndex = m.startingIndex ∧
      ∀ i < k, epoolAt m i ≠ none := by
  intro k
  induction k with
  | zero =>
    intro m' hrun
    obtain rfl := Except.ok.inj hrun
    exact ⟨rfl, rfl, fun i hi => absurd hi (Nat.not_lt_zero i)⟩
  | succ k ih =>
    intro m' hrun
    obtain ⟨m₁, hrun₁, hrun⟩ := bind_eq_ok.mp hrun
    obtain ⟨hn, hs, hat⟩ := ih hrun₁
    obtain ⟨i, hi, hrun⟩ := bind_eq_ok.mp hrun
    obtain ⟨links, _, hrun⟩ := bind_eq_ok.mp hrun
    obtain rfl := Except.ok.inj hrun
    refine ⟨hn, hs, fun j hj => ?_⟩
    rcases Nat.lt_succ_iff_lt_or_eq.mp hj with hj | rfl
    · exact hat j hj
    · rw [deref_eq_ok, epoolAt, hn, hs] at hi
      rw [epoolAt, hi]
      exact Option.some_ne_none i

/-- A pool that counts from elsewhere misses one of the first slots. -/
theorem exists_missing (hn : 0 < m.nrEntries) (hn32 : m.nrEntries < 2 ^ 32)
    (hs : m.startingIndex ≠ 0) (hs32 : m.startingIndex < 2 ^ 32) :
    ∃ i < m.nrEntries, epoolAt m i = none := by
  have hmiss : ∀ i, m.nrEntries ≤ sub32 i m.startingIndex → epoolAt m i = none := by
    intro i hi
    rw [epoolAt]
    exact if_pos hi
  by_cases hfar : m.nrEntries + m.startingIndex ≤ 2 ^ 32
  · refine ⟨0, hn, hmiss 0 ?_⟩
    unfold sub32 u32
    omega
  · refine ⟨m.nrEntries + m.startingIndex - 2 ^ 32, by omega, hmiss _ ?_⟩
    unfold sub32 u32
    omega

/-- The pool `m'` is the pool `m` with all entries free, counting from `t`. -/
structure Resets (m : PoolMem) (t : Nat) (m' : PoolMem) : Prop where
  entries : ∀ i < m.nrEntries, (m'.entries i).allocated = false ∧
    (m'.entries i).migrating = false ∧ (m'.entries i).dirty = false
  free : ∃ l : List Nat, m'.links.Circle (.free :: l.map .entry) ∧ l.Nodup ∧
    ∀ i, i ∈ l ↔ i < m.nrEntries
  nr_allocated : m'.nrAllocated = 0
  nr_migrating : m'.nrMigrating = 0
  nr_entries : m'.nrEntries = m.nrEntries
  starting_index : m'.startingIndex = t

theorem epoolInit_zero (h0 : m.startingIndex = 0) (hn : m.nrEntries < 2 ^ 32) (t : Nat) :
    ∃ links, epoolInit m t = .ok { m with
        links := links
        entries := fun i =>
          if i < m.nrEntries then resetEntry (m.entries i) else m.entries i
        nrAllocated := 0, nrMigrating := 0, startingIndex := t } ∧
      links.Holds (ring (linked m.nrEntries)) := by
  obtain ⟨links, hrun, hl⟩ := epoolInitLoop_zero h0 hn _ le_rfl
  exact ⟨links, by rw [epoolInit, hrun]; rfl, hl⟩

/-- `epool_init` resets a pool, used or not, exactly when the pool counted from 0. -/
theorem epoolInit_resets_iff (m : PoolMem) (t : Nat) (hn : 0 < m.nrEntries)
    (hn32 : m.nrEntries < 2 ^ 32) (hs32 : m.startingIndex < 2 ^ 32) :
    (∃ m', epoolInit m t = .ok m' ∧ Resets m t m') ↔ m.startingIndex = 0 := by
  constructor
  · rintro ⟨m', hrun, _⟩
    by_contra hs
    obtain ⟨m₁, hloop, _⟩ := bind_eq_ok.mp hrun
    obtain ⟨i, hi, hmiss⟩ := exists_missing hn hn32 hs hs32
    exact (epoolInitLoop_at hloop).2.2 i hi hmiss
  · intro h0
    obtain ⟨links, hrun, hl⟩ := epoolInit_zero h0 hn32 t
    refine ⟨_, hrun, ?_, ⟨_, hl.circle .free, ?_, ?_⟩, rfl, rfl, rfl, rfl⟩
    · intro i hi
      simp [hi, resetEntry]
    · simp [linked, List.nodup_reverse, List.nodup_range]
    · simp [linked]

/-- A pool whose one entry is allocated and dirty. -/
def usedPool : PoolMem where
  entries := fun _ => { dirty := true, allocated := true }
  nrAllocated := 1
  nrEntries := 1

theorem epoolInit_resets_used : ∃ m', epoolInit usedPool 7 = .ok m' ∧ Resets usedPool 7 m' :=
  (epoolInit_resets_iff usedPool 7 (by decide) (by decide) (by decide)).mpr rfl

/-- The second initialisation of a pool that counts from 1. -/
theorem epoolInit_twice : ∃ m, epoolInit (epoolCreate {} 1) 1 = .ok m ∧
    epoolInit m 1 = .error .nullPointer := ⟨_, rfl, rfl⟩

/-! ## The calls of a pool -/

inductive PoolCall
  | alloc
  | allocParticular (cblock : Cblock)
  | migrating (i : Nat)
  | migrated (i : Nat)
  | free (i : Nat)

/-- The caller's side: a particular entry is unallocated, an entry starts migrating once, ends
it when it does, and is freed when it is allocated. -/
def PoolMem.Allows (m : PoolMem) : PoolCall → Prop
  | .alloc => True
  | .allocParticular cblock => ∃ i, epoolAt m cblock = some i ∧ (m.entries i).allocated = false
  | .migrating i => (m.entries i).allocated = true ∧ (m.entries i).migrating = false
  | .migrated i => (m.entries i).migrating = true
  | .free i => (m.entries i).allocated = true

def poolStep (m : PoolMem) : PoolCall → Exec (PoolMem × Option Nat)
  | .alloc => allocEntry m
  | .allocParticular cblock => do
    let (m, e) ← allocParticularEntry m cblock
    return (m, some e)
  | .migrating i => do
    let m ← migratingEntry m i
    return (m, none)
  | .migrated i => do
    let m ← migratedEntry m i
    return (m, none)
  | .free i => do
    let m ← freeEntry m i
    return (m, none)

def poolCalls : System PoolMem PoolCall (Option Nat) Fault where
  guard := PoolMem.Allows
  step := poolStep

/-- A pool of `n` entries in memory. -/
def PoolMem.Sound (n : Nat) (m : PoolMem) : Prop := ∃ ep, m.Holds ep ∧ ep.Wf ∧ ep.nrEntries = n

/-- The step lemma: an admitted call answers and leaves a sound pool. -/
theorem PoolMem.Sound.step {c : PoolCall} (h : m.Sound n) (hg : m.Allows c) :
    ∃ m' w, poolStep m c = .ok (m', w) ∧ m'.Sound n := by
  obtain ⟨ep, hm, hw, hn⟩ := h
  cases c with
  | alloc =>
    cases hf : ep.free with
    | nil => exact ⟨m, none, hm.allocEntry_nil hf, ep, hm, hw, hn⟩
    | cons i l =>
      obtain ⟨m', hrun, hm'⟩ := hm.allocEntry_cons hw hf
      have hi : i ∈ ep.free := by
        rw [hf]
        exact List.mem_cons_self
      exact ⟨m', some i, hrun, _, hm', hw.allocThisEntry hi, hn⟩
  | allocParticular cblock =>
    obtain ⟨i, hat, ha⟩ := hg
    rw [epoolAt_eq hm] at hat
    rw [hm.entries] at ha
    obtain ⟨m', hrun, hm'⟩ := hm.allocParticularEntry hw hat ha
    refine ⟨m', some i, by rw [poolStep, hrun]; rfl, _, hm', hw.allocThisEntry ?_, hn⟩
    exact (hw.mem_free i).mpr ⟨epoolAt_lt hat, ha⟩
  | migrating i =>
    obtain ⟨ha, hs⟩ := hg
    rw [hm.entries] at ha hs
    obtain ⟨m', ep', hrun, hrun', hm'⟩ := hm.migratingEntry hw ha hs
    obtain ⟨ep₂, hrun₂, hw', _, _, hn', _⟩ := hw.migratingEntry ha hs
    obtain rfl := Except.ok.inj (hrun'.symm.trans hrun₂)
    exact ⟨m', none, by rw [poolStep, hrun]; rfl, ep', hm', hw', hn'.trans hn⟩
  | migrated i =>
    have hs : (ep.entries i).migrating = true := hm.entries ▸ hg
    obtain ⟨m', ep', hrun, hrun', hm'⟩ := hm.migratedEntry hw hs
    obtain ⟨ep₂, hrun₂, hw', _, _, hn', _⟩ := hw.migratedEntry hs
    obtain rfl := Except.ok.inj (hrun'.symm.trans hrun₂)
    exact ⟨m', none, by rw [poolStep, hrun]; rfl, ep', hm', hw', hn'.trans hn⟩
  | free i =>
    have ha : (ep.entries i).allocated = true := hm.entries ▸ hg
    obtain ⟨m', ep', hrun, hrun', hm'⟩ := hm.freeEntry hw ha
    obtain ⟨ep₂, hrun₂, hw', _, _, hn', _⟩ := hw.freeEntry ha
    obtain rfl := Except.ok.inj (hrun'.symm.trans hrun₂)
    exact ⟨m', none, by rw [poolStep, hrun]; rfl, ep', hm', hw', hn'.trans hn⟩

theorem PoolMem.Sound.run (h : m.Sound n) (hr : poolCalls.Reachable m m') : m'.Sound n := by
  refine hr.invariant (I := PoolMem.Sound n) h ?_
  intro a c b w ha hg hstep
  obtain ⟨b', w', hstep', hb⟩ := ha.step hg
  obtain ⟨rfl, _⟩ := Prod.mk.inj (Except.ok.inj (hstep'.symm.trans hstep))
  exact hb

/-- A pool just created and initialised is sound. -/
theorem epoolInit_sound (m : PoolMem) (hn : n < 2 ^ 32) (t : Nat) :
    ∃ m', epoolInit (epoolCreate m n) t = .ok m' ∧ m'.Sound n := by
  obtain ⟨links, hrun, hl⟩ := epoolInit_zero (m := epoolCreate m n) rfl hn t
  refine ⟨_, hrun, { freshPool n with startingIndex := t }, ⟨?_, ?_, rfl, rfl, rfl, rfl⟩, ?_, rfl⟩
  · convert hl using 1
    funext r
    cases r <;> rfl
  · funext i
    show (if i < n then _ else _) = ({} : Entry)
    split <;> rfl
  · have hw := freshPool_wf hn
    exact ⟨hw.1, hw.2, hw.3, hw.4, hw.5, hw.6, hw.7, hw.8, hw.9⟩

/-! ## The partition -/

/-- Every entry is in the lists as its flags say, and the counters count the flags. -/
structure Partition (n : Nat) (m : PoolMem) : Prop where
  lists : ∃ free migrating : List Nat,
    m.links.Circle (.free :: free.map .entry) ∧
    m.links.Circle (.migrating :: migrating.map .entry) ∧
    (free ++ migrating).Nodup ∧
    (∀ i, i ∈ free ↔ i < n ∧ (m.entries i).allocated = false) ∧
    ∀ i, i ∈ migrating ↔ i < n ∧ (m.entries i).allocated = true ∧ (m.entries i).migrating = true
  allocated_of_migrating : ∀ i < n, (m.entries i).migrating = true →
    (m.entries i).allocated = true
  nr_allocated : m.nrAllocated = (List.range n).countP fun i => (m.entries i).allocated
  nr_migrating : m.nrMigrating = (List.range n).countP fun i => (m.entries i).migrating

theorem PoolMem.Sound.partition (h : m.Sound n) : Partition n m := by
  obtain ⟨ep, hm, hw, rfl⟩ := h
  have hmigrating : ∀ i, i ∈ ep.migrating ↔ i < ep.nrEntries ∧ (ep.entries i).allocated = true ∧
      (ep.entries i).migrating = true := by
    intro i
    rw [hw.mem_migrating]
    constructor
    · intro hs
      have ha := hw.allocated_of_migrating i hs
      exact ⟨hw.lt_of_allocated i ha, ha, hs⟩
    · exact fun h => h.2.2
  constructor
  · rw [hm.entries]
    refine ⟨ep.free, ep.migrating, hm.links.circle .free, hm.links.circle .migrating, ?_,
      hw.mem_free, hmigrating⟩
    refine List.nodup_append.mpr ⟨hw.free_nodup, hw.migrating_nodup, ?_⟩
    rintro i hi _ hj rfl
    have ha := ((hmigrating i).mp hj).2.1
    rw [((hw.mem_free i).mp hi).2] at ha
    cases ha
  · rw [hm.entries]
    exact fun i _ => hw.allocated_of_migrating i
  · rw [hm.entries, hm.nr_allocated, List.countP_eq_length_filter]
    refine (hw.length_eq_nrAllocated (List.nodup_range.filter _) fun i => ?_).symm
    rw [List.mem_filter, List.mem_range]
    exact ⟨And.right, fun ha => ⟨hw.lt_of_allocated i ha, ha⟩⟩
  · rw [hm.entries, hm.nr_migrating, hw.nr_migrating, List.countP_eq_length_filter]
    refine List.Perm.length_eq ?_
    rw [List.perm_ext_iff_of_nodup hw.migrating_nodup (List.nodup_range.filter _)]
    intro i
    rw [List.mem_filter, List.mem_range, hmigrating]
    exact ⟨fun h => ⟨h.1, h.2.2⟩, fun h => ⟨h.1, hw.allocated_of_migrating i h.2, h.2⟩⟩

/-- `alloc_entry` answers `NULL` when every entry is allocated, and only then. -/
theorem PoolMem.Sound.alloc_none (h : m.Sound n) {w : Option Nat}
    (hrun : allocEntry m = .ok (m', w)) : w = none ↔ ∀ i < n, (m.entries i).allocated = true := by
  obtain ⟨ep, hm, hw, rfl⟩ := h
  rw [hm.entries]
  cases hf : ep.free with
  | nil =>
    rw [hm.allocEntry_nil hf] at hrun
    obtain ⟨_, rfl⟩ := Prod.mk.inj (Except.ok.inj hrun)
    refine iff_of_true rfl fun i hi => ?_
    by_contra ha
    have hi : i ∈ ep.free := (hw.mem_free i).mpr ⟨hi, by simpa using ha⟩
    rw [hf] at hi
    cases hi
  | cons i l =>
    obtain ⟨m₁, hrun₁, _⟩ := hm.allocEntry_cons hw hf
    obtain ⟨_, rfl⟩ := Prod.mk.inj (Except.ok.inj (hrun.symm.trans hrun₁))
    have hi : i ∈ ep.free := by
      rw [hf]
      exact List.mem_cons_self
    obtain ⟨hlt, ha⟩ := (hw.mem_free i).mp hi
    refine iff_of_false (by simp) fun hall => ?_
    rw [hall i hlt] at ha
    cases ha

/-- The entry freed last is the next one handed out. -/
theorem PoolMem.Sound.alloc_freed (h : m.Sound n) (ha : (m.entries i).allocated = true)
    (hfree : freeEntry m i = .ok m') : ∃ m'', allocEntry m' = .ok (m'', some i) := by
  obtain ⟨ep, hm, hw, rfl⟩ := h
  rw [hm.entries] at ha
  obtain ⟨m₁, ep₁, hrun, hrun₁, hm₁⟩ := hm.freeEntry hw ha
  obtain ⟨ep₂, hrun₂, hw₂, _, hf₂, _⟩ := hw.freeEntry ha
  obtain rfl := Except.ok.inj (hrun.symm.trans hfree)
  obtain rfl := Except.ok.inj (hrun₁.symm.trans hrun₂)
  obtain ⟨m'', halloc, _⟩ := hm₁.allocEntry_cons hw₂ hf₂
  exact ⟨m'', halloc⟩

/-- In every run on a pool just initialised no call faults, the entries are partitioned by
their flags, and the free list works last in, first out. -/
theorem pool_partition (m : PoolMem) (n t : Nat) (hn32 : n < 2 ^ 32) :
    ∃ m₀, epoolInit (epoolCreate m n) t = .ok m₀ ∧ ∀ s, poolCalls.Reachable m₀ s →
      Partition n s ∧
      (∀ c, s.Allows c → ∃ s' w, poolStep s c = .ok (s', w)) ∧
      (∀ s' w, allocEntry s = .ok (s', w) →
        (w = none ↔ ∀ i < n, (s.entries i).allocated = true)) ∧
      ∀ i s', (s.entries i).allocated = true → freeEntry s i = .ok s' →
        ∃ s'', allocEntry s' = .ok (s'', some i) := by
  obtain ⟨m₀, hrun, h₀⟩ := epoolInit_sound m hn32 t
  refine ⟨m₀, hrun, fun s hr => ?_⟩
  have hs := h₀.run hr
  refine ⟨hs.partition, fun c hg => ?_, fun s' w => hs.alloc_none, fun i s' => hs.alloc_freed⟩
  obtain ⟨s', w, hstep, _⟩ := hs.step hg
  exact ⟨s', w, hstep⟩

/-- Two entries, one of which migrates: the pool is full, and the one that is freed is the next
one allocated. -/
theorem pool_partition_two : ∃ m₀ s s₁ s₂ s₃, epoolInit (epoolCreate {} 2) 5 = .ok m₀ ∧
    poolCalls.Reachable m₀ s ∧ Partition 2 s ∧ (s.entries 1).migrating = true ∧
    s.nrAllocated = 2 ∧ s.nrMigrating = 1 ∧ allocEntry s = .ok (s₁, none) ∧
    freeEntry s 1 = .ok s₂ ∧ Partition 2 s₂ ∧ s₂.nrAllocated = 1 ∧ s₂.nrMigrating = 0 ∧
    allocEntry s₂ = .ok (s₃, some 1) := by
  obtain ⟨m₀, hinit, hall⟩ := pool_partition {} 2 5 (by decide)
  obtain ⟨s, ws, hexec, hadm, halloc, hmig, h2, h1, s₁, hfull, s₂, hfree, hone, hzero⟩ : ∃ s ws,
      poolCalls.exec m₀ [.alloc, .alloc, .migrating 1] = .ok (s, ws) ∧
      poolCalls.Admits m₀ [.alloc, .alloc, .migrating 1] ∧ (s.entries 1).allocated = true ∧
      (s.entries 1).migrating = true ∧ s.nrAllocated = 2 ∧ s.nrMigrating = 1 ∧
      ∃ s₁, allocEntry s = .ok (s₁, none) ∧ ∃ s₂, freeEntry s 1 = .ok s₂ ∧
        s₂.nrAllocated = 1 ∧ s₂.nrMigrating = 0 := by
    obtain rfl := Except.ok.inj hinit
    refine ⟨_, _, rfl, ?_, rfl, rfl, rfl, rfl, _, rfl, _, rfl, rfl, rfl⟩
    exact And.intro trivial (And.intro trivial (And.intro (And.intro rfl rfl) trivial))
  have hrun := Lib.System.Run.of_exec hadm hexec
  obtain ⟨hpart, _, _, hagain⟩ := hall s hrun.reachable
  have hstep : poolStep s (.free 1) = .ok (s₂, none) := by rw [poolStep, hfree]; rfl
  have hfrees : poolCalls.guard s (.free 1) := halloc
  have hpart₂ := (hall s₂ (hrun.snoc hfrees hstep).reachable).1
  obtain ⟨s₃, hlast⟩ := hagain 1 s₂ halloc hfree
  exact ⟨m₀, s, s₁, s₂, s₃, hinit, hrun.reachable, hpart, hmig, h2, h1, hfull, hfree, hpart₂, hone,
    hzero, hlast⟩

end Fomo.EpoolLinks
