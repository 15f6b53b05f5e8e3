import Fomo.Algs.LfuOrder
import Fomo.Include.Contract

/-!
# The victims of LFU

An observer counts the accesses to every block since it came in and notes the time of
the last one. The keys and times of the entries are these, so the root of a heap that is in
order is the settled block with the fewest accesses, the oldest one among equals.
-/
namespace Fomo

/-- The calls a caller may make while keys and times stay below `2 ^ 31`. -/
def lfuCalls (lfu : LfuPolicy) : Call → Prop
  | .map o _ _ => ∀ r, hashLookup lfu.nucleus o = some r → (lfu.heap.head r).key + 1 < 2 ^ 31
  | .migrated o => lfu.nucleus.MayMigrate o
  | .remove o _ => lfu.nucleus.Cached o
  | .insert o cb => lfu.nucleus.MayInsert o cb
  | .remap _ _ => False
  | .setTime t => t < 2 ^ 31

/-- The time, and for every block its accesses since it came in and its last access. -/
structure LfuAccesses where
  now : Nat := 0
  count : Oblock → Nat := fun _ => 0
  last : Oblock → Nat := fun _ => 0

def LfuAccesses.access (g : LfuAccesses) (o : Oblock) (count : Nat) : LfuAccesses :=
  { g with count := Function.update g.count o count, last := Function.update g.last o g.now }

/-- A request or preload that brings a block in is its first access. -/
def LfuAccesses.observe (g : LfuAccesses) (c : Call) (res : Option CacheNucleusResult) :
    LfuAccesses :=
  match c with
  | .map o _ _ =>
    match res.map CacheNucleusResult.op with
    | some .hit => g.access o (g.count o + 1)
    | some .new | some .replace => g.access o 1
    | _ => g
  | .insert o _ => g.access o 1
  | .setTime t => { g with now := t }
  | _ => g

/-- LFU with the observer beside it. -/
def lfuObserved (lt : LfuTransaction) :
    Lib.System (LfuPolicy × LfuAccesses) Call (Option CacheNucleusResult) Fault :=
  ((lfuApi lt).system lfuCalls).ghost fun _ c _ res g => g.observe c res

namespace LfuPolicy

/-- The invariant of the observed system. -/
structure Counted (s : LfuPolicy) (g : LfuAccesses) : Prop where
  inv : s.Inv
  below : s.Below
  ordered : s.heap.Ordered s.rank
  now : g.now = s.nucleus.time
  rank : ∀ r, (s.nucleus.entry r).allocated = true →
    s.rank r = toLex (g.count (s.nucleus.entry r).oblock, g.last (s.nucleus.entry r).oblock)

variable {s s' : LfuPolicy} {g : LfuAccesses} {r : EntryRef} {o : Oblock} {e : Entry}
  {free : List Nat} {key : Nat}

/-- A step on an entry that the observer did not see accessed. -/
theorem Counted.quiet (h : s.Counted g) (hs : s.Step r e free key s')
    (ho : s'.heap.Ordered s'.rank) (hkey : key = (s.heap.head r).key)
    (htime : e.time = (s.nucleus.entry r).time)
    (hsame : e.allocated = true → (s.nucleus.entry r).allocated = true ∧
      e.oblock = (s.nucleus.entry r).oblock) : s'.Counted g where
  inv := hs.inv
  below := hs.below h.below (hkey ▸ h.below.key r) (htime ▸ h.below.time r)
  ordered := ho
  now := h.now.trans hs.rewrites.time.symm
  rank := fun x ha => by
    by_cases hx : x = r
    · subst hx
      rw [hs.rewrites.entry_self] at ha ⊢
      obtain ⟨ha', heq⟩ := hsame ha
      rw [hs.rank_self, hkey, htime, heq]
      exact h.rank x ha'
    · rw [hs.rewrites.entry_of_ne hx] at ha ⊢
      rw [hs.rank_of_ne hx]
      exact h.rank x ha

/-- A step that accesses the block of its entry. -/
theorem Counted.access (h : s.Counted g) (hs : s.Step r e free key s')
    (ho : s'.heap.Ordered s'.rank) (hkey : key < 2 ^ 31) (htime : e.time = s.nucleus.time)
    (ha : e.allocated = true) : s'.Counted (g.access e.oblock key) where
  inv := hs.inv
  below := hs.below h.below hkey (htime ▸ h.below.now)
  ordered := ho
  now := h.now.trans hs.rewrites.time.symm
  rank := fun x hax => by
    have hself : (s'.nucleus.entry r) = e := hs.rewrites.entry_self
    by_cases hx : x = r
    · subst hx
      rw [hs.rank_self, hself, htime, ← h.now]
      simp [LfuAccesses.access]
    · have hne : (s'.nucleus.entry x).oblock ≠ e.oblock := fun heq =>
        hx (hs.rewrites.wf.inj x r hax (hself ▸ ha) (hself ▸ heq))
      rw [hs.rewrites.entry_of_ne hx] at hax hne ⊢
      rw [hs.rank_of_ne hx, h.rank x hax]
      simp [LfuAccesses.access, hne]

theorem Counted.of_init {c : UInt32} (hinit : lfuInit c = .ok s) : s.Counted {} := by
  have hinv := (lfuInit_spec hinit).1
  rw [lfuInit_eq] at hinit
  obtain rfl := Except.ok.inj hinit
  have hpos := Nat.two_pow_pos 31
  refine ⟨hinv, ⟨fun _ => hpos, fun _ => hpos, hpos⟩, ?_, rfl, fun r ha => ?_⟩
  · intro i _ hi
    exact absurd hi (Nat.not_lt_zero i)
  · cases ha

variable {lt : LfuTransaction} {c : Call} {w : Bool} {result : CacheNucleusResult}

/-- Every admitted request returns, and the observer keeps up with it. -/
theorem Counted.map (h : s.Counted g) (hsmall : s.heap.size < 2 ^ 31)
    (hg : lfuCalls s (.map o w result)) : ∃ s' res,
    lfuMapApi s o w result = .ok (s', res) ∧
      s'.Counted (g.observe (.map o w result) (some res)) := by
  have hcase := lfuMapApi_case h.inv o w result
  generalize hx : lfuMapApi s o w result = x at hcase
  have hord : ∀ s' res, x = .ok (s', res) → s'.heap.Ordered s'.rank := by
    intro s' res hres
    exact lfuMapApi_ordered h.inv hsmall h.below h.ordered hg (hx.trans hres)
  cases hcase with
  | @hit cb s' hl hs =>
    obtain ⟨_, ha, hob⟩ := h.inv.lookup hl
    have hk := hg _ hl
    have hcount : g.count o = (s.heap.head ⟨.cache, cb⟩).key := by
      have hrank := h.rank _ ha
      rw [hob] at hrank
      exact (congrArg (fun p => (ofLex p).1) hrank).symm
    rw [u32_of_lt (by omega)] at hs
    have hc := h.access hs (hord _ _ rfl) hk rfl ha
    rw [← hcount] at hc
    exact ⟨s', _, rfl, hob ▸ hc⟩
  | @new cb rest s' habs hf hs =>
    exact ⟨s', _, rfl, h.access hs (hord _ _ rfl) (by decide) rfl rfl⟩
  | @replace cb s' habs hf hm hmem hs =>
    exact ⟨s', _, rfl, h.access hs (hord _ _ rfl) (by decide) rfl rfl⟩
  | fail habs hf hz => exact ⟨s, _, rfl, h⟩
  | stuck hbig => exact absurd hsmall hbig.not_gt

/-- A preload needs no room in the heap for its children. -/
theorem Counted.insert (h : s.Counted g) {cb : Cblock} (hmay : s.nucleus.MayInsert o cb) :
    ∃ s', lfuInsertApi s o cb = .ok s' ∧ s.Step ⟨.cache, cb⟩
        { s.nucleus.freshEntry ⟨.cache, cb⟩ o with time := s.nucleus.time }
        ((s.nucleus.pool .cache).free.erase cb) 1 s' ∧ s'.Counted (g.access o 1) := by
  obtain ⟨habs, hcb, hfree⟩ := hmay
  obtain ⟨s', hrun, hs⟩ := lfuInsertApi_spec h.inv hcb hfree habs
  refine ⟨s', hrun, hs, h.access hs ?_ (by decide) rfl rfl⟩
  exact lfuInsertApi_ordered h.inv h.below h.ordered hcb hfree habs hrun

theorem Counted.setTime (h : s.Counted g) (lt : LfuTransaction) {time : Nat}
    (ht : time < 2 ^ 31) : ((lfuApi lt).setTime s time).Counted { g with now := time } :=
  ⟨lfuSetTime_inv h.inv lt time, ⟨h.below.key, h.below.time, ht⟩, h.ordered, rfl, h.rank⟩

/-- With fewer than `2 ^ 31` settled blocks every admitted call returns, and the observer keeps
up with it. -/
theorem Counted.call (h : s.Counted g) (hsmall : s.heap.size < 2 ^ 31) (lt : LfuTransaction)
    (hg : lfuCalls s c) : ∃ s' res,
    (lfuApi lt).call s c = .ok (s', res) ∧ s'.Counted (g.observe c res) ∧
      (s'.nucleus.pool .cache).nrEntries = (s.nucleus.pool .cache).nrEntries := by
  cases c with
  | map o w result =>
    obtain ⟨s', res, hrun, hc⟩ := h.map hsmall hg
    have hcase := lfuMapApi_case h.inv o w result
    rw [hrun] at hcase
    exact ⟨s', some res, Policy.call_map.mpr ⟨res, rfl, hrun⟩, hc, hcase.nrEntries .cache⟩
  | migrated o =>
    obtain ⟨cb, hcache, hm⟩ := hg
    have hl := h.inv.wf.caches_iff.mp hcache
    obtain ⟨s', hrun, hs⟩ := lfuMigratedApi_spec h.inv hl hm
    refine ⟨s', none, map_eq_ok.mpr ⟨_, hrun, rfl⟩, h.quiet hs ?_ rfl rfl fun ha => ⟨ha, rfl⟩,
      hs.rewrites.nrEntries _⟩
    exact lfuMigratedApi_ordered h.inv h.below h.ordered hl hm hrun
  | remove o keep =>
    obtain ⟨cb, hcache⟩ := hg
    have hl := h.inv.wf.caches_iff.mp hcache
    obtain ⟨s', hrun, hs⟩ := lfuRemoveApi_returns h.inv hsmall hl keep
    refine ⟨s', none, map_eq_ok.mpr ⟨_, hrun, rfl⟩, h.quiet hs ?_ rfl rfl (fun ha => nomatch ha),
      hs.rewrites.nrEntries _⟩
    exact lfuRemoveApi_ordered h.inv hsmall h.below h.ordered hl keep hrun
  | insert o cb =>
    obtain ⟨s', hrun, hs, hc⟩ := h.insert hg
    exact ⟨s', none, map_eq_ok.mpr ⟨_, hrun, rfl⟩, hc, hs.rewrites.nrEntries _⟩
  | remap a b => exact hg.elim
  | setTime t => exact ⟨_, none, rfl, h.setTime lt hg, rfl⟩

/-- What LFU is for. -/
structure Correct (lt : LfuTransaction) (s : LfuPolicy) (g : LfuAccesses) : Prop where
  answers : ∀ call, lfuCalls s call → ∃ s' res, (lfuApi lt).call s call = .ok (s', res)
  members : ∀ r, (∃ i < s.heap.size, s.heap.heapArr i = some r) ↔
    (s.nucleus.entry r).allocated = true ∧ (s.nucleus.entry r).migrating = false
  places : ∀ r, (s.nucleus.entry r).allocated = true → (s.nucleus.entry r).migrating = false →
    (s.heap.head r).index < s.heap.size ∧ s.heap.heapArr (s.heap.head r).index = some r
  order : ∀ i p r, 0 < i → i < s.heap.size → s.heap.heapArr ((i - 1) / 2) = some p →
    s.heap.heapArr i = some r →
    toLex ((s.heap.head p).key, (s.nucleus.entry p).time) ≤
      toLex ((s.heap.head r).key, (s.nucleus.entry r).time)
  victims : ∀ o w result s' res, lfuMapApi s o w result = .ok (s', res) → res.op = .replace →
    ∃ cb, s.nucleus.Caches res.oldOblock cb ∧ ¬s.nucleus.Migrating cb ∧
      ¬s'.nucleus.Cached res.oldOblock ∧
      ∀ a b, s.nucleus.Caches a b → ¬s.nucleus.Migrating b →
        toLex (g.count res.oldOblock, g.last res.oldOblock) ≤ toLex (g.count a, g.last a)

/-- The observer keeps up with every run over fewer than `2 ^ 31` slots. -/
theorem Counted.of_run {g' : LfuAccesses} {t : List (Call × Option CacheNucleusResult)}
    (h : s.Counted g) (hsmall : (s.nucleus.pool .cache).nrEntries < 2 ^ 31)
    (hrun : (lfuObserved lt).Run (s, g) t (s', g')) :
    s'.Counted g' ∧ (s'.nucleus.pool .cache).nrEntries < 2 ^ 31 := by
  refine hrun.invariant
    (I := fun p => p.1.Counted p.2 ∧ (p.1.nucleus.pool .cache).nrEntries < 2 ^ 31) ⟨h, hsmall⟩
    fun {a c b w} ha hg hstep => ?_
  obtain ⟨hstep, hghost⟩ := Lib.System.ghost_step.mp hstep
  have hsize := ha.1.inv.heap_size_le
  obtain ⟨s', res, hcall, hc, hn⟩ := ha.1.call (by omega) lt hg
  have hb : (lfuApi lt).call a.1 c = .ok (b.1, w) := hstep
  rw [hcall] at hb
  obtain ⟨rfl, rfl⟩ := Prod.mk.inj (Except.ok.inj hb)
  rw [hghost]
  exact ⟨hc, hn.trans_lt ha.2⟩

/-- The heap in order answers for the victims. -/
theorem Counted.correct (h : s.Counted g) (hsmall : s.heap.size < 2 ^ 31) :
    s.Correct lt g := by
  constructor
  · intro call hg
    obtain ⟨s', res, hcall, _⟩ := h.call hsmall lt hg
    exact ⟨s', res, hcall⟩
  · intro r
    rw [← h.inv.mem_heap]
    constructor
    · rintro ⟨i, hi, hx⟩
      exact (h.inv.placed.mem hi hx).1
    · intro hm
      exact ⟨_, hm.1, hm.2⟩
  · exact fun r ha hm => (h.inv.mem_heap r).mpr ⟨ha, hm⟩
  · exact fun i p r hpos hi hp hr => h.ordered.pair hpos hi hp hr
  · intro o w result s' res hmap hop
    have hcase := lfuMapApi_case h.inv o w result
    rw [hmap] at hcase
    cases hcase with
    | hit hl hs => cases hop
    | new habs hf hs => cases hop
    | @replace cb _ habs hf hm hmem hs =>
      obtain ⟨ha, hset⟩ := (h.inv.mem_heap _).mp hmem
      refine ⟨cb, ⟨ha, rfl⟩, by simp [CacheNucleus.Migrating, hset], ?_, fun a b hab hb => ?_⟩
      · rintro ⟨b, hb⟩
        by_cases hbc : b = cb
        · subst hbc
          unfold CacheNucleus.Caches at hb
          rw [hs.rewrites.entry_self] at hb
          exact habs _ ha hb.2.symm
        · have hne : (⟨.cache, b⟩ : EntryRef) ≠ ⟨.cache, cb⟩ := by simp [hbc]
          unfold CacheNucleus.Caches at hb
          rw [hs.rewrites.entry_of_ne hne] at hb
          exact hne (h.inv.wf.inj _ _ hb.1 ha hb.2)
      · have hmem' := (h.inv.mem_heap ⟨.cache, b⟩).mpr
          ⟨hab.1, by simpa [CacheNucleus.Migrating] using hb⟩
        have hle := h.ordered.min hm hmem'
        rw [h.rank _ ha, h.rank _ hab.1, hab.2] at hle
        exact hle
    | fail habs hf hz => cases hop

end LfuPolicy

end Fomo
