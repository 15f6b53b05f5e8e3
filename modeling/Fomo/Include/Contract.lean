import Fomo.Include.NucleusSpec
import Fomo.Include.Api

/-!
# The contract between a policy and its caller

What a caller may ask (`MayMigrate`, `MayInsert`) and what it relies on when a request
returns (`MapContract`), in terms of the pairs of oblock and cblock in the cache.
-/
namespace Fomo

namespace CacheNucleus

/-- The slot `cb` holds `o`. -/
def Caches (cn : CacheNucleus) (o : Oblock) (cb : Cblock) : Prop :=
  (cn.entry ⟨.cache, cb⟩).allocated = true ∧ (cn.entry ⟨.cache, cb⟩).oblock = o

def Cached (cn : CacheNucleus) (o : Oblock) : Prop := ∃ cb, cn.Caches o cb

def Migrating (cn : CacheNucleus) (cb : Cblock) : Prop :=
  (cn.entry ⟨.cache, cb⟩).migrating = true

/-- `o` is a cached block whose migration is under way. -/
def MayMigrate (cn : CacheNucleus) (o : Oblock) : Prop := ∃ cb, cn.Caches o cb ∧ cn.Migrating cb

/-- `o` is not known and `cb` is a free slot. -/
def MayInsert (cn : CacheNucleus) (o : Oblock) (cb : Cblock) : Prop :=
  cn.Absent o ∧ cb < (cn.pool .cache).nrEntries ∧ (cn.entry ⟨.cache, cb⟩).allocated = false

variable {cn cn' : CacheNucleus} {o a : Oblock} {cb b : Cblock}

theorem Wf.caches_iff (h : cn.Wf) : cn.Caches o cb ↔ hashLookup cn o = some ⟨.cache, cb⟩ :=
  h.hashLookup_eq_some.symm

theorem Wf.cached_iff (h : cn.Wf) : cn.Cached o ↔ (defaultCacheLookup cn o).isSome := by
  unfold Cached defaultCacheLookup
  simp only [h.caches_iff]
  cases hl : hashLookup cn o with
  | none => simp [inCache]
  | some r =>
    obtain ⟨p, i⟩ := r
    cases p <;> simp [inCache]

theorem Wf.inCache_iff (h : cn.Wf) : inCache (hashLookup cn o) = true ↔ cn.Cached o := by
  unfold Cached
  simp only [h.caches_iff]
  cases hl : hashLookup cn o with
  | none => simp [inCache]
  | some r =>
    obtain ⟨p, i⟩ := r
    cases p <;> simp [inCache]

theorem Absent.not_cached (h : cn.Absent o) : ¬cn.Cached o :=
  fun ⟨_, ha, ho⟩ => h _ ha ho

/-- A block lies in one slot. -/
theorem Caches.unique (h : cn.Wf) (h1 : cn.Caches o cb) (h2 : cn.Caches o b) : cb = b := by
  have := h.inj _ _ h1.1 h2.1 (h1.2.trans h2.2.symm)
  simpa using this

/-- The cache part of `cn'` is that of `cn` with the slot `cb` rewritten to `e`. -/
def SetsSlot (cn : CacheNucleus) (cb : Cblock) (e : Entry) (cn' : CacheNucleus) : Prop :=
  ∀ b, cn'.entry ⟨.cache, b⟩ = if b = cb then e else cn.entry ⟨.cache, b⟩

theorem Rewrites.setsSlot {e : Entry} {free : List Nat}
    (h : cn.Rewrites ⟨.cache, cb⟩ e free cn') : cn.SetsSlot cb e cn' := by
  intro b
  by_cases hb : b = cb
  · subst hb; simp [h.entry]
  · simp [h.entry, hb]

/-- The cache part of the nucleus did not change. -/
def SameCache (cn cn' : CacheNucleus) : Prop :=
  ∀ b, cn'.entry ⟨.cache, b⟩ = cn.entry ⟨.cache, b⟩

/-- What a request for `o` that returned `res` did to the cache. -/
def MapContract (cn : CacheNucleus) (o : Oblock) (cn' : CacheNucleus)
    (res : CacheNucleusResult) : Prop :=
  match res.op with
  | .hit => cn.Caches o res.cblock ∧ ∀ a b, cn'.Caches a b ↔ cn.Caches a b
  | .new => ¬cn.Cached o ∧ res.cblock < (cn.pool .cache).nrEntries ∧
      (∀ a, ¬cn.Caches a res.cblock) ∧ cn'.Migrating res.cblock ∧
      (∀ a b, cn'.Caches a b ↔ (a = o ∧ b = res.cblock) ∨ cn.Caches a b) ∧
      ∀ b, b ≠ res.cblock → cn'.entry ⟨.cache, b⟩ = cn.entry ⟨.cache, b⟩
  | .replace => ¬cn.Cached o ∧ cn.Caches res.oldOblock res.cblock ∧ ¬cn.Migrating res.cblock ∧
      ¬cn'.Cached res.oldOblock ∧ cn'.Migrating res.cblock ∧
      (∀ a b, cn'.Caches a b ↔
        (a = o ∧ b = res.cblock) ∨ (a ≠ res.oldOblock ∧ cn.Caches a b)) ∧
      ∀ b, b ≠ res.cblock → cn'.entry ⟨.cache, b⟩ = cn.entry ⟨.cache, b⟩
  | .filter | .fail => ¬cn.Cached o ∧ cn.SameCache cn'

theorem Absent.not_caches (h : cn.Absent o) : ¬cn.Caches o cb := fun hc => h _ hc.1 hc.2

end CacheNucleus

/-- The entry is in use for `o`. -/
structure Entry.Holds (e : Entry) (o : Oblock) (migrating dirty : Bool) : Prop where
  allocated : e.allocated = true
  oblock : e.oblock = o
  migrating : e.migrating = migrating
  dirty : e.dirty = dirty

namespace CacheNucleus

variable {cn cn' : CacheNucleus} {o : Oblock} {w : Bool} {res : CacheNucleusResult}

theorem arriving_holds (cn : CacheNucleus) (r : EntryRef) (o : Oblock) (w : Bool) :
    Entry.Holds { cn.arrivingEntry r o with dirty := w } o true w := ⟨rfl, rfl, rfl, rfl⟩

/-- What a request for `o` does to the cache, slot by slot: a hit keeps the slot of `o`
and marks it dirty if it writes; a miss brings `o` in, migrating and as dirty as the
request, in a free slot or in the slot of a settled victim it reports. -/
inductive Effect (cn : CacheNucleus) (o : Oblock) (w : Bool) (cn' : CacheNucleus)
    (res : CacheNucleusResult) : Prop
  | hit {e : Entry} (hop : res.op = .hit) (hc : cn.Caches o res.cblock)
      (hs : cn.SetsSlot res.cblock e cn')
      (he : e.Holds o (cn.entry ⟨.cache, res.cblock⟩).migrating
        ((cn.entry ⟨.cache, res.cblock⟩).dirty || w))
  | new {e : Entry} (hop : res.op = .new) (hno : ¬cn.Cached o)
      (hcb : res.cblock < (cn.pool .cache).nrEntries)
      (hfree : (cn.entry ⟨.cache, res.cblock⟩).allocated = false)
      (hs : cn.SetsSlot res.cblock e cn') (he : e.Holds o true w)
  | replace {e : Entry} (hop : res.op = .replace) (hno : ¬cn.Cached o)
      (hold : cn.Caches res.oldOblock res.cblock)
      (hset : (cn.entry ⟨.cache, res.cblock⟩).migrating = false)
      (hdirty : res.dirtyEviction = (cn.entry ⟨.cache, res.cblock⟩).dirty)
      (hs : cn.SetsSlot res.cblock e cn') (he : e.Holds o true w)
  | pass (hop : res.op = .filter ∨ res.op = .fail) (hno : ¬cn.Cached o)
      (hs : cn.SameCache cn')

/-- A request hits exactly when its block is cached. -/
theorem Effect.hit_iff (h : cn.Effect o w cn' res) : res.op = .hit ↔ cn.Cached o := by
  cases h with
  | hit hop hc hs he => exact iff_of_true hop ⟨_, hc⟩
  | new hop hno hcb hfree hs he => exact iff_of_false (by rw [hop]; decide) hno
  | replace hop hno hold hset hdirty hs he => exact iff_of_false (by rw [hop]; decide) hno
  | pass hop hno hs =>
    refine iff_of_false ?_ hno
    rcases hop with hop | hop
    · rw [hop]; decide
    · rw [hop]; decide

/-- The pairs after a slot has been rewritten to hold `o`. -/
theorem SetsSlot.caches_iff {cb : Cblock} {e : Entry} {m d : Bool}
    (h : cn.SetsSlot cb e cn') (he : e.Holds o m d) (a : Oblock) (b : Cblock) :
    cn'.Caches a b ↔ (a = o ∧ b = cb) ∨ (b ≠ cb ∧ cn.Caches a b) := by
  unfold Caches
  rw [h b]
  by_cases hb : b = cb
  · rw [if_pos hb, he.allocated, he.oblock]
    constructor
    · exact fun ha => Or.inl ⟨ha.2.symm, hb⟩
    · rintro (⟨ha, _⟩ | ⟨hne, _⟩)
      · exact ⟨rfl, ha.symm⟩
      · exact absurd hb hne
  · rw [if_neg hb]
    simp [hb]

theorem SetsSlot.migrating {cb : Cblock} {e : Entry} {d : Bool} (h : cn.SetsSlot cb e cn')
    (he : e.Holds o true d) : cn'.Migrating cb := by
  rw [Migrating, h cb, if_pos rfl]
  exact he.migrating

theorem SetsSlot.other {cb : Cblock} {e : Entry} (h : cn.SetsSlot cb e cn') (b : Cblock)
    (hb : b ≠ cb) : cn'.entry ⟨.cache, b⟩ = cn.entry ⟨.cache, b⟩ := by
  rw [h b, if_neg hb]

/-- Only the slot itself was rewritten before. -/
theorem SetsSlot.of_others {cn1 : CacheNucleus} {cb : Cblock} {e : Entry}
    (h : cn1.SetsSlot cb e cn')
    (hother : ∀ b, b ≠ cb → cn1.entry ⟨.cache, b⟩ = cn.entry ⟨.cache, b⟩) :
    cn.SetsSlot cb e cn' := by
  intro b
  rw [h b]
  by_cases hb : b = cb
  · rw [if_pos hb, if_pos hb]
  · rw [if_neg hb, if_neg hb, hother b hb]

/-- The effect of a request meets the contract. -/
theorem Effect.mapContract (h : cn.Effect o w cn' res) (hw : cn.Wf) :
    cn.MapContract o cn' res := by
  unfold MapContract
  cases h with
  | hit hop hc hs he =>
    rw [hop]
    refine ⟨hc, fun a b => ?_⟩
    rw [hs.caches_iff he]
    constructor
    · rintro (⟨rfl, rfl⟩ | ⟨_, hb⟩)
      · exact hc
      · exact hb
    · intro hb
      by_cases heq : b = res.cblock
      · subst heq
        exact Or.inl ⟨hb.2.symm.trans hc.2, rfl⟩
      · exact Or.inr ⟨heq, hb⟩
  | new hop hno hcb hfree hs he =>
    rw [hop]
    have hnone : ∀ a, ¬cn.Caches a res.cblock := by
      intro a ha
      rw [Caches, hfree] at ha
      cases ha.1
    refine ⟨hno, hcb, hnone, hs.migrating he, fun a b => ?_, hs.other⟩
    rw [hs.caches_iff he]
    constructor
    · exact Or.imp_right And.right
    · apply Or.imp_right
      intro hb
      refine ⟨?_, hb⟩
      rintro rfl
      exact hnone a hb
  | replace hop hno hold hset hdirty hs he =>
    rw [hop]
    have hone : ∀ b, cn.Caches res.oldOblock b → b = res.cblock := fun b hb =>
      Caches.unique hw hb hold
    have hpairs : ∀ a b, cn'.Caches a b ↔
        (a = o ∧ b = res.cblock) ∨ (a ≠ res.oldOblock ∧ cn.Caches a b) := by
      intro a b
      rw [hs.caches_iff he]
      apply or_congr_right
      constructor
      · intro ⟨hne, hb⟩
        refine ⟨?_, hb⟩
        rintro rfl
        exact hne (hone b hb)
      · intro ⟨hne, hb⟩
        refine ⟨?_, hb⟩
        rintro rfl
        exact hne (hb.2.symm.trans hold.2)
    refine ⟨hno, hold, ?_, ?_, hs.migrating he, hpairs, hs.other⟩
    · rw [Migrating, hset]
      decide
    · intro ⟨b, hb⟩
      rcases (hpairs _ _).mp hb with ⟨heq, _⟩ | ⟨hne, _⟩
      · exact hno ⟨_, heq ▸ hold⟩
      · exact hne rfl
  | pass hop hno hs =>
    rcases hop with hop | hop
    · rw [hop]
      exact ⟨hno, hs⟩
    · rw [hop]
      exact ⟨hno, hs⟩

end CacheNucleus

/-! ## Policies that keep the contract -/

/-- The calls a caller may make while the policy serves requests. -/
def contractCalls (cn : CacheNucleus) : Call → Prop
  | .map _ _ _ => True
  | .migrated o => cn.MayMigrate o
  | .insert o cb => cn.MayInsert o cb
  | .setTime _ => True
  | _ => False

namespace Policy

variable {σ : Type} {P : Policy σ} {I : σ → Prop} {s s0 : σ}

/-- Every request that returns hits exactly when its block is cached and keeps the
contract, and a request for a cached block returns. -/
def MeetsContract (P : Policy σ) (s : σ) : Prop :=
  ∀ o w result,
    (∀ s' res, P.map s o w result = .ok (s', res) →
      (res.op = .hit ↔ (P.nucleus s).Cached o) ∧
      (P.nucleus s).MapContract o (P.nucleus s') res) ∧
    ((P.nucleus s).Cached o → ∃ s' res, P.map s o w result = .ok (s', res))

/-- In the states of `I`, which the calls keep, the policy works on the slots of the cache
as the contract says. -/
structure Sound (P : Policy σ) (I : σ → Prop) : Prop where
  wf : ∀ {s}, I s → (P.nucleus s).Wf
  map : ∀ {s s' o w result res}, I s → P.map s o w result = .ok (s', res) →
    (P.nucleus s).Effect o w (P.nucleus s') res ∧ I s'
  map_cached : ∀ {s o} w result, I s → (P.nucleus s).Cached o →
    ∃ s' res, P.map s o w result = .ok (s', res)
  migrated : ∀ {s o cb}, I s → (P.nucleus s).Caches o cb → (P.nucleus s).Migrating cb →
    ∃ s' e, P.migrated s o = .ok s' ∧ I s' ∧ (P.nucleus s).SetsSlot cb e (P.nucleus s') ∧
      e.Holds o false ((P.nucleus s).entry ⟨.cache, cb⟩).dirty
  insert : ∀ {s o cb}, I s → (P.nucleus s).MayInsert o cb →
    ∃ s' e, P.insert s o cb = .ok s' ∧ I s' ∧ (P.nucleus s).SetsSlot cb e (P.nucleus s') ∧
      e.Holds o false false
  setTime : ∀ {s} time, I s → I (P.setTime s time)

theorem Sound.meetsContract (h : P.Sound I) (hs : I s) : P.MeetsContract s := by
  intro o w result
  refine ⟨fun s' res hmap => ?_, h.map_cached w result hs⟩
  have heff := (h.map hs hmap).1
  exact ⟨heff.hit_iff, heff.mapContract (h.wf hs)⟩

/-- The calls of the contract lead to states of the invariant only. -/
theorem Sound.reachable (h : P.Sound I) (h0 : I s0)
    (hs : (P.system fun s => contractCalls (P.nucleus s)).Reachable s0 s) : I s := by
  apply hs.invariant h0
  intro a call b x ha hg hcall
  cases call with
  | map o w result =>
    obtain ⟨res, _, hmap⟩ := call_map.mp hcall
    exact (h.map ha hmap).2
  | migrated o =>
    obtain ⟨cb, hc, hm⟩ := hg
    obtain ⟨s', e, hrun, hinv, _⟩ := h.migrated ha hc hm
    obtain ⟨s1, hrun', heq⟩ := map_eq_ok.mp hcall
    obtain rfl := Except.ok.inj (hrun.symm.trans hrun')
    exact (Prod.mk.inj heq).1 ▸ hinv
  | insert o cb =>
    obtain ⟨s', e, hrun, hinv, _⟩ := h.insert ha hg
    obtain ⟨s1, hrun', heq⟩ := map_eq_ok.mp hcall
    obtain rfl := Except.ok.inj (hrun.symm.trans hrun')
    exact (Prod.mk.inj heq).1 ▸ hinv
  | setTime time => exact (Prod.mk.inj (Except.ok.inj hcall)).1 ▸ h.setTime time ha
  | remove o keep => exact hg.elim
  | remap a b => exact hg.elim

end Policy

end Fomo
