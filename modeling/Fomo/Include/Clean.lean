import Fomo.Include.Api
import Fomo.Include.NucleusSpec
import Fomo.Lib.View

/-!
# States without their dirty bits

A policy reads the dirty bit of an entry only to report it. The functions of the nucleus do on
a state whose dirty bits are cleared what they do on the state itself.
-/
namespace Fomo

open Lib

def Entry.clean (e : Entry) : Entry := { e with dirty := false }

def EntryPool.clean (ep : EntryPool) : EntryPool :=
  { ep with entries := fun i => (ep.entries i).clean }

def CacheNucleus.clean (cn : CacheNucleus) : CacheNucleus :=
  { cn with pool := fun p => (cn.pool p).clean }

def CacheNucleusResult.clean (result : CacheNucleusResult) : CacheNucleusResult :=
  { result with dirtyEviction := false }

/-! ## Pools -/

section

variable {ep : EntryPool} {i : Nat} {e : Entry}

theorem update_clean (g : Nat → Entry) (i : Nat) (e : Entry) :
    (fun j => (Function.update g i e j).clean) =
      Function.update (fun j => (g j).clean) i e.clean :=
  funext fun j => Function.apply_update (fun _ => Entry.clean) g i e j

theorem EntryPool.clean_set (ep : EntryPool) (i : Nat) (e : Entry) :
    (ep.set i e).clean = ep.clean.set i e.clean := by
  simp only [EntryPool.clean, EntryPool.set, update_clean]

theorem EntryPool.Wf.clean (h : ep.Wf) : ep.clean.Wf :=
  ⟨h.nr_lt, h.free_nodup, h.mem_free, h.lt_of_allocated, h.migrating_nodup, h.mem_migrating,
    h.allocated_of_migrating, h.nr_allocated, h.nr_migrating⟩

theorem allocThisEntry_clean : allocThisEntry ep.clean i = (allocThisEntry ep i).clean := by
  simp only [allocThisEntry, EntryPool.clean, EntryPool.set, update_clean]
  rfl

theorem allocEntry_clean :
    allocEntry ep.clean = (allocEntry ep).map fun x => (x.1.clean, x.2) := by
  unfold allocEntry
  have hfree : ep.clean.free = ep.free := rfl
  rw [hfree]
  cases ep.free with
  | nil => rfl
  | cons j rest => simp [allocThisEntry_clean]

theorem freeEntry_viewed : Viewed EntryPool.clean (freeEntry ep i) (freeEntry ep.clean i) := by
  unfold freeEntry
  refine (Viewed.same _).bind fun _ => ?_
  dsimp only
  refine Viewed.ite (Viewed.pure ?_) (Viewed.pure ?_)
  · simp only [EntryPool.clean, EntryPool.set, update_clean]
    rfl
  · simp only [EntryPool.clean, EntryPool.set, update_clean]
    rfl

theorem migratingEntry_viewed :
    Viewed EntryPool.clean (migratingEntry ep i) (migratingEntry ep.clean i) := by
  unfold migratingEntry
  refine (Viewed.same _).bind fun _ => (Viewed.same _).bind fun _ => Viewed.pure ?_
  simp only [EntryPool.clean, EntryPool.set, update_clean]
  rfl

theorem migratedEntry_viewed :
    Viewed EntryPool.clean (migratedEntry ep i) (migratedEntry ep.clean i) := by
  unfold migratedEntry
  refine (Viewed.same _).bind fun _ => (Viewed.same _).bind fun _ => ?_
  refine (Viewed.same _).bind fun _ => Viewed.pure ?_
  simp only [EntryPool.clean, EntryPool.set, update_clean]
  rfl

end

/-! ## The nucleus -/

section

variable {cn : CacheNucleus} {r : EntryRef} {o : Oblock} {p : PoolId} {result : CacheNucleusResult}

@[simp] theorem clean_entry (cn : CacheNucleus) (r : EntryRef) :
    cn.clean.entry r = (cn.entry r).clean := rfl

theorem clean_setPool (cn : CacheNucleus) (p : PoolId) (ep : EntryPool) :
    (cn.setPool p ep).clean = cn.clean.setPool p ep.clean := by
  simp only [CacheNucleus.clean, CacheNucleus.setPool]
  congr 1
  exact funext fun q => Function.apply_update (fun _ => EntryPool.clean) cn.pool p ep q

@[simp] theorem hashLookup_clean (cn : CacheNucleus) (o : Oblock) :
    hashLookup cn.clean o = hashLookup cn o := rfl

@[simp] theorem cacheIsFull_clean (cn : CacheNucleus) : cacheIsFull cn.clean = cacheIsFull cn := rfl

theorem hashRemove_viewed :
    Viewed CacheNucleus.clean (hashRemove cn r) (hashRemove cn.clean r) :=
  Viewed.ite (Viewed.ok rfl) (Viewed.error _ _)

theorem allocPoolEntry_viewed : Viewed (fun x => (x.1.clean, x.2)) (allocPoolEntry cn p o)
    (allocPoolEntry cn.clean p o) := by
  unfold allocPoolEntry
  rw [show allocEntry (cn.clean.pool p) = _ from allocEntry_clean]
  cases allocEntry (cn.pool p) with
  | none => exact Viewed.error _ _
  | some x =>
    obtain ⟨ep, i⟩ := x
    refine Viewed.ok (Prod.ext ?_ rfl)
    show hashInsert (cn.clean.setPool p _) _ = (hashInsert (cn.setPool p _) _).clean
    have hset : ep.clean.set i { ep.clean.entries i with oblock := o, dirty := false } =
        (ep.set i { ep.entries i with oblock := o, dirty := false }).clean :=
      (EntryPool.clean_set ep i { ep.entries i with oblock := o, dirty := false }).symm
    rw [hset, ← clean_setPool]
    rfl

theorem insertInCache_viewed : Viewed (fun x => (x.1.clean, x.2.1, x.2.2.clean))
    (insertInCache cn o result) (insertInCache cn.clean o result.clean) :=
  allocPoolEntry_viewed.bind fun _ => Viewed.pure rfl

theorem cacheNucleusRemove_viewed (cn : CacheNucleus) (r : EntryRef) :
    Viewed CacheNucleus.clean (cacheNucleusRemove cn r) (cacheNucleusRemove cn.clean r) :=
  hashRemove_viewed.bind fun _ => freeEntry_viewed.bind fun _ =>
    Viewed.pure (clean_setPool _ _ _).symm

theorem migratingCacheEntry_viewed :
    Viewed CacheNucleus.clean (migratingCacheEntry cn r) (migratingCacheEntry cn.clean r) :=
  (Viewed.same _).bind fun _ => migratingEntry_viewed.bind fun _ =>
    Viewed.pure (clean_setPool _ _ _).symm

theorem migratedCacheEntry_viewed {e : Option EntryRef} : Viewed (fun x => (x.1.clean, x.2))
    (migratedCacheEntry cn e) (migratedCacheEntry cn.clean e) := by
  cases e with
  | none => exact Viewed.error _ _
  | some r =>
    refine (Viewed.same _).bind fun _ => migratedEntry_viewed.bind fun _ => ?_
    exact Viewed.pure (Prod.ext (clean_setPool _ _ _).symm rfl)

/-- A read leaves the bits clear whatever the request wrote. -/
theorem dirtyWork_clean (cn : CacheNucleus) (o : Oblock) (w : Bool) :
    dirtyWork cn.clean o false = (dirtyWork cn o w).clean := by
  unfold dirtyWork
  rw [hashLookup_clean]
  cases hashLookup cn o with
  | none => rfl
  | some r =>
    dsimp only
    split
    · rw [CacheNucleus.setEntry, CacheNucleus.setEntry, clean_setPool, EntryPool.clean_set]
      rfl
    · rfl

theorem CacheNucleus.Wf.clean (h : cn.Wf) : cn.clean.Wf :=
  ⟨fun p => (h.pools p).clean, h.start, h.ht_nodup, h.mem_ht, h.inj⟩

end

/-! ## Policies -/

/-- The view of what a map returns. -/
def cleanAnswer {σ : Type} (clean : σ → σ) (x : σ × CacheNucleusResult) : σ × CacheNucleusResult :=
  (clean x.1, x.2.clean)

/-- From the states of `I`, the policy reads the dirty bits that `clean` clears only to report
them, and a request that it refuses changes nothing. -/
structure Policy.Blind {σ : Type} (P : Policy σ) (I : σ → Prop) (clean : σ → σ) : Prop where
  map : ∀ {s o w result}, I s →
    Viewed (cleanAnswer clean) (P.map s o w result) (P.map (clean s) o false result.clean)
  map_op : ∀ {s o w result op}, P.map s o w { result with op := op } = P.map s o w result
  migrated : ∀ {s o}, Viewed clean (P.migrated s o) (P.migrated (clean s) o)
  nextVictim : ∀ {s o t op victim}, P.nextVictim s o = .ok (t, op, victim) → t = s ∧
    (op = .fail → ∀ w result, P.map s o w result = .ok (s, { result with op := .fail }))

end Fomo
