import Fomo.Algs.LarcSteps

/-!
# The ghost target of LARC

The ghost target stays within a tenth and nine tenths of the metadata size, and the ghosts
within the upper bound. So no division faults and a new ghost always finds room, although
it is inserted before an old one is evicted.
-/
namespace Fomo

namespace LarcPolicy

variable {s s' : LarcPolicy} {r : EntryRef} {e : Entry} {o : Oblock} {m g : Nat}

/-- The invariant of LARC with `m` metadata entries. -/
structure Bounded (m : Nat) (s : LarcPolicy) : Prop where
  inv : s.Inv
  metaSize : s.nucleus.metaSize = m
  metaEntries : (s.nucleus.pool .metadata).nrEntries = m
  gSize_le : s.gSize ≤ 9 * m / 10
  le_gSize : 9 * m < 2 ^ 32 → m / 10 ≤ s.gSize
  ghosts : s.larcG.length ≤ 9 * m / 10

/-- The entries of the metadata pool are the ghosts in the queue. -/
theorem Inv.length_ghosts (h : s.Inv) :
    s.larcG.length = (s.nucleus.pool .metadata).nrAllocated := by
  apply h.wf.length_eq_nrAllocated (p := .metadata) (h.queued.nodup .metadata)
  intro r
  have := h.queued.mem .metadata r
  constructor
  · intro hr
    obtain ⟨ha, _, hp⟩ := this.mp hr
    exact ⟨hp, ha⟩
  · exact fun ⟨hp, ha⟩ => this.mpr ⟨ha, h.settled r hp, hp⟩

theorem Bounded.free_ne_nil (h : s.Bounded m) (hm : 10 ≤ m) :
    (s.nucleus.pool .metadata).free ≠ [] := by
  have h1 := h.inv.length_ghosts
  have h2 := (h.inv.wf.pools .metadata).nr_allocated
  have h3 := h.metaEntries
  have h4 := h.ghosts
  intro hf
  rw [hf, List.length_nil] at h2
  omega

theorem Bounded.metaSize_lt (h : s.Bounded m) : m < 2 ^ 32 := by
  have := (h.inv.wf.pools .metadata).nr_lt
  rwa [h.metaEntries] at this

/-- The target of a hit. -/
theorem larcDecreaseGSize_spec (hms : s.nucleus.metaSize = m) (hlt : m < 2 ^ 32) (hm : 0 < m)
    (hg : s.gSize ≤ 9 * m / 10) :
    ∃ g, larcDecreaseGSize s = .ok g ∧ g ≤ 9 * m / 10 ∧ m / 10 ≤ g := by
  have hsub : sub32 m s.gSize = m - s.gSize := sub32_of_le (by omega) hlt
  have hdiv : div32 m (m - s.gSize) = .ok (m / (m - s.gSize)) := div32_of_pos (by omega)
  simp only [larcDecreaseGSize, hms, hsub, hdiv, ok_bind]
  split
  · exact ⟨_, rfl, max_le (by omega) ((Nat.sub_le _ _).trans hg), le_max_left _ _⟩
  · exact ⟨_, rfl, by omega, le_refl _⟩

/-- The target of a miss, if it can be computed. -/
theorem larcIncreaseGSize_le (hms : s.nucleus.metaSize = m) (hg : larcIncreaseGSize s = .ok g) :
    g ≤ 9 * m / 10 := by
  obtain ⟨quot, _, hg⟩ := bind_eq_ok.mp hg
  obtain rfl := Except.ok.inj hg
  rw [hms]
  have := u32_le (9 * m)
  exact (min_le_left _ _).trans (Nat.div_le_div_right this)

theorem Bounded.decrease (h : s.Bounded m) (hm : 10 ≤ m) : ∃ g, larcDecreaseGSize s = .ok g ∧
    g ≤ 9 * m / 10 ∧ m / 10 ≤ g :=
  larcDecreaseGSize_spec h.metaSize h.metaSize_lt (by omega) h.gSize_le

theorem Bounded.le_increase (h : s.Bounded m) (hm : 10 ≤ m) (hm9 : 9 * m < 2 ^ 32)
    (hg : larcIncreaseGSize s = .ok g) : m / 10 ≤ g := by
  have hlow := h.le_gSize hm9
  have hup := h.gSize_le
  have hpos : 0 < s.gSize := by omega
  have hquot : m / s.gSize ≤ m := Nat.div_le_self m s.gSize
  simp only [larcIncreaseGSize, h.metaSize, div32_of_pos hpos, ok_bind, pure_eq_ok,
    Except.ok.injEq] at hg
  subst hg
  rw [u32_of_lt hm9, u32_of_lt (by omega)]
  exact le_min (by omega) (hlow.trans (Nat.le_add_right _ _))

/-- Without wrap-around the target of a miss can be computed. -/
theorem Bounded.increase (h : s.Bounded m) (hm : 10 ≤ m) (hm9 : 9 * m < 2 ^ 32) :
    ∃ g, larcIncreaseGSize s = .ok g := by
  have hlow := h.le_gSize hm9
  have hpos : 0 < s.gSize := by omega
  exact ⟨_, by simp only [larcIncreaseGSize, div32_of_pos hpos, ok_bind, pure_eq_ok]; rfl⟩

/-- The sizes are the same and no ghost is new. -/
structure Shrinks (s s' : LarcPolicy) : Prop where
  gSize : s'.gSize = s.gSize
  metaSize : s'.nucleus.metaSize = s.nucleus.metaSize
  nrEntries : ∀ p, (s'.nucleus.pool p).nrEntries = (s.nucleus.pool p).nrEntries
  ghosts : s'.larcG.length ≤ s.larcG.length

theorem Shrinks.trans {s1 s2 s3 : LarcPolicy} (h : Shrinks s1 s2) (h' : Shrinks s2 s3) :
    Shrinks s1 s3 :=
  ⟨h'.gSize.trans h.gSize, h'.metaSize.trans h.metaSize,
    fun p => (h'.nrEntries p).trans (h.nrEntries p), h'.ghosts.trans h.ghosts⟩

theorem Step.shrinks {free : List Nat} {q : PoolId → Queue} (hs : s.Step r e free q s')
    (hq : (q .metadata).length ≤ s.larcG.length) : Shrinks s s' := by
  refine ⟨hs.gSize, hs.rewrites.metaSize, hs.rewrites.nrEntries, ?_⟩
  show (s'.queue .metadata).length ≤ _
  rw [hs.queue]
  exact hq

theorem FreesAny.shrinks {x : Option EntryRef} (hs : s.FreesAny x s') : Shrinks s s' := by
  cases hs with
  | none => exact ⟨rfl, rfl, fun _ => rfl, le_refl _⟩
  | some ha hs => exact Step.shrinks hs List.length_erase_le

theorem Bounded.shrinks (h : s.Bounded m) (hs : Shrinks (s.aim g) s') (hinv : s'.Inv)
    (hle : g ≤ 9 * m / 10) (hge : 9 * m < 2 ^ 32 → m / 10 ≤ g) : s'.Bounded m where
  inv := hinv
  metaSize := hs.metaSize.trans h.metaSize
  metaEntries := (hs.nrEntries _).trans h.metaEntries
  gSize_le := hs.gSize.symm ▸ hle
  le_gSize := fun hm => hs.gSize.symm ▸ hge hm
  ghosts := hs.ghosts.trans h.ghosts

/-- A request keeps the bounds. -/
theorem Bounded.map (h : s.Bounded m) (hm : 10 ≤ m) {w : Bool} {result res : CacheNucleusResult}
    (hc : s.MapCase o w result (.ok (s', res))) : s'.Bounded m := by
  cases hc with
  | @hit r g s' hl hp hg hs =>
    obtain ⟨g', hg', hle, hge⟩ := h.decrease hm
    obtain rfl := Except.ok.inj (hg.symm.trans hg')
    refine h.shrinks (hs.shrinks ?_) hs.inv hle fun _ => hge
    unfold touchedQ
    split
    · exact le_refl _
    · rw [Function.update_of_ne (by rw [hp]; decide)]
      exact List.length_erase_le
  | @take victim g s1 s2 s' cb rest res hun hg hv evict forget free arrive hres =>
    have hs := (evict.shrinks.trans forget.shrinks).trans (arrive.shrinks (le_refl _))
    exact h.shrinks hs arrive.inv (larcIncreaseGSize_le h.metaSize hg)
      fun hm9 => h.le_increase hm hm9 hg
  | @filter i g rest s1 s2 habs hfull hg hf ghost trim =>
    have hle := larcIncreaseGSize_le h.metaSize hg
    have hlen : s1.larcG.length = s.larcG.length + 1 := by
      show (s1.queue .metadata).length = _
      rw [ghost.queue, Function.update_self, List.length_append]
      rfl
    have hghosts : s2.larcG.length ≤ 9 * m / 10 := by
      split at trim
      · next htrim =>
        -- one too many, and the head goes
        have hq : s1.queue .metadata = s.larcG ++ [⟨.metadata, i⟩] := by
          rw [ghost.queue, Function.update_self]
        rw [← hq] at trim
        cases hx : s1.queue .metadata with
        | nil =>
          rw [hx] at hq
          exact absurd hq (by simp)
        | cons v q =>
          rw [hx] at trim
          cases trim with
          | some ha hs =>
            have hlen2 : s2.larcG.length = q.length := by
              have hq2 : s2.queue .metadata = (s1.queue .metadata).erase v := by rw [hs.queue]
              show (s2.queue .metadata).length = _
              rw [hq2, hx, List.erase_cons_head]
            have hlen1 : s1.larcG.length = q.length + 1 := by
              show (s1.queue .metadata).length = _
              rw [hx]
              rfl
            have := h.ghosts
            omega
      · next htrim =>
        cases trim
        omega
    have hs := trim.shrinks
    refine ⟨(trim.inv ghost.inv).withTarget s2.gSize s2.nucleus.incIos.stats, ?_, ?_, ?_, ?_,
      hghosts⟩
    · exact (hs.metaSize.trans ghost.rewrites.metaSize).trans h.metaSize
    · exact ((hs.nrEntries _).trans (ghost.rewrites.nrEntries _)).trans h.metaEntries
    · show s2.gSize ≤ _
      rw [hs.gSize, ghost.gSize]
      exact hle
    · intro hm9
      show _ ≤ s2.gSize
      rw [hs.gSize, ghost.gSize]
      exact h.le_increase hm hm9 hg
  | refused hl hp hfull hg hq => exact h

/-- The other calls keep the target. -/
theorem Bounded.step (h : s.Bounded m) {free : List Nat} {q : PoolId → Queue}
    (hs : s.Step r e free q s') (hq : q .metadata = s.larcG) : s'.Bounded m :=
  h.shrinks (hs.shrinks (by rw [hq])) hs.inv h.gSize_le h.le_gSize

end LarcPolicy

/-! ## Initialisation -/

open LarcPolicy

def larcPools (c m : UInt32) : PoolId → Nat
  | .cache => c.toNat
  | .metadata => m.toNat

theorem larcPools_lt (c m : UInt32) (p : PoolId) : larcPools c m p < 2 ^ 32 := by
  cases p
  · exact c.toNat_lt
  · exact m.toNat_lt

theorem larcCreate_eq (c m : UInt32) : larcCreate c m = .ok
    { nucleus := freshNucleus c.toNat m.toNat (larcPools c m), larcQ := [], larcG := []
      gSize := m.toNat / 10 } := by
  rw [larcCreate, larcInit, policyInit_eq (n := larcPools c m) ?_ (larcPools_lt c m)]
  · rfl
  · intro p
    cases p <;> rfl

theorem larcCreate_bounded {c m : UInt32} {s : LarcPolicy} (h : larcCreate c m = .ok s) :
    s.Bounded m.toNat := by
  rw [larcCreate_eq] at h
  obtain rfl := Except.ok.inj h
  have hfree : ∀ r, ((freshNucleus c.toNat m.toNat (larcPools c m)).entry r).allocated = false :=
    fun _ => rfl
  refine ⟨⟨freshNucleus_wf (larcPools_lt c m), ⟨fun p => ?_, fun p r => ?_⟩, fun r _ => rfl⟩,
    rfl, rfl, ?_, fun _ => le_refl _, Nat.zero_le _⟩
  · cases p <;> exact List.nodup_nil
  · cases p <;> simp [LarcPolicy.queue, hfree]
  · show m.toNat / 10 ≤ 9 * m.toNat / 10
    omega

end Fomo
