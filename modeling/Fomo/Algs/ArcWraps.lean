import Fomo.Algs.ArcSync
import Fomo.Algs.MapContract

/-!
# ARC where the number of its blocks wraps

From `2 ^ 31` slots on, the sum of the four lengths may reach `2 ^ 32` and wrap to 0: ARC then
takes a full cache for one with room. Blocks requested twice fill `T2` and `B2` up to there.
-/
namespace Fomo

/-- Requests, completed migrations and preloads. -/
def preloadCalls (cn : CacheNucleus) : Call → Prop
  | .map _ _ _ => True
  | .migrated o => cn.MayMigrate o
  | .insert o cb => cn.MayInsert o cb
  | _ => False

theorem preloadCalls.arcCalls {s : ArcPolicy} {call : Call} (h : preloadCalls s.nucleus call) :
    arcCalls s call := by
  cases call with
  | map o w result => trivial
  | migrated o => exact h
  | insert o cb => exact h
  | remove o keep => exact h.elim
  | remap a b => exact h.elim
  | setTime t => exact h.elim

namespace ArcPolicy

variable {s s' s0 : ArcPolicy} {o old : Oblock} {at' : ArcTransaction} {l : ArcList} {c m n : Nat}
  {w : Bool} {result : CacheNucleusResult} {cb : Cblock}

/-- The blocks below `n` were requested twice each: `T2` and `B2` hold them, and nothing
migrates. -/
structure Frequent (c m n : Nat) (s : ArcPolicy) : Prop where
  synced : s.Synced c m
  t1 : s.oblocks .t1 = []
  b1 : s.oblocks .b1 = []
  size : (s.oblocks .t2).length + (s.oblocks .b2).length = n
  below : ∀ l, ∀ a ∈ s.oblocks l, a.toNat < n

theorem Frequent.lengths (h : s.Frequent c m n) :
    s.length .t1 = 0 ∧ s.length .b1 = 0 ∧ s.length .t2 + s.length .b2 = n := by
  have hlen := h.synced.length
  rw [← hlen, ← hlen, ← hlen, ← hlen, h.t1, h.b1]
  exact ⟨rfl, rfl, h.size⟩

/-- The sums of lengths that ARC compares. -/
theorem Frequent.sums (h : s.Frequent c m n) : u32 (s.length .t1 + s.length .b1) = 0 ∧
    u32 (u32 (s.length .t1 + s.length .b1) + u32 (s.length .t2 + s.length .b2)) = u32 n := by
  obtain ⟨h1, h2, h3⟩ := h.lengths
  have hzero : u32 (0 + 0) = 0 := rfl
  rw [h1, h2, h3, hzero, Nat.zero_add, u32_u32]
  exact ⟨rfl, rfl⟩

theorem Frequent.absent (h : s.Frequent c m n) (ho : n ≤ o.toNat) : s.nucleus.Absent o := by
  intro r ha hr
  have hmem : o ∈ s.oblocks (s.loc r) :=
    h.synced.bounded.inv.mem_oblocks.mpr
      ⟨r, h.synced.bounded.inv.wf.hashLookup_eq_some.mpr ⟨ha, hr⟩, h.synced.settled r, rfl⟩
  have hlt := h.below _ o hmem
  omega

/-- The cache fills before the first ghost is kept. -/
theorem Frequent.cached (h : s.Frequent c m n) :
    (n < c → s.length .t2 = n) ∧ (c ≤ n → s.length .t2 = c) := by
  obtain ⟨h1, h2, h3⟩ := h.lengths
  have hle := h.synced.bounded.cached_le
  have hgh := h.synced.bounded.ghosts
  omega

/-! ## One more block -/

/-- What ARC plans for a further block, as long as it counts below `2 ^ 32`: free room, then the
place of a block of `T2`. -/
structure Plans (c n : Nat) (at' : ArcTransaction) : Prop where
  metaEvict : at'.metaEvict = .null
  dest : at'.dest = .t1
  room : n < c → at'.cacheEvict = .null ∧ at'.ghostDest = .null
  full : c ≤ n → at'.cacheEvict = .t2 ∧ at'.ghostDest = .b2

theorem Frequent.plans (h : s.Frequent c m n) (hc : 2 ^ 31 ≤ c) (hn : n < 2 ^ 32)
    (habs : s.nucleus.Absent o) (hst : s.Staged o at') : Plans c n at' := by
  obtain ⟨h1, h2, h3⟩ := h.lengths
  have hsize := h.synced.bounded.cacheSize
  have hcm := h.synced.bounded.cacheEntries ▸ (h.synced.bounded.inv.wf.pools .cache).nr_lt
  have hnone := h.synced.bounded.inv.wf.hashLookup_eq_none.mpr habs
  obtain ⟨hl1, hsum⟩ := h.sums
  rw [u32_of_lt hn] at hsum
  cases hst with
  | hit hl hp => rw [hnone] at hl; cases hl
  | b1 hl hloc => rw [hnone] at hl; cases hl
  | b2 hl hloc => rw [hnone] at hl; cases hl
  | fullB1 habs hfull ht => omega
  | fullT1 habs hfull ht => omega
  | fullB2 habs hlt hge h2' =>
    -- twice the size wraps too, below the size
    rw [hsum, hsize] at h2'
    rw [hsum, hsize] at hge
    have : u32 (2 * c) = 2 * c - 2 ^ 32 := by
      rw [u32]
      omega
    omega
  | replace habs hlt hge h2' =>
    rw [hsum, hsize] at hge
    rcases arcReplace_cases s (arcTransactionInit s o) with ⟨hpos, _, _⟩ | ⟨_, heq⟩
    · omega
    · rw [heq]
      exact ⟨rfl, rfl, fun hx => absurd hge (by omega), fun _ => ⟨rfl, rfl⟩⟩
  | room habs hne hroom =>
    have hlt := hroom (by omega)
    rw [hsum, hsize] at hlt
    exact ⟨rfl, rfl, fun _ => ⟨rfl, rfl⟩, fun hx => absurd hlt (by omega)⟩

/-- The bounds after the block has come in. -/
theorem Frequent.missed (h : s.Frequent c m n) (hc : 2 ^ 31 ≤ c) (hn : n < 2 ^ 32)
    (habs : s.nucleus.Absent o) (hst : s.Staged o at') (hpl : Plans c n at')
    (hne : at'.cacheEvict ≠ .null → s.arcQ at'.cacheEvict ≠ [])
    (hmiss : s.Missed o w at' old cb s') : s'.Bounded c m := by
  obtain ⟨h1, h2, h3⟩ := h.lengths
  obtain ⟨hbelow, hfull⟩ := h.cached
  have hb := h.synced.bounded
  have hle := hb.cached_le
  have hlen : ∀ l, l ≠ .null →
      s'.length l + one at'.cacheEvict l = s.length l + one at'.ghostDest l + one .t1 l := by
    intro l hl
    have hx := hmiss.length hb.inv hne hl
    rw [ghostIn_of_absent hb.inv habs, hpl.metaEvict, hpl.dest] at hx
    have hnull : one .null l = 0 := if_neg (Ne.symm hl)
    omega
  have t1 := hlen .t1 (by decide)
  have t2 := hlen .t2 (by decide)
  have b1 := hlen .b1 (by decide)
  have b2 := hlen .b2 (by decide)
  have hsz := hmiss.sizes
  have hbounds : s'.length .t1 + s'.length .b1 = 1 ∧
      s'.length .t1 + s'.length .b1 + (s'.length .t2 + s'.length .b2) = n + 1 ∧
      (0 < s'.length .b1 + s'.length .b2 → s'.length .t1 + s'.length .t2 = c) := by
    rcases Nat.lt_or_ge n c with hlt | hge
    · obtain ⟨hce, hgd⟩ := hpl.room hlt
      rw [hce, hgd] at t1 t2 b1 b2
      have := hbelow hlt
      simp [one] at t1 t2 b1 b2
      omega
    · obtain ⟨hce, hgd⟩ := hpl.full hge
      rw [hce, hgd] at t1 t2 b1 b2
      have := hfull hge
      simp [one] at t1 t2 b1 b2
      omega
  obtain ⟨e1, e2, e3⟩ := hbounds
  exact ⟨hmiss.inv, hsz.cacheSize.trans hb.cacheSize, (hsz.nrEntries _).trans hb.cacheEntries,
    (hsz.nrEntries _).trans hb.metaEntries, by omega, by omega, hsz.p.symm ▸ hb.target hst, e3⟩

/-- The request for the next block is served. -/
theorem Frequent.miss (h : s.Frequent c m n) (hc : 2 ^ 31 ≤ c) (hcm : c ≤ m) (hn : n < 2 ^ 32)
    (habs : s.nucleus.Absent o) (w : Bool) (result : CacheNucleusResult) :
    ∃ at' s' res old cb, arcMapApi s o w result = .ok (s', res) ∧ s'.nucleus.MayMigrate o ∧
      Plans c n at' ∧ s'.Bounded c m ∧ s.Missed o w at' old cb s' ∧
      (at'.cacheEvict ≠ .null → old ∈ s.oblocks at'.cacheEvict) := by
  obtain ⟨h1, h2, h3⟩ := h.lengths
  obtain ⟨hbelow, hfull⟩ := h.cached
  have hb := h.synced.bounded
  have hnone := hb.inv.wf.hashLookup_eq_none.mpr habs
  have hcase := arcMapApi_case hb.inv o w result
  generalize hx : arcMapApi s o w result = x at hcase
  cases hcase with
  | hit hl hp hs => rw [hnone] at hl; cases hl
  | @miss at' s' cb res hst hpl hne hres hmiss =>
    have hplan := h.plans hc hn habs hst
    obtain ⟨⟨e, he, hslot⟩, _⟩ := hmiss.slot hb.inv hpl
    have hcb := (hslot cb).trans (if_pos rfl)
    refine ⟨at', s', _, _, cb, rfl, ⟨cb, ⟨?_, ?_⟩, ?_⟩, hplan,
      h.missed hc hn habs hst hplan hne hmiss, hmiss, fun hce => ?_⟩
    · exact hcb ▸ he.allocated
    · exact hcb ▸ he.oblock
    · exact (congrArg Entry.migrating hcb).trans he.migrating
    obtain ⟨v, q, hv⟩ := List.exists_cons_of_ne_nil (hne hce)
    rw [hres, hv, oblocks, hv]
    exact List.mem_cons_self
  | @refused at' hst hpl hce hq =>
    have hplan := h.plans hc hn habs hst
    rcases Nat.lt_or_ge n c with hlt | hge
    · exact absurd (hplan.room hlt).1 hce
    · rw [(hplan.full hge).1, hb.inv.queue_nil_iff h.synced.settled, hfull hge] at hq
      omega
  | @stuck at' f hst hpl hstuck =>
    have hplan := h.plans hc hn habs hst
    exfalso
    rcases hstuck with ⟨hm, _⟩ | ⟨hgd, _, _, hf⟩ | ⟨hce, hf⟩
    · exact hm hplan.metaEvict
    · -- the ghosts are fewer than the slots, so one is free
      have hghosts := hb.ghosts_eq hf
      rcases Nat.lt_or_ge n c with hlt | hge
      · exact hgd (hplan.room hlt).2
      · have := hfull hge
        omega
    · have hall := hb.cached_eq.mp hf
      rcases Nat.lt_or_ge n c with hlt | hge
      · omega
      · have := (hplan.full hge).1
        rw [hce] at this
        cases this

/-- A request for a cached block hits it. -/
theorem Synced.map_hit (h : s.Synced c m) (ho : o ∈ s.oblocks .t1) (w : Bool)
    (result : CacheNucleusResult) : ∃ s' res, arcMapApi s o w result = .ok (s', res) ∧
      s'.Synced c m ∧ (s'.reference, .hit) = s.reference.request c o := by
  obtain ⟨r, hl, _, hloc⟩ := h.bounded.inv.mem_oblocks.mp ho
  have ha := (h.bounded.inv.wf.hashLookup_eq_some.mp hl).1
  have hp : r.pool = .cache := by
    have := (h.bounded.inv.home r ha).2
    rw [hloc] at this
    exact this.symm
  have huncached : ∀ {at'}, ¬s.Planned o at' := by
    intro at' hpl
    have := hpl.uncached r hl
    rw [hp] at this
    cases this
  have hcase := arcMapApi_case h.bounded.inv o w result
  generalize hx : arcMapApi s o w result = x at hcase
  cases hcase with
  | @hit r' s' hl' hp' hs =>
    have ha' := (h.bounded.inv.wf.hashLookup_eq_some.mp hl').1
    obtain ⟨hsync, href⟩ := h.hit (h.bounded.hit ha' hp' hs ha') hl' hp' hs rfl rfl
    exact ⟨s', _, rfl, hsync, href⟩
  | miss hst hpl hne hres hmiss => exact absurd hpl huncached
  | refused hst hpl hce hq => exact absurd hpl huncached
  | stuck hst hpl hstuck => exact absurd hpl huncached

theorem Inv.oblocks_null (h : s.Inv) : s.oblocks .null = [] := by
  rw [oblocks, h.arcQ_null, List.map_nil]

/-- The next block comes in and settles. -/
theorem Frequent.arrived (h : s.Frequent c m n) (hc : 2 ^ 31 ≤ c) (hcm : c ≤ m)
    (hn : n < 2 ^ 32) (ho : o.toNat = n) : ∃ s1 s2 res,
      arcMapApi s o false {} = .ok (s1, res) ∧ s1.nucleus.MayMigrate o ∧
      arcMigratedApi s1 o = .ok s2 ∧ s2.Synced c m ∧ s2.oblocks .t1 = [o] ∧
      s2.oblocks .b1 = [] ∧ (s2.oblocks .t2).length + (s2.oblocks .b2).length = n ∧
      ∀ l, l ≠ .t1 → ∀ a ∈ s2.oblocks l, a.toNat < n := by
  have habs := h.absent ho.ge
  obtain ⟨at', s1, res, old, cb, hmap, hmay, hplan, hb1, hmiss, hold⟩ :=
    h.miss hc hcm hn habs false {}
  obtain ⟨s2, hmig, hsync, _, hq⟩ := h.synced.arrived hmiss hb1
  refine ⟨s1, s2, res, hmap, hmay, hmig, hsync, ?_⟩
  have hout := h.synced.bounded.inv.not_mem_oblocks habs
  have hsize := h.size
  have hlists : s2.oblocks .t1 = [o] ∧ s2.oblocks .b1 = [] ∧
      (s2.oblocks .t2 = s.oblocks .t2 ∧ s2.oblocks .b2 = s.oblocks .b2 ∨
        s2.oblocks .t2 = (s.oblocks .t2).tail ∧ s2.oblocks .b2 = s.oblocks .b2 ++ [old] ∧
          old ∈ s.oblocks .t2) := by
    rw [hq .t1 (by decide), hq .t2 (by decide), hq .b1 (by decide), hq .b2 (by decide),
      hplan.metaEvict, hplan.dest, h.t1, h.b1, List.erase_of_not_mem (hout .t2),
      List.erase_of_not_mem (hout .b2)]
    rcases Nat.lt_or_ge n c with hlt | hge
    · obtain ⟨hce, hgd⟩ := hplan.room hlt
      simp [hce, hgd, cut, only]
    · obtain ⟨hce, hgd⟩ := hplan.full hge
      have := hold (hce ▸ by decide)
      simp_all [cut, only]
  obtain ⟨ht1, hb1, hlists⟩ := hlists
  refine ⟨ht1, hb1, ?_, fun l hl a ha => ?_⟩
  · rcases hlists with ⟨ht2, hb2⟩ | ⟨ht2, hb2, hmem⟩
    · rw [ht2, hb2, hsize]
    · have := List.length_pos_of_mem hmem
      rw [ht2, hb2, List.length_tail, List.length_append, List.length_singleton]
      omega
  · cases l with
    | null =>
      rw [hsync.bounded.inv.oblocks_null] at ha
      cases ha
    | t1 => exact absurd rfl hl
    | b1 =>
      rw [hb1] at ha
      cases ha
    | t2 =>
      rcases hlists with ⟨ht2, _⟩ | ⟨ht2, _, _⟩
      · exact h.below .t2 a (ht2 ▸ ha)
      · exact h.below .t2 a (List.mem_of_mem_tail (ht2 ▸ ha))
    | b2 =>
      rcases hlists with ⟨_, hb2⟩ | ⟨_, hb2, hmem⟩
      · exact h.below .b2 a (hb2 ▸ ha)
      · rw [hb2] at ha
        rcases List.mem_append.mp ha with ha | ha
        · exact h.below .b2 a ha
        · exact List.mem_singleton.mp ha ▸ h.below .t2 old hmem

/-- Requested again, it joins the others. -/
theorem Frequent.again (h : s.Synced c m) (ht1 : s.oblocks .t1 = [o]) (hb1 : s.oblocks .b1 = [])
    (hsize : (s.oblocks .t2).length + (s.oblocks .b2).length = n) (ho : o.toNat = n)
    (hbelow : ∀ l, l ≠ .t1 → ∀ a ∈ s.oblocks l, a.toNat < n) :
    ∃ s' res, arcMapApi s o false {} = .ok (s', res) ∧ s'.Frequent c m (n + 1) := by
  have hmem : o ∈ s.oblocks .t1 := ht1 ▸ List.mem_singleton_self o
  obtain ⟨s', res, hrun, hsync, href⟩ := h.map_hit hmem false {}
  refine ⟨s', res, hrun, ?_⟩
  have hmem' : o ∈ s.reference.t1 := hmem
  rw [Lib.Arc.request, if_pos (Or.inl hmem')] at href
  have href := (Prod.mk.inj href).1
  have ht1' : s'.oblocks .t1 = (s.oblocks .t1).erase o := congrArg Lib.Arc.t1 href
  have ht2' : s'.oblocks .t2 = (s.oblocks .t2).erase o ++ [o] := congrArg Lib.Arc.t2 href
  have hb1' : s'.oblocks .b1 = s.oblocks .b1 := congrArg Lib.Arc.b1 href
  have hb2' : s'.oblocks .b2 = s.oblocks .b2 := congrArg Lib.Arc.b2 href
  rw [ht1, List.erase_cons_head] at ht1'
  rw [List.erase_of_not_mem fun hx => absurd (hbelow .t2 (by decide) o hx) (by omega)] at ht2'
  refine ⟨hsync, ht1', hb1'.trans hb1, ?_, fun l a ha => ?_⟩
  · rw [ht2', hb2', List.length_append, List.length_singleton]
    omega
  · cases l with
    | null =>
      rw [hsync.bounded.inv.oblocks_null] at ha
      cases ha
    | t1 =>
      rw [ht1'] at ha
      cases ha
    | t2 =>
      rw [ht2'] at ha
      rcases List.mem_append.mp ha with ha | ha
      · exact (hbelow .t2 (by decide) a ha).trans (Nat.lt_succ_self n)
      · rw [List.mem_singleton.mp ha, ho]
        exact Nat.lt_succ_self n
    | b1 => exact (hbelow .b1 (by decide) a (hb1' ▸ ha)).trans (Nat.lt_succ_self n)
    | b2 => exact (hbelow .b2 (by decide) a (hb2' ▸ ha)).trans (Nat.lt_succ_self n)

/-- `n` blocks, each requested twice. -/
theorem Frequent.reachable {c m : UInt32} (hinit : arcCreate c m = .ok s0)
    (hc : 2 ^ 31 ≤ c.toNat) (hcm : c ≤ m) (hn : n ≤ 2 ^ 32) : ∃ s,
      (arcApi.system fun s => preloadCalls s.nucleus).Reachable s0 s ∧
      s.Frequent c.toNat m.toNat n := by
  induction n with
  | zero =>
    obtain ⟨hsync, href⟩ := Synced.of_create hinit
    have hnil : ∀ l, s0.oblocks l = [] := by
      intro l
      rw [arcCreate_eq] at hinit
      obtain rfl := Except.ok.inj hinit
      rfl
    refine ⟨s0, Lib.System.Reachable.refl _ _, hsync, hnil _, hnil _, ?_, fun l a ha => ?_⟩
    · rw [hnil, hnil]
      rfl
    · rw [hnil] at ha
      cases ha
  | succ n ih =>
    obtain ⟨s, hs, h⟩ := ih (by omega)
    have ho : (UInt64.ofNat n).toNat = n := by
      rw [UInt64.toNat_ofNat', Nat.mod_eq_of_lt (by omega)]
    generalize UInt64.ofNat n = o at ho
    obtain ⟨s1, s2, res, hmap, hmay, hmig, hsync, ht1, hb1, hsize, hbelow⟩ :=
      h.arrived hc hcm (by omega) ho
    obtain ⟨s3, res3, hagain, h3⟩ := Frequent.again hsync ht1 hb1 hsize ho hbelow
    have hmap' : arcApi.call s (.map o false {}) = .ok (s1, some res) :=
      map_eq_ok.mpr ⟨_, hmap, rfl⟩
    have hmig' : arcApi.call s1 (.migrated o) = .ok (s2, none) := map_eq_ok.mpr ⟨_, hmig, rfl⟩
    have hagain' : arcApi.call s2 (.map o false {}) = .ok (s3, some res3) :=
      map_eq_ok.mpr ⟨_, hagain, rfl⟩
    have hs1 := hs.step (S := arcApi.system fun s => preloadCalls s.nucleus)
      (e := .map o false {}) trivial hmap'
    have hs2 := hs1.step (S := arcApi.system fun s => preloadCalls s.nucleus)
      (e := .migrated o) hmay hmig'
    exact ⟨s3, hs2.step (S := arcApi.system fun s => preloadCalls s.nucleus)
      (e := .map o false {}) trivial hagain', h3⟩

/-! ## One too many -/

/-- With `2 ^ 32` blocks in its lists ARC plans to take a free slot for another one. -/
theorem Frequent.staged (h : s.Frequent c m (2 ^ 32)) (hc : 2 ^ 31 ≤ c)
    (habs : s.nucleus.Absent o) (hst : s.Staged o at') :
    at'.cacheEvict = .null ∧ (s.nucleus.pool .cache).free = [] := by
  obtain ⟨h1, h2, h3⟩ := h.lengths
  have hb := h.synced.bounded
  have hsize := hb.cacheSize
  have hcm := hb.cacheEntries ▸ (hb.inv.wf.pools .cache).nr_lt
  have hnone := hb.inv.wf.hashLookup_eq_none.mpr habs
  have hfull : (s.nucleus.pool .cache).free = [] := by
    rw [hb.cached_eq, h.cached.2 hcm.le, h1, Nat.zero_add]
  obtain ⟨hl1, hsum⟩ := h.sums
  have hwrap : u32 (2 ^ 32) = 0 := rfl
  refine ⟨?_, hfull⟩
  cases hst with
  | hit hl hp => rw [hnone] at hl; cases hl
  | b1 hl hloc => rw [hnone] at hl; cases hl
  | b2 hl hloc => rw [hnone] at hl; cases hl
  | fullB1 habs hfull ht => omega
  | fullT1 habs hfull ht => omega
  | fullB2 habs hlt hge h2' => omega
  | replace habs hlt hge h2' => omega
  | room habs hne hroom => rfl

/-- The request for it does not return. -/
theorem Frequent.stuck (h : s.Frequent c m (2 ^ 32)) (hc : 2 ^ 31 ≤ c)
    (habs : s.nucleus.Absent o) (w : Bool) (result : CacheNucleusResult) :
    ∃ f, arcMapApi s o w result = .error f := by
  have hinv := h.synced.bounded.inv
  have hnone := hinv.wf.hashLookup_eq_none.mpr habs
  have hcase := arcMapApi_case hinv o w result
  generalize hx : arcMapApi s o w result = x at hcase
  cases hcase with
  | hit hl hp hs => rw [hnone] at hl; cases hl
  | @miss at' s' cb res hst hpl hne hres hmiss =>
    -- the free slot that the plan counts on
    obtain ⟨hce, hf⟩ := h.staged hc habs hst
    obtain ⟨_, hfree, _⟩ := hmiss.slot hinv hpl
    obtain ⟨rest, hrest⟩ := hfree (by rw [hce, hinv.arcQ_null]; rfl)
    rw [hf] at hrest
    cases hrest
  | refused hst hpl hce hq => exact absurd (h.staged hc habs hst).1 hce
  | stuck hst hpl hstuck => exact ⟨_, rfl⟩

end ArcPolicy

end Fomo
