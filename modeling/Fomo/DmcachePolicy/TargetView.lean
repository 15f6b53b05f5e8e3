import Fomo.DmcachePolicy.Locates
import Fomo.Lib.Placement
import Mathlib.Data.Finset.Card

/-!
# What dm-cache knows (`dmcache_policy/dmcache_base.h`)

dm-cache moves the data, so it keeps a table of its own: the block that each cblock holds. It
changes the table only by what the calls answer. Over any policy that reports its moves, the
table is that of the policy after every run, and each answer fits the table it is given on.
-/
namespace Fomo

open Lib

variable {σ : Type} {P : Policy σ} {I : σ → Prop} {wraps : Bool}

/-- The block that each cblock holds. -/
abbrev Mapping := Placement Oblock Cblock

/-- A block that came in is at the cblock of the answer, where the old one was. -/
def Mapping.afterMap (m : Mapping) (o : Oblock) (result : PolicyResult) : Mapping :=
  match result.op with
  | .new | .replace => m.put result.cblock o
  | _ => m

/-- What dm-cache makes of an answer. -/
def Mapping.after (m : Mapping) : DmcacheCall → DmcacheAnswer → Mapping
  | .map o _ _ _ _, .mapped result _ => m.afterMap o result
  | .loadMapping o cb, _ => m.put cb o
  | .removeMapping o, _ => m.take o
  | .removeCblock cb, _ => m.clear cb
  | .forceMapping a b, _ => (m.take b).rename a b
  | _, _ => m

/-- The table that follows from the calls and their answers. -/
def mappingAfter (t : List (DmcacheCall × DmcacheAnswer)) : Mapping :=
  t.foldl (fun m x => m.after x.1 x.2) fun _ => none

/-- `o` is in the cache, as far as dm-cache knows. -/
def Mapping.Holds (m : Mapping) (o : Oblock) : Prop := ∃ cb, m cb = some o

/-- The answer to a request for `o` fits the table. -/
def Mapping.FitsMap (m : Mapping) (o : Oblock) (result : PolicyResult) (r : Errno) : Prop :=
  match result.op with
  | .hit => r = .ok ∧ m result.cblock = some o
  | .new => r = .ok ∧ ¬m.Holds o ∧ m result.cblock = none
  | .replace => r = .ok ∧ ¬m.Holds o ∧ m result.cblock = some result.oldOblock
  | .miss => r = .ewouldblock ∧ ¬m.Holds o

/-- The answer fits the table on which it is given. -/
def Mapping.Fits (m : Mapping) : DmcacheCall → DmcacheAnswer → Prop
  | .map o _ _ _ _, .mapped result r => m.FitsMap o result r
  | .lookup o cb, .located found r =>
    found = cb ∧ (r = .ok ↔ m.Holds o) ∧ (r = .enoent ↔ ¬m.Holds o)
  | .removeCblock _, .code r => r = .ok
  | .residency, .size n => ∃ used : Finset Cblock, (∀ cb, cb ∈ used ↔ m cb ≠ none) ∧ n = used.card
  | _, _ => True

variable (P) in
/-- dm-cache loads mappings for new oblocks into free slots, and it removes cblocks in use. -/
def mappedCalls (dmcb : DmcacheBase σ) : DmcacheCall → Prop
  | .removeCblock cb => ∃ o, (P.owner dmcb.policy).Caches o cb
  | c => targetCalls P dmcb c

theorem mappedCalls_target {d : DmcacheBase σ} {c : DmcacheCall} (hg : mappedCalls P d c) :
    targetCalls P d c := by
  cases c with
  | removeCblock cb => trivial
  | _ => exact hg

/-- A policy that reports every move of a block. -/
structure Policy.Reports (P : Policy σ) (I : σ → Prop) (wraps : Bool) : Prop where
  locates : P.Locates I wraps
  owner_setOwner : ∀ s cn, P.owner (P.setOwner s cn) = cn
  wf : ∀ {s}, I s → (P.owner s).Wf
  cblockLookup : ∀ s cb, P.cblockLookup s cb = defaultCblockLookup (P.owner s) cb
  residency : ∀ s, P.residency s = defaultResidency (P.owner s)
  map : ∀ {s s' o result res}, I s → P.map s o false result = .ok (s', res) →
    ((res.op = .filter ∨ res.op = .fail) ∧ (P.owner s).SameCache (P.owner s')) ∨
      (P.owner s).Effect o false (P.owner s') res
  migrated : ∀ {s s' o}, I s → P.migrated s o = .ok s' →
    ∀ a cb, (P.owner s').Caches a cb ↔ (P.owner s).Caches a cb
  insert : ∀ {s o cb}, I s → (P.owner s).MayInsert o cb → ∃ s' e free,
    P.insert s o cb = .ok s' ∧ (P.owner s).Rewrites ⟨.cache, cb⟩ e free (P.owner s') ∧
      e.Holds o false false
  remove : ∀ {s s' o}, I s → P.remove s o false = .ok s' → (P.owner s').Absent o ∧
    ∀ a cb, (P.owner s').Caches a cb ↔ a ≠ o ∧ (P.owner s).Caches a cb
  remap : ∀ {s s' a b}, I s → (P.owner s).Absent b → P.remap s a b = .ok s' → ∀ x cb,
    (P.owner s').Caches x cb ↔ (x = b ∧ (P.owner s).Caches a cb) ∨
      (x ≠ a ∧ (P.owner s).Caches x cb)

variable (P) in
/-- The table is that of the policy. -/
def DmcacheBase.Mapped (d : DmcacheBase σ) (m : Mapping) : Prop :=
  m.Describes (P.owner d.policy).Caches

variable {d d' : DmcacheBase σ} {m : Mapping} {o : Oblock} {cb : Cblock} {s : σ}
  {cn cn' : CacheNucleus} {bpResult res : CacheNucleusResult} {result : PolicyResult} {r : Errno}

/-! ## Marks and time -/

theorem CacheNucleus.caches_withMarks (cn : CacheNucleus) (dirty : EntryRef → Bool)
    (wb : WritebackTracker) (a : Oblock) (cb : Cblock) :
    (cn.withMarks dirty wb).Caches a cb ↔ cn.Caches a cb := Iff.rfl

theorem Marking.caches {f : CacheNucleus → CacheNucleus} (hf : Marking f) (cn : CacheNucleus)
    (a : Oblock) (cb : Cblock) : (f cn).Caches a cb ↔ cn.Caches a cb := by
  obtain ⟨dirty, wb, heq⟩ := hf cn
  rw [heq]
  exact cn.caches_withMarks dirty wb a cb

namespace Policy.Reports

/-- What dmcache_base marks does not move a block. -/
theorem onOwner (h : P.Reports I wraps) (hd : d.Mapped P m) {f : CacheNucleus → CacheNucleus}
    (hf : Marking f) : (d.onOwner P f).Mapped P m := by
  refine Placement.Describes.congr hd fun a b => ?_
  show (P.owner (P.setOwner d.policy (f (P.owner d.policy)))).Caches a b ↔ _
  rw [h.owner_setOwner]
  exact hf.caches _ a b

theorem holds_iff (hd : d.Mapped P m) : m.Holds o ↔ (P.owner d.policy).Cached o :=
  exists_congr fun cb => hd o cb

/-- A lookup finds the blocks of the table. -/
theorem lookup_iff (h : P.Reports I wraps) (hi : I d.policy) (hd : d.Mapped P m) :
    (P.cacheLookup d.policy o).isSome = true ↔ m.Holds o := by
  rw [holds_iff hd]
  constructor
  · intro hsome
    obtain ⟨e, he⟩ := Option.isSome_iff_exists.mp hsome
    obtain ⟨hp, hc⟩ := (h.locates.lookup hi).mp he
    obtain ⟨p, i⟩ := e
    obtain rfl : p = .cache := hp
    exact ⟨i, hc⟩
  · intro hc
    obtain ⟨e, he⟩ := h.locates.lookup_cached hi hc
    rw [he]
    rfl

/-! ## Requests -/

/-- A request that was filtered or refused was for a block that is not in the cache. -/
theorem missed (h : P.Reports I wraps) (hi : I d.policy) (hd : d.Mapped P m)
    (hmap : P.map d.policy o false bpResult = .ok (s, res))
    (hop : res.op = .filter ∨ res.op = .fail) : ¬m.Holds o := by
  intro hm
  obtain ⟨cb, hc⟩ := (holds_iff hd).mp hm
  rw [(h.locates.hits hi hc hmap).1] at hop
  rcases hop with hop | hop
  · cases hop
  · cases hop

theorem policyResult_miss (hop : res.op = .filter ∨ res.op = .fail) :
    (policyResult res).op = .miss := by
  rcases hop with hop | hop
  · rw [policyResult, hop]
    rfl
  · rw [policyResult, hop]
    rfl

/-- What a request does to the table, and how its answer fits it. -/
theorem map_step (h : P.Reports I wraps) (hi : I d.policy) (hd : d.Mapped P m)
    (hmap : P.map d.policy o false bpResult = .ok (s, res)) :
    m.FitsMap o (policyResult res)
      (if res.op = .filter ∨ res.op = .fail then .ewouldblock else .ok) ∧
    ({ d with policy := s } : DmcacheBase σ).Mapped P (m.afterMap o (policyResult res)) := by
  have hpass : (res.op = .filter ∨ res.op = .fail) → (P.owner d.policy).SameCache (P.owner s) →
      m.FitsMap o (policyResult res)
        (if res.op = .filter ∨ res.op = .fail then .ewouldblock else .ok) ∧
      ({ d with policy := s } : DmcacheBase σ).Mapped P (m.afterMap o (policyResult res)) := by
    intro hop hs
    rw [if_pos hop, Mapping.FitsMap, Mapping.afterMap, policyResult_miss hop]
    refine ⟨⟨rfl, h.missed hi hd hmap hop⟩, Placement.Describes.congr hd fun a b => ?_⟩
    show (P.owner s).Caches a b ↔ _
    rw [CacheNucleus.Caches, hs b]
    rfl
  rcases h.map hi hmap with ⟨hop, hs⟩ | heff
  · exact hpass hop hs
  · cases heff with
    | @hit e hop hc hs he =>
      have hpol : (policyResult res).op = .hit := by rw [policyResult, hop]; rfl
      rw [Mapping.FitsMap, Mapping.afterMap, hpol, if_neg (by rw [hop]; decide)]
      refine ⟨⟨rfl, (hd o res.cblock).mpr hc⟩, Placement.Describes.congr hd fun a b => ?_⟩
      refine (hs.caches_iff he a b).trans ⟨?_, fun hb => ?_⟩
      · rintro (⟨rfl, rfl⟩ | ⟨_, hb⟩)
        · exact hc
        · exact hb
      · by_cases heq : b = res.cblock
        · subst heq
          exact Or.inl ⟨hb.2.symm.trans hc.2, rfl⟩
        · exact Or.inr ⟨heq, hb⟩
    | @new e hop hno hcb hfree hs he =>
      have hpol : (policyResult res).op = .new := by rw [policyResult, hop]; rfl
      rw [Mapping.FitsMap, Mapping.afterMap, hpol, if_neg (by rw [hop]; decide)]
      refine ⟨⟨rfl, (holds_iff hd).not.mpr hno, hd.eq_none.mpr fun a hc => ?_⟩,
        Placement.Describes.put hd (hs.caches_iff he)⟩
      rw [CacheNucleus.Caches, show (policyResult res).cblock = res.cblock from rfl, hfree] at hc
      cases hc.1
    | @replace e hop hno hold hset hdirty hs he =>
      have hpol : (policyResult res).op = .replace := by rw [policyResult, hop]; rfl
      rw [Mapping.FitsMap, Mapping.afterMap, hpol, if_neg (by rw [hop]; decide)]
      exact ⟨⟨rfl, (holds_iff hd).not.mpr hno, (hd _ _).mpr hold⟩,
        Placement.Describes.put hd (hs.caches_iff he)⟩
    | pass hop hno hs => exact hpass hop hs

theorem ask_step (h : P.Reports I wraps) (hi : I d.policy) (hd : d.Mapped P m)
    (hrun : dmcacheBaseAsk P d o bpResult = .ok (d', res)) :
    m.FitsMap o (policyResult res)
      (if res.op = .filter ∨ res.op = .fail then .ewouldblock else .ok) ∧
    d'.Mapped P (m.afterMap o (policyResult res)) := by
  obtain ⟨⟨s, res1⟩, hmap, hrun⟩ := bind_eq_ok.mp hrun
  obtain ⟨hfits, hmapped⟩ := h.map_step hi hd hmap
  dsimp only at hrun
  split at hrun
  · obtain ⟨e, _, hrun⟩ := bind_eq_ok.mp hrun
    obtain ⟨rfl, rfl⟩ := Prod.mk.inj (Except.ok.inj hrun)
    refine ⟨hfits, h.onOwner ?_ (marking_wbPushCache e)⟩
    split
    · exact h.onOwner hmapped (marking_wbRemove e)
    · exact hmapped
  · obtain ⟨rfl, rfl⟩ := Prod.mk.inj (Except.ok.inj hrun)
    exact ⟨hfits, hmapped⟩

/-- The map work hands the answer of the policy on, or answers a hit or a miss without it. -/
theorem mapWork_step (h : P.Reports I wraps) (hi : I d.policy) (hd : d.Mapped P m)
    {canMigrate : Bool} (hop : bpResult.op = .fail)
    (hrun : dmcacheBaseMapWork P d o canMigrate bpResult = .ok (d', res, r)) :
    m.FitsMap o (policyResult res)
      (if res.op = .filter ∨ res.op = .fail then .ewouldblock else r) ∧
    d'.Mapped P (m.afterMap o (policyResult res)) := by
  unfold dmcacheBaseMapWork at hrun
  split at hrun
  · next e hl =>
    split at hrun
    · -- the hit is answered without the policy
      obtain ⟨cblock, hinfer, hrun⟩ := bind_eq_ok.mp hrun
      obtain ⟨rfl, hx⟩ := Prod.mk.inj (Except.ok.inj hrun)
      obtain ⟨rfl, rfl⟩ := Prod.mk.inj hx
      obtain ⟨hp, hc⟩ := (h.locates.lookup hi).mp hl
      obtain ⟨p, i⟩ := e
      obtain rfl : p = .cache := hp
      have hc : (P.owner d.policy).Caches o i := hc
      have hloc := h.locates.infer hi hc
      have heq : cblock = i := by
        cases wraps with
        | false => exact Except.ok.inj (hinfer.symm.trans hloc)
        | true => cases hinfer.symm.trans hloc
      exact ⟨⟨rfl, (hd o cblock).mpr (heq ▸ hc)⟩, hd⟩
    · obtain ⟨⟨d1, res1⟩, hask, hrun⟩ := bind_eq_ok.mp hrun
      obtain ⟨rfl, hx⟩ := Prod.mk.inj (Except.ok.inj hrun)
      obtain ⟨rfl, rfl⟩ := Prod.mk.inj hx
      exact h.ask_step hi hd hask
  · next hl =>
    split at hrun
    · obtain ⟨⟨d1, res1⟩, hask, hrun⟩ := bind_eq_ok.mp hrun
      obtain ⟨rfl, hx⟩ := Prod.mk.inj (Except.ok.inj hrun)
      obtain ⟨rfl, rfl⟩ := Prod.mk.inj hx
      exact h.ask_step hi hd hask
    · obtain ⟨rfl, hx⟩ := Prod.mk.inj (Except.ok.inj hrun)
      obtain ⟨rfl, rfl⟩ := Prod.mk.inj hx
      have hnone : ¬m.Holds o := by
        rw [← h.lookup_iff hi hd, hl]
        decide
      rw [Mapping.FitsMap, Mapping.afterMap, policyResult_miss (Or.inr hop), if_pos (Or.inr hop)]
      exact ⟨⟨rfl, hnone⟩, hd⟩

/-! ## The other calls -/

theorem mark_step (h : P.Reports I wraps) (hlock : d.lock = false) (hd : d.Mapped P m)
    {dirty : Bool} (hrun : dmcacheBaseMark P d o dirty = .ok d') : d'.Mapped P m := by
  rw [dmcacheBaseMark, mutexLock_free hlock, ok_bind] at hrun
  dsimp only at hrun
  split at hrun
  · cases hrun
  · next e _ =>
    rw [← Except.ok.inj hrun]
    exact h.onOwner (d := { d with lock := true }) hd (marking_wbMark e dirty)

/-- A policy that removed `o` no longer holds it, wherever it was. -/
theorem remove_mapped (h : P.Reports I wraps) (hi : I d.policy) (hd : d.Mapped P m)
    (hrun : P.remove d.policy o false = .ok s) :
    ({ d with policy := s } : DmcacheBase σ).Mapped P (m.take o) :=
  Placement.Describes.take hd (h.remove hi hrun).2

theorem removeMapping_step (h : P.Reports I wraps) (hlock : d.lock = false) (hi : I d.policy)
    (hd : d.Mapped P m) (hrun : dmcacheBaseRemoveMapping P d o = .ok d') :
    d'.Mapped P (m.take o) := by
  rw [dmcacheBaseRemoveMapping, mutexLock_free hlock, ok_bind] at hrun
  dsimp only at hrun
  split at hrun
  · cases hrun
  · next e _ =>
    obtain ⟨s, hrem, hrun⟩ := bind_eq_ok.mp hrun
    rw [← Except.ok.inj hrun]
    have hi1 := h.locates.onOwner (d := { d with lock := true }) hi (marking_wbRemove e)
    exact h.remove_mapped hi1 (h.onOwner (d := { d with lock := true }) hd (marking_wbRemove e))
      hrem

/-- The entry of a cblock in use is the one that the table has there. -/
theorem removeCblock_step (h : P.Reports I wraps) (hlock : d.lock = false) (hi : I d.policy)
    (hd : d.Mapped P m) (hc : (P.owner d.policy).Caches o cb)
    (hrun : dmcacheBaseRemoveCblock P d cb = .ok (d', r)) : r = .ok ∧ d'.Mapped P (m.clear cb) := by
  have hwf := h.wf hi
  have hat : P.cblockLookup d.policy cb = some ⟨.cache, cb⟩ := by
    have hlt : cb < ((P.owner d.policy).pool .cache).nrEntries := hwf.lt_of_allocated hc.1
    rw [h.cblockLookup, defaultCblockLookup, epoolAt_zero (hwf.start .cache)
      (hwf.pools .cache).nr_lt hlt]
    rfl
  have hob : (P.entryAt d.policy ⟨.cache, cb⟩).oblock = o := by
    rw [h.locates.entryAt]
    exact hc.2
  simp only [dmcacheBaseRemoveCblock, mutexLock_free hlock, ok_bind, hat, hob] at hrun
  obtain ⟨s, hrem, hrun⟩ := bind_eq_ok.mp hrun
  obtain ⟨rfl, rfl⟩ := Prod.mk.inj (Except.ok.inj hrun)
  refine ⟨rfl, h.onOwner (d := { d with lock := true, policy := s }) ?_
    (marking_wbRemove ⟨.cache, cb⟩)⟩
  refine Placement.Describes.clear hd fun x y => ?_
  rw [(h.remove hi hrem).2]
  refine and_congr_left fun hx => not_congr ?_
  constructor
  · rintro rfl
    exact hx.unique hwf hc
  · rintro rfl
    exact hx.2.symm.trans hc.2

theorem forceMapping_step (h : P.Reports I wraps) (hlock : d.lock = false) (hi : I d.policy)
    (hd : d.Mapped P m) {a b : Oblock} (hrun : dmcacheBaseForceMapping P d a b = .ok d') :
    d'.Mapped P ((m.take b).rename a b) := by
  rw [dmcacheBaseForceMapping, mutexLock_free hlock, ok_bind] at hrun
  obtain ⟨s1, hrem, hrun⟩ := bind_eq_ok.mp hrun
  obtain ⟨s2, hremap, hrun⟩ := bind_eq_ok.mp hrun
  dsimp only at hrun
  split at hrun
  · cases hrun
  · next e _ =>
    rw [← Except.ok.inj hrun]
    have h1 := h.remove_mapped (d := { d with lock := true }) hi hd hrem
    exact h.onOwner (d := { d with lock := true, policy := s2 }) (Placement.Describes.rename h1
      (h.remap (h.locates.remove hi hrem) (h.remove hi hrem).1 hremap)) (marking_wbMark e true)

theorem writebackWork_step (h : P.Reports I wraps) (hlock : d.lock = false) (hd : d.Mapped P m)
    {o' : Oblock} {cb' : Cblock} (hrun : dmcacheBaseWritebackWork P d o cb = .ok (d', o', cb', r)) :
    d'.Mapped P m := by
  rw [dmcacheBaseWritebackWork, mutexLock_free hlock, ok_bind] at hrun
  dsimp only at hrun
  split at hrun
  · obtain ⟨rfl, _⟩ := Prod.mk.inj (Except.ok.inj hrun)
    exact hd
  · next e cn hpop =>
    obtain ⟨cblock, _, hrun⟩ := bind_eq_ok.mp hrun
    obtain ⟨rfl, _⟩ := Prod.mk.inj (Except.ok.inj hrun)
    obtain ⟨x, _, hx⟩ := Option.map_eq_some_iff.mp hpop
    obtain ⟨_, rfl⟩ := Prod.mk.inj hx
    refine h.onOwner (d := ({ d with lock := true } : DmcacheBase σ).onOwner P fun _ => _) ?_
      ((marking_setEntry e false).comp (marking_wbPushCache e))
    refine Placement.Describes.congr hd fun a b => ?_
    show (P.owner (P.setOwner d.policy _)).Caches a b ↔ _
    rw [h.owner_setOwner]
    rfl

/-- The slots in use are as many as the residency says. -/
theorem residency_fits (h : P.Reports I wraps) (hi : I d.policy) (hd : d.Mapped P m) :
    ∃ used : Finset Cblock, (∀ cb, cb ∈ used ↔ m cb ≠ none) ∧
      P.residency d.policy = used.card := by
  have hwf := h.wf hi
  have hpool := hwf.pools .cache
  let used : Finset Cblock := (Finset.range ((P.owner d.policy).pool .cache).nrEntries).filter
    fun cb => ((P.owner d.policy).entry ⟨.cache, cb⟩).allocated = true
  have hmem : ∀ cb, cb ∈ used ↔ ((P.owner d.policy).entry ⟨.cache, cb⟩).allocated = true := by
    intro cb
    rw [Finset.mem_filter, Finset.mem_range]
    exact and_iff_right_of_imp fun ha => hwf.lt_of_allocated ha
  refine ⟨used, fun cb => ?_, ?_⟩
  · rw [hmem, ne_eq, hd.eq_none]
    constructor
    · exact fun ha hno => hno _ ⟨ha, rfl⟩
    · intro hno
      by_contra ha
      exact hno fun a hc => ha hc.1
  · have hlen := hpool.length_eq_nrAllocated used.nodup_toList fun i => by
      rw [Finset.mem_toList, hmem]
      rfl
    rw [h.residency, defaultResidency, ← hlen, Finset.length_toList]

/-- Every call answers as the table lets dm-cache expect, and dm-cache keeps the table. -/
theorem call_step (h : P.Reports I wraps) (hd : d.Ready I) (hm : d.Mapped P m) {c : DmcacheCall}
    {w : DmcacheAnswer} (hg : mappedCalls P d c) (hcall : dmcacheBaseCall P d c = .ok (d', w)) :
    m.Fits c w ∧ d'.Mapped P (m.after c w) := by
  cases c with
  | map o canBlock canMigrate bpResult result =>
    obtain ⟨y, hrun, heq⟩ := map_eq_ok.mp hcall
    rw [dmcacheBaseMap_eq hd.lock] at hrun
    obtain ⟨⟨d1, res, r⟩, hwork, rfl⟩ := map_eq_ok.mp hrun
    obtain ⟨rfl, rfl⟩ := Prod.mk.inj heq
    have hi := h.locates.setTime d.tickProtected hd.policy
    have hm1 : (copyTick P { d with lock := true }).Mapped P m := by
      refine Placement.Describes.congr hm fun a b => ?_
      show (P.owner (P.setTime d.policy d.tickProtected)).Caches a b ↔ _
      rw [h.locates.owner_setTime]
      rfl
    obtain ⟨hfits, hmapped⟩ := h.mapWork_step hi hm1 rfl hwork
    exact ⟨hfits, hmapped⟩
  | lookup o cb =>
    rw [dmcacheBaseCall, dmcacheBaseLookup_eq hd.lock] at hcall
    obtain ⟨rfl, rfl⟩ := Prod.mk.inj (Except.ok.inj hcall)
    have hl := h.lookup_iff (o := o) hd.policy hm
    refine ⟨⟨rfl, ?_, ?_⟩, hm⟩
    · rw [← hl]
      split
      · next hs => simp [hs]
      · next hs => simp [hs]
    · rw [← hl]
      split
      · next hs => simp [hs]
      · next hs => simp [hs]
  | setDirty o =>
    obtain ⟨y, hrun, heq⟩ := map_eq_ok.mp hcall
    obtain ⟨rfl, rfl⟩ := Prod.mk.inj heq
    exact ⟨trivial, h.mark_step hd.lock hm hrun⟩
  | clearDirty o =>
    obtain ⟨y, hrun, heq⟩ := map_eq_ok.mp hcall
    obtain ⟨rfl, rfl⟩ := Prod.mk.inj heq
    exact ⟨trivial, h.mark_step hd.lock hm hrun⟩
  | loadMapping o cb =>
    obtain ⟨y, hrun, heq⟩ := map_eq_ok.mp hcall
    obtain ⟨s, hins, hrun⟩ := bind_eq_ok.mp hrun
    rw [← Except.ok.inj hrun] at heq
    obtain ⟨rfl, rfl⟩ := Prod.mk.inj heq
    obtain ⟨s1, e, free, hins1, hrw, he⟩ := h.insert hd.policy hg
    obtain rfl := Except.ok.inj (hins.symm.trans hins1)
    exact ⟨trivial, Placement.Describes.put hm (hrw.setsSlot.caches_iff he)⟩
  | removeMapping o =>
    obtain ⟨y, hrun, heq⟩ := map_eq_ok.mp hcall
    obtain ⟨rfl, rfl⟩ := Prod.mk.inj heq
    exact ⟨trivial, h.removeMapping_step hd.lock hd.policy hm hrun⟩
  | removeCblock cb =>
    obtain ⟨⟨d1, r⟩, hrun, heq⟩ := map_eq_ok.mp hcall
    obtain ⟨rfl, rfl⟩ := Prod.mk.inj heq
    obtain ⟨o, hc⟩ := hg
    exact h.removeCblock_step hd.lock hd.policy hm hc hrun
  | writebackWork o cb =>
    rw [dmcacheBaseCall] at hcall
    split at hcall
    · obtain ⟨⟨d1, o', cb', r⟩, hrun, heq⟩ := map_eq_ok.mp hcall
      obtain ⟨rfl, rfl⟩ := Prod.mk.inj heq
      exact ⟨trivial, h.writebackWork_step hd.lock hm hrun⟩
    · cases hcall
  | forceMapping a b =>
    obtain ⟨y, hrun, heq⟩ := map_eq_ok.mp hcall
    obtain ⟨rfl, rfl⟩ := Prod.mk.inj heq
    exact ⟨trivial, h.forceMapping_step hd.lock hd.policy hm hrun⟩
  | residency =>
    rw [dmcacheBaseCall, dmcacheBaseResidency_eq hd.lock] at hcall
    obtain ⟨rfl, rfl⟩ := Prod.mk.inj (Except.ok.inj hcall)
    exact ⟨h.residency_fits hd.policy hm, hm⟩
  | tick =>
    obtain ⟨rfl, rfl⟩ := Prod.mk.inj (Except.ok.inj hcall)
    exact ⟨trivial, hm⟩
  | setConfigValue key value =>
    obtain ⟨heq, rfl⟩ := Prod.mk.inj (Except.ok.inj hcall)
    have heq : (dmcacheBaseSetConfigValue d key value).1 = d' := heq
    have hkeep : (dmcacheBaseSetConfigValue d key value).1.policy = d.policy ∧ _ :=
      dmcacheBaseSetConfigValue_policy key value
    obtain ⟨hpolicy, _⟩ := heq ▸ hkeep
    refine ⟨trivial, ?_⟩
    show m.Describes (P.owner d'.policy).Caches
    rw [hpolicy]
    exact hm
  | ioComplete o =>
    obtain ⟨y, hrun, heq⟩ := map_eq_ok.mp hcall
    rw [dmcacheBaseIoComplete, mutexLock_free hd.lock, ok_bind] at hrun
    obtain ⟨s, hmig, hrun⟩ := bind_eq_ok.mp hrun
    rw [← Except.ok.inj hrun] at heq
    obtain ⟨rfl, rfl⟩ := Prod.mk.inj heq
    exact ⟨trivial, Placement.Describes.congr hm (h.migrated hd.policy hmig)⟩

/-- A run keeps the table, and all its answers fit. -/
theorem run (h : P.Reports I wraps) {d0 : DmcacheBase σ}
    {t : List (DmcacheCall × DmcacheAnswer)} (h0 : d0.Ready I)
    (hm0 : d0.Mapped P fun _ => none)
    (hrun : (dmcacheSystem P (mappedCalls P)).Run d0 t d) :
    d.Ready I ∧ d.Mapped P (mappingAfter t) ∧
      ∀ t1 c w t2, t = t1 ++ (c, w) :: t2 → (mappingAfter t1).Fits c w := by
  refine hrun.history (J := fun t d => d.Ready I ∧ d.Mapped P (mappingAfter t) ∧
    ∀ t1 c w t2, t = t1 ++ (c, w) :: t2 → (mappingAfter t1).Fits c w)
    ⟨h0, hm0, fun t1 c w t2 heq => by simp at heq⟩ ?_
  intro t a c b w ht hg hstep
  obtain ⟨hready, hmapped, hfits⟩ := ht
  obtain ⟨hfit, hmapped'⟩ := h.call_step hready hmapped hg hstep
  refine ⟨h.locates.call hready (mappedCalls_target hg) hstep, ?_, fun t1 c1 w1 t2 heq => ?_⟩
  · rw [mappingAfter, List.foldl_concat]
    exact hmapped'
  · rcases List.eq_nil_or_concat t2 with rfl | ⟨t2, x, rfl⟩
    · obtain ⟨rfl, hx⟩ := List.append_inj' heq rfl
      obtain ⟨rfl, rfl⟩ := Prod.mk.inj (List.cons.inj hx).1
      exact hfit
    · rw [List.concat_eq_append, ← List.cons_append, ← List.append_assoc] at heq
      exact hfits t1 c1 w1 t2 (List.append_inj' heq rfl).1

end Policy.Reports

end Fomo
