import Fomo.Algs.DirtyBits
import Fomo.Algs.Prediction
import Fomo.Wrapper.PolicyRegistry
import Fomo.Lib.Window

/-!
# What FOMO passes on while it inserts

While its state is `INSERT`, FOMO hands every request to the internal policy as a read. The
internal policy is then where it would be alone, but for the dirty bits, and answers as it would
alone, but for the dirty evictions.
-/
namespace Fomo

open Lib FomoPolicy

/-- The entry that `next_victim` names is the one that a replacement evicts. -/
def Policy.NamesVictim {σ : Type} (P : Policy σ) (s : σ) (o : Oblock) : Prop :=
  ∀ w result s' res, P.map s o w result = .ok (s', res) →
    (res.op = .replace ↔ ∃ t e, P.nextVictim s o = .ok (t, .replace, some e)) ∧
    ∀ t e, P.nextVictim s o = .ok (t, .replace, some e) →
      (P.entryAt s e).oblock = res.oldOblock

variable {σ : Type} {P : Policy σ} {clean : σ → σ} {I : σ → Prop} {s s' s0 : σ}
  {f f' f0 : FomoPolicy σ} {q : Oblock × Bool} {qs : List (Oblock × Bool)}
  {res : CacheNucleusResult} {rs : List CacheNucleusResult}
  {t : List (Call × Option CacheNucleusResult)}

/-! ## One request -/

/-- A request that leaves FOMO inserting asks the internal policy for a read. -/
theorem fomoMap_inserting (hb : P.Blind I clean) {o : Oblock} {w : Bool}
    (hf : f.internal = clean s) (hmap : fomoMap P f o w {} = .ok (f', res))
    (hst : f'.state = .insert) : P.map (clean s) o false {} = .ok (f'.internal, res) := by
  cases fomoMap_answered hmap with
  | filtered hfilter hstate hi =>
    rw [hst, hfilter.2.2] at hstate
    cases hstate
  | refused hfilter hv hstate hres =>
    rw [hf] at hv
    obtain ⟨hi, hmap⟩ := hb.nextVictim hv
    rw [hi, hres]
    exact hmap rfl false {}
  | admitted hfilter hv hop hm hstate =>
    rw [hf] at hv
    obtain ⟨rfl, _⟩ := hb.nextVictim hv
    rw [hb.map_op] at hm
    exact hm

/-- The internal policy alone does what FOMO made it do, and keeps the dirty bits. -/
theorem fomoRequest_inserting (hb : P.Blind I clean) (hi : I s) (hf : f.internal = clean s)
    (hreq : (fomoApi P).request f q = .ok (f', res)) (hst : f'.state = .insert) :
    ∃ s' res', P.request s q = .ok (s', res') ∧ res = res'.clean ∧ f'.internal = clean s' := by
  obtain ⟨⟨f1, res1⟩, hmap, hreq⟩ := bind_eq_ok.mp hreq
  dsimp only at hreq
  have hmap : fomoMap P f q.1 q.2 {} = .ok (f1, res1) := hmap
  have hview : Viewed (cleanAnswer clean) (P.map s q.1 q.2 {}) (P.map (clean s) q.1 false {}) :=
    hb.map hi
  by_cases hop : res1.op = .new ∨ res1.op = .replace
  · rw [if_pos hop] at hreq
    obtain ⟨f2, hmig, hreq⟩ := bind_eq_ok.mp hreq
    obtain ⟨rfl, rfl⟩ := Prod.mk.inj (Except.ok.inj hreq)
    obtain ⟨i, hmig1, heq⟩ := bind_eq_ok.mp hmig
    obtain rfl := Except.ok.inj heq
    obtain ⟨⟨s1, res'⟩, hrun, heq⟩ := hview.eq_ok (fomoMap_inserting hb hf hmap hst)
    obtain ⟨hi1, rfl⟩ := Prod.mk.inj heq
    rw [← hi1] at hmig1
    obtain ⟨s2, hmig2, heq2⟩ := hb.migrated.eq_ok hmig1
    have hop' : res'.op = .new ∨ res'.op = .replace := hop
    refine ⟨s2, res', ?_, rfl, heq2.symm⟩
    simp only [Policy.request, hrun, ok_bind, if_pos hop', hmig2, pure_eq_ok]
  · rw [if_neg hop] at hreq
    obtain ⟨rfl, rfl⟩ := Prod.mk.inj (Except.ok.inj hreq)
    obtain ⟨⟨s1, res'⟩, hrun, heq⟩ := hview.eq_ok (fomoMap_inserting hb hf hmap hst)
    obtain ⟨hi1, rfl⟩ := Prod.mk.inj heq
    have hop' : ¬(res'.op = .new ∨ res'.op = .replace) := hop
    refine ⟨s1, res', ?_, rfl, hi1.symm⟩
    simp only [Policy.request, hrun, ok_bind, if_neg hop', pure_eq_ok]

/-- What a request and its completion leave the dirty bits to tell. -/
theorem Policy.Serves.request (hs : P.Serves I) (hi : I s) (ht : (P.nucleus s).Tells t)
    (hreq : P.request s q = .ok (s', res)) :
    I s' ∧ (P.nucleus s').Tells (t ++ [(.map q.1 q.2 {}, some res)]) := by
  obtain ⟨⟨s1, res1⟩, hmap, hreq⟩ := bind_eq_ok.mp hreq
  dsimp only at hreq
  obtain ⟨heff, hi1⟩ := hs.map hi hmap
  have ht1 : (P.nucleus s1).Tells (t ++ [(.map q.1 q.2 {}, some res1)]) :=
    heff.tells (hs.wf hi) ht
  by_cases hop : res1.op = .new ∨ res1.op = .replace
  · rw [if_pos hop] at hreq
    obtain ⟨s2, hmig, hreq⟩ := bind_eq_ok.mp hreq
    obtain ⟨rfl, rfl⟩ := Prod.mk.inj (Except.ok.inj hreq)
    obtain ⟨cb, hc, hm⟩ := (heff.mayMigrate (hs.wf hi)).mpr (Or.inr ⟨rfl, hop⟩)
    obtain ⟨hi2, e, hslot, he⟩ := hs.migrated hi1 hc hm hmig
    have hserved : (P.nucleus s1).Served (P.nucleus s2) (.migrated q.1) none :=
      .migrated hc hm hslot he
    exact ⟨hi2, fun a b hb =>
      (hserved.tells (hs.wf hi1) ht1 a b hb).trans written_migrated⟩
  · rw [if_neg hop] at hreq
    obtain ⟨rfl, rfl⟩ := Prod.mk.inj (Except.ok.inj hreq)
    exact ⟨hi1, ht1⟩

/-- A replacement reports whether the block of the entry it evicts was written. -/
theorem Policy.Serves.request_replaces (hs : P.Serves I) (hi : I s) (ht : (P.nucleus s).Tells t)
    (hn : P.NamesVictim s q.1) (hreq : P.request s q = .ok (s', res)) :
    (res.op = .replace → res.dirtyEviction = false) ↔
      ∀ s'' e, P.nextVictim s q.1 = .ok (s'', .replace, some e) →
        ¬Written t (P.entryAt s e).oblock := by
  obtain ⟨⟨s1, res1⟩, hmap, hreq⟩ := bind_eq_ok.mp hreq
  have hres : res1 = res := by
    dsimp only at hreq
    split at hreq
    · obtain ⟨s2, _, hreq⟩ := bind_eq_ok.mp hreq
      exact (Prod.mk.inj (Except.ok.inj hreq)).2
    · exact (Prod.mk.inj (Except.ok.inj hreq)).2
  subst hres
  obtain ⟨hiff, hold⟩ := hn _ _ _ _ hmap
  have hdirty := (hs.map hi hmap).1.dirtyEviction ht
  constructor
  · intro hclean s'' e hv hw
    have hop := hiff.mpr ⟨s'', e, hv⟩
    rw [hold s'' e hv, ← hdirty hop, hclean hop] at hw
    cases hw
  · intro hspares hop
    obtain ⟨s'', e, hv⟩ := hiff.mp hop
    have hno := hspares s'' e hv
    rw [hold s'' e hv, ← hdirty hop] at hno
    exact Bool.eq_false_iff.mpr hno

/-! ## A sequence of requests -/

/-- The requests with their answers, as calls. -/
def requestLog (qs : List (Oblock × Bool)) (rs : List CacheNucleusResult) :
    List (Call × Option CacheNucleusResult) :=
  (qs.zip rs).map fun x => (.map x.1.1 x.1.2 {}, some x.2)

/-- The state of FOMO is `INSERT` after every one of the requests. -/
def KeepsInserting (P : Policy σ) (f0 : FomoPolicy σ) (qs : List (Oblock × Bool)) : Prop :=
  ∀ qs1 qs2 f rs, qs = qs1 ++ qs2 → (fomoApi P).requests f0 qs1 = .ok (f, rs) → f.state = .insert

/-- After the calls `t`, the policy is never about to evict a block that was written since it
came in. -/
def SparesWritten (P : Policy σ) (t : List (Call × Option CacheNucleusResult)) (s0 : σ)
    (qs : List (Oblock × Bool)) : Prop :=
  ∀ qs1 q qs2 s rs s' e, qs = qs1 ++ q :: qs2 → P.requests s0 qs1 = .ok (s, rs) →
    P.nextVictim s q.1 = .ok (s', .replace, some e) →
    ¬Written (t ++ requestLog qs1 rs) (P.entryAt s e).oblock

theorem requests_cons_eq_ok {s2 : σ} {rs' : List CacheNucleusResult} :
    P.requests s (q :: qs) = .ok (s2, rs') ↔ ∃ s1 res rs, P.request s q = .ok (s1, res) ∧
      P.requests s1 qs = .ok (s2, rs) ∧ rs' = res :: rs := by
  rw [Policy.requests]
  constructor
  · intro hrun
    obtain ⟨⟨s1, res⟩, hreq, hrun⟩ := bind_eq_ok.mp hrun
    obtain ⟨⟨s3, rs⟩, hreqs, hrun⟩ := bind_eq_ok.mp hrun
    obtain ⟨rfl, rfl⟩ := Prod.mk.inj (Except.ok.inj hrun)
    exact ⟨s1, res, rs, hreq, hreqs, rfl⟩
  · rintro ⟨s1, res, rs, hreq, hreqs, rfl⟩
    simp only [hreq, ok_bind, hreqs, pure_eq_ok]

/-- The simulation, request by request. -/
theorem fomoRequests_inserting (hb : P.Blind I clean) (hs : P.Serves I) (hi : I s)
    (ht : (P.nucleus s).Tells t) (hf : f.internal = clean s) (hkeep : KeepsInserting P f qs)
    (hrun : (fomoApi P).requests f qs = .ok (f', rs)) :
    ∃ s' rs', P.requests s qs = .ok (s', rs') ∧ rs = rs'.map CacheNucleusResult.clean := by
  induction qs generalizing s f t rs with
  | nil =>
    obtain ⟨_, rfl⟩ := Prod.mk.inj (Except.ok.inj hrun)
    exact ⟨s, [], rfl, rfl⟩
  | cons q qs ih =>
    obtain ⟨f1, res, rs1, hreq, hreqs, rfl⟩ := requests_cons_eq_ok.mp hrun
    have hone : (fomoApi P).requests f [q] = .ok (f1, [res]) :=
      requests_cons_eq_ok.mpr ⟨f1, res, [], hreq, rfl, rfl⟩
    have hst := hkeep [q] qs f1 [res] rfl hone
    obtain ⟨s1, res', hreq', rfl, hf1⟩ := fomoRequest_inserting hb hi hf hreq hst
    obtain ⟨hi1, ht1⟩ := hs.request hi ht hreq'
    have hkeep1 : KeepsInserting P f1 qs := fun qs1 qs2 f2 rs2 hqs hrun2 =>
      hkeep (q :: qs1) qs2 f2 (res'.clean :: rs2) (by rw [hqs]; rfl)
        (requests_cons_eq_ok.mpr ⟨f1, _, rs2, hreq, hrun2, rfl⟩)
    obtain ⟨s', rs', hreqs', rfl⟩ := ih hi1 ht1 hf1 hkeep1 hreqs
    exact ⟨s', res' :: rs', requests_cons_eq_ok.mpr ⟨s1, res', rs', hreq', hreqs', rfl⟩, rfl⟩

theorem requestLog_cons : t ++ requestLog (q :: qs) (res :: rs) =
    (t ++ [(.map q.1 q.2 {}, some res)]) ++ requestLog qs rs := by
  simp [requestLog]

theorem sparesWritten_cons {s1 : σ} (hreq : P.request s q = .ok (s1, res)) :
    SparesWritten P t s (q :: qs) ↔
      (∀ s' e, P.nextVictim s q.1 = .ok (s', .replace, some e) →
        ¬Written t (P.entryAt s e).oblock) ∧
      SparesWritten P (t ++ [(.map q.1 q.2 {}, some res)]) s1 qs := by
  constructor
  · intro h
    refine ⟨fun s' e hv hw => ?_, fun qs1 q' qs2 s2 rs2 s' e hqs hrun hv hw => ?_⟩
    · exact h [] q qs s [] s' e rfl rfl hv (by simpa [requestLog] using hw)
    · refine h (q :: qs1) q' qs2 s2 (res :: rs2) s' e (by rw [hqs]; rfl) ?_ hv ?_
      · exact requests_cons_eq_ok.mpr ⟨s1, res, rs2, hreq, hrun, rfl⟩
      · rw [requestLog_cons]
        exact hw
  · rintro ⟨hfirst, hrest⟩ qs1 q' qs2 s2 rs2 s' e hqs hrun hv
    cases qs1 with
    | nil =>
      obtain ⟨rfl, rfl⟩ := List.cons.inj hqs
      obtain ⟨rfl, rfl⟩ := Prod.mk.inj (Except.ok.inj hrun)
      simpa [requestLog] using hfirst s' e hv
    | cons q1 qs1 =>
      obtain ⟨rfl, htail⟩ := List.cons.inj hqs
      obtain ⟨s3, res3, rs3, hreq3, hreqs3, rfl⟩ := requests_cons_eq_ok.mp hrun
      obtain ⟨rfl, rfl⟩ := Prod.mk.inj (Except.ok.inj (hreq.symm.trans hreq3))
      rw [requestLog_cons]
      exact hrest qs1 q' qs2 s2 rs3 s' e htail hreqs3 hv

/-- No replacement reports a dirty eviction when no written block is evicted, and only then. -/
theorem requests_clean_iff (hs : P.Serves I) (hn : ∀ s, I s → ∀ o, P.NamesVictim s o) (hi : I s)
    (ht : (P.nucleus s).Tells t) (hrun : P.requests s qs = .ok (s', rs)) :
    (∀ res ∈ rs, res.op = .replace → res.dirtyEviction = false) ↔ SparesWritten P t s qs := by
  induction qs generalizing s t rs with
  | nil =>
    obtain ⟨_, rfl⟩ := Prod.mk.inj (Except.ok.inj hrun)
    refine iff_of_true (fun _ hmem => (by cases hmem)) ?_
    intro qs1 q qs2 s1 rs1 s2 e hqs
    cases qs1 <;> cases hqs
  | cons q qs ih =>
    obtain ⟨s1, res, rs1, hreq, hreqs, rfl⟩ := requests_cons_eq_ok.mp hrun
    obtain ⟨hi1, ht1⟩ := hs.request hi ht hreq
    rw [List.forall_mem_cons, sparesWritten_cons hreq, ih hi1 ht1 hreqs,
      hs.request_replaces hi ht (hn s hi q.1) hreq]

/-! ## The answers -/

/-- The two answers agree in the operation and in what the operation defines. -/
structure SameAnswer (res res' : CacheNucleusResult) : Prop where
  op : res.op = res'.op
  cblock : res.op = .hit ∨ res.op = .new ∨ res.op = .replace → res.cblock = res'.cblock
  oldOblock : res.op = .replace → res.oldOblock = res'.oldOblock
  dirtyEviction : res.op = .replace → res.dirtyEviction = res'.dirtyEviction

theorem sameAnswer_clean : SameAnswer res.clean res ↔
    (res.op = .replace → res.dirtyEviction = false) := by
  constructor
  · intro h hop
    exact (h.dirtyEviction hop).symm
  · intro h
    exact ⟨rfl, fun _ => rfl, fun _ => rfl, fun hop => (h hop).symm⟩

theorem forall₂_sameAnswer_clean : List.Forall₂ SameAnswer (rs.map CacheNucleusResult.clean) rs ↔
    ∀ res ∈ rs, res.op = .replace → res.dirtyEviction = false := by
  rw [List.forall₂_map_left_iff, List.forall₂_same]
  simp only [sameAnswer_clean]

/-- FOMO answers as the internal policy alone as long as that evicts no written block. -/
theorem transparent_iff (hb : P.Blind I clean) (hs : P.Serves I)
    (hn : ∀ s, I s → ∀ o, P.NamesVictim s o) (hi : I s0) (habs : ∀ o, (P.nucleus s0).Absent o)
    (hf : f0.internal = clean s0) (hkeep : KeepsInserting P f0 qs)
    (hrun : (fomoApi P).requests f0 qs = .ok (f, rs)) :
    ∃ s rs', P.requests s0 qs = .ok (s, rs') ∧
      (List.Forall₂ SameAnswer rs rs' ↔ SparesWritten P [] s0 qs) := by
  have ht : (P.nucleus s0).Tells [] := fun o cb hc => absurd hc (habs o).not_caches
  obtain ⟨s, rs', hreqs, rfl⟩ := fomoRequests_inserting hb hs hi ht hf hkeep hrun
  exact ⟨s, rs', hreqs, forall₂_sameAnswer_clean.trans (requests_clean_iff hs hn hi ht hreqs)⟩

theorem Policy.Foretells.namesVictim {o : Oblock} (h : P.Foretells s o)
    (hlook : ∀ a e, P.cacheLookup s a = some e → (P.entryAt s e).oblock = a) :
    P.NamesVictim s o := by
  intro w result s' res hmap
  obtain ⟨t, victim, hv, hreplace, _⟩ := h w result s' res hmap
  refine ⟨⟨fun hop => ?_, fun hx => ?_⟩, fun t' e hv' => ?_⟩
  · obtain ⟨e, rfl, _⟩ := hreplace hop
    exact ⟨t, e, hop ▸ hv⟩
  · obtain ⟨t', e, hv'⟩ := hx
    exact (Prod.mk.inj (Prod.mk.inj (Except.ok.inj (hv.symm.trans hv'))).2).1
  · obtain ⟨_, heq⟩ := Prod.mk.inj (Except.ok.inj (hv.symm.trans hv'))
    obtain ⟨hop, rfl⟩ := Prod.mk.inj heq
    obtain ⟨e', he', hl⟩ := hreplace hop
    obtain rfl := Option.some.inj he'
    exact hlook _ _ hl

theorem CacheNucleus.Wf.oblock_of_cacheLookup {cn : CacheNucleus} (h : cn.Wf) {a : Oblock}
    {e : EntryRef} (hl : defaultCacheLookup cn a = some e) : (cn.entry e).oblock = a := by
  unfold defaultCacheLookup at hl
  dsimp only at hl
  split at hl
  · exact (h.hashLookup_eq_some.mp hl).2
  · cases hl

/-- LARC knows its victim, though it forgets hits and admissions to free room. -/
theorem larc_namesVictim {s : LarcPolicy} (h : s.Inv) (o : Oblock) : larcApi.NamesVictim s o := by
  intro w result s' res hmap
  have hcase := larcMapApi_case h o w result
  rw [show larcMapApi s o w result = _ from hmap] at hcase
  show (_ ↔ ∃ t e, larcNextVictimApi s o = .ok (t, .replace, some e)) ∧
    ∀ t e, larcNextVictimApi s o = .ok (t, .replace, some e) → _
  -- an answer that is no replacement names no victim
  have hother : ∀ {op : CacheNucleusOperation} {v : Option EntryRef}, op ≠ .replace →
      larcNextVictimApi s o = .ok (s, op, v) → res.op ≠ .replace →
      (res.op = .replace ↔ ∃ t e, larcNextVictimApi s o = .ok (t, .replace, some e)) ∧
      ∀ t e, larcNextVictimApi s o = .ok (t, .replace, some e) →
        (larcApi.entryAt s e).oblock = res.oldOblock := by
    intro op v hop hv hres
    have hno : ∀ t e, larcNextVictimApi s o ≠ .ok (t, .replace, some e) := by
      intro t e hv'
      obtain ⟨_, heq⟩ := Prod.mk.inj (Except.ok.inj (hv.symm.trans hv'))
      exact hop (Prod.mk.inj heq).1
    refine ⟨iff_of_false hres ?_, fun t e hv' => absurd hv' (hno t e)⟩
    rintro ⟨t, e, hv'⟩
    exact hno t e hv'
  cases hcase with
  | hit hl hp hg hs => exact hother (by decide) (larcNextVictimApi_hit hl hp hg) (by simp)
  | @take victim g s1 s2 s3 cb rest res0 hun hg hv evict forget free arrive hres =>
    rcases hv with ⟨rfl, hf⟩ | ⟨v, q, rfl, hf, hq, hsome⟩
    · cases hl : hashLookup s.nucleus o with
      | none => exact hother (by decide) (larcNextVictimApi_unknown hl hg) (by simp)
      | some r =>
        have hv := larcNextVictimApi_ghost hl (hun r hl) hg
        rw [if_neg hf] at hv
        exact hother (by decide) hv (by simp)
    · obtain ⟨r, hl⟩ := Option.isSome_iff_exists.mp hsome
      have hv := larcNextVictimApi_ghost hl (hun r hl) hg
      rw [if_pos hf, if_neg (by rw [hq]; simp), hq, queuePeek_cons] at hv
      subst hres
      refine ⟨iff_of_true rfl ⟨s, v, hv⟩, fun t e hv' => ?_⟩
      obtain ⟨_, heq⟩ := Prod.mk.inj (Except.ok.inj (hv.symm.trans hv'))
      obtain rfl := Option.some.inj (Prod.mk.inj heq).2
      rfl
  | filter habs hfull hg hf ghost trim =>
    have hl := h.wf.hashLookup_eq_none.mpr habs
    exact hother (by decide) (larcNextVictimApi_unknown hl hg) (by simp)
  | refused hl hp hfull hg hq =>
    have hv := larcNextVictimApi_ghost hl hp hg
    rw [if_pos hfull, if_pos hq] at hv
    exact hother (by decide) hv (by simp)

/-! ## A written block is evicted -/

/-- LRU of `c` slots after writes of the blocks below `n`, each settled. -/
structure LruPolicy.Filled (c n : Nat) (s : LruPolicy) : Prop where
  inv : s.Inv
  size : (s.nucleus.pool .cache).nrEntries = c
  settled : ∀ r, (s.nucleus.entry r).migrating = false
  free : (s.nucleus.pool .cache).free.length + n = c
  dirty : ∀ r, (s.nucleus.entry r).allocated = true → (s.nucleus.entry r).dirty = true
  known : ∀ r, (s.nucleus.entry r).allocated = true → (s.nucleus.entry r).oblock.toNat < n

section Filled

variable {c n : Nat} {s s1 : LruPolicy} {f f' : FomoPolicy LruPolicy} {cb : Nat}
  {free : List Nat} {q : List EntryRef} {o : Oblock} {w : Bool}

theorem toNat_block (hn : n < 2 ^ 32) : (UInt64.ofNat n).toNat = n := by
  rw [UInt64.toNat_ofNat', Nat.mod_eq_of_lt (by omega)]

theorem LruPolicy.Filled.absent (h : s.Filled c n) (hn : n < 2 ^ 32) :
    s.nucleus.Absent (UInt64.ofNat n) := by
  intro r ha ho
  have hlt := h.known r ha
  rw [ho, toNat_block hn] at hlt
  exact Nat.lt_irrefl n hlt

/-- The migration of an admitted block completes. -/
theorem LruPolicy.Step.settles (hs : s.Step ⟨.cache, cb⟩
    { s.nucleus.arrivingEntry ⟨.cache, cb⟩ o with dirty := w } free q s1) :
    ∃ s', lruMigratedApi s1 o = .ok s' ∧ s'.Inv ∧
      (s'.nucleus.pool .cache).nrEntries = (s.nucleus.pool .cache).nrEntries ∧
      (s'.nucleus.pool .cache).free = free ∧
      s'.nucleus.entry = Function.update s.nucleus.entry ⟨.cache, cb⟩
        { s.nucleus.arrivingEntry ⟨.cache, cb⟩ o with dirty := w, migrating := false } := by
  have hself := hs.rewrites.entry_self
  have hl : hashLookup s1.nucleus o = some ⟨.cache, cb⟩ := by
    rw [hs.inv.wf.hashLookup_eq_some, hself]
    exact ⟨rfl, rfl⟩
  obtain ⟨s', hmig, hs'⟩ := lruMigratedApi_spec hs.inv hl (by rw [hself]; rfl)
  refine ⟨s', hmig, hs'.inv, (hs'.rewrites.nrEntries _).trans (hs.rewrites.nrEntries _),
    hs'.rewrites.free.trans hs.rewrites.free, ?_⟩
  rw [hs'.rewrites.entry, hself, hs.rewrites.entry, Function.update_idem]

/-- A write of the next block takes a free slot. -/
theorem LruPolicy.Filled.write (h : s.Filled c n) (hn : n < c) (hc : c < 2 ^ 32) : ∃ s' res,
    lruApi.request s (UInt64.ofNat n, true) = .ok (s', res) ∧ res.op = .new ∧
      s'.Filled c (n + 1) := by
  have habs := h.absent (hn.trans hc)
  have hcase := lruMapApi_case h.inv (UInt64.ofNat n) true {}
  generalize hx : lruMapApi s (UInt64.ofNat n) true {} = x at hcase
  have hfree := h.free
  cases hcase with
  | hit hl hs => exact absurd (h.inv.lookup hl).2.2 (habs _ (h.inv.lookup hl).2.1)
  | @new cb rest s1 _ hf hs =>
    obtain ⟨s', hmig, hinv, hsize, hfree', hentry⟩ := hs.settles
    refine ⟨s', { op := .new, cblock := cb }, ?_, rfl, hinv, hsize.trans h.size, fun r => ?_, ?_,
      fun r => ?_, fun r => ?_⟩
    · show (lruMapApi s (UInt64.ofNat n) true {} >>= _) = _
      rw [hx]
      show (lruMigratedApi s1 (UInt64.ofNat n) >>= _) = _
      rw [hmig]
      rfl
    · rw [hentry, Function.update_apply]
      split
      · rfl
      · exact h.settled r
    · rw [hfree']
      rw [hf, List.length_cons] at hfree
      omega
    · rw [hentry, Function.update_apply]
      split
      · exact fun _ => rfl
      · exact h.dirty r
    · rw [hentry, Function.update_apply]
      split
      · intro _
        show (UInt64.ofNat n).toNat < n + 1
        rw [toNat_block (hn.trans hc)]
        exact Nat.lt_succ_self n
      · exact fun ha => Nat.lt_succ_of_lt (h.known r ha)
  | replace _ hf hq hs =>
    rw [hf, List.length_nil] at hfree
    omega
  | fail _ hf hq =>
    rw [hf, List.length_nil] at hfree
    omega

/-- With every slot taken, the next miss evicts a dirty block. -/
theorem LruPolicy.Filled.evict (h : s.Filled c c) (hc : 0 < c) (hlt : c < 2 ^ 32) : ∃ s' res,
    lruApi.request s (UInt64.ofNat c, false) = .ok (s', res) ∧ res.op = .replace ∧
      res.dirtyEviction = true := by
  have habs := h.absent hlt
  have hcase := lruMapApi_case h.inv (UInt64.ofNat c) false {}
  generalize hx : lruMapApi s (UInt64.ofNat c) false {} = x at hcase
  have hfree := h.free
  cases hcase with
  | hit hl hs => exact absurd (h.inv.lookup hl).2.2 (habs _ (h.inv.lookup hl).2.1)
  | new _ hf hs =>
    rw [hf, List.length_cons] at hfree
    omega
  | @replace cb q s1 _ hf hq hs =>
    obtain ⟨s', hmig, _⟩ := hs.settles
    have ha := ((h.inv.mem_queue _).mp (hq ▸ List.mem_cons_self)).1
    refine ⟨s', { op := .replace, cblock := cb
                  oldOblock := (s.nucleus.entry ⟨.cache, cb⟩).oblock
                  dirtyEviction := (s.nucleus.entry ⟨.cache, cb⟩).dirty }, ?_, rfl, h.dirty _ ha⟩
    show (lruMapApi s (UInt64.ofNat c) false {} >>= _) = _
    rw [hx]
    show (lruMigratedApi s1 (UInt64.ofNat c) >>= _) = _
    rw [hmig]
    rfl
  | fail _ hf hq =>
    have hused : (s.nucleus.entry ⟨.cache, 0⟩).allocated = true := by
      by_contra hno
      have hmem := ((h.inv.wf.pools .cache).mem_free 0).mpr
        ⟨by rw [h.size]; exact hc, Bool.eq_false_iff.mpr hno⟩
      rw [hf] at hmem
      cases hmem
    have hmem := (h.inv.mem_queue ⟨.cache, 0⟩).mpr ⟨hused, h.settled _⟩
    rw [hq] at hmem
    cases hmem

end Filled

/-! ## FOMO beside the lone policy -/

theorem FomoPolicy.stagedState_eq {o : Oblock}
    (h : f.atBoundary → cacheIsFull (P.nucleus f.internal) = false) :
    f.stagedState P o = f.state := by
  unfold stagedState
  rw [if_neg]
  rintro ⟨hb, hfull⟩
  rw [h hb] at hfull
  cases hfull

/-- A request that the internal policy alone serves is one that FOMO, inserting, serves. -/
theorem fomoMap_of_map (hb : P.Blind I clean) (hi : I s) {o : Oblock} {w : Bool}
    (hfor : P.Foretells (clean s) o) (h : f.Inv) (hf : f.internal = clean s)
    (hst : f.stagedState P o = .insert) (hmap : P.map s o w {} = .ok (s', res))
    (hop : res.op ≠ .fail) :
    ∃ f', fomoMap P f o w {} = .ok (f', res.clean) ∧ Commits P f o f' ∧
      f'.internal = clean s' := by
  have hview : Viewed (cleanAnswer clean) (P.map s o w {}) (P.map (clean s) o false {}) :=
    hb.map hi
  rw [hmap] at hview
  have hclean : P.map (clean s) o false {} = .ok (clean s', res.clean) := hview
  obtain ⟨t, victim, hv, _⟩ := hfor _ _ _ _ hclean
  have hfilter : ¬f.filters P o := fun hfilter => by
    rw [hfilter.2.2] at hst
    cases hst
  rw [← hf] at hv hclean
  have hcase := fomoMap_case (P := P) h o w {}
  generalize hx : fomoMap P f o w {} = x at hcase ⊢
  cases hcase with
  | filtered hno _ _ => exact absurd hno hfilter
  | refused _ hv' =>
    obtain ⟨_, heq⟩ := Prod.mk.inj (Except.ok.inj (hv.symm.trans hv'))
    exact absurd (Prod.mk.inj heq).1 hop
  | @admitted i op v i' res' f' _ hv' _ hm hc hi' =>
    obtain ⟨rfl, heq⟩ := Prod.mk.inj (Except.ok.inj (hv.symm.trans hv'))
    rw [hf] at hv
    obtain ⟨rfl, _⟩ := hb.nextVictim hv
    rw [hb.map_op, ← hf, hclean] at hm
    obtain ⟨rfl, rfl⟩ := Prod.mk.inj (Except.ok.inj hm)
    exact ⟨f', rfl, hc, hi'⟩
  | victimFault _ hv' => cases hv.symm.trans hv'
  | mapFault _ hv' _ hm =>
    obtain ⟨rfl, heq⟩ := Prod.mk.inj (Except.ok.inj (hv.symm.trans hv'))
    rw [hf] at hv
    obtain ⟨rfl, _⟩ := hb.nextVictim hv
    rw [hb.map_op, ← hf, hclean] at hm
    cases hm

/-- What a request that FOMO inserts does to its control fields. -/
structure FomoPolicy.Inserts (f f' : FomoPolicy σ) : Prop where
  inv : f'.Inv
  state : f'.state = .insert
  counter : f'.counter = if f.atBoundary then 0 else f.counter + 1
  periodSize : f'.periodSize = f.periodSize

theorem fomoRequest_of_request (hb : P.Blind I clean) (hi : I s)
    (hfor : P.Foretells (clean s) q.1) (h : f.Inv) (hf : f.internal = clean s)
    (hst : f.stagedState P q.1 = .insert) (hreq : P.request s q = .ok (s', res))
    (hop : res.op ≠ .fail) :
    ∃ f', (fomoApi P).request f q = .ok (f', res.clean) ∧ f'.internal = clean s' ∧
      f.Inserts f' := by
  obtain ⟨⟨s1, res1⟩, hmap, hreq⟩ := bind_eq_ok.mp hreq
  dsimp only at hreq
  by_cases hadmit : res1.op = .new ∨ res1.op = .replace
  · rw [if_pos hadmit] at hreq
    obtain ⟨s2, hmig, hreq⟩ := bind_eq_ok.mp hreq
    obtain ⟨rfl, rfl⟩ := Prod.mk.inj (Except.ok.inj hreq)
    obtain ⟨f1, hrun, hc, hi1⟩ := fomoMap_of_map hb hi hfor h hf hst hmap hop
    have hview : Viewed clean (P.migrated s1 q.1) (P.migrated (clean s1) q.1) := hb.migrated
    rw [hmig] at hview
    have hmig1 : P.migrated f1.internal q.1 = .ok (clean s2) := hi1 ▸ hview
    refine ⟨{ f1 with internal := clean s2 }, ?_, rfl, hc.inv.congr rfl rfl rfl, hc.state.trans hst,
      hc.counter, hc.periodSize⟩
    show (fomoMap P f q.1 q.2 {} >>= _) = _
    have hadmit' : res1.clean.op = .new ∨ res1.clean.op = .replace := hadmit
    simp only [hrun, ok_bind, if_pos hadmit']
    show (fomoMigrated P f1 q.1 >>= _) = _
    simp only [fomoMigrated, hmig1, ok_bind, pure_eq_ok]
  · rw [if_neg hadmit] at hreq
    obtain ⟨rfl, rfl⟩ := Prod.mk.inj (Except.ok.inj hreq)
    obtain ⟨f1, hrun, hc, hi1⟩ := fomoMap_of_map hb hi hfor h hf hst hmap hop
    refine ⟨f1, ?_, hi1, hc.inv, hc.state.trans hst, hc.counter, hc.periodSize⟩
    show (fomoMap P f q.1 q.2 {} >>= _) = _
    have hadmit' : ¬(res1.clean.op = .new ∨ res1.clean.op = .replace) := hadmit
    simp only [hrun, ok_bind, if_neg hadmit', pure_eq_ok]

theorem keepsInserting_nil (h : f.state = .insert) : KeepsInserting P f [] := by
  intro qs1 qs2 f' rs hq hrun
  obtain ⟨rfl, _⟩ := List.append_eq_nil_iff.mp hq.symm
  obtain ⟨rfl, _⟩ := Prod.mk.inj (Except.ok.inj hrun)
  exact h

theorem keepsInserting_cons (h : f.state = .insert)
    (hreq : (fomoApi P).request f q = .ok (f', res)) (hkeep : KeepsInserting P f' qs) :
    KeepsInserting P f (q :: qs) := by
  intro qs1 qs2 f2 rs hq hrun
  cases qs1 with
  | nil =>
    obtain ⟨rfl, _⟩ := Prod.mk.inj (Except.ok.inj hrun)
    exact h
  | cons q1 qs1 =>
    obtain ⟨rfl, htail⟩ := List.cons.inj hq
    obtain ⟨f1, res1, rs1, hreq1, hrun1, _⟩ := requests_cons_eq_ok.mp hrun
    obtain ⟨rfl, _⟩ := Prod.mk.inj (Except.ok.inj (hreq.symm.trans hreq1))
    exact hkeep qs1 qs2 f2 rs1 htail hrun1

/-- FOMO over LRU after writes of the blocks below `n`, beside LRU alone. -/
structure Filling (c n : Nat) (s : LruPolicy) (f : FomoPolicy LruPolicy) : Prop where
  lone : s.Filled c n
  inv : f.Inv
  internal : f.internal = s.clean
  state : f.state = .insert
  counter : f.counter = n % f.periodSize

/-- Writes of `k` blocks from `n` on, then a read of the block after them. -/
def writesThenRead (n : Nat) : Nat → List (Oblock × Bool)
  | 0 => [(UInt64.ofNat n, false)]
  | k + 1 => (UInt64.ofNat n, true) :: writesThenRead (n + 1) k

section Filling

variable {c n k : Nat} {s : LruPolicy} {f : FomoPolicy LruPolicy}

/-- The counter of the next request, of `n` before. -/
theorem FomoPolicy.counter_succ (h : f.counter = n % f.periodSize) :
    (if f.atBoundary then 0 else f.counter + 1) = (n + 1) % f.periodSize := by
  split
  · next hb =>
    have hb : (f.counter + 1) % f.periodSize = 0 := hb
    rw [h, Nat.mod_add_mod] at hb
    exact hb.symm
  · next hb =>
    have hb : ¬(f.counter + 1) % f.periodSize = 0 := hb
    rw [h, Nat.mod_add_mod] at hb
    rw [h]
    exact (succ_mod_of_ne_zero hb).symm

theorem Filling.write (h : Filling c n s f) (hn : n < c) (hc : c < 2 ^ 32) : ∃ s' f' res,
    lruApi.request s (UInt64.ofNat n, true) = .ok (s', res) ∧
      (fomoApi lruApi).request f (UInt64.ofNat n, true) = .ok (f', res.clean) ∧
      f'.periodSize = f.periodSize ∧ Filling c (n + 1) s' f' := by
  obtain ⟨s', res, hreq, hop, hfilled⟩ := h.lone.write hn hc
  have hroom : cacheIsFull (lruApi.nucleus f.internal) = false := by
    rw [h.internal]
    show (s.nucleus.pool .cache).free.isEmpty = false
    have hfree := h.lone.free
    rw [List.isEmpty_eq_false_iff, ← List.length_pos_iff]
    omega
  have hst : f.stagedState lruApi (UInt64.ofNat n) = .insert :=
    (FomoPolicy.stagedState_eq fun _ => hroom).trans h.state
  have hfor : lruApi.Foretells s.clean (UInt64.ofNat n) := lru_foretells h.lone.inv.clean _
  obtain ⟨f', hrun, hi, hins⟩ := fomoRequest_of_request (q := (UInt64.ofNat n, true)) lru_blind
    h.lone.inv hfor h.inv h.internal hst hreq (by rw [hop]; decide)
  refine ⟨s', f', res, hreq, hrun, hins.periodSize, hfilled, hins.inv, hi, hins.state, ?_⟩
  rw [hins.counter, hins.periodSize]
  exact FomoPolicy.counter_succ h.counter

/-- Unless the request that finds the cache full ends a period, FOMO inserts for it, and tells a
clean eviction where LRU alone tells a dirty one. -/
theorem Filling.evict (h : Filling c c s f) (hpos : 0 < c) (hc : c < 2 ^ 32)
    (hb : ¬(c + 1) % f.periodSize = 0) : ∃ s' f' res,
    lruApi.request s (UInt64.ofNat c, false) = .ok (s', res) ∧
      (fomoApi lruApi).request f (UInt64.ofNat c, false) = .ok (f', res.clean) ∧
      f'.state = .insert ∧ res.op = .replace ∧ res.dirtyEviction = true := by
  obtain ⟨s', res, hreq, hop, hdirty⟩ := h.lone.evict hpos hc
  have hno : ¬f.atBoundary := by
    unfold FomoPolicy.atBoundary
    rw [h.counter, Nat.mod_add_mod]
    exact hb
  have hst : f.stagedState lruApi (UInt64.ofNat c) = .insert :=
    (FomoPolicy.stagedState_eq fun hx => absurd hx hno).trans h.state
  have hfor : lruApi.Foretells s.clean (UInt64.ofNat c) := lru_foretells h.lone.inv.clean _
  obtain ⟨f', hrun, _, hins⟩ := fomoRequest_of_request (q := (UInt64.ofNat c, false)) lru_blind
    h.lone.inv hfor h.inv h.internal hst hreq (by rw [hop]; decide)
  exact ⟨s', f', res, hreq, hrun, hins.state, hop, hdirty⟩

/-- The run, write by write. -/
theorem Filling.run (h : Filling c n s f) (hk : n + k = c) (hpos : 0 < c) (hc : c < 2 ^ 32)
    (hb : ¬(c + 1) % f.periodSize = 0) : ∃ s' f' rs,
    lruApi.requests s (writesThenRead n k) = .ok (s', rs) ∧
      (fomoApi lruApi).requests f (writesThenRead n k) =
        .ok (f', rs.map CacheNucleusResult.clean) ∧
      KeepsInserting lruApi f (writesThenRead n k) ∧
      ∃ res ∈ rs, res.op = .replace ∧ res.dirtyEviction = true := by
  induction k generalizing n s f with
  | zero =>
    obtain rfl : n = c := hk
    obtain ⟨s', f', res, hreq, hrun, hst, hop, hdirty⟩ := h.evict hpos hc hb
    exact ⟨s', f', [res], requests_cons_eq_ok.mpr ⟨s', res, [], hreq, rfl, rfl⟩,
      requests_cons_eq_ok.mpr ⟨f', res.clean, [], hrun, rfl, rfl⟩,
      keepsInserting_cons h.state hrun (keepsInserting_nil hst),
      res, List.mem_singleton.mpr rfl, hop, hdirty⟩
  | succ k ih =>
    obtain ⟨s1, f1, res, hreq, hrun, hp, h1⟩ := h.write (by omega) hc
    obtain ⟨s', f', rs, hlone, hfomo, hkeep, res', hmem, hlost⟩ :=
      ih h1 (by omega) (by rw [hp]; exact hb)
    exact ⟨s', f', res :: rs, requests_cons_eq_ok.mpr ⟨s1, res, rs, hreq, hlone, rfl⟩,
      requests_cons_eq_ok.mpr ⟨f1, res.clean, _, hrun, hfomo, rfl⟩,
      keepsInserting_cons h.state hrun hkeep, res', List.mem_cons_of_mem _ hmem, hlost⟩

/-- Both start empty. -/
theorem Filling.start {c m : UInt32} {i0 : LruPolicy} {f0 : FomoPolicy LruPolicy}
    (hcreate : lruCreate c m = .ok i0) (hfomo : fomoCreate c m lruCreate = .ok f0)
    (hc : 0 < c.toNat) :
    Filling c.toNat 0 i0 f0 ∧ f0.periodSize = max (c.toNat / 100) 1 := by
  have hinit : fomoInit c i0 = .ok f0 := by
    rw [fomoCreate, hcreate, ok_bind] at hfomo
    exact hfomo
  obtain ⟨hinv, _, _, hi, hst, hcnt, hp, _⟩ := fomoInit_spec hc hinit
  obtain ⟨hlone, _, hsize, habs⟩ := lruInit_spec hcreate
  have hunused : ∀ r, (i0.nucleus.entry r).allocated = true → False := fun r ha =>
    habs _ r ha rfl
  have hfresh := hcreate
  rw [lruCreate, lruInit_eq] at hfresh
  obtain rfl := Except.ok.inj hfresh
  refine ⟨⟨⟨hlone, hsize, fun _ => rfl, ?_, fun r ha => (hunused r ha).elim,
    fun r ha => (hunused r ha).elim⟩, hinv, hi, hst, ?_⟩, hp⟩
  · show (List.range _).reverse.length + 0 = _
    rw [List.length_reverse, List.length_range, Nat.add_zero]
    exact if_pos rfl
  · rw [hcnt, Nat.zero_mod]

end Filling

/-- FOMO over LRU of 200 slots inserts for 200 writes and a read of another block, and tells a
clean eviction for the last one where LRU alone tells a dirty one. -/
theorem fomo_lru_run : ∃ i0 f0 i f rs, lruCreate 200 200 = .ok i0 ∧
    fomoCreate 200 200 lruCreate = .ok f0 ∧ KeepsInserting lruApi f0 (writesThenRead 0 200) ∧
    lruApi.requests i0 (writesThenRead 0 200) = .ok (i, rs) ∧
    (fomoApi lruApi).requests f0 (writesThenRead 0 200) =
      .ok (f, rs.map CacheNucleusResult.clean) ∧
    ∃ res ∈ rs, res.op = .replace ∧ res.dirtyEviction = true := by
  have hcreate : lruCreate 200 200 = _ := lruInit_eq 200
  have hfomo := fomoCreate_eq hcreate
  obtain ⟨hfill, hp⟩ := Filling.start hcreate hfomo (by decide)
  obtain ⟨i, f, rs, hlone, hrun, hkeep, hlost⟩ :=
    hfill.run (show 0 + 200 = _ by decide) (by decide) (by decide) (by rw [hp]; decide)
  exact ⟨_, _, i, f, rs, hcreate, hfomo, hkeep, hlone, hrun, hlost⟩

/-! ## LRU, ARC and LARC -/

/-- FOMO passes a request on without its write flag. While it inserts over LRU, ARC or LARC, its
answers are those of the policy alone exactly as long as that one, alone, is never about to evict
a block that was written since it came in. -/
theorem fomo_transparent {k : InternalPolicy} (hk : k = .lru ∨ k = .arc ∨ k = .larc)
    {c m : UInt32} {i0 : k.State} {f0 f : FomoPolicy k.State} (hcreate : k.create c m = .ok i0)
    (hfomo : fomoCreate c m k.create = .ok f0) (hkeep : KeepsInserting k.api f0 qs)
    (hrun : (fomoApi k.api).requests f0 qs = .ok (f, rs)) :
    ∃ i rs', k.api.requests i0 qs = .ok (i, rs') ∧
      (List.Forall₂ SameAnswer rs rs' ↔ SparesWritten k.api [] i0 qs) := by
  have hf : f0.internal = i0 := by
    rw [fomoCreate_eq hcreate] at hfomo
    obtain rfl := Except.ok.inj hfomo
    rfl
  rcases hk with rfl | rfl | rfl
  · have hspec := lruInit_spec hcreate
    have hclean : LruPolicy.clean i0 = i0 := by
      obtain rfl := Except.ok.inj ((lruInit_eq c).symm.trans hcreate)
      rfl
    refine transparent_iff lru_blind lru_serves (fun s h o => ?_) hspec.1 hspec.2.2.2
      (hf.trans hclean.symm) hkeep hrun
    exact (lru_foretells h o).namesVictim fun _ _ => h.wf.oblock_of_cacheLookup
  · have hclean : ArcPolicy.clean i0 = i0 := by
      obtain rfl := Except.ok.inj ((arcCreate_eq c m).symm.trans hcreate)
      rfl
    refine transparent_iff arc_blind arc_serves (fun s h o => ?_) (arcCreate_inv hcreate).1 ?_
      (hf.trans hclean.symm) hkeep hrun
    · exact (arc_foretells h o).namesVictim fun _ _ => h.wf.oblock_of_cacheLookup
    · obtain rfl := Except.ok.inj ((arcCreate_eq c m).symm.trans hcreate)
      exact freshNucleus_absent _ _ _
  · have hclean : LarcPolicy.clean i0 = i0 := by
      obtain rfl := Except.ok.inj ((larcCreate_eq c m).symm.trans hcreate)
      rfl
    refine transparent_iff larc_blind larc_serves (fun s h o => larc_namesVictim h o)
      (larcCreate_bounded hcreate).inv ?_ (hf.trans hclean.symm) hkeep hrun
    obtain rfl := Except.ok.inj ((larcCreate_eq c m).symm.trans hcreate)
    exact freshNucleus_absent _ _ _

/-- The writes of 200 blocks and the read of another one. -/
theorem fomo_transparent_fills : ∃ (i0 i : LruPolicy) (f0 f : FomoPolicy LruPolicy)
    (rs rs' : List CacheNucleusResult), lruCreate 200 200 = .ok i0 ∧
      fomoCreate 200 200 lruCreate = .ok f0 ∧
      KeepsInserting lruApi f0 (writesThenRead 0 200) ∧
      (fomoApi lruApi).requests f0 (writesThenRead 0 200) = .ok (f, rs) ∧
      lruApi.requests i0 (writesThenRead 0 200) = .ok (i, rs') ∧
      (List.Forall₂ SameAnswer rs rs' ↔ SparesWritten lruApi [] i0 (writesThenRead 0 200)) := by
  obtain ⟨i0, f0, _, f, rs, hcreate, hfomo, hkeep, _, hrun, _⟩ := fomo_lru_run
  obtain ⟨i, rs', hlone, hiff⟩ :=
    fomo_transparent (k := .lru) (Or.inl rfl) hcreate hfomo hkeep hrun
  exact ⟨i0, i, f0, f, _, rs', hcreate, hfomo, hkeep, hrun, hlone, hiff⟩

/-- The dirty eviction of LRU alone is a clean one under FOMO. -/
theorem fomo_transparent_dirty : ¬∀ (k : InternalPolicy) (c m : UInt32) (i0 i : k.State)
    (f0 f : FomoPolicy k.State) (qs : List (Oblock × Bool)) (rs rs' : List CacheNucleusResult),
    k = .lru ∨ k = .arc ∨ k = .larc → k.create c m = .ok i0 →
    fomoCreate c m k.create = .ok f0 → KeepsInserting k.api f0 qs →
    (fomoApi k.api).requests f0 qs = .ok (f, rs) → k.api.requests i0 qs = .ok (i, rs') →
    List.Forall₂ SameAnswer rs rs' := by
  intro hall
  obtain ⟨i0, f0, i, f, rs, hcreate, hfomo, hkeep, hlone, hrun, res, hmem, hop, hdirty⟩ :=
    fomo_lru_run
  have hsame := hall .lru 200 200 i0 i f0 f _ _ rs (Or.inl rfl) hcreate hfomo hkeep hrun hlone
  have hclean := forall₂_sameAnswer_clean.mp hsame res hmem hop
  rw [hdirty] at hclean
  cases hclean

end Fomo
