import Fomo.DmcachePolicy.TargetPolicies
import Fomo.Algs.LruSync
import Fomo.Lib.Paging
import Mathlib.Data.Finset.Option

/-!
# LRU against the other policies

The blocks that a registered policy holds are a cache filled on demand, whatever its caller asks
and whenever it takes blocks out again. So the misses of synchronous LRU on the same requests are
paid for by what the other policy brings in and by what it passes by.
-/
namespace Fomo

open Lib

/-! ## The misses of LRU -/

/-- The requests that were not answered from the cache. -/
def missesOf (results : List CacheNucleusResult) : Nat :=
  results.countP fun res => decide (res.op ≠ .hit)

/-- Synchronous LRU misses where textbook LRU does. -/
theorem lruRequests_misses {c : Nat} (hc : 0 < c) {os : List Oblock} {s : LruPolicy}
    (qs : List (Oblock × Bool)) (h : s.Textbook c os) :
    ∃ s' results, lruApi.requests s qs = .ok (s', results) ∧
      recencyMisses c (os ++ qs.map Prod.fst) = recencyMisses c os + missesOf results := by
  induction qs generalizing s os with
  | nil => exact ⟨s, [], rfl, by rw [List.map_nil, List.append_nil]; rfl⟩
  | cons q qs ih =>
    obtain ⟨s1, res, hrun1, hans, h1⟩ := lruRequest_textbook hc h q
    obtain ⟨s2, results, hrun2, hmiss⟩ := ih h1
    refine ⟨s2, res :: results, ?_, ?_⟩
    · simp only [Policy.requests, hrun1, hrun2, ok_bind, pure_eq_ok]
    · rw [List.append_assoc, List.singleton_append, ← List.map_cons, recencyMisses_concat] at hmiss
      rw [hmiss, missesOf, missesOf, List.countP_cons]
      by_cases hmem : q.1 ∈ mostRecent c os
      · simp [hmem, hans.1.mpr hmem]
      · have hop : res.op ≠ .hit := fun hop => hmem (hans.1.mp hop)
        simp [hmem, hop]
        omega

/-! ## Another policy -/

section Competitor

variable {σ : Type} {P : Policy σ} {I : σ → Prop} {wraps : Bool} {n : Nat}

variable (P) in
/-- dm-cache asks for blocks and takes blocks out, but it loads none and renames none. -/
def demandCalls (d : DmcacheBase σ) : DmcacheCall → Prop
  | .loadMapping _ _ | .forceMapping _ _ => False
  | c => mappedCalls P d c

/-- The blocks that were asked for. -/
def requested (t : List (DmcacheCall × DmcacheAnswer)) : List Oblock :=
  t.filterMap fun x => match x.1 with
    | .map o _ _ _ _ => some o
    | _ => none

/-- What the policy did with the request. -/
def answered : DmcacheCall × DmcacheAnswer → Option PolicyOperation
  | (.map _ _ _ _ _, .mapped result _) => some result.op
  | _ => none

/-- The requests whose block was brought in. -/
def admissions (t : List (DmcacheCall × DmcacheAnswer)) : Nat :=
  t.countP fun x => decide (answered x = some .new ∨ answered x = some .replace)

/-- The requests that went to the origin device. -/
def refusals (t : List (DmcacheCall × DmcacheAnswer)) : Nat :=
  t.countP fun x => decide (answered x = some .miss)

variable {m m' : Mapping} {o : Oblock} {c : DmcacheCall} {w : DmcacheAnswer}
  {t : List (DmcacheCall × DmcacheAnswer)}

theorem requested_snoc : requested (t ++ [(c, w)]) = requested t ++ requested [(c, w)] :=
  List.filterMap_append

theorem admissions_snoc : admissions (t ++ [(c, w)]) = admissions t + admissions [(c, w)] :=
  List.countP_append

theorem refusals_snoc : refusals (t ++ [(c, w)]) = refusals t + refusals [(c, w)] :=
  List.countP_append

/-- The blocks of a table with `n` cblocks. -/
theorem Mapping.exists_blocks (h : ∀ cb, m cb ≠ none → cb < n) :
    ∃ C : Finset Oblock, (∀ o, o ∈ C ↔ m.Holds o) ∧ C.card ≤ n := by
  refine ⟨((Finset.range n).image m).eraseNone, fun o => ?_, ?_⟩
  · rw [Finset.mem_eraseNone, Finset.mem_image]
    constructor
    · rintro ⟨cb, _, hcb⟩
      exact ⟨cb, hcb⟩
    · rintro ⟨cb, hcb⟩
      exact ⟨cb, Finset.mem_range.mpr (h cb (by rw [hcb]; exact Option.some_ne_none o)), hcb⟩
  · refine (Finset.card_eraseNone_le _).trans (Finset.card_image_le.trans ?_)
    exact (Finset.card_range n).le

/-- After `t` the table `m` is a cache of `n` blocks filled on demand. -/
def Mapping.Demanded (n : Nat) (t : List (DmcacheCall × DmcacheAnswer)) (m : Mapping) : Prop :=
  ∃ C : Finset Oblock, (∀ o, o ∈ C ↔ m.Holds o) ∧
    Demand n (requested t) C (admissions t) (refusals t)

/-- Between requests blocks may go. -/
theorem Mapping.Demanded.drop (h : m.Demanded n t) (hbound : ∀ cb, m' cb ≠ none → cb < n)
    (hsub : ∀ o, m'.Holds o → m.Holds o) (hreq : requested [(c, w)] = [])
    (hadm : admissions [(c, w)] = 0) (href : refusals [(c, w)] = 0) :
    m'.Demanded n (t ++ [(c, w)]) := by
  obtain ⟨C, hC, hd⟩ := h
  obtain ⟨C', hC', _⟩ := exists_blocks hbound
  refine ⟨C', hC', ?_⟩
  rw [requested_snoc, admissions_snoc, refusals_snoc, hreq, hadm, href, List.append_nil]
  exact hd.drop fun o ho => (hC o).mpr (hsub o ((hC' o).mp ho))

/-- A request that fits the table is a step of the cache. -/
theorem Mapping.Demanded.map (h : m.Demanded n t) {canBlock canMigrate : Bool}
    {bpResult : CacheNucleusResult} {result result' : PolicyResult} {r : Errno}
    (hbound : ∀ cb, m.afterMap o result' cb ≠ none → cb < n) (hfits : m.FitsMap o result' r) :
    (m.afterMap o result').Demanded n
      (t ++ [(.map o canBlock canMigrate bpResult result, .mapped result' r)]) := by
  obtain ⟨C, hC, hd⟩ := h
  have hin : ¬m.Holds o → result'.op = .new ∨ result'.op = .replace →
      m.afterMap o result' = m.put result'.cblock o →
      (m.afterMap o result').Demanded n
        (t ++ [(.map o canBlock canMigrate bpResult result, .mapped result' r)]) := by
    intro hno hop hafter
    obtain ⟨C', hC', hcard⟩ := exists_blocks hbound
    rw [hafter] at hC'
    refine ⟨C', hafter ▸ hC', ?_⟩
    have hadm : admissions
        [(.map o canBlock canMigrate bpResult result, .mapped result' r)] = 1 := by
      simp [admissions, answered, hop]
    have href : refusals
        [(.map o canBlock canMigrate bpResult result, .mapped result' r)] = 0 := by
      rcases hop with hop | hop
      · simp [refusals, answered, hop]
      · simp [refusals, answered, hop]
    rw [requested_snoc, admissions_snoc, refusals_snoc, hadm, href]
    refine hd.enter (fun ho => hno ((hC o).mp ho))
      ((hC' o).mpr ⟨result'.cblock, Function.update_self ..⟩) (fun a ha => ?_) hcard
    obtain ⟨cb, hcb⟩ := (hC' a).mp ha
    rw [Finset.mem_insert]
    by_cases heq : cb = result'.cblock
    · subst heq
      rw [Placement.put, Function.update_self] at hcb
      exact Or.inl (Option.some.inj hcb).symm
    · rw [Placement.put, Function.update_of_ne heq] at hcb
      exact Or.inr ((hC a).mpr ⟨cb, hcb⟩)
  rw [Mapping.FitsMap] at hfits
  cases hop : result'.op with
  | hit =>
    rw [hop] at hfits
    have hafter : m.afterMap o result' = m := by rw [afterMap, hop]
    refine ⟨C, by rw [hafter]; exact hC, ?_⟩
    rw [requested_snoc, admissions_snoc, refusals_snoc]
    simp only [admissions, refusals, answered, hop, List.countP_singleton]
    exact hd.hit ((hC o).mpr ⟨_, hfits.2⟩)
  | new =>
    rw [hop] at hfits
    exact hin hfits.2.1 (Or.inl hop) (by rw [afterMap, hop])
  | replace =>
    rw [hop] at hfits
    exact hin hfits.2.1 (Or.inr hop) (by rw [afterMap, hop])
  | miss =>
    rw [hop] at hfits
    have hafter : m.afterMap o result' = m := by rw [afterMap, hop]
    refine ⟨C, by rw [hafter]; exact hC, ?_⟩
    rw [requested_snoc, admissions_snoc, refusals_snoc]
    simp only [admissions, refusals, answered, hop, List.countP_singleton]
    exact hd.pass (fun ho => hfits.2 ((hC o).mp ho)) (fun _ ho => ho)

variable {d d' d0 : DmcacheBase σ}

/-- The table fits the cblocks of the policy. -/
theorem Policy.Reports.bounded (h : P.Reports I wraps)
    (hsize : ∀ s, I s → ((P.owner s).pool .cache).nrEntries = n) (hd : d.Ready I)
    (hm : d.Mapped P m) (cb : Cblock) (hcb : m cb ≠ none) : cb < n := by
  obtain ⟨o, ho⟩ := Option.ne_none_iff_exists'.mp hcb
  rw [← hsize _ hd.policy]
  exact (h.wf hd.policy).lt_of_allocated ((hm o cb).mp ho).1

theorem demandCalls_mapped (hg : demandCalls P d c) : mappedCalls P d c := by
  cases c
  all_goals first | exact hg | exact hg.elim

theorem Policy.Reports.demand_step (h : P.Reports I wraps)
    (hsize : ∀ s, I s → ((P.owner s).pool .cache).nrEntries = n) (hd : d.Ready I)
    (hd' : d'.Ready I) (hm : d.Mapped P m) (hdem : m.Demanded n t) (hg : demandCalls P d c)
    (hcall : dmcacheBaseCall P d c = .ok (d', w)) : (m.after c w).Demanded n (t ++ [(c, w)]) := by
  obtain ⟨hfits, hmapped⟩ := h.call_step hd hm (demandCalls_mapped hg) hcall
  have hbound := h.bounded hsize hd' hmapped
  cases c with
  | map o canBlock canMigrate bpResult result =>
    obtain ⟨y, _, heq⟩ := map_eq_ok.mp hcall
    obtain ⟨rfl, rfl⟩ := Prod.mk.inj heq
    exact hdem.map hbound hfits
  | loadMapping o cb => exact hg.elim
  | forceMapping a b => exact hg.elim
  | removeMapping o =>
    refine hdem.drop hbound (fun a ha => ?_) rfl rfl rfl
    obtain ⟨cb, hcb⟩ := ha
    change (if m cb = some o then none else m cb) = some a at hcb
    split at hcb
    · cases hcb
    · exact ⟨cb, hcb⟩
  | removeCblock cb =>
    refine hdem.drop hbound (fun a ha => ?_) rfl rfl rfl
    obtain ⟨b, hb⟩ := ha
    change Function.update m cb none b = some a at hb
    by_cases heq : b = cb
    · rw [heq, Function.update_self] at hb
      cases hb
    · rw [Function.update_of_ne heq] at hb
      exact ⟨b, hb⟩
  | lookup o cb => exact hdem.drop hbound (fun _ ha => ha) rfl rfl rfl
  | setDirty o => exact hdem.drop hbound (fun _ ha => ha) rfl rfl rfl
  | clearDirty o => exact hdem.drop hbound (fun _ ha => ha) rfl rfl rfl
  | writebackWork o cb => exact hdem.drop hbound (fun _ ha => ha) rfl rfl rfl
  | residency => exact hdem.drop hbound (fun _ ha => ha) rfl rfl rfl
  | tick => exact hdem.drop hbound (fun _ ha => ha) rfl rfl rfl
  | setConfigValue key value => exact hdem.drop hbound (fun _ ha => ha) rfl rfl rfl
  | ioComplete o => exact hdem.drop hbound (fun _ ha => ha) rfl rfl rfl

/-- A run of such calls is a run of a cache filled on demand. -/
theorem Policy.Reports.demand_run (h : P.Reports I wraps)
    (hsize : ∀ s, I s → ((P.owner s).pool .cache).nrEntries = n) (h0 : d0.Ready I)
    (hm0 : d0.Mapped P fun _ => none) (hrun : (dmcacheSystem P (demandCalls P)).Run d0 t d) :
    (mappingAfter t).Demanded n t := by
  have hall : d.Ready I ∧ d.Mapped P (mappingAfter t) ∧ (mappingAfter t).Demanded n t := by
    refine hrun.history (J := fun t d => d.Ready I ∧ d.Mapped P (mappingAfter t) ∧
      (mappingAfter t).Demanded n t) ⟨h0, hm0, ∅, fun o => ?_, .nil⟩ ?_
    · refine iff_of_false (Finset.notMem_empty o) ?_
      rintro ⟨cb, hcb⟩
      cases hcb
    · intro t a c b w ht hg hstep
      obtain ⟨ha, hma, hdem⟩ := ht
      have hmapped := demandCalls_mapped hg
      have hb : b.Ready I := h.locates.call ha (mappedCalls_target hmapped) hstep
      have hafter : mappingAfter (t ++ [(c, w)]) = (mappingAfter t).after c w := by
        rw [mappingAfter, List.foldl_append]
        rfl
      rw [hafter]
      exact ⟨hb, (h.call_step ha hma hmapped hstep).2,
        h.demand_step hsize ha hb hma hdem hg hstep⟩
  exact hall.2.2

end Competitor

/-- Synchronous LRU of `c` blocks against any registered policy of at most as many, whatever
dm-cache asks of it: LRU pays for `c - n + 1` misses with `c` for each block that the other policy
brings in and `c + 1` for each that it passes by, up to what a full cache is worth. -/
theorem lru_competitive {k : CoveredPolicy} {n c : UInt32} (hc : 0 < c.toNat)
    (hn : n.toNat ≤ c.toNat) {d0 d : DmcacheBase k.State} {t : List (DmcacheCall × DmcacheAnswer)}
    (hinit : dmcacheBaseCreate k.api k.create n = .ok d0)
    (hrun : (dmcacheSystem k.api (demandCalls k.api)).Run d0 t d) {s0 : LruPolicy}
    (hlru : lruInit c = .ok s0) (qs : List (Oblock × Bool)) (hqs : qs.map Prod.fst = requested t) :
    ∃ s results, lruApi.requests s0 qs = .ok (s, results) ∧
      2 * ((c.toNat - n.toNat + 1) * missesOf results) ≤
        2 * (c.toNat * admissions t + (c.toNat + 1) * refusals t) + c.toNat * (c.toNat + 1) := by
  obtain ⟨I, h, hsize, h0, habs, _⟩ := k.start hinit
  have hm0 := DmcacheBase.mapped_empty habs
  obtain ⟨C, _, hdem⟩ := h.demand_run hsize h0 hm0 hrun
  obtain ⟨s, results, hreq, hmiss⟩ := lruRequests_misses hc qs (.of_init hlru)
  refine ⟨s, results, hreq, ?_⟩
  have hnil : recencyMisses c.toNat ([] : List Oblock) = 0 := rfl
  rw [List.nil_append, hqs, hnil, Nat.zero_add] at hmiss
  rw [← hmiss]
  exact recencyMisses_le hdem hn

/-- FOMO takes block 5 and refuses block 7, dm-cache removes block 5 and asks for it again. -/
theorem lru_competitive_fomo : ∃ d0 d t s0 s results,
    dmcacheBaseCreate CoveredPolicy.fomoLru.api CoveredPolicy.fomoLru.create 1 = .ok d0 ∧
    (dmcacheSystem CoveredPolicy.fomoLru.api
      (demandCalls CoveredPolicy.fomoLru.api)).Run d0 t d ∧
    requested t = [5, 7, 5] ∧ admissions t = 1 ∧ refusals t = 2 ∧
    lruInit 2 = .ok s0 ∧ lruApi.requests s0 [(5, false), (7, true), (5, false)] = .ok (s, results) ∧
    2 * ((2 - 1 + 1) * missesOf results) ≤ 2 * (2 * 1 + (2 + 1) * 2) + 2 * (2 + 1) := by
  have hinit : ∃ d0, dmcacheBaseCreate CoveredPolicy.fomoLru.api
        CoveredPolicy.fomoLru.create 1 = .ok d0 ∧
      (dmcacheSystem CoveredPolicy.fomoLru.api
        (demandCalls CoveredPolicy.fomoLru.api)).Admits d0 [.map 5 true true {} {},
          .ioComplete 5, .map 7 true true {} {}, .removeMapping 5, .map 5 true true {} {}] ∧
      ∃ d ws, (dmcacheSystem CoveredPolicy.fomoLru.api
        (demandCalls CoveredPolicy.fomoLru.api)).exec d0 [.map 5 true true {} {},
          .ioComplete 5, .map 7 true true {} {}, .removeMapping 5, .map 5 true true {} {}] =
            .ok (d, ws) ∧
        requested (([.map 5 true true {} {}, .ioComplete 5, .map 7 true true {} {},
          .removeMapping 5, .map 5 true true {} {}] : List DmcacheCall).zip ws) = [5, 7, 5] ∧
        admissions (([.map 5 true true {} {}, .ioComplete 5, .map 7 true true {} {},
          .removeMapping 5, .map 5 true true {} {}] : List DmcacheCall).zip ws) = 1 ∧
        refusals (([.map 5 true true {} {}, .ioComplete 5, .map 7 true true {} {},
          .removeMapping 5, .map 5 true true {} {}] : List DmcacheCall).zip ws) = 2 := by
    refine ⟨_, rfl, ?_, _, _, rfl, rfl, rfl, rfl⟩
    exact And.intro trivial (And.intro trivial (And.intro trivial (And.intro trivial
      (And.intro trivial trivial))))
  obtain ⟨d0, hinit, hadm, d, ws, hexec, hreq, hin, hout⟩ := hinit
  have hrun := Lib.System.Run.of_exec hadm hexec
  have hle := lru_competitive (c := 2) (by decide) (by decide) hinit hrun (lruInit_eq 2)
    [(5, false), (7, true), (5, false)] hreq.symm
  rw [hin, hout] at hle
  obtain ⟨s, results, hrun', hle⟩ := hle
  exact ⟨d0, d, _, _, s, results, hinit, hrun, hreq, hin, hout, lruInit_eq 2, hrun', hle⟩

end Fomo
