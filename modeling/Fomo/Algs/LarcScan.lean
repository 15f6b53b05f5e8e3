import Fomo.Algs.LarcGhosts

/-!
# What LARC keeps out

LARC exists to spare the cache blocks that are requested once. A scan of new blocks passes
a full cache without a trace in it, and a block displaces another one at most as often as it has
been refused before.
-/
namespace Fomo

namespace LarcPolicy

variable {s s' : LarcPolicy} {o x : Oblock} {w : Bool} {m : Nat}
  {t : List (Call × Option CacheNucleusResult)}

/-! ## Scans -/

/-- The cache is as it was. -/
structure SameCache (s s' : LarcPolicy) : Prop where
  queue : s'.larcQ = s.larcQ
  free : (s'.nucleus.pool .cache).free = (s.nucleus.pool .cache).free
  entry : ∀ cb, s'.nucleus.entry ⟨.cache, cb⟩ = s.nucleus.entry ⟨.cache, cb⟩

theorem SameCache.trans {s'' : LarcPolicy} (h : s.SameCache s') (h' : s'.SameCache s'') :
    s.SameCache s'' :=
  ⟨h'.queue.trans h.queue, h'.free.trans h.free, fun cb => (h'.entry cb).trans (h.entry cb)⟩

/-- A request for a new block in front of a full cache. -/
theorem Bounded.scan (h : s.Bounded m) (hm : 10 ≤ m) (hm9 : 9 * m < 2 ^ 32)
    (hfull : (s.nucleus.pool .cache).free = []) (habs : s.nucleus.Absent o) (w : Bool) :
    ∃ s', larcApi.request s (o, w) = .ok (s', { op := .filter }) ∧ s'.Bounded m ∧
      s.SameCache s' ∧ ∀ x, x ≠ o → s.nucleus.Absent x → s'.nucleus.Absent x := by
  obtain ⟨s1, res, hcall, hb⟩ := h.call hm hm9 (show larcCalls s (.map o w {}) from trivial)
  obtain ⟨res, rfl, hmap⟩ := Policy.call_map.mp hcall
  have hnone := h.inv.wf.hashLookup_eq_none.mpr habs
  have hcase := larcMapApi_case h.inv o w {}
  rw [show larcMapApi s o w {} = .ok (s1, res) from hmap] at hcase
  cases hcase with
  | hit hl hp hg hs =>
    rw [hnone] at hl
    cases hl
  | take hun hg hv evict forget free arrive hres =>
    rcases hv with ⟨_, hroom⟩ | ⟨_, _, _, _, _, hknown⟩
    · exact absurd hfull hroom
    · rw [hnone] at hknown
      cases hknown
  | @filter i g rest s2 s3 _ _ hg hf ghost trim =>
    refine ⟨{ s3 with nucleus := s3.nucleus.incIos }, by simp [Policy.request, hmap], hb, ?_,
      fun x hx habsx => ?_⟩
    · have hghosts : ∀ v ∈ (if s.larcG.length + 1 > g then
          queuePeek (s.larcG ++ [⟨.metadata, i⟩]) else none), v.pool ≠ .cache := by
        intro v hv
        split at hv
        · have hmem : v ∈ s2.queue .metadata := by
            rw [ghost.queue, Function.update_self]
            exact List.mem_of_mem_head? hv
          rw [((ghost.inv.queued.mem .metadata v).mp hmem).2.2]
          decide
        · cases hv
      obtain ⟨hq, hfree, hentry⟩ := trim.other ghost.inv hghosts
      have hne : ∀ cb, (⟨.cache, cb⟩ : EntryRef) ≠ ⟨.metadata, i⟩ := fun cb hx => nomatch hx
      have hpool : PoolId.cache ≠ (⟨.metadata, i⟩ : EntryRef).pool := fun hx => nomatch hx
      have hfree' := hfree.trans (ghost.rewrites.free_of_ne .cache hpool)
      refine ⟨hq.trans ?_, hfree', fun cb => ?_⟩
      · rw [ghost.queue, Function.update_of_ne (by decide)]
        rfl
      · exact (hentry cb).trans (ghost.rewrites.entry_of_ne (hne cb))
    · exact trim.absent (ghost.rewrites.absent habsx fun _ => Ne.symm hx)
  | refused hl hp _ hg hq =>
    rw [hnone] at hl
    cases hl

/-- A scan of new blocks in front of a full cache. -/
theorem Bounded.scans (hm : 10 ≤ m) (hm9 : 9 * m < 2 ^ 32) (xs : List (Oblock × Bool))
    (h : s.Bounded m) (hfull : (s.nucleus.pool .cache).free = [])
    (hnew : ∀ x ∈ xs, s.nucleus.Absent x.1) (hnd : (xs.map Prod.fst).Nodup) :
    ∃ s', larcApi.requests s xs = .ok (s', xs.map fun _ => { op := .filter }) ∧
      s'.Bounded m ∧ s.SameCache s' := by
  induction xs generalizing s with
  | nil => exact ⟨s, rfl, h, rfl, rfl, fun _ => rfl⟩
  | cons x xs ih =>
    obtain ⟨o, w⟩ := x
    rw [List.map_cons, List.nodup_cons] at hnd
    obtain ⟨s1, hrun1, h1, hsame1, habs1⟩ := h.scan hm hm9 hfull (hnew _ List.mem_cons_self) w
    have hnew1 : ∀ x ∈ xs, s1.nucleus.Absent x.1 := by
      intro x hx
      apply habs1 x.1
      · intro heq
        exact hnd.1 (heq ▸ List.mem_map_of_mem hx)
      · exact hnew x (List.mem_cons_of_mem _ hx)
    obtain ⟨s2, hrun2, h2, hsame2⟩ := ih h1 (hsame1.free.trans hfull) hnew1 hnd.2
    refine ⟨s2, ?_, h2, hsame1.trans hsame2⟩
    simp only [Policy.requests, hrun1, hrun2, ok_bind, pure_eq_ok, List.map_cons]

/-! ## Refusals -/

/-- The requests for `o` that ended with `op`. -/
def answered (op : CacheNucleusOperation) (o : Oblock) : Call × Option CacheNucleusResult → Bool
  | (.map o' _ _, some result) => o' = o && result.op = op
  | _ => false

/-- `o` is a ghost. -/
def Ghost (s : LarcPolicy) (o : Oblock) : Prop :=
  ∃ i, (s.nucleus.entry ⟨.metadata, i⟩).allocated = true ∧
    (s.nucleus.entry ⟨.metadata, i⟩).oblock = o

variable {r : EntryRef} {e : Entry} {free : List Nat} {q : PoolId → Queue}

theorem Step.ghost (hs : s.Step r e free q s') (hp : r.pool = .cache) (h : s'.Ghost x) :
    s.Ghost x := by
  obtain ⟨i, hi⟩ := h
  have hne : (⟨.metadata, i⟩ : EntryRef) ≠ r := by
    intro heq
    rw [← heq] at hp
    cases hp
  rw [hs.rewrites.entry_of_ne hne] at hi
  exact ⟨i, hi⟩

theorem FreesAny.ghost {y : Option EntryRef} (hs : s.FreesAny y s') (h : s'.Ghost x) :
    s.Ghost x := by
  cases hs with
  | none => exact h
  | @some r s' ha hs =>
    obtain ⟨i, hi⟩ := h
    by_cases heq : (⟨.metadata, i⟩ : EntryRef) = r
    · rw [heq, hs.rewrites.entry_self] at hi
      cases hi.1
    · rw [hs.rewrites.entry_of_ne heq] at hi
      exact ⟨i, hi⟩

/-- Each block has displaced another at most as often as it has been refused, and a ghost
less often. -/
def Repaid (t : List (Call × Option CacheNucleusResult)) (s : LarcPolicy) : Prop :=
  ∀ x, t.countP (answered .replace x) ≤ t.countP (answered .filter x) ∧
    (s.Ghost x → t.countP (answered .replace x) < t.countP (answered .filter x))

/-- A call that neither displaces nor refuses a block. -/
theorem Repaid.idle (h : s.Repaid t) (hg : ∀ x, s'.Ghost x → s.Ghost x)
    {y : Call × Option CacheNucleusResult} (hr : ∀ x, answered .replace x y = false)
    (hf : ∀ x, answered .filter x y = false) : s'.Repaid (t ++ [y]) := by
  intro x
  simp only [List.countP_append, List.countP_singleton, hr, hf, Bool.false_eq_true, if_false,
    Nat.add_zero]
  exact ⟨(h x).1, fun hx => (h x).2 (hg x hx)⟩

/-- A ghost displaces a block, and is no ghost any more. -/
theorem Repaid.replace (h : s.Repaid t) (hg : ∀ x, s'.Ghost x → s.Ghost x) (ho : s.Ghost o)
    (hno : ¬s'.Ghost o) {result res : CacheNucleusResult} (hop : res.op = .replace) :
    s'.Repaid (t ++ [(.map o w result, some res)]) := by
  intro x
  have hx := h x
  simp only [List.countP_append, List.countP_singleton, answered, hop]
  by_cases hxo : o = x
  · subst hxo
    have hlt := hx.2 ho
    refine ⟨?_, fun hghost => absurd hghost hno⟩
    simp
    omega
  · simp only [hxo, decide_false, Bool.false_and, Bool.false_eq_true, if_false, Nat.add_zero]
    exact ⟨hx.1, fun hghost => hx.2 (hg x hghost)⟩

/-- A block is refused, and becomes a ghost. -/
theorem Repaid.filter (h : s.Repaid t) (hg : ∀ x, x ≠ o → s'.Ghost x → s.Ghost x)
    {result res : CacheNucleusResult} (hop : res.op = .filter) :
    s'.Repaid (t ++ [(.map o w result, some res)]) := by
  intro x
  have hx := h x
  simp only [List.countP_append, List.countP_singleton, answered, hop]
  by_cases hxo : o = x
  · subst hxo
    simp
    omega
  · simp only [hxo, decide_false, Bool.false_and, Bool.false_eq_true, if_false, Nat.add_zero]
    exact ⟨hx.1, fun hghost => hx.2 (hg x (Ne.symm hxo) hghost)⟩

/-- A request repays what it displaces. -/
theorem Repaid.map (h : s.Repaid t) (hinv : s.Inv) {result res : CacheNucleusResult}
    (hc : s.MapCase o w result (.ok (s', res))) :
    s'.Repaid (t ++ [(.map o w result, some res)]) := by
  cases hc with
  | @hit r g _ hl hp hg hs =>
    exact h.idle (fun x hx => Step.ghost (s := s.aim g) hs hp hx) (by simp [answered])
      (by simp [answered])
  | @take victim g s1 s2 _ cb rest res hun hg hv evict forget free arrive hres =>
    have hback : ∀ x, s'.Ghost x → s.Ghost x := fun x hx =>
      FreesAny.ghost (s := s.aim g) evict (forget.ghost (arrive.ghost rfl hx))
    rcases hv with ⟨rfl, _⟩ | ⟨v, q, rfl, hfull, hq, hknown⟩
    · exact h.idle hback (by simp [answered]) (by simp [answered])
    · obtain ⟨r, hl⟩ := Option.isSome_iff_exists.mp hknown
      have hp := hun r hl
      have hr := hinv.wf.hashLookup_eq_some.mp hl
      obtain ⟨rp, i⟩ := r
      subst hp
      apply h.replace hback ⟨i, hr⟩ ?_ rfl
      -- the ghost of `o` was freed before `o` came in
      intro hghost
      obtain ⟨j, ha, hj⟩ := arrive.ghost rfl hghost
      have hv : ∀ y ∈ some v, y.pool ≠ .metadata := by
        intro y hy
        obtain rfl := Option.some.inj hy
        rw [(hinv.head (p := .cache) hq).2.2]
        decide
      have h1 := evict.inv (hinv.aim g)
      have hsame : s1.nucleus.entry ⟨.metadata, i⟩ = s.nucleus.entry ⟨.metadata, i⟩ :=
        (evict.other (hinv.aim g) hv).2.2 i
      have hl1 : hashLookup s1.nucleus o = hashLookup s.nucleus o := by
        rw [hl, h1.wf.hashLookup_eq_some, hsame]
        exact hr
      exact forget.absent_lookup h1 hl1 _ ha hj
  | @filter i g rest s1 s2 habs hfull hg hf ghost trim =>
    refine h.filter (fun x hx hghost => ?_) rfl
    obtain ⟨j, ha, hj⟩ := trim.ghost hghost
    have hne : (⟨.metadata, j⟩ : EntryRef) ≠ ⟨.metadata, i⟩ := by
      intro heq
      rw [heq, ghost.rewrites.entry_self] at hj
      exact hx hj.symm
    rw [ghost.rewrites.entry_of_ne hne] at ha hj
    exact ⟨j, ha, hj⟩
  | refused hl hp hfull hg hq =>
    exact h.idle (fun x hx => hx) (by simp [answered]) (by simp [answered])

/-- Every call repays what it displaces. -/
theorem Repaid.call (h : s.Repaid t) (hb : s.Bounded m) {call : Call}
    {y : Option CacheNucleusResult} (hg : larcCalls s call)
    (hcall : larcApi.call s call = .ok (s', y)) : s'.Repaid (t ++ [(call, y)]) := by
  cases call with
  | map o w result =>
    obtain ⟨res, rfl, hmap⟩ := Policy.call_map.mp hcall
    have hcase := larcMapApi_case hb.inv o w result
    rw [show larcMapApi s o w result = _ from hmap] at hcase
    exact h.map hb.inv hcase
  | migrated o =>
    obtain ⟨cb, hc, hmig⟩ := hg
    obtain ⟨s1, hrun, hs⟩ := larcMigratedApi_spec hb.inv (hb.inv.wf.caches_iff.mp hc) rfl hmig
    obtain ⟨s2, hrun2, heq⟩ := map_eq_ok.mp hcall
    obtain rfl := Except.ok.inj (hrun.symm.trans hrun2)
    obtain ⟨rfl, rfl⟩ := Prod.mk.inj heq
    exact h.idle (fun x hx => hs.ghost rfl hx) (fun _ => rfl) fun _ => rfl
  | remove o keep =>
    obtain ⟨r, hl⟩ := Option.isSome_iff_exists.mp hg
    have ha := (hb.inv.wf.hashLookup_eq_some.mp hl).1
    obtain ⟨s1, hrun, hs⟩ := larcRemoveEntry_spec hb.inv ha
    have hrun' : larcRemoveApi s o keep = .ok s1 := by
      rw [larcRemoveApi, hl, deref_some, ok_bind, hrun]
    obtain ⟨s2, hrun2, heq⟩ := map_eq_ok.mp hcall
    obtain rfl := Except.ok.inj (hrun'.symm.trans hrun2)
    obtain ⟨rfl, rfl⟩ := Prod.mk.inj heq
    exact h.idle (fun x hx => (FreesAny.some ha hs).ghost hx) (fun _ => rfl) fun _ => rfl
  | insert o cb =>
    obtain ⟨habs, hcb, hfree⟩ := hg
    obtain ⟨s1, hrun, hs⟩ := larcInsertApi_spec hb.inv hcb hfree habs
    obtain ⟨s2, hrun2, heq⟩ := map_eq_ok.mp hcall
    obtain rfl := Except.ok.inj (hrun.symm.trans hrun2)
    obtain ⟨rfl, rfl⟩ := Prod.mk.inj heq
    exact h.idle (fun x hx => hs.ghost rfl hx) (fun _ => rfl) fun _ => rfl
  | setTime time =>
    obtain ⟨rfl, rfl⟩ := Prod.mk.inj (Except.ok.inj hcall)
    exact h.idle (fun x hx => hx) (fun _ => rfl) fun _ => rfl
  | remap a b => exact hg.elim

end LarcPolicy

open LarcPolicy

variable {s : LarcPolicy}

/-- A scan passes a full cache: whatever calls came before and whatever still migrates, requests
for distinct blocks that LARC does not know are all refused, and the cache stays as it is. -/
theorem larc_scan {c m : UInt32} {s0 : LarcPolicy} (hm : 10 ≤ m.toNat)
    (hm9 : 9 * m.toNat < 2 ^ 32) (hinit : larcCreate c m = .ok s0)
    (hs : (larcApi.system larcCalls).Reachable s0 s)
    (hfull : larcApi.cacheIsFull s = true) (xs : List (Oblock × Bool))
    (hnew : ∀ x ∈ xs, s.nucleus.Absent x.1) (hnd : (xs.map Prod.fst).Nodup) :
    ∃ s', larcApi.requests s xs = .ok (s', xs.map fun _ => { op := .filter }) ∧
      larcApi.cacheIsFull s' = true ∧ s'.larcQ = s.larcQ ∧
      ∀ cb, s'.nucleus.entry ⟨.cache, cb⟩ = s.nucleus.entry ⟨.cache, cb⟩ := by
  have hb := Bounded.of_reachable hm hinit hs
  have hfree : (s.nucleus.pool .cache).free = [] := by
    simpa [larcApi, defaultCacheIsFull, cacheIsFull, epoolEmpty] using hfull
  obtain ⟨s', hrun, _, hsame⟩ := Bounded.scans hm hm9 xs hb hfree hnew hnd
  refine ⟨s', hrun, ?_, hsame.queue, hsame.entry⟩
  simp [larcApi, defaultCacheIsFull, cacheIsFull, epoolEmpty, hsame.free, hfree]

/-- Blocks 7 and 8 pass a cache of one block, which still migrates. -/
theorem larc_scan_two : ∃ s0 s s', larcCreate 1 10 = .ok s0 ∧
    (larcApi.system larcCalls).Reachable s0 s ∧
    larcApi.requests s [(7, false), (8, true)] =
      .ok (s', [{ op := .filter }, { op := .filter }]) ∧
    s'.nucleus.entry ⟨.cache, 0⟩ = s.nucleus.entry ⟨.cache, 0⟩ := by
  have hinit := larcCreate_eq 1 10
  generalize hs0 : ({ nucleus := _, larcQ := _, larcG := _, gSize := _ } : LarcPolicy) = s0
    at hinit
  obtain ⟨s, ws, hexec, hfull, h7, h8⟩ : ∃ s ws,
      (larcApi.system larcCalls).exec s0 [.map 5 true {}] = .ok (s, ws) ∧
      larcApi.cacheIsFull s = true ∧ hashLookup s.nucleus 7 = none ∧
      hashLookup s.nucleus 8 = none := by
    subst hs0
    exact ⟨_, _, rfl, rfl, rfl, rfl⟩
  have hadm : (larcApi.system larcCalls).Admits s0 [.map 5 true {}] := by
    subst hs0
    exact And.intro trivial trivial
  have hrun := (Lib.System.Run.of_exec hadm hexec).reachable
  have hwf := (Bounded.of_reachable (by decide) hinit hrun).inv.wf
  have hnew : ∀ x ∈ [((7 : Oblock), false), (8, true)], s.nucleus.Absent x.1 := by
    intro x hx
    rcases List.mem_cons.mp hx with rfl | hx
    · exact hwf.hashLookup_eq_none.mp h7
    · obtain rfl := List.mem_singleton.mp hx
      exact hwf.hashLookup_eq_none.mp h8
  obtain ⟨s', hreq, _, _, hsame⟩ := larc_scan (by decide) (by decide) hinit hrun hfull
    [(7, false), (8, true)] hnew (by decide)
  exact ⟨s0, s, s', hinit, hrun, hreq, hsame 0⟩

/-- Blocks have to come twice: over every interleaving of the calls each block has displaced
another one at most as often as a request for it has been refused, and less often while it is a
ghost. -/
theorem larc_refusals {c m : UInt32} {s0 : LarcPolicy} (hm : 10 ≤ m.toNat)
    (hinit : larcCreate c m = .ok s0) {t : List (Call × Option CacheNucleusResult)}
    (hs : (larcApi.system larcCalls).Run s0 t s) (o : Oblock) :
    t.countP (answered .replace o) ≤ t.countP (answered .filter o) ∧
      ((∃ r, hashLookup s.nucleus o = some r ∧ r.pool = .metadata) →
        t.countP (answered .replace o) < t.countP (answered .filter o)) := by
  have hstart : s0.Repaid [] := by
    intro x
    refine ⟨le_refl _, fun hghost => ?_⟩
    rw [larcCreate_eq] at hinit
    obtain rfl := Except.ok.inj hinit
    obtain ⟨i, ha, _⟩ := hghost
    cases ha
  have hboth : s.Repaid t ∧ s.Bounded m.toNat := by
    apply hs.history (J := fun t s => s.Repaid t ∧ s.Bounded m.toNat)
      ⟨hstart, larcCreate_bounded hinit⟩
    intro t a call b w ha hg hcall
    exact ⟨ha.1.call ha.2 hg hcall, ha.2.keep hm hg hcall⟩
  refine ⟨(hboth.1 o).1, fun hghost => ?_⟩
  obtain ⟨r, hl, hp⟩ := hghost
  have hr := hboth.2.inv.wf.hashLookup_eq_some.mp hl
  obtain ⟨rp, i⟩ := r
  subst hp
  exact (hboth.1 o).2 ⟨i, hr⟩

/-- Block 7 is refused once and displaces block 5 once. -/
theorem larc_refusals_two : ∃ s0 s t, larcCreate 1 10 = .ok s0 ∧
    (larcApi.system larcCalls).Run s0 t s ∧ t.countP (answered .replace 7) = 1 ∧
    1 ≤ t.countP (answered .filter 7) := by
  have hinit := larcCreate_eq 1 10
  generalize hs0 : ({ nucleus := _, larcQ := _, larcG := _, gSize := _ } : LarcPolicy) = s0
    at hinit
  have hadm : (larcApi.system larcCalls).Admits s0
      [.map 5 true {}, .migrated 5, .map 7 false {}, .map 7 false {}] := by
    subst hs0
    exact And.intro trivial (And.intro (Exists.intro 0 (And.intro (And.intro rfl rfl) rfl))
      (And.intro trivial (And.intro trivial trivial)))
  obtain ⟨s, ws, hexec, hcount⟩ : ∃ s ws, (larcApi.system larcCalls).exec s0
      [.map 5 true {}, .migrated 5, .map 7 false {}, .map 7 false {}] = .ok (s, ws) ∧
      ([Call.map 5 true {}, .migrated 5, .map 7 false {}, .map 7 false {}].zip ws).countP
        (answered .replace 7) = 1 := by
    subst hs0
    exact ⟨_, _, rfl, rfl⟩
  have hrun := Lib.System.Run.of_exec hadm hexec
  exact ⟨s0, s, _, hinit, hrun, hcount, hcount ▸ (larc_refusals (by decide) hinit hrun 7).1⟩

end Fomo
