import Fomo.Include.Serving
import Fomo.Lib.Count

/-!
# Statistics (`policy_stats.h`)

A policy that counts every call once keeps two balances: requests against hits, misses and
filtered ones, and blocks that came in against blocks that went out and those that are there.
-/
namespace Fomo

/-- The counters after a request that ended in `op`. -/
def PolicyStats.after (stats : PolicyStats) : CacheNucleusOperation → PolicyStats
  | .hit => { stats with ios := u32 (stats.ios + 1), hits := u32 (stats.hits + 1) }
  | .new => { stats with ios := u32 (stats.ios + 1), misses := u32 (stats.misses + 1) }
  | .replace => { stats with
      ios := u32 (stats.ios + 1), misses := u32 (stats.misses + 1),
      demotions := u32 (stats.demotions + 1) }
  | .filter => { stats with ios := u32 (stats.ios + 1), filters := u32 (stats.filters + 1) }
  | .fail => stats

/-! ## The events of a run -/

/-- A request that did not fail. -/
def servedRequest : Call × Option CacheNucleusResult → Bool
  | (.map _ _ _, some res) => decide (res.op ≠ .fail)
  | _ => false

def endedIn (op : CacheNucleusOperation) : Call × Option CacheNucleusResult → Bool
  | (.map _ _ _, some res) => decide (res.op = op)
  | _ => false

def completion : Call × Option CacheNucleusResult → Bool
  | (.migrated _, _) => true
  | _ => false

def preload : Call × Option CacheNucleusResult → Bool
  | (.insert _ _, _) => true
  | _ => false

/-- The counters of a run that demoted so many blocks, if they never wrapped. -/
def PolicyStats.tally (t : List (Call × Option CacheNucleusResult)) (demotions : Nat) :
    PolicyStats where
  ios := t.countP servedRequest
  hits := t.countP (endedIn .hit)
  misses := t.countP (endedIn .new) + t.countP (endedIn .replace)
  filters := t.countP (endedIn .filter)
  promotions := t.countP completion
  demotions := demotions

/-- What 32 bits hold of the counters. -/
def PolicyStats.wrapped (stats : PolicyStats) : PolicyStats where
  ios := u32 stats.ios
  hits := u32 stats.hits
  misses := u32 stats.misses
  filters := u32 stats.filters
  promotions := u32 stats.promotions
  demotions := u32 stats.demotions
  privateStat := u32 stats.privateStat

/-- A request that did not fail is a hit, a miss or filtered. -/
theorem countP_servedRequest (t : List (Call × Option CacheNucleusResult)) :
    t.countP servedRequest = t.countP (endedIn .hit) +
      (t.countP (endedIn .new) + t.countP (endedIn .replace)) + t.countP (endedIn .filter) := by
  induction t with
  | nil => rfl
  | cons x t ih =>
    have hx : (if servedRequest x then 1 else 0) = (if endedIn .hit x then 1 else 0) +
        ((if endedIn .new x then 1 else 0) + (if endedIn .replace x then 1 else 0)) +
        (if endedIn .filter x then 1 else 0) := by
      obtain ⟨c, r⟩ := x
      cases c with
      | map o w result =>
        cases r with
        | none => rfl
        | some res => cases hop : res.op <;> simp [servedRequest, endedIn, hop]
      | _ => rfl
    simp only [List.countP_cons, ih]
    omega

theorem countP_completion_add_preload_le (t : List (Call × Option CacheNucleusResult)) :
    t.countP completion + t.countP preload ≤ t.length := by
  induction t with
  | nil => exact Nat.le_refl 0
  | cons x t ih =>
    have hx : (if completion x then 1 else 0) + (if preload x then 1 else 0) ≤ 1 := by
      obtain ⟨c, r⟩ := x
      cases c <;> simp [completion, preload]
    simp only [List.countP_cons, List.length_cons]
    omega

namespace CacheNucleus

/-- The slot holds a block whose migration is over. -/
def settledAt (cn : CacheNucleus) (cb : Cblock) : Bool :=
  (cn.entry ⟨.cache, cb⟩).allocated && !(cn.entry ⟨.cache, cb⟩).migrating

/-- The number of cached blocks that do not migrate. -/
def settledBlocks (cn : CacheNucleus) : Nat :=
  Lib.slots (cn.pool .cache).nrEntries cn.settledAt

variable {cn cn' : CacheNucleus} {o : Oblock} {cb : Cblock} {e : Entry} {r : EntryRef} {n : Nat}

/-- The blocks may be counted over any array that has all of them. -/
theorem Wf.settledBlocks_eq (h : cn.Wf) (hn : (cn.pool .cache).nrEntries ≤ n) :
    cn.settledBlocks = Lib.slots n cn.settledAt := by
  obtain ⟨k, rfl⟩ := Nat.exists_eq_add_of_le hn
  clear hn
  induction k with
  | zero => rfl
  | succ k ih =>
    have hout : cn.settledAt ((cn.pool .cache).nrEntries + k) = false := by
      cases ha : (cn.entry ⟨.cache, (cn.pool .cache).nrEntries + k⟩).allocated with
      | false => simp [settledAt, ha]
      | true =>
        have := h.lt_of_allocated ha
        dsimp only at this
        omega
    rw [← Nat.add_assoc, Lib.slots_succ, ← ih, hout]
    rfl

/-- Rewriting a slot changes the count by that slot. -/
theorem SetsSlot.settledBlocks (hs : cn.SetsSlot cb e cn') (h : cn.Wf) (h' : cn'.Wf) :
    cn'.settledBlocks + (if cn.settledAt cb then 1 else 0) =
      cn.settledBlocks + if e.allocated && !e.migrating then 1 else 0 := by
  have hself : cn'.settledAt cb = (e.allocated && !e.migrating) := by
    rw [settledAt, hs cb, if_pos rfl]
  rw [h.settledBlocks_eq (n := (cn.pool .cache).nrEntries + (cn'.pool .cache).nrEntries + (cb + 1))
      (by omega),
    h'.settledBlocks_eq (n := (cn.pool .cache).nrEntries + (cn'.pool .cache).nrEntries + (cb + 1))
      (by omega), ← hself]
  apply Lib.slots_update (by omega)
  intro b hb
  rw [settledAt, settledAt, hs b, if_neg hb]

theorem SameCache.settledBlocks (hs : cn.SameCache cn') (h : cn.Wf) (h' : cn'.Wf) :
    cn'.settledBlocks = cn.settledBlocks := by
  rw [h.settledBlocks_eq (n := (cn.pool .cache).nrEntries + (cn'.pool .cache).nrEntries)
      (by omega),
    h'.settledBlocks_eq (n := (cn.pool .cache).nrEntries + (cn'.pool .cache).nrEntries)
      (by omega)]
  apply Lib.slots_congr
  intro b _
  rw [settledAt, settledAt, hs b]

theorem Caches.settledAt (h : cn.Caches o cb) :
    cn.settledAt cb = !(cn.entry ⟨.cache, cb⟩).migrating := by
  rw [CacheNucleus.settledAt, h.1, Bool.true_and]

theorem settledAt_of_free (h : (cn.entry ⟨.cache, cb⟩).allocated = false) :
    cn.settledAt cb = false := by
  rw [settledAt, h, Bool.false_and]

theorem settledBlocks_fresh (c m : Nat) (n : PoolId → Nat) :
    (freshNucleus c m n).settledBlocks = 0 := by
  rw [settledBlocks, Lib.slots, List.countP_eq_zero]
  intro cb _
  rw [settledAt_of_free rfl]
  decide

/-- A block that comes in does not count before it settles; a victim counted. -/
theorem Effect.settledBlocks {w : Bool} {res : CacheNucleusResult} (he : cn.Effect o w cn' res)
    (h : cn.Wf) (h' : cn'.Wf) :
    cn'.settledBlocks + (if res.op = .replace then 1 else 0) = cn.settledBlocks := by
  cases he with
  | hit hop hc hs he =>
    have hn := hs.settledBlocks h h'
    rw [hc.settledAt, he.allocated, he.migrating, Bool.true_and] at hn
    rw [hop, if_neg (by decide)]
    omega
  | new hop hno hcb hfree hs he =>
    have hn := hs.settledBlocks h h'
    rw [settledAt_of_free hfree, he.migrating, Bool.not_true, Bool.and_false] at hn
    rw [hop, if_neg (by decide)]
    omega
  | replace hop hno hold hset hdirty hs he =>
    have hn := hs.settledBlocks h h'
    rw [hold.settledAt, hset, he.migrating, Bool.not_true, Bool.and_false] at hn
    rw [hop, if_pos rfl]
    exact hn
  | pass hop hno hs =>
    rw [hs.settledBlocks h h', if_neg]
    · rfl
    · rcases hop with hop | hop
      · rw [hop]; decide
      · rw [hop]; decide

/-! ## The nucleus operations count nothing -/

theorem cacheNucleusRemove_stats (hrun : cacheNucleusRemove cn r = .ok cn') :
    cn'.stats = cn.stats := by
  obtain ⟨cn1, hrem, hrun⟩ := bind_eq_ok.mp hrun
  obtain ⟨ep, _, hrun⟩ := bind_eq_ok.mp hrun
  unfold hashRemove at hrem
  split at hrem
  · rw [← Except.ok.inj hrun, ← Except.ok.inj hrem]
    rfl
  · cases hrem

theorem allocPoolEntry_stats {p : PoolId} (hrun : allocPoolEntry cn p o = .ok (cn', r)) :
    cn'.stats = cn.stats := by
  unfold allocPoolEntry at hrun
  split at hrun
  · cases hrun
  · rw [← (Prod.mk.inj (Except.ok.inj hrun)).1]
    rfl

theorem insertInMeta_stats (hrun : insertInMeta cn o = .ok (cn', r)) : cn'.stats = cn.stats :=
  allocPoolEntry_stats hrun

theorem allocPoolEntry_pool {p : PoolId} (hrun : allocPoolEntry cn p o = .ok (cn', r)) :
    r.pool = p := by
  unfold allocPoolEntry at hrun
  split at hrun
  · cases hrun
  · rw [← (Prod.mk.inj (Except.ok.inj hrun)).2]

theorem insertInCache_stats {result res : CacheNucleusResult}
    (hrun : insertInCache cn o result = .ok (cn', r, res)) : cn'.stats = cn.stats := by
  obtain ⟨⟨cn1, r1⟩, halloc, hrun⟩ := bind_eq_ok.mp hrun
  obtain ⟨rfl, _⟩ := Prod.mk.inj (Except.ok.inj hrun)
  exact allocPoolEntry_stats halloc

theorem insertInCache_op {result res : CacheNucleusResult}
    (hrun : insertInCache cn o result = .ok (cn', r, res)) : res.op = result.op := by
  obtain ⟨⟨cn1, r1⟩, _, hrun⟩ := bind_eq_ok.mp hrun
  obtain ⟨_, heq⟩ := Prod.mk.inj (Except.ok.inj hrun)
  rw [← (Prod.mk.inj heq).2]

theorem insertInCacheAt_stats (hrun : insertInCacheAt cn o cb = .ok (cn', r)) :
    cn'.stats = cn.stats := by
  obtain ⟨⟨ep, i⟩, _, hrun⟩ := bind_eq_ok.mp hrun
  rw [← (Prod.mk.inj (Except.ok.inj hrun)).1]
  rfl

theorem migratingCacheEntry_stats (hrun : migratingCacheEntry cn r = .ok cn') :
    cn'.stats = cn.stats := by
  obtain ⟨_, _, hrun⟩ := bind_eq_ok.mp hrun
  obtain ⟨ep, _, hrun⟩ := bind_eq_ok.mp hrun
  exact Except.ok.inj hrun ▸ rfl

theorem migratedCacheEntry_stats {x : Option EntryRef}
    (hrun : migratedCacheEntry cn x = .ok (cn', r)) : cn'.stats = cn.stats := by
  cases x with
  | none => cases hrun
  | some r1 =>
    obtain ⟨_, _, hrun⟩ := bind_eq_ok.mp hrun
    obtain ⟨ep, _, hrun⟩ := bind_eq_ok.mp hrun
    rw [← (Prod.mk.inj (Except.ok.inj hrun)).1]
    rfl

theorem dirtyWork_stats (cn : CacheNucleus) (o : Oblock) (w : Bool) :
    (dirtyWork cn o w).stats = cn.stats := by
  unfold dirtyWork
  split
  · rfl
  · split
    · rfl
    · rfl

end CacheNucleus

/-! ## The balances -/

/-- The requests are hits, misses and filtered ones, and the blocks that came in went out
again or are there. -/
structure PolicyStats.Balanced (stats : PolicyStats)
    (t : List (Call × Option CacheNucleusResult)) (settled : Nat) : Prop where
  ios : stats.ios = stats.hits + stats.misses + stats.filters
  requests : stats.ios = t.countP servedRequest
  blocks : stats.promotions + t.countP preload = stats.demotions + settled

/-- The counters are those of the run, and read as not having wrapped they balance. -/
structure PolicyStats.Balances (stats : PolicyStats)
    (t : List (Call × Option CacheNucleusResult)) (settled : Nat) : Prop where
  read : ∃ demotions, stats = (tally t demotions).wrapped ∧
    (tally t demotions).Balanced t settled
  unwrapped : t.length < 2 ^ 32 → stats.Balanced t settled

/-- The counts of the run, so many blocks demoted in it. -/
structure PolicyStats.Tallied (stats : PolicyStats)
    (t : List (Call × Option CacheNucleusResult)) (settled demotions : Nat) : Prop where
  wrapped : stats = (tally t demotions).wrapped
  blocks : t.countP completion + t.countP preload = demotions + settled

namespace PolicyStats.Tallied

variable {stats : PolicyStats} {t : List (Call × Option CacheNucleusResult)} {n n' d : Nat}
  {o : Oblock} {w keep : Bool} {cb : Cblock} {result res : CacheNucleusResult}
  {x : Option CacheNucleusResult}

theorem nil : ({} : PolicyStats).Tallied [] 0 0 := ⟨rfl, rfl⟩

theorem request (h : stats.Tallied t n d) (hn : n' + (if res.op = .replace then 1 else 0) = n) :
    (stats.after res.op).Tallied (t ++ [(.map o w result, some res)]) n'
      (d + if res.op = .replace then 1 else 0) := by
  obtain ⟨rfl, hblocks⟩ := h
  constructor
  · cases hop : res.op <;>
      simp [after, tally, PolicyStats.wrapped, servedRequest, endedIn, completion, hop,
        u32_succ, Nat.add_assoc, Nat.add_right_comm _ 1]
  · simp only [List.countP_append, List.countP_singleton, completion, preload,
      Bool.false_eq_true, if_false]
    omega

theorem promoted (h : stats.Tallied t n d) :
    ({ stats with promotions := u32 (stats.promotions + 1) } : PolicyStats).Tallied
      (t ++ [(.migrated o, x)]) (n + 1) d := by
  obtain ⟨rfl, hblocks⟩ := h
  constructor
  · simp [tally, PolicyStats.wrapped, servedRequest, endedIn, completion, u32_succ]
  · simp only [List.countP_append, List.countP_singleton, completion, preload,
      Bool.false_eq_true, if_true, if_false]
    omega

theorem preloaded (h : stats.Tallied t n d) :
    stats.Tallied (t ++ [(.insert o cb, x)]) (n + 1) d := by
  obtain ⟨rfl, hblocks⟩ := h
  constructor
  · simp [tally, servedRequest, endedIn, completion]
  · simp only [List.countP_append, List.countP_singleton, completion, preload,
      Bool.false_eq_true, if_true, if_false]
    omega

theorem dropped (h : stats.Tallied t n d) : stats.Tallied (t ++ [(.remove o keep, x)]) n d := by
  obtain ⟨rfl, hblocks⟩ := h
  constructor
  · simp [tally, servedRequest, endedIn, completion]
  · simpa [completion, preload] using hblocks

theorem demoted (h : stats.Tallied t (n + 1) d) :
    ({ stats with demotions := u32 (stats.demotions + 1) } : PolicyStats).Tallied
      (t ++ [(.remove o keep, x)]) n (d + 1) := by
  obtain ⟨rfl, hblocks⟩ := h
  constructor
  · simp [tally, PolicyStats.wrapped, servedRequest, endedIn, completion, u32_succ]
  · simp only [List.countP_append, List.countP_singleton, completion, preload,
      Bool.false_eq_true, if_false]
    omega

theorem balanced (h : stats.Tallied t n d) : (tally t d).Balanced t n where
  ios := countP_servedRequest t
  requests := rfl
  blocks := h.blocks

/-- No counter exceeds the number of calls. -/
theorem balances (h : stats.Tallied t n d) : stats.Balances t n := by
  refine ⟨⟨d, h.wrapped, h.balanced⟩, fun hlen => ?_⟩
  have hreq := countP_servedRequest t
  have hle : t.countP servedRequest ≤ t.length := List.countP_le_length
  have hmig := countP_completion_add_preload_le t
  have hblocks := h.blocks
  have hread : (tally t d).wrapped = tally t d := by
    simp only [PolicyStats.wrapped, tally]
    rw [u32_of_lt (by omega), u32_of_lt (by omega), u32_of_lt (by omega), u32_of_lt (by omega),
      u32_of_lt (by omega), u32_of_lt (by omega), u32_of_lt (by omega)]
  rw [h.wrapped, hread]
  exact h.balanced

end PolicyStats.Tallied

namespace Policy

variable {σ : Type} {P : Policy σ} {I : σ → Prop} {s s' s0 : σ} {c : Call}
  {x : Option CacheNucleusResult} {t : List (Call × Option CacheNucleusResult)}

/-- From the states of `I`, each call moves the counters it should. -/
structure Counts (P : Policy σ) (I : σ → Prop) : Prop where
  map : ∀ {s s' o w result res}, I s → P.map s o w result = .ok (s', res) →
    (P.nucleus s').stats = (P.nucleus s).stats.after res.op
  migrated : ∀ {s s' o}, I s → P.migrated s o = .ok s' →
    (P.nucleus s').stats = (P.nucleus s).incPromotions.stats
  insert : ∀ {s s' o cb}, I s → P.insert s o cb = .ok s' →
    (P.nucleus s').stats = (P.nucleus s).stats
  remove : ∀ {s s' o cb keep}, I s → (P.nucleus s).Caches o cb →
    P.remove s o keep = .ok s' → (P.nucleus s').stats =
      if ((P.nucleus s).entry ⟨.cache, cb⟩).migrating then (P.nucleus s).stats
      else (P.nucleus s).incDemotions.stats

theorem Counts.step {d : Nat} (h : P.Counts I) (hs : P.Serves I) (hi : I s)
    (hb : (P.nucleus s).stats.Tallied t (P.nucleus s).settledBlocks d)
    (hg : servingCalls (P.nucleus s) c) (hcall : P.call s c = .ok (s', x)) :
    ∃ d', (P.nucleus s').stats.Tallied (t ++ [(c, x)]) (P.nucleus s').settledBlocks d' := by
  obtain ⟨hi', hserved⟩ := hs.call hi hg hcall
  have hw := hs.wf hi
  have hw' := hs.wf hi'
  cases hserved with
  | @map o w result res heff =>
    obtain ⟨_, heq, hmap⟩ := call_map.mp hcall
    obtain rfl := Option.some.inj heq
    rw [h.map hi hmap]
    exact ⟨_, hb.request (heff.settledBlocks hw hw')⟩
  | @migrated o cb e hc hm hslot he =>
    obtain ⟨s1, hrun, heq⟩ := map_eq_ok.mp hcall
    obtain ⟨rfl, _⟩ := Prod.mk.inj heq
    have hn := hslot.settledBlocks hw hw'
    have hm : ((P.nucleus s).entry ⟨.cache, cb⟩).migrating = true := hm
    rw [hc.settledAt, hm, he.allocated, he.migrating] at hn
    have hn : (P.nucleus s1).settledBlocks = (P.nucleus s).settledBlocks + 1 := hn
    rw [h.migrated hi hrun, hn]
    exact ⟨d, hb.promoted⟩
  | @insert o cb e hf hslot he =>
    obtain ⟨s1, hrun, heq⟩ := map_eq_ok.mp hcall
    obtain ⟨rfl, _⟩ := Prod.mk.inj heq
    have hn := hslot.settledBlocks hw hw'
    rw [CacheNucleus.settledAt_of_free hf.2.2, he.allocated, he.migrating] at hn
    have hn : (P.nucleus s1).settledBlocks = (P.nucleus s).settledBlocks + 1 := hn
    rw [h.insert hi hrun, hn]
    exact ⟨d, hb.preloaded⟩
  | @remove o cb keep e hc hslot he =>
    obtain ⟨s1, hrun, heq⟩ := map_eq_ok.mp hcall
    obtain ⟨rfl, _⟩ := Prod.mk.inj heq
    have hn := hslot.settledBlocks hw hw'
    rw [hc.settledAt, he] at hn
    rw [h.remove hi hc hrun]
    cases hm : ((P.nucleus s).entry ⟨.cache, cb⟩).migrating with
    | true =>
      rw [hm] at hn
      have hn : (P.nucleus s1).settledBlocks = (P.nucleus s).settledBlocks := hn
      rw [hn]
      exact ⟨d, hb.dropped⟩
    | false =>
      rw [hm] at hn
      have hn : (P.nucleus s1).settledBlocks + 1 = (P.nucleus s).settledBlocks := hn
      rw [← hn] at hb
      exact ⟨d + 1, hb.demoted⟩

/-- A fresh policy that counts every call keeps the balances over every run. -/
theorem Counts.balanced (h : P.Counts I) (hs : P.Serves I) (h0 : I s0)
    (hstats : (P.nucleus s0).stats = {}) (hempty : (P.nucleus s0).settledBlocks = 0)
    (hrun : (P.system fun s => servingCalls (P.nucleus s)).Run s0 t s) :
    (P.nucleus s).stats.Balances t (P.nucleus s).settledBlocks := by
  have hboth : I s ∧ ∃ d, (P.nucleus s).stats.Tallied t (P.nucleus s).settledBlocks d := by
    apply hrun.history (J := fun t s => I s ∧
      ∃ d, (P.nucleus s).stats.Tallied t (P.nucleus s).settledBlocks d)
    · refine ⟨h0, 0, ?_⟩
      rw [hstats, hempty]
      exact PolicyStats.Tallied.nil
    · intro t a c b x ⟨hi, d, hd⟩ hg hcall
      exact ⟨(hs.call hi hg hcall).1, h.step hs hi hd hg hcall⟩
  obtain ⟨_, d, hd⟩ := hboth
  exact hd.balances

end Policy

/-! ## Wrappers -/

/-- The requests and completed migrations. -/
def requestCalls : Call → Prop
  | .map _ _ _ => True
  | .migrated _ => True
  | _ => False

instance : DecidablePred requestCalls
  | .map _ _ _ => .isTrue trivial
  | .migrated _ => .isTrue trivial
  | .insert _ _ => .isFalse id
  | .remove _ _ => .isFalse id
  | .remap _ _ => .isFalse id
  | .setTime _ => .isFalse id

/-- They, where every request is one that `passes` allows in the state it meets. -/
def passing {σ : Type} (passes : σ → Oblock → Bool → Prop) (s : σ) : Call → Prop
  | .map o w _ => passes s o w
  | .migrated _ => True
  | _ => False

/-- The requests are hits, misses and filtered ones, and each that did not fail is counted. -/
structure PolicyStats.Adds (stats : PolicyStats) (t : List (Call × Option CacheNucleusResult)) :
    Prop where
  ios : stats.ios = stats.hits + stats.misses + stats.filters
  requests : stats.ios = t.countP servedRequest

/-- What a wrapper makes of the counters after a request that ended in `op`: its own filtered
requests come on top of what the policy below counted. -/
def PolicyStats.forwarded (stats : PolicyStats) (op : CacheNucleusOperation) : PolicyStats :=
  if op = .filter then { stats with filters := u32 (stats.filters + 1) } else stats.after op

/-- What a wrapper reports when it counts its filtered requests only as filtered. -/
structure PolicyStats.Forwarded (stats : PolicyStats)
    (t : List (Call × Option CacheNucleusResult)) : Prop where
  hits : stats.hits = (tally t 0).wrapped.hits
  misses : stats.misses = (tally t 0).wrapped.misses
  filters : stats.filters = (tally t 0).wrapped.filters
  ios : stats.ios = u32 ((tally t 0).hits + (tally t 0).misses)

namespace PolicyStats

variable {stats : PolicyStats} {t : List (Call × Option CacheNucleusResult)} {o : Oblock}
  {w : Bool} {result res : CacheNucleusResult} {x : Option CacheNucleusResult}

theorem Forwarded.request (h : stats.Forwarded t) :
    (stats.forwarded res.op).Forwarded (t ++ [(.map o w result, some res)]) := by
  obtain ⟨hhits, hmisses, hfilters, hios⟩ := h
  cases hop : res.op <;> constructor <;>
    simp [forwarded, after, tally, wrapped, endedIn, hop, hhits, hmisses, hfilters, hios,
      u32_succ, Nat.add_assoc, Nat.add_right_comm _ 1]

theorem Forwarded.migrated (h : stats.Forwarded t) (n : Nat) :
    ({ stats with promotions := n } : PolicyStats).Forwarded (t ++ [(.migrated o, x)]) := by
  obtain ⟨hhits, hmisses, hfilters, hios⟩ := h
  constructor <;> simp [tally, wrapped, endedIn, hhits, hmisses, hfilters, hios]

/-- The totals add up exactly when nothing was filtered and 32 bits hold them. -/
theorem Forwarded.adds_iff (h : stats.Forwarded t) :
    stats.Adds t ↔
      (∀ x ∈ t, endedIn .filter x = false) ∧ t.countP servedRequest < 2 ^ 32 := by
  have hcount : (∀ x ∈ t, endedIn .filter x = false) ↔ t.countP (endedIn .filter) = 0 := by
    rw [List.countP_eq_zero]
    simp only [Bool.not_eq_true]
  have hreq := countP_servedRequest t
  obtain ⟨hhits, hmisses, hfilters, hios⟩ := h
  simp only [tally, wrapped] at hhits hmisses hfilters hios
  rw [hcount]
  constructor
  · intro hadds
    have hsum := hadds.requests
    have hle := u32_le (t.countP (endedIn .hit) +
      (t.countP (endedIn .new) + t.countP (endedIn .replace)))
    have hlt := u32_lt (t.countP (endedIn .hit) +
      (t.countP (endedIn .new) + t.countP (endedIn .replace)))
    omega
  · intro ⟨hnone, hlt⟩
    rw [u32_of_lt (by omega)] at hhits hmisses hfilters hios
    exact ⟨by omega, by omega⟩

end PolicyStats

namespace Policy

variable {σ : Type} {P : Policy σ} {I : σ → Prop} {passes : σ → Oblock → Bool → Prop}
  {s0 s s' : σ} {t : List (Call × Option CacheNucleusResult)}

/-- From the states of `I`, a request is filtered exactly when it does not pass, and the
counters that are reported move as the answer says. -/
structure Forwards (P : Policy σ) (I : σ → Prop) (passes : σ → Oblock → Bool → Prop) : Prop where
  map : ∀ {s s' o w result res}, I s → P.map s o w result = .ok (s', res) →
    I s' ∧ (res.op = .filter ↔ ¬passes s o w) ∧
      P.getStats s' {} = (P.getStats s {}).forwarded res.op
  migrated : ∀ {s s' o}, I s → P.migrated s o = .ok s' →
    I s' ∧ P.getStats s' {} =
      { P.getStats s {} with promotions := u32 ((P.getStats s {}).promotions + 1) }

theorem Forwards.forwarded (h : P.Forwards I passes) (h0 : I s0) (hstats : P.getStats s0 {} = {})
    (hrun : (P.system fun _ => requestCalls).Run s0 t s) :
    I s ∧ (P.getStats s {}).Forwarded t := by
  apply hrun.history (J := fun t s => I s ∧ (P.getStats s {}).Forwarded t)
  · refine ⟨h0, ?_⟩
    rw [hstats]
    exact ⟨rfl, rfl, rfl, rfl⟩
  · intro t a c b x ha hg hcall
    cases c with
    | map o w result =>
      obtain ⟨res, rfl, hmap⟩ := call_map.mp hcall
      obtain ⟨hi, _, hs⟩ := h.map ha.1 hmap
      rw [hs]
      exact ⟨hi, ha.2.request⟩
    | migrated o =>
      obtain ⟨b1, hrun, heq⟩ := map_eq_ok.mp hcall
      obtain ⟨rfl, rfl⟩ := Prod.mk.inj heq
      obtain ⟨hi, hs⟩ := h.migrated ha.1 hrun
      rw [hs]
      exact ⟨hi, ha.2.migrated _⟩
    | insert o cb => exact hg.elim
    | remove o keep => exact hg.elim
    | remap a b => exact hg.elim
    | setTime t => exact hg.elim

theorem run_of_passing (hrun : (P.system (passing passes)).Run s0 t s) :
    (P.system fun _ => requestCalls).Run s0 t s := by
  induction hrun with
  | nil => exact .nil
  | @snoc t s1 c x s2 _ hg hcall ih =>
    refine ih.snoc ?_ hcall
    cases c with
    | map o w result => trivial
    | migrated o => trivial
    | insert o cb => exact hg.elim
    | remove o keep => exact hg.elim
    | remap a b => exact hg.elim
    | setTime t => exact hg.elim

/-- Nothing was filtered exactly when every request passed. -/
theorem Forwards.passing_iff (h : P.Forwards I passes) (h0 : I s0)
    (hrun : (P.system fun _ => requestCalls).Run s0 t s) :
    (∀ x ∈ t, endedIn .filter x = false) ↔ (P.system (passing passes)).Run s0 t s := by
  constructor
  · intro hnone
    have hboth : I s ∧ (P.system (passing passes)).Run s0 t s := by
      induction hrun with
      | nil => exact ⟨h0, .nil⟩
      | @snoc t s1 c x s2 _ hg hcall ih =>
        obtain ⟨hi, hpass⟩ := ih fun y hy => hnone y (List.mem_append_left _ hy)
        have hlast := hnone (c, x) (List.mem_append_right _ List.mem_cons_self)
        cases c with
        | map o w result =>
          obtain ⟨res, rfl, hmap⟩ := call_map.mp hcall
          obtain ⟨hi2, hfilter, _⟩ := h.map hi hmap
          refine ⟨hi2, hpass.snoc ?_ hcall⟩
          by_contra hno
          have hlast : decide (res.op = .filter) = false := hlast
          exact of_decide_eq_false hlast (hfilter.mpr hno)
        | migrated o =>
          obtain ⟨b1, hmig, heq⟩ := map_eq_ok.mp hcall
          obtain ⟨rfl, rfl⟩ := Prod.mk.inj heq
          exact ⟨(h.migrated hi hmig).1, hpass.snoc trivial hcall⟩
        | insert o cb => exact hg.elim
        | remove o keep => exact hg.elim
        | remap a b => exact hg.elim
        | setTime t => exact hg.elim
    exact hboth.2
  · intro hpass
    have hboth : I s ∧ ∀ x ∈ t, endedIn .filter x = false := by
      apply hpass.history (J := fun t s => I s ∧ ∀ x ∈ t, endedIn .filter x = false)
      · exact ⟨h0, fun x hx => absurd hx List.not_mem_nil⟩
      · intro t a c b x ha hg hcall
        cases c with
        | map o w result =>
          obtain ⟨res, rfl, hmap⟩ := call_map.mp hcall
          obtain ⟨hi, hfilter, _⟩ := h.map ha.1 hmap
          refine ⟨hi, fun y hy => ?_⟩
          rcases List.mem_append.mp hy with hy | hy
          · exact ha.2 y hy
          · rw [List.mem_singleton.mp hy]
            exact decide_eq_false fun hop => hfilter.mp hop hg
        | migrated o =>
          obtain ⟨b1, hmig, heq⟩ := map_eq_ok.mp hcall
          obtain ⟨rfl, rfl⟩ := Prod.mk.inj heq
          refine ⟨(h.migrated ha.1 hmig).1, fun y hy => ?_⟩
          rcases List.mem_append.mp hy with hy | hy
          · exact ha.2 y hy
          · rw [List.mem_singleton.mp hy]
            rfl
        | insert o cb => exact hg.elim
        | remove o keep => exact hg.elim
        | remap a b => exact hg.elim
        | setTime t => exact hg.elim
    exact hboth.2

/-- The totals of a wrapper add up over the runs that meet no filtered request and fewer than
`2 ^ 32` others, and over no other runs. -/
theorem Forwards.adds_iff (h : P.Forwards I passes) (h0 : I s0) (hstats : P.getStats s0 {} = {})
    (hrun : (P.system fun _ => requestCalls).Run s0 t s) :
    (P.getStats s {}).Adds t ↔
      (P.system (passing passes)).Run s0 t s ∧ t.countP servedRequest < 2 ^ 32 := by
  rw [(h.forwarded h0 hstats hrun).2.adds_iff, h.passing_iff h0 hrun]

end Policy

end Fomo
