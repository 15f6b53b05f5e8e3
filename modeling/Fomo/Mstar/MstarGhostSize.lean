import Fomo.Mstar.MstarSteady
import Fomo.Algs.LruSync

/-!
# The ghost target of m*

Every miss of a full cache raises the target, and the assertion there wants it positive;
every hit lowers it, down to a tenth of the cache. Below ten slots that tenth is 0.
-/
namespace Fomo

variable {σ : Type} {P : Policy σ} {c g : Nat} {o : Oblock} {w : Bool}
  {result res : CacheNucleusResult}

/-- The target that `mstar_increase_ghost_size` makes of `g`. -/
def grownGhosts (c g : Nat) : Nat := min (u32 (9 * c) / 10) (u32 (g + c / g))

/-- The target that `mstar_decrease_ghost_size` makes of `g`. -/
def shrunkGhosts (c g : Nat) : Nat :=
  if g ≥ c / (c - g) then max (c / 10) (g - c / (c - g)) else c / 10

theorem grownGhosts_le (c g : Nat) : grownGhosts c g ≤ 9 * c / 10 :=
  (Nat.min_le_left _ _).trans (Nat.div_le_div_right (u32_le _))

theorem shrunkGhosts_le (h : g ≤ 9 * c / 10) : shrunkGhosts c g ≤ 9 * c / 10 := by
  unfold shrunkGhosts
  split
  · exact Nat.max_le.mpr ⟨by omega, (Nat.sub_le _ _).trans h⟩
  · omega

/-- Without a tenth to stop at the target falls with every hit. -/
theorem shrunkGhosts_lt (hc : c < 10) (hg : 0 < g) (hlt : g < c) : shrunkGhosts c g < g := by
  have hpos : 0 < c / (c - g) := Nat.div_pos (Nat.sub_le _ _) (by omega)
  unfold shrunkGhosts
  split
  · exact Nat.max_lt.mpr ⟨by omega, by omega⟩
  · omega

namespace MstarPolicy

variable {m m' : MstarPolicy σ} {r : EntryRef} {i : σ}

theorem increase_eq (hms : m.nucleus.metaSize = c) : mstarIncreaseGhostSize m =
    if 0 < m.ghostSize then .ok { m with ghostSize := grownGhosts c m.ghostSize }
    else .error .assertion := by
  unfold mstarIncreaseGhostSize
  dsimp only
  rw [hms]
  split
  · next hpos =>
    simp only [logAssert_true hpos, ok_bind, div32_of_pos hpos, pure_eq_ok]
    rfl
  · next hzero =>
    simp [logAssert, hzero]

theorem decrease_eq (hms : m.nucleus.metaSize = c) : mstarDecreaseGhostSize m =
    if m.ghostSize < c then .ok { m with ghostSize := shrunkGhosts c m.ghostSize }
    else .error .assertion := by
  unfold mstarDecreaseGhostSize
  dsimp only
  rw [hms]
  split
  · next hlt =>
    have hpos : 0 < c - m.ghostSize := by omega
    simp only [logAssert_true hlt, ok_bind, div32_of_pos hpos, shrunkGhosts]
    split <;> rfl
  · next hle =>
    simp [logAssert, hle]

/-! ## The part of a request that hits or misses -/

/-- A hit. -/
theorem Steady.serve_hit (h : m.Steady c) (hc : 0 < c)
    (hl : (P.cacheLookup m.internal o).isSome = true)
    (hmap : P.map m.internal o w result = .ok (i, res)) (ghostHit : Bool) :
    mstarServe P m o w (P.cacheLookup m.internal o).isSome ghostHit result = .ok ({ m with
      internal := i
      ghostSize := if m.logic.state ≠ .unstable ∨ P.cacheIsFull i = true then
        shrunkGhosts c m.ghostSize else m.ghostSize }, res) := by
  have hle := h.ghostSize_le
  have hms : ({ m with internal := i } : MstarPolicy σ).nucleus.metaSize = c := h.metaSize
  have hdec := decrease_eq hms
  rw [if_pos (show m.ghostSize < c by omega)] at hdec
  rw [mstarServe, hl, if_pos rfl]
  simp only [mstarHit, mstarMapInternal, hmap, ok_bind, pure_eq_ok]
  split
  · rw [hdec]
    rfl
  · rfl

/-- A miss while there is room. -/
theorem serve_room (hl : (P.cacheLookup m.internal o).isSome = false)
    (hroom : P.cacheIsFull m.internal = false)
    (hmap : P.map m.internal o w result = .ok (i, res)) (ghostHit : Bool) :
    mstarServe P m o w (P.cacheLookup m.internal o).isSome ghostHit result =
      .ok ({ m with internal := i }, res) := by
  rw [mstarServe, hl]
  cases ghostHit with
  | true =>
    simp only [Bool.false_eq_true, if_false, if_true, mstarGhostHit, hroom, ok_bind,
      mstarMapInternal, hmap, pure_eq_ok]
  | false =>
    simp only [Bool.false_eq_true, if_false, mstarGhostMiss, hroom, mstarMapInternal, hmap,
      ok_bind, pure_eq_ok]

/-- `m'` differs from `m` in the ghosts only. -/
structure Shifts (c : Nat) (m m' : MstarPolicy σ) : Prop where
  steady : m'.Steady c
  keeps : m.Keeps m'
  ghostSize : m'.ghostSize = m.ghostSize

theorem Steady.dropGhost (h : m.Steady c) (hr : r ∈ m.mstarG) :
    ∃ m', mstarOnlyRemove m r = .ok m' ∧ Shifts c m m' ∧
      m'.mstarG.length + 1 = m.mstarG.length ∧
      m'.nucleus.Absent (m.nucleus.entry r).oblock := by
  obtain ⟨cn, hrun, hg, habs, hms⟩ := h.ghosts.remove hr
  have hpos := List.length_pos_of_mem hr
  refine ⟨{ m with mstarG := m.mstarG.erase r, nucleus := cn }, ?_,
    ⟨⟨hg, hms.trans h.metaSize, h.ghostSize_le, h.sane⟩, ⟨rfl, rfl⟩, rfl⟩, ?_, habs⟩
  · simp only [mstarOnlyRemove, hrun, ok_bind, queueRemove_eq, pure_eq_ok]
  · show (m.mstarG.erase r).length + 1 = _
    rw [List.length_erase_of_mem hr]
    omega

theorem Steady.addGhost (h : m.Steady c) (hlen : m.mstarG.length < c) (ho : m.nucleus.Absent o) :
    ∃ m', mstarPushGhost m o = .ok m' ∧ Shifts c m m' ∧
      m'.mstarG.length = m.mstarG.length + 1 := by
  obtain ⟨cn, me, hrun, hg, hms⟩ := h.ghosts.insert hlen ho
  refine ⟨{ m with nucleus := cn, mstarG := m.mstarG ++ [me] }, ?_,
    ⟨⟨hg, hms.trans h.metaSize, h.ghostSize_le, h.sane⟩, ⟨rfl, rfl⟩, rfl⟩, ?_⟩
  · simp only [mstarPushGhost, hrun, ok_bind, queuePush_eq, pure_eq_ok]
  · simp only [List.length_append, List.length_singleton]

theorem Shifts.trans {m'' : MstarPolicy σ} (h : Shifts c m m') (h' : Shifts c m' m'') :
    Shifts c m m'' :=
  ⟨h'.steady, h.keeps.trans h'.keeps, h'.ghostSize.trans h.ghostSize⟩

/-- What follows the increase of the target on a miss of a full cache: the block is mapped, or
the request is filtered. -/
def mapOrFilter (P : Policy σ) (mapped : Bool) (m : MstarPolicy σ) (o : Oblock) (w : Bool)
    (result : CacheNucleusResult) : Exec (MstarPolicy σ × CacheNucleusResult) :=
  if mapped then mstarMapInternal P m o w result
  else .ok ({ m with nucleus := m.nucleus.incFilters.incIos }, result)

/-- A miss of a full cache moves the ghosts, then the target, and then maps or filters. -/
theorem Steady.serve_full (h : m.Steady c) (hc : 0 < c) (hlen : m.mstarG.length ≤ 9 * c / 10)
    (hl : (P.cacheLookup m.internal o).isSome = false)
    (hfull : P.cacheIsFull m.internal = true) (w : Bool) (result : CacheNucleusResult) :
    ∃ m1 mapped, Shifts c m m1 ∧ m1.mstarG.length ≤ 9 * c / 10 + 1 ∧
      mstarServe P m o w (P.cacheLookup m.internal o).isSome (hashLookup m.nucleus o).isSome
          result =
        (mstarIncreaseGhostSize m1 >>= fun m2 => mapOrFilter P mapped m2 o w result) := by
  rw [mstarServe, hl, if_neg Bool.false_ne_true]
  cases hg : hashLookup m.nucleus o with
  | some r =>
    obtain ⟨m1, hdrop, h1, hlen1, habs⟩ := h.dropGhost (h.ghosts.lookup_mem hg)
    rw [(h.ghosts.wf.hashLookup_eq_some.mp hg).2] at habs
    simp only [Option.isSome_some, if_true, mstarGhostHit, hfull, hg, deref_some, ok_bind, hdrop]
    by_cases hst : m1.logic.state = .unstable
    · obtain ⟨m2, hadd, h2, hlen2⟩ := h1.steady.addGhost (by omega) habs
      refine ⟨m2, true, h1.trans h2, by omega, ?_⟩
      simp only [hst, if_true, hadd, ok_bind, mapOrFilter]
    · refine ⟨m1, true, h1, by omega, ?_⟩
      simp only [hst, if_false, mapOrFilter, if_true]
  | none =>
    obtain ⟨m1, hadd, h1, hlen1⟩ :=
      h.addGhost (by omega) (h.ghosts.wf.hashLookup_eq_none.mp hg)
    simp only [Option.isSome_none, Bool.false_eq_true, if_false, mstarGhostMiss, hfull, if_true,
      hadd, ok_bind]
    refine ⟨m1, decide (m1.logic.state = .unstable), h1, by omega, ?_⟩
    rw [increase_eq h1.steady.metaSize]
    split
    · by_cases hst : m1.logic.state = .unstable
      · simp [hst, mapOrFilter]
      · simp [hst, mapOrFilter]
    · rfl

/-- It returns when the target is positive and the internal policy returns. -/
theorem Steady.serve_grown (h : m.Steady c) (hc : 0 < c) (hlen : m.mstarG.length ≤ 9 * c / 10)
    (hl : (P.cacheLookup m.internal o).isSome = false) (hfull : P.cacheIsFull m.internal = true)
    (hpos : 0 < m.ghostSize) (hmap : P.map m.internal o w result = .ok (i, res)) :
    ∃ m1 res1, mstarServe P m o w (P.cacheLookup m.internal o).isSome
        (hashLookup m.nucleus o).isSome result = .ok (m1, res1) ∧ m1.Steady c ∧
      m1.mstarG.length ≤ 9 * c / 10 + 1 ∧ m1.logic = m.logic ∧
      m1.ghostSize = grownGhosts c m.ghostSize ∧
      ((m1.internal = i ∧ res1 = res) ∨ (m1.internal = m.internal ∧ res1 = result)) := by
  obtain ⟨m1, mapped, h1, hlen1, hserve⟩ :=
    h.serve_full hc hlen hl hfull w result
  have hsize := h1.ghostSize
  rw [hserve, increase_eq h1.steady.metaSize, if_pos (hsize ▸ hpos), ok_bind]
  have h2 : ({ m1 with ghostSize := grownGhosts c m1.ghostSize } : MstarPolicy σ).Steady c :=
    ⟨h1.steady.ghosts, h1.steady.metaSize, grownGhosts_le _ _, h1.steady.sane⟩
  cases mapped with
  | true =>
    simp only [mapOrFilter, if_true, mstarMapInternal, h1.keeps.internal, hmap, ok_bind,
      pure_eq_ok]
    exact ⟨_, _, rfl, h2.withInternal i, hlen1, h1.keeps.logic, congrArg (grownGhosts c) hsize,
      Or.inl ⟨rfl, rfl⟩⟩
  | false =>
    simp only [mapOrFilter, Bool.false_eq_true, if_false]
    exact ⟨_, _, rfl, ⟨h2.ghosts.withStats _, h2.metaSize, h2.ghostSize_le, h2.sane⟩, hlen1,
      h1.keeps.logic, congrArg (grownGhosts c) hsize, Or.inr ⟨h1.keeps.internal, rfl⟩⟩

/-- With a target of 0 the assertion fails. -/
theorem Steady.serve_asserts (h : m.Steady c) (hc : 0 < c)
    (hlen : m.mstarG.length ≤ 9 * c / 10) (hl : (P.cacheLookup m.internal o).isSome = false)
    (hfull : P.cacheIsFull m.internal = true) (hzero : m.ghostSize = 0) (w : Bool)
    (result : CacheNucleusResult) :
    mstarServe P m o w (P.cacheLookup m.internal o).isSome (hashLookup m.nucleus o).isSome
      result = .error .assertion := by
  obtain ⟨m1, mapped, h1, _, hserve⟩ := h.serve_full hc hlen hl hfull w result
  have hsize := h1.ghostSize
  rw [hserve, increase_eq h1.steady.metaSize, if_neg (by omega)]
  rfl

/-! ## A request -/

/-- What comes after the hit or the miss: at most one ghost goes, and the logic counts. -/
theorem Steady.finish {m1 : MstarPolicy σ} (h : m.Steady c) (hc : 0 < c) (h1 : m1.Steady c)
    (hlen : m1.mstarG.length ≤ 9 * c / 10 + 1) (hlogic : m1.logic = m.logic)
    (hserve : mstarServe P m o w (P.cacheLookup m.internal o).isSome
      (hashLookup m.nucleus o).isSome { result with op := .filter } = .ok (m1, res)) :
    ∃ m', mstarMap P m o w result = .ok (m', res) ∧ m'.Steady c ∧
      m'.mstarG.length ≤ 9 * c / 10 ∧ m'.internal = m1.internal ∧
      m'.ghostSize = m1.ghostSize := by
  obtain ⟨logic, hupd, hsane, _⟩ := updateMstar_spec h.sane hc
    (P.cacheLookup m.internal o).isSome (hashLookup m.nucleus o).isSome
  have hle := h1.ghostSize_le
  obtain ⟨m2, hcontrol, h2, hlen2⟩ : ∃ m2, mstarGhostLengthControl m1 = .ok m2 ∧
      Shifts c m1 m2 ∧ m2.mstarG.length ≤ 9 * c / 10 := by
    unfold mstarGhostLengthControl
    rw [queueLength_eq]
    split
    · next hlong =>
      obtain ⟨me, q, hq⟩ := List.exists_cons_of_length_pos (l := m1.mstarG) (by omega)
      obtain ⟨m2, hdrop, h2, hlen2, _⟩ := h1.dropGhost (r := me) (hq ▸ List.mem_cons_self)
      have hnd : me ∉ q := (List.nodup_cons.mp (hq ▸ h1.ghosts.nodup)).1
      have hpop : mstarOnlyRemove { m1 with mstarG := q } me = mstarOnlyRemove m1 me := by
        simp only [mstarOnlyRemove, queueRemove_eq, hq, List.erase_cons_head,
          List.erase_of_not_mem hnd]
      refine ⟨m2, ?_, h2, by omega⟩
      simp only [mstarEvict, hq, queuePop_cons, hpop, hdrop]
    · exact ⟨m1, rfl, ⟨h1, ⟨rfl, rfl⟩, rfl⟩, by omega⟩
  refine ⟨{ m2 with logic := logic }, ?_, ?_, hlen2, h2.keeps.internal, h2.ghostSize⟩
  · simp only [mstarMap, hserve, ok_bind, hcontrol, h2.keeps.logic, hlogic, hupd, pure_eq_ok]
  · exact ⟨h2.steady.ghosts, h2.steady.metaSize, h2.steady.ghostSize_le, hsane⟩

/-! ## Over LRU -/

/-- The assertions on the ghost size hold where a request for `o` meets them: when it misses
while the cache is full, and when it hits and the target is lowered. -/
structure GhostAsserts (P : Policy σ) (m : MstarPolicy σ) (o : Oblock) (w : Bool)
    (result : CacheNucleusResult) : Prop where
  increase : (P.cacheLookup m.internal o).isSome = false → P.cacheIsFull m.internal = true →
    m.ghostSize > 0
  decrease : ∀ i res, (P.cacheLookup m.internal o).isSome = true →
    P.map m.internal o w { result with op := .filter } = .ok (i, res) →
    (m.logic.state ≠ .unstable ∨ P.cacheIsFull i = true) → m.nucleus.metaSize > m.ghostSize

/-- m* over LRU between synchronous requests, of which LRU has seen `os`. -/
structure Serving (c : Nat) (os : List Oblock) (m : MstarPolicy LruPolicy) : Prop where
  steady : m.Steady c
  length_le : m.mstarG.length ≤ 9 * c / 10
  lru : m.internal.Textbook c os

section Lru

variable {m m' : MstarPolicy LruPolicy} {os : List Oblock} {q : Oblock × Bool}

theorem Serving.lookup_iff (h : m.Serving c os) :
    (lruApi.cacheLookup m.internal o).isSome = true ↔ o ∈ Lib.mostRecent c os := by
  rw [← h.lru.recency, ← not_iff_not, ← h.lru.absent_iff, ← lru_cacheLookup h.lru.inv,
    Option.not_isSome_iff_eq_none]

theorem Serving.full_iff (h : m.Serving c os) :
    lruApi.cacheIsFull m.internal = true ↔ (Lib.mostRecent c os).length = c := by
  have hlen := h.lru.recency_length
  rw [h.lru.recency] at hlen
  show cacheIsFull m.internal.nucleus = true ↔ _
  unfold cacheIsFull epoolEmpty
  rw [List.isEmpty_iff_length_eq_zero]
  omega

/-- The request returns, and the ghosts are as they should be. -/
structure Answers (c : Nat) (m : MstarPolicy LruPolicy) (o : Oblock) (w : Bool)
    (result : CacheNucleusResult) (m' : MstarPolicy LruPolicy) (res : CacheNucleusResult) :
    Prop where
  map : mstarMap lruApi m o w result = .ok (m', res)
  steady : m'.Steady c
  length_le : m'.mstarG.length ≤ 9 * c / 10

/-- LRU was asked for the block. -/
def Passes (m : MstarPolicy LruPolicy) (o : Oblock) (w : Bool) (result : CacheNucleusResult)
    (m' : MstarPolicy LruPolicy) (res : CacheNucleusResult) : Prop :=
  lruApi.map m.internal o w { result with op := .filter } = .ok (m'.internal, res)

theorem Serving.map_hit (h : m.Serving c os) (hc : 0 < c) (ho : o ∈ Lib.mostRecent c os) (w : Bool)
    (result : CacheNucleusResult) : ∃ m' res, Answers c m o w result m' res ∧
      Passes m o w result m' res ∧ m'.ghostSize =
        if m.logic.state ≠ .unstable ∨ (Lib.mostRecent c os).length = c then
          shrunkGhosts c m.ghostSize
        else m.ghostSize := by
  obtain ⟨i, res, hlru, hans, s, hmig, htext⟩ :=
    lruMapApi_textbook hc h.lru o w { result with op := .filter }
  have hpass : lruApi.map m.internal o w { result with op := .filter } = .ok (i, res) := hlru
  rw [if_neg (by simp [hans.1.mpr ho])] at hmig
  obtain rfl := Except.ok.inj hmig
  -- a hit takes no slot
  have hfull : lruApi.cacheIsFull i = true ↔ (Lib.mostRecent c os).length = c := by
    have hi : ({ m with internal := i } : MstarPolicy LruPolicy).Serving c (os ++ [o]) :=
      ⟨h.steady.withInternal i, h.length_le, htext⟩
    have hpos := List.length_pos_of_mem ho
    rw [show i = ({ m with internal := i } : MstarPolicy LruPolicy).internal from rfl,
      hi.full_iff, Lib.mostRecent_concat_of_mem ho, List.length_append,
      List.length_erase_of_mem ho, List.length_singleton]
    omega
  have hsize : (if m.logic.state ≠ .unstable ∨ lruApi.cacheIsFull i = true then
      shrunkGhosts c m.ghostSize else m.ghostSize) ≤ 9 * c / 10 := by
    split
    · exact shrunkGhosts_le h.steady.ghostSize_le
    · exact h.steady.ghostSize_le
  have hserve := h.steady.serve_hit hc (h.lookup_iff.mpr ho) hpass
    (hashLookup m.nucleus o).isSome
  generalize hm1 : MstarPolicy.mk _ _ _ i _ = m1 at hserve
  have h1 : m1.Steady c := by
    subst hm1
    exact ⟨h.steady.ghosts, h.steady.metaSize, hsize, h.steady.sane⟩
  obtain ⟨m', hmap, hs, hlen, hint, hgs⟩ := h.steady.finish hc h1
    (by subst hm1; exact h.length_le.trans (Nat.le_succ _)) (by subst hm1; rfl) hserve
  subst hm1
  refine ⟨m', res, ⟨hmap, hs, hlen⟩, by rw [Passes, hint]; exact hpass, ?_⟩
  rw [hgs]
  simp only [hfull]

theorem Serving.map_room (h : m.Serving c os) (hc : 0 < c) (ho : o ∉ Lib.mostRecent c os)
    (hroom : (Lib.mostRecent c os).length < c) (w : Bool) (result : CacheNucleusResult) :
    ∃ m' res, Answers c m o w result m' res ∧ Passes m o w result m' res ∧
      m'.ghostSize = m.ghostSize := by
  obtain ⟨i, res, hlru, _⟩ := lruMapApi_textbook hc h.lru o w { result with op := .filter }
  have hpass : lruApi.map m.internal o w { result with op := .filter } = .ok (i, res) := hlru
  have hno : (lruApi.cacheLookup m.internal o).isSome = false :=
    Bool.eq_false_iff.mpr fun hx => ho (h.lookup_iff.mp hx)
  have hnf : lruApi.cacheIsFull m.internal = false :=
    Bool.eq_false_iff.mpr fun hx => Nat.ne_of_lt hroom (h.full_iff.mp hx)
  have hserve := serve_room hno hnf hpass (hashLookup m.nucleus o).isSome
  obtain ⟨m', hmap, hs, hlen, hint, hgs⟩ := h.steady.finish hc (h.steady.withInternal i)
    (h.length_le.trans (Nat.le_succ _)) rfl hserve
  exact ⟨m', res, ⟨hmap, hs, hlen⟩, by rw [Passes, hint]; exact hpass, hgs⟩

theorem Serving.map_full (h : m.Serving c os) (hc : 0 < c) (ho : o ∉ Lib.mostRecent c os)
    (hfull : (Lib.mostRecent c os).length = c) (hpos : 0 < m.ghostSize) (w : Bool)
    (result : CacheNucleusResult) : ∃ m' res, Answers c m o w result m' res ∧
      (Passes m o w result m' res ∨ (m'.internal = m.internal ∧ res.op = .filter)) ∧
      m'.ghostSize = grownGhosts c m.ghostSize := by
  obtain ⟨i, res, hlru, _⟩ := lruMapApi_textbook hc h.lru o w { result with op := .filter }
  have hpass : lruApi.map m.internal o w { result with op := .filter } = .ok (i, res) := hlru
  have hno : (lruApi.cacheLookup m.internal o).isSome = false :=
    Bool.eq_false_iff.mpr fun hx => ho (h.lookup_iff.mp hx)
  obtain ⟨m1, res1, hserve, h1, hlen1, hlogic, hgs1, hcase⟩ :=
    h.steady.serve_grown hc h.length_le hno (h.full_iff.mpr hfull) hpos hpass
  obtain ⟨m', hmap, hs, hlen, hint, hgs⟩ := h.steady.finish hc h1 hlen1 hlogic hserve
  refine ⟨m', res1, ⟨hmap, hs, hlen⟩, ?_, hgs.trans hgs1⟩
  rcases hcase with ⟨hi, hres⟩ | ⟨hi, hres⟩
  · refine Or.inl ?_
    rw [Passes, hint, hi, hres]
    exact hpass
  · refine Or.inr ⟨hint.trans hi, ?_⟩
    rw [hres]

/-- The assertions are the only thing that stops a request. -/
theorem Serving.asserts_iff (h : m.Serving c os) (hc : 0 < c) (o : Oblock) (w : Bool)
    (result : CacheNucleusResult) :
    mstarMap lruApi m o w result = .error .assertion ↔ ¬GhostAsserts lruApi m o w result := by
  have hle := h.steady.ghostSize_le
  have hdec : m.nucleus.metaSize > m.ghostSize := by
    rw [h.steady.metaSize]
    omega
  by_cases ho : o ∈ Lib.mostRecent c os
  · obtain ⟨m', res, hans, _⟩ := h.map_hit hc ho w result
    rw [hans.map]
    refine iff_of_false (by simp) (not_not.mpr ⟨fun hno => ?_, fun _ _ _ _ _ => hdec⟩)
    rw [h.lookup_iff.mpr ho] at hno
    cases hno
  · by_cases hfull : (Lib.mostRecent c os).length = c
    · by_cases hpos : 0 < m.ghostSize
      · obtain ⟨m', res, hans, _⟩ := h.map_full hc ho hfull hpos w result
        rw [hans.map]
        exact iff_of_false (by simp) (not_not.mpr ⟨fun _ _ => hpos, fun _ _ _ _ _ => hdec⟩)
      · have hno : (lruApi.cacheLookup m.internal o).isSome = false :=
          Bool.eq_false_iff.mpr fun hx => ho (h.lookup_iff.mp hx)
        have hserve := h.steady.serve_asserts hc h.length_le hno (h.full_iff.mpr hfull)
          (by omega) w { result with op := .filter }
        refine iff_of_true ?_ fun hx => hpos (hx.increase hno (h.full_iff.mpr hfull))
        unfold mstarMap
        dsimp only
        rw [hserve]
        rfl
    · have hlt : (Lib.mostRecent c os).length < c := by
        have := Lib.length_mostRecent c os
        omega
      obtain ⟨m', res, hans, _⟩ := h.map_room hc ho hlt w result
      rw [hans.map]
      refine iff_of_false (by simp) (not_not.mpr ⟨fun _ hx => ?_, fun _ _ _ _ _ => hdec⟩)
      exact absurd (h.full_iff.mp hx) hfull

/-! ## Runs of requests -/

/-- A request that LRU was asked for settles. -/
theorem Serving.settle (h : m.Serving c os) (hc : 0 < c)
    (hans : Answers c m q.1 q.2 {} m' res) (hpass : Passes m q.1 q.2 {} m' res) :
    ∃ m'', (mstarApi lruApi).request m q = .ok (m'', res) ∧ m''.Serving c (os ++ [q.1]) ∧
      m''.ghostSize = m'.ghostSize := by
  obtain ⟨s', res', hlru, _, s'', hmig, htext⟩ :=
    lruMapApi_textbook hc h.lru q.1 q.2 { op := .filter }
  obtain ⟨rfl, rfl⟩ := Prod.mk.inj (Except.ok.inj (hlru.symm.trans hpass))
  refine ⟨{ m' with internal := s'' }, ?_, ⟨hans.steady.withInternal s'', hans.length_le, htext⟩,
    rfl⟩
  have hmap : (mstarApi lruApi).map m q.1 q.2 {} = .ok (m', res') := hans.map
  simp only [Policy.request, hmap, ok_bind]
  split at hmig
  · next hop =>
    have hmig' : (mstarApi lruApi).migrated m' q.1 = .ok { m' with internal := s'' } := by
      show (lruMigratedApi m'.internal q.1 >>= _) = _
      rw [hmig]
      rfl
    simp [hop, hmig']
  · next hop =>
    obtain rfl := Except.ok.inj hmig
    simp [hop]

/-- A filtered request leaves LRU alone. -/
theorem Serving.skip (h : m.Serving c os) (hans : Answers c m q.1 q.2 {} m' res)
    (hi : m'.internal = m.internal) (hres : res.op = .filter) :
    (mstarApi lruApi).request m q = .ok (m', res) ∧ m'.Serving c os := by
  have hmap : (mstarApi lruApi).map m q.1 q.2 {} = .ok (m', res) := hans.map
  refine ⟨by simp [Policy.request, hmap, hres], hans.steady, hans.length_le, ?_⟩
  rw [hi]
  exact h.lru

/-- What a request does to the target. -/
inductive Retargets (c g : Nat) : Nat → Prop
  | same : Retargets c g g
  | grown (hpos : 0 < g) : Retargets c g (grownGhosts c g)
  | shrunk : Retargets c g (shrunkGhosts c g)

/-- A request that returns keeps everything but the target, which it moves one step. -/
theorem Serving.request (h : m.Serving c os) (hc : 0 < c)
    (hrun : (mstarApi lruApi).request m q = .ok (m', res)) :
    (∃ os', m'.Serving c os') ∧ Retargets c m.ghostSize m'.ghostSize := by
  by_cases ho : q.1 ∈ Lib.mostRecent c os
  · obtain ⟨m1, res1, hans, hpass, hgs⟩ := h.map_hit hc ho q.2 {}
    obtain ⟨m2, hreq, h2, hgs2⟩ := h.settle hc hans hpass
    obtain ⟨rfl, _⟩ := Prod.mk.inj (Except.ok.inj (hreq.symm.trans hrun))
    refine ⟨⟨_, h2⟩, ?_⟩
    rw [hgs2, hgs]
    split
    · exact .shrunk
    · exact .same
  · by_cases hfull : (Lib.mostRecent c os).length = c
    · by_cases hpos : 0 < m.ghostSize
      · obtain ⟨m1, res1, hans, hcase, hgs⟩ := h.map_full hc ho hfull hpos q.2 {}
        rcases hcase with hpass | ⟨hi, hres⟩
        · obtain ⟨m2, hreq, h2, hgs2⟩ := h.settle hc hans hpass
          obtain ⟨rfl, _⟩ := Prod.mk.inj (Except.ok.inj (hreq.symm.trans hrun))
          refine ⟨⟨_, h2⟩, ?_⟩
          rw [hgs2, hgs]
          exact .grown hpos
        · obtain ⟨hreq, h2⟩ := h.skip hans hi hres
          obtain ⟨rfl, _⟩ := Prod.mk.inj (Except.ok.inj (hreq.symm.trans hrun))
          refine ⟨⟨_, h2⟩, ?_⟩
          rw [hgs]
          exact .grown hpos
      · have hno : ¬GhostAsserts lruApi m q.1 q.2 {} := fun hx => hpos (hx.increase
          (Bool.eq_false_iff.mpr fun hy => ho (h.lookup_iff.mp hy)) (h.full_iff.mpr hfull))
        have herr : (mstarApi lruApi).map m q.1 q.2 {} = .error .assertion :=
          (h.asserts_iff hc q.1 q.2 {}).mpr hno
        rw [Policy.request, herr] at hrun
        cases hrun
    · have hlt : (Lib.mostRecent c os).length < c := by
        have := Lib.length_mostRecent c os
        omega
      obtain ⟨m1, res1, hans, hpass, hgs⟩ := h.map_room hc ho hlt q.2 {}
      obtain ⟨m2, hreq, h2, hgs2⟩ := h.settle hc hans hpass
      obtain ⟨rfl, _⟩ := Prod.mk.inj (Except.ok.inj (hreq.symm.trans hrun))
      refine ⟨⟨_, h2⟩, ?_⟩
      rw [hgs2, hgs]
      exact .same

theorem mstarCreate_serving {n metaSize : UInt32} {adaptive : Bool} {m0 : MstarPolicy LruPolicy}
    (hinit : mstarCreate n metaSize lruCreate adaptive = .ok m0) :
    m0.Serving n.toNat [] ∧ m0.ghostSize = u32 (9 * n.toNat) / 10 := by
  obtain ⟨lru, hlru, hinit⟩ := bind_eq_ok.mp hinit
  obtain ⟨hs, hi, hg, hgs⟩ := mstarInit_steady hinit
  refine ⟨⟨hs, ?_, ?_⟩, hgs⟩
  · rw [hg]
    exact Nat.zero_le _
  · rw [hi]
    exact .of_init hlru

/-- Along every run the ghosts stay as they should be. -/
theorem Serving.of_reachable {m0 : MstarPolicy LruPolicy} (h0 : m0.Serving c []) (hc : 0 < c)
    (hs : (mstarApi lruApi).synchronous.Reachable m0 m) : ∃ os, m.Serving c os := by
  refine hs.invariant (I := fun m => ∃ os, m.Serving c os) ⟨[], h0⟩ ?_
  intro a q b w ha _ hrun
  obtain ⟨os, ha⟩ := ha
  exact (ha.request hc hrun).1

/-! ## The smallest target -/

/-- No request leads below the smaller one of the largest target and a tenth of the cache. -/
theorem Retargets.le {g' : Nat} (h : Retargets c g g') (hc : 10 ≤ c) (hc32 : c < 2 ^ 32)
    (hbig : 10 ≤ u32 (9 * c)) (hle : g ≤ 9 * c / 10)
    (hlow : min (u32 (9 * c) / 10) (c / 10) ≤ g) : min (u32 (9 * c) / 10) (c / 10) ≤ g' := by
  cases h with
  | same => exact hlow
  | shrunk =>
    unfold shrunkGhosts
    split
    · exact (Nat.min_le_right _ _).trans (Nat.le_max_left _ _)
    · exact Nat.min_le_right _ _
  | grown hpos =>
    have hsum : g + c / g < 2 ^ 32 := by
      by_cases h10 : 10 ≤ g
      · have hdiv : c / g ≤ c / 10 := Nat.div_le_div_left h10 (by decide)
        omega
      · by_cases h2 : 2 ≤ g
        · have hdiv : c / g ≤ c / 2 := Nat.div_le_div_left h2 (by decide)
          omega
        · -- a target of 1 is that of a small cache or of a product that wrapped to little
          obtain rfl : g = 1 := by omega
          unfold u32 at hlow hbig
          rw [Nat.div_one]
          omega
    rw [grownGhosts, u32_of_lt hsum]
    exact Nat.le_min.mpr ⟨Nat.min_le_left _ _, hlow.trans (Nat.le_add_right _ _)⟩

/-- From ten slots on, and unless nine times the size wraps below ten, the target stays
positive. -/
theorem Serving.pos_of_reachable {m0 : MstarPolicy LruPolicy} (h0 : m0.Serving c [])
    (hc : 10 ≤ c) (hc32 : c < 2 ^ 32) (hbig : 10 ≤ u32 (9 * c))
    (hg : m0.ghostSize = u32 (9 * c) / 10)
    (hs : (mstarApi lruApi).synchronous.Reachable m0 m) : 0 < m.ghostSize := by
  obtain ⟨_, hlow⟩ : (∃ os, m.Serving c os) ∧ min (u32 (9 * c) / 10) (c / 10) ≤ m.ghostSize := by
    refine hs.invariant (I := fun m => (∃ os, m.Serving c os) ∧
      min (u32 (9 * c) / 10) (c / 10) ≤ m.ghostSize) ⟨⟨[], h0⟩, ?_⟩ ?_
    · rw [hg]
      exact Nat.min_le_left _ _
    · intro a q b w ha _ hrun
      obtain ⟨⟨os, ha⟩, hlow⟩ := ha
      obtain ⟨hb, hret⟩ := ha.request (by omega) hrun
      exact ⟨hb, hret.le hc hc32 hbig ha.steady.ghostSize_le hlow⟩
  omega

/-! ## Below ten slots -/

/-- The first blocks of the disk fill the cache, and leave the target where it was. -/
theorem Serving.fill {m0 : MstarPolicy LruPolicy} (h0 : m0.Serving c []) (hc : 0 < c)
    (hc32 : c < 2 ^ 32) {n : Nat} (hn : n ≤ c) : ∃ m os,
      (mstarApi lruApi).synchronous.Reachable m0 m ∧ m.Serving c os ∧
      m.ghostSize = m0.ghostSize ∧ (Lib.mostRecent c os).length = n ∧
      ∀ o ∈ Lib.mostRecent c os, o.toNat < n := by
  induction n with
  | zero =>
    refine ⟨m0, [], .refl _ m0, h0, rfl, ?_, fun o ho => ?_⟩
    · rw [Lib.length_mostRecent, List.dedup_nil]
      exact Nat.min_zero c
    · simp [Lib.mostRecent] at ho
  | succ n ih =>
    obtain ⟨m, os, hreach, h, hg, hlen, hlt⟩ := ih (by omega)
    have hto : (UInt64.ofNat n).toNat = n := by
      rw [UInt64.toNat_ofNat']
      exact Nat.mod_eq_of_lt (by omega)
    have hno : UInt64.ofNat n ∉ Lib.mostRecent c os := fun hx => by
      have := hlt _ hx
      omega
    obtain ⟨m1, res, hans, hpass, hg1⟩ := h.map_room hc hno (by omega) false {}
    obtain ⟨m2, hreq, h2, hg2⟩ := h.settle (q := (UInt64.ofNat n, false)) hc hans hpass
    have hgrow := Lib.mostRecent_concat_of_lt hno (show (Lib.mostRecent c os).length < c by omega)
    refine ⟨m2, _, hreach.step trivial hreq, h2, hg2.trans (hg1.trans hg), ?_, ?_⟩
    · rw [hgrow, List.length_append, hlen]
      rfl
    · rw [hgrow]
      intro o ho
      rcases List.mem_append.mp ho with ho | ho
      · exact Nat.lt_succ_of_lt (hlt o ho)
      · rw [List.mem_singleton.mp ho, hto]
        exact Nat.lt_succ_self n

/-- Below ten slots hits on a full cache bring the target down to 0. -/
theorem Serving.drain {m0 : MstarPolicy LruPolicy} (h : m.Serving c os) (hc : 0 < c)
    (hsmall : c < 10) (hfull : (Lib.mostRecent c os).length = c)
    (hreach : (mstarApi lruApi).synchronous.Reachable m0 m) : ∃ m' os',
      (mstarApi lruApi).synchronous.Reachable m0 m' ∧ m'.Serving c os' ∧ m'.ghostSize = 0 ∧
      (Lib.mostRecent c os').Perm (Lib.mostRecent c os) := by
  generalize hg : m.ghostSize = g
  induction g using Nat.strong_induction_on generalizing m os with
  | _ g ih =>
    by_cases hzero : g = 0
    · exact ⟨m, os, hreach, h, hg.trans hzero, .refl _⟩
    · have hle := h.steady.ghostSize_le
      obtain ⟨o, ho⟩ := List.exists_mem_of_length_pos (hfull ▸ hc)
      obtain ⟨m1, res, hans, hpass, hg1⟩ := h.map_hit hc ho false {}
      obtain ⟨m2, hreq, h2, hg2⟩ := h.settle (q := (o, false)) hc hans hpass
      have hperm : (Lib.mostRecent c (os ++ [o])).Perm (Lib.mostRecent c os) := by
        rw [Lib.mostRecent_concat_of_mem ho]
        exact (List.perm_append_singleton _ _).trans (List.perm_cons_erase ho).symm
      rw [if_pos (Or.inr hfull)] at hg1
      have hlt : m2.ghostSize < g := by
        rw [hg2, hg1, hg]
        exact shrunkGhosts_lt hsmall (by omega) (by omega)
      obtain ⟨m', os', hreach', h', hg', hperm'⟩ :=
        ih _ hlt h2 (hperm.length_eq.trans hfull) (hreach.step trivial hreq) rfl
      exact ⟨m', os', hreach', h', hg', hperm'.trans hperm⟩

/-- Where the target may reach 0, a miss of a full cache finds it there. -/
theorem Serving.target_zero {m0 : MstarPolicy LruPolicy} (h0 : m0.Serving c []) (hc : 0 < c)
    (hc32 : c < 2 ^ 32) (hg : m0.ghostSize = u32 (9 * c) / 10)
    (hsmall : c < 10 ∨ u32 (9 * c) < 10) : ∃ m os,
      (mstarApi lruApi).synchronous.Reachable m0 m ∧ m.Serving c os ∧ m.ghostSize = 0 ∧
      (Lib.mostRecent c os).length = c ∧ UInt64.ofNat c ∉ Lib.mostRecent c os := by
  obtain ⟨m, os, hreach, h, hgm, hlen, hlt⟩ := h0.fill hc hc32 (Nat.le_refl c)
  have hno : UInt64.ofNat c ∉ Lib.mostRecent c os := fun hx => by
    have hx := hlt _ hx
    rw [UInt64.toNat_ofNat', Nat.mod_eq_of_lt (by omega)] at hx
    omega
  rcases hsmall with hsmall | hwrap
  · obtain ⟨m', os', hreach', h', hg', hperm⟩ := h.drain hc hsmall hlen hreach
    exact ⟨m', os', hreach', h', hg', hperm.length_eq.trans hlen,
      fun hx => hno (hperm.mem_iff.mp hx)⟩
  · exact ⟨m, os, hreach, h, by omega, hlen, hno⟩

end Lru

end MstarPolicy

/-! ## Every size -/

/-- The assertions on the ghost size hold in every request of every run exactly from ten slots
on, unless nine times the size wraps below ten; and they are all that can stop a request. -/
theorem mstar_ghost_size {c metaSize : UInt32} {adaptive : Bool} {m0 : MstarPolicy LruPolicy}
    (hc : 1 ≤ c.toNat) (hinit : mstarCreate c metaSize lruCreate adaptive = .ok m0) :
    ((∀ m, (mstarApi lruApi).synchronous.Reachable m0 m →
      ∀ o w result, m.GhostAsserts lruApi o w result) ↔
        10 ≤ c.toNat ∧ 10 ≤ u32 (9 * c.toNat)) ∧
    ∀ m, (mstarApi lruApi).synchronous.Reachable m0 m → ∀ o w result,
      mstarMap lruApi m o w result = .error .assertion ↔ ¬m.GhostAsserts lruApi o w result := by
  obtain ⟨h0, hg⟩ := MstarPolicy.mstarCreate_serving hinit
  have hc32 : c.toNat < 2 ^ 32 := c.toNat_lt
  refine ⟨⟨fun hall => ?_, fun hcond m hreach o w result => ?_⟩, fun m hreach o w result => ?_⟩
  · by_contra hcond
    obtain ⟨m, os, hreach, h, hzero, hfull, hno⟩ := h0.target_zero hc hc32 hg (by omega)
    have hpos := (hall m hreach (UInt64.ofNat c.toNat) false {}).increase
      (Bool.eq_false_iff.mpr fun hx => hno (h.lookup_iff.mp hx)) (h.full_iff.mpr hfull)
    omega
  · obtain ⟨os, h⟩ := h0.of_reachable hc hreach
    have hpos := h0.pos_of_reachable hcond.1 hc32 hcond.2 hg hreach
    have hle := h.steady.ghostSize_le
    refine ⟨fun _ _ => hpos, fun _ _ _ _ _ => ?_⟩
    rw [h.steady.metaSize]
    omega
  · obtain ⟨os, h⟩ := h0.of_reachable hc hreach
    exact h.asserts_iff hc o w result

/-- A cache of one slot starts with a target of 0, and its second block finds it there. -/
theorem mstar_ghost_size_zero : ¬∀ (c metaSize : UInt32) (adaptive : Bool)
    (m0 m : MstarPolicy LruPolicy), 1 ≤ c.toNat →
    mstarCreate c metaSize lruCreate adaptive = .ok m0 →
    (mstarApi lruApi).synchronous.Reachable m0 m →
    ∀ o w result, m.GhostAsserts lruApi o w result := by
  intro hall
  obtain ⟨m0, hinit⟩ : ∃ m0, mstarCreate 1 10 lruCreate true = .ok m0 := ⟨_, rfl⟩
  obtain ⟨h0, hg⟩ := MstarPolicy.mstarCreate_serving hinit
  obtain ⟨m, os, hreach, h, hzero, hfull, hno⟩ :=
    h0.target_zero (by decide) (by decide) hg (Or.inl (by decide))
  have hpos := (hall 1 10 true m0 m (by decide) hinit hreach
    (UInt64.ofNat (1 : UInt32).toNat) false {}).increase
    (Bool.eq_false_iff.mpr fun hx => hno (h.lookup_iff.mp hx)) (h.full_iff.mpr hfull)
  omega

/-- Ten slots, before the first request. -/
theorem mstar_ghost_size_ten : ∃ m0, mstarCreate 10 10 lruCreate true = .ok m0 ∧
    ((∀ m, (mstarApi lruApi).synchronous.Reachable m0 m →
      ∀ o w result, m.GhostAsserts lruApi o w result) ↔
        10 ≤ (10 : UInt32).toNat ∧ 10 ≤ u32 (9 * (10 : UInt32).toNat)) ∧
    ∀ m, (mstarApi lruApi).synchronous.Reachable m0 m → ∀ o w result,
      mstarMap lruApi m o w result = .error .assertion ↔ ¬m.GhostAsserts lruApi o w result := by
  obtain ⟨m0, hinit⟩ : ∃ m0, mstarCreate 10 10 lruCreate true = .ok m0 := ⟨_, rfl⟩
  exact ⟨m0, hinit, mstar_ghost_size (by decide) hinit⟩

end Fomo
