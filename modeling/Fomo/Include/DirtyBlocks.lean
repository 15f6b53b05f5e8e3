import Fomo.Include.Serving

/-!
# Dirty blocks

The dirty bit of a cached block, kept in an entry that many blocks used before, says whether
the block was written since it came in.
-/
namespace Fomo

/-- The call brought `o` into the cache. -/
def Admitted (o : Oblock) : Call × Option CacheNucleusResult → Prop
  | (.map a _ _, some res) => a = o ∧ (res.op = .new ∨ res.op = .replace)
  | (.insert a _, _) => a = o
  | _ => False

/-- The call wrote `o` in the cache. -/
def Wrote (o : Oblock) : Call × Option CacheNucleusResult → Prop
  | (.map a w _, some res) =>
    a = o ∧ w = true ∧ (res.op = .hit ∨ res.op = .new ∨ res.op = .replace)
  | _ => False

/-- `o` was written since it was last admitted. -/
def Written (t : List (Call × Option CacheNucleusResult)) (o : Oblock) : Prop :=
  Lib.Since (Wrote o) (Admitted o) t

section Written

variable {t : List (Call × Option CacheNucleusResult)} {o a : Oblock} {w : Bool}
  {result res : CacheNucleusResult} {cb : Cblock} {keep : Bool} {x : Option CacheNucleusResult}

theorem written_of_ne (h : a ≠ o) :
    Written (t ++ [(.map a w result, some res)]) o ↔ Written t o := by
  rw [Written, Lib.since_snoc]
  simp [Wrote, Admitted, h, Written]

theorem written_hit (h : res.op = .hit) :
    Written (t ++ [(.map o w result, some res)]) o ↔ Written t o ∨ w = true := by
  rw [Written, Lib.since_snoc]
  simp [Wrote, Admitted, h, Written, or_comm]

theorem written_admitted (h : res.op = .new ∨ res.op = .replace) :
    Written (t ++ [(.map o w result, some res)]) o ↔ w = true := by
  rw [Written, Lib.since_snoc]
  simp [Wrote, Admitted, h]

theorem written_pass (h : res.op = .filter ∨ res.op = .fail) :
    Written (t ++ [(.map a w result, some res)]) o ↔ Written t o := by
  rw [Written, Lib.since_snoc]
  rcases h with h | h
  · simp [Wrote, Admitted, h, Written]
  · simp [Wrote, Admitted, h, Written]

theorem written_migrated : Written (t ++ [(.migrated a, x)]) o ↔ Written t o := by
  rw [Written, Lib.since_snoc]
  simp [Wrote, Admitted, Written]

theorem written_remove : Written (t ++ [(.remove a keep, x)]) o ↔ Written t o := by
  rw [Written, Lib.since_snoc]
  simp [Wrote, Admitted, Written]

theorem written_insert : Written (t ++ [(.insert a cb, x)]) o ↔ a ≠ o ∧ Written t o := by
  rw [Written, Lib.since_snoc]
  simp [Wrote, Admitted, Written]

end Written

namespace CacheNucleus

variable {cn cn' : CacheNucleus} {t : List (Call × Option CacheNucleusResult)} {c : Call}
  {x : Option CacheNucleusResult}

/-- The dirty bits tell which cached blocks were written. -/
def Tells (cn : CacheNucleus) (t : List (Call × Option CacheNucleusResult)) : Prop :=
  ∀ o cb, cn.Caches o cb → ((cn.entry ⟨.cache, cb⟩).dirty = true ↔ Written t o)

/-- A slot that came to hold `o` tells about `o`; the others tell what they told. -/
theorem SetsSlot.tells {o : Oblock} {cb : Cblock} {e : Entry} {m d : Bool}
    {t' : List (Call × Option CacheNucleusResult)} (hs : cn.SetsSlot cb e cn')
    (he : e.Holds o m d) (h : cn.Tells t) (hself : d = true ↔ Written t' o)
    (hother : ∀ a b, b ≠ cb → cn.Caches a b → (Written t' a ↔ Written t a)) :
    cn'.Tells t' := by
  intro a b hc
  rcases (hs.caches_iff he a b).mp hc with ⟨rfl, rfl⟩ | ⟨hb, hc⟩
  · rw [hs b, if_pos rfl, he.dirty]
    exact hself
  · rw [hs b, if_neg hb, hother a b hb hc]
    exact h a b hc

theorem Effect.tells {o : Oblock} {w : Bool} {result res : CacheNucleusResult}
    (he : cn.Effect o w cn' res) (hw : cn.Wf) (h : cn.Tells t) :
    cn'.Tells (t ++ [(.map o w result, some res)]) := by
  have habsent : ¬cn.Cached o → ∀ a b, b ≠ res.cblock → cn.Caches a b →
      (Written (t ++ [(.map o w result, some res)]) a ↔ Written t a) := by
    intro hno a b _ hc
    apply written_of_ne
    rintro rfl
    exact hno ⟨b, hc⟩
  cases he with
  | hit hop hc hs he =>
    refine hs.tells he h ?_ ?_
    · rw [written_hit hop, Bool.or_eq_true, h o res.cblock hc]
    · intro a b hb ha
      apply written_of_ne
      rintro rfl
      exact hb (Caches.unique hw ha hc)
  | new hop hno hcb hfree hs he =>
    exact hs.tells he h (written_admitted (Or.inl hop)).symm (habsent hno)
  | replace hop hno hold hset hdirty hs he =>
    exact hs.tells he h (written_admitted (Or.inr hop)).symm (habsent hno)
  | pass hop hno hs =>
    intro a b hc
    have hc : cn.Caches a b := by rwa [Caches, hs b] at hc
    rw [hs b, written_pass hop]
    exact h a b hc

/-- A replacement reports what the dirty bit of its victim tells. -/
theorem Effect.dirtyEviction {o : Oblock} {w : Bool} {res : CacheNucleusResult}
    (he : cn.Effect o w cn' res) (h : cn.Tells t) (hop : res.op = .replace) :
    res.dirtyEviction = true ↔ Written t res.oldOblock := by
  cases he with
  | hit hx _ _ _ => rw [hop] at hx; cases hx
  | new hx _ _ _ _ _ => rw [hop] at hx; cases hx
  | replace _ _ hold _ hdirty _ _ =>
    rw [hdirty]
    exact h _ _ hold
  | pass hx _ _ => rcases hx with hx | hx <;> rw [hop] at hx <;> cases hx

/-- Every call that returns keeps what the dirty bits tell. -/
theorem Served.tells (hs : cn.Served cn' c x) (hw : cn.Wf) (h : cn.Tells t) :
    cn'.Tells (t ++ [(c, x)]) := by
  cases hs with
  | map he => exact he.tells hw h
  | @migrated o cb e hc hm hs he =>
    refine hs.tells he h ?_ fun a b hb ha => written_migrated
    rw [written_migrated]
    exact h o cb hc
  | @insert o cb e hf hs he =>
    refine hs.tells he h ?_ fun a b hb ha => ?_
    · simp [written_insert]
    · rw [written_insert, and_iff_right_iff_imp]
      intro _
      rintro rfl
      exact hf.1.not_caches ha
  | @remove o cb keep e hc hs he =>
    intro a b ha
    have hb : b ≠ cb := by
      rintro rfl
      rw [Caches, hs b, if_pos rfl, he] at ha
      cases ha.1
    rw [Caches, hs b, if_neg hb] at ha
    rw [hs b, if_neg hb, written_remove]
    exact h a b ha

end CacheNucleus

namespace Policy

variable {σ : Type} {P : Policy σ} {I : σ → Prop} {s0 s s' : σ}

/-- After every run from `s0`, a replacement reports a dirty eviction exactly when its victim
was written since it was admitted. -/
def ReportsDirtyEvictions (P : Policy σ) (s0 : σ) : Prop :=
  ∀ t s o w result s' res, (P.system fun s => servingCalls (P.nucleus s)).Run s0 t s →
    P.map s o w result = .ok (s', res) → res.op = .replace →
    (res.dirtyEviction = true ↔ Written t res.oldOblock)

theorem Serves.tells (hs : P.Serves I) (h0 : I s0) (hempty : ∀ o, (P.nucleus s0).Absent o)
    {t : List (Call × Option CacheNucleusResult)}
    (hrun : (P.system fun s => servingCalls (P.nucleus s)).Run s0 t s) :
    I s ∧ (P.nucleus s).Tells t := by
  apply hrun.history (J := fun t s => I s ∧ (P.nucleus s).Tells t)
  · exact ⟨h0, fun o cb hc => absurd hc (hempty o).not_caches⟩
  · intro t a c b x ha hg hcall
    obtain ⟨hi, hserved⟩ := hs.call ha.1 hg hcall
    exact ⟨hi, hserved.tells (hs.wf ha.1) ha.2⟩

theorem Serves.reportsDirtyEvictions (hs : P.Serves I) (h0 : I s0)
    (hempty : ∀ o, (P.nucleus s0).Absent o) : P.ReportsDirtyEvictions s0 := by
  intro t s o w result s' res hrun hmap hop
  obtain ⟨hi, htells⟩ := hs.tells h0 hempty hrun
  exact (hs.map hi hmap).1.dirtyEviction htells hop

end Policy

end Fomo
