import Fomo.Include.Contract

/-!
# Requests and removals

The calls of a caller that also takes cached blocks out again, and what a call that returns
did to the slots of the cache. The calls may fault: what is said is about those that return.
-/
namespace Fomo

/-- The calls a caller may make: completions for blocks that migrate, preloads of free slots,
removals of cached blocks. -/
def servingCalls (cn : CacheNucleus) : Call → Prop
  | .map _ _ _ => True
  | .migrated o => cn.MayMigrate o
  | .insert o cb => cn.MayInsert o cb
  | .remove o _ => cn.Cached o
  | _ => False

namespace CacheNucleus

/-- What a call did to the cache, slot by slot. -/
inductive Served (cn cn' : CacheNucleus) : Call → Option CacheNucleusResult → Prop
  | map {o : Oblock} {w : Bool} {result res : CacheNucleusResult} (he : cn.Effect o w cn' res) :
      Served cn cn' (.map o w result) (some res)
  | migrated {o : Oblock} {cb : Cblock} {e : Entry} (hc : cn.Caches o cb) (hm : cn.Migrating cb)
      (hs : cn.SetsSlot cb e cn') (he : e.Holds o false (cn.entry ⟨.cache, cb⟩).dirty) :
      Served cn cn' (.migrated o) none
  | insert {o : Oblock} {cb : Cblock} {e : Entry} (hf : cn.MayInsert o cb)
      (hs : cn.SetsSlot cb e cn') (he : e.Holds o false false) :
      Served cn cn' (.insert o cb) none
  | remove {o : Oblock} {cb : Cblock} {keep : Bool} {e : Entry} (hc : cn.Caches o cb)
      (hs : cn.SetsSlot cb e cn') (he : e.allocated = false) :
      Served cn cn' (.remove o keep) none

variable {cn cn' : CacheNucleus} {o a : Oblock} {w : Bool} {res : CacheNucleusResult} {cb : Cblock}
  {e : Entry}

/-! ## The blocks that migrate -/

/-- Rewriting a slot decides about its block only. -/
theorem SetsSlot.mayMigrate (h : cn.SetsSlot cb e cn') : cn'.MayMigrate a ↔
    (e.allocated = true ∧ e.oblock = a ∧ e.migrating = true) ∨
      ∃ b, b ≠ cb ∧ cn.Caches a b ∧ cn.Migrating b := by
  constructor
  · rintro ⟨b, hc, hm⟩
    by_cases hb : b = cb
    · subst hb
      rw [Caches, h b, if_pos rfl] at hc
      rw [Migrating, h b, if_pos rfl] at hm
      exact Or.inl ⟨hc.1, hc.2, hm⟩
    · rw [Caches, h b, if_neg hb] at hc
      rw [Migrating, h b, if_neg hb] at hm
      exact Or.inr ⟨b, hb, hc, hm⟩
  · rintro (⟨ha, ho, hm⟩ | ⟨b, hb, hc, hm⟩)
    · refine ⟨cb, ?_, ?_⟩
      · rw [Caches, h cb, if_pos rfl]
        exact ⟨ha, ho⟩
      · rw [Migrating, h cb, if_pos rfl]
        exact hm
    · refine ⟨b, ?_, ?_⟩
      · rw [Caches, h b, if_neg hb]
        exact hc
      · rw [Migrating, h b, if_neg hb]
        exact hm

/-- A completed migration and a removal end the migration of their block. -/
theorem SetsSlot.mayMigrate_drop (h : cn.SetsSlot cb e cn') (hw : cn.Wf) (hc : cn.Caches o cb)
    (he : e.allocated = true → e.migrating = false) :
    cn'.MayMigrate a ↔ a ≠ o ∧ cn.MayMigrate a := by
  rw [h.mayMigrate]
  constructor
  · rintro (⟨ha, _, hm⟩ | ⟨b, hb, hca, hm⟩)
    · rw [he ha] at hm
      cases hm
    · refine ⟨?_, b, hca, hm⟩
      rintro rfl
      exact hb (hca.unique hw hc)
  · rintro ⟨hne, b, hca, hm⟩
    refine Or.inr ⟨b, ?_, hca, hm⟩
    rintro rfl
    exact hne (hca.2.symm.trans hc.2)

/-- The slot of a block that does not migrate is given to a migrating block. -/
theorem SetsSlot.mayMigrate_new {d : Bool} (h : cn.SetsSlot cb e cn') (he : e.Holds o true d)
    (hset : (cn.entry ⟨.cache, cb⟩).migrating = false) :
    cn'.MayMigrate a ↔ cn.MayMigrate a ∨ a = o := by
  rw [h.mayMigrate]
  constructor
  · rintro (⟨_, ho, _⟩ | ⟨b, hb, hca, hm⟩)
    · exact Or.inr (ho.symm.trans he.oblock)
    · exact Or.inl ⟨b, hca, hm⟩
  · rintro (⟨b, hca, hm⟩ | rfl)
    · refine Or.inr ⟨b, ?_, hca, hm⟩
      rintro rfl
      rw [Migrating, hset] at hm
      cases hm
    · exact Or.inl ⟨he.allocated, he.oblock, he.migrating⟩

/-- The blocks that migrate after a request. -/
theorem Effect.mayMigrate (h : cn.Effect o w cn' res) (hw : cn.Wf) :
    cn'.MayMigrate a ↔ cn.MayMigrate a ∨ (a = o ∧ (res.op = .new ∨ res.op = .replace)) := by
  cases h with
  | @hit e hop hc hs he =>
    rw [hs.mayMigrate, hop]
    simp only [reduceCtorEq, or_self, and_false, or_false]
    constructor
    · rintro (⟨_, ho, hm⟩ | ⟨b, hb, hca, hm⟩)
      · rw [he.oblock] at ho
        rw [he.migrating] at hm
        exact ⟨res.cblock, ho ▸ hc, hm⟩
      · exact ⟨b, hca, hm⟩
    · rintro ⟨b, hca, hm⟩
      by_cases hb : b = res.cblock
      · subst hb
        exact Or.inl ⟨he.allocated, he.oblock.trans (hc.2.symm.trans hca.2),
          he.migrating.trans hm⟩
      · exact Or.inr ⟨b, hb, hca, hm⟩
  | @new e hop hno hcb hfree hs he =>
    rw [hs.mayMigrate_new he (hw.not_migrating hfree), hop]
    simp only [reduceCtorEq, or_false, and_true]
  | @replace e hop hno hold hset hdirty hs he =>
    rw [hs.mayMigrate_new he hset, hop]
    simp only [reduceCtorEq, false_or, and_true]
  | pass hop hno hs =>
    have hsame : cn'.MayMigrate a ↔ cn.MayMigrate a := by
      simp only [MayMigrate, Caches, Migrating, hs _]
    rw [hsame]
    rcases hop with hop | hop
    · simp [hop]
    · simp [hop]

/-- A request that was served left its block in the cache. -/
theorem Effect.cached (h : cn.Effect o w cn' res)
    (hop : res.op ≠ .filter ∧ res.op ≠ .fail) : cn'.Cached o := by
  cases h with
  | hit _ hc hs he => exact ⟨_, (hs.caches_iff he _ _).mpr (Or.inl ⟨rfl, rfl⟩)⟩
  | new _ hno hcb hfree hs he => exact ⟨_, (hs.caches_iff he _ _).mpr (Or.inl ⟨rfl, rfl⟩)⟩
  | replace _ hno hold hset hdirty hs he =>
    exact ⟨_, (hs.caches_iff he _ _).mpr (Or.inl ⟨rfl, rfl⟩)⟩
  | pass hx hno hs =>
    rcases hx with hx | hx
    · exact absurd hx hop.1
    · exact absurd hx hop.2

end CacheNucleus

namespace Policy

variable {σ : Type} {P : Policy σ} {I : σ → Prop} {s s' s0 : σ} {c : Call}
  {x : Option CacheNucleusResult}

/-- From the states of `I`, every call of the caller that returns stays in `I` and works on
one slot of the cache. -/
structure Serves (P : Policy σ) (I : σ → Prop) : Prop where
  wf : ∀ {s}, I s → (P.nucleus s).Wf
  map : ∀ {s s' o w result res}, I s → P.map s o w result = .ok (s', res) →
    (P.nucleus s).Effect o w (P.nucleus s') res ∧ I s'
  migrated : ∀ {s s' o cb}, I s → (P.nucleus s).Caches o cb → (P.nucleus s).Migrating cb →
    P.migrated s o = .ok s' → I s' ∧ ∃ e, (P.nucleus s).SetsSlot cb e (P.nucleus s') ∧
      e.Holds o false ((P.nucleus s).entry ⟨.cache, cb⟩).dirty
  insert : ∀ {s s' o cb}, I s → (P.nucleus s).MayInsert o cb → P.insert s o cb = .ok s' →
    I s' ∧ ∃ e, (P.nucleus s).SetsSlot cb e (P.nucleus s') ∧ e.Holds o false false
  remove : ∀ {s s' o cb keep}, I s → (P.nucleus s).Caches o cb → P.remove s o keep = .ok s' →
    I s' ∧ ∃ e, (P.nucleus s).SetsSlot cb e (P.nucleus s') ∧ e.allocated = false

theorem Serves.call (h : P.Serves I) (hs : I s) (hg : servingCalls (P.nucleus s) c)
    (hcall : P.call s c = .ok (s', x)) : I s' ∧ (P.nucleus s).Served (P.nucleus s') c x := by
  cases c with
  | map o w result =>
    obtain ⟨res, rfl, hmap⟩ := call_map.mp hcall
    obtain ⟨heff, hi⟩ := h.map hs hmap
    exact ⟨hi, .map heff⟩
  | migrated o =>
    obtain ⟨cb, hc, hm⟩ := hg
    obtain ⟨s1, hrun, heq⟩ := map_eq_ok.mp hcall
    obtain ⟨rfl, rfl⟩ := Prod.mk.inj heq
    obtain ⟨hi, e, hslot, he⟩ := h.migrated hs hc hm hrun
    exact ⟨hi, .migrated hc hm hslot he⟩
  | insert o cb =>
    obtain ⟨s1, hrun, heq⟩ := map_eq_ok.mp hcall
    obtain ⟨rfl, rfl⟩ := Prod.mk.inj heq
    obtain ⟨hi, e, hslot, he⟩ := h.insert hs hg hrun
    exact ⟨hi, .insert hg hslot he⟩
  | remove o keep =>
    obtain ⟨cb, hc⟩ := hg
    obtain ⟨s1, hrun, heq⟩ := map_eq_ok.mp hcall
    obtain ⟨rfl, rfl⟩ := Prod.mk.inj heq
    obtain ⟨hi, e, hslot, he⟩ := h.remove hs hc hrun
    exact ⟨hi, .remove hc hslot he⟩
  | remap a b => exact hg.elim
  | setTime time => exact hg.elim

theorem Serves.reachable (h : P.Serves I) (h0 : I s0)
    (hs : (P.system fun s => servingCalls (P.nucleus s)).Reachable s0 s) : I s := by
  apply hs.invariant h0
  intro a call b y ha hg hcall
  exact (h.call ha hg hcall).1

/-- A policy that keeps the contract serves removals too when they free the slot. -/
theorem Sound.serves (h : P.Sound I)
    (hremove : ∀ {s s' o cb keep}, I s → (P.nucleus s).Caches o cb →
      P.remove s o keep = .ok s' →
      I s' ∧ ∃ e, (P.nucleus s).SetsSlot cb e (P.nucleus s') ∧ e.allocated = false) :
    P.Serves I where
  wf := h.wf
  map := h.map
  migrated := by
    intro s s' o cb hs hc hm hrun
    obtain ⟨s1, e, hrun1, hi, hslot, he⟩ := h.migrated hs hc hm
    obtain rfl := Except.ok.inj (hrun.symm.trans hrun1)
    exact ⟨hi, e, hslot, he⟩
  insert := by
    intro s s' o cb hs hmay hrun
    obtain ⟨s1, e, hrun1, hi, hslot, he⟩ := h.insert hs hmay
    obtain rfl := Except.ok.inj (hrun.symm.trans hrun1)
    exact ⟨hi, e, hslot, he⟩
  remove := hremove

end Policy

end Fomo
