import Fomo.DmcachePolicy.TargetPolicies

/-!
# Loading saved mappings (`dmcache_base_load_mapping`)

dm-cache saves its table when it goes down and loads it into a new policy when it comes up again,
one mapping after the other. The new policy need not be the one under which the table came about.
-/
namespace Fomo

open Lib

/-- The mappings `l` are loaded, and every load returns 0. -/
def loads (l : List (Oblock × Cblock)) : List (DmcacheCall × DmcacheAnswer) :=
  l.map fun x => (.loadMapping x.1 x.2, .code .ok)

variable {σ : Type} {P : Policy σ} {I : σ → Prop} {wraps : Bool} {d d0 : DmcacheBase σ}
  {m : Mapping} {l : List (Oblock × Cblock)} {o : Oblock} {cb : Cblock} {n : Nat}

theorem loads_concat (l : List (Oblock × Cblock)) (x : Oblock × Cblock) :
    loads (l ++ [x]) = loads l ++ [(.loadMapping x.1 x.2, .code .ok)] := by
  rw [loads, List.map_append]
  rfl

theorem mappingAfter_loads_concat (l : List (Oblock × Cblock)) (x : Oblock × Cblock) :
    mappingAfter (loads (l ++ [x])) = (mappingAfter (loads l)).put x.2 x.1 := by
  rw [loads_concat, mappingAfter, List.foldl_concat]
  rfl

/-- The table has what was loaded. -/
theorem mappingAfter_loads (h : (l.map Prod.snd).Nodup) :
    mappingAfter (loads l) cb = some o ↔ (o, cb) ∈ l := by
  induction l using List.reverseRecOn with
  | nil => exact iff_of_false (by simp [loads, mappingAfter]) (by simp)
  | append_singleton l x ih =>
    rw [List.map_append, List.map_singleton, List.nodup_append] at h
    rw [mappingAfter_loads_concat, Placement.put, List.mem_append, List.mem_singleton]
    by_cases hcb : cb = x.2
    · have hno : (o, cb) ∉ l := fun hmem =>
        h.2.2 cb (List.mem_map_of_mem hmem) x.2 (by simp) hcb
      rw [hcb, Function.update_self, Option.some.injEq, ← hcb, or_iff_right hno, Prod.ext_iff]
      simp [hcb, eq_comm]
    · have hno : (o, cb) ≠ x := fun heq => hcb (congrArg Prod.snd heq)
      rw [Function.update_of_ne hcb, ih h.1, or_iff_left hno]

variable (P I) in
/-- What holds while mappings are loaded: nothing is known but the blocks of the table, and
nothing migrates. -/
structure DmcacheBase.Loading (d : DmcacheBase σ) (m : Mapping) : Prop where
  ready : d.Ready I
  mapped : d.Mapped P m
  unknown : ∀ i, ((P.owner d.policy).entry ⟨.metadata, i⟩).allocated = false
  settled : ∀ cb, ¬(P.owner d.policy).Migrating cb
  useTick : d.useTick = false

theorem DmcacheBase.Loading.start (h : P.Reports I wraps) (hd : d0.Ready I)
    (habs : ∀ o, (P.owner d0.policy).Absent o) (htick : d0.useTick = false) :
    d0.Loading P I fun _ => none := by
  have hfree : ∀ r, ((P.owner d0.policy).entry r).allocated = false := by
    intro r
    by_contra ha
    exact habs _ r (Bool.eq_true_of_not_eq_false ha) rfl
  refine ⟨hd, DmcacheBase.mapped_empty habs, fun i => hfree _, fun cb hm => ?_, htick⟩
  have hno := (h.wf hd.policy).not_migrating (hfree ⟨.cache, cb⟩)
  exact absurd (hno.symm.trans hm) (by decide)

namespace Policy.Reports

/-- A mapping of a new block into a free slot is loaded. -/
theorem load (h : P.Reports I wraps)
    (hn : ∀ s, I s → ((P.owner s).pool .cache).nrEntries = n) (hd : d.Loading P I m)
    (ho : ¬m.Holds o) (hcb : m cb = none) (hlt : cb < n) :
    mappedCalls P d (.loadMapping o cb) ∧
    ∃ d', dmcacheBaseCall P d (.loadMapping o cb) = .ok (d', .code .ok) ∧
      d'.Loading P I (m.put cb o) := by
  have hfree : ((P.owner d.policy).entry ⟨.cache, cb⟩).allocated = false := by
    by_contra ha
    exact (hd.mapped.eq_none.mp hcb) _ ⟨Bool.eq_true_of_not_eq_false ha, rfl⟩
  have habs : (P.owner d.policy).Absent o := by
    intro r ha hob
    obtain ⟨p, i⟩ := r
    cases p with
    | cache => exact ho ((holds_iff hd.mapped).mpr ⟨i, ha, hob⟩)
    | metadata => exact absurd ((hd.unknown i).symm.trans ha) (by decide)
  have hmay : (P.owner d.policy).MayInsert o cb :=
    ⟨habs, by rw [hn _ hd.ready.policy]; exact hlt, hfree⟩
  obtain ⟨s, e, free, hins, hrw, he⟩ := h.insert hd.ready.policy hmay
  have hcall : dmcacheBaseCall P d (.loadMapping o cb) =
      .ok ({ d with policy := s }, .code .ok) := by
    rw [dmcacheBaseCall, dmcacheBaseLoadMapping, hins]
    rfl
  refine ⟨hmay, _, hcall, ⟨hd.ready.lock, h.locates.insert hd.ready.policy hmay hins⟩,
    Placement.Describes.put hd.mapped (hrw.setsSlot.caches_iff he), fun i => ?_, fun b hm => ?_,
    hd.useTick⟩
  · show ((P.owner s).entry _).allocated = false
    rw [hrw.entry_of_ne (fun heq => by cases heq)]
    exact hd.unknown i
  · have hm : ((P.owner s).entry ⟨.cache, b⟩).migrating = true := hm
    rw [hrw.setsSlot b] at hm
    split at hm
    · exact absurd (he.migrating.symm.trans hm) (by decide)
    · exact hd.settled b hm

/-- Mappings of different blocks into different slots are all loaded. -/
theorem loads (h : P.Reports I wraps)
    (hn : ∀ s, I s → ((P.owner s).pool .cache).nrEntries = n)
    (h0 : d0.Loading P I fun _ => none) (hfst : (l.map Prod.fst).Nodup)
    (hsnd : (l.map Prod.snd).Nodup) (hlt : ∀ x ∈ l, x.2 < n) :
    ∃ d, (dmcacheSystem P (mappedCalls P)).Run d0 (Fomo.loads l) d ∧
      d.Loading P I (mappingAfter (Fomo.loads l)) := by
  induction l using List.reverseRecOn with
  | nil => exact ⟨d0, .nil, h0⟩
  | append_singleton l x ih =>
    rw [List.map_append, List.map_singleton, List.nodup_append] at hfst hsnd
    obtain ⟨d, hrun, hd⟩ := ih hfst.1 hsnd.1 fun y hy => hlt y (List.mem_append_left _ hy)
    have ho : ¬(mappingAfter (Fomo.loads l)).Holds x.1 := by
      rintro ⟨cb, hcb⟩
      have hmem := (mappingAfter_loads hsnd.1).mp hcb
      exact hfst.2.2 x.1 (List.mem_map.mpr ⟨_, hmem, rfl⟩) x.1 (by simp) rfl
    have hcb : mappingAfter (Fomo.loads l) x.2 = none := by
      cases hx : mappingAfter (Fomo.loads l) x.2 with
      | none => rfl
      | some a =>
        have hmem := (mappingAfter_loads hsnd.1).mp hx
        exact absurd rfl (hsnd.2.2 x.2 (List.mem_map.mpr ⟨_, hmem, rfl⟩) x.2 (by simp))
    obtain ⟨hg, d', hcall, hd'⟩ := h.load hn hd ho hcb (hlt x (by simp))
    rw [loads_concat, mappingAfter, List.foldl_concat]
    exact ⟨d', hrun.snoc hg hcall, hd'⟩

end Policy.Reports

end Fomo
