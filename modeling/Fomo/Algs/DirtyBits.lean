import Fomo.Algs.Statistics
import Fomo.Include.Clean

/-!
# What LRU, ARC and LARC do with dirty bits

They report the bit of a victim and read no other. Function by function, what they do without
the bits is what they do with them.
-/
namespace Fomo

open Lib

variable {o : Oblock} {r : EntryRef} {w : Bool} {result : CacheNucleusResult}

/-- A policy that stages a transaction answers `FAIL` when it is illegal, and only then. -/
theorem illegal_of_fail {σ : Type} {s t : σ} {legal p q : Prop} [Decidable legal] [Decidable p]
    [Decidable q] {a b c op : CacheNucleusOperation} {x y z victim : Option EntryRef}
    (hv : (if legal then if p then .ok (s, a, x) else if q then .ok (s, b, y) else .ok (s, c, z)
      else .ok (s, .fail, none) : Exec (σ × CacheNucleusOperation × Option EntryRef)) =
        .ok (t, op, victim)) (ha : a ≠ .fail) (hb : b ≠ .fail) (hc : c ≠ .fail) :
    t = s ∧ (op = .fail → ¬legal) := by
  have hother : ∀ {d w}, d ≠ .fail → (.ok (s, d, w) : Exec _) = .ok (t, op, victim) →
      t = s ∧ (op = .fail → ¬legal) := by
    intro d w hd hx
    obtain ⟨rfl, heq⟩ := Prod.mk.inj (Except.ok.inj hx)
    exact ⟨rfl, fun hop => absurd ((Prod.mk.inj heq).1.trans hop) hd⟩
  by_cases hl : legal
  · rw [if_pos hl] at hv
    by_cases hp : p
    · exact hother ha (by rw [if_pos hp] at hv; exact hv)
    · rw [if_neg hp] at hv
      by_cases hq : q
      · exact hother hb (by rw [if_pos hq] at hv; exact hv)
      · exact hother hc (by rw [if_neg hq] at hv; exact hv)
  · rw [if_neg hl] at hv
    exact ⟨(Prod.mk.inj (Except.ok.inj hv)).1.symm, fun _ => hl⟩

/-! ## LRU -/

section Lru

variable {s : LruPolicy}

def LruPolicy.clean (s : LruPolicy) : LruPolicy := { s with nucleus := s.nucleus.clean }

theorem lruRemoveEntry_viewed :
    Viewed LruPolicy.clean (lruRemoveEntry s r) (lruRemoveEntry s.clean r) := by
  unfold lruRemoveEntry
  dsimp only
  have hm : (s.clean.nucleus.entry r).migrating = (s.nucleus.entry r).migrating := rfl
  rw [hm]
  cases (s.nucleus.entry r).migrating with
  | true => exact (cacheNucleusRemove_viewed _ _).bind fun _ => Viewed.pure rfl
  | false =>
    exact (cacheNucleusRemove_viewed s.nucleus.incDemotions r).bind fun _ => Viewed.pure rfl

theorem lruEvict_viewed (result : CacheNucleusResult) :
    Viewed (cleanAnswer LruPolicy.clean) (lruEvict s result)
      (lruEvict s.clean result.clean) := by
  unfold lruEvict
  refine (Viewed.same _).bind fun x => ?_
  exact (lruRemoveEntry_viewed (s := { s with lruQ := x.2 })).bind fun _ => Viewed.pure rfl

theorem lruInsert_viewed (result : CacheNucleusResult) :
    Viewed (cleanAnswer LruPolicy.clean) (lruInsert s o result)
      (lruInsert s.clean o result.clean) :=
  insertInCache_viewed.bind fun _ => migratingCacheEntry_viewed.bind fun _ => Viewed.pure rfl

theorem lruHit_viewed (result : CacheNucleusResult) :
    Viewed (cleanAnswer LruPolicy.clean) (lruHit s o result)
      (lruHit s.clean o result.clean) :=
  (Viewed.same _).bind fun _ => (Viewed.same _).bind fun _ =>
    Viewed.ite (Viewed.pure rfl) (Viewed.pure rfl)

theorem lruTransactionCommit_viewed {lt : LruTransaction} :
    Viewed (cleanAnswer LruPolicy.clean) (lruTransactionCommit s lt result)
      (lruTransactionCommit s.clean lt result.clean) := by
  unfold lruTransactionCommit
  refine Viewed.ite ?_ ?_
  · exact (lruHit_viewed { result with op := .hit }).bind fun _ => Viewed.pure rfl
  · refine Viewed.ite ?_ ?_
    · refine (lruEvict_viewed { result with op := .replace }).bind fun _ => ?_
      exact (lruInsert_viewed _).bind fun _ => Viewed.pure rfl
    · exact (lruInsert_viewed { result with op := .new }).bind fun _ => Viewed.pure rfl

theorem lruMapApi_viewed : Viewed (cleanAnswer LruPolicy.clean) (lruMapApi s o w result)
    (lruMapApi s.clean o false result.clean) := by
  unfold lruMapApi
  dsimp only
  refine Viewed.ite (lruTransactionCommit_viewed.bind fun x => Viewed.pure ?_) (Viewed.pure rfl)
  refine Prod.ext ?_ rfl
  exact congrArg (fun cn => ({ x.1 with nucleus := cn } : LruPolicy))
    (dirtyWork_clean x.1.nucleus.incIos o w)

theorem lruNextVictimApi_refused {t : LruPolicy} {op : CacheNucleusOperation}
    {victim : Option EntryRef} (hv : lruNextVictimApi s o = .ok (t, op, victim)) : t = s ∧
    (op = .fail → ∀ w result, lruMapApi s o w result = .ok (s, { result with op := .fail })) := by
  obtain ⟨ht, hfail⟩ := illegal_of_fail hv (by decide) (by decide) (by decide)
  refine ⟨ht, fun hop w result => ?_⟩
  unfold lruMapApi
  dsimp only
  rw [if_neg (hfail hop)]
  rfl

theorem LruPolicy.Inv.clean (h : s.Inv) : s.clean.Inv :=
  ⟨h.wf.clean, h.meta_empty, h.queue_nodup, h.mem_queue⟩

theorem lru_blind : lruApi.Blind LruPolicy.Inv LruPolicy.clean where
  map := fun _ => lruMapApi_viewed
  map_op := rfl
  migrated := migratedCacheEntry_viewed.bind fun _ => Viewed.pure rfl
  nextVictim := lruNextVictimApi_refused

end Lru

/-! ## ARC -/

section Arc

variable {s : ArcPolicy} {list : ArcList} {at' : ArcTransaction}

def ArcPolicy.clean (s : ArcPolicy) : ArcPolicy := { s with nucleus := s.nucleus.clean }

theorem arcSetForList_clean (s : ArcPolicy) (r : EntryRef) (list : ArcList) :
    arcSetForList s.clean r list = (arcSetForList s r list).clean := by
  unfold arcSetForList
  by_cases hl : s.loc r ≠ .null
  · rw [if_pos hl, if_pos (show s.clean.loc r ≠ .null from hl)]
    rfl
  · rw [if_neg hl, if_neg (show ¬s.clean.loc r ≠ .null from hl)]
    rfl

theorem arcRemoveEntry_viewed :
    Viewed ArcPolicy.clean (arcRemoveEntry s r) (arcRemoveEntry s.clean r) := by
  unfold arcRemoveEntry
  dsimp only
  refine Viewed.ite (Viewed.error _ _) ?_
  have hm : ∀ n, ((s.clean.setLength (s.loc r) n).nucleus.entry r).migrating =
      ((s.setLength (s.loc r) n).nucleus.entry r).migrating := fun _ => rfl
  have hloc : s.clean.loc r = s.loc r := rfl
  have hlen : s.clean.length = s.length := rfl
  rw [hloc, hlen, hm]
  cases ((s.setLength (s.loc r) (dec32 (s.length (s.loc r)))).nucleus.entry r).migrating with
  | true => exact (cacheNucleusRemove_viewed s.nucleus r).bind fun _ => Viewed.pure rfl
  | false =>
    cases inCache (some r) with
    | true =>
      exact (cacheNucleusRemove_viewed s.nucleus.incDemotions r).bind fun _ => Viewed.pure rfl
    | false => exact (cacheNucleusRemove_viewed s.nucleus r).bind fun _ => Viewed.pure rfl

theorem arcEvict_viewed : Viewed (cleanAnswer ArcPolicy.clean) (arcEvict s list result)
    (arcEvict s.clean list result.clean) := by
  unfold arcEvict
  refine (Viewed.same _).bind fun x => ?_
  exact (arcRemoveEntry_viewed
    (s := { s with arcQ := Function.update s.arcQ list x.2 })).bind fun _ => Viewed.pure rfl

theorem arcForget_viewed : Viewed ArcPolicy.clean (arcForget s o) (arcForget s.clean o) := by
  unfold arcForget
  rw [show hashLookup s.clean.nucleus o = hashLookup s.nucleus o from rfl]
  cases hashLookup s.nucleus o with
  | none => exact Viewed.ok rfl
  | some r => exact arcRemoveEntry_viewed

theorem arcMetaEvict_viewed : Viewed ArcPolicy.clean (arcMetaEvict s list result)
    (arcMetaEvict s.clean list result.clean) :=
  Viewed.ite (arcEvict_viewed.bind fun _ => Viewed.pure rfl) (Viewed.ok rfl)

theorem arcGhost_viewed :
    Viewed ArcPolicy.clean (arcGhost s o list) (arcGhost s.clean o list) := by
  unfold arcGhost
  refine (allocPoolEntry_viewed (p := .metadata)).bind fun x => Viewed.pure ?_
  exact congrArg (fun a : ArcPolicy => a.push list x.2)
    (arcSetForList_clean ({ s with nucleus := x.1 }.setLoc x.2 .null) x.2 list)

theorem arcMakeRoom_viewed : Viewed (cleanAnswer ArcPolicy.clean) (arcMakeRoom s at' result)
    (arcMakeRoom s.clean at' result.clean) := by
  unfold arcMakeRoom
  refine Viewed.ite ?_ (Viewed.ok rfl)
  refine arcEvict_viewed.bind fun x => Viewed.ite ?_ (Viewed.pure rfl)
  exact arcGhost_viewed.bind fun _ => Viewed.pure rfl

theorem arcArrive_viewed : Viewed (cleanAnswer ArcPolicy.clean) (arcArrive s o list result)
    (arcArrive s.clean o list result.clean) := by
  unfold arcArrive
  refine insertInCache_viewed.bind fun x => ?_
  dsimp only
  rw [show ({ s.clean with nucleus := x.1.clean } : ArcPolicy).setLoc x.2.1 .null =
    ArcPolicy.clean ({ s with nucleus := x.1 }.setLoc x.2.1 .null) from rfl, arcSetForList_clean]
  exact migratingCacheEntry_viewed.bind fun _ => Viewed.pure rfl

theorem arcTouch_viewed : Viewed (cleanAnswer ArcPolicy.clean) (arcTouch s r list result)
    (arcTouch s.clean r list result.clean) := by
  unfold arcTouch
  dsimp only
  rw [arcSetForList_clean]
  exact (Viewed.same _).bind fun _ => Viewed.ite (Viewed.pure rfl) (Viewed.pure rfl)

theorem arcTransactionCommit_viewed (h : s.Inv) (hst : s.Staged o at') :
    Viewed (cleanAnswer ArcPolicy.clean) (arcTransactionCommit s at' result)
      (arcTransactionCommit s.clean at' result.clean) := by
  rcases hst.hit_or_planned h with ⟨r, hl, hp, rfl⟩ | hpl
  · have hloc := h.loc_of_cached (h.wf.hashLookup_eq_some.mp hl).1 hp
    rw [arcTransactionCommit_touch hl hloc]
    have hclean : arcTransactionCommit s.clean
        { arcTransactionInit s o with currentLoc := s.loc r, dest := .t2 } result.clean =
        arcTouch s.clean.counted r .t2 { result.clean with op := .hit } :=
      arcTransactionCommit_touch (s := s.clean) hl hloc result.clean
    rw [hclean]
    exact arcTouch_viewed (s := s.counted)
  · have hclean : s.clean.Planned o at' :=
      ⟨hpl.oblock, hpl.uncached, hpl.currentLoc, hpl.dest, hpl.metaEvict, hpl.cacheEvict, hpl.ghost⟩
    rw [arcTransactionCommit_miss hpl, arcTransactionCommit_miss hclean]
    refine (arcForget_viewed (s := s.aim at'.p)).bind fun _ => ?_
    refine arcMetaEvict_viewed.bind fun _ => arcMakeRoom_viewed.bind fun _ => ?_
    exact arcArrive_viewed

theorem arcMapApi_viewed (h : s.Inv) : Viewed (cleanAnswer ArcPolicy.clean)
    (arcMapApi s o w result) (arcMapApi s.clean o false result.clean) := by
  obtain ⟨at', hset, hst⟩ := arcTransactionSet_staged h o
  have hclean : arcTransactionSet s.clean (arcTransactionInit s.clean o) = .ok at' := hset
  unfold arcMapApi
  rw [hset, hclean, ok_bind, ok_bind]
  refine Viewed.ite ((arcTransactionCommit_viewed h hst).bind fun x => Viewed.pure ?_)
    (Viewed.pure rfl)
  refine Prod.ext ?_ rfl
  exact congrArg (fun cn => ({ x.1 with nucleus := cn } : ArcPolicy))
    (dirtyWork_clean x.1.nucleus.incIos o w)

theorem arcNextVictimApi_refused {t : ArcPolicy} {op : CacheNucleusOperation}
    {victim : Option EntryRef} (hv : arcNextVictimApi s o = .ok (t, op, victim)) : t = s ∧
    (op = .fail → ∀ w result, arcMapApi s o w result = .ok (s, { result with op := .fail })) := by
  obtain ⟨at', hset, hv⟩ := bind_eq_ok.mp hv
  obtain ⟨ht, hfail⟩ := illegal_of_fail hv (by decide) (by decide) (by decide)
  refine ⟨ht, fun hop w result => ?_⟩
  rw [arcMapApi, hset, ok_bind, if_neg (hfail hop)]
  rfl

theorem arc_blind : arcApi.Blind ArcPolicy.Inv ArcPolicy.clean where
  map := arcMapApi_viewed
  map_op := rfl
  migrated := fun {s o} => by
    show Viewed ArcPolicy.clean (arcMigratedApi s o) (arcMigratedApi s.clean o)
    unfold arcMigratedApi
    rw [show hashLookup s.clean.nucleus o = hashLookup s.nucleus o from rfl]
    cases hashLookup s.nucleus o with
    | none => exact Viewed.error _ _
    | some e =>
      exact (Viewed.same _).bind fun _ => migratedCacheEntry_viewed.bind fun _ =>
        (Viewed.same _).bind fun _ => Viewed.pure rfl
  nextVictim := arcNextVictimApi_refused

end Arc

/-! ## LARC -/

section Larc

variable {s : LarcPolicy} {q : Queue} {g : Nat}

def LarcPolicy.clean (s : LarcPolicy) : LarcPolicy := { s with nucleus := s.nucleus.clean }

theorem larcRemoveEntry_viewed :
    Viewed LarcPolicy.clean (larcRemoveEntry s r) (larcRemoveEntry s.clean r) := by
  unfold larcRemoveEntry
  dsimp only
  have hm : (s.clean.nucleus.entry r).migrating = (s.nucleus.entry r).migrating := rfl
  rw [hm]
  cases (s.nucleus.entry r).migrating with
  | true => exact (cacheNucleusRemove_viewed _ _).bind fun _ => Viewed.pure rfl
  | false =>
    cases inCache (some r) with
    | true =>
      exact (cacheNucleusRemove_viewed s.nucleus.incDemotions r).bind fun _ => Viewed.pure rfl
    | false => exact (cacheNucleusRemove_viewed s.nucleus r).bind fun _ => Viewed.pure rfl

theorem larcEvict_viewed (result : CacheNucleusResult) :
    Viewed (cleanAnswer LarcPolicy.clean) (larcEvict s q result)
      (larcEvict s.clean q result.clean) :=
  (Viewed.same _).bind fun _ => larcRemoveEntry_viewed.bind fun _ => Viewed.pure rfl

theorem larcMakeRoom_viewed {evict : Bool} : Viewed (cleanAnswer LarcPolicy.clean)
    (larcMakeRoom s evict result) (larcMakeRoom s.clean evict result.clean) := by
  unfold larcMakeRoom
  refine Viewed.ite ?_ (Viewed.ok rfl)
  exact (larcEvict_viewed { result with op := .new }).bind fun _ => Viewed.pure rfl

theorem larcForget_viewed {ghost : Bool} :
    Viewed LarcPolicy.clean (larcForget s o ghost) (larcForget s.clean o ghost) :=
  Viewed.ite ((Viewed.same _).bind fun _ => larcRemoveEntry_viewed) (Viewed.ok rfl)

theorem larcArrive_viewed : Viewed (cleanAnswer LarcPolicy.clean) (larcArrive s o result)
    (larcArrive s.clean o result.clean) :=
  insertInCache_viewed.bind fun _ => migratingCacheEntry_viewed.bind fun _ =>
    Viewed.ite (Viewed.pure rfl) (Viewed.pure rfl)

theorem larcTransactionCommit_hit_viewed :
    Viewed (cleanAnswer LarcPolicy.clean)
      (larcTransactionCommit s
        { larcTransactionInit s o with cHit := true, gSize := g, dest := .q } result)
      (larcTransactionCommit s.clean
        { larcTransactionInit s o with cHit := true, gSize := g, dest := .q } result.clean) := by
  simp only [larcTransactionCommit, larcTransactionInit, Bool.false_eq_true, if_false, if_true,
    ok_bind]
  refine (Viewed.same _).bind fun le => (Viewed.same _).bind fun _ => Viewed.pure ?_
  have hm : (s.clean.nucleus.entry (id le)).migrating = (s.nucleus.entry le).migrating := rfl
  rw [hm]
  cases (s.nucleus.entry le).migrating with
  | true => rfl
  | false => rfl

theorem larcTransactionCommit_viewed {lt : LarcTransaction}
    (hset : larcTransactionSet s (larcTransactionInit s o) = .ok lt) :
    Viewed (cleanAnswer LarcPolicy.clean) (larcTransactionCommit s lt result)
      (larcTransactionCommit s.clean lt result.clean) := by
  have henter : ∀ g evict ghost, Viewed (cleanAnswer LarcPolicy.clean)
      (larcTransactionCommit s { larcTransactionInit s o with
        gSize := g, cEvict := evict, gHit := ghost, dest := .q } result)
      (larcTransactionCommit s.clean { larcTransactionInit s.clean o with
        gSize := g, cEvict := evict, gHit := ghost, dest := .q } result.clean) := by
    intro g evict ghost
    rw [larcTransactionCommit_enter, larcTransactionCommit_enter]
    exact (larcMakeRoom_viewed (s := s.aim g)).bind fun _ => larcForget_viewed.bind fun _ =>
      larcArrive_viewed
  have hfilter : ∀ g trim, Viewed (cleanAnswer LarcPolicy.clean)
      (larcTransactionCommit s { larcTransactionInit s o with
        gSize := g, dest := .g, gEvict := trim } result)
      (larcTransactionCommit s.clean { larcTransactionInit s.clean o with
        gSize := g, dest := .g, gEvict := trim } result.clean) := by
    intro g trim
    rw [larcTransactionCommit_filter, larcTransactionCommit_filter]
    refine (allocPoolEntry_viewed (p := .metadata)).bind fun x => Viewed.ite ?_ (Viewed.pure rfl)
    exact (larcEvict_viewed (s := { s.aim g with
      nucleus := x.1.incFilters, larcG := queuePush s.larcG x.2 })
      { result with op := .filter }).bind fun _ => Viewed.pure rfl
  unfold larcTransactionSet at hset
  dsimp only at hset
  split at hset
  · obtain ⟨g, _, hset⟩ := bind_eq_ok.mp hset
    obtain rfl := Except.ok.inj hset
    exact larcTransactionCommit_hit_viewed
  · obtain ⟨g, _, hset⟩ := bind_eq_ok.mp hset
    split at hset
    · obtain rfl := Except.ok.inj hset
      exact henter g _ true
    · split at hset
      · obtain rfl := Except.ok.inj hset
        exact henter g false false
      · obtain rfl := Except.ok.inj hset
        exact hfilter g _

theorem larcMapApi_viewed : Viewed (cleanAnswer LarcPolicy.clean) (larcMapApi s o w result)
    (larcMapApi s.clean o false result.clean) := by
  have hclean : larcTransactionSet s.clean (larcTransactionInit s.clean o) =
      larcTransactionSet s (larcTransactionInit s o) := rfl
  unfold larcMapApi
  rw [hclean]
  cases hset : larcTransactionSet s (larcTransactionInit s o) with
  | error e => exact Viewed.error _ _
  | ok lt =>
    rw [ok_bind, ok_bind]
    refine Viewed.ite ((larcTransactionCommit_viewed hset).bind fun x => Viewed.pure ?_)
      (Viewed.pure rfl)
    refine Prod.ext ?_ rfl
    exact congrArg (fun cn => ({ x.1 with nucleus := cn } : LarcPolicy))
      (dirtyWork_clean x.1.nucleus.incIos o w)

theorem larcNextVictimApi_refused {t : LarcPolicy} {op : CacheNucleusOperation}
    {victim : Option EntryRef} (hv : larcNextVictimApi s o = .ok (t, op, victim)) : t = s ∧
    (op = .fail → ∀ w result, larcMapApi s o w result = .ok (s, { result with op := .fail })) := by
  obtain ⟨lt, hset, hv⟩ := bind_eq_ok.mp hv
  obtain ⟨ht, hfail⟩ := illegal_of_fail hv (by decide) (by decide) (by decide)
  refine ⟨ht, fun hop w result => ?_⟩
  rw [larcMapApi, hset, ok_bind, if_neg (hfail hop)]
  rfl

theorem larc_blind : larcApi.Blind LarcPolicy.Inv LarcPolicy.clean where
  map := fun _ => larcMapApi_viewed
  map_op := rfl
  migrated := fun {s o} => by
    show Viewed LarcPolicy.clean (larcMigratedApi s o) (larcMigratedApi s.clean o)
    unfold larcMigratedApi
    rw [show hashLookup s.clean.nucleus o = hashLookup s.nucleus o from rfl]
    cases hashLookup s.nucleus o with
    | none => exact Viewed.error _ _
    | some e =>
      exact (Viewed.same _).bind fun _ => migratedCacheEntry_viewed.bind fun _ => Viewed.pure rfl
  nextVictim := larcNextVictimApi_refused

end Larc

end Fomo
