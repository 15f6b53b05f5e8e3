import Fomo.DmcachePolicy.LruCalls

/-!
# Write-back tracking over LRU

Every call of a run moves the entries of the tracker in one of three ways. Over the run the
dirty queue lists the dirty cached blocks in the order in which they entered it, and a block
that was written back stays clean until it is set dirty again.
-/
namespace Fomo

open LruPolicy

section

variable {d d' : DmcacheBase LruPolicy} {sets : Oblock → Prop} {entered : Option EntryRef}
  {o : Oblock} {cb : Cblock} {r : EntryRef}

/-! ## Runs -/

/-- The calls of a target that does not override mappings. -/
def writebackCalls (d : DmcacheBase LruPolicy) : DmcacheCall → Prop
  | .setDirty o | .clearDirty o | .removeMapping o => d.policy.nucleus.Cached o
  | .loadMapping o cb => d.policy.nucleus.MayInsert o cb
  | .ioComplete o => d.policy.nucleus.MayMigrate o
  | .removeCblock _ | .forceMapping _ _ => False
  | _ => True

/-- dmcache_base over LRU, and when each entry last joined the dirty queue. -/
def lruWriteback :
    Lib.System (DmcacheBase LruPolicy × Touches) DmcacheCall DmcacheAnswer Fault :=
  (dmcacheSystem lruApi writebackCalls).ghost fun d c _ _ g => g.tick (entersDirty d c)

theorem LruMoved.refl (h : LruTracked d) : LruMoved d sets none d :=
  ⟨h.inv, h.lock, .same (fun _ => ⟨rfl, rfl, rfl⟩) rfl⟩

/-- What every call of a run does, in one form. -/
theorem LruTracked.moved (h : LruTracked d) {c : DmcacheCall} {a : DmcacheAnswer}
    (hg : writebackCalls d c) (hcall : dmcacheBaseCall lruApi d c = .ok (d', a)) :
    LruMoved d (fun o => c = .setDirty o) (entersDirty d c) d' := by
  have hmono : ∀ {d' : DmcacheBase LruPolicy} {sets : Oblock → Prop} {entered},
      LruMoved d sets entered d' → (∀ o, sets o → c = .setDirty o) →
      LruMoved d (fun o => c = .setDirty o) entered d' := fun hm hs =>
    ⟨hm.inv, hm.lock, hm.moved.mono hs⟩
  cases c with
  | map o canBlock canMigrate bpResult result =>
    obtain ⟨d1, x, hrun, hm⟩ := dmcacheBaseMap_moved h o canBlock canMigrate bpResult result
    obtain ⟨y, hrun', heq⟩ := map_eq_ok.mp hcall
    obtain rfl := Except.ok.inj (hrun.symm.trans hrun')
    obtain ⟨rfl, _⟩ := Prod.mk.inj heq
    exact hmono hm fun _ hx => hx.elim
  | lookup o cb =>
    rw [dmcacheBaseCall, dmcacheBaseLookup_eq h.lock] at hcall
    obtain ⟨rfl, _⟩ := Prod.mk.inj (Except.ok.inj hcall)
    exact .refl h
  | setDirty o =>
    obtain ⟨cb, hc⟩ := hg
    have hl := h.inv.wf.caches_iff.mp hc
    obtain ⟨d1, hrun, hm, _⟩ := dmcacheBaseMark_spec h hl true
    obtain ⟨y, hrun', heq⟩ := map_eq_ok.mp hcall
    obtain rfl := Except.ok.inj (hrun.symm.trans hrun')
    obtain ⟨rfl, _⟩ := Prod.mk.inj heq
    rw [entersDirty, hl]
    exact hmono hm fun _ hx => hx.1 ▸ rfl
  | clearDirty o =>
    obtain ⟨cb, hc⟩ := hg
    obtain ⟨d1, hrun, hm, _⟩ := dmcacheBaseMark_spec h (h.inv.wf.caches_iff.mp hc) false
    obtain ⟨y, hrun', heq⟩ := map_eq_ok.mp hcall
    obtain rfl := Except.ok.inj (hrun.symm.trans hrun')
    obtain ⟨rfl, _⟩ := Prod.mk.inj heq
    exact hmono hm fun _ hx => by cases hx.2
  | loadMapping o cb =>
    obtain ⟨⟨d1, x⟩, hrun, heq⟩ := map_eq_ok.mp hcall
    obtain ⟨rfl, _⟩ := Prod.mk.inj heq
    exact hmono (dmcacheBaseLoadMapping_moved h hg hrun) fun _ hx => hx.elim
  | removeMapping o =>
    obtain ⟨d1, hrun, heq⟩ := map_eq_ok.mp hcall
    obtain ⟨rfl, _⟩ := Prod.mk.inj heq
    exact hmono (dmcacheBaseRemoveMapping_moved h hrun) fun _ hx => hx.elim
  | removeCblock cb => exact hg.elim
  | writebackWork o cb =>
    rw [dmcacheBaseCall] at hcall
    split at hcall
    · obtain ⟨y, hrun, heq⟩ := map_eq_ok.mp hcall
      obtain ⟨rfl, _⟩ := Prod.mk.inj heq
      cases hq : d.policy.nucleus.wb.dirty with
      | nil =>
        rw [dmcacheBaseWritebackWork_none h hq] at hrun
        obtain rfl := Except.ok.inj hrun
        exact .refl h
      | cons r q =>
        obtain ⟨d1, hrun', hm, _⟩ := dmcacheBaseWritebackWork_some h hq o cb
        obtain rfl := Except.ok.inj (hrun'.symm.trans hrun)
        exact hmono hm fun _ hx => hx.elim
    · cases hcall
  | forceMapping a b => exact hg.elim
  | residency =>
    rw [dmcacheBaseCall, dmcacheBaseResidency_eq h.lock] at hcall
    obtain ⟨rfl, _⟩ := Prod.mk.inj (Except.ok.inj hcall)
    exact .refl h
  | tick =>
    obtain ⟨rfl, _⟩ := Prod.mk.inj (Except.ok.inj hcall)
    exact ⟨h.inv, h.lock, .same (fun _ => ⟨rfl, rfl, rfl⟩) rfl⟩
  | setConfigValue key value =>
    have heq : (dmcacheBaseSetConfigValue d key value).1 = d' :=
      (Prod.mk.inj (Except.ok.inj hcall)).1
    obtain ⟨hpolicy, hlock⟩ := heq ▸ dmcacheBaseSetConfigValue_policy key value
    refine ⟨hpolicy ▸ h.inv, hlock.trans h.lock, ?_⟩
    rw [hpolicy]
    exact .same (fun _ => ⟨rfl, rfl, rfl⟩) rfl
  | ioComplete o =>
    obtain ⟨d1, hrun, heq⟩ := map_eq_ok.mp hcall
    obtain ⟨rfl, _⟩ := Prod.mk.inj heq
    exact hmono (dmcacheBaseIoComplete_moved h hrun) fun _ hx => hx.elim

/-- The dirty queue stays in the order of entry. -/
theorem CacheNucleus.Moved.byAge {cn cn' : CacheNucleus} {g : Touches} (h : cn.Tracked)
    (hm : cn.Moved sets cn' entered) (hage : Lib.ByAge g.last g.now cn.wb.dirty) :
    Lib.ByAge (g.tick entered).last (g.tick entered).now cn'.wb.dirty := by
  cases hm with
  | same hs hwb => exact hage.sublist (hwb ▸ List.Sublist.refl _)
  | detached hs he hwb => exact hage.sublist (hwb ▸ List.erase_sublist)
  | @queued r e hs ha he hwb =>
    cases hd : e.dirty with
    | true =>
      rw [hd] at hwb
      rw [hwb]
      exact hage.touch h.dirty_nodup r
    | false =>
      rw [hd] at hwb
      rw [hwb]
      exact hage.sublist List.erase_sublist

/-- The invariant of the observed system. -/
structure WritebackOrdered (d : DmcacheBase LruPolicy) (g : Touches) : Prop where
  tracked : LruTracked d
  byAge : Lib.ByAge g.last g.now d.policy.nucleus.wb.dirty

theorem dmcacheLru_tracked {c : UInt32} {useWb useTick : Bool}
    (hinit : dmcacheBaseCreate lruApi lruCreate c = .ok d) :
    LruTracked { d with useWb := useWb, useTick := useTick } ∧ d.policy.nucleus.wb = {} := by
  obtain ⟨s, hs, hinit⟩ := bind_eq_ok.mp hinit
  rw [← Except.ok.inj hinit]
  obtain ⟨hinv, _, _, habs⟩ := lruInit_spec hs
  have hfree : ∀ r, (s.nucleus.entry r).allocated = false := by
    intro r
    by_contra hr
    exact habs _ r (by simpa using hr) rfl
  refine ⟨⟨hinv.withWb {}, rfl, ⟨List.nodup_nil, fun r => ?_, List.nodup_nil, ?_, rfl⟩⟩, rfl⟩
  · refine iff_of_false List.not_mem_nil fun hr => ?_
    have ha : (s.nucleus.entry r).allocated = true := hr.1
    rw [hfree r] at ha
    cases ha
  · exact fun r hr => absurd hr List.not_mem_nil

theorem WritebackOrdered.of_run {g g' : Touches} {t : List (DmcacheCall × DmcacheAnswer)}
    (h : WritebackOrdered d g) (hrun : lruWriteback.Run (d, g) t (d', g')) :
    WritebackOrdered d' g' := by
  refine hrun.invariant (I := fun p => WritebackOrdered p.1 p.2) h fun {a c b w} ha hg hstep => ?_
  obtain ⟨hstep, hghost⟩ := Lib.System.ghost_step.mp hstep
  have hm := ha.tracked.moved hg hstep
  rw [hghost]
  exact ⟨ha.tracked.step hm, hm.moved.byAge ha.tracked.tracked ha.byAge⟩

/-! ## What is returned for writing back -/

/-- `o` is cached and dirty. -/
def CacheNucleus.DirtyBlock (cn : CacheNucleus) (o : Oblock) : Prop :=
  ∃ r, cn.DirtyAt r ∧ (cn.entry r).oblock = o

/-- The call returned `o` for writing back. -/
def writesBack (o : Oblock) : DmcacheCall × DmcacheAnswer → Bool
  | (_, .work a _ .ok) => decide (a = o)
  | _ => false

/-- A block that is returned was dirty and is clean. -/
theorem LruTracked.writesBack (h : LruTracked d) {c : DmcacheCall} {a : DmcacheAnswer}
    (hcall : dmcacheBaseCall lruApi d c = .ok (d', a)) (hw : Fomo.writesBack o (c, a) = true) :
    d.policy.nucleus.DirtyBlock o ∧ ¬d'.policy.nucleus.DirtyBlock o := by
  obtain ⟨o', cb', rfl⟩ : ∃ o' cb', a = .work o' cb' .ok := by
    unfold Fomo.writesBack at hw
    split at hw
    · next heq => exact ⟨_, _, (Prod.mk.inj heq).2⟩
    · cases hw
  obtain rfl : o' = o := by simpa [Fomo.writesBack] using hw
  obtain ⟨o0, cb0, rfl⟩ : ∃ o0 cb0, c = .writebackWork o0 cb0 := by
    cases c with
    | writebackWork o0 cb0 => exact ⟨o0, cb0, rfl⟩
    | tick => cases hcall
    | lookup => cases hcall
    | setConfigValue => cases hcall
    | _ =>
      obtain ⟨_, _, heq⟩ := map_eq_ok.mp hcall
      cases heq
  rw [dmcacheBaseCall] at hcall
  split at hcall
  · obtain ⟨y, hrun, heq⟩ := map_eq_ok.mp hcall
    cases hq : d.policy.nucleus.wb.dirty with
    | nil =>
      rw [dmcacheBaseWritebackWork_none h hq] at hrun
      obtain rfl := Except.ok.inj hrun
      cases heq
    | cons r q =>
      obtain ⟨d1, hrun', _, hrw⟩ := dmcacheBaseWritebackWork_some h hq o0 cb0
      obtain rfl := Except.ok.inj (hrun'.symm.trans hrun)
      obtain ⟨rfl, hwork⟩ := Prod.mk.inj heq
      obtain ⟨rfl, _⟩ := DmcacheAnswer.work.inj hwork
      have hd := (h.tracked.mem_dirty r).mp (hq ▸ List.mem_cons_self)
      refine ⟨⟨r, hd, rfl⟩, ?_⟩
      rintro ⟨x, hx, hxo⟩
      by_cases hxr : x = r
      · rw [CacheNucleus.DirtyAt, hxr, hrw.entry_self] at hx
        cases hx.2
      · rw [CacheNucleus.DirtyAt, hrw.entry_of_ne hxr] at hx
        rw [hrw.entry_of_ne hxr] at hxo
        exact hxr (h.inv.wf.inj x r hx.1 hd.1 hxo)
  · cases hcall

/-- While a block is not set dirty it is returned once at most, and then it is clean. -/
theorem LruTracked.written_once (h : LruTracked d) {t : List (DmcacheCall × DmcacheAnswer)}
    (hrun : (dmcacheSystem lruApi writebackCalls).Run d t d')
    (hno : ∀ x ∈ t, x.1 ≠ .setDirty o) : t.countP (Fomo.writesBack o) ≤ 1 := by
  have hhist := hrun.history (J := fun t d' => LruTracked d' ∧
    ((∀ x ∈ t, x.1 ≠ .setDirty o) → t.countP (Fomo.writesBack o) ≤ 1 ∧
      (t.countP (Fomo.writesBack o) = 1 → ¬d'.policy.nucleus.DirtyBlock o))) ⟨h, ?_⟩
    fun {t a c b w} ha hg hcall => ?_
  · exact (hhist.2 hno).1
  · exact fun _ => ⟨Nat.zero_le _, fun hx => by cases hx⟩
  · obtain ⟨ha, hcount⟩ := ha
    have hm := ha.moved hg hcall
    refine ⟨ha.step hm, fun hno => ?_⟩
    obtain ⟨hle, hclean⟩ := hcount fun x hx => hno x (List.mem_append_left _ hx)
    have hc : c ≠ .setDirty o := hno (c, w) (by simp)
    rw [List.countP_append, List.countP_singleton]
    by_cases hw : Fomo.writesBack o (c, w) = true
    · obtain ⟨hbefore, hafter⟩ := ha.writesBack hcall hw
      rw [if_pos hw]
      refine ⟨?_, fun _ => hafter⟩
      have : t.countP (Fomo.writesBack o) ≠ 1 := fun hone => hclean hone hbefore
      omega
    · rw [if_neg hw]
      refine ⟨hle, fun hone => ?_⟩
      rintro ⟨x, hx, hxo⟩
      obtain ⟨hx', ho'⟩ := hm.moved.of_dirtyAt hx (by rw [hxo]; exact hc)
      exact hclean hone ⟨x, hx', ho'.trans hxo⟩

end

/-- Write-back tracking over LRU in every run: the dirty queue lists the dirty cached entries,
no free entry is in a queue, `writeback_work` answers with the dirty block that joined the
dirty queue first, and a block is returned once at most between two calls that set it dirty. -/
theorem writeback_tracking {c : UInt32} {useTick : Bool} {d0 d : DmcacheBase LruPolicy}
    {g : Touches} {t : List (DmcacheCall × DmcacheAnswer)}
    (hinit : dmcacheBaseCreate lruApi lruCreate c = .ok d0)
    (hrun : lruWriteback.Run ({ d0 with useWb := true, useTick := useTick }, {}) t (d, g)) :
    ((∀ r, r ∈ d.policy.nucleus.wb.dirty ↔ r.pool = .cache ∧
        (d.policy.nucleus.entry r).allocated = true ∧ (d.policy.nucleus.entry r).dirty = true) ∧
      d.policy.nucleus.wb.dirty.Nodup) ∧
    (∀ r, (d.policy.nucleus.entry r).allocated = false → r ∉ d.policy.nucleus.wb.clean ∧
      r ∉ d.policy.nucleus.wb.dirty ∧ r ∉ d.policy.nucleus.wb.metadata) ∧
    (∀ o cb, ∃ d' o' cb' x, dmcacheBaseWritebackWork lruApi d o cb = .ok (d', o', cb', x) ∧
      (x = .enodata ↔ ∀ a b, d.policy.nucleus.Caches a b →
        (d.policy.nucleus.entry ⟨.cache, b⟩).dirty = false) ∧
      (x ≠ .enodata → x = .ok ∧ d.policy.nucleus.Caches o' cb' ∧
        (d.policy.nucleus.entry ⟨.cache, cb'⟩).dirty = true ∧
        ∀ a b, d.policy.nucleus.Caches a b → (d.policy.nucleus.entry ⟨.cache, b⟩).dirty = true →
          b ≠ cb' → g.last ⟨.cache, cb'⟩ < g.last ⟨.cache, b⟩)) ∧
    ∀ o t1 t2 t3, t = t1 ++ (t2 ++ t3) → (∀ x ∈ t2, x.1 ≠ .setDirty o) →
      t2.countP (writesBack o) ≤ 1 := by
  obtain ⟨h0, hwb0⟩ := @dmcacheLru_tracked _ _ true useTick hinit
  have hord : WritebackOrdered d g := by
    refine WritebackOrdered.of_run ⟨h0, ?_⟩ hrun
    show Lib.ByAge _ _ d0.policy.nucleus.wb.dirty
    rw [hwb0]
    exact .nil
  have h := hord.tracked
  refine ⟨⟨fun r => ?_, h.tracked.dirty_nodup⟩, fun r hr => ?_, fun o cb => ?_,
    fun o t1 t2 t3 ht hno => ?_⟩
  · rw [h.tracked.mem_dirty]
    exact ⟨fun hd => ⟨h.inv.pool_eq hd.1, hd⟩, fun hd => hd.2⟩
  · have hfree : ∀ {q : Queue}, (r ∈ q → (d.policy.nucleus.entry r).allocated = true) → r ∉ q := by
      intro q hq hmem
      rw [hq hmem] at hr
      cases hr
    exact ⟨hfree fun hm => h.tracked.allocated (Or.inl hm),
      hfree fun hm => h.tracked.allocated (Or.inr (Or.inl hm)),
      hfree fun hm => h.tracked.allocated (Or.inr (Or.inr hm))⟩
  · have hdirty : ∀ {a b}, d.policy.nucleus.Caches a b →
        (d.policy.nucleus.entry ⟨.cache, b⟩).dirty = true →
        (⟨.cache, b⟩ : EntryRef) ∈ d.policy.nucleus.wb.dirty := fun hc hd =>
      (h.tracked.mem_dirty _).mpr ⟨hc.1, hd⟩
    cases hq : d.policy.nucleus.wb.dirty with
    | nil =>
      refine ⟨d, o, cb, .enodata, dmcacheBaseWritebackWork_none h hq o cb, ?_, fun hx =>
        absurd rfl hx⟩
      refine iff_of_true rfl fun a b hc => ?_
      by_contra hd
      have hmem := hdirty hc (by simpa using hd)
      rw [hq] at hmem
      cases hmem
    | cons r q =>
      obtain ⟨d1, hrun1, _⟩ := dmcacheBaseWritebackWork_some h hq o cb
      obtain ⟨ha, hd⟩ := (h.tracked.mem_dirty r).mp (hq ▸ List.mem_cons_self)
      obtain ⟨rp, i⟩ := r
      obtain rfl : rp = .cache := h.inv.pool_eq ha
      refine ⟨d1, _, i, .ok, hrun1, ?_, fun _ => ⟨rfl, ⟨ha, rfl⟩, hd, fun a b hc hb hne => ?_⟩⟩
      · refine iff_of_false (by decide) fun hx => ?_
        rw [hx _ i ⟨ha, rfl⟩] at hd
        cases hd
      · have hage := hord.byAge
        have hmem := hdirty hc hb
        rw [hq] at hage hmem
        exact hage.head_lt hmem fun heq => hne (EntryRef.mk.inj heq).2
  · have hplain := hrun.unghost
    rw [ht] at hplain
    obtain ⟨d1, hrun1, hrun2⟩ := hplain.split
    obtain ⟨d2, hrun3, _⟩ := hrun2.split
    obtain ⟨g1, hghost⟩ := hrun1.ghost ({} : Touches)
    refine (WritebackOrdered.of_run (g := {}) ⟨h0, ?_⟩ hghost).tracked.written_once hrun3 hno
    show Lib.ByAge _ _ d0.policy.nucleus.wb.dirty
    rw [hwb0]
    exact .nil

/-- A block comes in, settles, is set dirty and is returned for writing back. -/
theorem writeback_tracking_returned : ∃ d0 d g t,
    dmcacheBaseCreate lruApi lruCreate 2 = .ok d0 ∧
    lruWriteback.Run ({ d0 with useWb := true, useTick := false }, {}) t (d, g) ∧
    t.map Prod.fst = [.map 5 true true {} {}, .ioComplete 5, .setDirty 5, .writebackWork 0 0] ∧
    (t.drop 3).countP (writesBack 5) ≤ 1 ∧ d.policy.nucleus.wb.dirty.Nodup := by
  have hinit : ∃ d0, dmcacheBaseCreate lruApi lruCreate 2 = .ok d0 ∧
      lruWriteback.Admits ({ d0 with useWb := true, useTick := false }, {})
        [.map 5 true true {} {}, .ioComplete 5, .setDirty 5, .writebackWork 0 0] ∧
      ∃ p w1 w2 w3 w4, lruWriteback.exec ({ d0 with useWb := true, useTick := false }, {})
        [.map 5 true true {} {}, .ioComplete 5, .setDirty 5, .writebackWork 0 0] =
          .ok (p, [w1, w2, w3, w4]) := by
    refine ⟨_, rfl, ?_, _, _, _, _, _, rfl⟩
    exact And.intro trivial (And.intro (Exists.intro 1 (And.intro (And.intro rfl rfl) rfl))
      (And.intro (Exists.intro 1 (And.intro rfl rfl)) (And.intro trivial trivial)))
  obtain ⟨d0, hinit, hadm, ⟨d, g⟩, w1, w2, w3, w4, hexec⟩ := hinit
  have hrun := Lib.System.Run.of_exec hadm hexec
  have htrack := writeback_tracking hinit hrun
  refine ⟨d0, d, g, _, hinit, hrun, rfl,
    htrack.2.2.2 5 (_ :: _ :: _ :: []) (_ :: []) [] rfl ?_, htrack.1.2⟩
  intro x hx
  rw [List.mem_singleton.mp hx]
  simp

end Fomo
