import Fomo.Include.Contract

/-!
# dmcache_base (`dmcache_policy/dmcache_base.h`, `include/writeback_tracker.h`)

The layer between a policy and the dm-cache target of the kernel. It counts the ticks, asks
the policy, and keeps the cached blocks in queues for writeback, the dirty ones apart. Calls
hold `lock` from begin to end, so they are taken one at a time.
-/
namespace Fomo

/-- `enum policy_operation`. -/
inductive PolicyOperation
  | hit
  | miss
  | new
  | replace
  deriving DecidableEq, Repr

/-- `struct policy_result`. -/
structure PolicyResult where
  op : PolicyOperation := .hit
  oldOblock : Oblock := 0
  cblock : Cblock := 0
  deriving DecidableEq, Repr

/-- What a call returns: 0 or the negative of an error number. -/
inductive Errno
  | ok
  | ewouldblock
  | enoent
  | enodata
  | einval
  deriving DecidableEq, Repr

/-- `struct dmcache_base` over the state of its policy. The queues of `wb_tracker` are those
in which the entries of the policy are linked. -/
structure DmcacheBase (σ : Type) where
  policy : σ
  stats : PolicyStats := {}
  lock : Bool := false
  tick : Nat := 0
  tickProtected : Nat := 0
  lockfail : Nat := 0
  skipped : Nat := 0
  useWb : Bool := false
  useTick : Bool := false

/-! ## The writeback tracker -/

def wbInit (cn : CacheNucleus) : CacheNucleus := { cn with wb := {} }

def wbPushCache (cn : CacheNucleus) (r : EntryRef) : CacheNucleus :=
  if (cn.entry r).dirty then { cn with wb := { cn.wb with dirty := queuePush cn.wb.dirty r } }
  else { cn with wb := { cn.wb with clean := queuePush cn.wb.clean r } }

def wbPopDirty (cn : CacheNucleus) : Option (EntryRef × CacheNucleus) :=
  (queuePop cn.wb.dirty).map fun (r, q) => (r, { cn with wb := { cn.wb with dirty := q } })

/-- `wb_remove`, the new dirty bit, `wb_push_cache`. -/
def wbMark (cn : CacheNucleus) (r : EntryRef) (dirty : Bool) : CacheNucleus :=
  let cn := wbRemove cn r
  wbPushCache (cn.setEntry r { cn.entry r with dirty := dirty }) r

/-! ## The lock -/

variable {σ : Type}

def mutexLock (dmcb : DmcacheBase σ) : Exec (DmcacheBase σ) :=
  if dmcb.lock then .error .deadlock else .ok { dmcb with lock := true }

/-- `none` when the lock is taken. -/
def mutexTrylock (dmcb : DmcacheBase σ) : Option (DmcacheBase σ) :=
  if dmcb.lock then none else some { dmcb with lock := true }

def mutexUnlock (dmcb : DmcacheBase σ) : DmcacheBase σ := { dmcb with lock := false }

variable (P : Policy σ)

/-- Write what the entry pointers of the policy lead to. -/
def DmcacheBase.onOwner (dmcb : DmcacheBase σ) (f : CacheNucleus → CacheNucleus) :
    DmcacheBase σ :=
  { dmcb with policy := P.setOwner dmcb.policy (f (P.owner dmcb.policy)) }

/-! ## Requests -/

def copyTick (dmcb : DmcacheBase σ) : DmcacheBase σ :=
  { dmcb with
    tick := dmcb.tickProtected
    policy := P.setTime dmcb.policy dmcb.tickProtected }

/-- `infer_cblock(&bp->cache_pool, e)` on the nucleus of the policy itself. The pool of a
wrapper has no entries, so no pointer lies in it. -/
def inferPoolCblock (cn : CacheNucleus) (e : EntryRef) : Exec Cblock := do
  logAssert (e.pool = .cache ∧ e.index < (cn.pool .cache).nrEntries)
  return inferCblock (cn.pool .cache) e.index

/-- `policy_map` and the work on the tracker that follows from its answer. -/
def dmcacheBaseAsk (dmcb : DmcacheBase σ) (oblock : Oblock) (bpResult : CacheNucleusResult) :
    Exec (DmcacheBase σ × CacheNucleusResult) := do
  let (policy, bpResult) ← P.map dmcb.policy oblock false bpResult
  let dmcb := { dmcb with policy := policy }
  if bpResult.op = .hit ∨ bpResult.op = .new ∨ bpResult.op = .replace then do
    let e ← deref (P.cacheLookup dmcb.policy oblock)
    let dmcb := if bpResult.op = .hit then dmcb.onOwner P fun cn => wbRemove cn e else dmcb
    return (dmcb.onOwner P fun cn => wbPushCache cn e, bpResult)
  else return (dmcb, bpResult)

section

variable {P} {dmcb : DmcacheBase σ} {s : σ} {oblock : Oblock} {bpResult res : CacheNucleusResult}
  {e : EntryRef}

theorem dmcacheBaseAsk_hit (hmap : P.map dmcb.policy oblock false bpResult = .ok (s, res))
    (hop : res.op = .hit) (hl : P.cacheLookup s oblock = some e) :
    dmcacheBaseAsk P dmcb oblock bpResult = .ok ((({ dmcb with policy := s }).onOwner P
      fun cn => wbRemove cn e).onOwner P fun cn => wbPushCache cn e, res) := by
  simp only [dmcacheBaseAsk, hmap, ok_bind, hop, true_or, if_true, hl, deref_some, pure_eq_ok]

theorem dmcacheBaseAsk_admitted (hmap : P.map dmcb.policy oblock false bpResult = .ok (s, res))
    (hop : res.op = .new ∨ res.op = .replace) (hl : P.cacheLookup s oblock = some e) :
    dmcacheBaseAsk P dmcb oblock bpResult = .ok (({ dmcb with policy := s }).onOwner P
      fun cn => wbPushCache cn e, res) := by
  have hne : res.op ≠ .hit := by
    rcases hop with hop | hop
    · rw [hop]; decide
    · rw [hop]; decide
  simp only [dmcacheBaseAsk, hmap, ok_bind, hop, or_true, if_true, hl, deref_some, if_neg hne,
    pure_eq_ok]

theorem dmcacheBaseAsk_passed (hmap : P.map dmcb.policy oblock false bpResult = .ok (s, res))
    (hop : res.op = .filter ∨ res.op = .fail) :
    dmcacheBaseAsk P dmcb oblock bpResult = .ok ({ dmcb with policy := s }, res) := by
  have hne : ¬(res.op = .hit ∨ res.op = .new ∨ res.op = .replace) := by
    rcases hop with hop | hop
    · rw [hop]; decide
    · rw [hop]; decide
  simp only [dmcacheBaseAsk, hmap, ok_bind, if_neg hne, pure_eq_ok]

end

/-- Whether a hit is answered without the policy. -/
def dmcacheBaseSkips (dmcb : DmcacheBase σ) (e : EntryRef) : Bool :=
  (dmcb.useTick && decide (dmcb.tick = (P.entryAt dmcb.policy e).time)) ||
    (P.entryAt dmcb.policy e).migrating

/-- The map work of `dmcache_base_map`. -/
def dmcacheBaseMapWork (dmcb : DmcacheBase σ) (oblock : Oblock) (canMigrate : Bool)
    (bpResult : CacheNucleusResult) : Exec (DmcacheBase σ × CacheNucleusResult × Errno) :=
  match P.cacheLookup dmcb.policy oblock with
  | some e =>
    if dmcacheBaseSkips P dmcb e then do
      let cblock ← inferPoolCblock (P.nucleus dmcb.policy) e
      let stats := { dmcb.stats with hits := u32 (dmcb.stats.hits + 1) }
      return ({ dmcb with stats := stats }, { bpResult with cblock := cblock, op := .hit }, .ok)
    else do
      let (dmcb, bpResult) ← dmcacheBaseAsk P dmcb oblock bpResult
      return (dmcb, bpResult, .ok)
  | none =>
    if canMigrate then do
      let (dmcb, bpResult) ← dmcacheBaseAsk P dmcb oblock bpResult
      return (dmcb, bpResult, .ok)
    else return ({ dmcb with skipped := dmcb.skipped + 1 }, bpResult, .ewouldblock)

section

variable {P} {dmcb dmcb' : DmcacheBase σ} {oblock : Oblock} {canMigrate : Bool}
  {bpResult res : CacheNucleusResult} {e : EntryRef} {cblock : Cblock}

theorem inferPoolCblock_of_lt {cn : CacheNucleus} (hs : (cn.pool .cache).startingIndex = 0)
    (hp : e.pool = .cache) (hlt : e.index < (cn.pool .cache).nrEntries) :
    inferPoolCblock cn e = .ok e.index := by
  rw [inferPoolCblock, logAssert_true ⟨hp, hlt⟩, ok_bind, inferCblock, hs]
  rfl

/-- A pool without entries holds no entry. -/
theorem inferPoolCblock_of_empty {cn : CacheNucleus}
    (h : (cn.pool .cache).nrEntries = 0) : inferPoolCblock cn e = .error .assertion := by
  have hno : ¬(e.pool = .cache ∧ e.index < (cn.pool .cache).nrEntries) := by
    rw [h]
    exact fun hx => absurd hx.2 (Nat.not_lt_zero _)
  rw [inferPoolCblock, logAssert, if_neg hno]
  rfl

theorem dmcacheBaseMapWork_skipped (hl : P.cacheLookup dmcb.policy oblock = some e)
    (hskip : dmcacheBaseSkips P dmcb e = true)
    (hinfer : inferPoolCblock (P.nucleus dmcb.policy) e = .ok cblock) :
    dmcacheBaseMapWork P dmcb oblock canMigrate bpResult = .ok
      ({ dmcb with stats := { dmcb.stats with hits := u32 (dmcb.stats.hits + 1) } },
        { bpResult with cblock := cblock, op := .hit }, .ok) := by
  simp only [dmcacheBaseMapWork, hl, hskip, if_true, hinfer, ok_bind, pure_eq_ok]

theorem dmcacheBaseMapWork_asked
    (hasks : (∀ e ∈ P.cacheLookup dmcb.policy oblock, dmcacheBaseSkips P dmcb e = false) ∧
      (P.cacheLookup dmcb.policy oblock = none → canMigrate = true))
    (hask : dmcacheBaseAsk P dmcb oblock bpResult = .ok (dmcb', res)) :
    dmcacheBaseMapWork P dmcb oblock canMigrate bpResult = .ok (dmcb', res, .ok) := by
  cases hl : P.cacheLookup dmcb.policy oblock with
  | none => simp only [dmcacheBaseMapWork, hl, hasks.2 hl, if_true, hask, ok_bind, pure_eq_ok]
  | some e =>
    simp only [dmcacheBaseMapWork, hl, hasks.1 e hl, Bool.false_eq_true, if_false, hask, ok_bind,
      pure_eq_ok]

end

def policyOperation : CacheNucleusOperation → PolicyOperation
  | .hit => .hit
  | .filter | .fail => .miss
  | .new => .new
  | .replace => .replace

/-- The conversion of the policy's answer. -/
def policyResult (bpResult : CacheNucleusResult) : PolicyResult where
  op := policyOperation bpResult.op
  oldOblock := bpResult.oldOblock
  cblock := bpResult.cblock

/-- `bpResult` is what the result record on the stack holds at first. -/
def dmcacheBaseMap (dmcb : DmcacheBase σ) (oblock : Oblock) (canBlock canMigrate : Bool)
    (bpResult : CacheNucleusResult) (result : PolicyResult) :
    Exec (DmcacheBase σ × PolicyResult × Errno) :=
  if !canBlock && (mutexTrylock dmcb).isNone then
    .ok ({ dmcb with lockfail := dmcb.lockfail + 1 }, result, .ewouldblock)
  else do
    let dmcb ← mutexLock dmcb
    let dmcb := copyTick P dmcb
    let (dmcb, bpResult, r) ←
      dmcacheBaseMapWork P dmcb oblock canMigrate { bpResult with op := .fail }
    let r := if bpResult.op = .filter ∨ bpResult.op = .fail then .ewouldblock else r
    return (mutexUnlock dmcb, policyResult bpResult, r)

theorem mutexLock_free {dmcb : DmcacheBase σ} (h : dmcb.lock = false) :
    mutexLock dmcb = .ok { dmcb with lock := true } := by
  rw [mutexLock, h]
  rfl

variable {P} in
/-- A request with the lock free is the map work between the ticks and the conversion. -/
theorem dmcacheBaseMap_eq {dmcb : DmcacheBase σ} (h : dmcb.lock = false) (oblock : Oblock)
    (canBlock canMigrate : Bool) (bpResult : CacheNucleusResult) (result : PolicyResult) :
    dmcacheBaseMap P dmcb oblock canBlock canMigrate bpResult result =
      (dmcacheBaseMapWork P (copyTick P { dmcb with lock := true }) oblock canMigrate
        { bpResult with op := .fail }).map fun x => (mutexUnlock x.1, policyResult x.2.1,
          if x.2.1.op = .filter ∨ x.2.1.op = .fail then .ewouldblock else x.2.2) := by
  have htry : (!canBlock && (mutexTrylock dmcb).isNone) = false := by
    rw [mutexTrylock, h]
    exact Bool.and_false _
  rw [dmcacheBaseMap, htry, if_neg (by decide), mutexLock_free h, ok_bind]
  dsimp only
  cases dmcacheBaseMapWork P (copyTick P { dmcb with lock := true }) oblock canMigrate
    { bpResult with op := .fail } with
  | error f => rfl
  | ok x => rfl

/-- `cblock` is what the caller's variable holds. Nothing is stored in it. -/
def dmcacheBaseLookup (dmcb : DmcacheBase σ) (oblock : Oblock) (cblock : Cblock) :
    DmcacheBase σ × Cblock × Errno :=
  match mutexTrylock dmcb with
  | none => (dmcb, cblock, .ewouldblock)
  | some dmcb =>
    let r := if (P.cacheLookup dmcb.policy oblock).isSome then Errno.ok else .enoent
    (mutexUnlock dmcb, cblock, r)

/-! ## Dirty bits and mappings -/

/-- The common body of `dmcache_base_set_dirty` and `dmcache_base_clear_dirty`. -/
def dmcacheBaseMark (dmcb : DmcacheBase σ) (oblock : Oblock) (dirty : Bool) :
    Exec (DmcacheBase σ) := do
  let dmcb ← mutexLock dmcb
  match P.cacheLookup dmcb.policy oblock with
  | none => .error .assertion
  | some e => return mutexUnlock (dmcb.onOwner P fun cn => wbMark cn e dirty)

def dmcacheBaseSetDirty (dmcb : DmcacheBase σ) (oblock : Oblock) : Exec (DmcacheBase σ) :=
  dmcacheBaseMark P dmcb oblock true

def dmcacheBaseClearDirty (dmcb : DmcacheBase σ) (oblock : Oblock) : Exec (DmcacheBase σ) :=
  dmcacheBaseMark P dmcb oblock false

/-- It takes no lock. -/
def dmcacheBaseLoadMapping (dmcb : DmcacheBase σ) (oblock : Oblock) (cblock : Cblock) :
    Exec (DmcacheBase σ × Errno) := do
  let policy ← P.insert dmcb.policy oblock cblock
  return ({ dmcb with policy := policy }, .ok)

def dmcacheBaseRemoveMapping (dmcb : DmcacheBase σ) (oblock : Oblock) :
    Exec (DmcacheBase σ) := do
  let dmcb ← mutexLock dmcb
  match P.cacheLookup dmcb.policy oblock with
  | none => .error .assertion
  | some e => do
    let dmcb := dmcb.onOwner P fun cn => wbRemove cn e
    let policy ← P.remove dmcb.policy oblock false
    return mutexUnlock { dmcb with policy := policy }

def dmcacheBaseRemoveCblock (dmcb : DmcacheBase σ) (cblock : Cblock) :
    Exec (DmcacheBase σ × Errno) := do
  let dmcb ← mutexLock dmcb
  match P.cblockLookup dmcb.policy cblock with
  | none => return (mutexUnlock dmcb, .enodata)
  | some e => do
    let policy ← P.remove dmcb.policy (P.entryAt dmcb.policy e).oblock false
    let dmcb := { dmcb with policy := policy }
    return (mutexUnlock (dmcb.onOwner P fun cn => wbRemove cn e), .ok)

/-- `oblock` and `cblock` are what the caller's variables hold. -/
def dmcacheBaseWritebackWork (dmcb : DmcacheBase σ) (oblock : Oblock) (cblock : Cblock) :
    Exec (DmcacheBase σ × Oblock × Cblock × Errno) := do
  let dmcb ← mutexLock dmcb
  match wbPopDirty (P.owner dmcb.policy) with
  | none => return (mutexUnlock dmcb, oblock, cblock, .enodata)
  | some (e, cn) => do
    let dmcb := dmcb.onOwner P fun _ => cn
    let cblock ← P.inferCblock dmcb.policy e
    let oblock := (P.entryAt dmcb.policy e).oblock
    let dmcb := dmcb.onOwner P fun cn =>
      wbPushCache (cn.setEntry e { cn.entry e with dirty := false }) e
    return (mutexUnlock dmcb, oblock, cblock, .ok)

/-- The entry is looked up before it is renamed and asserted afterwards. -/
def dmcacheBaseForceMapping (dmcb : DmcacheBase σ) (currentOblock newOblock : Oblock) :
    Exec (DmcacheBase σ) := do
  let dmcb ← mutexLock dmcb
  let policy ← P.remove dmcb.policy newOblock false
  let mappedE := P.cacheLookup policy currentOblock
  let policy ← P.remap policy currentOblock newOblock
  match mappedE with
  | none => .error .assertion
  | some e =>
    return mutexUnlock ({ dmcb with policy := policy }.onOwner P fun cn => wbMark cn e true)

/-! ## Residency, ticks, configuration, completions -/

def dmcacheBaseResidency (dmcb : DmcacheBase σ) : Exec (DmcacheBase σ × Cblock) := do
  let dmcb ← mutexLock dmcb
  return (mutexUnlock dmcb, P.residency dmcb.policy)

def dmcacheBaseTick (dmcb : DmcacheBase σ) : DmcacheBase σ :=
  { dmcb with tickProtected := u32 (dmcb.tickProtected + 1) }

/-- `value` is what `kstrtoul` makes of the text. Whatever the number, the feature is turned
on. -/
def dmcacheBaseSetConfigValue (dmcb : DmcacheBase σ) (key : String) (value : Option Nat) :
    DmcacheBase σ × Errno :=
  if value.isNone then (dmcb, .einval)
  else if key.toLower = "use_tick" then ({ dmcb with useTick := true }, .ok)
  else if key.toLower = "use_wb" then ({ dmcb with useWb := true }, .ok)
  else (dmcb, .einval)

def dmcacheBaseIoComplete (dmcb : DmcacheBase σ) (oblock : Oblock) : Exec (DmcacheBase σ) := do
  let dmcb ← mutexLock dmcb
  let policy ← P.migrated dmcb.policy oblock
  return mutexUnlock { dmcb with policy := policy }

section

variable {P} {dmcb : DmcacheBase σ}

theorem mutexUnlock_lock (h : dmcb.lock = false) :
    mutexUnlock { dmcb with lock := true } = dmcb := by
  rw [mutexUnlock, ← h]

theorem dmcacheBaseLookup_eq (h : dmcb.lock = false) (oblock : Oblock) (cblock : Cblock) :
    dmcacheBaseLookup P dmcb oblock cblock = (dmcb, cblock,
      if (P.cacheLookup dmcb.policy oblock).isSome then .ok else .enoent) := by
  simp only [dmcacheBaseLookup, mutexTrylock, h, Bool.false_eq_true, if_false,
    mutexUnlock_lock h]

theorem dmcacheBaseResidency_eq (h : dmcb.lock = false) :
    dmcacheBaseResidency P dmcb = .ok (dmcb, P.residency dmcb.policy) := by
  simp only [dmcacheBaseResidency, mutexLock_free h, ok_bind, pure_eq_ok, mutexUnlock_lock h]

theorem dmcacheBaseSetConfigValue_policy (key : String) (value : Option Nat) :
    (dmcacheBaseSetConfigValue dmcb key value).1.policy = dmcb.policy ∧
      (dmcacheBaseSetConfigValue dmcb key value).1.lock = dmcb.lock := by
  unfold dmcacheBaseSetConfigValue
  split
  · exact ⟨rfl, rfl⟩
  · split
    · exact ⟨rfl, rfl⟩
    · split
      · exact ⟨rfl, rfl⟩
      · exact ⟨rfl, rfl⟩

end

/-! ## Creation -/

def dmcacheBaseInit (policy : σ) : DmcacheBase σ :=
  { policy := P.setOwner policy (wbInit (P.owner policy)) }

/-- As many metadata entries as cached ones. -/
def dmcacheBaseCreate (policyCreate : UInt32 → UInt32 → Exec σ) (cacheSize : UInt32) :
    Exec (DmcacheBase σ) := do
  let bp ← policyCreate cacheSize cacheSize
  return dmcacheBaseInit P bp

/-! ## The calls as a system -/

/-- One call of the dm-cache target. Arguments through which a call answers carry what the
caller's variables hold. -/
inductive DmcacheCall
  | map (oblock : Oblock) (canBlock canMigrate : Bool) (bpResult : CacheNucleusResult)
      (result : PolicyResult)
  | lookup (oblock : Oblock) (cblock : Cblock)
  | setDirty (oblock : Oblock)
  | clearDirty (oblock : Oblock)
  | loadMapping (oblock : Oblock) (cblock : Cblock)
  | removeMapping (oblock : Oblock)
  | removeCblock (cblock : Cblock)
  | writebackWork (oblock : Oblock) (cblock : Cblock)
  | forceMapping (currentOblock newOblock : Oblock)
  | residency
  | tick
  | setConfigValue (key : String) (value : Option Nat)
  | ioComplete (oblock : Oblock)

inductive DmcacheAnswer
  | void
  | code (r : Errno)
  | mapped (result : PolicyResult) (r : Errno)
  | located (cblock : Cblock) (r : Errno)
  | work (oblock : Oblock) (cblock : Cblock) (r : Errno)
  | size (cblock : Cblock)

/-- The pointer to `writeback_work` is `NULL` as long as `use_wb` is off. -/
def dmcacheBaseCall (dmcb : DmcacheBase σ) :
    DmcacheCall → Exec (DmcacheBase σ × DmcacheAnswer)
  | .map o canBlock canMigrate bpResult result =>
    (dmcacheBaseMap P dmcb o canBlock canMigrate bpResult result).map
      fun (dmcb, result, r) => (dmcb, .mapped result r)
  | .lookup o cb =>
    let (dmcb, cb, r) := dmcacheBaseLookup P dmcb o cb
    .ok (dmcb, .located cb r)
  | .setDirty o => (dmcacheBaseSetDirty P dmcb o).map fun dmcb => (dmcb, .void)
  | .clearDirty o => (dmcacheBaseClearDirty P dmcb o).map fun dmcb => (dmcb, .void)
  | .loadMapping o cb => (dmcacheBaseLoadMapping P dmcb o cb).map fun (dmcb, r) => (dmcb, .code r)
  | .removeMapping o => (dmcacheBaseRemoveMapping P dmcb o).map fun dmcb => (dmcb, .void)
  | .removeCblock cb => (dmcacheBaseRemoveCblock P dmcb cb).map fun (dmcb, r) => (dmcb, .code r)
  | .writebackWork o cb =>
    if dmcb.useWb then
      (dmcacheBaseWritebackWork P dmcb o cb).map fun (dmcb, o, cb, r) => (dmcb, .work o cb r)
    else .error .nullPointer
  | .forceMapping a b => (dmcacheBaseForceMapping P dmcb a b).map fun dmcb => (dmcb, .void)
  | .residency => (dmcacheBaseResidency P dmcb).map fun (dmcb, n) => (dmcb, .size n)
  | .tick => .ok (dmcacheBaseTick dmcb, .void)
  | .setConfigValue key value =>
    let (dmcb, r) := dmcacheBaseSetConfigValue dmcb key value
    .ok (dmcb, .code r)
  | .ioComplete o => (dmcacheBaseIoComplete P dmcb o).map fun dmcb => (dmcb, .void)

/-- What dm-cache keeps to: mappings are loaded for new oblocks into free slots. -/
def targetCalls (dmcb : DmcacheBase σ) : DmcacheCall → Prop
  | .loadMapping o cb => (P.owner dmcb.policy).MayInsert o cb
  | _ => True

/-- dmcache_base under callers that keep to `guard`. -/
def dmcacheSystem (guard : DmcacheBase σ → DmcacheCall → Prop) :
    Lib.System (DmcacheBase σ) DmcacheCall DmcacheAnswer Fault where
  guard := guard
  step := dmcacheBaseCall P

end Fomo
