import Fomo.Include.Nucleus
import Fomo.Lib.Run

/-!
# The policy interface (`cache_nucleus_api.h`)

The function pointers of `struct cache_nucleus`, over the state type of the policy
behind them. Wrappers and callers know a policy only through this table and through
the nucleus embedded in its state.
-/
namespace Fomo

/-- A policy with states `σ`. `nucleus` is the embedded structure a wrapper may read
directly, and `entryAt` is what an entry pointer returned by the policy points at. That entry
lies in a pool of `owner`, and a caller that writes it puts `setOwner` in its place. -/
structure Policy (σ : Type) where
  nucleus : σ → CacheNucleus
  entryAt : σ → EntryRef → Entry
  owner : σ → CacheNucleus
  setOwner : σ → CacheNucleus → σ
  map : σ → Oblock → Bool → CacheNucleusResult → Exec (σ × CacheNucleusResult)
  remove : σ → Oblock → Bool → Exec σ
  insert : σ → Oblock → Cblock → Exec σ
  migrated : σ → Oblock → Exec σ
  cacheLookup : σ → Oblock → Option EntryRef
  metaLookup : σ → Oblock → Option EntryRef
  cblockLookup : σ → Cblock → Option EntryRef
  remap : σ → Oblock → Oblock → Exec σ
  getStats : σ → PolicyStats → PolicyStats
  setTime : σ → Nat → σ
  residency : σ → Nat
  cacheIsFull : σ → Bool
  inferCblock : σ → EntryRef → Exec Cblock
  nextVictim : σ → Oblock → Exec (σ × CacheNucleusOperation × Option EntryRef)

/-- One call of a function that changes the policy. `map` carries the result record
as the caller hands it in. -/
inductive Call
  | map (oblock : Oblock) (write : Bool) (result : CacheNucleusResult)
  | remove (oblock : Oblock) (removeToHistory : Bool)
  | insert (oblock : Oblock) (cblock : Cblock)
  | migrated (oblock : Oblock)
  | remap (currentOblock newOblock : Oblock)
  | setTime (time : Nat)

namespace Policy

variable {σ : Type} (P : Policy σ)

def call (s : σ) : Call → Exec (σ × Option CacheNucleusResult)
  | .map o w r => (P.map s o w r).map fun (s, r) => (s, some r)
  | .remove o h => (P.remove s o h).map fun s => (s, none)
  | .insert o cb => (P.insert s o cb).map fun s => (s, none)
  | .migrated o => (P.migrated s o).map fun s => (s, none)
  | .remap a b => (P.remap s a b).map fun s => (s, none)
  | .setTime t => .ok (P.setTime s t, none)

/-- The policy under callers that keep to `guard`. -/
def system (guard : σ → Call → Prop) : Lib.System σ Call (Option CacheNucleusResult) Fault where
  guard := guard
  step := P.call

/-- No call that answers, and no question for the next victim, leads out of the states `I`. -/
structure Keeps (I : σ → Prop) : Prop where
  call : ∀ {s c s' w}, I s → P.call s c = .ok (s', w) → I s'
  nextVictim : ∀ {s o s' op v}, I s → P.nextVictim s o = .ok (s', op, v) → I s'

/-- Whenever the map of `o` returns, `next_victim` answers its operation, with the cached entry
that a replacement evicts and with `NULL` otherwise. -/
def Foretells (s : σ) (o : Oblock) : Prop :=
  ∀ w result s' res, P.map s o w result = .ok (s', res) →
    ∃ t victim, P.nextVictim s o = .ok (t, res.op, victim) ∧
      (res.op = .replace → ∃ e, victim = some e ∧ P.cacheLookup s res.oldOblock = some e) ∧
      (res.op ≠ .replace → victim = none)

/-- A request served synchronously: the migration of an admitted block completes
before the next request. -/
def request (s : σ) (q : Oblock × Bool) : Exec (σ × CacheNucleusResult) := do
  let (s, result) ← P.map s q.1 q.2 {}
  if result.op = .new ∨ result.op = .replace then
    let s ← P.migrated s q.1
    return (s, result)
  else
    return (s, result)

/-- Serve the requests in order and collect their results. -/
def requests (s : σ) : List (Oblock × Bool) → Exec (σ × List CacheNucleusResult)
  | [] => .ok (s, [])
  | q :: qs => do
    let (s, result) ← P.request s q
    let (s, results) ← requests s qs
    return (s, result :: results)

/-- The policy under callers that wait for every migration before the next request. -/
def synchronous : Lib.System σ (Oblock × Bool) CacheNucleusResult Fault where
  guard := fun _ _ => True
  step := P.request

end Policy

theorem map_eq_ok {α β : Type} {x : Exec α} {f : α → β} {b : β} :
    x.map f = .ok b ↔ ∃ a, x = .ok a ∧ f a = b := by
  cases x with
  | error e => simp [Except.map]
  | ok a => simp [Except.map]

theorem Policy.call_map {σ : Type} {P : Policy σ} {s s' : σ} {o : Oblock} {w : Bool}
    {result : CacheNucleusResult} {x : Option CacheNucleusResult} :
    P.call s (.map o w result) = .ok (s', x) ↔
      ∃ res, x = some res ∧ P.map s o w result = .ok (s', res) := by
  cases h : P.map s o w result with
  | error e => simp [Policy.call, h, Except.map]
  | ok a =>
    obtain ⟨s₁, res⟩ := a
    simp only [Policy.call, h, Except.map, Except.ok.injEq, Prod.mk.injEq]
    constructor
    · rintro ⟨rfl, rfl⟩; exact ⟨res, rfl, rfl, rfl⟩
    · rintro ⟨_, rfl, rfl, rfl⟩; exact ⟨rfl, rfl⟩

theorem map_eq_error {α β : Type} {x : Exec α} {f : α → β} {e : Fault} :
    x.map f = .error e ↔ x = .error e := by
  cases x <;> simp [Except.map]

end Fomo
