import Fomo.Include.AlgWrapper

/-!
# The watch lists of the wrappers (`*_wrapper.c`)

Every wrapper hands its own table of fields to `alg_wrapper_read`. The flags are members of the
wrapper and start as `false`.
-/
namespace Fomo

open Lib (ByteMem BytePtr literal setNames)

/-- The `bool` members of the wrappers. -/
inductive WatchFlag
  | state
  | hrMissHistory
  | lirCount
  | gSize
  | lruQ
  | p
  deriving DecidableEq, Repr

def fomoFields : List (String × WatchFlag) :=
  [("state", .state), ("hr-miss-history", .hrMissHistory)]

def mstarFields : List (String × WatchFlag) := [("state", .state)]

def lirsFields : List (String × WatchFlag) := [("lir_count", .lirCount)]

def larcFields : List (String × WatchFlag) := [("g_size", .gSize)]

def lfuFields : List (String × WatchFlag) := []

def marcFields : List (String × WatchFlag) := [("state", .state)]

def lruFields : List (String × WatchFlag) := [("lru_q", .lruQ)]

def arcFields : List (String × WatchFlag) := [("p", .p)]

def wrapperFields : List (List (String × WatchFlag)) :=
  [fomoFields, mstarFields, lirsFields, larcFields, lfuFields, marcFields, lruFields, arcFields]

/-- The table as the array of a wrapper; `lit` says where the literals lie. -/
def fieldArray (lit : String → BytePtr) (fields : List (String × WatchFlag)) :
    List (AlgField WatchFlag) :=
  fields.map (fun f => ⟨some (lit f.1), some f.2⟩) ++ [⟨none, none⟩]

def watchTable (fields : List (String × WatchFlag)) : List (List UInt8 × WatchFlag) :=
  fields.map fun f => (literal f.1, f.2)

/-- What the `*_wrapper_init` functions share. -/
def wrapperInit (fields : List (String × WatchFlag)) (room : Nat) (m : ByteMem)
    (lit : String → BytePtr) (flags : WatchFlag → Bool) (fieldsStr : Option BytePtr) :
    Exec (ByteMem × (WatchFlag → Bool) × Int) :=
  match fieldsStr with
  | some str => algWrapperRead room m flags str (fieldArray lit fields)
  | none => .ok (m, flags, 0)

def fomoWrapperInit := wrapperInit fomoFields
def mstarWrapperInit := wrapperInit mstarFields
def lirsWrapperInit := wrapperInit lirsFields
def larcWrapperInit := wrapperInit larcFields
def lfuWrapperInit := wrapperInit lfuFields
def marcWrapperInit := wrapperInit marcFields
def lruWrapperInit := wrapperInit lruFields
def arcWrapperInit := wrapperInit arcFields

variable {fields : List (String × WatchFlag)} {m : ByteMem} {lit : String → BytePtr}
  {fieldsStr : BytePtr} {str : List UInt8} {room : Nat}

theorem tabulates_fieldArray (hlit : ∀ f ∈ fields, m.StringAt (lit f.1) (literal f.1)) :
    Tabulates m (fieldArray lit fields) (watchTable fields) := by
  induction fields with
  | nil => exact .nil none []
  | cons f fields ih =>
    rw [List.forall_mem_cons] at hlit
    exact .cons hlit.1 (ih hlit.2)

/-- The ids of a wrapper are distinct, not empty and without commas. -/
theorem watchTable_ids : ∀ fields ∈ wrapperFields,
    ((watchTable fields).map Prod.fst).Nodup ∧
      ∀ id ∈ (watchTable fields).map Prod.fst, id ≠ [] ∧ comma ∉ id := by
  decide

/-- The `*_wrapper_init` functions read watch lists. -/
theorem wrapperInit_watches (hf : fields ∈ wrapperFields)
    (hlit : ∀ f ∈ fields, m.StringAt (lit f.1) (literal f.1)) (hs : m.StringAt fieldsStr str)
    (hroom : str.length < room) (hlt : str.length + 1 < 2 ^ 31) (flags : WatchFlag → Bool) :
    ∃ m' flags' r, wrapperInit fields room m lit flags (some fieldsStr) = .ok (m', flags', r) ∧
      Watches (watchTable fields) str flags flags' r ∧ m <+: m' := by
  obtain ⟨m', flags', r, hrun, hw, _, hm⟩ := reads_of_short hlt hroom hs
    (tabulates_fieldArray hlit) (watchTable_ids fields hf).1 flags
  exact ⟨m', flags', r, hrun, hw, hm⟩

/-- The empty string, which the simulator passes by default, has one token, and no wrapper knows
it: the call fails and sets nothing. -/
theorem wrapperInit_empty (hf : fields ∈ wrapperFields)
    (hlit : ∀ f ∈ fields, m.StringAt (lit f.1) (literal f.1)) (hs : m.StringAt fieldsStr [])
    (hroom : 0 < room) (flags : WatchFlag → Bool) : ∃ m' r,
      wrapperInit fields room m lit flags (some fieldsStr) = .ok (m', flags, r) ∧ r ≠ 0 := by
  obtain ⟨hn, hids⟩ := watchTable_ids fields hf
  obtain ⟨m', flags', r, hrun, hw, _⟩ := wrapperInit_watches hf hlit hs hroom
    (by decide) flags
  have hno : [] ∉ (watchTable fields).map Prod.fst := fun hmem => (hids _ hmem).1 rfl
  have htokens : ([] : List UInt8).splitOn comma = [[]] := List.splitOn_nil comma
  have hr : r ≠ 0 := by
    rw [Ne, hw.zero_iff, htokens]
    exact fun hall => hno (hall [] List.mem_cons_self)
  have hflags : flags' = flags := by
    funext x
    have hx := hw.before hr x
    rw [htokens, List.takeWhile_cons_of_neg (by rwa [Lib.known_iff])] at hx
    rw [Bool.eq_iff_iff, hx]
    simp [Lib.Named]
  rw [hflags] at hrun
  exact ⟨m', r, hrun, hr⟩

end Fomo
