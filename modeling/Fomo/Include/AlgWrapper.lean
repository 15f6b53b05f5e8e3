import Fomo.Include.Common
import Fomo.Lib.CString
import Fomo.Lib.NameTable
import Mathlib.Algebra.Group.Int.Defs
import Mathlib.Data.List.TakeWhile

/-!
# Watch lists (`include/alg_wrapper.h`)

The fields that a wrapper prints are named by a string, with commas between the names.
`alg_wrapper_read` works in a copy of it: every comma becomes the zero that ends the name before
it, and the last name is looked up after the loop.
-/
namespace Fomo

open Lib (ByteMem BytePtr Named known literal setNames)

variable {α ι : Type} [DecidableEq ι]

/-- `struct alg_field`. The flags are the `bool`s of a wrapper. -/
structure AlgField (ι : Type) where
  id : Option BytePtr
  field : Option ι

/-- An access that must stay in its array. -/
def inBounds : Option α → Exec α
  | some a => .ok a
  | none => .error .outOfBounds

/-- A value as an `int`. -/
def int32 (n : Int) : Int := n.bmod (2 ^ 32)

/-- A value as a `size_t`. -/
def sizeT (n : Int) : Nat := (n % 2 ^ 64).toNat

/-- `mem_alloc`, which grants requests of up to `room` bytes. -/
def memAlloc (room : Nat) (m : ByteMem) (size : Nat) : Option (BytePtr × ByteMem) :=
  if size ≤ room then some (m.alloc size) else none

def algFieldSet (m : ByteMem) (flags : ι → Bool) (id : BytePtr) :
    List (AlgField ι) → Exec ((ι → Bool) × Int)
  | [] => .error .outOfBounds
  | f :: algFields =>
    match f.id with
    | none => .ok (flags, -1)
    | some fid => do
      let c ← inBounds (m.strcmp id fid)
      if c = 0 then do
        let x ← deref f.field
        return (Function.update flags x true, 0)
      else algFieldSet m flags id algFields

def comma : UInt8 := 44

/-- The loop of `alg_wrapper_read`, with a bound on its rounds. -/
def algWrapperLoop (algFields : List (AlgField ι)) :
    Nat → ByteMem → (ι → Bool) → BytePtr → BytePtr → Exec (ByteMem × (ι → Bool) × BytePtr × Int)
  | 0, _, _, _, _ => .error .outOfFuel
  | fuel + 1, m, flags, tmp, p => do
    let c ← inBounds (m.load p)
    if c = 0 then return (m, flags, tmp, 0)
    else if c = comma then do
      let m ← inBounds (m.store p 0)
      let (flags, r) ← algFieldSet m flags tmp algFields
      if r ≠ 0 then return (m, flags, tmp, r)
      else algWrapperLoop algFields fuel m flags (p.add 1) (p.add 1)
    else algWrapperLoop algFields fuel m flags tmp (p.add 1)

/-- `(len + 1) * sizeof(*tmp)` with the `int` `len`. -/
def copySize (strlen : Nat) : Nat :=
  let len := int32 strlen
  sizeT (int32 (len + 1))

/-- `alg_wrapper_read` from the allocation on. -/
def algWrapperCopy (room size : Nat) (m : ByteMem) (flags : ι → Bool) (fieldsStr : BytePtr)
    (algFields : List (AlgField ι)) : Exec (ByteMem × (ι → Bool) × Int) :=
  match memAlloc room m size with
  | none => .error .assertion
  | some (tmp, m) => do
    let m ← inBounds (m.strcpy tmp fieldsStr)
    let (m, flags, tmp, r) ← algWrapperLoop algFields size m flags tmp tmp
    if r ≠ 0 then return (m, flags, r)
    else do
      let (flags, r) ← algFieldSet m flags tmp algFields
      return (m, flags, r)

def algWrapperRead (room : Nat) (m : ByteMem) (flags : ι → Bool) (fieldsStr : BytePtr)
    (algFields : List (AlgField ι)) : Exec (ByteMem × (ι → Bool) × Int) := do
  let strlen ← inBounds (m.strlen fieldsStr)
  algWrapperCopy room (copySize strlen) m flags fieldsStr algFields

/-! ## Tables and results -/

/-- The fields are those of the table, and a `NULL` ends them. -/
inductive Tabulates (m : ByteMem) : List (AlgField ι) → List (List UInt8 × ι) → Prop
  | nil (x : Option ι) (rest : List (AlgField ι)) : Tabulates m (⟨none, x⟩ :: rest) []
  | cons {p : BytePtr} {s : List UInt8} {x : ι} {algFields : List (AlgField ι)}
      {table : List (List UInt8 × ι)} : m.StringAt p s → Tabulates m algFields table →
      Tabulates m (⟨some p, some x⟩ :: algFields) ((s, x) :: table)

/-- What the return value and the flags say about the tokens of the string. -/
structure Watches (table : List (List UInt8 × ι)) (str : List UInt8) (flags flags' : ι → Bool)
    (r : Int) : Prop where
  zero_iff : r = 0 ↔ ∀ token ∈ str.splitOn comma, token ∈ table.map Prod.fst
  all : r = 0 → ∀ x, flags' x = true ↔ flags x = true ∨ Named table (str.splitOn comma) x
  before : r ≠ 0 → ∀ x, flags' x = true ↔
    flags x = true ∨ Named table ((str.splitOn comma).takeWhile (known table)) x

/-- The string is read as a watch list, and nothing that was in memory before is written. -/
def Reads (room : Nat) (m : ByteMem) (flags : ι → Bool) (fieldsStr : BytePtr)
    (algFields : List (AlgField ι)) (table : List (List UInt8 × ι)) (str : List UInt8) : Prop :=
  ∃ m' flags' r, algWrapperRead room m flags fieldsStr algFields = .ok (m', flags', r) ∧
    Watches table str flags flags' r ∧ m'.StringAt fieldsStr str ∧ m <+: m'

variable {m : ByteMem} {flags : ι → Bool} {id fieldsStr : BytePtr}
  {algFields : List (AlgField ι)} {table : List (List UInt8 × ι)}
  {s str tok rest : List UInt8} {room fuel : Nat}

omit [DecidableEq ι] in
theorem Tabulates.append (h : Tabulates m algFields table) (l : ByteMem) :
    Tabulates (m ++ l) algFields table := by
  induction h with
  | nil x rest => exact .nil x rest
  | cons hs _ ih => exact .cons (hs.append l) ih

/-- The return value for a list of names. -/
def answer (ok : Bool) : Int := if ok then 0 else -1

theorem answer_eq_zero_iff (ok : Bool) : answer ok = 0 ↔ ok = true := by
  cases ok <;> decide

/-! ## One name -/

/-- `alg_field_set` looks one name up. -/
theorem algFieldSet_eq (h : Tabulates m algFields table) (hs : m.StringAt id s)
    (flags : ι → Bool) : algFieldSet m flags id algFields =
      .ok ((setNames table flags [s]).1, answer (setNames table flags [s]).2) := by
  induction h with
  | nil x rest => rfl
  | @cons p t x algFields table ht _ ih =>
    obtain ⟨c, hc, hiff⟩ := hs.strcmp ht
    rw [algFieldSet]
    simp only [hc, inBounds, ok_bind]
    by_cases hst : s = t
    · subst hst
      rw [if_pos (hiff.mpr rfl), Lib.setNames_head]
      rfl
    · rw [if_neg fun h0 => hst (hiff.mp h0), ih, Lib.setNames_skip hst]

/-! ## The loop -/

theorem algWrapperLoop_end (m : ByteMem) (l post : List UInt8) (flags : ι → Bool)
    (tmp : BytePtr) (algFields : List (AlgField ι)) :
    algWrapperLoop algFields (fuel + 1) (m ++ [l ++ 0 :: post]) flags tmp ⟨m.length, l.length⟩ =
      .ok (m ++ [l ++ 0 :: post], flags, tmp, 0) := by
  rw [algWrapperLoop, ByteMem.load_last]
  rfl

/-- A character of a token is passed over. -/
theorem algWrapperLoop_char {c : UInt8} (h0 : c ≠ 0) (hc : c ≠ comma) (m : ByteMem)
    (l post : List UInt8) (flags : ι → Bool) (tmp : BytePtr) (algFields : List (AlgField ι)) :
    algWrapperLoop algFields (fuel + 1) (m ++ [l ++ c :: post]) flags tmp ⟨m.length, l.length⟩ =
      algWrapperLoop algFields fuel (m ++ [l ++ [c] ++ post]) flags tmp
        ⟨m.length, (l ++ [c]).length⟩ := by
  rw [algWrapperLoop, ByteMem.load_last]
  simp only [inBounds, ok_bind]
  rw [if_neg h0, if_neg hc, ByteMem.add_one_last _ _ c, List.append_assoc, List.singleton_append]

/-- A comma ends the token: its name is set, and the next token starts behind the comma. An
unknown name ends the loop. -/
theorem algWrapperLoop_comma (h : Tabulates m algFields table) (htok : 0 ∉ tok)
    (pre post : List UInt8) (flags : ι → Bool) :
    algWrapperLoop algFields (fuel + 1) (m ++ [pre ++ tok ++ comma :: post]) flags
      ⟨m.length, pre.length⟩ ⟨m.length, (pre ++ tok).length⟩ =
      if (setNames table flags [tok]).2 then
        algWrapperLoop algFields fuel (m ++ [pre ++ tok ++ [0] ++ post])
          (setNames table flags [tok]).1 ⟨m.length, (pre ++ tok ++ [0]).length⟩
          ⟨m.length, (pre ++ tok ++ [0]).length⟩
      else .ok (m ++ [pre ++ tok ++ 0 :: post], (setNames table flags [tok]).1,
        ⟨m.length, pre.length⟩, answer false) := by
  have hstr : ByteMem.StringAt (m ++ [pre ++ tok ++ 0 :: post]) ⟨m.length, pre.length⟩ tok := by
    rw [List.append_assoc]
    exact ⟨htok, _, ByteMem.bytesAt_last ..⟩
  rw [algWrapperLoop, ByteMem.load_last]
  simp only [inBounds, ok_bind]
  rw [if_neg (by decide), if_pos trivial, ByteMem.store_last]
  simp only [ok_bind, algFieldSet_eq (h.append _) hstr]
  cases (setNames table flags [tok]).2 with
  | true =>
    rw [if_neg (by decide), if_pos rfl, ByteMem.add_one_last _ _ 0, List.append_assoc (pre ++ tok),
      List.singleton_append]
  | false =>
    rw [if_pos (by decide), if_neg (by decide)]
    rfl

/-- The names before the last one are set from the loop, until one is unknown. If all are known,
the last one is left for the call after the loop. -/
theorem algWrapperLoop_eq (h : Tabulates m algFields table) (pre tok post : List UInt8)
    (hpre : 0 ∉ tok) (htok : comma ∉ tok) (hrest : 0 ∉ rest) (hfuel : rest.length < fuel)
    (flags : ι → Bool) :
    ∃ names last buf tmp, (tok ++ rest).splitOn comma = names ++ [last] ∧
      algWrapperLoop algFields fuel (m ++ [pre ++ tok ++ (rest ++ 0 :: post)]) flags
        ⟨m.length, pre.length⟩ ⟨m.length, (pre ++ tok).length⟩ =
        .ok (m ++ [buf], (setNames table flags names).1, tmp,
          answer (setNames table flags names).2) ∧
      ((setNames table flags names).2 = true →
        ByteMem.StringAt (m ++ [buf]) tmp last) := by
  obtain ⟨n, rfl⟩ := Nat.exists_eq_succ_of_ne_zero (Nat.ne_of_gt (Nat.zero_lt_of_lt hfuel))
  induction rest generalizing pre tok flags n with
  | nil =>
    refine ⟨[], tok, pre ++ tok ++ 0 :: post, ⟨m.length, pre.length⟩, ?_, ?_,
      fun _ => ⟨hpre, post, ?_⟩⟩
    · rw [List.append_nil, List.splitOn_eq_singleton htok, List.nil_append]
    · exact algWrapperLoop_end ..
    · rw [List.append_assoc, ByteMem.bytesAt_last]
  | cons c rest ih =>
    rw [List.mem_cons, not_or] at hrest
    have hlen : rest.length < n := Nat.lt_of_succ_lt_succ hfuel
    obtain ⟨n, rfl⟩ := Nat.exists_eq_succ_of_ne_zero (Nat.ne_of_gt (Nat.zero_lt_of_lt hlen))
    by_cases hc : c = comma
    · subst hc
      obtain ⟨names, last, buf, tmp, hsplit, hrun, hlast⟩ := ih (pre ++ tok ++ [0]) []
        List.not_mem_nil List.not_mem_nil hrest.2 (setNames table flags [tok]).1 n hlen
      have hnames : (tok ++ comma :: rest).splitOn comma = tok :: names ++ [last] := by
        rw [List.splitOn_append_cons_self_of_not_mem htok, ← List.nil_append rest, hsplit]
        rfl
      have happ := Lib.setNames_append table flags [tok] names
      rw [List.singleton_append] at happ
      rw [List.append_nil] at hrun
      rw [List.cons_append, algWrapperLoop_comma h hpre, hrun]
      cases hok : (setNames table flags [tok]).2 with
      | true =>
        rw [hok, if_pos rfl] at happ
        rw [← happ] at hlast ⊢
        exact ⟨tok :: names, last, buf, tmp, hnames, if_pos rfl, hlast⟩
      | false =>
        rw [hok, if_neg (by decide)] at happ
        refine ⟨tok :: names, last, pre ++ tok ++ 0 :: (rest ++ 0 :: post), ⟨m.length, pre.length⟩,
          hnames, (if_neg (by decide)).trans ?_, fun hx => ?_⟩
        · rw [happ, hok]
        · rw [happ, hok] at hx
          cases hx
    · have htok' : comma ∉ tok ++ [c] := by
        rw [List.mem_append, List.mem_singleton]
        exact fun hx => hx.elim htok fun hx => hc hx.symm
      have hpre' : 0 ∉ tok ++ [c] := by
        rw [List.mem_append, List.mem_singleton]
        exact fun hx => hx.elim hpre hrest.1
      obtain ⟨names, last, buf, tmp, hsplit, hrun, hlast⟩ := ih pre (tok ++ [c]) hpre' htok' hrest.2
        flags n hlen
      rw [← List.append_assoc pre tok [c]] at hrun
      refine ⟨names, last, buf, tmp, ?_, ?_, hlast⟩
      · rw [← hsplit, List.append_assoc, List.singleton_append]
      · rw [List.cons_append, algWrapperLoop_char (Ne.symm hrest.1) hc, hrun]

/-! ## The call -/

/-- The size of the copy, as long as it is an `int`. -/
theorem copySize_eq {n : Nat} (hn : n + 1 < 2 ^ 31) : copySize n = n + 1 := by
  unfold copySize int32 sizeT Int.bmod
  dsimp only
  split <;> split <;> omega

/-- From there on the copy does not fit, or is more than there can be. -/
theorem copySize_wrong {n : Nat} (hn : 2 ^ 31 ≤ n + 1) : copySize n ≤ n ∨ 2 ^ 63 ≤ copySize n := by
  unfold copySize int32 sizeT Int.bmod
  dsimp only
  split <;> split <;> omega

theorem algWrapperRead_eq (hs : m.StringAt fieldsStr str) (flags : ι → Bool)
    (algFields : List (AlgField ι)) : algWrapperRead room m flags fieldsStr algFields =
      algWrapperCopy room (copySize str.length) m flags fieldsStr algFields := by
  rw [algWrapperRead, hs.strlen, inBounds, ok_bind]

/-- A copy that fits: the tokens set the fields they name. -/
theorem algWrapperCopy_eq (h : Tabulates m algFields table) (hs : m.StringAt fieldsStr str)
    (hroom : str.length < room) (flags : ι → Bool) :
    ∃ buf, algWrapperCopy room (str.length + 1) m flags fieldsStr algFields =
      .ok (m ++ [buf], (setNames table flags (str.splitOn comma)).1,
        answer (setNames table flags (str.splitOn comma)).2) := by
  obtain ⟨hstr, x, hx⟩ := hs.append [List.replicate (str.length + 1) 0]
  have hcopy : ByteMem.strcpy (m ++ [List.replicate (str.length + 1) 0]) ⟨m.length, 0⟩ fieldsStr =
      some (m ++ [str ++ [0]]) := by
    have hfit : str.length < (List.replicate (str.length + 1) (0 : UInt8)).length := by simp
    rw [ByteMem.strcpy, hx]
    simpa using ByteMem.strcpyBytes_last m [] _ x hstr hfit
  obtain ⟨names, last, buf, tmp, hsplit, hrun, hlast⟩ := algWrapperLoop_eq h [] [] []
    List.not_mem_nil List.not_mem_nil hstr (Nat.lt_succ_self _) flags
  have hrun : algWrapperLoop algFields (str.length + 1) (m ++ [str ++ [0]]) flags ⟨m.length, 0⟩
      ⟨m.length, 0⟩ = _ := hrun
  have happ := Lib.setNames_append table flags names [last]
  rw [List.nil_append] at hsplit
  refine ⟨buf, ?_⟩
  rw [algWrapperCopy, memAlloc, if_pos (Nat.succ_le_of_lt hroom)]
  simp only [ByteMem.alloc, hcopy, inBounds, ok_bind, hrun]
  rw [hsplit, happ]
  cases hok : (setNames table flags names).2 with
  | true =>
    rw [if_neg (by decide), algFieldSet_eq (h.append _) (hlast hok), if_pos rfl]
    rfl
  | false =>
    rw [if_pos (by decide), if_neg (by decide), hok]
    rfl

/-- A request that is not granted. -/
theorem algWrapperCopy_refused {size : Nat} (hroom : room < size) (flags : ι → Bool)
    (fieldsStr : BytePtr) (algFields : List (AlgField ι)) :
    algWrapperCopy room size m flags fieldsStr algFields = .error .assertion := by
  rw [algWrapperCopy, memAlloc, if_neg (Nat.not_le.mpr hroom)]

/-- A copy that does not fit is written past its end. -/
theorem algWrapperCopy_overflow {size : Nat} (hs : m.StringAt fieldsStr str)
    (hsize : size ≤ str.length) (hroom : size ≤ room) (flags : ι → Bool)
    (algFields : List (AlgField ι)) :
    algWrapperCopy room size m flags fieldsStr algFields = .error .outOfBounds := by
  obtain ⟨hstr, x, hx⟩ := hs.append [List.replicate size 0]
  have hcopy : ByteMem.strcpy (m ++ [List.replicate size 0]) ⟨m.length, 0⟩ fieldsStr = none := by
    have hlong : (List.replicate size (0 : UInt8)).length ≤ str.length := by
      rwa [List.length_replicate]
    rw [ByteMem.strcpy, hx]
    simpa using ByteMem.strcpyBytes_last_none m [] _ x hstr hlong
  rw [algWrapperCopy, memAlloc, if_pos hroom]
  simp only [ByteMem.alloc, hcopy]
  rfl

/-- The flags that the tokens of the string set. -/
theorem watches_setNames (hn : (table.map Prod.fst).Nodup) (str : List UInt8)
    (flags : ι → Bool) : Watches table str flags (setNames table flags (str.splitOn comma)).1
      (answer (setNames table flags (str.splitOn comma)).2) where
  zero_iff := by
    rw [answer_eq_zero_iff, Lib.setNames_known]
    exact forall₂_congr fun _ _ => Lib.known_iff
  all := by
    intro hr x
    rw [answer_eq_zero_iff, Lib.setNames_known] at hr
    have hall : (str.splitOn comma).takeWhile (known table) = str.splitOn comma :=
      List.takeWhile_eq_self_iff.mpr hr
    rw [Lib.setNames_flags hn, hall]
  before := fun _ x => Lib.setNames_flags hn x

/-- A string whose copy has an `int` length and finds room is read as a watch list. -/
theorem reads_of_short (hlt : str.length + 1 < 2 ^ 31) (hroom : str.length < room)
    (hs : m.StringAt fieldsStr str) (h : Tabulates m algFields table)
    (hn : (table.map Prod.fst).Nodup) (flags : ι → Bool) :
    Reads room m flags fieldsStr algFields table str := by
  obtain ⟨buf, hrun⟩ := algWrapperCopy_eq h hs hroom flags
  rw [← copySize_eq hlt, ← algWrapperRead_eq hs] at hrun
  exact ⟨_, _, _, hrun, watches_setNames hn str flags, hs.append [buf], List.prefix_append ..⟩

/-- `alg_wrapper_read` reads watch lists if and only if the length of the copy is an `int`, where
`mem_alloc` has room for it. -/
theorem algWrapperRead_reads_iff (hmax : room < 2 ^ 63) (hroom : str.length < room)
    (hs : m.StringAt fieldsStr str) (h : Tabulates m algFields table)
    (hn : (table.map Prod.fst).Nodup) (flags : ι → Bool) :
    Reads room m flags fieldsStr algFields table str ↔ str.length + 1 < 2 ^ 31 := by
  constructor
  · rintro ⟨m', flags', r, hrun, _⟩
    by_contra hlong
    rw [algWrapperRead_eq hs] at hrun
    have hsize := copySize_wrong (Nat.not_lt.mp hlong)
    by_cases hbig : room < copySize str.length
    · rw [algWrapperCopy_refused hbig] at hrun
      cases hrun
    · have hgrant := Nat.not_lt.mp hbig
      rcases hsize with hsize | hsize
      · rw [algWrapperCopy_overflow hs hsize hgrant] at hrun
        cases hrun
      · exact absurd (Nat.le_trans hsize hgrant) (Nat.not_le.mpr hmax)
  · exact fun hlt => reads_of_short hlt hroom hs h hn flags

/-- The two fields of `fomo_wrapper_init`, and a watch list that names both. -/
theorem algWrapperRead_reads_two :
    Reads 64 [literal "state" ++ [0], literal "hr-miss-history" ++ [0],
        literal "state,hr-miss-history" ++ [0]] (fun _ => false) ⟨2, 0⟩
      [⟨some ⟨0, 0⟩, some false⟩, ⟨some ⟨1, 0⟩, some true⟩, ⟨none, none⟩]
      [(literal "state", false), (literal "hr-miss-history", true)]
      (literal "state,hr-miss-history") :=
  (algWrapperRead_reads_iff (by decide) (by decide) ⟨by decide, [], rfl⟩
    (.cons ⟨by decide, [], rfl⟩ (.cons ⟨by decide, [], rfl⟩ (.nil none [])))
    (by decide) _).mpr (by decide)

/-- A string of `2 ^ 32` bytes gets a copy of one byte. -/
theorem algWrapperRead_long : ∃ (m : ByteMem) (fieldsStr : BytePtr),
    m.StringAt fieldsStr (List.replicate (2 ^ 32) 97) ∧
    Tabulates m [⟨some ⟨0, 0⟩, some ()⟩, ⟨none, none⟩] [(literal "p", ())] ∧
    algWrapperRead (2 ^ 33) m (fun _ => false) fieldsStr
      [⟨some ⟨0, 0⟩, some ()⟩, ⟨none, none⟩] = .error .outOfBounds ∧
    ¬Reads (2 ^ 33) m (fun _ => false) fieldsStr [⟨some ⟨0, 0⟩, some ()⟩, ⟨none, none⟩]
      [(literal "p", ())] (List.replicate (2 ^ 32) 97) := by
  have hno : (0 : UInt8) ∉ List.replicate (2 ^ 32) (97 : UInt8) := by
    intro hmem
    exact absurd (List.eq_of_mem_replicate hmem) (by decide)
  have hlen := List.length_replicate (n := 2 ^ 32) (a := (97 : UInt8))
  generalize List.replicate (2 ^ 32) (97 : UInt8) = str at hno hlen
  have hs : ByteMem.StringAt ([literal "p" ++ [0]] ++ [str ++ [0]]) ⟨1, 0⟩ str :=
    ByteMem.stringAt_last _ hno
  have hrun : algWrapperRead (2 ^ 33) ([literal "p" ++ [0]] ++ [str ++ [0]]) (fun _ : Unit => false)
      ⟨1, 0⟩ [⟨some ⟨0, 0⟩, some ()⟩, ⟨none, none⟩] = .error .outOfBounds := by
    have hsize : copySize str.length = 1 := by
      rw [hlen]
      decide
    rw [algWrapperRead_eq hs, hsize]
    exact algWrapperCopy_overflow hs (by omega) (by decide) _ _
  refine ⟨_, ⟨1, 0⟩, hs, .cons ⟨by decide, _, rfl⟩ (.nil none []), hrun, ?_⟩
  rintro ⟨m', flags', r, hok, _⟩
  rw [hrun] at hok
  cases hok

end Fomo
