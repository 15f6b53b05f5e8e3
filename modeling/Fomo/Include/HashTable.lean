import Fomo.Include.Common
import Fomo.Lib.ChainedList

/-!
# The hash table in memory (`tools/hashtable.h`, `kernel/hash.h`)

The buckets are chains of entries. A lookup walks along one chain and moves the entry it finds
to its front; to the callers the table is a map from blocks to entries all the same.
-/
namespace Fomo.HashTable

open Lib

/-! ## The hash function -/

/-- `GOLDEN_RATIO_32` -/
def goldenRatio32 : Nat := 0x61C88647

/-- `__hash_32_generic` -/
def hashMul32 (val : Nat) : Nat := u32 (val * goldenRatio32)

/-- `hash_32_generic` -/
def hash32 (val bits : Nat) : Nat := hashMul32 val / 2 ^ (32 - bits)

/-- `hash_64_generic`; the branch for `BITS_PER_LONG == 64` is not compiled in user space. -/
def hash64 (val bits : Nat) : Nat := hash32 (u32 val ^^^ hashMul32 (u32 (val / 2 ^ 32))) bits

/-- The loop of `next_power`. `1 << pow` is read as 32-bit unsigned. -/
def nextPowerLoop (x : Nat) : Nat → Nat → Exec Nat
  | 0, _ => .error .outOfFuel
  | fuel + 1, pow => if x > u32 (2 ^ pow) then nextPowerLoop x fuel (pow + 1) else .ok pow

def nextPower (n min : Nat) : Exec Nat := do
  let pow ← nextPowerLoop (max32 n min) 33 0
  return u32 (2 ^ pow)

/-- The place of the lowest bit that is set, from 1. -/
def ffs (n : Nat) : Nat :=
  match (List.range 32).find? fun i => n.testBit i with
  | some i => i + 1
  | none => 0

theorem hash32_lt {bits : Nat} (hb : bits ≤ 32) (val : Nat) : hash32 val bits < 2 ^ bits := by
  refine Nat.div_lt_of_lt_mul ?_
  rw [← Nat.pow_add, Nat.sub_add_cancel hb]
  exact u32_lt _

theorem nextPowerLoop_spec {x : Nat} (hx : x ≤ 2 ^ 31) : ∀ fuel pow, pow ≤ 31 → 31 < fuel + pow →
    ∃ k, nextPowerLoop x fuel pow = .ok k ∧ k ≤ 31 ∧ x ≤ 2 ^ k := by
  intro fuel
  induction fuel with
  | zero => exact fun pow hp hf => absurd hf (by omega)
  | succ fuel ih =>
    intro pow hp hf
    have hpow : u32 (2 ^ pow) = 2 ^ pow :=
      u32_of_lt (Nat.pow_lt_pow_right (by decide) (by omega))
    rw [nextPowerLoop, hpow]
    by_cases hgt : x > 2 ^ pow
    · rw [if_pos hgt]
      refine ih (pow + 1) ?_ (by omega)
      by_contra hlt
      obtain rfl : pow = 31 := by omega
      omega
    · rw [if_neg hgt]
      exact ⟨pow, rfl, hp, Nat.not_lt.mp hgt⟩

theorem ffs_two_pow : ∀ k < 32, ffs (2 ^ k) = k + 1 := by decide

/-! ## The table -/

variable {α : Type}

/-- `struct hashtable`, with the `ht_list` and the `oblock` of every entry. -/
structure Hashtable (α : Type) where
  links : Chains Nat α
  oblock : α → Oblock
  nrBuckets : Nat
  hashBits : Nat

/-- The allocation of the table, all of it zero, is taken to succeed. -/
def htInit (ht : Hashtable α) (cacheSize : UInt32) : Exec (Hashtable α) := do
  let nrBuckets ← nextPower (cacheSize.toNat / 2) 16
  return { ht with
    links := { ht.links with first := fun _ => none }
    nrBuckets := nrBuckets
    hashBits := ffs nrBuckets - 1 }

/-- The number of buckets is a power of two, of which `hash_bits` is the exponent. -/
theorem htInit_spec (blank : Hashtable α) (cacheSize : UInt32) :
    ∃ k, 4 ≤ k ∧ k ≤ 31 ∧ htInit blank cacheSize = .ok { blank with
      links := { blank.links with first := fun _ => none }
      nrBuckets := 2 ^ k
      hashBits := k } := by
  have hsize := cacheSize.toNat_lt
  have hmax : max32 (cacheSize.toNat / 2) 16 = max (cacheSize.toNat / 2) 16 :=
    max32_of_lt (by omega) (by decide)
  obtain ⟨k, hloop, hk, hle⟩ := nextPowerLoop_spec (x := max (cacheSize.toNat / 2) 16)
    (by omega) 33 0 (by decide) (by decide)
  have hpow : u32 (2 ^ k) = 2 ^ k := u32_of_lt (Nat.pow_lt_pow_right (by decide) (by omega))
  refine ⟨k, ?_, hk, ?_⟩
  · by_contra hlt
    have hsmall : 2 ^ k ≤ 2 ^ 3 := Nat.pow_le_pow_right (by decide) (by omega)
    omega
  · rw [htInit, nextPower, hmax, hloop, ok_bind, pure_eq_ok, ok_bind, hpow,
      ffs_two_pow k (by omega)]
    rfl

/-- `ht->table + h`, which must lie in the table. -/
def Hashtable.bucket (ht : Hashtable α) (oblock : Oblock) : Exec Nat :=
  let h := hash64 oblock.toNat ht.hashBits
  if h < ht.nrBuckets then .ok h else .error .outOfBounds

/-- The table holds the map, with at most `k` entries in any bucket. -/
structure Hashtable.Holds (ht : Hashtable α) (map : Oblock → Option α) (k : Nat)
    (buckets : Nat → List α) : Prop where
  links : ht.links.Holds buckets
  hash : ∀ o : Oblock, hash64 o.toNat ht.hashBits < ht.nrBuckets
  mem : ∀ h e, e ∈ buckets h →
    hash64 (ht.oblock e).toNat ht.hashBits = h ∧ map (ht.oblock e) = some e
  map : ∀ o e, map o = some e → ht.oblock e = o ∧ e ∈ buckets (hash64 o.toNat ht.hashBits)
  length_le : ∀ h, (buckets h).length ≤ k

variable {ht ht' : Hashtable α} {map : Oblock → Option α} {k h fuel : Nat}
  {buckets : Nat → List α} {e x : α} {o : Oblock} {l : List α}

theorem Hashtable.Holds.bucket (H : ht.Holds map k buckets) (o : Oblock) :
    ht.bucket o = .ok (hash64 o.toNat ht.hashBits) := if_pos (H.hash o)

variable [DecidableEq α]

def hashInsert (ht : Hashtable α) (e : α) : Exec (Hashtable α) := do
  let h ← ht.bucket (ht.oblock e)
  return { ht with links := ht.links.addHead e h }

/-- The loop of `hash_lookup` from the entry `pos` on. -/
def hashLookupLoop (ht : Hashtable α) (oblock : Oblock) (h : Nat) :
    Nat → Option α → Exec (Hashtable α × Option α)
  | 0, _ => .error .outOfFuel
  | _ + 1, none => .ok (ht, none)
  | fuel + 1, some e =>
    if ht.oblock e = oblock then do
      let links ← deref (ht.links.del e)
      return ({ ht with links := links.addHead e h }, some e)
    else do
      let pos ← deref (ht.links.next e)
      hashLookupLoop ht oblock h fuel pos

def hashLookup (fuel : Nat) (ht : Hashtable α) (oblock : Oblock) :
    Exec (Hashtable α × Option α) := do
  let h ← ht.bucket oblock
  hashLookupLoop ht oblock h fuel (ht.links.first h)

def hashRemove (ht : Hashtable α) (e : α) : Exec (Hashtable α) := do
  let links ← deref (ht.links.del e)
  return { ht with links := links }

/-! ## What a table is for -/

/-- The calls on a table; an entry gets its block before it is inserted. -/
inductive HashCall (α : Type)
  | insert (e : α) (oblock : Oblock)
  | lookup (oblock : Oblock)
  | remove (e : α)

def hashStep (fuel : Nat) (ht : Hashtable α) : HashCall α → Exec (Hashtable α × Option α)
  | .insert e oblock => do
    let ht := { ht with oblock := Function.update ht.oblock e oblock }
    let ht ← hashInsert ht e
    return (ht, none)
  | .lookup oblock => hashLookup fuel ht oblock
  | .remove e => do
    let ht ← hashRemove ht e
    return (ht, none)

/-- The answers to calls made one after the other. -/
def hashRun (fuel : Nat) (ht : Hashtable α) : List (HashCall α) → Exec (List (Option α))
  | [] => .ok []
  | c :: cs => do
    let (ht, w) ← hashStep fuel ht c
    let ws ← hashRun fuel ht cs
    return w :: ws

/-- The same calls on a map. -/
def mapStep (map : Oblock → Option α) : HashCall α → (Oblock → Option α) × Option α
  | .insert e oblock => (Function.update map oblock (some e), none)
  | .lookup oblock => (map, map oblock)
  | .remove e => (fun o => if map o = some e then none else map o, none)

def mapRun (map : Oblock → Option α) : List (HashCall α) → List (Option α)
  | [] => []
  | c :: cs => (mapStep map c).2 :: mapRun (mapStep map c).1 cs

/-- The caller's side: an entry outside the table comes in under a new block, and only
entries of the table are removed. -/
def Allowed (map : Oblock → Option α) : HashCall α → Prop
  | .insert e oblock => map oblock = none ∧ ∀ o, map o ≠ some e
  | .lookup _ => True
  | .remove e => ∃ o, map o = some e

def AllAllowed (map : Oblock → Option α) : List (HashCall α) → Prop
  | [] => True
  | c :: cs => Allowed map c ∧ AllAllowed (mapStep map c).1 cs

/-- The second list is the first one with further items, all of them `p`, put in anywhere. -/
inductive Woven {β : Type} (p : β → Prop) : List β → List β → Prop
  | nil : Woven p [] []
  | keep {b l l'} : Woven p l l' → Woven p (b :: l) (b :: l')
  | more {b l l'} : p b → Woven p l l' → Woven p l (b :: l')

def IsLookup (c : HashCall α) : Prop := ∃ o, c = .lookup o

/-! ## The calls -/

/-- The entry found last moves to the front of its bucket. -/
theorem Hashtable.Holds.front (H : ht.Holds map k buckets) (hx : x ∈ buckets h) :
    ∃ links, ht.links.del x = some links ∧ { ht with links := links.addHead x h }.Holds map k
      (Function.update (fun c => (buckets c).erase x) h (x :: (buckets h).erase x)) := by
  obtain ⟨links, hdel, hl⟩ := H.links.del hx
  have hnew : ∀ c, x ∉ (buckets c).erase x := fun c => (H.links.nodup c).not_mem_erase
  have hmem : ∀ c y, y ∈ Function.update (fun c => (buckets c).erase x) h
      (x :: (buckets h).erase x) c ↔ y ∈ buckets c := by
    intro c y
    by_cases hc : c = h
    · subst hc
      rw [Function.update_self, List.mem_cons, (H.links.nodup c).mem_erase_iff]
      by_cases hy : y = x
      · simp [hy, hx]
      · simp [hy]
    · rw [Function.update_of_ne hc, (H.links.nodup c).mem_erase_iff]
      refine and_iff_right_of_imp fun hy => ?_
      rintro rfl
      exact hc (H.links.disjoint c h y hy hx)
  refine ⟨links, hdel, hl.addHead hnew h, H.hash, ?_, ?_, ?_⟩
  · exact fun c y hy => H.mem c y ((hmem c y).mp hy)
  · exact fun o y hy => ⟨(H.map o y hy).1, (hmem _ y).mpr (H.map o y hy).2⟩
  · intro c
    by_cases hc : c = h
    · subst hc
      rw [Function.update_self, List.length_cons, List.length_erase_of_mem hx]
      have hpos := List.length_pos_of_mem hx
      have hle := H.length_le c
      omega
    · rw [Function.update_of_ne hc]
      exact Nat.le_trans List.length_erase_le (H.length_le c)

/-- The loop finds the first entry of the rest of the bucket that has the block. -/
theorem Hashtable.Holds.lookupLoop (H : ht.Holds map k buckets) :
    ∀ {fuel : Nat} {l₁ l : List α}, buckets h = l₁ ++ l → l.length < fuel →
      ∃ ht' buckets', hashLookupLoop ht o h fuel l.head? =
          .ok (ht', l.find? fun e => ht.oblock e = o) ∧ ht'.Holds map k buckets' := by
  intro fuel
  induction fuel with
  | zero => exact fun _ hl => absurd hl (Nat.not_lt_zero _)
  | succ fuel ih =>
    intro l₁ l hb hl
    cases l with
    | nil => exact ⟨ht, buckets, rfl, H⟩
    | cons e l =>
      rw [List.head?_cons, hashLookupLoop]
      by_cases he : ht.oblock e = o
      · obtain ⟨links, hdel, H'⟩ := H.front (show e ∈ buckets h by simp [hb])
        refine ⟨_, _, ?_, H'⟩
        rw [if_pos he, hdel, List.find?_cons_of_pos (by simpa using he)]
        rfl
      · have hchain := H.links.chain h
        rw [hb] at hchain
        rw [if_neg he, hchain.next, deref_some, ok_bind, List.find?_cons_of_neg (by simpa using he)]
        exact ih (by rw [hb, List.append_cons]) (by simpa using hl)

/-- A lookup answers as the map does. -/
theorem Hashtable.Holds.lookup (H : ht.Holds map k buckets) (hfuel : k < fuel) (o : Oblock) :
    ∃ ht' buckets', hashLookup fuel ht o = .ok (ht', map o) ∧ ht'.Holds map k buckets' := by
  have hfirst : ht.links.first (hash64 o.toNat ht.hashBits) =
      (buckets (hash64 o.toNat ht.hashBits)).head? :=
    Option.some.inj (H.links.chain _).read
  obtain ⟨ht', buckets', hrun, H'⟩ := H.lookupLoop (o := o)
    (List.nil_append (buckets (hash64 o.toNat ht.hashBits))).symm
    (Nat.lt_of_le_of_lt (H.length_le _) hfuel)
  refine ⟨ht', buckets', ?_, H'⟩
  have hfind : (buckets (hash64 o.toNat ht.hashBits)).find? (fun e => ht.oblock e = o) = map o := by
    cases hm : map o with
    | none =>
      refine List.find?_eq_none.mpr fun e he => ?_
      simp only [decide_eq_true_eq]
      rintro rfl
      rw [(H.mem _ e he).2] at hm
      cases hm
    | some e =>
      obtain ⟨ho, he⟩ := H.map o e hm
      cases hf : (buckets (hash64 o.toNat ht.hashBits)).find? fun e => ht.oblock e = o with
      | none => exact absurd ho (by simpa using List.find?_eq_none.mp hf e he)
      | some y =>
        -- an entry with the block is the one the map has for it
        have hy : ht.oblock y = o := by simpa using List.find?_some hf
        have hmy := (H.mem _ y (List.mem_of_find?_eq_some hf)).2
        rw [hy, hm] at hmy
        exact hmy.symm
  rw [hashLookup, H.bucket, ok_bind, hfirst, hrun, hfind]

/-- An entry outside the table comes in under a new block. -/
theorem Hashtable.Holds.insert (H : ht.Holds map k buckets) (ho : map o = none)
    (he : ∀ o, map o ≠ some e) : ∃ ht' buckets',
      hashInsert { ht with oblock := Function.update ht.oblock e o } e = .ok ht' ∧
      ht'.Holds (Function.update map o (some e)) (k + 1) buckets' := by
  have hni : ∀ c, e ∉ buckets c := fun c hc => he _ (H.mem c e hc).2
  have hne : ∀ c, ∀ x ∈ buckets c, x ≠ e := fun c x hx h => hni c (h ▸ hx)
  have hmem : ∀ c x, x ∈ Function.update buckets (hash64 o.toNat ht.hashBits)
      (e :: buckets (hash64 o.toNat ht.hashBits)) c →
        x = e ∧ c = hash64 o.toNat ht.hashBits ∨ x ∈ buckets c := by
    intro c x hx
    by_cases hc : c = hash64 o.toNat ht.hashBits
    · subst hc
      rw [Function.update_self] at hx
      exact (List.mem_cons.mp hx).imp_left fun h => ⟨h, rfl⟩
    · rw [Function.update_of_ne hc] at hx
      exact Or.inr hx
  have hbucket : { ht with oblock := Function.update ht.oblock e o }.bucket o =
      .ok (hash64 o.toNat ht.hashBits) := H.bucket o
  refine ⟨{ ht with
      links := ht.links.addHead e (hash64 o.toNat ht.hashBits)
      oblock := Function.update ht.oblock e o }, _, ?_,
    H.links.addHead hni (hash64 o.toNat ht.hashBits), H.hash, ?_, ?_, ?_⟩
  · rw [hashInsert]
    dsimp only
    rw [Function.update_self, hbucket]
    rfl
  · intro c x hx
    show hash64 (Function.update ht.oblock e o x).toNat _ = c ∧
      Function.update map o (some e) (Function.update ht.oblock e o x) = some x
    rcases hmem c x hx with ⟨rfl, rfl⟩ | hx
    · rw [Function.update_self, Function.update_self]
      exact ⟨rfl, rfl⟩
    · obtain ⟨hc, hm⟩ := H.mem c x hx
      have hxo : ht.oblock x ≠ o := fun h => by
        rw [h, ho] at hm
        cases hm
      rw [Function.update_of_ne (hne c x hx), Function.update_of_ne hxo]
      exact ⟨hc, hm⟩
  · intro o' x hx
    show Function.update ht.oblock e o x = o' ∧ _
    by_cases hoo : o' = o
    · subst hoo
      rw [Function.update_self] at hx
      obtain rfl := Option.some.inj hx
      rw [Function.update_self, Function.update_self]
      exact ⟨rfl, List.mem_cons_self⟩
    · rw [Function.update_of_ne hoo] at hx
      obtain ⟨hox, hin⟩ := H.map o' x hx
      rw [Function.update_of_ne (hne _ x hin)]
      refine ⟨hox, ?_⟩
      show x ∈ Function.update buckets _ _ (hash64 o'.toNat ht.hashBits)
      rw [Function.update_apply]
      split
      · next h => exact List.mem_cons_of_mem e (h ▸ hin)
      · exact hin
  · intro c
    have hle := H.length_le c
    by_cases hc : c = hash64 o.toNat ht.hashBits
    · subst hc
      rw [Function.update_self, List.length_cons]
      omega
    · rw [Function.update_of_ne hc]
      omega

/-- An entry leaves its bucket by itself. -/
theorem Hashtable.Holds.remove (H : ht.Holds map k buckets) (hm : map o = some e) :
    ∃ ht' buckets', hashRemove ht e = .ok ht' ∧
      ht'.Holds (fun o => if map o = some e then none else map o) k buckets' := by
  obtain ⟨links, hdel, hl⟩ := H.links.del (H.map o e hm).2
  refine ⟨{ ht with links := links }, _, by rw [hashRemove, hdel]; rfl, hl, H.hash, ?_, ?_, ?_⟩
  · intro c x hx
    rw [(H.links.nodup c).mem_erase_iff] at hx
    obtain ⟨hc, hmx⟩ := H.mem c x hx.2
    refine ⟨hc, ?_⟩
    show (if map (ht.oblock x) = some e then none else map (ht.oblock x)) = some x
    rw [hmx, if_neg fun h => hx.1 (Option.some.inj h)]
  · intro o' x hx
    split at hx
    · cases hx
    · next hne =>
      obtain ⟨hox, hin⟩ := H.map o' x hx
      refine ⟨hox, (H.links.nodup _).mem_erase_iff.mpr ⟨?_, hin⟩⟩
      rintro rfl
      exact hne hx
  · exact fun c => Nat.le_trans List.length_erase_le (H.length_le c)

/-- The step lemma: the table answers a call as the map does. -/
theorem Hashtable.Holds.step {c : HashCall α} (H : ht.Holds map k buckets) (hc : Allowed map c)
    (hfuel : k < fuel) : ∃ ht' buckets', hashStep fuel ht c = .ok (ht', (mapStep map c).2) ∧
      ht'.Holds (mapStep map c).1 (k + 1) buckets' := by
  have hmore : ∀ {ht' : Hashtable α} {map : Oblock → Option α} {buckets' : Nat → List α},
      ht'.Holds map k buckets' → ht'.Holds map (k + 1) buckets' := fun h =>
    ⟨h.links, h.hash, h.mem, h.map, fun c => Nat.le_succ_of_le (h.length_le c)⟩
  cases c with
  | insert e o =>
    obtain ⟨ht', buckets', hrun, H'⟩ := H.insert hc.1 hc.2
    exact ⟨ht', buckets', by rw [hashStep, hrun]; rfl, H'⟩
  | lookup o =>
    obtain ⟨ht', buckets', hrun, H'⟩ := H.lookup hfuel o
    exact ⟨ht', buckets', hrun, hmore H'⟩
  | remove e =>
    obtain ⟨o, ho⟩ := hc
    obtain ⟨ht', buckets', hrun, H'⟩ := H.remove ho
    exact ⟨ht', buckets', by rw [hashStep, hrun]; rfl, hmore H'⟩

/-- The run lemma: the answers to any calls are those of the map. -/
theorem Hashtable.Holds.run : ∀ {cs : List (HashCall α)} {ht : Hashtable α} {k : Nat}
    {map : Oblock → Option α} {buckets : Nat → List α}, ht.Holds map k buckets →
    AllAllowed map cs → k + cs.length < fuel + 1 → hashRun fuel ht cs = .ok (mapRun map cs) := by
  intro cs
  induction cs with
  | nil => exact fun _ _ _ => rfl
  | cons c cs ih =>
    intro ht k map buckets H hall hfuel
    rw [List.length_cons] at hfuel
    obtain ⟨ht', buckets', hrun, H'⟩ := H.step hall.1 (show k < fuel by omega)
    rw [hashRun, hrun, ok_bind]
    dsimp only
    rw [ih H' hall.2 (by omega)]
    rfl

/-- More lookups leave the answers to the other calls of a map. -/
theorem mapRun_woven {cs cs' : List (HashCall α)} (hw : Woven IsLookup cs cs')
    (hall : AllAllowed map cs) : AllAllowed map cs' ∧
      Woven (fun x => IsLookup x.1) (cs.zip (mapRun map cs)) (cs'.zip (mapRun map cs')) := by
  induction hw generalizing map with
  | nil => exact ⟨trivial, .nil⟩
  | keep _ ih =>
    obtain ⟨hall', hw⟩ := ih hall.2
    exact ⟨⟨hall.1, hall'⟩, hw.keep⟩
  | more hl _ ih =>
    obtain ⟨o, rfl⟩ := hl
    obtain ⟨hall', hw⟩ := ih hall
    exact ⟨⟨trivial, hall'⟩, .more ⟨o, rfl⟩ hw⟩

/-- The table is a map: for any size the buckets are a power of two of which every block hashes
to one, all calls answer as on the map, and lookups put in anywhere change no other answer. -/
theorem hashtable_refines_map (blank : Hashtable α) (cacheSize : UInt32) :
    ∃ ht, htInit blank cacheSize = .ok ht ∧
      (16 ≤ ht.nrBuckets ∧ ∃ k, ht.nrBuckets = 2 ^ k) ∧
      (∀ o : Oblock, hash64 o.toNat ht.hashBits < ht.nrBuckets) ∧
      ∀ cs, AllAllowed (fun _ => none) cs →
        (∀ fuel, cs.length ≤ fuel → hashRun fuel ht cs = .ok (mapRun (fun _ => none) cs)) ∧
        ∀ cs', Woven IsLookup cs cs' → ∃ ws ws',
          (∀ fuel, cs.length ≤ fuel → hashRun fuel ht cs = .ok ws) ∧
          (∀ fuel, cs'.length ≤ fuel → hashRun fuel ht cs' = .ok ws') ∧
          Woven (fun x => IsLookup x.1) (cs.zip ws) (cs'.zip ws') := by
  obtain ⟨k, hk4, hk31, hinit⟩ := htInit_spec blank cacheSize
  have hbound : ∀ o : Oblock, hash64 o.toNat k < 2 ^ k := fun o => hash32_lt (by omega) _
  have hempty : { blank with
      links := { blank.links with first := fun _ => none }
      nrBuckets := 2 ^ k
      hashBits := k : Hashtable α }.Holds (fun _ => none) 0 (fun _ => []) :=
    ⟨⟨fun _ => rfl, fun _ => List.nodup_nil, fun _ _ _ h => (List.not_mem_nil h).elim⟩, hbound,
      fun _ _ h => (List.not_mem_nil h).elim, fun _ _ h => (Option.some_ne_none _ h.symm).elim,
      fun _ => Nat.le_refl 0⟩
  refine ⟨_, hinit, ⟨?_, k, rfl⟩, hbound, fun cs hall => ⟨fun fuel hf => ?_, fun cs' hw => ?_⟩⟩
  · exact Nat.pow_le_pow_right (show 0 < 2 by decide) hk4
  · exact hempty.run hall (by omega)
  · obtain ⟨hall', hwoven⟩ := mapRun_woven hw hall
    exact ⟨_, _, fun fuel hf => hempty.run hall (by omega),
      fun fuel hf => hempty.run hall' (by omega), hwoven⟩

end Fomo.HashTable
