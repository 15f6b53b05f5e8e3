import Mathlib.Data.UInt
import Fomo.Lib.Units
import Fomo.TraceReader.TraceReader

/-!
# Trace expansion

Without a duration limit the FIU, MSR and VISA readers deliver, record by record, the units
that the record meets, and then report the end.
-/
namespace Fomo

variable {τ κ : Type} {fmt : TraceFormat τ κ}

/-- What a record stands for: the units it meets, under its own type. -/
def TraceRecord.accesses (u : Nat) (isWrite : κ → Bool) (rec : TraceRecord τ κ) :
    List TraceReaderResult :=
  (Lib.unitsMeeting u rec.addr.toNat rec.size.toNat).map fun a => ⟨.ofNat a, isWrite rec.io⟩

/-- `addr + size + u` does not overflow. -/
def TraceRecord.Fits (u : Nat) (rec : TraceRecord τ κ) : Prop :=
  rec.addr.toNat + rec.size.toNat + u < 2 ^ 64

/-- The accesses left of the record being read. -/
def TraceInfo.pending (info : TraceInfo) (unit : UInt64) : List TraceReaderResult :=
  (List.range info.left.toNat).map fun i => ⟨info.addr + unit * .ofNat (i + 1), info.write⟩

def TraceReader.remaining (fmt : TraceFormat τ κ) (r : TraceReader τ κ) :
    List TraceReaderResult :=
  r.info.pending fmt.unit ++ r.file.flatMap (TraceRecord.accesses fmt.unit.toNat fmt.isWrite)

theorem TraceInfo.pending_zero {info : TraceInfo} (h : info.left = 0) (unit : UInt64) :
    info.pending unit = [] := by
  simp [pending, h]

/-- Moving on by a unit delivers the first pending access. -/
theorem TraceInfo.pending_advance {info : TraceInfo} (h : 0 < info.left) (unit : UInt64) :
    info.pending unit = (info.advance unit).result :: (info.advance unit).pending unit := by
  have hpos : 0 < info.left.toNat := UInt64.lt_iff_toNat_lt.mp h
  have hleft : info.left.toNat = (info.left - 1).toNat + 1 := by
    have hle : (1 : UInt64) ≤ info.left := UInt64.le_iff_toNat_le.mpr (Nat.succ_le_of_lt hpos)
    rw [UInt64.toNat_sub_of_le _ _ hle]
    exact (Nat.sub_add_cancel hpos).symm
  rw [pending, hleft, List.range_succ_eq_map, List.map_cons, List.map_map]
  congr 1
  · simp [advance, result]
  · refine List.map_congr_left fun i _ => ?_
    simp only [Function.comp_apply, advance, TraceReaderResult.mk.injEq, and_true]
    rw [UInt64.ofNat_add (i + 1) 1, UInt64.mul_add, UInt64.add_assoc]
    simp [UInt64.add_comm]

/-- A loaded record has one access fewer left than it meets units. -/
theorem TraceInfo.load_left {info : TraceInfo} {rec : TraceRecord τ κ} (hu : 0 < fmt.unit.toNat)
    (haddr : info.addr = rec.addr) (hsize : rec.size ≠ 0) (hfit : rec.Fits fmt.unit.toNat) :
    (info.load fmt rec).left.toNat + 1 =
      Lib.unitCount fmt.unit.toNat rec.addr.toNat rec.size.toNat := by
  have hpos : 0 < rec.size.toNat := UInt64.lt_iff_toNat_lt.mp (UInt64.pos_iff_ne_zero.mpr hsize)
  have hmod := Nat.mod_lt rec.addr.toNat hu
  have hsum : (rec.size + rec.addr % fmt.unit).toNat =
      rec.size.toNat + rec.addr.toNat % fmt.unit.toNat := by
    rw [UInt64.toNat_add, UInt64.toNat_mod, Nat.mod_eq_of_lt]
    unfold TraceRecord.Fits at hfit
    omega
  have hzero : (rec.size + rec.addr % fmt.unit) % fmt.unit = 0 ↔
      (rec.size.toNat + rec.addr.toNat % fmt.unit.toNat) % fmt.unit.toNat = 0 := by
    rw [← UInt64.toNat_inj, UInt64.toNat_mod, hsum]
    rfl
  simp only [load, haddr, ne_eq, ite_not, hzero, Lib.unitCount_eq hu]
  split
  case isTrue h =>
    -- whole units: the quotient is positive, so taking one off does not wrap
    have hq : 0 < (rec.size.toNat + rec.addr.toNat % fmt.unit.toNat) / fmt.unit.toNat :=
      Nat.div_pos (Nat.le_of_dvd (by omega) (Nat.dvd_of_mod_eq_zero h)) hu
    have hdiv : ((rec.size + rec.addr % fmt.unit) / fmt.unit).toNat =
        (rec.size.toNat + rec.addr.toNat % fmt.unit.toNat) / fmt.unit.toNat := by
      rw [UInt64.toNat_div, hsum]
    rw [UInt64.toNat_sub_of_le, hdiv]
    · exact Nat.sub_add_cancel hq
    · rw [UInt64.le_iff_toNat_le, hdiv]
      exact hq
  case isFalse h =>
    rw [UInt64.sub_add_cancel, UInt64.toNat_div, hsum]

theorem ofNat_unit (addr unit : UInt64) (n : Nat) :
    UInt64.ofNat (addr.toNat - addr.toNat % unit.toNat + unit.toNat * n) =
      addr - addr % unit + unit * .ofNat n := by
  have hle : addr.toNat % unit.toNat ≤ addr.toNat := Nat.mod_le _ _
  rw [UInt64.ofNat_add, UInt64.ofNat_mul, UInt64.ofNat_sub hle, ← UInt64.toNat_mod]
  simp only [UInt64.ofNat_toNat]

/-- A record just loaded delivers what it stands for. -/
theorem TraceInfo.load_pending {info : TraceInfo} {rec : TraceRecord τ κ}
    (hu : 0 < fmt.unit.toNat) (haddr : info.addr = rec.addr) (hsize : rec.size ≠ 0)
    (hfit : rec.Fits fmt.unit.toNat) :
    (info.load fmt rec).result :: (info.load fmt rec).pending fmt.unit =
      rec.accesses fmt.unit.toNat fmt.isWrite := by
  have hpos : 0 < rec.size.toNat := UInt64.lt_iff_toNat_lt.mp (UInt64.pos_iff_ne_zero.mpr hsize)
  rw [TraceRecord.accesses, Lib.unitsMeeting_eq hu hpos, ← load_left hu haddr hsize hfit,
    List.range_succ_eq_map, List.map_cons, List.map_cons, List.map_map, List.map_map]
  congr 1
  · rw [ofNat_unit, result]
    simp [load, haddr]
  · refine List.map_congr_left fun i _ => ?_
    simp only [load, haddr, Function.comp_apply, ofNat_unit]

/-- The records of size 0 that are skipped stand for nothing. -/
theorem traceScan_spec (u : Nat) (isWrite : κ → Bool) {info info' : TraceInfo}
    {file file' : List (TraceRecord τ κ)} {found : Option (TraceRecord τ κ)}
    (h : traceScan info file = (info', file', found)) :
    info'.left = info.left ∧
    (found = none → file' = [] ∧ file.flatMap (TraceRecord.accesses u isWrite) = []) ∧
    (∀ rec, found = some rec → info'.addr = rec.addr ∧ rec.size ≠ 0 ∧ rec ∈ file ∧
      (∀ rec' ∈ file', rec' ∈ file) ∧ file.flatMap (TraceRecord.accesses u isWrite) =
        rec.accesses u isWrite ++ file'.flatMap (TraceRecord.accesses u isWrite)) := by
  induction file generalizing info with
  | nil =>
    obtain ⟨rfl, rfl, rfl⟩ := by simpa only [traceScan, Prod.mk.injEq] using h
    simp
  | cons rec file ih =>
    rw [traceScan] at h
    split at h
    case isTrue hzero =>
      have hskip : rec.accesses u isWrite = [] := by
        rw [TraceRecord.accesses, hzero, UInt64.toNat_zero, Lib.unitsMeeting_zero, List.map_nil]
      obtain ⟨hleft, hnone, hsome⟩ := ih h
      refine ⟨hleft, fun hf => ⟨(hnone hf).1, ?_⟩, fun rec' hf => ?_⟩
      · rw [List.flatMap_cons, hskip, (hnone hf).2, List.append_nil]
      · obtain ⟨haddr, hsize, hmem, hsub, hflat⟩ := hsome rec' hf
        refine ⟨haddr, hsize, List.mem_cons_of_mem _ hmem,
          fun r hr => List.mem_cons_of_mem _ (hsub r hr), ?_⟩
        rw [List.flatMap_cons, hskip, List.nil_append, hflat]
    case isFalse hsize =>
      obtain ⟨rfl, rfl, rfl⟩ := by simpa only [Prod.mk.injEq] using h
      refine ⟨rfl, fun hf => (Option.some_ne_none _ hf).elim, fun rec' hf => ?_⟩
      obtain rfl := Option.some.inj hf
      exact ⟨rfl, hsize, List.mem_cons_self, fun r hr => List.mem_cons_of_mem _ hr,
        List.flatMap_cons⟩

/-- A reader without a duration limit whose records do not overflow. -/
structure TraceReader.Ready (fmt : TraceFormat τ κ) (r : TraceReader τ κ) : Prop where
  unlimited : r.features.useDuration = false
  fits : ∀ rec ∈ r.file, rec.Fits fmt.unit.toNat

/-- One read delivers the first access that remains, or reports the end. -/
theorem traceRead_spec (hu : 0 < fmt.unit.toNat) {r : TraceReader τ κ} (h : r.Ready fmt) :
    (traceRead fmt r).1.Ready fmt ∧ (traceRead fmt r).2 = (r.remaining fmt).head? ∧
      (traceRead fmt r).1.remaining fmt = (r.remaining fmt).tail := by
  unfold traceRead traceReadWith
  split
  case isTrue hpos =>
    refine ⟨⟨h.unlimited, h.fits⟩, ?_, ?_⟩ <;>
      simp [TraceReader.remaining, TraceInfo.pending_advance hpos]
  case isFalse hzero =>
    have hleft : r.info.left = 0 := by simpa [UInt64.pos_iff_ne_zero] using hzero
    have hrest : r.remaining fmt =
        r.file.flatMap (TraceRecord.accesses fmt.unit.toNat fmt.isWrite) := by
      rw [TraceReader.remaining, TraceInfo.pending_zero hleft, List.nil_append]
    rcases hscan : traceScan r.info r.file with ⟨info, file, found⟩
    obtain ⟨hinfo, hnone, hsome⟩ := traceScan_spec fmt.unit.toNat fmt.isWrite hscan
    cases found with
    | none =>
      obtain ⟨rfl, hflat⟩ := hnone rfl
      rw [hrest, hflat]
      refine ⟨⟨h.unlimited, ?_⟩, rfl, ?_⟩
      · exact fun _ hm => absurd hm List.not_mem_nil
      · simp [TraceReader.remaining, TraceInfo.pending_zero (hinfo.trans hleft)]
    | some rec =>
      obtain ⟨haddr, hsize, hmem, hsub, hflat⟩ := hsome rec rfl
      have hload : (info.load fmt rec).result :: (info.load fmt rec).pending fmt.unit = _ :=
        TraceInfo.load_pending hu haddr hsize (h.fits rec hmem)
      rw [hrest, hflat, ← hload]
      simp only [checkDuration, h.unlimited, Bool.false_eq_true, if_false, List.cons_append,
        List.head?_cons, List.tail_cons, TraceReader.remaining, and_self, and_true]
      exact ⟨h.unlimited, fun rec' hm => h.fits rec' (hsub rec' hm)⟩

/-- Successive reads deliver all that remains, and then the end again and again. -/
theorem traceRun_remaining (hu : 0 < fmt.unit.toNat) {r : TraceReader τ κ} (h : r.Ready fmt)
    (k : Nat) : (traceRun (traceRead fmt) ((r.remaining fmt).length + k) r).map (·.2) =
      (r.remaining fmt).map some ++ List.replicate k none := by
  induction hlen : r.remaining fmt generalizing r k with
  | nil =>
    induction k generalizing r with
    | zero => simp [traceRun]
    | succ k ih =>
      obtain ⟨hready, hhead, htail⟩ := traceRead_spec hu h
      rw [hlen] at hhead htail
      have ih := ih hready htail
      simp only [List.length_nil, Nat.zero_add, List.map_nil, List.nil_append] at ih ⊢
      rw [traceRun, List.map_cons, ih, hhead, List.replicate_succ, List.head?_nil]
  | cons x xs ih =>
    obtain ⟨hready, hhead, htail⟩ := traceRead_spec hu h
    rw [hlen] at hhead htail
    rw [List.length_cons, Nat.add_right_comm, traceRun, List.map_cons, hhead, ih hready k htail]
    simp

/-- The reads of a new reader deliver the units that each record meets, once each and in order,
under the type of that record, and then the end. -/
def ExactCover (read : TraceReader τ κ → TraceReader τ κ × Option TraceReaderResult) (u : Nat)
    (isWrite : κ → Bool) : Prop :=
  ∀ recs : List (TraceRecord τ κ), (∀ rec ∈ recs, rec.Fits u) → ∀ k,
    let expected := recs.flatMap (TraceRecord.accesses u isWrite)
    (traceRun read (expected.length + k) (traceInit {} recs 0)).map (·.2) =
      expected.map some ++ List.replicate k none

theorem traceRead_exact_cover (hu : 0 < fmt.unit.toNat) :
    ExactCover (traceRead fmt) fmt.unit.toNat fmt.isWrite := by
  intro recs hfit k
  have hready : (traceInit {} recs 0).Ready fmt := ⟨rfl, hfit⟩
  exact traceRun_remaining hu hready k

/-- Trace expansion is an exact cover in the FIU, the MSR and the VISA reader. -/
theorem trace_exact_cover :
    ExactCover fiuTraceRead 8 (fun io => io.head? = some 'W') ∧
    ExactCover msrTraceRead 512 (fun io => io.head? = some 'W') ∧
    ExactCover visaTraceRead 8 (fun io => io.head? = some 'W') :=
  ⟨traceRead_exact_cover (by decide), traceRead_exact_cover (by decide),
    traceRead_exact_cover (by decide)⟩

/-- A write of 12 blocks from block 5 on meets three pages; the empty record after it none. -/
theorem trace_exact_cover_write :
    (traceRun fiuTraceRead 4 (traceInit {} [⟨0, 5, 12, ['W']⟩, ⟨1, 40, 0, ['R']⟩] 0)).map (·.2) =
      [some ⟨0, true⟩, some ⟨8, true⟩, some ⟨16, true⟩, none] :=
  trace_exact_cover.1 [⟨0, 5, 12, ['W']⟩, ⟨1, 40, 0, ['R']⟩]
    (by simp [TraceRecord.Fits]) 1

end Fomo
