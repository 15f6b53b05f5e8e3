import Fomo.TraceReader.TraceExpansion

/-!
# Readers with a duration limit

The time of the first record starts the clock. A reader with a limit delivers what the records
before the first late one stand for; a record of size 0 is skipped before anyone looks at its time.
-/
namespace Fomo

variable {τ κ : Type} {fmt : TraceFormat τ κ} {r r' : TraceReader τ κ} {info info' : TraceInfo}
  {file file' recs : List (TraceRecord τ κ)} {rec : TraceRecord τ κ}

/-- A record that the reader stops at. -/
def TraceRecord.counts (rec : TraceRecord τ κ) : Bool := decide (rec.size ≠ 0)

/-- The records of a trace that lie within the duration. -/
def withinDuration (fmt : TraceFormat τ κ) (durationHrs : UInt32)
    (recs : List (TraceRecord τ κ)) : List (TraceRecord τ κ) :=
  match recs.filter TraceRecord.counts with
  | [] => []
  | first :: rest =>
    if durationHrs = 0 then first :: rest
    else (first :: rest).takeWhile fun rec =>
      !fmt.after rec.ts (fmt.ending first.ts durationHrs)

/-- The end of the duration for a reader whose next record is `first`. -/
def TraceReader.endingFor (fmt : TraceFormat τ κ) (r : TraceReader τ κ)
    (first : TraceRecord τ κ) : UInt64 :=
  if r.info.startingTimeSet then r.info.endingTime
  else fmt.ending first.ts r.features.durationHrs

/-- The records that a reader still reads before it reports an end. -/
def TraceReader.kept (fmt : TraceFormat τ κ) (r : TraceReader τ κ) : List (TraceRecord τ κ) :=
  match r.file.filter TraceRecord.counts with
  | [] => []
  | first :: rest =>
    if r.features.useDuration then
      (first :: rest).takeWhile fun rec => !fmt.after rec.ts (r.endingFor fmt first)
    else first :: rest

/-- The accesses that a reader delivers before it reports an end. -/
def TraceReader.delivers (fmt : TraceFormat τ κ) (r : TraceReader τ κ) :
    List TraceReaderResult :=
  r.info.pending fmt.unit ++ (r.kept fmt).flatMap (TraceRecord.accesses fmt.unit.toNat fmt.isWrite)

/-- The records do not overflow. -/
def TraceReader.Fits (fmt : TraceFormat τ κ) (r : TraceReader τ κ) : Prop :=
  ∀ rec ∈ r.file, rec.Fits fmt.unit.toNat

/-- The scan passes the records of size 0 and touches nothing but the address. -/
theorem traceScan_counts {found : Option (TraceRecord τ κ)}
    (h : traceScan info file = (info', file', found)) :
    info' = { info with addr := info'.addr } ∧ file'.Sublist file ∧
      file.filter TraceRecord.counts = found.toList ++ file'.filter TraceRecord.counts := by
  induction file generalizing info with
  | nil =>
    obtain ⟨rfl, rfl, rfl⟩ := by simpa only [traceScan, Prod.mk.injEq] using h
    exact ⟨rfl, List.Sublist.refl _, rfl⟩
  | cons rec file ih =>
    rw [traceScan] at h
    split at h
    · next hzero =>
      obtain ⟨hinfo, hsub, hfilter⟩ := ih h
      refine ⟨hinfo, hsub.trans (List.sublist_cons_self rec file), ?_⟩
      rw [List.filter_cons_of_neg (by simp [TraceRecord.counts, hzero]), hfilter]
    · next hsize =>
      obtain ⟨rfl, rfl, rfl⟩ := by simpa only [Prod.mk.injEq] using h
      refine ⟨rfl, List.sublist_cons_self rec file, ?_⟩
      rw [List.filter_cons_of_pos (by simp [TraceRecord.counts, hsize])]
      rfl

/-- The position in a record. -/
theorem checkDuration_position (fmt : TraceFormat τ κ) (features : TraceReaderFeatures) (ts : τ)
    (info : TraceInfo) : (checkDuration fmt features ts info).1.result = info.result ∧
      ∀ unit, (checkDuration fmt features ts info).1.pending unit = info.pending unit := by
  unfold checkDuration
  split
  · dsimp only
    split
    · exact ⟨rfl, fun _ => rfl⟩
    · exact ⟨rfl, fun _ => rfl⟩
  · exact ⟨rfl, fun _ => rfl⟩

/-- With a limit, the clock runs after the first record. -/
theorem checkDuration_clock {features : TraceReaderFeatures} (h : features.useDuration = true)
    (fmt : TraceFormat τ κ) (ts : τ) (info : TraceInfo) :
    (checkDuration fmt features ts info).1.startingTimeSet = true ∧
      (checkDuration fmt features ts info).1.endingTime =
        (if info.startingTimeSet then info.endingTime
          else fmt.ending ts features.durationHrs) ∧
      (checkDuration fmt features ts info).2 =
        fmt.after ts (checkDuration fmt features ts info).1.endingTime := by
  unfold checkDuration
  rw [if_pos h]
  dsimp only
  split
  · next hset => exact ⟨hset, rfl, rfl⟩
  · exact ⟨rfl, rfl, rfl⟩

/-- What is kept after the next record, with the clock that it leaves running. -/
theorem TraceReader.kept_cons (hfile : r.file.filter TraceRecord.counts = rec ::
      r'.file.filter TraceRecord.counts) (hfeatures : r'.features = r.features)
    (hclock : r.features.useDuration = true → r'.info.startingTimeSet = true ∧
      r'.info.endingTime = r.endingFor fmt rec)
    (hin : r.features.useDuration = true → fmt.after rec.ts (r.endingFor fmt rec) = false) :
    r.kept fmt = rec :: r'.kept fmt := by
  rw [kept, hfile]
  dsimp only
  cases hlimit : r.features.useDuration with
  | false =>
    rw [if_neg Bool.false_ne_true, kept]
    cases hrest : r'.file.filter TraceRecord.counts with
    | nil => rfl
    | cons first rest =>
      dsimp only
      rw [hfeatures, hlimit]
      rfl
  | true =>
    obtain ⟨hset, hending⟩ := hclock hlimit
    rw [if_pos rfl, List.takeWhile_cons_of_pos (by simp [hin hlimit]), kept]
    cases hrest : r'.file.filter TraceRecord.counts with
    | nil => rfl
    | cons first rest =>
      have hsame : r'.endingFor fmt first = r.endingFor fmt rec := by
        rw [endingFor, if_pos hset, hending]
      dsimp only
      rw [hfeatures, hlimit, if_pos rfl, hsame]

/-- One read delivers the first access, or reports the end when there is none. -/
theorem traceRead_delivers (hu : 0 < fmt.unit.toNat) (h : r.Fits fmt) :
    (traceRead fmt r).2 = (r.delivers fmt).head? ∧ (traceRead fmt r).1.Fits fmt ∧
      ((traceRead fmt r).2 ≠ none →
        (traceRead fmt r).1.delivers fmt = (r.delivers fmt).tail) := by
  unfold traceRead traceReadWith
  split
  · next hpos =>
    have hnext : r.delivers fmt = (r.info.advance fmt.unit).result ::
        ({ r with info := r.info.advance fmt.unit } : TraceReader τ κ).delivers fmt := by
      rw [TraceReader.delivers, TraceInfo.pending_advance hpos fmt.unit]
      rfl
    rw [hnext]
    exact ⟨rfl, h, fun _ => rfl⟩
  · next hzero =>
    have hleft : r.info.left = 0 := by simpa [UInt64.pos_iff_ne_zero] using hzero
    have hrest : r.delivers fmt =
        (r.kept fmt).flatMap (TraceRecord.accesses fmt.unit.toNat fmt.isWrite) := by
      rw [TraceReader.delivers, TraceInfo.pending_zero hleft, List.nil_append]
    rcases hscan : traceScan r.info r.file with ⟨info, file, found⟩
    obtain ⟨hinfo, hsub, hfilter⟩ := traceScan_counts hscan
    have hfits : ∀ rec ∈ file, rec.Fits fmt.unit.toNat := fun rec hrec => h rec (hsub.subset hrec)
    cases found with
    | none =>
      have hnil : r.kept fmt = [] := by
        obtain ⟨_, hnone, _⟩ := traceScan_spec fmt.unit.toNat fmt.isWrite hscan
        rw [(hnone rfl).1] at hfilter
        rw [TraceReader.kept, hfilter]
        rfl
      rw [hrest, hnil]
      exact ⟨rfl, hfits, fun hne => absurd rfl hne⟩
    | some rec =>
      obtain ⟨_, _, hsome⟩ := traceScan_spec fmt.unit.toNat fmt.isWrite hscan
      obtain ⟨haddr, hsize, hmem, _⟩ := hsome rec rfl
      have hload := TraceInfo.load_pending hu haddr hsize (h rec hmem)
      obtain ⟨hresult, hpending⟩ :=
        checkDuration_position fmt r.features rec.ts (info.load fmt rec)
      have hclock : r.features.useDuration = true → _ := fun hlimit =>
        checkDuration_clock hlimit fmt rec.ts (info.load fmt rec)
      have hfor : (if (info.load fmt rec).startingTimeSet then (info.load fmt rec).endingTime
          else fmt.ending rec.ts r.features.durationHrs) = r.endingFor fmt rec := by
        rw [hinfo]
        rfl
      rw [hfor] at hclock
      dsimp only
      cases hpast : (checkDuration fmt r.features rec.ts (info.load fmt rec)).2 with
      | true =>
        have hlimit : r.features.useDuration = true := by
          by_contra hno
          rw [checkDuration, if_neg hno] at hpast
          cases hpast
        obtain ⟨_, hending, hafter⟩ := hclock hlimit
        rw [hending, hpast] at hafter
        have hnil : r.kept fmt = [] := by
          rw [TraceReader.kept, hfilter]
          show (if r.features.useDuration then _ else _) = _
          rw [if_pos hlimit, List.takeWhile_cons_of_neg (by simp [← hafter])]
        rw [hrest, hnil]
        exact ⟨rfl, hfits, fun hne => absurd rfl hne⟩
      | false =>
        let r1 : TraceReader τ κ := { r with
          file := file
          info := (checkDuration fmt r.features rec.ts (info.load fmt rec)).1 }
        have hcons : r.kept fmt = rec :: r1.kept fmt := by
          have hfile : r.file.filter TraceRecord.counts =
            rec :: r1.file.filter TraceRecord.counts := hfilter
          apply TraceReader.kept_cons hfile rfl
          · exact fun hlimit => ⟨(hclock hlimit).1, (hclock hlimit).2.1⟩
          · intro hlimit
            obtain ⟨_, hending, hafter⟩ := hclock hlimit
            rw [← hending, ← hafter, hpast]
        have hnext : r.delivers fmt = r1.info.result :: r1.delivers fmt := by
          rw [hrest, hcons, List.flatMap_cons, ← hload, TraceReader.delivers, ← hresult,
            ← hpending]
          rfl
        rw [hnext]
        exact ⟨rfl, hfits, fun _ => rfl⟩

/-- A new reader delivers what the records within the duration stand for. -/
theorem traceInit_delivers (fmt : TraceFormat τ κ) (durationHrs : UInt32)
    (recs : List (TraceRecord τ κ)) : (traceInit {} recs durationHrs).delivers fmt =
      (withinDuration fmt durationHrs recs).flatMap
        (TraceRecord.accesses fmt.unit.toNat fmt.isWrite) := by
  have hkept : (traceInit {} recs durationHrs).kept fmt = withinDuration fmt durationHrs recs := by
    have hfile : (traceInit {} recs durationHrs).file = recs := rfl
    rw [TraceReader.kept, withinDuration, hfile]
    cases recs.filter TraceRecord.counts with
    | nil => rfl
    | cons first rest =>
      by_cases hhrs : durationHrs = 0
      · subst hhrs
        rfl
      · have hpos : 0 < durationHrs := UInt32.pos_iff_ne_zero.mpr hhrs
        simp only [traceInit, if_pos hpos, if_neg hhrs, TraceReader.endingFor, if_true,
          Bool.false_eq_true, if_false]
  rw [TraceReader.delivers, hkept, TraceInfo.pending_zero rfl, List.nil_append]

end Fomo
