import Fomo.TraceReader.TraceExpansion

/-!
# The Nexus reader

It loads a record its own way: the write flag is set and never cleared, and the last unit is not
counted when it is met in part. A record of fewer blocks than one unit wraps the count.
-/
namespace Fomo

/-- Nexus has its time stamps as a `float`, in nanoseconds. -/
def nexusFormat : TraceFormat Float32 UInt32 where
  unit := 8
  isWrite write := write = 5 ∨ write = 3
  starting ts := ts.toUInt64
  ending ts hrs := (ts + (3600000000000 * hrs.toUInt64).toFloat32).toUInt64
  after ts ending := ending.toFloat32 < ts

def nexusLoad (rec : TraceRecord Float32 UInt32) (info : TraceInfo) : TraceInfo :=
  let align := info.addr % nexusFormat.unit
  let size := rec.size + align
  { info with
    addr := info.addr - align
    write := if nexusFormat.isWrite rec.io then true else info.write
    left := size / nexusFormat.unit - 1 }

def nexusTraceRead := traceReadWith nexusFormat nexusLoad

variable {τ κ : Type} {fmt : TraceFormat τ κ} {load : TraceRecord τ κ → TraceInfo → TraceInfo}

/-- The accesses that `n` reads deliver while `m` records are still to be read. -/
def accessesAt (read : TraceReader τ κ → TraceReader τ κ × Option TraceReaderResult) (m n : Nat)
    (r : TraceReader τ κ) : List TraceReaderResult :=
  (traceRun read n r).filterMap fun p => if p.1.file.length = m then p.2 else none

/-- `c` consecutive units from the one of `addr` on. -/
def TraceRecord.pages (rec : TraceRecord Float32 UInt32) (c : Nat) : List TraceReaderResult :=
  (List.range c).map fun i =>
    ⟨.ofNat (rec.addr.toNat - rec.addr.toNat % 8 + 8 * i), nexusFormat.isWrite rec.io⟩

/-- Of all the reads, those of the record before `post` deliver its own pages and end. -/
def NexusYields (r : TraceReader Float32 UInt32) (rec : TraceRecord Float32 UInt32)
    (post : List (TraceRecord Float32 UInt32)) : Prop :=
  ∃ c N, 0 < c ∧ c ≤ rec.size.toNat + 7 ∧
    ∀ n, N ≤ n → accessesAt nexusTraceRead post.length n r = rec.pages c

/-- Every record of non-zero size is expanded faithfully. -/
def NexusFaithful (r : TraceReader Float32 UInt32) : Prop :=
  ∀ pre rec post, r.file = pre ++ rec :: post → rec.size ≠ 0 → NexusYields r rec post

/-- Every record that counts fills a unit, and after a write there are only writes. -/
structure NexusRegular (recs : List (TraceRecord Float32 UInt32)) : Prop where
  whole : ∀ rec ∈ recs, rec.size ≠ 0 → 8 ≤ rec.size.toNat + rec.addr.toNat % 8
  writes : recs.Pairwise fun a b => a.size ≠ 0 → b.size ≠ 0 →
    nexusFormat.isWrite a.io → nexusFormat.isWrite b.io

/-- `NexusRegular` for a reader whose write flag is `write`. -/
def RegularFrom (write : Bool) (recs : List (TraceRecord Float32 UInt32)) : Prop :=
  NexusRegular recs ∧ ∀ rec ∈ recs, rec.size ≠ 0 → write → nexusFormat.isWrite rec.io

theorem regularFrom_cons_zero {write : Bool} {rec : TraceRecord Float32 UInt32}
    {recs : List (TraceRecord Float32 UInt32)} (h : rec.size = 0) :
    RegularFrom write (rec :: recs) ↔ RegularFrom write recs := by
  constructor
  · rintro ⟨⟨hwhole, hwrites⟩, hfrom⟩
    exact ⟨⟨fun r hr => hwhole r (List.mem_cons_of_mem _ hr), (List.pairwise_cons.mp hwrites).2⟩,
      fun r hr => hfrom r (List.mem_cons_of_mem _ hr)⟩
  · rintro ⟨⟨hwhole, hwrites⟩, hfrom⟩
    exact ⟨⟨List.forall_mem_cons.mpr ⟨fun hne => absurd h hne, hwhole⟩,
      List.pairwise_cons.mpr ⟨fun _ _ hne => absurd h hne, hwrites⟩⟩,
      List.forall_mem_cons.mpr ⟨fun hne => absurd h hne, hfrom⟩⟩

theorem regularFrom_cons {write : Bool} {rec : TraceRecord Float32 UInt32}
    {recs : List (TraceRecord Float32 UInt32)} (h : rec.size ≠ 0) :
    RegularFrom write (rec :: recs) ↔ 8 ≤ rec.size.toNat + rec.addr.toNat % 8 ∧
      (write → nexusFormat.isWrite rec.io) ∧
      RegularFrom (if nexusFormat.isWrite rec.io then true else write) recs := by
  constructor
  · rintro ⟨⟨hwhole, hwrites⟩, hfrom⟩
    obtain ⟨hhead, htail⟩ := List.pairwise_cons.mp hwrites
    refine ⟨hwhole rec List.mem_cons_self h, hfrom rec List.mem_cons_self h,
      ⟨fun r hr => hwhole r (List.mem_cons_of_mem _ hr), htail⟩, fun r hr hne hw => ?_⟩
    cases hrec : nexusFormat.isWrite rec.io with
    | true => exact hhead r hr h hne hrec
    | false =>
      rw [hrec] at hw
      exact hfrom r (List.mem_cons_of_mem _ hr) hne hw
  · rintro ⟨h8, hown, ⟨hwhole, hwrites⟩, hfrom⟩
    refine ⟨⟨List.forall_mem_cons.mpr ⟨fun _ => h8, hwhole⟩, List.pairwise_cons.mpr ⟨?_, hwrites⟩⟩,
      List.forall_mem_cons.mpr ⟨fun _ => hown, fun r hr hne hw => ?_⟩⟩
    · intro r hr _ hne hrec
      exact hfrom r hr hne (by rw [if_pos hrec])
    · exact hfrom r hr hne (by rw [if_pos (hown hw)])

/-- `i` units further on in the record being read. -/
def TraceReader.skip (r : TraceReader τ κ) (unit : UInt64) (i : Nat) : TraceReader τ κ :=
  { r with info := { r.info with
      addr := r.info.addr + unit * .ofNat i
      left := r.info.left - .ofNat i } }

theorem TraceReader.skip_zero (r : TraceReader τ κ) (unit : UInt64) : r.skip unit 0 = r := by
  simp [skip]

theorem TraceReader.skip_skip (r : TraceReader τ κ) (unit : UInt64) (i j : Nat) :
    (r.skip unit i).skip unit j = r.skip unit (i + j) := by
  simp only [skip, UInt64.ofNat_add, UInt64.mul_add, UInt64.add_assoc]
  congr 2
  rw [UInt64.sub_eq_add_neg, UInt64.sub_eq_add_neg, UInt64.sub_eq_add_neg, UInt64.add_assoc,
    UInt64.neg_add, UInt64.sub_eq_add_neg]

/-- As long as units are left, a read moves on by one. -/
theorem traceReadWith_left {r : TraceReader τ κ} (h : 0 < r.info.left) :
    traceReadWith fmt load r = (r.skip fmt.unit 1, some (r.skip fmt.unit 1).info.result) := by
  rw [traceReadWith, if_pos h]
  simp [TraceReader.skip, TraceInfo.advance]

/-- The next `k` reads of a record with `k` units left. -/
theorem traceRun_left {r : TraceReader τ κ} {k : Nat} (h : k ≤ r.info.left.toNat) (n : Nat) :
    traceRun (traceReadWith fmt load) (k + n) r =
      (List.range k).map (fun i =>
        (r.skip fmt.unit (i + 1), some (r.skip fmt.unit (i + 1)).info.result)) ++
      traceRun (traceReadWith fmt load) n (r.skip fmt.unit k) := by
  induction k generalizing r with
  | zero => simp [TraceReader.skip_zero]
  | succ k ih =>
    have hpos : 0 < r.info.left := UInt64.lt_iff_toNat_lt.mpr (Nat.lt_of_lt_of_le k.succ_pos h)
    have hleft : k ≤ (r.skip fmt.unit 1).info.left.toNat := by
      have hle : (1 : UInt64) ≤ r.info.left := UInt64.le_iff_toNat_le.mpr (Nat.le_of_add_left_le h)
      rw [TraceReader.skip, UInt64.ofNat_one, UInt64.toNat_sub_of_le _ _ hle]
      exact Nat.le_sub_of_add_le h
    rw [Nat.add_right_comm, traceRun, traceReadWith_left hpos, ih hleft, List.range_succ_eq_map]
    simp [TraceReader.skip_skip, Nat.add_comm 1]

theorem traceRun_mono (read : TraceReader τ κ → TraceReader τ κ × Option TraceReaderResult)
    {n m : Nat} (h : n ≤ m) (r : TraceReader τ κ) : traceRun read n r <+: traceRun read m r := by
  induction n generalizing m r with
  | zero => exact List.nil_prefix
  | succ n ih =>
    obtain ⟨m, rfl⟩ := Nat.exists_eq_add_of_lt h
    rw [traceRun, traceRun, List.prefix_cons_inj]
    exact ih (Nat.le_add_right n m) _

theorem traceScan_nil_or_lt {info info' : TraceInfo} {file file' : List (TraceRecord τ κ)}
    {found : Option (TraceRecord τ κ)} (h : traceScan info file = (info', file', found)) :
    (found = none ∧ file' = [] ∧ info'.left = info.left) ∨ file'.length < file.length := by
  induction file generalizing info with
  | nil =>
    obtain ⟨rfl, rfl, rfl⟩ := by simpa only [traceScan, Prod.mk.injEq] using h
    exact .inl ⟨rfl, rfl, rfl⟩
  | cons rec file ih =>
    rw [traceScan] at h
    split at h
    case isTrue =>
      rcases ih h with hnone | hlt
      · exact .inl hnone
      · exact .inr (hlt.trans (Nat.lt_succ_self _))
    case isFalse =>
      obtain ⟨-, rfl, -⟩ := by simpa only [Prod.mk.injEq] using h
      exact .inr (Nat.lt_succ_self _)

/-- A record is done when nothing is left of it: what a read delivers then is of a later one. -/
structure Done (m : Nat) (r : TraceReader τ κ) : Prop where
  le : r.file.length ≤ m
  left : r.file.length = m → r.info.left = 0

theorem Done.read {r : TraceReader τ κ} {m : Nat} (h : Done m r) :
    Done m (traceReadWith fmt load r).1 ∧
      ((traceReadWith fmt load r).1.file.length = m → (traceReadWith fmt load r).2 = none) := by
  unfold traceReadWith
  split
  case isTrue hpos =>
    have hne : r.file.length ≠ m := fun heq => UInt64.pos_iff_ne_zero.mp hpos (h.left heq)
    exact ⟨⟨h.le, fun heq => absurd heq hne⟩, fun heq => absurd heq hne⟩
  case isFalse hzero =>
    have hleft : r.info.left = 0 := by simpa [UInt64.pos_iff_ne_zero] using hzero
    rcases hscan : traceScan r.info r.file with ⟨info, file, found⟩
    rcases traceScan_nil_or_lt hscan with ⟨rfl, rfl, hinfo⟩ | hlt
    · exact ⟨⟨Nat.zero_le m, fun _ => hinfo.trans hleft⟩, fun _ => rfl⟩
    · have hne : file.length ≠ m := Nat.ne_of_lt (hlt.trans_le h.le)
      cases found with
      | none => exact ⟨⟨hlt.le.trans h.le, fun heq => absurd heq hne⟩, fun heq => absurd heq hne⟩
      | some rec =>
        exact ⟨⟨hlt.le.trans h.le, fun heq => absurd heq hne⟩, fun heq => absurd heq hne⟩

theorem Done.accessesAt_eq_nil {r : TraceReader τ κ} {m : Nat} (h : Done m r) (n : Nat) :
    accessesAt (traceReadWith fmt load) m n r = [] := by
  rw [accessesAt, List.filterMap_eq_nil_iff]
  induction n generalizing r with
  | zero => exact fun _ hp => absurd hp List.not_mem_nil
  | succ n ih =>
    obtain ⟨hdone, hnone⟩ : Done m (traceReadWith fmt load r).1 ∧ _ := h.read
    refine List.forall_mem_cons.mpr ⟨?_, ih hdone⟩
    exact ite_eq_right_iff.mpr hnone

/-- The reader right after `rec` is loaded. -/
def nexusLoaded (r : TraceReader Float32 UInt32) (rec : TraceRecord Float32 UInt32)
    (post : List (TraceRecord Float32 UInt32)) : TraceReader Float32 UInt32 :=
  { r with file := post, info := nexusLoad rec { r.info with addr := rec.addr } }

/-- A Nexus reader without a duration limit that has nothing left of the last record. -/
structure NexusReady (r : TraceReader Float32 UInt32) : Prop where
  unlimited : r.features.useDuration = false
  left : r.info.left = 0

variable {r : TraceReader Float32 UInt32} {rec : TraceRecord Float32 UInt32}
  {post : List (TraceRecord Float32 UInt32)}

theorem NexusReady.read (h : NexusReady r) (hfile : r.file = rec :: post) (hsize : rec.size ≠ 0) :
    nexusTraceRead r = (nexusLoaded r rec post, some (nexusLoaded r rec post).info.result) := by
  rw [nexusTraceRead, traceReadWith, h.left, if_neg (by decide), hfile, traceScan, if_neg hsize]
  simp only [checkDuration, h.unlimited, Bool.false_eq_true, if_false, nexusLoaded]

/-- The reads of one record, up to `k` units after the first. -/
theorem NexusReady.run (h : NexusReady r) (hfile : r.file = rec :: post) (hsize : rec.size ≠ 0)
    {k : Nat} (hk : k ≤ (nexusLoaded r rec post).info.left.toNat) (n : Nat) :
    traceRun nexusTraceRead (k + n + 1) r =
      (List.range (k + 1)).map (fun i => ((nexusLoaded r rec post).skip 8 i,
        some ((nexusLoaded r rec post).skip 8 i).info.result)) ++
      traceRun nexusTraceRead n ((nexusLoaded r rec post).skip 8 k) := by
  have hleft : traceRun (traceReadWith nexusFormat nexusLoad) (k + n) (nexusLoaded r rec post) =
      _ :=
    traceRun_left hk n
  rw [traceRun, h.read hfile hsize, nexusTraceRead, hleft, List.range_succ_eq_map, List.map_cons,
    List.map_map, TraceReader.skip_zero]
  rfl

/-- The accesses of one record carry consecutive units under the reader's write flag. -/
theorem nexusLoaded_result (i : Nat) : ((nexusLoaded r rec post).skip 8 i).info.result =
    ⟨.ofNat (rec.addr.toNat - rec.addr.toNat % 8 + 8 * i),
      if nexusFormat.isWrite rec.io then true else r.info.write⟩ := by
  have hunit := ofNat_unit rec.addr 8 i
  rw [show (8 : UInt64).toNat = 8 from rfl] at hunit
  rw [hunit]
  rfl

theorem nexusLoaded_left_whole (hfit : rec.addr.toNat + rec.size.toNat < 2 ^ 60)
    (h8 : 8 ≤ rec.size.toNat + rec.addr.toNat % 8) :
    (nexusLoaded r rec post).info.left.toNat + 1 =
      (rec.size.toNat + rec.addr.toNat % 8) / 8 := by
  have hdiv : ((rec.size + rec.addr % 8) / 8).toNat =
      (rec.size.toNat + rec.addr.toNat % 8) / 8 := by
    rw [UInt64.toNat_div, UInt64.toNat_add, UInt64.toNat_mod, show (8 : UInt64).toNat = 8 from rfl,
      Nat.mod_eq_of_lt (by omega)]
  have hle : (1 : UInt64) ≤ (rec.size + rec.addr % 8) / 8 := by
    rw [UInt64.le_iff_toNat_le, hdiv, UInt64.toNat_one]
    omega
  change ((rec.size + rec.addr % 8) / 8 - 1).toNat + 1 = _
  rw [UInt64.toNat_sub_of_le _ _ hle, hdiv, UInt64.toNat_one]
  omega

/-- Less than a unit: the count wraps. -/
theorem nexusLoaded_left_part (hsize : rec.size.toNat + rec.addr.toNat % 8 < 8) :
    (nexusLoaded r rec post).info.left.toNat = 2 ^ 64 - 1 := by
  have hdiv : (rec.size + rec.addr % 8) / 8 = 0 := by
    rw [← UInt64.toNat_inj, UInt64.toNat_div, UInt64.toNat_add, UInt64.toNat_mod,
      show (8 : UInt64).toNat = 8 from rfl, Nat.mod_eq_of_lt (by omega),
      Nat.div_eq_of_lt hsize]
    rfl
  change ((rec.size + rec.addr % 8) / 8 - 1).toNat = _
  rw [hdiv]
  rfl

theorem NexusReady.accesses_own (h : NexusReady r) (hfile : r.file = rec :: post)
    (hsize : rec.size ≠ 0) {k : Nat} (hk : k ≤ (nexusLoaded r rec post).info.left.toNat) (n : Nat) :
    accessesAt nexusTraceRead post.length (k + n + 1) r = (List.range (k + 1)).map (fun i =>
        ⟨.ofNat (rec.addr.toNat - rec.addr.toNat % 8 + 8 * i),
          if nexusFormat.isWrite rec.io then true else r.info.write⟩) ++
      accessesAt nexusTraceRead post.length n ((nexusLoaded r rec post).skip 8 k) := by
  rw [accessesAt, h.run hfile hsize hk, List.filterMap_append, List.filterMap_map]
  congr 1
  rw [← List.filterMap_eq_map]
  refine List.filterMap_congr fun i _ => ?_
  exact (if_pos rfl).trans (congrArg some (nexusLoaded_result i))

theorem NexusReady.accesses_later (h : NexusReady r) (hfile : r.file = rec :: post)
    (hsize : rec.size ≠ 0) {k m : Nat} (hk : k ≤ (nexusLoaded r rec post).info.left.toNat)
    (hm : post.length ≠ m) (n : Nat) : accessesAt nexusTraceRead m (k + n + 1) r =
      accessesAt nexusTraceRead m n ((nexusLoaded r rec post).skip 8 k) := by
  rw [accessesAt, h.run hfile hsize hk, List.filterMap_append, List.filterMap_map]
  refine (congrArg (· ++ _) (List.filterMap_eq_nil_iff.mpr fun i _ => ?_)).trans
    (List.nil_append _)
  exact if_neg hm

/-- The reader after the last access of `rec`. -/
def nexusNext (r : TraceReader Float32 UInt32) (rec : TraceRecord Float32 UInt32)
    (post : List (TraceRecord Float32 UInt32)) : TraceReader Float32 UInt32 :=
  (nexusLoaded r rec post).skip 8 (nexusLoaded r rec post).info.left.toNat

theorem NexusReady.next (h : NexusReady r) : NexusReady (nexusNext r rec post) :=
  ⟨h.unlimited, by simp [nexusNext, TraceReader.skip]⟩

/-- A record that fills a unit is expanded faithfully iff the write flag is not stale. -/
theorem NexusReady.yields_iff (h : NexusReady r) (hfile : r.file = rec :: post)
    (hsize : rec.size ≠ 0) (hfit : rec.addr.toNat + rec.size.toNat < 2 ^ 60)
    (h8 : 8 ≤ rec.size.toNat + rec.addr.toNat % 8) :
    NexusYields r rec post ↔ (r.info.write → nexusFormat.isWrite rec.io) := by
  have hcount : (nexusLoaded r rec post).info.left.toNat + 1 = _ := nexusLoaded_left_whole hfit h8
  have hdone : Done post.length (nexusNext r rec post) := ⟨Nat.le_refl _, fun _ => h.next.left⟩
  have hall : ∀ n, accessesAt nexusTraceRead post.length
      ((nexusLoaded r rec post).info.left.toNat + n + 1) r =
        (List.range ((nexusLoaded r rec post).info.left.toNat + 1)).map (fun i =>
          ⟨.ofNat (rec.addr.toNat - rec.addr.toNat % 8 + 8 * i),
            if nexusFormat.isWrite rec.io then true else r.info.write⟩) := by
    intro n
    rw [h.accesses_own hfile hsize (Nat.le_refl _), ← nexusNext, nexusTraceRead,
      hdone.accessesAt_eq_nil, List.append_nil]
  constructor
  · rintro ⟨c, N, hc, -, hpages⟩ hw
    have heq := hpages ((nexusLoaded r rec post).info.left.toNat + N + 1) (by omega)
    rw [hall, TraceRecord.pages, List.range_succ_eq_map] at heq
    obtain ⟨c, rfl⟩ := Nat.exists_eq_succ_of_ne_zero hc.ne'
    rw [Nat.succ_eq_add_one, List.range_succ_eq_map] at heq
    simp only [List.map_cons, List.cons.injEq, TraceReaderResult.mk.injEq, true_and, hw,
      ite_self] at heq
    exact heq.1.symm
  · intro hown
    refine ⟨(nexusLoaded r rec post).info.left.toNat + 1,
      (nexusLoaded r rec post).info.left.toNat + 1, Nat.succ_pos _, by omega, fun n hn => ?_⟩
    obtain ⟨n, rfl⟩ := Nat.exists_eq_add_of_le hn
    rw [Nat.add_right_comm, hall, TraceRecord.pages]
    cases hrec : nexusFormat.isWrite rec.io with
    | true => rfl
    | false =>
      have hw : r.info.write = false := by
        by_contra hw
        exact absurd (hown (by simpa using hw)) (by simp [hrec])
      rw [hw]
      rfl

/-- A record of less than a unit delivers more accesses than it has blocks. -/
theorem NexusReady.not_yields (h : NexusReady r) (hfile : r.file = rec :: post)
    (hsize : rec.size ≠ 0) (h8 : rec.size.toNat + rec.addr.toNat % 8 < 8) :
    ¬ NexusYields r rec post := by
  rintro ⟨c, N, -, hc, hpages⟩
  have hleft : (nexusLoaded r rec post).info.left.toNat = _ := nexusLoaded_left_part h8
  have hown := h.accesses_own hfile hsize (k := rec.size.toNat + 7) (by omega) 0
  have hprefix : accessesAt nexusTraceRead post.length (rec.size.toNat + 7 + 0 + 1) r <+:
      accessesAt nexusTraceRead post.length (N + (rec.size.toNat + 8)) r :=
    (traceRun_mono _ (by omega) r).filterMap _
  rw [hown, hpages _ (Nat.le_add_right _ _)] at hprefix
  have hlen := hprefix.length_le
  simp only [List.length_append, List.length_map, List.length_range, TraceRecord.pages] at hlen
  omega

theorem length_ne_of_split {pre post post' : List (TraceRecord τ κ)} {rec : TraceRecord τ κ}
    (h : post = pre ++ rec :: post') : post.length ≠ post'.length := by
  rw [h, List.length_append, List.length_cons]
  omega

/-- The records after `rec` are expanded by the reader that `rec` leaves behind. -/
theorem NexusReady.faithful_cons (h : NexusReady r) (hfile : r.file = rec :: post)
    (hsize : rec.size ≠ 0) :
    NexusFaithful r ↔ NexusYields r rec post ∧ NexusFaithful (nexusNext r rec post) := by
  have hlater : ∀ m, post.length ≠ m → ∀ n, accessesAt nexusTraceRead m
      ((nexusLoaded r rec post).info.left.toNat + n + 1) r =
        accessesAt nexusTraceRead m n (nexusNext r rec post) :=
    fun m hm n => h.accesses_later hfile hsize (Nat.le_refl _) hm n
  constructor
  · intro hall
    refine ⟨hall [] rec post hfile hsize, fun pre rec' post' hpost hsize' => ?_⟩
    have hne : post.length ≠ post'.length := length_ne_of_split hpost
    obtain ⟨c, N, hc, hle, hpages⟩ := hall (rec :: pre) rec' post'
      (by rw [hfile, show post = pre ++ rec' :: post' from hpost]; rfl) hsize'
    refine ⟨c, N, hc, hle, fun n hn => ?_⟩
    rw [← hlater _ hne]
    exact hpages _ (by omega)
  · rintro ⟨hfirst, hrest⟩ pre rec' post' hsplit hsize'
    rw [hfile] at hsplit
    cases pre with
    | nil =>
      obtain ⟨rfl, rfl⟩ := by simpa using hsplit
      exact hfirst
    | cons _ pre =>
      obtain ⟨rfl, hpost⟩ := by simpa using hsplit
      have hne : post.length ≠ post'.length := length_ne_of_split hpost
      obtain ⟨c, N, hc, hle, hpages⟩ := hrest pre rec' post' hpost hsize'
      refine ⟨c, (nexusLoaded r rec post).info.left.toNat + N + 1, hc, hle, fun n hn => ?_⟩
      obtain ⟨n, rfl⟩ := Nat.exists_eq_add_of_le hn
      rw [show (nexusLoaded r rec post).info.left.toNat + N + 1 + n =
        (nexusLoaded r rec post).info.left.toNat + (N + n) + 1 by omega, hlater _ hne]
      exact hpages _ (Nat.le_add_right _ _)

/-- A record of size 0 is passed over. -/
theorem NexusReady.faithful_cons_zero (h : NexusReady r) (hfile : r.file = rec :: post)
    (hsize : rec.size = 0) : NexusFaithful r ↔
      NexusFaithful { r with file := post, info := { r.info with addr := rec.addr } } := by
  have hread : nexusTraceRead r =
      nexusTraceRead { r with file := post, info := { r.info with addr := rec.addr } } := by
    rw [nexusTraceRead, traceReadWith, traceReadWith, h.left, if_neg (by decide),
      if_neg (by decide), hfile, traceScan, if_pos hsize]
  have hrun : ∀ m n, accessesAt nexusTraceRead m n r = accessesAt nexusTraceRead m n
      { r with file := post, info := { r.info with addr := rec.addr } } := by
    intro m n
    cases n with
    | zero => rfl
    | succ n => rw [accessesAt, accessesAt, traceRun, traceRun, hread]
  have hyields : ∀ rec' post', NexusYields r rec' post' ↔ NexusYields
      { r with file := post, info := { r.info with addr := rec.addr } } rec' post' := by
    intro rec' post'
    simp only [NexusYields, hrun]
  constructor
  · intro hall pre rec' post' hpost hsize'
    refine (hyields _ _).mp (hall (rec :: pre) rec' post' ?_ hsize')
    rw [hfile, show post = pre ++ rec' :: post' from hpost, List.cons_append]
  · intro hall pre rec' post' hsplit hsize'
    rw [hfile] at hsplit
    cases pre with
    | nil =>
      obtain ⟨rfl, rfl⟩ := by simpa using hsplit
      exact absurd hsize hsize'
    | cons _ pre =>
      obtain ⟨rfl, hpost⟩ := by simpa using hsplit
      exact (hyields _ _).mpr (hall pre rec' post' hpost hsize')

theorem NexusReady.faithful_iff (h : NexusReady r)
    (hfit : ∀ rec ∈ r.file, rec.addr.toNat + rec.size.toNat < 2 ^ 60) :
    NexusFaithful r ↔ RegularFrom r.info.write r.file := by
  induction hfile : r.file generalizing r with
  | nil =>
    refine iff_of_true (fun pre rec post hsplit => ?_)
      ⟨⟨fun _ hm => absurd hm List.not_mem_nil, .nil⟩, fun _ hm => absurd hm List.not_mem_nil⟩
    rw [hfile] at hsplit
    exact absurd hsplit (by simp)
  | cons rec post ih =>
    rw [hfile] at hfit
    obtain ⟨hfirst, hrest⟩ := List.forall_mem_cons.mp hfit
    by_cases hsize : rec.size = 0
    · rw [h.faithful_cons_zero hfile hsize, regularFrom_cons_zero hsize]
      exact ih ⟨h.unlimited, h.left⟩ hrest rfl
    · rw [h.faithful_cons hfile hsize, regularFrom_cons hsize, ih h.next hrest rfl]
      by_cases h8 : 8 ≤ rec.size.toNat + rec.addr.toNat % 8
      · rw [h.yields_iff hfile hsize hfirst h8]
        exact ⟨fun hall => ⟨h8, hall⟩, fun hall => hall.2⟩
      · have hnot := h.not_yields hfile hsize (Nat.lt_of_not_le h8)
        exact iff_of_false (fun hall => hnot hall.1) (fun hall => h8 hall.1)

/-- A Nexus trace is expanded faithfully iff every record that counts fills a unit and no record
after a write is a read. -/
theorem nexus_faithful (recs : List (TraceRecord Float32 UInt32))
    (hfit : ∀ rec ∈ recs, rec.addr.toNat + rec.size.toNat < 2 ^ 60) :
    NexusFaithful (traceInit {} recs 0) ↔ NexusRegular recs := by
  have hready : NexusReady (traceInit {} recs 0) := ⟨rfl, rfl⟩
  rw [hready.faithful_iff hfit]
  exact ⟨fun h => h.1, fun h => ⟨h, fun _ _ _ hw => absurd hw Bool.false_ne_true⟩⟩

/-- Two whole pages read, then one written. -/
theorem nexus_faithful_pages :
    NexusFaithful (traceInit {} [⟨0, 3, 16, 1⟩, ⟨0, 64, 8, 5⟩] 0) :=
  (nexus_faithful [⟨0, 3, 16, 1⟩, ⟨0, 64, 8, 5⟩] (by simp)).mpr
    ⟨by simp, by simp [nexusFormat]⟩

/-- A read after a write is reported as a write. -/
theorem nexus_faithful_stale : ¬ ∀ recs : List (TraceRecord Float32 UInt32),
    (∀ rec ∈ recs, rec.addr.toNat + rec.size.toNat < 2 ^ 60) →
      NexusFaithful (traceInit {} recs 0) := by
  intro hall
  have hready : NexusReady (traceInit {} [⟨0, 0, 8, 5⟩, ⟨0, 64, 8, 1⟩] 0) := ⟨rfl, rfl⟩
  have hfit : ∀ rec ∈ [(⟨0, 0, 8, 5⟩ : TraceRecord Float32 UInt32), ⟨0, 64, 8, 1⟩],
      rec.addr.toNat + rec.size.toNat < 2 ^ 60 := by simp
  have hregular := (hready.faithful_iff hfit).mp (hall _ hfit)
  have hwrites := List.pairwise_cons.mp hregular.1.writes
  have hread := hwrites.1 ⟨0, 64, 8, 1⟩ List.mem_cons_self (by decide) (by decide)
  simp [nexusFormat] at hread

end Fomo
