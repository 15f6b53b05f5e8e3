import Fomo.Include.Common

/-!
# Trace readers

A trace file is the sequence of records `fscanf` still delivers from it: what the formats
differ in is kept as a parameter, so that the FIU, MSR and VISA readers are one function at
their own values. `block_t` and `oblock_t` are 64-bit words.
-/
namespace Fomo

/-- One line of a trace: time stamp, address, size and access type. -/
structure TraceRecord (τ κ : Type) where
  ts : τ
  addr : Oblock
  size : UInt64
  io : κ

/-- A trace entry (`struct trace_reader_result`). -/
structure TraceReaderResult where
  oblock : Oblock
  write : Bool
deriving DecidableEq

/-- `struct trace_reader_features` -/
structure TraceReaderFeatures where
  useDuration : Bool := false
  durationHrs : UInt32 := 0

/-- What a reader keeps between two reads (`struct fiu_struct` and its like); `left` is
`pages_left`, or `blocks_left` for MSR. -/
structure TraceInfo where
  addr : Oblock := 0
  write : Bool := false
  left : UInt64 := 0
  startingTimeSet : Bool := false
  startingTime : UInt64 := 0
  endingTime : UInt64 := 0

structure TraceReader (τ κ : Type) where
  features : TraceReaderFeatures := {}
  file : List (TraceRecord τ κ)
  info : TraceInfo := {}

/-- How one format states accesses and time. -/
structure TraceFormat (τ κ : Type) where
  unit : UInt64
  isWrite : κ → Bool
  starting : τ → UInt64
  ending : τ → UInt32 → UInt64
  after : τ → UInt64 → Bool

variable {τ κ : Type}

/-- `init`: the position in a former record is not reset. -/
def traceInit (info : TraceInfo) (file : List (TraceRecord τ κ)) (durationHrs : UInt32) :
    TraceReader τ κ where
  features := if 0 < durationHrs then ⟨true, durationHrs⟩ else ⟨false, 0⟩
  file := file
  info := { info with startingTimeSet := false }

/-- `while (size == 0)`: every record read overwrites the address. -/
def traceScan (info : TraceInfo) :
    List (TraceRecord τ κ) → TraceInfo × List (TraceRecord τ κ) × Option (TraceRecord τ κ)
  | [] => (info, [], none)
  | rec :: file =>
    if rec.size = 0 then traceScan { info with addr := rec.addr } file
    else ({ info with addr := rec.addr }, file, some rec)

/-- The duration feature: `true` says that the record lies past the end. -/
def checkDuration (fmt : TraceFormat τ κ) (features : TraceReaderFeatures) (ts : τ)
    (info : TraceInfo) : TraceInfo × Bool :=
  if features.useDuration then
    let info := if info.startingTimeSet then info else
      { info with
        startingTime := fmt.starting ts
        endingTime := fmt.ending ts features.durationHrs
        startingTimeSet := true }
    (info, fmt.after ts info.endingTime)
  else (info, false)

/-- The next unit of the record being read. -/
def TraceInfo.advance (info : TraceInfo) (unit : UInt64) : TraceInfo :=
  { info with addr := info.addr + unit, left := info.left - 1 }

/-- The record just read, aligned to units; a last unit that is met in part counts. -/
def TraceInfo.load (fmt : TraceFormat τ κ) (rec : TraceRecord τ κ) (info : TraceInfo) :
    TraceInfo :=
  let align := info.addr % fmt.unit
  let size := rec.size + align
  let left := size / fmt.unit - 1
  { info with
    addr := info.addr - align
    write := fmt.isWrite rec.io
    left := if size % fmt.unit ≠ 0 then left + 1 else left }

def TraceInfo.result (info : TraceInfo) : TraceReaderResult := ⟨info.addr, info.write⟩

/-- `read` with the loading of a record as a parameter; `none` is the return value 1. -/
def traceReadWith (fmt : TraceFormat τ κ) (load : TraceRecord τ κ → TraceInfo → TraceInfo)
    (r : TraceReader τ κ) : TraceReader τ κ × Option TraceReaderResult :=
  if 0 < r.info.left then
    let info := r.info.advance fmt.unit
    ({ r with info := info }, some info.result)
  else
    match traceScan r.info r.file with
    | (info, file, none) => ({ r with file := file, info := info }, none)
    | (info, file, some rec) =>
      let (info, past) := checkDuration fmt r.features rec.ts (load rec info)
      ({ r with file := file, info := info }, if past then none else some info.result)

def traceRead (fmt : TraceFormat τ κ) (r : TraceReader τ κ) :
    TraceReader τ κ × Option TraceReaderResult :=
  traceReadWith fmt (TraceInfo.load fmt) r

def fiuFormat : TraceFormat UInt64 (List Char) where
  unit := 8
  isWrite io := io.head? = some 'W'
  starting ts := ts
  ending ts hrs := ts + 3600000000000 * hrs.toUInt64
  after ts ending := ending < ts

def fiuTraceRead := traceRead fiuFormat

/-- MSR keeps the first character of the type only (`%c%*[^,]`). -/
def msrFormat : TraceFormat UInt64 (List Char) where
  unit := 512
  isWrite io := io.head? = some 'W'
  starting ts := ts
  ending ts hrs := ts + 36000000000 * hrs.toUInt64
  after ts ending := ending < ts

def msrTraceRead := traceRead msrFormat

/-- VISA has its time stamps in seconds, as a `float`. -/
def visaFormat : TraceFormat Float32 (List Char) where
  unit := 8
  isWrite io := io.head? = some 'W'
  starting ts := ts.toUInt64
  ending ts hrs := (ts + (3600 * hrs.toUInt64).toFloat32).toUInt64
  after ts ending := ending.toFloat32 < ts

def visaTraceRead := traceRead visaFormat

/-- The states and results of successive reads. -/
def traceRun {ρ : Type} (read : ρ → ρ × Option TraceReaderResult) :
    Nat → ρ → List (ρ × Option TraceReaderResult)
  | 0, _ => []
  | n + 1, r => read r :: traceRun read n (read r).1

end Fomo
