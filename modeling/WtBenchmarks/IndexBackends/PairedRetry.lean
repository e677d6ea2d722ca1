/-
The result line of the YCSB-D index-backend campaign (`ResultRecord`, `campaigns/ycsb-index-backends/src/main.rs`) and
the record the paired-retry analyzer reads it as (`Record`, `src/bin/analyze-paired-ycsb-retry.rs`).

- `agrees_with_flag`: with a `stable_index_read_retry` field added, a line reads back as the same numbers, but for the
  throughput, which is what the parser reads the printed one as.
- `paired_retry_unreadable`: without it, which is what the campaign writes, no line is read at all.
-/
import WtBenchmarks.Core.Json

namespace WtBenchmarks.IndexBackends

open Json

/-! ## Model -/

/-- `LatencySummary` -/
structure LatencySummary where
  samples : UInt64
  p50Ns : Option UInt64
  p95Ns : Option UInt64
  p99Ns : Option UInt64
  p999Ns : Option UInt64
  maxNs : Option UInt64

def LatencySummary.toJson (l : LatencySummary) : Json := .obj [
  ("samples", ofU64 l.samples),
  ("p50_ns", ofOption ofU64 l.p50Ns),
  ("p95_ns", ofOption ofU64 l.p95Ns),
  ("p99_ns", ofOption ofU64 l.p99Ns),
  ("p999_ns", ofOption ofU64 l.p999Ns),
  ("max_ns", ofOption ofU64 l.maxNs)]

structure ResultRecord where
  schemaVersion : UInt32
  suite : String
  backend : String
  repetition : UInt64
  campaignPair : Option UInt64
  recordsInitial : UInt64
  operations : UInt64
  threads : UInt64
  inserts : UInt64
  firstReadMisses : UInt64
  retryRecovered : UInt64
  finalReadErrors : UInt64
  insertErrors : UInt64
  /-- a `u128` -/
  elapsedNs : ℕ
  /-- the bits of an `f64` -/
  opsPerSecond : UInt64
  readLatency : LatencySummary
  insertLatency : LatencySummary
  immediateRetryOnMiss : Bool
  acknowledgedInsertFrontier : Bool
  specializedStableIndexReads : Bool
  persistence : Bool
  targetArch : String
  targetOs : String

namespace ResultRecord

def fields (r : ResultRecord) : List (String × Json) := [
  ("schema_version", .nat r.schemaVersion.toNat),
  ("suite", .str r.suite),
  ("backend", .str r.backend),
  ("repetition", ofU64 r.repetition),
  ("campaign_pair", ofOption ofU64 r.campaignPair),
  ("records_initial", ofU64 r.recordsInitial),
  ("operations", ofU64 r.operations),
  ("threads", ofU64 r.threads),
  ("inserts", ofU64 r.inserts),
  ("first_read_misses", ofU64 r.firstReadMisses),
  ("retry_recovered", ofU64 r.retryRecovered),
  ("final_read_errors", ofU64 r.finalReadErrors),
  ("insert_errors", ofU64 r.insertErrors),
  ("elapsed_ns", .nat r.elapsedNs),
  ("ops_per_second", ofFloat r.opsPerSecond),
  ("read_latency", r.readLatency.toJson),
  ("insert_latency", r.insertLatency.toJson),
  ("immediate_retry_on_miss", .bool r.immediateRetryOnMiss),
  ("acknowledged_insert_frontier", .bool r.acknowledgedInsertFrontier),
  ("specialized_stable_index_reads", .bool r.specializedStableIndexReads),
  ("persistence", .bool r.persistence),
  ("target_arch", .str r.targetArch),
  ("target_os", .str r.targetOs)]

def toJson (r : ResultRecord) : Json := .obj r.fields

end ResultRecord

/-- the analyzer's `Latency` -/
structure Latency where
  p50Ns : Option UInt64
  p99Ns : Option UInt64

def Latency.fromJson : Json → Option Latency
  | .obj fields => do
    let p50Ns ← optionalField fields "p50_ns" asU64
    let p99Ns ← optionalField fields "p99_ns" asU64
    some ⟨p50Ns, p99Ns⟩
  | _ => none

/-- the analyzer's `Record` -/
structure Record where
  backend : String
  campaignPair : Option UInt64
  operations : UInt64
  firstReadMisses : UInt64
  retryRecovered : UInt64
  finalReadErrors : UInt64
  insertErrors : UInt64
  opsPerSecond : UInt64
  readLatency : Latency
  stableIndexReadRetry : Bool

def Record.fromJson (parse : UInt64 → UInt64) : Json → Option Record
  | .obj fields => do
    let backend ← requiredField fields "backend" asString
    let campaignPair ← optionalField fields "campaign_pair" asU64
    let operations ← requiredField fields "operations" asU64
    let firstReadMisses ← requiredField fields "first_read_misses" asU64
    let retryRecovered ← requiredField fields "retry_recovered" asU64
    let finalReadErrors ← requiredField fields "final_read_errors" asU64
    let insertErrors ← requiredField fields "insert_errors" asU64
    let opsPerSecond ← requiredField fields "ops_per_second" (asF64 parse)
    let readLatency ← requiredField fields "read_latency" Latency.fromJson
    let stableIndexReadRetry ← requiredField fields "stable_index_read_retry" asBool
    some ⟨backend, campaignPair, operations, firstReadMisses, retryRecovered, finalReadErrors, insertErrors,
      opsPerSecond, readLatency, stableIndexReadRetry⟩
  | _ => none

/-! ## The shared fields -/

/-- the numbers the analyzer is to find again -/
structure Agrees (r : ResultRecord) (record : Record) : Prop where
  backend : record.backend = r.backend
  campaignPair : record.campaignPair = r.campaignPair
  operations : record.operations = r.operations
  firstReadMisses : record.firstReadMisses = r.firstReadMisses
  retryRecovered : record.retryRecovered = r.retryRecovered
  finalReadErrors : record.finalReadErrors = r.finalReadErrors
  insertErrors : record.insertErrors = r.insertErrors
  opsPerSecond : record.opsPerSecond = r.opsPerSecond
  p50Ns : record.readLatency.p50Ns = r.readLatency.p50Ns
  p99Ns : record.readLatency.p99Ns = r.readLatency.p99Ns

theorem asOption_u64 (o : Option UInt64) : asOption asU64 (ofOption ofU64 o) = some o :=
  asOption_ofOption asU64 ofU64 (fun _ h => by cases h) asU64_ofU64 o

theorem latency_fromJson (l : LatencySummary) : Latency.fromJson l.toJson = some ⟨l.p50Ns, l.p99Ns⟩ := by
  simp [Latency.fromJson, LatencySummary.toJson, optionalField, values, asOption_u64]

/-- with the field the analyzer sorts by, a line with a finite throughput reads back, the throughput as it is parsed -/
theorem agrees_with_flag (parse : UInt64 → UInt64) (r : ResultRecord) (flag : Bool)
    (hfin : finite r.opsPerSecond = true) :
    ∃ record, Record.fromJson parse (.obj (r.fields ++ [("stable_index_read_retry", .bool flag)])) = some record ∧
      Agrees { r with opsPerSecond := parse r.opsPerSecond } record ∧ record.stableIndexReadRetry = flag := by
  refine ⟨⟨r.backend, r.campaignPair, r.operations, r.firstReadMisses, r.retryRecovered, r.finalReadErrors,
    r.insertErrors, parse r.opsPerSecond, ⟨r.readLatency.p50Ns, r.readLatency.p99Ns⟩, flag⟩, ?_,
    by constructor <;> rfl, rfl⟩
  simp [Record.fromJson, ResultRecord.fields, requiredField, optionalField, values, asOption_u64, asString, asU64_ofU64,
    asF64_ofFloat parse hfin, latency_fromJson, asBool]

/-! ## What the campaign writes -/

/-- the campaign writes no such field -/
theorem flag_missing (r : ResultRecord) : values r.fields "stable_index_read_retry" = [] := by
  simp [values, ResultRecord.fields]

theorem fromJson_missing (parse : UInt64 → UInt64) (r : ResultRecord) : Record.fromJson parse r.toJson = none := by
  simp [Record.fromJson, ResultRecord.toJson, required_missing asBool (flag_missing r)]

/-- the analyzer reads the emitted line, and reads the same numbers -/
def ReadsBack (parse : UInt64 → UInt64) (r : ResultRecord) : Prop :=
  ∃ record, Record.fromJson parse r.toJson = some record ∧ Agrees r record

/-- **The analyzer reads no line of the campaign.** The field it sorts the pairs by is in no emitted line, whatever the
counters, the latencies and the pair, and however floats are parsed. -/
theorem paired_retry_unreadable : ∀ (parse : UInt64 → UInt64) (r : ResultRecord), ¬ ReadsBack parse r := by
  rintro parse r ⟨record, hrecord, -⟩
  rw [fromJson_missing] at hrecord
  cases hrecord

/-- a line of the first repetition of a paired campaign: a thousand operations in a second -/
def pairedLine : ResultRecord where
  schemaVersion := 1
  suite := "ycsb-d-index-backends"
  backend := "worktables_index"
  repetition := 1
  campaignPair := some 1
  recordsInitial := 100
  operations := 1000
  threads := 2
  inserts := 50
  firstReadMisses := 0
  retryRecovered := 0
  finalReadErrors := 0
  insertErrors := 0
  elapsedNs := 1000000000
  opsPerSecond := 0x408f400000000000
  readLatency := ⟨4, some 100, some 200, some 300, some 300, some 300⟩
  insertLatency := ⟨0, none, none, none, none, none⟩
  immediateRetryOnMiss := true
  acknowledgedInsertFrontier := true
  specializedStableIndexReads := true
  persistence := false
  targetArch := "x86_64"
  targetOs := "linux"

theorem pairedLine_unreadable : ¬ ReadsBack id pairedLine := by
  rintro ⟨record, hrecord, -⟩
  rw [fromJson_missing] at hrecord
  cases hrecord

end WtBenchmarks.IndexBackends
