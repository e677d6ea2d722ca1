/-
The storage footprint programs (`campaigns/footprint/src`): the data they share, and the load, churn and verification
steps of the three binaries.

The engines are maps. WorkTable and SQLite keep typed rows with an index on the account; redb keeps encoded rows and an
index the program maintains by hand. Draining, vacuuming, compacting and opening again leave a map as it is. A failure
is an arithmetic panic, an error of the engine, or the message of a verification step. Reports of file sizes are left
out.
-/
import WtBenchmarks.Core.Bytes
import WtBenchmarks.Core.GroupTable
import WtBenchmarks.Core.Word

namespace WtBenchmarks.Footprint

/-! ## Shared data -/

structure StorageConfig where
  rows : UInt64
  payloadBytes : ℕ
  drainEvery : UInt64

/-- the checks of `parse` that concern numbers -/
def StorageConfig.validate (config : StorageConfig) : Except String Unit :=
  if config.rows = 0 then .error "--rows must be greater than zero"
  else if config.drainEvery = 0 then .error "--drain-every must be greater than zero"
  else .ok ()

/-- the byte a payload consists of -/
def marker (seed : UInt64) : UInt8 := 97 + (seed % 26).toUInt8

/-- a payload string, as its bytes -/
def payload (id : UInt64) (bytes : ℕ) : List UInt8 := List.replicate bytes (marker id)

/-- `id as f64 / 100.0` -/
def score (id : UInt64) : Float := id.toFloat / 100.0

def encodedRowWithPayloadSeed (id payloadSeed : UInt64) (payloadBytes : ℕ) : List UInt8 :=
  leBytes 8 id.toNat ++ (leBytes 8 (id % 10000).toNat ++ (leBytes 8 (id * 17).toNat ++
    (leBytes 8 (score id).toBits.toNat ++ List.replicate payloadBytes (marker payloadSeed))))

def encodedRow (id : UInt64) (payloadBytes : ℕ) : List UInt8 := encodedRowWithPayloadSeed id id payloadBytes

/-- `u64::from_le_bytes(encoded[i..i + 8])` -/
def wordAt (encoded : List UInt8) (i : ℕ) : Option UInt64 :=
  (slice encoded i (i + 8)).map fun bytes => UInt64.ofNat (leValue bytes)

/-- `FIXED_LOGICAL_BYTES_PER_ROW` -/
def fixedBytes : ℕ := 32

def encodedChecksum (encoded : List UInt8) : Option UInt64 := do
  let id ← wordAt encoded 0
  let accountId ← wordAt encoded 8
  let sequence ← wordAt encoded 16
  let scoreBits ← wordAt encoded 24
  some (id ^^^ accountId ^^^ sequence ^^^ scoreBits ^^^ UInt64.ofNat (encoded.length - fixedBytes))

def liveRowsAfterChurn (rows : UInt64) : UInt64 := rows - divCeil rows 4

/-! ## Runs -/

inductive Fault where
  | panic
  | engine
  | mismatch (message : String)
deriving DecidableEq, Repr

abbrev Run (α : Type) := Except Fault α

def orPanic {α : Type} : Option α → Run α
  | some a => .ok a
  | none => .error .panic

/-- a verification step -/
def verify (ok : Prop) [Decidable ok] (message : String) : Run Unit :=
  if ok then .ok () else .error (.mismatch message)

/-- what a program stored after its two loops -/
structure Stages (T : Type) where
  loaded : T
  churned : T

/-- a map that is vacuumed or compacted, closed, and opened again -/
def reopened {T : Type} (table : T) : T := table

/-! ## WorkTable -/

namespace Worktable

/-- `StorageFootprintRow` -/
structure Row where
  id : UInt64
  accountId : UInt64
  sequence : UInt64
  score : Float
  payload : List UInt8

abbrev Table := GroupTable UInt64 UInt64 Row Row.accountId

def insert (table : Table) (row : Row) : Run Table :=
  if h : row.id ∈ table.rows then .error .engine else .ok (table.insertNew row.id row h)

def delete (table : Table) (id : UInt64) : Run Table :=
  if id ∈ table.rows then .ok (table.erase id) else .error .engine

def updateSetPayload (table : Table) (id : UInt64) (payload : List UInt8) : Run Table :=
  if id ∈ table.rows then .ok (table.modify id (fun row => { row with payload := payload }) fun _ => rfl)
  else .error .engine

/-- waits for the persistence of all operations made so far -/
def drain (table : Table) : Run Table := .ok table

def drainAfter (config : StorageConfig) (table : Table) (id : UInt64) : Run Table := do
  let next ← orPanic (checkedAdd id 1)
  let rest ← orPanic (checkedMod next config.drainEvery)
  if rest = 0 then drain table else .ok table

def loadTurn (config : StorageConfig) (table : Table) (i : ℕ) : Run Table := do
  let id := UInt64.ofNat i
  let table ← insert table ⟨id, id % 10000, id * 17, score id, Footprint.payload id config.payloadBytes⟩
  drainAfter config table id

def churnTurn (config : StorageConfig) (table : Table) (i : ℕ) : Run Table := do
  let id := UInt64.ofNat i
  let table ←
    if id % 4 = 0 then delete table id
    else if id % 4 = 1 then updateSetPayload table id (Footprint.payload (id + 1000000) config.payloadBytes)
    else .ok table
  drainAfter config table id

def count (table : Table) : UInt64 := UInt64.ofNat table.rows.size

/-- the checks after the table was opened again -/
def verifyReloaded (table : Table) (config : StorageConfig) (expected : UInt64) : Run Unit := do
  verify (count table = expected) "WorkTable row count mismatch after reload"
  verify ((0 : UInt64) ∉ table.rows) "WorkTable reload resurrected a deleted row"
  if 1 < config.rows then
    match table.rows[(1 : UInt64)]? with
    | none => .error (.mismatch "WorkTable reload lost an expected row")
    | some row =>
      verify (row.payload = Footprint.payload 1000001 config.payloadBytes)
        "WorkTable reload returned the wrong updated payload"
      verify ((table.selectByGroup 1).any fun candidate => candidate.id == 1)
        "WorkTable reload lost a secondary-index entry"
  else .ok ()

def main (config : StorageConfig) : Run (Stages Table) := do
  let loaded ← (List.range config.rows.toNat).foldlM (loadTurn config) (GroupTable.empty _)
  let loaded ← drain loaded
  verify (count loaded = config.rows) "WorkTable row count mismatch after load"
  let churned ← (List.range config.rows.toNat).foldlM (churnTurn config) loaded
  let churned ← drain churned
  let expected := liveRowsAfterChurn config.rows
  verify (count churned = expected) "WorkTable row count mismatch after churn"
  let reloaded := reopened churned
  verifyReloaded reloaded config expected
  .ok ⟨loaded, reloaded⟩

end Worktable

/-! ## SQLite -/

namespace Sqlite

/-- a row of `footprint` -/
structure Row where
  id : Int64
  accountId : Int64
  sequence : Int64
  score : Float
  payload : List UInt8

abbrev Table := GroupTable Int64 Int64 Row Row.accountId

def insert (table : Table) (row : Row) : Run Table :=
  if h : row.id ∈ table.rows then .error .engine else .ok (table.insertNew row.id row h)

def loadTurn (config : StorageConfig) (table : Table) (i : ℕ) : Run Table :=
  let id := UInt64.ofNat i
  insert table ⟨id.toInt64, (id % 10000).toInt64, (id * 17).toInt64, score id, Footprint.payload id config.payloadBytes⟩

/-- statements on an absent row change nothing -/
def churnTurn (config : StorageConfig) (table : Table) (i : ℕ) : Run Table :=
  let id := UInt64.ofNat i
  if id % 4 = 0 then .ok (table.erase id.toInt64)
  else if id % 4 = 1 then .ok (table.modify id.toInt64
    (fun row => { row with payload := Footprint.payload (id + 1000000) config.payloadBytes }) fun _ => rfl)
  else .ok table

def verifyState (table : Table) (config : StorageConfig) (expected : UInt64) : Run Unit := do
  let count := Int64.ofNat table.rows.size
  verify (count.toUInt64 = expected) s!"SQLite row count mismatch: expected {expected}, got {count}"
  verify ((0 : Int64) ∉ table.rows) "SQLite resurrected a deleted row"
  if 1 < config.rows then
    match table.rows[(1 : Int64)]?.filter fun row => row.accountId = 1 with
    | none => .error .engine
    | some row =>
      verify (row.payload = Footprint.payload 1000001 config.payloadBytes) "SQLite returned the wrong updated payload"
  else .ok ()

def main (config : StorageConfig) : Run (Stages Table) := do
  let loaded ← (List.range config.rows.toNat).foldlM (loadTurn config) (GroupTable.empty _)
  let churned ← (List.range config.rows.toNat).foldlM (churnTurn config) loaded
  let expected := liveRowsAfterChurn config.rows
  verifyState churned config expected
  verifyState (reopened churned) config expected
  verifyState (reopened (reopened churned)) config expected
  .ok ⟨loaded, reopened (reopened churned)⟩

end Sqlite

/-! ## redb -/

namespace Redb

/-- `ROWS` and `ACCOUNT_INDEX` -/
structure Table where
  rows : Std.ExtTreeMap UInt64 (List UInt8)
  index : Finset (UInt64 × UInt64)

def Table.empty : Table := ⟨∅, ∅⟩

def loadTurn (config : StorageConfig) (table : Table) (i : ℕ) : Run Table :=
  let id := UInt64.ofNat i
  .ok ⟨table.rows.insert id (encodedRow id config.payloadBytes), insert (id % 10000, id) table.index⟩

def churnTurn (config : StorageConfig) (table : Table) (i : ℕ) : Run Table :=
  let id := UInt64.ofNat i
  if id % 4 = 0 then .ok ⟨table.rows.erase id, table.index.erase (id % 10000, id)⟩
  else if id % 4 = 1 then
    .ok ⟨table.rows.insert id (encodedRowWithPayloadSeed id (id + 1000000) config.payloadBytes), table.index⟩
  else .ok table

def verifyState (table : Table) (config : StorageConfig) (expected : UInt64) : Run Unit := do
  let count := UInt64.ofNat table.rows.size
  verify (count = expected) s!"redb row count mismatch: expected {expected}, got {count}"
  verify ((0 : UInt64) ∉ table.rows) "redb resurrected a deleted row"
  if 1 < config.rows then
    match table.rows[(1 : UInt64)]? with
    | none => .error (.mismatch "redb lost an expected row")
    | some row =>
      match encodedChecksum row with
      | none => .error (.mismatch "redb stored an invalid encoded row")
      | some actual =>
        let expectedChecksum ← orPanic (encodedChecksum (encodedRowWithPayloadSeed 1 1000001 config.payloadBytes))
        verify (actual = expectedChecksum) "redb returned the wrong updated row"
        verify (((1 : UInt64), (1 : UInt64)) ∈ table.index) "redb lost a secondary-index entry"
  else .ok ()

def main (config : StorageConfig) : Run (Stages Table) := do
  let loaded ← (List.range config.rows.toNat).foldlM (loadTurn config) Table.empty
  let churned ← (List.range config.rows.toNat).foldlM (churnTurn config) loaded
  let expected := liveRowsAfterChurn config.rows
  verifyState churned config expected
  verifyState (reopened churned) config expected
  verifyState (reopened (reopened churned)) config expected
  .ok ⟨loaded, reopened (reopened churned)⟩

end Redb

/-! ## Logical rows -/

/-- what the programs store for an id, whatever the engine; the sequence is read as a signed word -/
structure LogicalRow where
  id : ℤ
  accountId : ℤ
  sequence : Int64
  scoreBits : UInt64
  payload : List UInt8
deriving DecidableEq

def Worktable.Row.logical (row : Worktable.Row) : LogicalRow :=
  ⟨row.id.toNat, row.accountId.toNat, row.sequence.toInt64, row.score.toBits, row.payload⟩

def Sqlite.Row.logical (row : Sqlite.Row) : LogicalRow :=
  ⟨row.id.toInt, row.accountId.toInt, row.sequence, row.score.toBits, row.payload⟩

/-- an encoded row, read back -/
def decodeRow (encoded : List UInt8) : Option LogicalRow := do
  let id ← wordAt encoded 0
  let accountId ← wordAt encoded 8
  let sequence ← wordAt encoded 16
  let scoreBits ← wordAt encoded 24
  let payload ← sliceFrom encoded fixedBytes
  some ⟨id.toNat, accountId.toNat, sequence.toInt64, scoreBits, payload⟩

/-- the rows of a table under their keys, in key order -/
abbrev Contents := List (ℤ × LogicalRow)

def Worktable.contents (table : Worktable.Table) : Contents :=
  table.rows.toList.map fun e => ((e.1.toNat : ℤ), e.2.logical)

def Sqlite.contents (table : Sqlite.Table) : Contents := table.rows.toList.map fun e => (e.1.toInt, e.2.logical)

/-- `none` if a row does not decode -/
def Redb.contents (table : Redb.Table) : Option Contents :=
  table.rows.toList.mapM fun e => (decodeRow e.2).map fun row => ((e.1.toNat : ℤ), row)

end WtBenchmarks.Footprint
