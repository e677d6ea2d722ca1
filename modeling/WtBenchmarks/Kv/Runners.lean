/-
The three embedded key-value adapters (`src/bin/kv-worktable.rs` over `src/kv_table.rs`, `src/bin/kv-redb.rs`,
`src/bin/kv-sqlite.rs`), each over its engine as an ordered map.

A runner returns the result lines of all its repetitions, or `none` where it exits without them: a configuration it
refuses, a failed expectation, an engine error. The three `--index-backend` drivers of the WorkTable adapter share one
body. SQLite keys are signed; redb and SQLite run each phase under either transaction scope.
-/
import WtBenchmarks.Core.IndexedMap
import WtBenchmarks.Kv.Config

namespace WtBenchmarks.Kv

/-- the lines of one repetition -/
def phases (repetition : ℕ) (insert pointRead overwrite rangeScan deleteRandom : UInt64) : List Line := [
  ⟨"insert", repetition, insert⟩,
  ⟨"point_read", repetition, pointRead⟩,
  ⟨"overwrite", repetition, overwrite⟩,
  ⟨"range_scan", repetition, rangeScan⟩,
  ⟨"delete_random", repetition, deleteRandom⟩]

/-- `for repetition in 1..=repetitions` -/
def repeated (repetitions : ℕ) (body : ℕ → Option (List Line)) : Option (List Line) := do
  let lines ← (List.range' 1 repetitions).mapM body
  some lines.flatten

def i64Max : UInt64 := 0x7fffffffffffffff

/-! ## WorkTable -/

namespace Worktable

abbrev KvBench := Std.ExtTreeMap UInt64 (List UInt8)

def insert (payloadBytes : ℕ) (table : KvBench) (key : UInt64) : Option KvBench :=
  if key ∈ table then none else some (table.insert key (textValue key payloadBytes))

def pointReadChecksum (table : KvBench) (keys : List UInt64) : Option UInt64 :=
  keys.foldlM (fun sum key => do
    let payload ← table[key]?
    some (sum + textChecksum key payload)) 0

def overwrite (payloadBytes : ℕ) (table : KvBench) (keys : List UInt64) : Option KvBench :=
  keys.foldlM (fun table key =>
    if key ∈ table then some (table.insert key (textValue (key * 17) payloadBytes)) else none) table

/-- the rows with keys in `start..stop`, in key order -/
def selectByPkRange (table : KvBench) (start stop : UInt64) : List (UInt64 × List UInt8) :=
  table.toList.filter fun row => decide (start ≤ row.1 ∧ row.1 < stop)

def rangeScanChecksum (table : KvBench) (starts : List UInt64) (scanLength : UInt64) : Option UInt64 :=
  starts.foldlM (fun checksum start => do
    let stop ← checkedAdd start scanLength
    some ((selectByPkRange table start stop).foldl (fun sum row => sum + textChecksum row.1 row.2) checksum)) 0

def count (table : KvBench) : UInt64 := UInt64.ofNat table.size

def delete (table : KvBench) (keys : List UInt64) : KvBench × UInt64 :=
  keys.foldl (fun r key => if key ∈ r.1 then (r.1.erase key, r.2 + 1) else r) (table, 0)

def runBackend (config : KvConfig) (pointKeys scanStarts : List UInt64) (repetition : ℕ) : Option (List Line) := do
  let table ← (List.range config.rows.toNat).foldlM
    (fun table key => insert config.payloadBytes table (UInt64.ofNat key)) ∅
  let inserted := count table
  let read ← pointReadChecksum table pointKeys
  let table ← overwrite config.payloadBytes table pointKeys
  let overwritten := count table
  let scanned ← rangeScanChecksum table scanStarts config.scanLength
  let (_, deleted) := delete table pointKeys
  some (phases repetition inserted read overwritten scanned deleted)

def main (config : KvConfig) : Option (List Line) :=
  if config.durability ≠ .memory then none
  else if config.transactionScope ≠ .perOperation then none
  else repeated config.repetitions (runBackend config config.pointKeys config.scanStarts)

end Worktable

/-! ## Transactions -/

/-- the committed state of a database -/
structure Database (D : Type) where
  committed : D

/-- a transaction works on its own copy -/
def beginTransaction {D : Type} (database : Database D) : D := database.committed

def commit {D : Type} (transaction : D) : Database D := ⟨transaction⟩

/-- a write phase: one transaction for each key, or one around the loop; `acc` lives outside the transactions -/
def writePhase {D A K : Type} (scope : TransactionScope) (body : D × A → K → Option (D × A)) (database : Database D)
    (acc : A) (keys : List K) : Option (Database D × A) :=
  match scope with
  | .perOperation =>
    keys.foldlM (fun r key => do
      let transaction := beginTransaction r.1
      let (transaction, acc) ← body (transaction, r.2) key
      some (commit transaction, acc)) (database, acc)
  | .batch => do
    let transaction := beginTransaction database
    let (transaction, acc) ← keys.foldlM body (transaction, acc)
    some (commit transaction, acc)

/-- a read phase: one transaction for each key, or one around the loop -/
def readPhase {D A K : Type} (scope : TransactionScope) (body : D → A → K → Option A) (database : Database D)
    (acc : A) (keys : List K) : Option A :=
  match scope with
  | .perOperation =>
    keys.foldlM (fun acc key => do
      let transaction := beginTransaction database
      body transaction acc key) acc
  | .batch => do
    let transaction := beginTransaction database
    keys.foldlM (body transaction) acc

/-! ## redb -/

namespace Redb

abbrev Table := Std.ExtTreeMap UInt64 (List UInt8)

def insertRows (config : KvConfig) (database : Database Table) : Option (Database Table × Unit) :=
  writePhase config.transactionScope (fun r key =>
    let key := UInt64.ofNat key
    some (r.1.insert key (textValue key config.payloadBytes), r.2)) database () (List.range config.rows.toNat)

def readPoints (config : KvConfig) (database : Database Table) (keys : List UInt64) : Option UInt64 :=
  readPhase config.transactionScope (fun table checksum key => do
    let row ← table[key]?
    some (checksum + textChecksum key row)) database 0 keys

def updateRows (config : KvConfig) (database : Database Table) (keys : List UInt64) : Option (Database Table × Unit) :=
  writePhase config.transactionScope (fun r key =>
    some (r.1.insert key (textValue (key * 17) config.payloadBytes), r.2)) database () keys

/-- `table.range(start..)` -/
def range (table : Table) (start : UInt64) : List (UInt64 × List UInt8) :=
  table.toList.filter fun row => decide (start ≤ row.1)

def scanRows (config : KvConfig) (database : Database Table) (starts : List UInt64) : Option UInt64 :=
  readPhase config.transactionScope (fun table checksum start =>
    some (((range table start).take config.scanLength.toNat).foldl
      (fun sum row => sum + textChecksum row.1 row.2) checksum)) database 0 starts

def deleteRows (config : KvConfig) (database : Database Table) (keys : List UInt64) :
    Option (Database Table × UInt64) :=
  writePhase config.transactionScope (fun r key =>
    some (r.1.erase key, r.2 + if (r.1[key]?).isSome then 1 else 0)) database 0 keys

def runRepetition (config : KvConfig) (pointKeys scanStarts : List UInt64) (repetition : ℕ) : Option (List Line) := do
  let (database, _) ← insertRows config ⟨∅⟩
  let read ← readPoints config database pointKeys
  let (database, _) ← updateRows config database pointKeys
  let scanned ← scanRows config database scanStarts
  let (_, deleted) ← deleteRows config database pointKeys
  some (phases repetition config.rows read config.operations scanned deleted)

def main (config : KvConfig) : Option (List Line) :=
  if config.durability = .memory then none
  else repeated config.repetitions (runRepetition config config.pointKeys config.scanStarts)

end Redb

/-! ## SQLite -/

namespace Sqlite

/-- `kv(id INTEGER PRIMARY KEY, payload TEXT NOT NULL)` -/
abbrev Table := Std.ExtTreeMap Int64 (List UInt8)

def insertRows (config : KvConfig) (database : Database Table) : Option (Database Table × Unit) :=
  writePhase config.transactionScope (fun r key =>
    let key := UInt64.ofNat key
    if key.toInt64 ∈ r.1 then none
    else some (r.1.insert key.toInt64 (textValue key config.payloadBytes), r.2)) database ()
      (List.range config.rows.toNat)

/-- `SELECT id, payload FROM kv WHERE id = ?1`, one row expected -/
def queryRow (table : Table) (id : Int64) : Option (UInt64 × List UInt8) := do
  let payload ← table[id]?
  some (id.toUInt64, payload)

def readPoints (config : KvConfig) (database : Database Table) (keys : List UInt64) : Option UInt64 :=
  readPhase config.transactionScope (fun table checksum key => do
    let (id, payload) ← queryRow table key.toInt64
    some (checksum + textChecksum id payload)) database 0 keys

/-- `UPDATE kv SET payload = ?1 WHERE id = ?2` -/
def update (table : Table) (payload : List UInt8) (id : Int64) : Table :=
  if id ∈ table then table.insert id payload else table

def updateRows (config : KvConfig) (database : Database Table) (keys : List UInt64) : Option (Database Table × Unit) :=
  writePhase config.transactionScope (fun r key =>
    some (update r.1 (textValue (key * 17) config.payloadBytes) key.toInt64, r.2)) database () keys

/-- a negative limit is no limit -/
def limit {α : Type} (rows : List α) (n : Int64) : List α := if n < 0 then rows else rows.take n.toInt.toNat

/-- `SELECT id, payload FROM kv WHERE id >= ?1 ORDER BY id LIMIT ?2` -/
def selectFrom (table : Table) (start length : Int64) : List (UInt64 × List UInt8) :=
  (limit (table.toList.filter fun row => decide (start ≤ row.1)) length).map fun row => (row.1.toUInt64, row.2)

def scanOnce (table : Table) (start length : UInt64) : UInt64 :=
  (selectFrom table start.toInt64 length.toInt64).foldl (fun checksum row => checksum + textChecksum row.1 row.2) 0

def scanRows (config : KvConfig) (database : Database Table) (starts : List UInt64) : Option UInt64 :=
  readPhase config.transactionScope (fun table checksum start =>
    some (checksum + scanOnce table start config.scanLength)) database 0 starts

/-- `DELETE FROM kv WHERE id = ?1`, with the number of rows deleted -/
def delete (table : Table) (id : Int64) : Table × UInt64 :=
  if id ∈ table then (table.erase id, 1) else (table, 0)

def deleteRows (config : KvConfig) (database : Database Table) (keys : List UInt64) :
    Option (Database Table × UInt64) :=
  writePhase config.transactionScope (fun r key =>
    let d := delete r.1 key.toInt64
    some (d.1, r.2 + d.2)) database 0 keys

def runRepetition (config : KvConfig) (pointKeys scanStarts : List UInt64) (repetition : ℕ) : Option (List Line) := do
  let (database, _) ← insertRows config ⟨∅⟩
  let read ← readPoints config database pointKeys
  let (database, _) ← updateRows config database pointKeys
  let scanned ← scanRows config database scanStarts
  let (_, deleted) ← deleteRows config database pointKeys
  some (phases repetition config.rows read config.operations scanned deleted)

def main (config : KvConfig) : Option (List Line) :=
  if config.durability ≠ .memory then none
  else if config.rows > i64Max then none
  else repeated config.repetitions (runRepetition config config.pointKeys config.scanStarts)

end Sqlite

end WtBenchmarks.Kv
