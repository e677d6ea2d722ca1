/-
The paired speedtest1 runners (`src/bin/speedtest1-worktable.rs` on its default index backend and
`src/bin/speedtest1-sqlite.rs`), each over its engine: an ordered map of rows with a secondary index on the group.

The integer table has the same columns in both, over the engine's integer type: WorkTable stores `u64`, SQLite stores
`i64` and every value is cast on its way in and out. A runner returns its result lines, or `none` where it refuses the
configuration or panics. The
timings of a result line are left out, and so are the other two index backends, which skip the text table.
-/
import WtBenchmarks.Core.Decimal
import WtBenchmarks.Core.GroupTable
import WtBenchmarks.Kv.Config

namespace WtBenchmarks.Speedtest

open Kv (textValue textChecksum)

structure Config where
  rows : UInt64
  operations : UInt64
  repetitions : ℕ
  scanLength : UInt64
  payloadBytes : ℕ
  groups : UInt64
  seed : UInt64

def i64Max : UInt64 := 0x7fffffffffffffff

/-- the checks of the WorkTable runner -/
def Config.checkWorktable (config : Config) : Except String Unit :=
  if config.rows = 0 ∨ config.operations = 0 ∨ config.repetitions = 0 ∨ config.scanLength = 0 ∨
      config.payloadBytes = 0 ∨ config.groups = 0 then
    .error "counts, repetitions, sizes, and groups must be non-zero"
  else if config.scanLength > config.rows then .error "--scan-length cannot exceed --rows"
  else .ok ()

/-- the checks of the SQLite runner -/
def Config.checkSqlite (config : Config) : Except String Unit :=
  if config.rows = 0 ∨ config.operations = 0 ∨ config.repetitions = 0 ∨ config.scanLength = 0 ∨
      config.payloadBytes = 0 ∨ config.groups = 0 then
    .error "counts, repetitions, sizes, and groups must be non-zero"
  else if config.scanLength > config.rows then .error "--scan-length cannot exceed --rows"
  else if config.rows > i64Max ∨ config.groups > i64Max then .error "--rows and --groups must fit SQLite INTEGER"
  else .ok ()

def randomKeys (count upper seed : UInt64) : List UInt64 := Rng.draws count.toNat upper seed

def Config.keys (config : Config) : List UInt64 := randomKeys config.operations config.rows config.seed

def Config.scanStarts (config : Config) : List UInt64 :=
  randomKeys config.operations (config.rows - config.scanLength + 1) (config.seed ^^^ 0x55aa)

def textKey (value : UInt64) : String := "key-" ++ zeroPadded 20 value.toNat

/-- the fields of a result line that depend on the run -/
structure Line where
  phase : String
  repetition : ℕ
  operations : UInt64
  checksum : UInt64
deriving DecidableEq, Repr

/-- the columns of the integer table -/
structure SpeedIntRow (K : Type) where
  id : K
  groupId : K
  counter : K
  payload : List UInt8

def SpeedIntRow.setCounter {K : Type} (counter : K) (row : SpeedIntRow K) : SpeedIntRow K :=
  { row with counter := counter }

/-- a row stays in its group when its counter changes -/
theorem SpeedIntRow.setCounter_groupId {K : Type} (counter : K) (row : SpeedIntRow K) :
    (row.setCounter counter).groupId = row.groupId := rfl

/-- the columns of the text table, next to its key -/
structure SpeedTextRow (K : Type) where
  value : K
  payload : List UInt8

/-- the integer table: primary key `id`, secondary index on `group_id` -/
abbrev SpeedInt (K : Type) [Ord K] [Std.TransOrd K] := GroupTable K K (SpeedIntRow K) SpeedIntRow.groupId

/-- the text table -/
abbrev SpeedText (K : Type) := Std.ExtTreeMap String (SpeedTextRow K)

/-! ## WorkTable -/

namespace Worktable

def insertInteger (tables : SpeedInt UInt64) (id groupId : UInt64) (payload : List UInt8) : Option (SpeedInt UInt64) :=
  if h : id ∈ tables.rows then none else some (tables.insertNew id ⟨id, groupId, id, payload⟩ h)

def integerCount (tables : SpeedInt UInt64) : UInt64 := UInt64.ofNat tables.rows.size

def integerPointChecksum (tables : SpeedInt UInt64) (key : UInt64) : Option UInt64 := do
  let row ← tables.rows[key]?
  some (row.counter + textChecksum row.id row.payload)

/-- the rows with keys in `start..stop`, in key order -/
def selectByPkRange (tables : SpeedInt UInt64) (start stop : UInt64) : List (UInt64 × SpeedIntRow UInt64) :=
  tables.rows.toList.filter fun row => decide (start ≤ row.1 ∧ row.1 < stop)

def integerRangeChecksum (tables : SpeedInt UInt64) (start length : UInt64) : Option UInt64 := do
  let stop ← checkedAdd start length
  some ((selectByPkRange tables start stop).foldl (fun sum row => sum + row.2.counter) 0)

def integerGroupCount (tables : SpeedInt UInt64) (group : UInt64) : UInt64 :=
  UInt64.ofNat (tables.selectByGroup group).length

def updateInteger (tables : SpeedInt UInt64) (key counter : UInt64) : Option (SpeedInt UInt64) :=
  if key ∈ tables.rows then
    some (tables.modify key (SpeedIntRow.setCounter counter) (SpeedIntRow.setCounter_groupId counter))
  else none

def integerFullScanChecksum (tables : SpeedInt UInt64) (rows : UInt64) : UInt64 :=
  (selectByPkRange tables 0 rows).foldl (fun sum row => sum + row.2.counter) 0

def deleteInteger (tables : SpeedInt UInt64) (key : UInt64) : SpeedInt UInt64 × Bool :=
  if key ∈ tables.rows then (tables.erase key, true) else (tables, false)

/-- one turn of the deletion loop, which counts the rows found -/
def deleteTurn (r : SpeedInt UInt64 × UInt64) (key : UInt64) : SpeedInt UInt64 × UInt64 :=
  let (tables, found) := deleteInteger r.1 key
  if found then (tables, r.2 + 1) else (tables, r.2)

def runRepetition (config : Config) (repetition : ℕ) (keys scanStarts : List UInt64) : Option (List Line) := do
  let tables ← (List.range config.rows.toNat).foldlM (fun tables i => do
    let id := UInt64.ofNat i
    let group ← checkedMod id config.groups
    insertInteger tables id group (textValue id config.payloadBytes)) (GroupTable.empty _)
  let inserted := integerCount tables
  let read ← keys.foldlM (fun sum key => do
    let checksum ← integerPointChecksum tables key
    some (sum + checksum)) 0
  let ranges ← scanStarts.foldlM (fun checksum start => do
    let range ← integerRangeChecksum tables start config.scanLength
    some (checksum + range)) 0
  let fanout ← keys.foldlM (fun checksum key => do
    let group ← checkedMod key config.groups
    some (checksum + integerGroupCount tables group)) 0
  let tables ← keys.foldlM (fun tables key => updateInteger tables key (key * 17)) tables
  let updated := integerCount tables
  let scanned := integerFullScanChecksum tables config.rows
  let (_, deleted) := keys.foldl deleteTurn (tables, 0)
  some [
    ⟨"integer_insert_sequential", repetition, config.rows, inserted⟩,
    ⟨"integer_point_read_random", repetition, config.operations, read⟩,
    ⟨"integer_range_read", repetition, config.operations, ranges⟩,
    ⟨"integer_secondary_fanout", repetition, config.operations, fanout⟩,
    ⟨"integer_update_random", repetition, config.operations, updated⟩,
    ⟨"integer_ordered_full_scan", repetition, config.rows, scanned⟩,
    ⟨"integer_delete_random", repetition, config.operations, deleted⟩]

/-- `wti_text::run` -/
def runText (config : Config) (repetition : ℕ) (keys : List UInt64) : Option (List Line) := do
  let text ← (List.range config.rows.toNat).foldlM (fun (text : SpeedText UInt64) i =>
    let id := UInt64.ofNat i
    if textKey id ∈ text then none
    else some (text.insert (textKey id) ⟨id, textValue id config.payloadBytes⟩)) ∅
  let inserted := UInt64.ofNat text.size
  let checksum ← keys.foldlM (fun sum key => do
    let row ← text[textKey key]?
    some (sum + row.value + UInt64.ofNat row.payload.length)) (0 : UInt64)
  some [
    ⟨"text_insert_sequential", repetition, config.rows, inserted⟩,
    ⟨"text_point_read_random", repetition, config.operations, checksum⟩]

def main (config : Config) : Option (List Line) :=
  match config.checkWorktable with
  | .error _ => none
  | .ok () => do
    let repetitions ← (List.range' 1 config.repetitions).mapM fun repetition => do
      let integer ← runRepetition config repetition config.keys config.scanStarts
      let text ← runText config repetition config.keys
      some (integer ++ text)
    some repetitions.flatten

end Worktable

/-! ## SQLite -/

namespace Sqlite

/-- a decoded row: id, group, counter and payload -/
def decode (row : SpeedIntRow Int64) : UInt64 × UInt64 × UInt64 × List UInt8 :=
  (row.id.toUInt64, row.groupId.toUInt64, row.counter.toUInt64, row.payload)

/-- `INSERT INTO speed_int(id, group_id, counter, payload) VALUES (?1, ?2, ?3, ?4)` -/
def insertInt (table : SpeedInt Int64) (id groupId counter : Int64) (payload : List UInt8) : Option (SpeedInt Int64) :=
  if h : id ∈ table.rows then none else some (table.insertNew id ⟨id, groupId, counter, payload⟩ h)

/-- `SELECT COUNT(*)` -/
def count {α β : Type} [Ord α] [Std.TransOrd α] (rows : Std.ExtTreeMap α β) : UInt64 := (Int64.ofNat rows.size).toUInt64

/-- `… WHERE id = ?1`, one row expected -/
def selectId (table : SpeedInt Int64) (id : Int64) : Option (UInt64 × UInt64 × UInt64 × List UInt8) :=
  (table.rows[id]?).map decode

/-- `… WHERE id >= ?1 AND id < ?2 ORDER BY id` -/
def selectRange (table : SpeedInt Int64) (start stop : Int64) : List (UInt64 × UInt64 × UInt64 × List UInt8) :=
  (table.rows.toList.filter fun row => decide (start ≤ row.1 ∧ row.1 < stop)).map fun row => decode row.2

/-- `… WHERE group_id = ?1` -/
def selectGroup (table : SpeedInt Int64) (group : Int64) : List (UInt64 × UInt64 × UInt64 × List UInt8) :=
  (table.selectByGroup group).map decode

/-- `UPDATE speed_int SET counter = ?1 WHERE id = ?2` -/
def updateCounter (table : SpeedInt Int64) (counter id : Int64) : SpeedInt Int64 :=
  table.modify id (SpeedIntRow.setCounter counter) (SpeedIntRow.setCounter_groupId counter)

/-- `… ORDER BY id` -/
def selectAll (table : SpeedInt Int64) : List (UInt64 × UInt64 × UInt64 × List UInt8) :=
  table.rows.toList.map fun row => decode row.2

/-- `DELETE FROM speed_int WHERE id = ?1`, with the number of rows deleted -/
def deleteInt (table : SpeedInt Int64) (id : Int64) : SpeedInt Int64 × UInt64 :=
  if id ∈ table.rows then (table.erase id, 1) else (table, 0)

/-- one turn of the point-read loop -/
def readTurn (table : SpeedInt Int64) (sum key : UInt64) : Option UInt64 := do
  let (id, _, counter, payload) ← selectId table key.toInt64
  some (sum + counter + textChecksum id payload)

/-- one turn of the deletion loop, which adds the rows deleted -/
def deleteTurn (r : SpeedInt Int64 × UInt64) (key : UInt64) : SpeedInt Int64 × UInt64 :=
  let (table, n) := deleteInt r.1 key.toInt64
  (table, r.2 + n)

def runRepetition (config : Config) (repetition : ℕ) (keys scanStarts : List UInt64) : Option (List Line) := do
  let table ← (List.range config.rows.toNat).foldlM (fun table i => do
    let id := UInt64.ofNat i
    let group ← checkedMod id config.groups
    insertInt table id.toInt64 group.toInt64 id.toInt64 (textValue id config.payloadBytes)) (GroupTable.empty _)
  let inserted := count table.rows
  let read ← keys.foldlM (readTurn table) 0
  let ranges ← scanStarts.foldlM (fun checksum start => do
    let stop ← checkedAdd start config.scanLength
    some ((selectRange table start.toInt64 stop.toInt64).foldl (fun sum row => sum + row.2.2.1) checksum)) 0
  let fanout ← keys.foldlM (fun checksum key => do
    let group ← checkedMod key config.groups
    some (checksum + UInt64.ofNat (selectGroup table group.toInt64).length)) 0
  let table := keys.foldl (fun table key => updateCounter table (key * 17).toInt64 key.toInt64) table
  let updated := count table.rows
  let scanned := (selectAll table).foldl (fun sum row => sum + row.2.2.1) 0
  let text ← (List.range config.rows.toNat).foldlM (fun (text : SpeedText Int64) i =>
    let id := UInt64.ofNat i
    if textKey id ∈ text then none
    else some (text.insert (textKey id) ⟨id.toInt64, textValue id config.payloadBytes⟩)) ∅
  let textInserted := count text
  let textRead ← keys.foldlM (fun sum key => do
    let row ← text[textKey key]?
    some (sum + row.value.toUInt64 + UInt64.ofNat row.payload.length)) (0 : UInt64)
  let (_, deleted) := keys.foldl deleteTurn (table, 0)
  some [
    ⟨"integer_insert_sequential", repetition, config.rows, inserted⟩,
    ⟨"integer_point_read_random", repetition, config.operations, read⟩,
    ⟨"integer_range_read", repetition, config.operations, ranges⟩,
    ⟨"integer_secondary_fanout", repetition, config.operations, fanout⟩,
    ⟨"integer_update_random", repetition, config.operations, updated⟩,
    ⟨"integer_ordered_full_scan", repetition, config.rows, scanned⟩,
    ⟨"text_insert_sequential", repetition, config.rows, textInserted⟩,
    ⟨"text_point_read_random", repetition, config.operations, textRead⟩,
    ⟨"integer_delete_random", repetition, config.operations, deleted⟩]

def main (config : Config) : Option (List Line) :=
  match config.checkSqlite with
  | .error _ => none
  | .ok () => do
    let repetitions ← (List.range' 1 config.repetitions).mapM fun repetition =>
      runRepetition config repetition config.keys config.scanStarts
    some repetitions.flatten

end Sqlite

end WtBenchmarks.Speedtest
