/-
The shadow-concurrency repetition: setup, writers, readers and final checks.

The table is an atomic map with a unique index and a lookup by bucket; vacuum has no effect on it and reports no error.
Every shadow access and every table call is a step of its own, with the arithmetic and the checks between two of them.
Where the source would panic (overflow, an index out of bounds) a step is `none`, and its thread stays `panicked`. A
writer and a reader know the number of their turns, which is at most the number of operations (`turns_le`).
-/
import WtBenchmarks.Core.Threads
import WtBenchmarks.Core.UniqueTable
import WtBenchmarks.IndexBackends.Shadow.Rows

namespace WtBenchmarks.IndexBackends.Shadow

abbrev Table := UniqueTable UInt64 UInt64 Row Row.uniqueKey

/-- the rows of a bucket, in key order -/
def selectByBucket (table : Table) (b : UInt64) : List Row :=
  (table.rows.toList.filter fun entry => decide (entry.2.bucket = b)).map Prod.snd

structure Counters where
  writerErrors : UInt64
  writerPostcommitPrimaryMisses : UInt64
  onlineReads : UInt64
  stablePrimaryMismatches : UInt64
  stableUniqueMismatches : UInt64
  stableStaleUniqueHits : UInt64
  bucketPredicateMismatches : UInt64
  tornRows : UInt64
  finalMismatches : UInt64
  finalCardinalityMismatches : UInt64
  finalPrimaryMismatches : UInt64
  finalUniqueMismatches : UInt64
  finalStaleUniqueHits : UInt64
  finalBucketMismatches : UInt64
  finalBucketMissingRows : UInt64
  finalBucketUnexpectedRows : UInt64
  finalBucketDuplicateRows : UInt64
deriving DecidableEq, Repr

def Counters.default : Counters := ⟨0, 0, 0, 0, 0, 0, 0, 0, 0, 0, 0, 0, 0, 0, 0, 0, 0⟩

def Counters.failures (c : Counters) : Option UInt64 :=
  [c.writerErrors, c.writerPostcommitPrimaryMisses, c.stablePrimaryMismatches, c.stableUniqueMismatches,
    c.stableStaleUniqueHits, c.bucketPredicateMismatches, c.tornRows, c.finalMismatches].foldlM checkedAdd 0

structure Shared where
  table : Table
  shadow : UInt64 → UInt64
  counters : Counters

variable (config : Config) (stride : UInt64)

/-- `shadow[id as usize].load` -/
def load (g : Shared) (id : UInt64) : Option UInt64 := if id < config.records then some (g.shadow id) else none

/-- `shadow[id as usize].store` -/
def store (g : Shared) (id marker : UInt64) : Option Shared :=
  if id < config.records then some { g with shadow := Function.update g.shadow id marker } else none

/-! ## Setup -/

def insertFirst (table : Table) (id : ℕ) : Option Table := do
  let row ← makeRow (UInt64.ofNat id) 0 config stride
  table.insert row.id row

/-- the loaded table, with the fillers inserted and deleted when there is a vacuum -/
def setup : Option Table := do
  let table ← (List.range config.records.toNat).foldlM (insertFirst config stride) (UniqueTable.empty _)
  if config.vacuum then
    let stop ← checkedAdd config.records (config.records / 2)
    let fillers := List.range' config.records.toNat (stop.toNat - config.records.toNat)
    let table ← fillers.foldlM (insertFirst config stride) table
    fillers.foldlM (fun table id => table.delete (UInt64.ofNat id)) table
  else some table

/-- `participant_count + 1`, as a `usize` -/
def participants : Option ℕ :=
  let count := config.writerThreads + config.readerThreads + (if config.vacuum then 1 else 0) + 1
  if count < 2 ^ 64 then some count else none

/-- the share of the operations of one of `threads` workers -/
def turns (operations threads worker : ℕ) : ℕ := operations / threads + if worker < operations % threads then 1 else 0

/-- `(worker..records).step_by(writer_threads)` -/
def owned (worker : ℕ) : List UInt64 :=
  (List.range' worker ((config.records.toNat - worker + config.writerThreads - 1) / config.writerThreads)
    config.writerThreads).map UInt64.ofNat

/-! ## Writers -/

inductive WriterPc where
  | load
  | mark (id previous : UInt64)
  | write (id previous generation : UInt64) (nextRow : Row)
  | reinsert (id previous generation : UInt64) (nextRow : Row)
  | publish (id previous generation : UInt64) (success : Bool)
  | verify (id : UInt64)
deriving DecidableEq, Repr

structure Writer where
  worker : ℕ
  operations : ℕ
  sequence : ℕ
  pc : WriterPc
deriving DecidableEq, Repr

/-- a row is counted as torn when its columns do not fit together -/
def countTorn (c : Counters) (row : Row) : Option Counters := do
  let valid ← validRow row config stride
  some (if valid then c else { c with tornRows := c.tornRows + 1 })

/-- the next step of a writer that has not finished -/
def writerStep (g : Shared) (w : Writer) : Option (Shared × Writer) :=
  match w.pc with
  | .load => do
    let owned := owned config w.worker
    let id ← owned[w.sequence % owned.length]?
    let marker ← load config g id
    some (g, { w with pc := .mark id (generationOf marker) })
  | .mark id previous => do
    let g ← store config g id (mark previous)
    let generation ← checkedAdd previous 1
    let nextRow ← makeRow id generation config stride
    some (g, { w with pc := .write id previous generation nextRow })
  | .write id previous generation nextRow =>
    if config.deleteEvery ≠ 0 ∧ w.sequence % config.deleteEvery.toNat = 0 then
      match g.table.delete id with
      | none => some (g, { w with pc := .publish id previous generation false })
      | some table => some ({ g with table }, { w with pc := .reinsert id previous generation nextRow })
    else
      match g.table.update nextRow.id nextRow with
      | none => some (g, { w with pc := .publish id previous generation false })
      | some table => some ({ g with table }, { w with pc := .publish id previous generation true })
  | .reinsert id previous generation nextRow =>
    match g.table.insert nextRow.id nextRow with
    | none => some (g, { w with pc := .publish id previous generation false })
    | some table => some ({ g with table }, { w with pc := .publish id previous generation true })
  | .publish id previous generation success =>
    if success then do
      let g ← store config g id generation
      some (g, { w with pc := .verify id })
    else do
      let g ← store config g id previous
      let counters := { g.counters with writerErrors := g.counters.writerErrors + 1 }
      some ({ g with counters }, { w with pc := .verify id })
  | .verify id => do
    let counters ← match g.table.rows[id]? with
      | none => some { g.counters with
          writerPostcommitPrimaryMisses := g.counters.writerPostcommitPrimaryMisses + 1 }
      | some row => countTorn config stride g.counters row
    some ({ g with counters }, { w with sequence := w.sequence + 1, pc := .load })

/-! ## Readers -/

inductive ReaderPc where
  | loadPrimary
  | selectPrimary (id before : UInt64)
  | checkPrimary (id before : UInt64) (observed : Option Row)
  | loadUnique (id : UInt64)
  | selectUnique (id before : UInt64)
  | checkUnique (id before : UInt64) (observed : Option Row)
  | loadStale (id generation : UInt64)
  | selectStale (id generation before : UInt64)
  | checkStale (before : UInt64) (id : UInt64) (observed : Option Row)
  | selectBucket
deriving DecidableEq, Repr

structure Reader where
  operations : ℕ
  sequence : ℕ
  random : UInt64
  pc : ReaderPc
deriving DecidableEq, Repr

def nextRandom (state : UInt64) : UInt64 :=
  let state := state ^^^ (state <<< 13)
  let state := state ^^^ (state >>> 7)
  state ^^^ (state <<< 17)

/-- no row, or the row of another id or generation -/
def mismatch (observed : Option Row) (id generation : UInt64) : Bool :=
  observed.all fun row => row.id != id || row.generation != generation

/-- one more online read, and one more torn row if the row is not valid -/
def countRead (c : Counters) (observed : Option Row) : Option Counters :=
  let c := { c with onlineReads := c.onlineReads + 1 }
  match observed with
  | none => some c
  | some row => countTorn config stride c row

def nextSequence (r : Reader) : Reader := { r with sequence := r.sequence + 1, pc := .loadPrimary }

/-- the bucket lookup of every 64th turn, or the next turn -/
def endChecks (r : Reader) : Reader := if r.sequence % 64 = 0 then { r with pc := .selectBucket } else nextSequence r

/-- one row of a bucket lookup -/
def countBucketRow (selected : UInt64) (c : Counters) (row : Row) : Option Counters :=
  let c := if row.bucket = selected then c else { c with bucketPredicateMismatches := c.bucketPredicateMismatches + 1 }
  countTorn config stride c row

/-- the next step of a reader that has not finished -/
def readerStep (g : Shared) (r : Reader) : Option (Shared × Reader) :=
  match r.pc with
  | .loadPrimary => do
    let random := nextRandom r.random
    let id ← checkedMod random config.records
    let before ← load config g id
    some (g, { r with random, pc := .selectPrimary id before })
  | .selectPrimary id before => some (g, { r with pc := .checkPrimary id before (g.table.rows[id]?) })
  | .checkPrimary id before observed => do
    let after ← load config g id
    let c ← countRead config stride g.counters observed
    let counters :=
      if before = after ∧ !isWriting before ∧ mismatch observed id (generationOf before) then
        { c with stablePrimaryMismatches := c.stablePrimaryMismatches + 1 }
      else c
    some ({ g with counters }, { r with pc := .loadUnique id })
  | .loadUnique id => do
    let before ← load config g id
    some (g, { r with pc := .selectUnique id before })
  | .selectUnique id before => do
    let key ← uniqueKey id (generationOf before) stride
    some (g, { r with pc := .checkUnique id before (g.table.selectByUnique key) })
  | .checkUnique id before observed => do
    let after ← load config g id
    let c ← countRead config stride g.counters observed
    let counters :=
      if before = after ∧ !isWriting before ∧ mismatch observed id (generationOf before) then
        { c with stableUniqueMismatches := c.stableUniqueMismatches + 1 }
      else c
    let r := if generationOf before > 0 then { r with pc := .loadStale id (generationOf before) } else endChecks r
    some ({ g with counters }, r)
  | .loadStale id generation => do
    let before ← load config g id
    some (g, { r with pc := .selectStale id generation before })
  | .selectStale id generation before => do
    let previous ← checkedSub generation 1
    let key ← uniqueKey id previous stride
    some (g, { r with pc := .checkStale before id (g.table.selectByUnique key) })
  | .checkStale before id observed => do
    let after ← load config g id
    let c := { g.counters with onlineReads := g.counters.onlineReads + 1 }
    let counters :=
      if before = after ∧ !isWriting before ∧ observed.isSome then
        { c with stableStaleUniqueHits := c.stableStaleUniqueHits + 1 }
      else c
    some ({ g with counters }, endChecks r)
  | .selectBucket => do
    let random := nextRandom r.random
    let selected ← checkedMod random config.buckets
    let rows := selectByBucket g.table selected
    let c := { g.counters with onlineReads := g.counters.onlineReads + UInt64.ofNat rows.length }
    let counters ← rows.foldlM (countBucketRow config stride selected) c
    some ({ g with counters }, nextSequence { r with random })

/-! ## Runs -/

inductive Local where
  | writer (w : Writer)
  | reader (r : Reader)
  | panicked

def Local.finished : Local → Prop
  | .writer w => w.operations ≤ w.sequence
  | .reader r => r.operations ≤ r.sequence
  | .panicked => False

/-- the writers and the readers -/
abbrev Worker := Fin config.writerThreads ⊕ Fin config.readerThreads

def step (_ : Worker config) (g : Shared) : Local → Option (Shared × Local)
  | .writer w =>
    if w.operations ≤ w.sequence then none
    else match writerStep config stride g w with
      | none => some (g, .panicked)
      | some (g, w) => some (g, .writer w)
  | .reader r =>
    if r.operations ≤ r.sequence then none
    else match readerStep config stride g r with
      | none => some (g, .panicked)
      | some (g, r) => some (g, .reader r)
  | .panicked => none

/-- the state at the barrier -/
def start : Option (Threads.State (Worker config) Shared Local) := do
  let table ← setup config stride
  let _ ← participants config
  some ⟨⟨table, fun _ => 0, Counters.default⟩, fun
    | .inl worker =>
      .writer ⟨worker, turns config.operations.toNat config.writerThreads worker, 0, .load⟩
    | .inr reader =>
      .reader ⟨turns config.operations.toNat config.readerThreads reader, 0,
        config.seed ^^^ ((UInt64.ofNat reader + 1) * 0x9e3779b97f4a7c15), .loadPrimary⟩⟩

/-! ## Final checks -/

/-- no row, the row of another id or generation, or a row that is not valid -/
def rejected (observed : Option Row) (id generation : UInt64) : Option Bool :=
  if mismatch observed id generation then some true
  else match observed with
    | none => some true
    | some row => do
      let valid ← validRow row config stride
      some !valid

/-- the final checks of one id -/
def finalRow (g : Shared) (c : Counters) (id : UInt64) : Option Counters := do
  let marker ← load config g id
  let generation := generationOf marker
  let expectedUnique ← uniqueKey id generation stride
  let badPrimary ← rejected config stride (g.table.rows[id]?) id generation
  let c := if badPrimary then
      { c with finalMismatches := c.finalMismatches + 1, finalPrimaryMismatches := c.finalPrimaryMismatches + 1 }
    else c
  let badUnique ← rejected config stride (g.table.selectByUnique expectedUnique) id generation
  let c := if badUnique then
      { c with finalMismatches := c.finalMismatches + 1, finalUniqueMismatches := c.finalUniqueMismatches + 1 }
    else c
  if generation > 0 then
    let previous ← checkedSub generation 1
    let key ← uniqueKey id previous stride
    some (if (g.table.selectByUnique key).isSome then
        { c with finalMismatches := c.finalMismatches + 1, finalStaleUniqueHits := c.finalStaleUniqueHits + 1 }
      else c)
  else some c

/-- the bucket that the shadow expects an id in -/
def shadowBucket (g : Shared) (id : UInt64) : Option UInt64 := do
  let marker ← load config g id
  bucket id (generationOf marker) config.buckets

/-- the final checks of one bucket -/
def finalBucket (g : Shared) (c : Counters) (expectedBucket : UInt64) : Option Counters := do
  let rows := (selectByBucket g.table expectedBucket).mergeSort fun a b => decide (a.id ≤ b.id)
  let ids := (List.range config.records.toNat).map UInt64.ofNat
  let buckets ← ids.mapM fun id => do
    let b ← shadowBucket config g id
    some (id, b)
  let expected := (buckets.filter fun entry => decide (entry.2 = expectedBucket)).map Prod.fst
  let observed := rows.map Row.id
  let missing := expected.countP fun id => decide (id ∉ observed)
  let unexpected := observed.countP fun id => decide (id ∉ expected)
  let duplicates := (observed.zip observed.tail).countP fun pair => decide (pair.1 = pair.2)
  let c := { c with
    finalBucketMissingRows := c.finalBucketMissingRows + UInt64.ofNat missing,
    finalBucketUnexpectedRows := c.finalBucketUnexpectedRows + UInt64.ofNat unexpected,
    finalBucketDuplicateRows := c.finalBucketDuplicateRows + UInt64.ofNat duplicates }
  let valid ← rows.mapM fun row => validRow row config stride
  some (if observed ≠ expected ∨ valid.any (!·) then
      { c with finalMismatches := c.finalMismatches + 1, finalBucketMismatches := c.finalBucketMismatches + 1 }
    else c)

def finalChecks (g : Shared) : Option Counters := do
  let c := g.counters
  let c := if g.table.rows.size ≠ config.records.toNat then
      { c with
        finalMismatches := c.finalMismatches + 1,
        finalCardinalityMismatches := c.finalCardinalityMismatches + 1 }
    else c
  let c ← ((List.range config.records.toNat).map UInt64.ofNat).foldlM (finalRow config stride g) c
  ((List.range config.buckets.toNat).map UInt64.ofNat).foldlM (finalBucket config stride g) c

/-- `passed` of the result record -/
def passed (c : Counters) (vacuumErrors : UInt64) : Option Bool := do
  let failures ← c.failures
  let failures ← checkedAdd failures vacuumErrors
  some (failures = 0)

end WtBenchmarks.IndexBackends.Shadow
