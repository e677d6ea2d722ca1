/-
A whole run of `src/partition_ticks.rs`: readers route their ticks while a writer removes and recreates a partition.

The main thread populates the partitions, releases the other threads, joins the readers, stops the writer and joins it.
The writer churns the last symbol: it removes the partition, creates it anew and inserts one row. A reader of `Arc` or
`Ref` handles its ticks in one loop, one of `Pinned` in batches (in a build that has them, `partition-pinned`). Looking
a partition up, creating it, removing it and inserting a row are atomic. Reclamation and the timings are left out; the
counters are numbers.

- `populate_some`: the partitions before any thread runs;
- `writerStep_ok`, `readerStep_ok`, `mainStep_ok`: what one step keeps, of each thread;
- `churnOutline`, `start_holds`: the partitions the writer leaves alone are full at every moment.
-/
import WtBenchmarks.Core.Threads
import WtBenchmarks.Core.TreeMap
import WtBenchmarks.PartitionTicks.Routing

namespace WtBenchmarks.PartitionTicks

open Rng Threads

/-! ## Model -/

structure TickRow where
  id : UInt64
  price : Float
  qty : UInt64

abbrev Partition := Std.ExtTreeMap UInt64 TickRow

abbrev TickPartitions := Std.ExtTreeMap UInt16 Partition

def partitionOrCreate (table : TickPartitions) (symbol : UInt16) : TickPartitions :=
  if symbol ∈ table then table else table.insert symbol ∅

/-- an insert into the partition of a symbol -/
def insertRow (table : TickPartitions) (symbol : UInt16) (row : TickRow) : Option TickPartitions :=
  match table[symbol]? with
  | none => none
  | some partition => if row.id ∈ partition then none else some (table.insert symbol (partition.insert row.id row))

def populateRow (id : UInt64) : TickRow := ⟨id, id.toFloat, id⟩

def populate (shape : Shape) : Option TickPartitions :=
  (List.range shape.partitions.toNat).foldlM
    (fun table symbol => (List.range shape.rowsPerPartition.toNat).foldlM
      (fun table id => insertRow table (UInt16.ofNat symbol) (populateRow (UInt64.ofNat id)))
      (partitionOrCreate table (UInt16.ofNat symbol))) ∅

/-- `a * b` in a build that checks for overflow or in one that does not -/
def mul (checks : Bool) (a b : UInt64) : Option UInt64 := if checks then checkedMul a b else some (a * b)

/-- the symbol the writer churns -/
def lastSymbol (shape : Shape) : UInt16 := shape.partitions - 1

structure Shared where
  table : TickPartitions
  go : Bool
  stop : Bool
  missed : ℕ
  churned : ℕ
  /-- readers that have returned -/
  finished : ℕ
  writerDone : Bool

/-- `Outcome` without its duration and its backlog -/
structure Outcome where
  ticks : UInt64
  missed : ℕ
  churned : ℕ

inductive MainPc where
  | go
  | joinReaders
  | stop
  | joinWriter
  | done (outcome : Outcome)
  | panicked

inductive WriterPc where
  | spin
  /-- the head of the loop -/
  | check
  | remove
  | create
  | insert
  | count
  | done
  | panicked

structure Writer where
  pc : WriterPc
  rng : Rng

inductive ReaderPc where
  | spin
  /-- the head of the loop of `Arc` and of `Ref` -/
  | tick
  /-- the head of the loop of `pinned_ticks` -/
  | pin (done : UInt64)
  /-- the head of its inner loop, with the lookups that are left under the pin -/
  | batch (done thisBatch : UInt64) (left : ℕ)
  | addMissed
  | done
  | panicked

structure Reader where
  pc : ReaderPc
  rng : Rng
  /-- the ticks handled so far -/
  turn : ℕ
  log : Log

inductive Agent where
  | main (pc : MainPc)
  | writer (w : Writer)
  | reader (r : Reader)

def mainStep (checks : Bool) (readers : ℕ) (ticksPerReader : UInt64) (g : Shared) :
    MainPc → Option (Shared × MainPc)
  | .go => some ({ g with go := true }, .joinReaders)
  | .joinReaders => if g.finished = readers then some (g, .stop) else none
  | .stop => some ({ g with stop := true }, .joinWriter)
  | .joinWriter =>
    if g.writerDone then
      match mul checks ticksPerReader (UInt64.ofNat readers) with
      | none => some (g, .panicked)
      | some ticks => some (g, .done ⟨ticks, g.missed, g.churned⟩)
    else none
  | .done _ | .panicked => none

def writerStep (shape : Shape) (g : Shared) (w : Writer) : Option (Shared × Writer) :=
  match w.pc with
  | .spin => if g.go then some (g, { w with pc := .check }) else none
  | .check =>
    if g.stop then some ({ g with writerDone := true }, { w with pc := .done })
    else some (g, { w with pc := .remove })
  | .remove => some ({ g with table := g.table.erase (lastSymbol shape) }, { w with pc := .create })
  | .create => some ({ g with table := partitionOrCreate g.table (lastSymbol shape) }, { w with pc := .insert })
  | .insert =>
    match (below shape.rowsPerPartition : Draw UInt64).run w.rng with
    | none => some (g, { w with pc := .panicked })
    | some (id, rng) =>
      -- a refused insert is not looked at
      some ({ g with table := (insertRow g.table (lastSymbol shape) ⟨id, 1.0, 1⟩).getD g.table }, ⟨.count, rng⟩)
  | .count => some ({ g with churned := g.churned + 1 }, { w with pc := .check })
  | .done | .panicked => none

/-- one tick of a reader, which goes on at `next` -/
def tickStep (checks : Bool) (shape : Shape) (reader : UInt64) (g : Shared) (r : Reader) (next : ReaderPc) : Reader :=
  match (handle checks (fun _ symbol => decide (symbol ∈ g.table)) shape reader r.log).run r.rng with
  | none => { r with pc := .panicked }
  | some (log, rng) => ⟨next, rng, r.turn + 1, log⟩

def readerStep (checks : Bool) (shape : Shape) (reader ticksPerReader : UInt64) (g : Shared) (r : Reader) :
    Option (Shared × Reader) :=
  match r.pc with
  | .spin =>
    if g.go then
      match shape.routing with
      | .arc => some (g, { r with pc := .tick })
      | .ref => some (g, { r with pc := .tick })
      | .pinned => some (g, { r with pc := .pin 0 })
    else none
  | .tick =>
    if r.turn < ticksPerReader.toNat then some (g, tickStep checks shape reader g r .tick)
    else some (g, { r with pc := .addMissed })
  | .pin done =>
    if done < ticksPerReader then
      let thisBatch := min shape.batch (ticksPerReader - done)
      some (g, { r with pc := .batch done thisBatch thisBatch.toNat })
    else some (g, { r with pc := .addMissed })
  | .batch done thisBatch 0 => some (g, { r with pc := .pin (done + thisBatch) })
  | .batch done thisBatch (left + 1) => some (g, tickStep checks shape reader g r (.batch done thisBatch left))
  | .addMissed =>
    some ({ g with missed := g.missed + r.log.missed, finished := g.finished + 1 }, { r with pc := .done })
  | .done | .panicked => none

/-- the step of a thread: `none` is the main thread, `some none` the writer -/
def step (checks : Bool) (shape : Shape) (readers : ℕ) (ticksPerReader : UInt64) :
    Option (Option (Fin readers)) → Shared → Agent → Option (Shared × Agent)
  | none, g, .main pc => (mainStep checks readers ticksPerReader g pc).map fun r => (r.1, .main r.2)
  | some none, g, .writer w => (writerStep shape g w).map fun r => (r.1, .writer r.2)
  | some (some i), g, .reader r =>
    (readerStep checks shape (UInt64.ofNat i) ticksPerReader g r).map fun x => (x.1, .reader x.2)
  | _, _, _ => none

/-- every thread at its start; without churn there is no writer -/
def start (churn : Bool) (readers : ℕ) (table : TickPartitions) :
    State (Option (Option (Fin readers))) Shared Agent where
  shared := ⟨table, false, false, 0, 0, 0, !churn⟩
  locals
    | none => .main .go
    | some none => .writer ⟨if churn then .spin else .done, Rng.new 0xC0FFEE⟩
    | some (some i) => .reader ⟨.spin, Rng.new (UInt64.ofNat i + 1), 0, ⟨[], 0⟩⟩

/-! ## Partitions -/

/-- the first `n` rows of a populated partition -/
def Filled (n : ℕ) (partition : Partition) : Prop :=
  ∀ k : UInt64, partition[k]? = if k.toNat < n then some (populateRow k) else none

theorem filled_zero : Filled 0 ∅ := fun k => by simp

theorem insertRow_filled {table : TickPartitions} {symbol : UInt16} {partition : Partition} {n : ℕ} (hn : n < 2 ^ 64)
    (hpartition : table[symbol]? = some partition) (hfilled : Filled n partition) :
    ∃ partition', insertRow table symbol (populateRow (UInt64.ofNat n)) = some (table.insert symbol partition') ∧
      Filled (n + 1) partition' := by
  have hkey : (UInt64.ofNat n).toNat = n := ofNat_toNat_of_lt hn
  have hnew : UInt64.ofNat n ∉ partition := by
    rw [← TreeMap.get_none, hfilled, hkey]
    simp
  refine ⟨partition.insert (UInt64.ofNat n) (populateRow (UInt64.ofNat n)), ?_, fun k => ?_⟩
  · simp [insertRow, hpartition, populateRow, hnew]
  · rw [TreeMap.get_insert, hfilled k]
    by_cases hk : UInt64.ofNat n = k
    · subst hk
      rw [if_pos rfl, if_pos (by omega)]
    · have hne : k.toNat ≠ n := fun h => hk (UInt64.toNat_inj.1 (hkey.trans h.symm))
      rw [if_neg hk]
      exact if_congr (by omega) rfl rfl

/-- the partition of a symbol stands with all its rows -/
def Full (shape : Shape) (table : TickPartitions) (symbol : UInt16) : Prop :=
  ∃ partition, table[symbol]? = some partition ∧ Filled shape.rowsPerPartition.toNat partition

theorem Full.congr {shape : Shape} {table table' : TickPartitions} {symbol : UInt16}
    (h : table'[symbol]? = table[symbol]?) (hfull : Full shape table symbol) : Full shape table' symbol := by
  obtain ⟨partition, hpartition, hfilled⟩ := hfull
  exact ⟨partition, h.trans hpartition, hfilled⟩

/-- the turn of `populate` for one symbol -/
theorem populate_turn (shape : Shape) {table : TickPartitions} {symbol : UInt16} (hnew : symbol ∉ table) :
    ∃ table', (List.range shape.rowsPerPartition.toNat).foldlM
        (fun table id => insertRow table symbol (populateRow (UInt64.ofNat id))) (partitionOrCreate table symbol) =
          some table' ∧
      Full shape table' symbol ∧ ∀ symbol' ≠ symbol, table'[symbol']? = table[symbol']? := by
  have hlt := shape.rowsPerPartition.toNat_lt
  obtain ⟨table', hrun, hfull, hother⟩ := exists_foldlM_range
    (I := fun n (table' : TickPartitions) => (∃ partition, table'[symbol]? = some partition ∧ Filled n partition) ∧
      ∀ symbol' ≠ symbol, table'[symbol']? = table[symbol']?)
    (f := fun table id => insertRow table symbol (populateRow (UInt64.ofNat id))) shape.rowsPerPartition.toNat
    (fun n table' hn ⟨⟨partition, hpartition, hfilled⟩, hother⟩ => by
      obtain ⟨partition', hinsert, hfilled'⟩ := insertRow_filled (by omega) hpartition hfilled
      refine ⟨_, hinsert, ⟨partition', ?_, hfilled'⟩, fun symbol' hne => ?_⟩
      · rw [TreeMap.get_insert, if_pos rfl]
      · rw [TreeMap.get_insert, if_neg (Ne.symm hne), hother symbol' hne])
    (partitionOrCreate table symbol) (by
      rw [partitionOrCreate, if_neg hnew]
      refine ⟨⟨∅, ?_, filled_zero⟩, fun symbol' hne => ?_⟩
      · rw [TreeMap.get_insert, if_pos rfl]
      · rw [TreeMap.get_insert, if_neg (Ne.symm hne)])
  exact ⟨table', hrun, hfull, hother⟩

theorem populate_some (shape : Shape) : ∃ table, populate shape = some table ∧
    (∀ symbol ∈ table, symbol < shape.partitions) ∧ ∀ symbol < shape.partitions, Full shape table symbol := by
  have hlt := shape.partitions.toNat_lt
  obtain ⟨table, hrun, hwithin, hfull⟩ := exists_foldlM_range
    (I := fun n (table : TickPartitions) => (∀ symbol ∈ table, symbol.toNat < n) ∧
      ∀ symbol : UInt16, symbol.toNat < n → Full shape table symbol)
    (f := fun table symbol => (List.range shape.rowsPerPartition.toNat).foldlM
      (fun table id => insertRow table (UInt16.ofNat symbol) (populateRow (UInt64.ofNat id)))
      (partitionOrCreate table (UInt16.ofNat symbol))) shape.partitions.toNat
    (fun n table hn ⟨hwithin, hfull⟩ => by
      have hsymbol : (UInt16.ofNat n).toNat = n := by
        rw [UInt16.toNat_ofNat', Nat.mod_eq_of_lt (by omega)]
      have hnew : UInt16.ofNat n ∉ table := fun hmem => absurd (hwithin _ hmem) (by omega)
      obtain ⟨table', hrun, hfull', hother⟩ := populate_turn shape hnew
      refine ⟨table', hrun, fun symbol hmem => ?_, fun symbol hlt => ?_⟩
      · by_cases hs : symbol = UInt16.ofNat n
        · rw [hs, hsymbol]
          exact Nat.lt_succ_self n
        · have hold : symbol ∈ table := by
            obtain ⟨partition, hpartition⟩ := (TreeMap.mem_iff_get _ _).1 hmem
            exact (TreeMap.mem_iff_get _ _).2 ⟨partition, (hother symbol hs).symm.trans hpartition⟩
          exact (hwithin symbol hold).trans (Nat.lt_succ_self n)
      · by_cases hs : symbol = UInt16.ofNat n
        · rwa [hs]
        · have hne : symbol.toNat ≠ n := fun he => hs (UInt16.toNat_inj.1 (he.trans hsymbol.symm))
          exact (hfull symbol (by omega)).congr (hother symbol hs))
    ∅ ⟨fun symbol hmem => by simp at hmem, fun symbol hlt => absurd hlt (Nat.not_lt_zero _)⟩
  exact ⟨table, hrun, fun symbol hmem => UInt16.lt_iff_toNat_lt.2 (hwithin symbol hmem),
    fun symbol hlt => hfull symbol (UInt16.lt_iff_toNat_lt.1 hlt)⟩

/-! ## The outline -/

/-- the partition holds one row of the writer -/
def Single (shape : Shape) (partition : Partition) : Prop :=
  ∃ id < shape.rowsPerPartition, partition = (∅ : Partition).insert id ⟨id, 1.0, 1⟩

/-- the last partition between two turns of the writer -/
def LastOk (shape : Shape) (g : Shared) : Prop :=
  if g.churned = 0 then Full shape g.table (lastSymbol shape)
  else ∃ partition, g.table[lastSymbol shape]? = some partition ∧ Single shape partition

/-- the partitions the writer leaves alone, and the last one as far as it does not depend on the writer -/
structure SharedInv (shape : Shape) (churn : Bool) (g : Shared) : Prop where
  within : ∀ symbol ∈ g.table, symbol < shape.partitions
  others : ∀ symbol < shape.partitions, symbol ≠ lastSymbol shape → Full shape g.table symbol
  still : churn = false → g.churned = 0 ∧ LastOk shape g ∧ g.writerDone = true

def WriterInv (shape : Shape) (churn : Bool) (g : Shared) (w : Writer) : Prop :=
  match w.pc with
  | .spin | .check | .remove => (churn = true ∧ g.writerDone = false) ∧ LastOk shape g
  | .create => (churn = true ∧ g.writerDone = false) ∧ g.table[lastSymbol shape]? = none
  | .insert => (churn = true ∧ g.writerDone = false) ∧ g.table[lastSymbol shape]? = some ∅
  | .count =>
    (churn = true ∧ g.writerDone = false) ∧
      ∃ partition, g.table[lastSymbol shape]? = some partition ∧ Single shape partition
  | .done => g.writerDone = true ∧ LastOk shape g
  | .panicked => False

/-- a reader's ticks are those it draws, and only those of the last symbol may have missed -/
structure Drawn (checks : Bool) (shape : Shape) (churn : Bool) (reader : UInt64) (n : ℕ) (rng : Rng) (log : Log) :
    Prop where
  draws : ((List.range n).mapM fun _ => nextTick checks shape reader).run (Rng.new (reader + 1)) =
    some (log.requests, rng)
  missed : log.missed ≤ log.requests.countP fun r => r.1 = lastSymbol shape
  still : churn = false → log.missed = 0

/-- how many ticks a reader has handled, by where it is -/
def ReaderPc.At (shape : Shape) (ticksPerReader : UInt64) (turn : ℕ) : ReaderPc → Prop
  | .spin => turn = 0
  | .tick => turn ≤ ticksPerReader.toNat
  | .pin before => shape.routing = .pinned ∧ turn = before.toNat ∧ before.toNat ≤ ticksPerReader.toNat
  | .batch before thisBatch left =>
    shape.routing = .pinned ∧ turn + left = (before + thisBatch).toNat ∧
      (before + thisBatch).toNat ≤ ticksPerReader.toNat
  | .addMissed | .done => turn = ticksPerReader.toNat
  | .panicked => False

structure ReaderInv (checks : Bool) (shape : Shape) (churn : Bool) (reader ticksPerReader : UInt64) (r : Reader) :
    Prop where
  position : r.pc.At shape ticksPerReader r.turn
  drawn : Drawn checks shape churn reader r.turn r.rng r.log

def MainInv (readers : ℕ) (ticksPerReader : UInt64) (g : Shared) : MainPc → Prop
  | .go => True
  | .joinReaders => g.go = true
  | .stop => g.go = true ∧ readers ≤ g.finished
  | .joinWriter => g.go = true ∧ readers ≤ g.finished ∧ g.stop = true
  | .done outcome =>
    g.go = true ∧ readers ≤ g.finished ∧ g.stop = true ∧ g.writerDone = true ∧
      outcome.ticks.toNat = ticksPerReader.toNat * readers
  | .panicked => False

section Outline

variable {checks churn : Bool} {shape : Shape} {reader ticksPerReader : UInt64} {readers : ℕ} {g g' : Shared}

/-- the writer touches the last partition alone -/
structure WriteGuar (g g' : Shared) : Prop where
  go : g'.go = g.go
  stop : g'.stop = g.stop
  missed : g'.missed = g.missed
  finished : g'.finished = g.finished
  writerDone : g.writerDone = true → g'.writerDone = true

/-- a reader only reports -/
structure ReadGuar (g g' : Shared) : Prop where
  table : g'.table = g.table
  go : g'.go = g.go
  stop : g'.stop = g.stop
  churned : g'.churned = g.churned
  writerDone : g'.writerDone = g.writerDone
  finished : g.finished ≤ g'.finished

/-- the main thread only raises flags -/
structure MainGuar (g g' : Shared) : Prop where
  table : g'.table = g.table
  missed : g'.missed = g.missed
  churned : g'.churned = g.churned
  writerDone : g'.writerDone = g.writerDone
  finished : g'.finished = g.finished

theorem LastOk.congr (h : LastOk shape g) (htable : g'.table = g.table) (hchurned : g'.churned = g.churned) :
    LastOk shape g' := by
  unfold LastOk at h ⊢
  rwa [htable, hchurned]

theorem SharedInv.congr (h : SharedInv shape churn g) (htable : g'.table = g.table) (hchurned : g'.churned = g.churned)
    (hwriterDone : g'.writerDone = g.writerDone) : SharedInv shape churn g' := by
  refine ⟨by rw [htable]; exact h.within, by rw [htable]; exact h.others, fun hchurn => ?_⟩
  obtain ⟨hzero, hlast, hdone⟩ := h.still hchurn
  exact ⟨hchurned.trans hzero, hlast.congr htable hchurned, hwriterDone.trans hdone⟩

theorem lastSymbol_lt (hpartitions : 1 ≤ shape.partitions) : lastSymbol shape < shape.partitions := by
  have hpos : 1 ≤ shape.partitions.toNat := UInt16.le_iff_toNat_le.1 hpartitions
  rw [lastSymbol, UInt16.lt_iff_toNat_lt, UInt16.toNat_sub_of_le _ _ hpartitions, UInt16.toNat_one]
  exact Nat.sub_lt hpos Nat.one_pos

/-- a change of the last partition -/
theorem SharedInv.writeLast (h : SharedInv shape churn g) (hchurn : churn = true) {table : TickPartitions}
    (hwithin : ∀ symbol ∈ table, symbol < shape.partitions)
    (hother : ∀ symbol ≠ lastSymbol shape, table[symbol]? = g.table[symbol]?) :
    SharedInv shape churn { g with table := table } := by
  refine ⟨hwithin, fun symbol hlt hne => (h.others symbol hlt hne).congr (hother symbol hne), fun hstill => ?_⟩
  rw [hchurn] at hstill
  cases hstill

theorem SharedInv.insertLast (h : SharedInv shape churn g) (hpartitions : 1 ≤ shape.partitions)
    (hchurn : churn = true) (partition : Partition) :
    SharedInv shape churn { g with table := g.table.insert (lastSymbol shape) partition } := by
  refine h.writeLast hchurn (fun symbol hmem => ?_) fun symbol hne => ?_
  · rcases (TreeMap.mem_insert _ _ _ _).1 hmem with rfl | hmem
    · exact lastSymbol_lt hpartitions
    · exact h.within symbol hmem
  · rw [TreeMap.get_insert, if_neg (Ne.symm hne)]

theorem writerStep_ok (hpartitions : 1 ≤ shape.partitions) (hrows : 1 ≤ shape.rowsPerPartition) {w w' : Writer}
    (hg : SharedInv shape churn g) (hw : WriterInv shape churn g w) (hs : writerStep shape g w = some (g', w')) :
    SharedInv shape churn g' ∧ WriterInv shape churn g' w' ∧ WriteGuar g g' := by
  obtain ⟨pc, rng⟩ := w
  cases pc with
  | spin =>
    simp only [writerStep] at hs
    split_ifs at hs
    cases hs
    exact ⟨hg, hw, rfl, rfl, rfl, rfl, id⟩
  | check =>
    obtain ⟨hchurn, hlast⟩ := hw
    simp only [writerStep] at hs
    split_ifs at hs
    · cases hs
      refine ⟨⟨hg.within, hg.others, fun hstill => ?_⟩, ⟨rfl, hlast⟩, rfl, rfl, rfl, rfl, fun _ => rfl⟩
      rw [hchurn.1] at hstill
      cases hstill
    · cases hs
      exact ⟨hg, ⟨hchurn, hlast⟩, rfl, rfl, rfl, rfl, id⟩
  | remove =>
    obtain ⟨hchurn, -⟩ := hw
    cases hs
    refine ⟨hg.writeLast hchurn.1 (fun symbol hmem => ?_) fun symbol hne => ?_, ⟨hchurn, ?_⟩, rfl, rfl, rfl, rfl, id⟩
    · exact hg.within symbol ((TreeMap.mem_erase _ _ _).1 hmem).2
    · rw [TreeMap.get_erase, if_neg (Ne.symm hne)]
    · rw [TreeMap.get_erase, if_pos rfl]
  | create =>
    obtain ⟨hchurn, hnone⟩ := hw
    cases hs
    rw [partitionOrCreate, if_neg ((TreeMap.get_none _ _).1 hnone)]
    refine ⟨hg.insertLast hpartitions hchurn.1 ∅, ⟨hchurn, ?_⟩, rfl, rfl, rfl, rfl, id⟩
    rw [TreeMap.get_insert, if_pos rfl]
  | insert =>
    obtain ⟨hchurn, hempty⟩ := hw
    simp only [writerStep] at hs
    obtain ⟨id, rng', hdraw, hid⟩ := below_total shape.rowsPerPartition (UInt64.lt_iff_toNat_lt.2
      (UInt64.le_iff_toNat_le.1 hrows)) rng
    rw [hdraw] at hs
    cases hs
    have hinsert : insertRow g.table (lastSymbol shape) ⟨id, 1.0, 1⟩ =
        some (g.table.insert (lastSymbol shape) ((∅ : Partition).insert id ⟨id, 1.0, 1⟩)) := by
      simp [insertRow, hempty]
    rw [hinsert, Option.getD_some]
    refine ⟨hg.insertLast hpartitions hchurn.1 _, ⟨hchurn, _, ?_, id, hid, rfl⟩, rfl, rfl, rfl, rfl, fun h => h⟩
    rw [TreeMap.get_insert, if_pos rfl]
  | count =>
    obtain ⟨hchurn, hsingle⟩ := hw
    cases hs
    refine ⟨⟨hg.within, hg.others, fun hstill => ?_⟩, ⟨hchurn, ?_⟩, rfl, rfl, rfl, rfl, id⟩
    · rw [hchurn.1] at hstill
      cases hstill
    · rw [LastOk, if_neg (Nat.succ_ne_zero _)]
      exact hsingle
  | done => cases hs
  | panicked => cases hs

/-- a symbol whose partition is not there is the last one -/
theorem SharedInv.absent (hg : SharedInv shape churn g) {symbol : UInt16} (hlt : symbol < shape.partitions)
    (hmem : symbol ∉ g.table) : symbol = lastSymbol shape ∧ churn = true := by
  have hfull : ¬ Full shape g.table symbol := by
    rintro ⟨partition, hpartition, -⟩
    exact hmem ((TreeMap.mem_iff_get _ _).2 ⟨partition, hpartition⟩)
  have hlast : symbol = lastSymbol shape := by
    by_contra hne
    exact hfull (hg.others symbol hlt hne)
  refine ⟨hlast, ?_⟩
  by_contra hchurn
  obtain ⟨hzero, hok, -⟩ := hg.still (Bool.not_eq_true _ ▸ hchurn)
  rw [LastOk, if_pos hzero, ← hlast] at hok
  exact hfull hok

/-- **A tick** is drawn, and misses at most where the writer is at work. -/
theorem handle_drawn (hpartitions : 1 ≤ shape.partitions) (hrows : 1 ≤ shape.rowsPerPartition)
    (hreader : checks = true → shape.spread = .spread → reader.toNat + shape.partitions.toNat ≤ 2 ^ 64)
    (hg : SharedInv shape churn g) {n : ℕ} {rng : Rng} {log : Log} (h : Drawn checks shape churn reader n rng log) :
    ∃ log' rng', (handle checks (fun _ symbol => decide (symbol ∈ g.table)) shape reader log).run rng =
        some (log', rng') ∧ Drawn checks shape churn reader (n + 1) rng' log' := by
  have hpos : 0 < shape.partitions := UInt16.lt_iff_toNat_lt.2 (UInt16.le_iff_toNat_le.1 hpartitions)
  have hrowsPos : 0 < shape.rowsPerPartition := UInt64.lt_iff_toNat_lt.2 (UInt64.le_iff_toNat_le.1 hrows)
  obtain ⟨r, rng', htick, hr⟩ := nextTick_total hpos hrowsPos hreader rng
  refine ⟨⟨log.requests ++ [r], if decide (r.1 ∈ g.table) then log.missed else log.missed + 1⟩, rng', ?_, ?_, ?_, ?_⟩
  · simp [handle, htick]
  · rw [mapM_range_succ, StateT.run_bind, h.draws]
    simp [htick]
  · rw [List.countP_append, List.countP_singleton]
    have hmissed := h.missed
    by_cases hmem : r.1 ∈ g.table
    · simp only [hmem, decide_true, if_true]
      omega
    · rw [if_neg (by simpa using hmem), if_pos (decide_eq_true (hg.absent hr.1 hmem).1)]
      exact Nat.succ_le_succ hmissed
  · intro hchurn
    by_cases hmem : r.1 ∈ g.table
    · simp only [hmem, decide_true, if_true]
      exact h.still hchurn
    · rw [(hg.absent hr.1 hmem).2] at hchurn
      cases hchurn

/-- a tick moves the reader on, or panics -/
theorem tickStep_cases (checks : Bool) (shape : Shape) (reader : UInt64) (g : Shared) (r : Reader) (next : ReaderPc) :
    (∃ log rng, tickStep checks shape reader g r next = ⟨next, rng, r.turn + 1, log⟩) ∨
      tickStep checks shape reader g r next = { r with pc := .panicked } := by
  unfold tickStep
  split
  · exact Or.inr rfl
  · exact Or.inl ⟨_, _, rfl⟩

theorem tickStep_ok (hpartitions : 1 ≤ shape.partitions) (hrows : 1 ≤ shape.rowsPerPartition)
    (hreader : checks = true → shape.spread = .spread → reader.toNat + shape.partitions.toNat ≤ 2 ^ 64) {r : Reader}
    (hg : SharedInv shape churn g) (h : Drawn checks shape churn reader r.turn r.rng r.log) {next : ReaderPc}
    (hnext : next.At shape ticksPerReader (r.turn + 1)) :
    ReaderInv checks shape churn reader ticksPerReader (tickStep checks shape reader g r next) := by
  obtain ⟨log', rng', hhandle, hdrawn⟩ := handle_drawn hpartitions hrows hreader hg h
  rw [tickStep, hhandle]
  exact ⟨hnext, hdrawn⟩

theorem readerStep_ok (hpartitions : 1 ≤ shape.partitions) (hrows : 1 ≤ shape.rowsPerPartition)
    (hreader : checks = true → shape.spread = .spread → reader.toNat + shape.partitions.toNat ≤ 2 ^ 64) {r r' : Reader}
    (hg : SharedInv shape churn g) (hr : ReaderInv checks shape churn reader ticksPerReader r)
    (hs : readerStep checks shape reader ticksPerReader g r = some (g', r')) :
    SharedInv shape churn g' ∧ ReaderInv checks shape churn reader ticksPerReader r' ∧ ReadGuar g g' := by
  obtain ⟨pc, rng, turn, log⟩ := r
  obtain ⟨hposition, hdrawn⟩ := hr
  cases pc with
  | spin =>
    simp only [readerStep] at hs
    obtain rfl : turn = 0 := hposition
    split_ifs at hs
    cases hrouting : shape.routing with
    | arc | ref =>
      rw [hrouting] at hs
      cases hs
      exact ⟨hg, ⟨Nat.zero_le _, hdrawn⟩, rfl, rfl, rfl, rfl, rfl, le_rfl⟩
    | pinned =>
      rw [hrouting] at hs
      cases hs
      exact ⟨hg, ⟨⟨hrouting, rfl, Nat.zero_le _⟩, hdrawn⟩, rfl, rfl, rfl, rfl, rfl, le_rfl⟩
  | tick =>
    simp only [readerStep] at hs
    have hle : turn ≤ ticksPerReader.toNat := hposition
    split_ifs at hs with hlt
    · cases hs
      exact ⟨hg, tickStep_ok hpartitions hrows hreader hg hdrawn hlt, rfl, rfl, rfl, rfl, rfl, le_rfl⟩
    · cases hs
      exact ⟨hg, ⟨Nat.le_antisymm hle (Nat.not_lt.1 hlt), hdrawn⟩, rfl, rfl, rfl, rfl, rfl, le_rfl⟩
  | pin before =>
    simp only [readerStep] at hs
    obtain ⟨hrouting, hturn, hle⟩ : shape.routing = .pinned ∧ turn = before.toNat ∧
      before.toNat ≤ ticksPerReader.toNat := hposition
    split_ifs at hs with hlt
    · cases hs
      have hthis := thisBatch_toNat shape.batch hlt
      have hnext := done_add_toNat shape.batch hlt
      refine ⟨hg, ⟨⟨hrouting, ?_, ?_⟩, hdrawn⟩, rfl, rfl, rfl, rfl, rfl, le_rfl⟩
      · rw [hnext, hthis, hturn]
      · rw [hnext]
        omega
    · cases hs
      rw [UInt64.lt_iff_toNat_lt] at hlt
      exact ⟨hg, ⟨hturn.trans (by omega), hdrawn⟩, rfl, rfl, rfl, rfl, rfl, le_rfl⟩
  | batch before thisBatch left =>
    obtain ⟨hrouting, hturn, hle⟩ : shape.routing = .pinned ∧ turn + left = (before + thisBatch).toNat ∧
      (before + thisBatch).toNat ≤ ticksPerReader.toNat := hposition
    cases left with
    | zero =>
      cases hs
      exact ⟨hg, ⟨⟨hrouting, hturn, hle⟩, hdrawn⟩, rfl, rfl, rfl, rfl, rfl, le_rfl⟩
    | succ left =>
      cases hs
      have hnext : turn + 1 + left = (before + thisBatch).toNat := by omega
      exact ⟨hg, tickStep_ok hpartitions hrows hreader hg hdrawn ⟨hrouting, hnext, hle⟩, rfl, rfl, rfl, rfl, rfl,
        le_rfl⟩
  | addMissed =>
    cases hs
    exact ⟨hg.congr rfl rfl rfl, ⟨hposition, hdrawn⟩, rfl, rfl, rfl, rfl, rfl, Nat.le_succ _⟩
  | done => cases hs
  | panicked => cases hs

theorem mul_toNat (checks : Bool) {a b : UInt64} (h : a.toNat * b.toNat < 2 ^ 64) :
    ∃ c, mul checks a b = some c ∧ c.toNat = a.toNat * b.toNat := by
  cases checks with
  | false => exact ⟨a * b, rfl, by rw [UInt64.toNat_mul, Nat.mod_eq_of_lt h]⟩
  | true => exact checkedMul_some h

theorem mainStep_ok (hticks : ticksPerReader.toNat * readers < 2 ^ 64) (hreaders : readers < 2 ^ 64) {m m' : MainPc}
    (hg : SharedInv shape churn g) (hm : MainInv readers ticksPerReader g m)
    (hs : mainStep checks readers ticksPerReader g m = some (g', m')) :
    SharedInv shape churn g' ∧ MainInv readers ticksPerReader g' m' ∧ MainGuar g g' := by
  cases m with
  | go =>
    cases hs
    exact ⟨hg.congr rfl rfl rfl, rfl, rfl, rfl, rfl, rfl, rfl⟩
  | joinReaders =>
    simp only [mainStep] at hs
    split_ifs at hs with hfinished
    cases hs
    exact ⟨hg, ⟨hm, hfinished.ge⟩, rfl, rfl, rfl, rfl, rfl⟩
  | stop =>
    cases hs
    exact ⟨hg.congr rfl rfl rfl, ⟨hm.1, hm.2, rfl⟩, rfl, rfl, rfl, rfl, rfl⟩
  | joinWriter =>
    obtain ⟨hgo, hfinished, hstop⟩ := hm
    have hword : (UInt64.ofNat readers).toNat = readers := ofNat_toNat_of_lt hreaders
    obtain ⟨ticks, hmul, hvalue⟩ := mul_toNat checks (a := ticksPerReader)
      (b := UInt64.ofNat readers) (by rwa [hword])
    rw [hword] at hvalue
    simp only [mainStep, hmul] at hs
    split_ifs at hs with hdone
    cases hs
    exact ⟨hg, ⟨hgo, hfinished, hstop, hdone, hvalue⟩, rfl, rfl, rfl, rfl, rfl⟩
  | done outcome => cases hs
  | panicked => cases hs

end Outline

/-! ## Whole runs -/

section Run

variable {checks churn : Bool} {shape : Shape} {ticksPerReader : UInt64} {readers : ℕ}

def AgentInv (checks : Bool) (shape : Shape) (churn : Bool) (ticksPerReader : UInt64) {readers : ℕ} :
    Option (Option (Fin readers)) → Shared → Agent → Prop
  | none, g, .main pc => MainInv readers ticksPerReader g pc
  | some none, g, .writer w => WriterInv shape churn g w
  | some (some i), _, .reader r => ReaderInv checks shape churn (UInt64.ofNat i) ticksPerReader r
  | _, _, _ => False

def AgentGuar {readers : ℕ} : Option (Option (Fin readers)) → Shared → Shared → Prop
  | none => MainGuar
  | some none => WriteGuar
  | some (some _) => ReadGuar

/-- what a run is started with -/
structure Fits (shape : Shape) (readers : ℕ) (ticksPerReader : UInt64) : Prop where
  partitions : 1 ≤ shape.partitions
  rows : 1 ≤ shape.rowsPerPartition
  batch : shape.routing = .pinned → 1 ≤ shape.batch
  threads : readers + shape.partitions.toNat ≤ 2 ^ 64
  ticks : ticksPerReader.toNat * readers < 2 ^ 64

theorem agent_step_ok (hfits : Fits shape readers ticksPerReader) (t : Option (Option (Fin readers)))
    (g : Shared) (a : Agent) (g' : Shared) (a' : Agent) (hg : SharedInv shape churn g)
    (ha : AgentInv checks shape churn ticksPerReader t g a)
    (hs : step checks shape readers ticksPerReader t g a = some (g', a')) :
    SharedInv shape churn g' ∧ AgentInv checks shape churn ticksPerReader t g' a' ∧ AgentGuar t g g' := by
  have hone : 1 ≤ shape.partitions.toNat := UInt16.le_iff_toNat_le.1 hfits.partitions
  have hcount := hfits.threads
  match t, a with
  | none, .main pc =>
    obtain ⟨⟨g₁, pc'⟩, hstep, hr⟩ := Option.map_eq_some_iff.1 hs
    cases hr
    exact mainStep_ok hfits.ticks (by omega) hg ha hstep
  | some none, .writer w =>
    obtain ⟨⟨g₁, w'⟩, hstep, hr⟩ := Option.map_eq_some_iff.1 hs
    cases hr
    exact writerStep_ok hfits.partitions hfits.rows hg ha hstep
  | some (some i), .reader r =>
    obtain ⟨⟨g₁, r'⟩, hstep, hr⟩ := Option.map_eq_some_iff.1 hs
    cases hr
    refine readerStep_ok hfits.partitions hfits.rows (fun _ _ => ?_) hg ha hstep
    have hi := i.isLt
    rw [ofNat_toNat_of_lt (by omega)]
    omega

theorem MainInv.stable {g g' : Shared} {pc : MainPc} (hgo : g'.go = g.go) (hstop : g'.stop = g.stop)
    (hfinished : g.finished ≤ g'.finished) (hdone : g.writerDone = true → g'.writerDone = true)
    (h : MainInv readers ticksPerReader g pc) : MainInv readers ticksPerReader g' pc := by
  cases pc with
  | go => trivial
  | joinReaders => exact hgo.trans h
  | stop => exact ⟨hgo.trans h.1, h.2.trans hfinished⟩
  | joinWriter => exact ⟨hgo.trans h.1, h.2.1.trans hfinished, hstop.trans h.2.2⟩
  | done outcome =>
    obtain ⟨h1, h2, h3, h4, h5⟩ := h
    exact ⟨hgo.trans h1, h2.trans hfinished, hstop.trans h3, hdone h4, h5⟩
  | panicked => exact h

theorem WriterInv.stable {g g' : Shared} {w : Writer} (htable : g'.table = g.table) (hchurned : g'.churned = g.churned)
    (hdone : g'.writerDone = g.writerDone) (h : WriterInv shape churn g w) : WriterInv shape churn g' w := by
  unfold WriterInv LastOk at h ⊢
  rwa [htable, hchurned, hdone]

theorem agent_stable (t u : Option (Option (Fin readers))) (g g' : Shared) (a : Agent) (hu : u ≠ t)
    (hq : AgentGuar t g g') (ha : AgentInv checks shape churn ticksPerReader u g a) :
    AgentInv checks shape churn ticksPerReader u g' a := by
  match u, a with
  | none, .main pc =>
    match t with
    | none => exact absurd rfl hu
    | some none => exact MainInv.stable hq.go hq.stop hq.finished.ge hq.writerDone ha
    | some (some i) => exact MainInv.stable hq.go hq.stop hq.finished (fun h => hq.writerDone.trans h) ha
  | some none, .writer w =>
    match t with
    | none => exact WriterInv.stable hq.table hq.churned hq.writerDone ha
    | some none => exact absurd rfl hu
    | some (some i) => exact WriterInv.stable hq.table hq.churned hq.writerDone ha
  | some (some i), .reader r => exact ha

/-- the proof outline of a run -/
def churnOutline (checks churn : Bool) (hfits : Fits shape readers ticksPerReader) :
    Outline (step checks shape readers ticksPerReader) where
  Glob := SharedInv shape churn
  Loc := AgentInv checks shape churn ticksPerReader
  Guar := AgentGuar
  step_ok := agent_step_ok hfits
  stable t u g g' a hu _ hq ha := agent_stable t u g g' a hu hq ha

theorem start_holds (checks churn : Bool) (hfits : Fits shape readers ticksPerReader) {table : TickPartitions}
    (hwithin : ∀ symbol ∈ table, symbol < shape.partitions)
    (hfull : ∀ symbol < shape.partitions, Full shape table symbol) :
    (churnOutline checks churn hfits).Holds (start churn readers table) := by
  have hlast : LastOk shape (start churn readers table).shared := by
    rw [LastOk, if_pos (show (start churn readers table).shared.churned = 0 from rfl)]
    exact hfull _ (lastSymbol_lt hfits.partitions)
  refine ⟨⟨hwithin, fun symbol hlt _ => hfull symbol hlt, fun hchurn => ⟨rfl, hlast, ?_⟩⟩, fun t => ?_⟩
  · rw [start, hchurn]
    rfl
  · match t with
    | none => trivial
    | some none =>
      cases churn with
      | true => exact ⟨⟨rfl, rfl⟩, hlast⟩
      | false => exact ⟨rfl, hlast⟩
    | some (some i) => exact ⟨rfl, rfl, Nat.zero_le _, fun _ => rfl⟩

end Run

end WtBenchmarks.PartitionTicks
