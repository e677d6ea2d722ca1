/-
The dynamic baseline table (`DynTable`, `campaigns/contention/src/dynamic.rs`) and its clients.

A client makes its calls one after the other. Each access under a lock is a step of its own, with the computation up to
the next one; the invocation and the response of a call are steps too, and go into the history. A row mutex is a number
under which the lock table finds it; a client that meets a held mutex waits. Where the source would panic (an index past
the end, bytes that do not decode) a client gives up its mutex and stops (`panicked`).

- `mapApply`: the atomic operations on a map from primary keys to rows.
-/
import Std.Data.ExtTreeMap
import WtBenchmarks.Contention.Codec
import WtBenchmarks.Core.Linearizability
import WtBenchmarks.Core.Threads

namespace WtBenchmarks.Contention

open Linearizability (Event)

/-! ## Calls -/

/-- `DynSchema::bench` -/
def cols : List String := ["id", "a", "b", "e", "c", "d"]

/-- `schema.catalog.get(col)` -/
def catalogGet (col : String) : Option ℕ := cols.idxOf? col

inductive Call where
  | insert (row : List Value)
  | select (pk : UInt64)
  | updateField (pk : UInt64) (col : String) (v : Value)

/-- an operation on a map from primary keys to rows -/
inductive Op where
  | insert (pk : UInt64) (row : List Value)
  | select (pk : UInt64)
  | updateField (pk : UInt64) (col : String) (v : Value)

inductive Ret where
  | insert (pk : UInt64)
  | select (row : Option (List Value))
  | updateField (done : Option Unit)
deriving DecidableEq

abbrev RowMap := UInt64 → Option (List Value)

/-- the atomic operations: a row is inserted or replaced, read, or changed in one column -/
def mapApply (m : RowMap) : Op → RowMap × Ret
  | .insert pk row => (Function.update m pk (some row), .insert pk)
  | .select pk => (m, .select (m pk))
  | .updateField pk col v =>
    match m pk, catalogGet col with
    | some row, some pos => (Function.update m pk (some (row.set pos v)), .updateField (some ()))
    | _, _ => (m, .updateField none)

/-! ## The table -/

structure DynTable where
  slots : List (List UInt8)
  pkIndex : Std.ExtTreeMap UInt64 ℕ
  locks : Std.ExtTreeMap UInt64 ℕ
  /-- whether a mutex is held, by its number -/
  mutexes : List Bool

def DynTable.new : DynTable := ⟨[], ∅, ∅, []⟩

/-- the row under a key, as the two reads of `select` find it -/
def DynTable.content (table : DynTable) (pk : UInt64) : Option (List Value) := do
  let idx ← table.pkIndex[pk]?
  let bytes ← table.slots[idx]?
  decode bytes

structure Shared (T : Type) where
  table : DynTable
  history : List (Event (T × ℕ) Op Ret)

/-! ## Clients -/

inductive Pc where
  | idle
  | push (pk : UInt64) (buf : List UInt8)
  | publish (pk : UInt64) (idx : ℕ)
  | lookup (pk : UInt64)
  | read (idx : ℕ)
  | lockTable (pk : UInt64) (col : String) (v : Value)
  | lockRow (pk : UInt64) (col : String) (v : Value) (mutex : ℕ)
  | find (pk : UInt64) (col : String) (v : Value) (mutex : ℕ)
  | write (idx pos : ℕ) (v : Value) (mutex : ℕ)
  | unlock (mutex : ℕ) (done : Option Unit)
  | respond (ret : Ret)
  | unwind (mutex : ℕ)
  | panicked

/-- a client with its calls, the number of the current one, and where it is in it -/
structure Client where
  calls : List Call
  turn : ℕ
  pc : Pc

variable {T : Type}

def Shared.record (g : Shared T) (event : Event (T × ℕ) Op Ret) : Shared T := { g with history := g.history ++ [event] }

/-- the invocation of the next call -/
def invoke (t : T) (g : Shared T) (c : Client) : Call → Shared T × Client
  | .insert row =>
    match row with
    | .u64 pk :: _ => (g.record (.invoke (t, c.turn) (.insert pk row)), { c with pc := .push pk (encode row) })
    | _ => (g, { c with pc := .panicked })
  | .select pk => (g.record (.invoke (t, c.turn) (.select pk)), { c with pc := .lookup pk })
  | .updateField pk col v =>
    (g.record (.invoke (t, c.turn) (.updateField pk col v)), { c with pc := .lockTable pk col v })

/-- the write of `update_field` under the lock of the slots -/
def writeSlot (table : DynTable) (idx pos : ℕ) (v : Value) : Option DynTable := do
  let bytes ← table.slots[idx]?
  let row ← decode bytes
  if pos < row.length then some { table with slots := table.slots.set idx (encode (row.set pos v)) } else none

/-- the next step of a client -/
def step (t : T) (g : Shared T) (c : Client) : Option (Shared T × Client) :=
  match c.pc with
  | .idle => c.calls[c.turn]?.map (invoke t g c)
  | .push pk buf =>
    some ({ g with table := { g.table with slots := g.table.slots ++ [buf] } },
      { c with pc := .publish pk g.table.slots.length })
  | .publish pk idx =>
    some ({ g with table := { g.table with pkIndex := g.table.pkIndex.insert pk idx } },
      { c with pc := .respond (.insert pk) })
  | .lookup pk =>
    match g.table.pkIndex[pk]? with
    | none => some (g, { c with pc := .respond (.select none) })
    | some idx => some (g, { c with pc := .read idx })
  | .read idx =>
    match g.table.slots[idx]?.bind decode with
    | none => some (g, { c with pc := .panicked })
    | some row => some (g, { c with pc := .respond (.select (some row)) })
  | .lockTable pk col v =>
    match g.table.locks[pk]? with
    | some mutex => some (g, { c with pc := .lockRow pk col v mutex })
    | none =>
      let mutex := g.table.mutexes.length
      some ({ g with table := { g.table with
          locks := g.table.locks.insert pk mutex, mutexes := g.table.mutexes ++ [false] } },
        { c with pc := .lockRow pk col v mutex })
  | .lockRow pk col v mutex =>
    if g.table.mutexes[mutex]? = some false then
      some ({ g with table := { g.table with mutexes := g.table.mutexes.set mutex true } },
        { c with pc := .find pk col v mutex })
    else none
  | .find pk col v mutex =>
    match g.table.pkIndex[pk]?, catalogGet col with
    | some idx, some pos => some (g, { c with pc := .write idx pos v mutex })
    | _, _ => some (g, { c with pc := .unlock mutex none })
  | .write idx pos v mutex =>
    match writeSlot g.table idx pos v with
    | none => some (g, { c with pc := .unwind mutex })
    | some table => some ({ g with table }, { c with pc := .unlock mutex (some ()) })
  | .unlock mutex done =>
    some ({ g with table := { g.table with mutexes := g.table.mutexes.set mutex false } },
      { c with pc := .respond (.updateField done) })
  | .respond ret => some (g.record (.respond (t, c.turn) ret), { c with turn := c.turn + 1, pc := .idle })
  | .unwind mutex =>
    some ({ g with table := { g.table with mutexes := g.table.mutexes.set mutex false } }, { c with pc := .panicked })
  | .panicked => none

/-- a new table, and clients about to make their calls -/
def start (calls : T → List Call) : Threads.State T (Shared T) Client :=
  ⟨⟨DynTable.new, []⟩, fun t => ⟨calls t, 0, .idle⟩⟩

end WtBenchmarks.Contention
