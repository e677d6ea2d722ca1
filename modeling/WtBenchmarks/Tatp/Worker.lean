/-
The TATP workers: the generated operation streams, and the seven procedures as sequences of table calls.

`call` makes one call on the tables and says what the procedure does next: another call, or its outcome. A worker takes
the operations of its stream in order; its turn in a schedule is one table call (or fetching the next operation), so
that schedules range over all interleavings of the calls. The outcomes returned so far are recorded next to the tables,
in the order in which they were returned. Counters are unbounded; latency samples are left out, and so is the count of
destination rows that is computed and dropped.
-/
import WtBenchmarks.Core.Threads
import WtBenchmarks.Tatp.Load

namespace WtBenchmarks.Tatp

open Rng (below nextU64)

inductive Kind where
  | deleteCallForwarding
  | getAccessData
  | getNewDestination
  | getSubscriberData
  | insertCallForwarding
  | updateLocation
  | updateSubscriberData
deriving DecidableEq, Repr

inductive Operation where
  | deleteCallForwarding (subNbr : String) (sfType startTime : UInt8)
  | getAccessData (sId : UInt64) (aiType : UInt8)
  | getNewDestination (sId : UInt64) (sfType startTime endTime : UInt8)
  | getSubscriberData (sId : UInt64)
  | insertCallForwarding (subNbr : String) (sfType startTime endTime : UInt8) (numberx : String)
  | updateLocation (subNbr : String) (vlrLocation : UInt32)
  | updateSubscriberData (sId : UInt64) (bit1 : UInt8) (dataA : UInt16) (sfType : UInt8)
deriving DecidableEq, Repr

def Operation.kind : Operation → Kind
  | .deleteCallForwarding .. => .deleteCallForwarding
  | .getAccessData .. => .getAccessData
  | .getNewDestination .. => .getNewDestination
  | .getSubscriberData .. => .getSubscriberData
  | .insertCallForwarding .. => .insertCallForwarding
  | .updateLocation .. => .updateLocation
  | .updateSubscriberData .. => .updateSubscriberData

inductive Outcome where
  | completed
  | expectedAbort
  | unexpectedError
deriving DecidableEq, Repr

/-! ## Streams -/

def kindForChoice (choice : UInt64) : Kind :=
  if choice ≤ 1 then .deleteCallForwarding
  else if choice ≤ 36 then .getAccessData
  else if choice ≤ 46 then .getNewDestination
  else if choice ≤ 81 then .getSubscriberData
  else if choice ≤ 83 then .insertCallForwarding
  else if choice ≤ 97 then .updateLocation
  else .updateSubscriberData

def generateOperation (config : Config) : Draw Operation := do
  let choice ← below 100
  let subscriber ← below config.subscribers
  let sId := 1 + subscriber
  let facility ← below 4
  let sfType := (1 + facility).toUInt8
  let start ← below 3
  let startTime := (8 * start).toUInt8
  match kindForChoice choice with
  | .deleteCallForwarding => pure (.deleteCallForwarding (subscriberNumber sId) sfType startTime)
  | .getAccessData =>
    let ai ← below 4
    pure (.getAccessData sId (1 + ai).toUInt8)
  | .getNewDestination =>
    let hour ← below 24
    pure (.getNewDestination sId sfType startTime (1 + hour).toUInt8)
  | .getSubscriberData => pure (.getSubscriberData sId)
  | .insertCallForwarding =>
    let hour ← below 24
    pure (.insertCallForwarding (subscriberNumber sId) sfType startTime (1 + hour).toUInt8 (subscriberNumber sId))
  | .updateLocation =>
    let location ← nextU64
    pure (.updateLocation (subscriberNumber sId) location.toUInt32)
  | .updateSubscriberData =>
    let bit1 ← below 2
    let dataA ← below 256
    pure (.updateSubscriberData sId bit1.toUInt8 dataA.toUInt16 sfType)

/-- `streams[index].push(operation)` -/
def push (streams : List (List Operation)) (index : ℕ) (operation : Operation) : Option (List (List Operation)) := do
  let stream ← streams[index]?
  some (streams.set index (stream ++ [operation]))

def generateStreams (config : Config) : Option (List (List Operation)) :=
  (((List.range config.operations.toNat).foldlM (fun (streams : List (List Operation)) operationIndex => do
      let operation ← generateOperation config
      liftM (push streams (operationIndex % config.threads) operation)) (List.replicate config.threads [])).run
    (Rng.new (config.seed ^^^ 0x6d697873))).map Prod.fst

/-! ## Procedures -/

/-- the next table call of a procedure, with what the calls before it found -/
inductive Call where
  | first (operation : Operation)
  | selectForwardings (sId : UInt64) (sfType : UInt8)
  | updateVlrLocation (sId : UInt64) (vlrLocation : UInt32)
  | updateBit1 (facility : SpecialFacilityRow) (sId : UInt64) (bit1 : UInt8) (dataA : UInt16)
  | updateFacility (facility : SpecialFacilityRow)
  | selectFacility (sId : UInt64) (sfType startTime endTime : UInt8) (numberx : String)
  | insertForwarding (sId : UInt64) (sfType startTime endTime : UInt8) (numberx : String)
  | deleteForwarding (sId : UInt64) (sfType startTime : UInt8)
deriving DecidableEq, Repr

/-- what a procedure does after a call -/
inductive Next where
  | again (call : Call)
  | done (outcome : Outcome)
deriving DecidableEq, Repr

/-- an update of one column of a subscriber -/
def updateSubscriber (tables : Tables) (sId : UInt64) (f : SubscriberRow → SubscriberRow) : Option Tables := do
  let row ← tables.subscribers.rows[sId]?
  let subscribers ← tables.subscribers.update sId (f row)
  some { tables with subscribers }

/-- the first call of each procedure -/
def firstCall (tables : Tables) : Operation → Next
  | .getSubscriberData sId =>
    if (tables.subscribers.rows[sId]?).isSome then .done .completed else .done .unexpectedError
  | .getAccessData _ _ => .done .completed
  | .getNewDestination sId sfType _ _ =>
    match tables.specialFacilities[facilityKey sId sfType]? with
    | none => .done .completed
    | some facility => if facility.isActive = 1 then .again (.selectForwardings sId sfType) else .done .completed
  | .updateLocation subNbr vlrLocation =>
    match tables.subscribers.selectByUnique subNbr with
    | none => .done .unexpectedError
    | some subscriber => .again (.updateVlrLocation subscriber.sId vlrLocation)
  | .updateSubscriberData sId bit1 dataA sfType =>
    match tables.specialFacilities[facilityKey sId sfType]? with
    | none => .done .expectedAbort
    | some facility => .again (.updateBit1 facility sId bit1 dataA)
  | .insertCallForwarding subNbr sfType startTime endTime numberx =>
    match tables.subscribers.selectByUnique subNbr with
    | none => .done .unexpectedError
    | some subscriber => .again (.selectFacility subscriber.sId sfType startTime endTime numberx)
  | .deleteCallForwarding subNbr sfType startTime =>
    match tables.subscribers.selectByUnique subNbr with
    | none => .done .unexpectedError
    | some subscriber => .again (.deleteForwarding subscriber.sId sfType startTime)

/-- one call on the tables -/
def call (tables : Tables) : Call → Tables × Next
  | .first operation => (tables, firstCall tables operation)
  | .selectForwardings _ _ => (tables, .done .completed)
  | .updateVlrLocation sId vlrLocation =>
    match updateSubscriber tables sId fun row => { row with vlrLocation } with
    | some tables => (tables, .done .completed)
    | none => (tables, .done .unexpectedError)
  | .updateBit1 facility sId bit1 dataA =>
    match updateSubscriber tables sId fun row => { row with bit1 } with
    | some tables => (tables, .again (.updateFacility { facility with dataA }))
    | none => (tables, .done .unexpectedError)
  | .updateFacility facility =>
    if facility.id ∈ tables.specialFacilities then
      ({ tables with specialFacilities := tables.specialFacilities.insert facility.id facility }, .done .completed)
    else (tables, .done .unexpectedError)
  | .selectFacility sId sfType startTime endTime numberx =>
    match tables.specialFacilities[facilityKey sId sfType]? with
    | none => (tables, .done .expectedAbort)
    | some _ => (tables, .again (.insertForwarding sId sfType startTime endTime numberx))
  | .insertForwarding sId sfType startTime endTime numberx =>
    let row : CallForwardingRow :=
      ⟨callForwardingKey sId sfType startTime, sId, sfType, startTime, facilityKey sId sfType, endTime, numberx⟩
    if h : row.id ∈ tables.callForwarding.rows then (tables, .done .expectedAbort)
    else ({ tables with callForwarding := tables.callForwarding.insertNew row.id row h }, .done .completed)
  | .deleteForwarding sId sfType startTime =>
    if callForwardingKey sId sfType startTime ∈ tables.callForwarding.rows then
      ({ tables with callForwarding := tables.callForwarding.erase (callForwardingKey sId sfType startTime) },
        .done .completed)
    else (tables, .done .expectedAbort)

/-! ## Workers -/

structure WorkerResult where
  completed : ℕ
  expectedAborts : ℕ
  unexpectedErrors : ℕ
  counts : Kind → ℕ

def WorkerResult.default : WorkerResult := ⟨0, 0, 0, fun _ => 0⟩

def WorkerResult.record (result : WorkerResult) (kind : Kind) (outcome : Outcome) : WorkerResult :=
  let result := { result with counts := Function.update result.counts kind (result.counts kind + 1) }
  match outcome with
  | .completed => { result with completed := result.completed + 1 }
  | .expectedAbort => { result with expectedAborts := result.expectedAborts + 1 }
  | .unexpectedError => { result with unexpectedErrors := result.unexpectedErrors + 1 }

/-- a worker: the rest of its stream, the procedure it is in, its result so far -/
structure Worker where
  stream : List Operation
  current : Option (Kind × Call)
  result : WorkerResult

def Worker.finished (worker : Worker) : Prop := worker.stream = [] ∧ worker.current = none

/-- the tables, and the outcomes returned so far -/
structure Shared where
  tables : Tables
  history : List (Kind × Outcome)

variable {T : Type}

/-- a worker's turn -/
def step (_ : T) (g : Shared) (worker : Worker) : Option (Shared × Worker) :=
  match worker.current with
  | none =>
    match worker.stream with
    | [] => none
    | operation :: stream => some (g, { worker with stream, current := some (operation.kind, .first operation) })
  | some (kind, c) =>
    match call g.tables c with
    | (tables, .again c) => some ({ g with tables }, { worker with current := some (kind, c) })
    | (tables, .done outcome) =>
      some ({ tables, history := g.history ++ [(kind, outcome)] },
        { worker with current := none, result := worker.result.record kind outcome })

def start (tables : Tables) (streams : T → List Operation) : Threads.State T Shared Worker :=
  ⟨⟨tables, []⟩, fun t => ⟨streams t, none, WorkerResult.default⟩⟩

/-- how many operations of a kind have completed -/
def completions (kind : Kind) (history : List (Kind × Outcome)) : ℕ := history.count (kind, .completed)

end WtBenchmarks.Tatp
