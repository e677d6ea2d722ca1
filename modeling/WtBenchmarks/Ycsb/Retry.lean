/-
The SQLite worker of the YCSB suite and its retry loop (`run_worker`, `execute_with_retry`, `execute`,
`src/bin/ycsb-sqlite.rs`).

The engine answers one statement after another, each with a row count or an error, and may cease to answer; it is any
function of the statements answered so far, so that every sequence of responses and every interleaving with other
connections is one. A statement that returns an error has no effect, so what has been applied are the writing statements
answered with a row count. The acknowledged keyspace is what the worker finds after a history, since other workers move
it too. Keys and scan bounds are bound as `i64`, a statement keeps the bits. Latency samples and the pauses between
attempts are left out.

- `Attempt`: what one call of `execute` does;
- `Execution`: what `execute_with_retry` does; `executeWithRetry_spec`;
- `Accounts`: what `run_worker` counts and acknowledges; `runWorker_spec`;
- `retries_lose_nothing`: both, for every engine.
-/
import WtBenchmarks.Core.Logged
import WtBenchmarks.Ycsb.Worker

namespace WtBenchmarks.Ycsb.Sqlite

/-! ## Model -/

/-- the errors of `rusqlite` that the worker tells apart -/
inductive Error where
  | databaseBusy | databaseLocked | queryReturnedNoRows | other
deriving DecidableEq, Repr

def retryable : Error → Bool
  | .databaseBusy | .databaseLocked => true
  | .queryReturnedNoRows | .other => false

/-- the statements of the worker, with their parameters -/
inductive Statement where
  | select (key : UInt64)
  | update (field : UInt8) (value : List UInt8) (key : UInt64)
  | insert (key : UInt64) (fields : Fields)
  | selectRange (start length : UInt64)

def Statement.writes : Statement → Bool
  | .update _ _ _ | .insert _ _ => true
  | .select _ | .selectRange _ _ => false

/-- the rows read or changed -/
abbrev Response := Except Error ℕ

inductive Event where
  /-- `execute` is called -/
  | attempt
  | call (statement : Statement) (response : Response)
  | acknowledge (key : UInt64)

/-- the response to a statement after a history -/
abbrev Engine := List Event → Statement → Option Response

/-- why a worker goes no further: no response comes, or it has panicked -/
inductive Stop where
  | pending | panicked
deriving DecidableEq, Repr

abbrev Sql := Logged Event Stop

section Model

variable (engine : Engine)

def call (statement : Statement) : Sql Response := do
  let log ← Logged.history
  match engine log statement with
  | none => Logged.stop .pending
  | some response => do
    Logged.emit (.call statement response)
    pure response

def read (key : UInt64) : Sql (Except Error Bool) := do
  match ← call engine (.select key) with
  | .ok _ => pure (.ok true)
  | .error .queryReturnedNoRows => pure (.ok false)
  | .error error => pure (.error error)

def update (key : UInt64) (field : UInt8) (value : List UInt8) : Sql (Except Error Bool) :=
  if field < 10 then do
    let updated ← call engine (.update field value key)
    pure (updated.map (· == 1))
  else pure (.ok false)

def insert (key : UInt64) (fields : Fields) : Sql (Except Error Bool) := do
  let inserted ← call engine (.insert key fields)
  pure (inserted.map (· == 1))

def scan (start length : UInt64) : Sql (Except Error Bool) := do
  let rows ← call engine (.selectRange start length)
  pure (rows.map fun _ => true)

/-- one attempt at an operation -/
def execute (operation : Operation) (acknowledgedRead : Option UInt64) : Sql (Except Error Bool) :=
  match operation with
  | .read key => read engine key
  | .readAcknowledged _ _ =>
    match acknowledgedRead with
    | none => Logged.stop .panicked
    | some key => read engine key
  | .update key field value => update engine key field value
  | .insert key fields => insert engine key fields
  | .scan start length => scan engine start length
  | .readModifyWrite key field value => do
    match ← read engine key with
    | .error error => pure (.error error)
    | .ok found => if found then update engine key field value else pure (.ok false)

/-- the loop, entered with the retries made so far -/
def retryLoop (operation : Operation) (acknowledgedRead : Option UInt64) (retries : ℕ) : Sql (Bool × ℕ) := do
  Logged.emit .attempt
  match ← execute engine operation acknowledgedRead with
  | .ok success => pure (success, retries)
  | .error error =>
    if _h : retryable error ∧ retries < 1000 then retryLoop operation acknowledgedRead (retries + 1)
    else pure (false, retries)
termination_by 1000 - retries

def executeWithRetry (operation : Operation) (acknowledgedRead : Option UInt64) : Sql (Bool × ℕ) :=
  retryLoop engine operation acknowledgedRead 0

structure WorkerResult extends Ycsb.WorkerResult where
  retryableErrors : ℕ

def WorkerResult.default : WorkerResult := ⟨.empty, 0⟩

/-- the bookkeeping after one operation -/
def WorkerResult.record (result : WorkerResult) (kind : OperationKind) (success : Bool) (retries : ℕ) : WorkerResult :=
  ⟨result.toWorkerResult.record kind success, result.retryableErrors + retries⟩

variable {K : Type} [Field K] [LinearOrder K] {pow : ExactPow K} {T : Type}
  (acknowledged : Option (List Event → AcknowledgedKeyspace T pow))

/-- the key of an acknowledged read -/
def resolveRead (operation : Operation) : Sql (Option UInt64) :=
  match operation with
  | .readAcknowledged sample distribution => do
    let log ← Logged.history
    match acknowledged.bind fun keyspace => resolve (keyspace log) sample distribution with
    | none => Logged.stop .panicked
    | some key => pure (some key)
  | _ => pure none

/-- a successful insert is acknowledged, if there is a keyspace -/
def acknowledgeInsert (operation : Operation) (success : Bool) : Sql Unit :=
  match operation with
  | .insert key _ => if success ∧ acknowledged.isSome then Logged.emit (.acknowledge key) else pure ()
  | _ => pure ()

def turn (result : WorkerResult) (operation : Operation) : Sql WorkerResult := do
  let acknowledgedRead ← resolveRead acknowledged operation
  let outcome ← executeWithRetry engine operation acknowledgedRead
  acknowledgeInsert acknowledged operation outcome.1
  pure (result.record operation.kind outcome.1 outcome.2)

def runWorker (stream : List Operation) : Sql WorkerResult := stream.foldlM (turn engine acknowledged) .default

end Model

/-! ## What a log shows -/

def Event.isAttempt : Event → Bool
  | .attempt => true
  | _ => false

def Event.isBusy : Event → Bool
  | .call _ (.error error) => retryable error
  | _ => false

/-- the writing statement that was applied -/
def Event.applied : Event → Option Statement
  | .call statement (.ok _) => if statement.writes then some statement else none
  | _ => none

def Event.acknowledged : Event → Option UInt64
  | .acknowledge key => some key
  | _ => none

def attempts (events : List Event) : ℕ := events.countP Event.isAttempt

/-- the busy and locked errors -/
def busyErrors (events : List Event) : ℕ := events.countP Event.isBusy

def applied (events : List Event) : List Statement := events.filterMap Event.applied

def acknowledgedKeys (events : List Event) : List UInt64 := events.filterMap Event.acknowledged

/-- the write of an operation -/
def write : Operation → Option Statement
  | .update key field value | .readModifyWrite key field value => some (.update field value key)
  | .insert key fields => some (.insert key fields)
  | .read _ | .readAcknowledged _ _ | .scan _ _ => none

/-- the statement an operation reads with -/
def Reads : Operation → Statement → Prop
  | .read key, statement | .readModifyWrite key _ _, statement => statement = .select key
  | .readAcknowledged _ _, statement => ∃ key, statement = .select key
  | .scan start length, statement => statement = .selectRange start length
  | .update _ _ _, _ | .insert _ _, _ => False

/-- an update of a field that the table does not have -/
def Unknown (operation : Operation) : Prop :=
  ∃ field value key, write operation = some (.update field value key) ∧ ¬ field < 10

/-! ## One attempt -/

/-- what `execute` makes of the response that ends an attempt -/
def Answers (statement : Statement) : Response → Except Error Bool → Prop
  | .error error, .error error' => error = error'
  | .error error, .ok success => error = .queryReturnedNoRows ∧ success = false
  | .ok rows, .ok success => statement.writes → success = decide (rows = 1)
  | .ok _, .error _ => False

/-- one call of `execute`: it ends with the response to the operation's own read or write, or without a statement if
the worker goes no further or the field is unknown. The row of a read-modify-write is read before. An operation that has
a write succeeds by it. -/
inductive Attempt (operation : Operation) : List Event → Except Stop (Except Error Bool) → Prop where
  | stopped (reason : Stop) : Attempt operation [] (.error reason)
  | refused (hunknown : Unknown operation) : Attempt operation [] (.ok (.ok false))
  | read {statement response result} (hreads : Reads operation statement)
      (hresult : write operation = none ∨ result ≠ .ok true) (hanswer : Answers statement response result) :
      Attempt operation [.call statement response] (.ok result)
  | wrote {statement response result} (hwrites : statement.writes = true) (hown : write operation = some statement)
      (hanswer : Answers statement response result) : Attempt operation [.call statement response] (.ok result)
  | after {key} (rows : ℕ) {events result} (hreads : Reads operation (.select key))
      (hrest : Attempt operation events result) : Attempt operation (.call (.select key) (.ok rows) :: events) result

theorem Reads.writes {operation : Operation} {statement : Statement} (h : Reads operation statement) :
    statement.writes = false := by
  cases operation with
  | read | readModifyWrite | scan =>
    cases h
    rfl
  | readAcknowledged =>
    obtain ⟨key, rfl⟩ := h
    rfl
  | update | insert => exact absurd h id

/-- a computation that stops waits for a response that does not come, or has panicked for a reason `panics` -/
def StopsFor {α : Type} (engine : Engine) (log : List Event) (panics : Prop) (events : List Event) :
    Except Stop α → Prop
  | .error .pending => ∃ statement, engine (log ++ events) statement = none
  | .error .panicked => panics
  | .ok _ => True

/-- one statement at most, and what is made of its response -/
def Settled (statement : Statement) (events : List Event) : Except Stop (Except Error Bool) → Prop
  | .error _ => events = []
  | .ok answer => ∃ response, events = [.call statement response] ∧ Answers statement response answer

section Attempt

variable {operation : Operation}

theorem StopsFor.append {α : Type} {engine : Engine} {panics : Prop} {log events more : List Event}
    {result : Except Stop α} (h : StopsFor engine (log ++ events) panics more result) :
    StopsFor engine log panics (events ++ more) result := by
  cases result with
  | ok a => trivial
  | error reason =>
    cases reason with
    | panicked => exact h
    | pending =>
      obtain ⟨statement, hnone⟩ := h
      exact ⟨statement, by rw [← List.append_assoc]; exact hnone⟩

theorem StopsFor.mono {α : Type} {engine : Engine} {panics panics' : Prop} {log events : List Event}
    {result : Except Stop α} (h : StopsFor engine log panics events result) (hpanics : panics → panics') :
    StopsFor engine log panics' events result := by
  cases result with
  | ok a => trivial
  | error reason =>
    cases reason with
    | pending => exact h
    | panicked => exact hpanics h

theorem StopsFor.error {α β : Type} {engine : Engine} {panics : Prop} {log events : List Event} {reason : Stop}
    (h : StopsFor engine log panics events (.error reason : Except Stop α)) :
    StopsFor engine log panics events (.error reason : Except Stop β) := by
  cases reason <;> exact h

variable (engine : Engine) (log : List Event) (panics : Prop)

theorem call_spec (statement : Statement) :
    Logged.Appends log (fun events result => StopsFor engine log panics events result ∧
      match result with
      | .ok response => events = [.call statement response]
      | .error _ => events = []) (call engine statement) := by
  unfold call
  refine Logged.Appends.history ?_
  cases hresponse : engine log statement with
  | none => exact Logged.Appends.stop ⟨⟨statement, by simpa using hresponse⟩, rfl⟩
  | some response => exact Logged.Appends.emit (Logged.Appends.pure ⟨trivial, rfl⟩)

/-- a call whose response is turned into the result of an attempt -/
theorem settle_spec {statement : Statement} {f : Response → Sql (Except Error Bool)}
    (hf : ∀ response, ∃ answer, f response = pure answer ∧ Answers statement response answer) :
    Logged.Appends log (fun events result => StopsFor engine log panics events result ∧
      Settled statement events result) (call engine statement >>= f) := by
  refine (call_spec engine log panics statement).bind ?_ ?_
  · intro events response h
    obtain ⟨answer, hanswer, hsettled⟩ := hf response
    rw [hanswer]
    exact Logged.Appends.pure ⟨trivial, response, by simpa using h.2, hsettled⟩
  · intro events reason h
    exact ⟨h.1.error, h.2⟩

theorem read_spec (key : UInt64) :
    Logged.Appends log (fun events result => StopsFor engine log panics events result ∧
      Settled (.select key) events result) (read engine key) := by
  refine settle_spec engine log panics fun response => ?_
  cases response with
  | ok rows => exact ⟨.ok true, rfl, nofun⟩
  | error error => cases error <;> exact ⟨_, rfl, by simp [Answers]⟩

theorem answers_map (statement : Statement) (response : Response) :
    Answers statement response (response.map (· == 1)) := by
  cases response with
  | ok rows => exact fun _ => rfl
  | error error => rfl

theorem update_spec (key : UInt64) {field : UInt8} (value : List UInt8) (hfield : field < 10) :
    Logged.Appends log (fun events result => StopsFor engine log panics events result ∧
      Settled (.update field value key) events result) (update engine key field value) := by
  unfold update
  rw [if_pos hfield]
  exact settle_spec engine log panics fun response => ⟨_, rfl, answers_map _ response⟩

theorem insert_spec (key : UInt64) (fields : Fields) :
    Logged.Appends log (fun events result => StopsFor engine log panics events result ∧
      Settled (.insert key fields) events result) (insert engine key fields) :=
  settle_spec engine log panics fun response => ⟨_, rfl, answers_map _ response⟩

theorem scan_spec (start length : UInt64) :
    Logged.Appends log (fun events result => StopsFor engine log panics events result ∧
      Settled (.selectRange start length) events result) (scan engine start length) := by
  refine settle_spec engine log panics fun response => ⟨_, rfl, ?_⟩
  cases response with
  | ok rows => exact nofun
  | error error => rfl

theorem Settled.read {statement : Statement} {events : List Event} {result : Except Stop (Except Error Bool)}
    (h : Settled statement events result) (hreads : Reads operation statement)
    (hresult : write operation = none ∨ result ≠ .ok (.ok true)) : Attempt operation events result := by
  cases result with
  | error reason =>
    cases h
    exact .stopped reason
  | ok answer =>
    obtain ⟨response, rfl, hanswer⟩ := h
    exact .read hreads (hresult.imp id fun hne heq => hne (congrArg _ heq)) hanswer

theorem Settled.wrote {statement : Statement} {events : List Event} {result : Except Stop (Except Error Bool)}
    (h : Settled statement events result) (hwrites : statement.writes = true)
    (hown : write operation = some statement) : Attempt operation events result := by
  cases result with
  | error reason =>
    cases h
    exact .stopped reason
  | ok answer =>
    obtain ⟨response, rfl, hanswer⟩ := h
    exact .wrote hwrites hown hanswer

/-- the update of an operation, or its refusal -/
theorem update_attempt {key : UInt64} {field : UInt8} {value : List UInt8}
    (hown : write operation = some (.update field value key)) :
    Logged.Appends log (fun events result => StopsFor engine log panics events result ∧
      Attempt operation events result) (update engine key field value) := by
  by_cases hfield : field < 10
  · exact (update_spec engine log panics key value hfield).mono fun events result h => ⟨h.1, h.2.wrote rfl hown⟩
  · unfold update
    rw [if_neg hfield]
    exact Logged.Appends.pure ⟨trivial, .refused ⟨field, value, key, hown, hfield⟩⟩

/-- an acknowledged read whose key has not been resolved -/
def Unresolved (operation : Operation) (acknowledgedRead : Option UInt64) : Prop :=
  (∃ sample distribution, operation = .readAcknowledged sample distribution) ∧ acknowledgedRead = none

/-- **One attempt.** -/
theorem execute_spec (operation : Operation) (acknowledgedRead : Option UInt64) :
    Logged.Appends log (fun events result =>
      StopsFor engine log (Unresolved operation acknowledgedRead) events result ∧ Attempt operation events result)
      (execute engine operation acknowledgedRead) := by
  set panics := Unresolved operation acknowledgedRead with hpanics
  cases operation with
  | read key => exact (read_spec engine log panics key).mono fun events result h => ⟨h.1, h.2.read rfl (Or.inl rfl)⟩
  | readAcknowledged sample distribution =>
    cases acknowledgedRead with
    | none => exact Logged.Appends.stop ⟨⟨⟨sample, distribution, rfl⟩, rfl⟩, .stopped _⟩
    | some key =>
      exact (read_spec engine log panics key).mono fun events result h => ⟨h.1, h.2.read ⟨key, rfl⟩ (Or.inl rfl)⟩
  | update key field value => exact update_attempt engine log panics rfl
  | insert key fields =>
    exact (insert_spec engine log panics key fields).mono fun events result h => ⟨h.1, h.2.wrote rfl rfl⟩
  | scan start length =>
    exact (scan_spec engine log panics start length).mono fun events result h => ⟨h.1, h.2.read rfl (Or.inl rfl)⟩
  | readModifyWrite key field value =>
    refine (read_spec engine log panics key).bind ?_ ?_
    · intro events answer h
      obtain ⟨-, response, rfl, hanswer⟩ := h
      cases answer with
      | error error =>
        exact Logged.Appends.pure ⟨trivial, by simpa using .read rfl (Or.inr nofun) hanswer⟩
      | ok found =>
        cases found with
        | false => exact Logged.Appends.pure ⟨trivial, by simpa using .read rfl (Or.inr nofun) hanswer⟩
        | true =>
          cases response with
          | error error => exact absurd hanswer.2 nofun
          | ok rows =>
            have hown : write (.readModifyWrite key field value) = some (.update field value key) := rfl
            refine (update_attempt engine _ panics hown).mono fun more result hmore => ?_
            exact ⟨hmore.1.append, .after rows rfl hmore.2⟩
    · intro events reason h
      obtain ⟨hstop, hnone⟩ := h
      subst hnone
      exact ⟨hstop.error, .stopped reason⟩

end Attempt

/-! ## The retry loop -/

/-- the result of the loop when its last attempt ends -/
def verdict (outcome : Except Stop (Except Error Bool)) (retries : ℕ) : Except Stop (Bool × ℕ) :=
  match outcome with
  | .error reason => .error reason
  | .ok (.ok success) => .ok (success, retries)
  | .ok (.error _) => .ok (false, retries)

/-- the attempts of the loop: all but the last ended with a busy or locked error and were retried; the last one was not,
or a thousand retries had been made -/
def Split (operation : Operation) (retries : ℕ) (events : List Event) (result : Except Stop (Bool × ℕ)) : Prop :=
  ∃ (failed : List (List Event)) (last : List Event) (outcome : Except Stop (Except Error Bool)),
    events = failed.flatMap (.attempt :: ·) ++ .attempt :: last ∧
    retries + failed.length ≤ 1000 ∧
    (∀ attempt ∈ failed, ∃ error, retryable error = true ∧ Attempt operation attempt (.ok (.error error))) ∧
    Attempt operation last outcome ∧ result = verdict outcome (retries + failed.length) ∧
    ∀ error, outcome = .ok (.error error) → retryable error = true → retries + failed.length = 1000

theorem Split.last {operation : Operation} {retries : ℕ} {last : List Event}
    {outcome : Except Stop (Except Error Bool)} (hretries : retries ≤ 1000) (hlast : Attempt operation last outcome)
    (hfinal : ∀ error, outcome = .ok (.error error) → retryable error = true → retries = 1000) :
    Split operation retries (.attempt :: last) (verdict outcome retries) :=
  ⟨[], last, outcome, rfl, hretries, nofun, hlast, rfl, hfinal⟩

theorem Split.retried {operation : Operation} {retries : ℕ} {attempt events : List Event} {error : Error}
    {result : Except Stop (Bool × ℕ)} (hattempt : Attempt operation attempt (.ok (.error error)))
    (herror : retryable error = true) (h : Split operation (retries + 1) events result) :
    Split operation retries (.attempt :: attempt ++ events) result := by
  obtain ⟨failed, last, outcome, rfl, hbound, hfailed, hlast, hresult, hfinal⟩ := h
  have hcount : retries + (attempt :: failed).length = retries + 1 + failed.length := by
    rw [List.length_cons]
    omega
  refine ⟨attempt :: failed, last, outcome, by simp, hcount ▸ hbound, fun a ha => ?_, hlast, hcount ▸ hresult,
    fun e he hretry => hcount ▸ hfinal e he hretry⟩
  rcases List.mem_cons.1 ha with rfl | ha
  · exact ⟨error, herror, hattempt⟩
  · exact hfailed a ha

/-- **The loop.** -/
theorem retryLoop_spec (engine : Engine) (operation : Operation) (acknowledgedRead : Option UInt64) (log : List Event)
    (retries : ℕ) (hretries : retries ≤ 1000) :
    Logged.Appends log (fun events result =>
      StopsFor engine log (Unresolved operation acknowledgedRead) events result ∧
        Split operation retries events result)
      (retryLoop engine operation acknowledgedRead retries) := by
  induction hleft : 1000 - retries using Nat.strong_induction_on generalizing retries log with
  | _ left ih =>
    rw [retryLoop]
    refine Logged.Appends.emit ((execute_spec engine _ operation acknowledgedRead).bind ?_ ?_)
    · intro attempt answer h
      obtain ⟨-, hattempt⟩ := h
      cases answer with
      | ok success =>
        refine Logged.Appends.pure ⟨trivial, ?_⟩
        rw [List.append_nil]
        exact Split.last hretries hattempt nofun
      | error error =>
        dsimp only
        split_ifs with hagain
        · refine (ih (1000 - (retries + 1)) (by omega) _ (retries + 1) (by omega) rfl).mono fun events result h => ?_
          obtain ⟨hstops, hsplit⟩ := h
          refine ⟨?_, Split.retried hattempt hagain.1 hsplit⟩
          rw [List.append_assoc] at hstops
          exact hstops.append
        · refine Logged.Appends.pure ⟨trivial, ?_⟩
          have hfinal : ∀ error', (.ok (.error error) : Except Stop (Except Error Bool)) = .ok (.error error') →
              retryable error' = true → retries = 1000 := by
            intro error' heq hretry
            cases heq
            have hnot : ¬ retries < 1000 := fun hlt => hagain ⟨hretry, hlt⟩
            omega
          rw [List.append_nil]
          exact Split.last hretries hattempt hfinal
    · intro attempt reason h
      obtain ⟨hstops, hattempt⟩ := h
      refine ⟨?_, Split.last hretries hattempt nofun⟩
      have hsum := StopsFor.append hstops
      exact hsum.error

/-! ## What the loop shows -/

section Counts

variable {operation : Operation} {events : List Event} {result : Except Stop (Except Error Bool)}

theorem Attempt.attempts (h : Attempt operation events result) : attempts events = 0 := by
  induction h with
  | stopped | refused | read | wrote => rfl
  | after rows _ _ ih => exact ih

theorem Attempt.acknowledgedKeys (h : Attempt operation events result) : acknowledgedKeys events = [] := by
  induction h with
  | stopped | refused | read | wrote => rfl
  | after rows _ _ ih => exact ih

/-- one if an attempt ends with a busy or locked error -/
def busyEnd : Except Stop (Except Error Bool) → ℕ
  | .ok (.error error) => (retryable error).toNat
  | _ => 0

theorem Answers.busyErrors {statement : Statement} {response : Response} {answer : Except Error Bool}
    (h : Answers statement response answer) : busyErrors [.call statement response] = busyEnd (.ok answer) := by
  cases response with
  | ok rows =>
    cases answer with
    | ok success => rfl
    | error error => exact absurd h id
  | error error =>
    cases answer with
    | ok success =>
      obtain ⟨rfl, -⟩ := h
      rfl
    | error error' =>
      cases h
      cases error <;> rfl

theorem Attempt.busyErrors (h : Attempt operation events result) : busyErrors events = busyEnd result := by
  induction h with
  | stopped | refused => rfl
  | read _ _ hanswer => exact hanswer.busyErrors
  | wrote _ _ hanswer => exact hanswer.busyErrors
  | after rows _ _ ih => exact ih

/-- an attempt applies the write of its operation or nothing, and nothing if it ends with an error or stops -/
theorem Attempt.applied (h : Attempt operation events result) :
    applied events = [] ∨ ∃ statement success, write operation = some statement ∧ applied events = [statement] ∧
      result = .ok (.ok success) := by
  induction h with
  | stopped | refused => exact Or.inl rfl
  | @read statement response result hreads _ _ =>
    left
    cases response <;> simp [Sqlite.applied, Event.applied, hreads.writes]
  | @wrote statement response result hwrites hown hanswer =>
    cases response with
    | error error => exact Or.inl rfl
    | ok rows =>
      right
      cases result with
      | error error => exact absurd hanswer id
      | ok success => exact ⟨statement, success, hown, by simp [Sqlite.applied, Event.applied, hwrites], rfl⟩
  | after rows _ _ ih => exact ih

/-- an operation with a write succeeds by it -/
theorem Attempt.applied_of_success (h : Attempt operation events (.ok (.ok true))) {statement : Statement}
    (hown : write operation = some statement) : Sqlite.applied events = [statement] := by
  generalize hresult : (.ok (.ok true) : Except Stop (Except Error Bool)) = result at h
  induction h with
  | stopped | refused => cases hresult
  | read _ hreads _ =>
    cases hresult
    rcases hreads with hnone | hne
    · rw [hown] at hnone
      cases hnone
    · exact absurd rfl hne
  | @wrote statement' response result hwrites hown' hanswer =>
    cases hresult
    rw [hown] at hown'
    cases hown'
    cases response with
    | error error => exact absurd hanswer.2 nofun
    | ok rows => simp [Sqlite.applied, Event.applied, hwrites]
  | after rows _ _ ih => exact ih hresult

end Counts

theorem attempts_append (a b : List Event) : attempts (a ++ b) = attempts a + attempts b := List.countP_append

theorem busyErrors_append (a b : List Event) : busyErrors (a ++ b) = busyErrors a + busyErrors b := List.countP_append

theorem applied_append (a b : List Event) : applied (a ++ b) = applied a ++ applied b := List.filterMap_append

theorem acknowledgedKeys_append (a b : List Event) :
    acknowledgedKeys (a ++ b) = acknowledgedKeys a ++ acknowledgedKeys b := List.filterMap_append

theorem attempts_attempt (events : List Event) : attempts (.attempt :: events) = attempts events + 1 :=
  List.countP_cons_of_pos rfl

/-- attempts that were retried: one busy or locked error each, and nothing applied -/
theorem retried_counts {operation : Operation} {failed : List (List Event)}
    (h : ∀ attempt ∈ failed, ∃ error, retryable error = true ∧ Attempt operation attempt (.ok (.error error))) :
    attempts (failed.flatMap (.attempt :: ·)) = failed.length ∧
      busyErrors (failed.flatMap (.attempt :: ·)) = failed.length ∧
      applied (failed.flatMap (.attempt :: ·)) = [] ∧ acknowledgedKeys (failed.flatMap (.attempt :: ·)) = [] := by
  induction failed with
  | nil => exact ⟨rfl, rfl, rfl, rfl⟩
  | cons attempt failed ih =>
    obtain ⟨hattempts, hbusy, happlied, hacknowledged⟩ := ih fun a ha => h a (List.mem_cons_of_mem _ ha)
    obtain ⟨error, hretry, hattempt⟩ := h attempt List.mem_cons_self
    have hcount : busyErrors attempt = 1 := by
      rw [hattempt.busyErrors, busyEnd, hretry]
      rfl
    have hnone : applied attempt = [] := by
      rcases hattempt.applied with hnone | ⟨statement, success, -, -, hresult⟩
      · exact hnone
      · cases hresult
    rw [List.flatMap_cons, List.length_cons]
    refine ⟨?_, ?_, ?_, ?_⟩
    · rw [attempts_append, attempts_attempt, hattempt.attempts, hattempts]
      omega
    · rw [busyErrors_append, hbusy]
      change busyErrors attempt + _ = _
      omega
    · rw [applied_append, happlied]
      change applied attempt ++ _ = _
      rw [hnone, List.append_nil]
    · rw [acknowledgedKeys_append, hacknowledged]
      change acknowledgedKeys attempt ++ _ = _
      rw [hattempt.acknowledgedKeys, List.append_nil]

/-- what `execute_with_retry` does: its attempts, at most 1001; the retries it returns, one for each busy or locked
error that it retried, which are all of them unless it gave up after a thousand; its own write, applied once at most,
and once if an operation that has one succeeds -/
structure Execution (operation : Operation) (events : List Event) (result : Except Stop (Bool × ℕ)) : Prop where
  split : Split operation 0 events result
  attempts : attempts events ≤ 1001
  retries : ∀ success retries, result = .ok (success, retries) → Sqlite.attempts events = retries + 1 ∧
    (busyErrors events = retries ∨ success = false ∧ retries = 1000 ∧ busyErrors events = retries + 1)
  applied : (applied events).length ≤ 1
  own : ∀ statement ∈ Sqlite.applied events, write operation = some statement
  success : ∀ retries statement, result = .ok (true, retries) → write operation = some statement →
    Sqlite.applied events = [statement]
  acknowledged : acknowledgedKeys events = []

theorem Split.execution {operation : Operation} {events : List Event} {result : Except Stop (Bool × ℕ)}
    (h : Split operation 0 events result) : Execution operation events result := by
  obtain ⟨failed, last, outcome, hevents, hbound, hfailed, hlast, hresult, hfinal⟩ := id h
  obtain ⟨hattempts, hbusy, happlied, hacknowledged⟩ := retried_counts hfailed
  rw [Nat.zero_add] at hbound hresult hfinal
  have hall : attempts events = failed.length + 1 := by
    rw [hevents, attempts_append, attempts_attempt, hlast.attempts, hattempts]
  have herrors : busyErrors events = failed.length + busyEnd outcome := by
    rw [hevents, busyErrors_append, hbusy, ← hlast.busyErrors]
    rfl
  have hwritten : applied events = applied last := by
    rw [hevents, applied_append, happlied]
    rfl
  refine ⟨h, by omega, fun success retries hok => ?_, ?_, ?_, fun retries statement hok hown => ?_, ?_⟩
  · rw [hresult] at hok
    cases outcome with
    | error reason => cases hok
    | ok answer =>
      cases answer with
      | ok success' =>
        cases hok
        exact ⟨hall, Or.inl herrors⟩
      | error error =>
        cases hok
        refine ⟨hall, ?_⟩
        cases hretry : retryable error with
        | false =>
          left
          rw [herrors, busyEnd, hretry]
          rfl
        | true =>
          right
          refine ⟨rfl, hfinal error rfl hretry, ?_⟩
          rw [herrors, busyEnd, hretry]
          rfl
  · rw [hwritten]
    rcases hlast.applied with hnone | ⟨statement, success, -, hone, -⟩
    · rw [hnone]
      exact Nat.zero_le 1
    · rw [hone]
      exact le_rfl
  · intro statement hmem
    rw [hwritten] at hmem
    rcases hlast.applied with hnone | ⟨statement', success, hown, hone, -⟩
    · rw [hnone] at hmem
      cases hmem
    · rw [hone] at hmem
      rw [List.mem_singleton.1 hmem]
      exact hown
  · rw [hwritten]
    rw [hresult] at hok
    cases outcome with
    | error reason => cases hok
    | ok answer =>
      cases answer with
      | error error => cases hok
      | ok success =>
        cases hok
        exact hlast.applied_of_success hown
  · rw [hevents, acknowledgedKeys_append, hacknowledged]
    exact hlast.acknowledgedKeys

theorem executeWithRetry_spec (engine : Engine) (operation : Operation) (acknowledgedRead : Option UInt64)
    (log : List Event) :
    Logged.Appends log (fun events result =>
      StopsFor engine log (Unresolved operation acknowledgedRead) events result ∧ Execution operation events result)
      (executeWithRetry engine operation acknowledgedRead) :=
  (retryLoop_spec engine operation acknowledgedRead log 0 (Nat.zero_le _)).mono fun _ _ h => ⟨h.1, h.2.execution⟩

/-! ## The worker -/

/-- one operation of a stream: what `execute_with_retry` did, and what it returned -/
structure Turn where
  operation : Operation
  events : List Event
  success : Bool
  retries : ℕ

/-- the turn ran as the retry loop does -/
def Turn.Executed (t : Turn) : Prop := Execution t.operation t.events (.ok (t.success, t.retries))

/-- the key a turn acknowledges -/
def Turn.inserted (t : Turn) : Option UInt64 := if t.success then t.operation.insertKey else none

/-- the turn with its acknowledgement -/
def Turn.log (shared : Bool) (t : Turn) : List Event :=
  t.events ++ if shared then t.inserted.toList.map .acknowledge else []

/-- the stream, turn after turn, until it ends or a turn stops -/
inductive Worked (shared : Bool) : WorkerResult → List Operation → List Event → Except Stop WorkerResult → Prop where
  | done (result : WorkerResult) : Worked shared result [] [] (.ok result)
  | stopped {result operation rest events reason} (h : events = [] ∨ Execution operation events (.error reason)) :
      Worked shared result (operation :: rest) events (.error reason)
  | turn (t : Turn) {result rest events outcome} (hexecuted : t.Executed)
      (hrest : Worked shared (result.record t.operation.kind t.success t.retries) rest events outcome) :
      Worked shared result (t.operation :: rest) (t.log shared ++ events) outcome

section Worker

variable {K : Type} [Field K] [LinearOrder K] {pow : ExactPow K} {T : Type}

/-- a read that finds a keyspace on which it cannot be resolved, or none -/
def Unresolvable (acknowledged : Option (List Event → AcknowledgedKeyspace T pow)) (operation : Operation) : Prop :=
  ∃ sample distribution log, operation = .readAcknowledged sample distribution ∧
    (acknowledged.bind fun keyspace => resolve (keyspace log) sample distribution) = none

variable (engine : Engine) (acknowledged : Option (List Event → AcknowledgedKeyspace T pow))

theorem acknowledgeInsert_spec (log : List Event) (t : Turn) :
    Logged.Appends log (fun events result => result = .ok () ∧
      events = if acknowledged.isSome then t.inserted.toList.map .acknowledge else [])
      (acknowledgeInsert acknowledged t.operation t.success) := by
  obtain ⟨operation, events, success, retries⟩ := t
  cases operation with
  | insert key fields =>
    unfold acknowledgeInsert
    dsimp only
    by_cases h : success ∧ acknowledged.isSome
    · rw [if_pos h]
      exact Logged.Appends.emitted ⟨rfl, by simp [Turn.inserted, h.1, h.2, Operation.insertKey]⟩
    · rw [if_neg h]
      refine Logged.Appends.pure ⟨rfl, ?_⟩
      cases success with
      | false => simp [Turn.inserted]
      | true => rw [if_neg fun hshared => h ⟨rfl, hshared⟩]
  | _ => exact Logged.Appends.pure ⟨rfl, by cases success <;> simp [Turn.inserted, Operation.insertKey]⟩

theorem resolveRead_spec (log : List Event) (operation : Operation) :
    Logged.Appends log (fun events result => events = [] ∧
      match result with
      | .ok acknowledgedRead => ¬ Unresolved operation acknowledgedRead
      | .error reason => reason = .panicked ∧ Unresolvable acknowledged operation)
      (resolveRead acknowledged operation) := by
  cases operation with
  | readAcknowledged sample distribution =>
    refine Logged.Appends.history ?_
    cases hkey : acknowledged.bind fun keyspace => resolve (keyspace log) sample distribution with
    | none => exact Logged.Appends.stop ⟨rfl, rfl, sample, distribution, log, rfl, hkey⟩
    | some key => exact Logged.Appends.pure ⟨rfl, fun h => by cases h.2⟩
  | _ => exact Logged.Appends.pure ⟨rfl, fun h => by obtain ⟨⟨sample, distribution, heq⟩, -⟩ := h; cases heq⟩

/-- **One operation of the stream.** -/
theorem turn_spec (log : List Event) (result : WorkerResult) (operation : Operation) :
    Logged.Appends log (fun events outcome =>
      StopsFor engine log (Unresolvable acknowledged operation) events outcome ∧
      match outcome with
      | .ok result' => ∃ t : Turn, t.operation = operation ∧ t.Executed ∧
          events = t.log acknowledged.isSome ∧ result' = result.record operation.kind t.success t.retries
      | .error reason => events = [] ∨ Execution operation events (.error reason))
      (turn engine acknowledged result operation) := by
  unfold turn
  refine (resolveRead_spec acknowledged log operation).bind ?_ ?_
  · intro before acknowledgedRead h
    obtain ⟨rfl, hresolved⟩ := h
    refine (executeWithRetry_spec engine operation acknowledgedRead _).bind ?_ ?_
    · intro events outcome h
      obtain ⟨-, hexecution⟩ := h
      obtain ⟨success, retries⟩ := outcome
      refine (acknowledgeInsert_spec acknowledged _ ⟨operation, events, success, retries⟩).bind ?_ ?_
      · intro acks _ h
        obtain ⟨-, rfl⟩ := h
        refine Logged.Appends.pure ⟨trivial, ⟨operation, events, success, retries⟩, rfl, hexecution, ?_, rfl⟩
        rw [List.append_nil, List.nil_append]
        rfl
      · intro acks reason h
        cases h.1
    · intro events reason h
      obtain ⟨hstops, hexecution⟩ := h
      rw [List.append_nil] at hstops
      refine ⟨?_, Or.inr hexecution⟩
      cases reason with
      | pending => exact hstops
      | panicked => exact absurd hstops hresolved
  · intro events reason h
    obtain ⟨rfl, rfl, hunresolvable⟩ := h
    exact ⟨hunresolvable, Or.inl rfl⟩

/-- **The whole stream.** -/
theorem runWorker_worked (log : List Event) (result : WorkerResult) (stream : List Operation) :
    Logged.Appends log (fun events outcome =>
      StopsFor engine log (∃ operation ∈ stream, Unresolvable acknowledged operation) events outcome ∧
        Worked acknowledged.isSome result stream events outcome)
      (stream.foldlM (turn engine acknowledged) result) := by
  induction stream generalizing log result with
  | nil => exact Logged.Appends.pure ⟨trivial, .done result⟩
  | cons operation rest ih =>
    rw [List.foldlM_cons]
    refine (turn_spec engine acknowledged log result operation).bind ?_ ?_
    · intro events result' h
      obtain ⟨-, t, rfl, hexecuted, rfl, rfl⟩ := h
      refine (ih _ _).mono fun more outcome hmore => ?_
      obtain ⟨hstops, hworked⟩ := hmore
      refine ⟨hstops.append.mono fun h => ?_, .turn t hexecuted hworked⟩
      obtain ⟨operation, hmem, hunresolvable⟩ := h
      exact ⟨operation, List.mem_cons_of_mem _ hmem, hunresolvable⟩
    · intro events reason h
      obtain ⟨hstops, hstopped⟩ := h
      exact ⟨hstops.error.mono fun h => ⟨operation, List.mem_cons_self, h⟩, .stopped hstopped⟩

end Worker

/-! ## The accounts -/

/-- the bookkeeping of a turn -/
def recordTurn (result : WorkerResult) (t : Turn) : WorkerResult :=
  result.record t.operation.kind t.success t.retries

/-- a stream that was worked off, as a list of turns -/
theorem Worked.turns {shared : Bool} {result final : WorkerResult} {stream : List Operation} {events : List Event}
    (h : Worked shared result stream events (.ok final)) :
    ∃ turns : List Turn, turns.map Turn.operation = stream ∧ (∀ t ∈ turns, t.Executed) ∧
      events = turns.flatMap (Turn.log shared) ∧ final = turns.foldl recordTurn result := by
  generalize houtcome : (.ok final : Except Stop WorkerResult) = outcome at h
  induction h with
  | done =>
    cases houtcome
    exact ⟨[], rfl, nofun, rfl, rfl⟩
  | stopped => cases houtcome
  | turn t hexecuted _ ih =>
    obtain ⟨turns, hstream, hall, hevents, hfinal⟩ := ih houtcome
    refine ⟨t :: turns, ?_, fun u hu => ?_, ?_, hfinal⟩
    · rw [List.map_cons, hstream]
    · rcases List.mem_cons.1 hu with rfl | hu
      · exact hexecuted
      · exact hall u hu
    · rw [List.flatMap_cons, hevents]

theorem foldl_totals (turns : List Turn) (result : WorkerResult) :
    (turns.foldl recordTurn result).completed = result.completed + turns.countP (·.success) ∧
      (turns.foldl recordTurn result).errors = result.errors + turns.countP (!·.success) ∧
      (turns.foldl recordTurn result).retryableErrors = result.retryableErrors + (turns.map Turn.retries).sum := by
  induction turns generalizing result with
  | nil => exact ⟨rfl, rfl, rfl⟩
  | cons t turns ih =>
    obtain ⟨hcompleted, herrors, hretryable⟩ := ih (recordTurn result t)
    rw [List.foldl_cons, hcompleted, herrors, hretryable, List.map_cons, List.sum_cons]
    simp only [recordTurn, WorkerResult.record, Ycsb.WorkerResult.record, List.countP_cons]
    cases t.success <;> simp <;> omega

theorem foldl_counts (turns : List Turn) (result : WorkerResult) (kind : OperationKind) :
    (turns.foldl recordTurn result).counts kind =
        result.counts kind + turns.countP (fun t => t.operation.kind = kind) ∧
      (turns.foldl recordTurn result).errorCounts kind =
        result.errorCounts kind + turns.countP fun t => t.operation.kind = kind ∧ t.success = false := by
  induction turns generalizing result with
  | nil => exact ⟨rfl, rfl⟩
  | cons t turns ih =>
    obtain ⟨hcounts, herrors⟩ := ih (recordTurn result t)
    rw [List.foldl_cons, hcounts, herrors]
    simp only [recordTurn, WorkerResult.record, Ycsb.WorkerResult.record, List.countP_cons, Function.update_apply]
    by_cases hkind : kind = t.operation.kind
    · subst hkind
      cases t.success <;> simp <;> omega
    · have hne : t.operation.kind ≠ kind := fun h => hkind h.symm
      simp [hkind, hne]

/-- every operation is of one kind -/
theorem sum_countP_kind {α : Type} (l : List α) (kindOf : α → OperationKind) (p : α → Bool) :
    (OperationKind.all.map fun kind => l.countP fun a => kindOf a = kind ∧ p a).sum = l.countP p := by
  induction l with
  | nil => rfl
  | cons a l ih =>
    simp only [OperationKind.all, List.map_cons, List.map_nil, List.sum_cons, List.sum_nil, List.countP_cons] at ih ⊢
    cases kindOf a <;> cases p a <;> simp at ih ⊢ <;> omega

theorem acknowledgedKeys_log (shared : Bool) {turns : List Turn} (h : ∀ t ∈ turns, t.Executed) :
    acknowledgedKeys (turns.flatMap (Turn.log shared)) = if shared then turns.filterMap Turn.inserted else [] := by
  have hacks : ∀ o : Option UInt64, acknowledgedKeys (o.toList.map .acknowledge) = o.toList := by
    intro o
    cases o <;> rfl
  induction turns with
  | nil => cases shared <;> rfl
  | cons t turns ih =>
    have hexecuted := (h t List.mem_cons_self).acknowledged
    rw [List.flatMap_cons, acknowledgedKeys_append, ih fun u hu => h u (List.mem_cons_of_mem _ hu)]
    unfold Turn.log
    rw [acknowledgedKeys_append, hexecuted, List.nil_append]
    cases shared with
    | false => rfl
    | true =>
      simp only [if_true, hacks]
      cases hkey : t.inserted with
      | none => rw [List.filterMap_cons_none hkey]; rfl
      | some key => rw [List.filterMap_cons_some hkey]; rfl

/-- what `run_worker` counts and acknowledges over a whole stream -/
structure Accounts (shared : Bool) (stream : List Operation) (events : List Event) (result : WorkerResult)
    (turns : List Turn) : Prop where
  operations : turns.map Turn.operation = stream
  executed : ∀ t ∈ turns, t.Executed
  log : events = turns.flatMap (Turn.log shared)
  total : result.completed + result.errors = stream.length
  completed : result.completed = turns.countP (·.success)
  counts : ∀ kind, result.counts kind = stream.countP fun operation => operation.kind = kind
  errorCounts : ∀ kind, result.errorCounts kind =
    turns.countP fun t => t.operation.kind = kind ∧ t.success = false
  countsSum : (OperationKind.all.map result.counts).sum = stream.length
  errorsSum : (OperationKind.all.map result.errorCounts).sum = result.errors
  retryable : result.retryableErrors = (turns.map Turn.retries).sum
  acknowledged : acknowledgedKeys events = if shared then turns.filterMap Turn.inserted else []

theorem Worked.accounts {shared : Bool} {final : WorkerResult} {stream : List Operation} {events : List Event}
    (h : Worked shared .default stream events (.ok final)) :
    ∃ turns, Accounts shared stream events final turns := by
  obtain ⟨turns, rfl, hexecuted, rfl, rfl⟩ := h.turns
  obtain ⟨hcompleted, herrors, hretryable⟩ := foldl_totals turns .default
  have hcounts := foldl_counts turns .default
  have hkinds : ∀ kind, turns.countP (fun t => t.operation.kind = kind) =
      (turns.map Turn.operation).countP fun operation => operation.kind = kind := by
    intro kind
    rw [List.countP_map]
    rfl
  have hsplit : turns.countP (·.success) + turns.countP (!·.success) = turns.length := by
    rw [List.length_eq_countP_add_countP (·.success)]
    simp
  have hzero : ∀ n : ℕ, 0 + n = n := Nat.zero_add
  have hfinalCounts : ∀ kind, (turns.foldl recordTurn .default).counts kind =
      turns.countP fun t => t.operation.kind = kind := fun kind => (hcounts kind).1.trans (hzero _)
  have hfinalErrors : ∀ kind, (turns.foldl recordTurn .default).errorCounts kind =
      turns.countP fun t => t.operation.kind = kind ∧ t.success = false := fun kind => (hcounts kind).2.trans (hzero _)
  refine ⟨turns, rfl, hexecuted, rfl, ?_, hcompleted.trans (hzero _), fun kind => ?_, hfinalErrors, ?_, ?_,
    hretryable.trans (hzero _), acknowledgedKeys_log shared hexecuted⟩
  · rw [hcompleted, herrors, List.length_map, ← hsplit]
    simp [WorkerResult.default, Ycsb.WorkerResult.empty]
  · rw [hfinalCounts, hkinds]
  · have hsum := sum_countP_kind turns (fun t => t.operation.kind) fun _ => true
    rw [List.length_map, ← List.countP_true, ← hsum]
    rw [funext hfinalCounts]
    simp only [and_true]
  · have hsum := sum_countP_kind turns (fun t => t.operation.kind) fun t => !t.success
    rw [herrors, show (WorkerResult.default.errors) = 0 from rfl, Nat.zero_add, ← hsum]
    rw [funext hfinalErrors]
    simp only [Bool.not_eq_true']

/-- **The retry loop neither loses nor duplicates work.** For every engine, operation and history: at most 1001
attempts, the retries returned are the busy and locked errors retried, other errors are not retried, and the write of
the operation is applied at most once. A worker over a whole stream accounts for each operation once, and acknowledges
exactly the inserts that succeeded. Both return unless the engine ceases to answer or an acknowledged read has no
key. -/
theorem retries_lose_nothing (T : Type) {K : Type} [Field K] [LinearOrder K] (pow : ExactPow K) (engine : Engine) :
    (∀ (operation : Operation) (acknowledgedRead : Option UInt64) (log : List Event),
      ∃ events result, executeWithRetry engine operation acknowledgedRead log = (result, log ++ events) ∧
        Execution operation events result ∧
        StopsFor engine log (Unresolved operation acknowledgedRead) events result) ∧
    ∀ (acknowledged : Option (List Event → AcknowledgedKeyspace T pow)) (stream : List Operation) (log : List Event),
      ∃ events outcome, runWorker engine acknowledged stream log = (outcome, log ++ events) ∧
        (∀ result, outcome = .ok result → ∃ turns, Accounts acknowledged.isSome stream events result turns) ∧
        StopsFor engine log (∃ operation ∈ stream, Unresolvable acknowledged operation) events outcome := by
  refine ⟨?_, ?_⟩
  · intro operation acknowledgedRead log
    obtain ⟨events, result, hrun, hstops, hexecution⟩ :=
      executeWithRetry_spec engine operation acknowledgedRead log
    exact ⟨events, result, hrun, hexecution, hstops⟩
  · intro acknowledged stream log
    obtain ⟨events, outcome, hrun, hstops, hworked⟩ :=
      runWorker_worked engine acknowledged log .default stream
    refine ⟨events, outcome, hrun, fun result hok => ?_, hstops⟩
    subst hok
    exact hworked.accounts

/-- a database that stays busy, and one that changes one row by every statement -/
theorem retries_lose_nothing_sample :
    (∃ events result, executeWithRetry (fun _ _ => some (.error .databaseBusy)) (.update 7 0 []) none [] =
      (result, [] ++ events) ∧ attempts events ≤ 1001 ∧ (applied events).length ≤ 1) ∧
    ∃ events outcome, runWorker (fun _ _ => some (.ok 1))
      (none : Option (List Event → AcknowledgedKeyspace Unit realPow)) [.read 3, .scan 1 2] [] =
        (outcome, [] ++ events) ∧
      ∀ result, outcome = .ok result → result.completed + result.errors = 2 := by
  refine ⟨?_, ?_⟩
  · obtain ⟨events, result, hrun, hexecution, -⟩ :=
      (retries_lose_nothing Unit realPow fun _ _ => some (.error .databaseBusy)).1 (.update 7 0 []) none []
    exact ⟨events, result, hrun, hexecution.attempts, hexecution.applied⟩
  · obtain ⟨events, outcome, hrun, haccounts, -⟩ :=
      (retries_lose_nothing Unit realPow fun _ _ => some (.ok 1)).2 none [.read 3, .scan 1 2] []
    refine ⟨events, outcome, hrun, fun result hok => ?_⟩
    obtain ⟨turns, hturns⟩ := haccounts result hok
    exact hturns.total

end WtBenchmarks.Ycsb.Sqlite
