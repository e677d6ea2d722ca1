/-
All or nothing: what a TATP procedure leaves behind when it runs alone.

`execute` runs the calls of one procedure with no other worker in between. The tables are any maps in which every row
is stored under its own key (`Keyed`); nothing says that they were loaded, or ever reached. A procedure that does not
complete has changed nothing, and one that completes has had exactly its effect. `Midway` says what a procedure knows
before each of its calls; only before the last call of `UpdateSubscriberData` have the tables changed at all, and there
the facility it read is still in place, so that the second write cannot fail.

- `call_midway`: one call keeps `Midway`, or ends all-or-nothing;
- `execute_keyed`: rows stay under their own keys;
- `execute_alone`: a worker with one operation does what `execute` says;
- `execute_atomic`: all or nothing.
-/
import WtBenchmarks.Tatp.Invariant

namespace WtBenchmarks.Tatp

open TreeMap (OwnKey)

/-! ## One procedure alone -/

/-- the rest of a procedure, from its next call on -/
def executeFrom (tables : Tables) (c : Call) : Tables × Outcome :=
  match h : (call tables c).2 with
  | .again c' =>
    have := call_rank tables c c' h
    executeFrom (call tables c).1 c'
  | .done outcome => ((call tables c).1, outcome)
termination_by c.rank

def execute (tables : Tables) (operation : Operation) : Tables × Outcome := executeFrom tables (.first operation)

variable {tables before now : Tables} {operation : Operation}

theorem executeFrom_again {c c' : Call} (h : (call tables c).2 = .again c') :
    executeFrom tables c = executeFrom (call tables c).1 c' := by
  rw [executeFrom]
  split
  · rename_i c'' h'
    rw [h] at h'
    cases h'
    rfl
  · rename_i outcome h'
    rw [h] at h'
    cases h'

theorem executeFrom_done {c : Call} {outcome : Outcome} (h : (call tables c).2 = .done outcome) :
    executeFrom tables c = ((call tables c).1, outcome) := by
  rw [executeFrom]
  split
  · rename_i c' h'
    rw [h] at h'
    cases h'
  · rename_i outcome' h'
    rw [h] at h'
    cases h'
    rfl

/-- **Runs of one procedure.** What every call keeps until the last one establishes the result holds of the result. -/
theorem executeFrom_rule {I : Tables → Call → Prop} {Q : Tables → Outcome → Prop}
    (hagain : ∀ tables c c', I tables c → (call tables c).2 = .again c' → I (call tables c).1 c')
    (hdone : ∀ tables c outcome, I tables c → (call tables c).2 = .done outcome → Q (call tables c).1 outcome)
    (tables : Tables) (c : Call) (h : I tables c) : Q (executeFrom tables c).1 (executeFrom tables c).2 := by
  induction hn : c.rank using Nat.strong_induction_on generalizing tables c with
  | _ n ih =>
    cases hnext : (call tables c).2 with
    | again c' =>
      rw [executeFrom_again hnext]
      exact ih c'.rank (hn ▸ call_rank tables c c' hnext) _ c' (hagain tables c c' h hnext) rfl
    | done outcome =>
      rw [executeFrom_done hnext]
      exact hdone tables c outcome h hnext

/-! ## Effects -/

/-- every row of every table is stored under its own primary key -/
structure Tables.Keyed (tables : Tables) : Prop where
  subscribers : OwnKey SubscriberRow.sId tables.subscribers.rows
  accessInfo : OwnKey AccessInfoRow.id tables.accessInfo
  specialFacilities : OwnKey SpecialFacilityRow.id tables.specialFacilities
  callForwarding : OwnKey CallForwardingRow.id tables.callForwarding.rows

/-- the row of the subscriber with a number -/
def Tables.Named (tables : Tables) (subNbr : String) (row : SubscriberRow) : Prop :=
  tables.subscribers.rows[row.sId]? = some row ∧ row.subNbr = subNbr

/-- the tables before and after a completed operation -/
def Effect (before after : Tables) : Operation → Prop
  | .getSubscriberData _ => after = before
  | .getAccessData _ _ => after = before
  | .getNewDestination _ _ _ _ => after = before
  | .updateLocation subNbr vlrLocation => ∃ row, before.Named subNbr row ∧
    after.subscribers.rows = before.subscribers.rows.insert row.sId { row with vlrLocation } ∧
    after.accessInfo = before.accessInfo ∧ after.specialFacilities = before.specialFacilities ∧
    after.callForwarding = before.callForwarding
  | .updateSubscriberData sId bit1 dataA sfType => ∃ row facility,
    before.subscribers.rows[sId]? = some row ∧ before.specialFacilities[facilityKey sId sfType]? = some facility ∧
    after.subscribers.rows = before.subscribers.rows.insert sId { row with bit1 } ∧
    after.accessInfo = before.accessInfo ∧
    after.specialFacilities = before.specialFacilities.insert (facilityKey sId sfType) { facility with dataA } ∧
    after.callForwarding = before.callForwarding
  | .insertCallForwarding subNbr sfType startTime endTime numberx => ∃ subscriber row,
    before.Named subNbr subscriber ∧ facilityKey subscriber.sId sfType ∈ before.specialFacilities ∧
    row = CallForwardingRow.mk (callForwardingKey subscriber.sId sfType startTime) subscriber.sId sfType startTime
      (facilityKey subscriber.sId sfType) endTime numberx ∧
    row.id ∉ before.callForwarding.rows ∧
    after.callForwarding.rows = before.callForwarding.rows.insert row.id row ∧
    after.subscribers = before.subscribers ∧ after.accessInfo = before.accessInfo ∧
    after.specialFacilities = before.specialFacilities
  | .deleteCallForwarding subNbr sfType startTime => ∃ subscriber, before.Named subNbr subscriber ∧
    callForwardingKey subscriber.sId sfType startTime ∈ before.callForwarding.rows ∧
    after.callForwarding.rows =
      before.callForwarding.rows.erase (callForwardingKey subscriber.sId sfType startTime) ∧
    after.subscribers = before.subscribers ∧ after.accessInfo = before.accessInfo ∧
    after.specialFacilities = before.specialFacilities

/-- the procedure has its effect, or none -/
def AllOrNothing (before : Tables) (operation : Operation) (after : Tables) (outcome : Outcome) : Prop :=
  (outcome = .completed → Effect before after operation) ∧ (outcome ≠ .completed → after = before)

theorem AllOrNothing.completed {after : Tables} (h : Effect before after operation) :
    AllOrNothing before operation after .completed := ⟨fun _ => h, fun hne => absurd rfl hne⟩

theorem AllOrNothing.aborted {outcome : Outcome} (h : outcome ≠ .completed) :
    AllOrNothing before operation before outcome := ⟨fun heq => absurd heq h, fun _ => rfl⟩

theorem Tables.Keyed.named (h : tables.Keyed) {subNbr : String} {row : SubscriberRow}
    (hrow : tables.subscribers.selectByUnique subNbr = some row) : tables.Named subNbr row := by
  obtain ⟨k, hk, hnbr⟩ := UniqueTable.selectByUnique_eq_some.1 hrow
  have hid : row.sId = k := h.subscribers k row hk
  exact ⟨hid ▸ hk, hnbr⟩

/-- an update of a subscriber replaces its row and nothing else -/
theorem updateSubscriber_some {sId : UInt64} {f : SubscriberRow → SubscriberRow} {after : Tables}
    (h : updateSubscriber tables sId f = some after) :
    ∃ row, tables.subscribers.rows[sId]? = some row ∧
      after.subscribers.rows = tables.subscribers.rows.insert sId (f row) ∧ after.accessInfo = tables.accessInfo ∧
      after.specialFacilities = tables.specialFacilities ∧ after.callForwarding = tables.callForwarding := by
  unfold updateSubscriber at h
  simp only [Option.bind_eq_bind, Option.bind_eq_some_iff] at h
  obtain ⟨row, hrow, t, ht, heq⟩ := h
  cases heq
  exact ⟨row, hrow, UniqueTable.update_rows ht, rfl, rfl, rfl⟩

/-! ## Between two calls -/

/-- what a procedure has found, and what it has changed, before its next call -/
def Midway (before : Tables) (operation : Operation) (now : Tables) : Call → Prop
  | .first operation' => now = before ∧ operation' = operation
  | .selectForwardings _ _ => now = before ∧ operation.kind = .getNewDestination
  | .updateVlrLocation sId vlrLocation => now = before ∧ ∃ subNbr row,
    operation = .updateLocation subNbr vlrLocation ∧ before.Named subNbr row ∧ row.sId = sId
  | .updateBit1 facility sId bit1 dataA => now = before ∧ ∃ sfType,
    operation = .updateSubscriberData sId bit1 dataA sfType ∧
    before.specialFacilities[facilityKey sId sfType]? = some facility
  | .updateFacility facility => ∃ sId bit1 dataA sfType old,
    operation = .updateSubscriberData sId bit1 dataA sfType ∧
    before.specialFacilities[facilityKey sId sfType]? = some old ∧ facility = { old with dataA } ∧
    updateSubscriber before sId (fun row => { row with bit1 }) = some now
  | .selectFacility sId sfType startTime endTime numberx => now = before ∧ ∃ subNbr row,
    operation = .insertCallForwarding subNbr sfType startTime endTime numberx ∧ before.Named subNbr row ∧ row.sId = sId
  | .insertForwarding sId sfType startTime endTime numberx => now = before ∧ ∃ subNbr row,
    operation = .insertCallForwarding subNbr sfType startTime endTime numberx ∧ before.Named subNbr row ∧
    row.sId = sId ∧ facilityKey sId sfType ∈ before.specialFacilities
  | .deleteForwarding sId sfType startTime => now = before ∧ ∃ subNbr row,
    operation = .deleteCallForwarding subNbr sfType startTime ∧ before.Named subNbr row ∧ row.sId = sId

/-- a call goes on as it should, or the procedure ends all-or-nothing -/
def NextMidway (before : Tables) (operation : Operation) (r : Tables × Next) : Prop :=
  match r.2 with
  | .again c => Midway before operation r.1 c
  | .done outcome => AllOrNothing before operation r.1 outcome

/-- the first call of a procedure that looks its subscriber up by number -/
theorem lookup_midway (h : before.Keyed) {subNbr : String} {c : SubscriberRow → Call}
    (hfirst : firstCall before operation = match before.subscribers.selectByUnique subNbr with
      | none => .done .unexpectedError
      | some row => .again (c row))
    (hfound : ∀ row, before.Named subNbr row → Midway before operation before (c row)) :
    NextMidway before operation (before, firstCall before operation) := by
  rw [hfirst]
  cases hrow : before.subscribers.selectByUnique subNbr with
  | none => exact AllOrNothing.aborted Outcome.noConfusion
  | some row => exact hfound row (h.named hrow)

theorem firstCall_midway (h : before.Keyed) (operation : Operation) :
    NextMidway before operation (before, firstCall before operation) := by
  cases operation with
  | getSubscriberData sId =>
    unfold firstCall
    dsimp only
    split_ifs
    · exact AllOrNothing.completed rfl
    · exact AllOrNothing.aborted Outcome.noConfusion
  | getAccessData sId aiType => exact AllOrNothing.completed rfl
  | getNewDestination sId sfType startTime endTime =>
    unfold firstCall
    dsimp only
    split
    · exact AllOrNothing.completed rfl
    · split_ifs
      · exact ⟨rfl, rfl⟩
      · exact AllOrNothing.completed rfl
  | updateSubscriberData sId bit1 dataA sfType =>
    cases hfacility : before.specialFacilities[facilityKey sId sfType]? with
    | none =>
      simp only [firstCall, hfacility]
      exact AllOrNothing.aborted Outcome.noConfusion
    | some facility =>
      simp only [firstCall, hfacility]
      exact ⟨rfl, sfType, rfl, hfacility⟩
  | updateLocation subNbr vlrLocation =>
    exact lookup_midway h rfl fun row hnamed => ⟨rfl, subNbr, row, rfl, hnamed, rfl⟩
  | insertCallForwarding subNbr sfType startTime endTime numberx =>
    exact lookup_midway h rfl fun row hnamed => ⟨rfl, subNbr, row, rfl, hnamed, rfl⟩
  | deleteCallForwarding subNbr sfType startTime =>
    exact lookup_midway h rfl fun row hnamed => ⟨rfl, subNbr, row, rfl, hnamed, rfl⟩

/-- **One call** of a procedure that runs alone. -/
theorem call_midway (h : before.Keyed) {c : Call} (hc : Midway before operation now c) :
    NextMidway before operation (call now c) := by
  cases c with
  | first operation' =>
    obtain ⟨rfl, rfl⟩ := hc
    exact firstCall_midway h operation'
  | selectForwardings sId sfType =>
    obtain ⟨rfl, hkind⟩ := hc
    cases operation with
    | getNewDestination sId' sfType' startTime endTime => exact AllOrNothing.completed rfl
    | _ => cases hkind
  | updateVlrLocation sId vlrLocation =>
    obtain ⟨rfl, subNbr, row, rfl, hnamed, rfl⟩ := hc
    cases hupdate : updateSubscriber now row.sId fun row => { row with vlrLocation } with
    | none =>
      simp only [call, hupdate]
      exact AllOrNothing.aborted Outcome.noConfusion
    | some after =>
      simp only [call, hupdate]
      obtain ⟨row', hrow', hrest⟩ := updateSubscriber_some hupdate
      have hsame : row = row' := Option.some.inj (hnamed.1.symm.trans hrow')
      subst hsame
      exact AllOrNothing.completed ⟨row, hnamed, hrest⟩
  | updateBit1 facility sId bit1 dataA =>
    obtain ⟨rfl, sfType, rfl, hfacility⟩ := hc
    cases hupdate : updateSubscriber now sId fun row => { row with bit1 } with
    | none =>
      simp only [call, hupdate]
      exact AllOrNothing.aborted Outcome.noConfusion
    | some after =>
      simp only [call, hupdate]
      exact ⟨sId, bit1, dataA, sfType, facility, rfl, hfacility, rfl, hupdate⟩
  | updateFacility facility =>
    obtain ⟨sId, bit1, dataA, sfType, old, rfl, hold, rfl, hupdate⟩ := hc
    obtain ⟨row, hrow, hsubscribers, haccess, hfacilities, hforwarding⟩ := updateSubscriber_some hupdate
    -- the row read under this key carries the key, and the first write has left the facilities alone
    have hid : old.id = facilityKey sId sfType := h.specialFacilities _ old hold
    have hmem : old.id ∈ now.specialFacilities := by
      rw [hfacilities, hid]
      exact (TreeMap.mem_iff_get _ _).2 ⟨old, hold⟩
    simp only [call, if_pos hmem]
    exact AllOrNothing.completed ⟨row, old, hrow, hold, hsubscribers, haccess, by rw [hfacilities, hid], hforwarding⟩
  | selectFacility sId sfType startTime endTime numberx =>
    obtain ⟨rfl, subNbr, row, rfl, hnamed, rfl⟩ := hc
    cases hfacility : now.specialFacilities[facilityKey row.sId sfType]? with
    | none =>
      simp only [call, hfacility]
      exact AllOrNothing.aborted Outcome.noConfusion
    | some facility =>
      simp only [call, hfacility]
      exact ⟨rfl, subNbr, row, rfl, hnamed, rfl, (TreeMap.mem_iff_get _ _).2 ⟨facility, hfacility⟩⟩
  | insertForwarding sId sfType startTime endTime numberx =>
    obtain ⟨rfl, subNbr, subscriber, rfl, hnamed, rfl, hfacility⟩ := hc
    simp only [call]
    split_ifs with hin
    · exact AllOrNothing.aborted Outcome.noConfusion
    · exact AllOrNothing.completed ⟨subscriber, _, hnamed, hfacility, rfl, hin, GroupTable.insertNew_rows _ _ _ hin,
        rfl, rfl, rfl⟩
  | deleteForwarding sId sfType startTime =>
    obtain ⟨rfl, subNbr, subscriber, rfl, hnamed, rfl⟩ := hc
    simp only [call]
    split_ifs with hin
    · exact AllOrNothing.completed ⟨subscriber, hnamed, hin, GroupTable.erase_rows _ hin, rfl, rfl, rfl⟩
    · exact AllOrNothing.aborted Outcome.noConfusion

theorem execute_allOrNothing (h : tables.Keyed) (operation : Operation) :
    AllOrNothing tables operation (execute tables operation).1 (execute tables operation).2 := by
  refine executeFrom_rule (I := Midway tables operation) (Q := AllOrNothing tables operation) ?_ ?_ tables _ ⟨rfl, rfl⟩
  · intro now c c' hc hnext
    have hmidway := call_midway h hc
    unfold NextMidway at hmidway
    rwa [hnext] at hmidway
  · intro now c outcome hc hnext
    have hmidway := call_midway h hc
    unfold NextMidway at hmidway
    rwa [hnext] at hmidway

/-- an effect leaves every row under its own key -/
theorem Effect.keyed (h : before.Keyed) {after : Tables} (heffect : Effect before after operation) : after.Keyed := by
  cases operation with
  | getSubscriberData sId => exact heffect ▸ h
  | getAccessData sId aiType => exact heffect ▸ h
  | getNewDestination sId sfType startTime endTime => exact heffect ▸ h
  | updateLocation subNbr vlrLocation =>
    obtain ⟨row, -, hsubscribers, haccess, hfacilities, hforwarding⟩ := heffect
    refine ⟨?_, haccess ▸ h.accessInfo, hfacilities ▸ h.specialFacilities, hforwarding ▸ h.callForwarding⟩
    rw [hsubscribers]
    exact h.subscribers.insert { row with vlrLocation }
  | updateSubscriberData sId bit1 dataA sfType =>
    obtain ⟨row, facility, hrow, hfacility, hsubscribers, haccess, hfacilities, hforwarding⟩ := heffect
    have hsId : row.sId = sId := h.subscribers sId row hrow
    have hid : facility.id = facilityKey sId sfType := h.specialFacilities _ facility hfacility
    refine ⟨?_, haccess ▸ h.accessInfo, ?_, hforwarding ▸ h.callForwarding⟩
    · rw [hsubscribers, ← hsId]
      exact h.subscribers.insert { row with bit1 }
    · rw [hfacilities, ← hid]
      exact h.specialFacilities.insert { facility with dataA }
  | insertCallForwarding subNbr sfType startTime endTime numberx =>
    obtain ⟨subscriber, row, -, -, -, -, hforwarding, hsubscribers, haccess, hfacilities⟩ := heffect
    refine ⟨hsubscribers ▸ h.subscribers, haccess ▸ h.accessInfo, hfacilities ▸ h.specialFacilities, ?_⟩
    rw [hforwarding]
    exact h.callForwarding.insert row
  | deleteCallForwarding subNbr sfType startTime =>
    obtain ⟨subscriber, -, -, hforwarding, hsubscribers, haccess, hfacilities⟩ := heffect
    refine ⟨hsubscribers ▸ h.subscribers, haccess ▸ h.accessInfo, hfacilities ▸ h.specialFacilities, ?_⟩
    rw [hforwarding]
    exact h.callForwarding.erase _

/-- **Any sequence of procedures** leaves every row under its own key. -/
theorem execute_keyed (h : tables.Keyed) (operations : List Operation) :
    (operations.foldl (fun tables operation => (execute tables operation).1) tables).Keyed := by
  induction operations generalizing tables with
  | nil => exact h
  | cons operation operations ih =>
    refine ih ?_
    obtain ⟨hcompleted, haborted⟩ := execute_allOrNothing h operation
    dsimp only
    by_cases houtcome : (execute tables operation).2 = .completed
    · exact (hcompleted houtcome).keyed h
    · rw [haborted houtcome]
      exact h

/-! ## The worker alone -/

/-- a turn of the only worker -/
theorem exec_alone {g g' : Shared} {worker worker' : Worker} (h : step () g worker = some (g', worker')) :
    Threads.exec step ⟨g, fun _ : Unit => worker⟩ () = ⟨g', fun _ => worker'⟩ := by
  rw [Threads.exec_some h]
  exact congrArg _ (funext fun t => by rw [Function.update_apply, if_pos rfl])

/-- the turns of a worker that has no competitor finish the procedure it is in -/
theorem run_executeFrom (g : Shared) (stream : List Operation) (kind : Kind) (c : Call) (result : WorkerResult) :
    ∃ n, Threads.run step ⟨g, fun _ : Unit => ⟨stream, some (kind, c), result⟩⟩ (List.replicate n ()) =
      ⟨⟨(executeFrom g.tables c).1, g.history ++ [(kind, (executeFrom g.tables c).2)]⟩,
        fun _ => ⟨stream, none, result.record kind (executeFrom g.tables c).2⟩⟩ := by
  induction hn : c.rank using Nat.strong_induction_on generalizing g c with
  | _ n ih =>
    cases hcall : call g.tables c with
    | mk tables next =>
      cases next with
      | again c' =>
        have hnext : (call g.tables c).2 = .again c' := by rw [hcall]
        obtain ⟨m, hm⟩ := ih c'.rank (hn ▸ call_rank g.tables c c' hnext) { g with tables } c' rfl
        have hturn : step () g ⟨stream, some (kind, c), result⟩ =
            some ({ g with tables }, ⟨stream, some (kind, c'), result⟩) := by
          simp only [step, hcall]
        refine ⟨m + 1, ?_⟩
        rw [executeFrom_again hnext, List.replicate_succ, Threads.run_cons, exec_alone hturn, hcall]
        exact hm
      | done outcome =>
        have hnext : (call g.tables c).2 = .done outcome := by rw [hcall]
        have hturn : step () g ⟨stream, some (kind, c), result⟩ =
            some (⟨tables, g.history ++ [(kind, outcome)]⟩, ⟨stream, none, result.record kind outcome⟩) := by
          simp only [step, hcall]
        refine ⟨1, ?_⟩
        rw [executeFrom_done hnext, hcall]
        exact exec_alone hturn

/-- **A worker with one operation**, and no other worker, leaves what `execute` says. -/
theorem execute_alone (tables : Tables) (operation : Operation) :
    ∃ n, Threads.run step (start tables fun _ : Unit => [operation]) (List.replicate n ()) =
      ⟨⟨(execute tables operation).1, [(operation.kind, (execute tables operation).2)]⟩,
        fun _ => ⟨[], none, WorkerResult.default.record operation.kind (execute tables operation).2⟩⟩ := by
  obtain ⟨n, hn⟩ := run_executeFrom ⟨tables, []⟩ [] operation.kind (.first operation) WorkerResult.default
  have hfetch : step () ⟨tables, []⟩ ⟨[operation], none, WorkerResult.default⟩ =
      some (⟨tables, []⟩, ⟨[], some (operation.kind, .first operation), WorkerResult.default⟩) := rfl
  refine ⟨n + 1, ?_⟩
  rw [List.replicate_succ, Threads.run_cons, start, exec_alone hfetch]
  exact hn

/-- **All or nothing.** From any tables whose rows are stored under their own keys, a procedure that runs alone returns
an outcome; unless this is completion, all four tables are as before; on completion the operation has had exactly its
effect. -/
theorem execute_atomic (tables : Tables) (h : tables.Keyed) (operation : Operation) :
    ∃ after outcome n,
      Threads.run step (start tables fun _ : Unit => [operation]) (List.replicate n ()) =
        ⟨⟨after, [(operation.kind, outcome)]⟩,
          fun _ => ⟨[], none, WorkerResult.default.record operation.kind outcome⟩⟩ ∧
      (outcome ≠ .completed → after = tables) ∧ (outcome = .completed → Effect tables after operation) ∧
      after.Keyed := by
  obtain ⟨n, hn⟩ := execute_alone tables operation
  obtain ⟨hcompleted, haborted⟩ := execute_allOrNothing h operation
  exact ⟨_, _, n, hn, haborted, hcompleted, execute_keyed h [operation]⟩

/-- one subscriber with one facility -/
def oneSubscriber : Tables :=
  { Tables.default with
    subscribers := ((UniqueTable.empty _).insert 1 ⟨1, subscriberNumber 1, 0, [], [], [], 0, 0⟩).getD
      (UniqueTable.empty _)
    specialFacilities := (∅ : Std.ExtTreeMap Key SpecialFacilityRow).insert (facilityKey 1 1)
      ⟨facilityKey 1 1, 1, 1, 1, 0, 7, "ABCDE"⟩ }

theorem oneSubscriber_keyed : oneSubscriber.Keyed := by
  obtain ⟨t, ht, hrows⟩ := UniqueTable.insert_some (t := UniqueTable.empty SubscriberRow.subNbr) (k := (1 : UInt64))
    (r := ⟨1, subscriberNumber 1, 0, [], [], [], 0, 0⟩) (by simp [UniqueTable.empty])
    fun k' r' h => by simp [UniqueTable.empty] at h
  refine ⟨?_, TreeMap.ownKey_empty _, ?_, TreeMap.ownKey_empty _⟩
  · simp only [oneSubscriber, ht, Option.getD_some, hrows]
    exact (TreeMap.ownKey_empty SubscriberRow.sId).insert ⟨1, subscriberNumber 1, 0, [], [], [], 0, 0⟩
  · exact (TreeMap.ownKey_empty SpecialFacilityRow.id).insert ⟨facilityKey 1 1, 1, 1, 1, 0, 7, "ABCDE"⟩

theorem execute_atomic_oneSubscriber :
    ∃ after outcome n,
      Threads.run step (start oneSubscriber fun _ : Unit => [.updateSubscriberData 1 1 200 1]) (List.replicate n ()) =
        ⟨⟨after, [(.updateSubscriberData, outcome)]⟩,
          fun _ => ⟨[], none, WorkerResult.default.record .updateSubscriberData outcome⟩⟩ ∧
      (outcome ≠ .completed → after = oneSubscriber) ∧
      (outcome = .completed → Effect oneSubscriber after (.updateSubscriberData 1 1 200 1)) ∧ after.Keyed :=
  execute_atomic oneSubscriber oneSubscriber_keyed (.updateSubscriberData 1 1 200 1)

end WtBenchmarks.Tatp
