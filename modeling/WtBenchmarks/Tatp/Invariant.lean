/-
The TATP state invariant over whole runs.

Between any two table calls, of any workers, the tables satisfy `TablesOk`: the key sets of the subscribers, the
access-info rows and the facilities are the loaded ones, and every row agrees with its key. Since the first three key
sets never change, what a procedure found in an earlier call is still there in its next one (`CallOk` does not mention
the current tables), so no call fails unexpectedly, and completed inserts and deletes account for every call-forwarding
row.

- `generateStreams_total`: the streams hold all operations, about loaded subscribers;
- `call_ok`: one call keeps the invariant;
- `tatp_invariant`: every moment of every interleaving.
-/
import WtBenchmarks.Tatp.Worker
import Mathlib.Algebra.BigOperators.Fin

namespace WtBenchmarks.Tatp

open Rng (below nextU64)

/-! ## Streams -/

/-- the subscriber an operation names satisfies `P` -/
def Operation.About (P : UInt64 → Prop) : Operation → Prop
  | .deleteCallForwarding subNbr _ _ => ∃ s, P s ∧ subNbr = subscriberNumber s
  | .getAccessData sId _ => P sId
  | .getNewDestination sId _ _ _ => P sId
  | .getSubscriberData sId => P sId
  | .insertCallForwarding subNbr _ _ _ _ => ∃ s, P s ∧ subNbr = subscriberNumber s
  | .updateLocation subNbr _ => ∃ s, P s ∧ subNbr = subscriberNumber s
  | .updateSubscriberData sId _ _ _ => P sId

theorem generateOperation_total {config : Config} (hacc : config.Accepted) {P : UInt64 → Prop}
    (hP : ∀ s : UInt64, 1 ≤ s.toNat → s.toNat ≤ config.subscribers.toNat → P s) :
    Total (Operation.About P) (generateOperation config) := by
  have hfits := hacc.fits
  unfold generateOperation
  refine (Rng.below_total 100 (by decide)).bind fun choice _ => ?_
  refine (Rng.below_total _ hacc.subscribers).bind fun subscriber hsubscriber => ?_
  have hs : P (1 + subscriber) := by
    have hlt := UInt64.lt_iff_toNat_lt.1 hsubscriber
    have hone : (1 : UInt64).toNat = 1 := rfl
    have hsum : (1 + subscriber).toNat = 1 + subscriber.toNat := toNat_add_of_lt (by omega)
    exact hP _ (by omega) (by omega)
  refine (Rng.below_total 4 (by decide)).bind fun _ _ => ?_
  refine (Rng.below_total 3 (by decide)).bind fun _ _ => ?_
  dsimp only
  split
  · exact Total.pure ⟨_, hs, rfl⟩
  · exact (Rng.below_total 4 (by decide)).bind fun _ _ => Total.pure hs
  · exact (Rng.below_total 24 (by decide)).bind fun _ _ => Total.pure hs
  · exact Total.pure hs
  · exact (Rng.below_total 24 (by decide)).bind fun _ _ => Total.pure ⟨_, hs, rfl⟩
  · exact Rng.nextU64_total.bind fun _ _ => Total.pure ⟨_, hs, rfl⟩
  · refine (Rng.below_total 2 (by decide)).bind fun _ _ => ?_
    exact (Rng.below_total 256 (by decide)).bind fun _ _ => Total.pure hs

/-- the streams after `n` operations -/
structure Streams (threads n : ℕ) (P : UInt64 → Prop) (streams : List (List Operation)) : Prop where
  threads : streams.length = threads
  total : (streams.map List.length).sum = n
  about : ∀ stream ∈ streams, ∀ operation ∈ stream, operation.About P

theorem push_ok {threads n : ℕ} {P : UInt64 → Prop} {streams : List (List Operation)} (h : Streams threads n P streams)
    {index : ℕ} (hindex : index < threads) {operation : Operation} (hop : operation.About P) :
    ∃ streams', push streams index operation = some streams' ∧ Streams threads (n + 1) P streams' := by
  have hlt : index < streams.length := h.threads ▸ hindex
  refine ⟨streams.set index (streams[index] ++ [operation]), ?_, ?_, ?_, ?_⟩
  · unfold push
    rw [List.getElem?_eq_getElem hlt]
    rfl
  · rw [List.length_set, h.threads]
  · have hlt' : index < (streams.map List.length).length := by rwa [List.length_map]
    have hsum : (streams.map List.length).sum = n := h.total
    rw [← List.sum_take_add_sum_drop _ index, List.drop_eq_getElem_cons hlt', List.sum_cons, List.getElem_map] at hsum
    rw [List.map_set, List.sum_set, if_pos hlt', List.length_append, List.length_singleton]
    omega
  · intro stream hstream op hop'
    rcases List.mem_or_eq_of_mem_set hstream with hmem | rfl
    · exact h.about stream hmem op hop'
    · rcases List.mem_append.1 hop' with hold | hnew
      · exact h.about _ (List.getElem_mem hlt) op hold
      · rw [List.mem_singleton.1 hnew]
        exact hop

theorem generateStreams_total {config : Config} (hacc : config.Accepted) {P : UInt64 → Prop}
    (hP : ∀ s : UInt64, 1 ≤ s.toNat → s.toNat ≤ config.subscribers.toNat → P s) :
    ∃ streams, generateStreams config = some streams ∧
      Streams config.threads config.operations.toNat P streams := by
  have hloop : Total (Streams config.threads config.operations.toNat P)
      ((List.range config.operations.toNat).foldlM (fun (streams : List (List Operation)) operationIndex => do
        let operation ← generateOperation config
        liftM (push streams (operationIndex % config.threads) operation)) (List.replicate config.threads [])) := by
    refine Total.range (I := fun n => Streams config.threads n P) _ (fun i streams _ h => ?_) _ ⟨?_, ?_, ?_⟩
    · refine (generateOperation_total hacc hP).bind fun operation hop => Total.lift ?_
      exact push_ok h (Nat.mod_lt _ hacc.threads) hop
    · exact List.length_replicate
    · simp
    · intro stream hstream operation hop
      rw [List.eq_of_mem_replicate hstream] at hop
      cases hop
  obtain ⟨streams, rng, hrun, h⟩ := hloop (Rng.new (config.seed ^^^ 0x6d697873))
  exact ⟨streams, by rw [generateStreams, hrun]; rfl, h⟩

/-! ## The tables between two calls -/

/-- the key sets are the loaded ones, and every row agrees with its key -/
structure TablesOk (loaded tables : Tables) : Prop where
  subscriberKeys : ∀ k : UInt64, k ∈ tables.subscribers.rows ↔ k ∈ loaded.subscribers.rows
  accessInfoKeys : ∀ k, k ∈ tables.accessInfo ↔ k ∈ loaded.accessInfo
  facilityKeys : ∀ k, k ∈ tables.specialFacilities ↔ k ∈ loaded.specialFacilities
  subscribers : ∀ (k : UInt64) row, tables.subscribers.rows[k]? = some row →
    row.sId = k ∧ row.subNbr = subscriberNumber k
  facilities : ∀ (k : Key) row, tables.specialFacilities[k]? = some row → FacilityRow k row
  forwardings : ∀ (k : Key) row, tables.callForwarding.rows[k]? = some row →
    ForwardingRow k row ∧ row.facility ∈ tables.specialFacilities

theorem Loading.tablesOk {n : ℕ} {A F : UInt64 → UInt8 → Prop} {C : UInt64 → UInt8 → UInt8 → Prop} {p : Progress}
    (h : Loading n A F C p) : TablesOk p.1 p.1 where
  subscriberKeys _ := Iff.rfl
  accessInfoKeys _ := Iff.rfl
  facilityKeys _ := Iff.rfl
  subscribers := h.subscribers
  facilities k row hk := (h.facilities k row hk).1
  forwardings k row hk := ⟨(h.forwardings k row hk).1, (h.forwardings k row hk).2.1⟩

/-- the kind of the procedure that makes a call -/
def Call.kind : Call → Kind
  | .first operation => operation.kind
  | .selectForwardings .. => .getNewDestination
  | .updateVlrLocation .. => .updateLocation
  | .updateBit1 .. => .updateSubscriberData
  | .updateFacility .. => .updateSubscriberData
  | .selectFacility .. => .insertCallForwarding
  | .insertForwarding .. => .insertCallForwarding
  | .deleteForwarding .. => .deleteCallForwarding

/-- what the calls before this one have found -/
def CallOk (loaded : Tables) : Call → Prop
  | .first operation => operation.About fun s => s ∈ loaded.subscribers.rows
  | .selectForwardings _ _ => True
  | .updateVlrLocation sId _ => sId ∈ loaded.subscribers.rows
  | .updateBit1 facility sId _ _ =>
    sId ∈ loaded.subscribers.rows ∧ facility.id ∈ loaded.specialFacilities ∧ FacilityRow facility.id facility
  | .updateFacility facility => facility.id ∈ loaded.specialFacilities ∧ FacilityRow facility.id facility
  | .selectFacility _ _ _ _ _ => True
  | .insertForwarding sId sfType _ _ _ => facilityKey sId sfType ∈ loaded.specialFacilities
  | .deleteForwarding _ _ _ => True

/-- a procedure goes on with a call that is justified, or returns an outcome that is expected -/
def NextOk (loaded : Tables) (kind : Kind) : Next → Prop
  | .again c => CallOk loaded c ∧ c.kind = kind
  | .done outcome => outcome ≠ .unexpectedError

/-- one if the call completes a procedure of the kind -/
def ended (kind : Kind) (c : Call) (next : Next) : ℕ := if c.kind = kind ∧ next = .done .completed then 1 else 0

variable {loaded tables : Tables}

theorem TablesOk.subscriber_row (h : TablesOk loaded tables) {s : UInt64} (hs : s ∈ loaded.subscribers.rows) :
    ∃ row, tables.subscribers.rows[s]? = some row ∧ row.sId = s ∧ row.subNbr = subscriberNumber s := by
  obtain ⟨row, hrow⟩ := (TreeMap.mem_iff_get _ _).1 ((h.subscriberKeys s).2 hs)
  exact ⟨row, hrow, h.subscribers s row hrow⟩

/-- a loaded subscriber is found by its number -/
theorem TablesOk.selectByUnique (h : TablesOk loaded tables) {s : UInt64} (hs : s ∈ loaded.subscribers.rows) :
    ∃ row, tables.subscribers.selectByUnique (subscriberNumber s) = some row ∧ row.sId = s := by
  obtain ⟨row, hrow, hid, hnbr⟩ := h.subscriber_row hs
  exact ⟨row, UniqueTable.selectByUnique_eq_some.2 ⟨s, hrow, hnbr⟩, hid⟩

/-- an update of a subscriber that leaves its number alone succeeds -/
theorem TablesOk.updateSubscriber (h : TablesOk loaded tables) {s : UInt64} (hs : s ∈ loaded.subscribers.rows)
    {f : SubscriberRow → SubscriberRow} (hf : ∀ row, (f row).sId = row.sId ∧ (f row).subNbr = row.subNbr) :
    ∃ tables', updateSubscriber tables s f = some tables' ∧ TablesOk loaded tables' ∧
      tables'.callForwarding = tables.callForwarding := by
  obtain ⟨row, hrow, hid, hnbr⟩ := h.subscriber_row hs
  have hmem := (h.subscriberKeys s).2 hs
  obtain ⟨t, ht, hrows⟩ := UniqueTable.update_some (r := f row) hmem fun k' r' hne hr' heq =>
    hne (UniqueTable.unique_inj hr' hrow (heq.trans (hf row).2))
  refine ⟨{ tables with subscribers := t }, ?_, ⟨?_, h.accessInfoKeys, h.facilityKeys, ?_, h.facilities, h.forwardings⟩,
    rfl⟩
  · unfold Tatp.updateSubscriber
    rw [hrow, Option.bind_eq_bind, Option.bind_some, ht]
    rfl
  · intro k
    rw [hrows, TreeMap.mem_insert_of_mem hmem, h.subscriberKeys]
  · intro k r hr
    rw [hrows, TreeMap.get_insert] at hr
    split_ifs at hr with hk
    · cases hr
      subst hk
      rw [(hf row).1, (hf row).2]
      exact ⟨hid, hnbr⟩
    · exact h.subscribers k r hr

/-- a facility written back under its own key -/
theorem TablesOk.updateFacility (h : TablesOk loaded tables) {facility : SpecialFacilityRow}
    (hmem : facility.id ∈ loaded.specialFacilities) (hrow : FacilityRow facility.id facility) :
    TablesOk loaded { tables with specialFacilities := tables.specialFacilities.insert facility.id facility } := by
  have hin := (h.facilityKeys _).2 hmem
  refine ⟨h.subscriberKeys, h.accessInfoKeys, fun k => ?_, h.subscribers, fun k r hr => ?_, fun k r hr => ?_⟩
  · rw [TreeMap.mem_insert_of_mem hin, h.facilityKeys]
  · rw [TreeMap.get_insert] at hr
    split_ifs at hr with hk
    · cases hr
      exact hk ▸ hrow
    · exact h.facilities k r hr
  · obtain ⟨hforwarding, hfacility⟩ := h.forwardings k r hr
    exact ⟨hforwarding, (TreeMap.mem_insert_of_mem hin _ _).2 hfacility⟩

/-- other call-forwarding rows, as long as they agree with their keys and have their facility -/
theorem TablesOk.setForwardings (h : TablesOk loaded tables)
    {callForwarding : GroupTable Key Key CallForwardingRow CallForwardingRow.facility}
    (hrows : ∀ (k : Key) row, callForwarding.rows[k]? = some row →
      ForwardingRow k row ∧ row.facility ∈ tables.specialFacilities) :
    TablesOk loaded { tables with callForwarding } :=
  ⟨h.subscriberKeys, h.accessInfoKeys, h.facilityKeys, h.subscribers, h.facilities, hrows⟩

/-- the first call of a procedure reads only -/
theorem firstCall_ok (h : TablesOk loaded tables) {operation : Operation}
    (hop : operation.About fun s => s ∈ loaded.subscribers.rows) :
    NextOk loaded operation.kind (firstCall tables operation) ∧
      (operation.kind = .insertCallForwarding ∨ operation.kind = .deleteCallForwarding →
        firstCall tables operation ≠ .done .completed) := by
  cases operation with
  | deleteCallForwarding subNbr sfType startTime =>
    obtain ⟨s, hs, rfl⟩ := hop
    obtain ⟨row, hrow, -⟩ := h.selectByUnique hs
    simp only [firstCall, hrow]
    exact ⟨⟨trivial, rfl⟩, fun _ => Next.noConfusion⟩
  | getAccessData sId aiType => exact ⟨Outcome.noConfusion, fun hk => by simp [Operation.kind] at hk⟩
  | getNewDestination sId sfType startTime endTime =>
    refine ⟨?_, fun hk => by simp [Operation.kind] at hk⟩
    unfold firstCall
    dsimp only
    split
    · exact Outcome.noConfusion
    · split_ifs
      · exact ⟨trivial, rfl⟩
      · exact Outcome.noConfusion
  | getSubscriberData sId =>
    refine ⟨?_, fun hk => by simp [Operation.kind] at hk⟩
    obtain ⟨row, hrow, -⟩ := h.subscriber_row hop
    simp only [firstCall, hrow]
    exact Outcome.noConfusion
  | insertCallForwarding subNbr sfType startTime endTime numberx =>
    obtain ⟨s, hs, rfl⟩ := hop
    obtain ⟨row, hrow, -⟩ := h.selectByUnique hs
    simp only [firstCall, hrow]
    exact ⟨⟨trivial, rfl⟩, fun _ => Next.noConfusion⟩
  | updateLocation subNbr vlrLocation =>
    refine ⟨?_, fun hk => by simp [Operation.kind] at hk⟩
    obtain ⟨s, hs, rfl⟩ := hop
    obtain ⟨row, hrow, hid⟩ := h.selectByUnique hs
    simp only [firstCall, hrow]
    exact ⟨show row.sId ∈ loaded.subscribers.rows from hid ▸ hs, rfl⟩
  | updateSubscriberData sId bit1 dataA sfType =>
    refine ⟨?_, fun hk => by simp [Operation.kind] at hk⟩
    unfold firstCall
    dsimp only
    split
    · exact Outcome.noConfusion
    · rename_i facility hfacility
      have hrow := h.facilities _ facility hfacility
      have hmem := (h.facilityKeys _).1 ((TreeMap.mem_iff_get _ _).2 ⟨facility, hfacility⟩)
      refine ⟨⟨hop, ?_, ?_⟩, rfl⟩
      · rw [hrow.id]
        exact hmem
      · rw [hrow.id]
        exact hrow

/-- **One call.** The tables stay in order, the procedure goes on or ends as expected, and a call-forwarding row comes
or goes exactly with a completed insert or delete. -/
theorem call_ok (h : TablesOk loaded tables) {c : Call} (hc : CallOk loaded c) :
    TablesOk loaded (call tables c).1 ∧ NextOk loaded c.kind (call tables c).2 ∧
      (call tables c).1.callForwarding.rows.size + ended .deleteCallForwarding c (call tables c).2 =
        tables.callForwarding.rows.size + ended .insertCallForwarding c (call tables c).2 := by
  cases c with
  | first operation =>
    obtain ⟨hnext, hdone⟩ := firstCall_ok h hc
    refine ⟨h, hnext, ?_⟩
    have hnone : ∀ kind, kind = .insertCallForwarding ∨ kind = .deleteCallForwarding →
        ended kind (.first operation) (call tables (.first operation)).2 = 0 := by
      intro kind hkind
      refine if_neg fun hend => hdone ?_ hend.2
      rw [show operation.kind = kind from hend.1]
      exact hkind
    rw [hnone _ (Or.inl rfl), hnone _ (Or.inr rfl)]
    rfl
  | selectForwardings sId sfType => exact ⟨h, Outcome.noConfusion, rfl⟩
  | updateVlrLocation sId vlrLocation =>
    obtain ⟨tables', hupdate, h', hsame⟩ :=
      h.updateSubscriber (f := fun row => { row with vlrLocation }) hc fun _ => ⟨rfl, rfl⟩
    simp only [call, hupdate]
    exact ⟨h', Outcome.noConfusion, by rw [hsame]; rfl⟩
  | updateBit1 facility sId bit1 dataA =>
    obtain ⟨hs, hmem, hrow⟩ := hc
    obtain ⟨tables', hupdate, h', hsame⟩ :=
      h.updateSubscriber (f := fun row => { row with bit1 }) hs fun _ => ⟨rfl, rfl⟩
    simp only [call, hupdate]
    exact ⟨h', ⟨⟨hmem, hrow.id, hrow.packed⟩, rfl⟩, by rw [hsame]; rfl⟩
  | updateFacility facility =>
    obtain ⟨hmem, hrow⟩ := hc
    simp only [call, if_pos ((h.facilityKeys _).2 hmem)]
    exact ⟨h.updateFacility hmem hrow, Outcome.noConfusion, rfl⟩
  | selectFacility sId sfType startTime endTime numberx =>
    unfold call
    dsimp only
    split
    · exact ⟨h, Outcome.noConfusion, rfl⟩
    · rename_i facility hfacility
      have hmem := (h.facilityKeys _).1 ((TreeMap.mem_iff_get _ _).2 ⟨facility, hfacility⟩)
      exact ⟨h, ⟨hmem, rfl⟩, rfl⟩
  | insertForwarding sId sfType startTime endTime numberx =>
    simp only [call]
    split_ifs with hin
    · exact ⟨h, Outcome.noConfusion, rfl⟩
    · refine ⟨h.setForwardings fun k r hr => ?_, Outcome.noConfusion, ?_⟩
      · rw [GroupTable.insertNew_rows, TreeMap.get_insert] at hr
        split_ifs at hr with hk
        · cases hr
          exact ⟨⟨hk, hk.symm, rfl⟩, (h.facilityKeys _).2 hc⟩
        · exact h.forwardings k r hr
      · rw [GroupTable.insertNew_rows, TreeMap.size_insert_new _ hin]
        rfl
  | deleteForwarding sId sfType startTime =>
    simp only [call]
    split_ifs with hin
    · refine ⟨h.setForwardings fun k r hr => ?_, Outcome.noConfusion, ?_⟩
      · rw [GroupTable.erase_rows _ hin, TreeMap.get_erase] at hr
        split_ifs at hr with hk
        exact h.forwardings k r hr
      · rw [GroupTable.erase_rows _ hin]
        exact TreeMap.size_erase_mem _ hin
    · exact ⟨h, Outcome.noConfusion, rfl⟩

/-! ## Whole runs -/

section Run

variable {T : Type} (loaded : Tables) (streams : T → List Operation)

/-- what holds of the tables and the outcomes so far -/
structure SharedOk (g : Shared) : Prop where
  tables : TablesOk loaded g.tables
  expected : ∀ e ∈ g.history, e.2 ≠ .unexpectedError
  forwardings : g.tables.callForwarding.rows.size + completions .deleteCallForwarding g.history =
    loaded.callForwarding.rows.size + completions .insertCallForwarding g.history

/-- what holds of a worker -/
structure WorkerOk (t : T) (worker : Worker) : Prop where
  expected : worker.result.unexpectedErrors = 0
  total : worker.result.completed + worker.result.expectedAborts + worker.stream.length + worker.current.toList.length =
    (streams t).length
  stream : ∀ operation ∈ worker.stream, operation.About fun s => s ∈ loaded.subscribers.rows
  current : ∀ kind c, worker.current = some (kind, c) → c.kind = kind ∧ CallOk loaded c

/-- an expected outcome is counted as completed or as aborted -/
theorem record_expected (result : WorkerResult) (kind : Kind) {outcome : Outcome} (h : outcome ≠ .unexpectedError) :
    (result.record kind outcome).unexpectedErrors = result.unexpectedErrors ∧
      (result.record kind outcome).completed + (result.record kind outcome).expectedAborts =
        result.completed + result.expectedAborts + 1 := by
  cases outcome with
  | completed => exact ⟨rfl, by simp only [WorkerResult.record]; omega⟩
  | expectedAbort => exact ⟨rfl, by simp only [WorkerResult.record]; omega⟩
  | unexpectedError => exact absurd rfl h

theorem completions_snoc (kind : Kind) (history : List (Kind × Outcome)) (c : Call) (outcome : Outcome) :
    completions kind (history ++ [(c.kind, outcome)]) = completions kind history + ended kind c (.done outcome) := by
  unfold completions ended
  rw [List.count_append, List.count_singleton]
  congr 1
  by_cases hkind : c.kind = kind <;> by_cases hout : outcome = .completed <;> simp [hkind, hout]

theorem step_ok (t : T) (g : Shared) (worker : Worker) (g' : Shared) (worker' : Worker) (hg : SharedOk loaded g)
    (hw : WorkerOk loaded streams t worker) (hstep : step t g worker = some (g', worker')) :
    SharedOk loaded g' ∧ WorkerOk loaded streams t worker' := by
  have htotal := hw.total
  unfold step at hstep
  cases hcurrent : worker.current with
  | none =>
    rw [hcurrent] at hstep htotal
    cases hstream : worker.stream with
    | nil =>
      rw [hstream] at hstep
      cases hstep
    | cons operation rest =>
      rw [hstream] at hstep htotal
      cases hstep
      have habout := hw.stream
      rw [hstream] at habout
      refine ⟨hg, hw.expected, ?_, fun op hop => habout op (List.mem_cons_of_mem _ hop), ?_⟩
      · simp only [Option.toList_none, List.length_nil, List.length_cons, Option.toList_some] at htotal ⊢
        omega
      · rintro kind c heq
        cases heq
        exact ⟨rfl, habout operation List.mem_cons_self⟩
  | some current =>
    obtain ⟨kind, c⟩ := current
    obtain ⟨rfl, hc⟩ := hw.current kind c hcurrent
    rw [hcurrent] at hstep htotal
    obtain ⟨htables, hnext, hsize⟩ := call_ok hg.tables hc
    cases hcall : call g.tables c with
    | mk tables next =>
      rw [hcall] at htables hnext hsize
      cases next with
      | again c' =>
        simp only [hcall] at hstep
        cases hstep
        refine ⟨⟨htables, hg.expected, ?_⟩, hw.expected, htotal, hw.stream, ?_⟩
        · have hforwardings := hg.forwardings
          have hended : ∀ kind, ended kind c (.again c') = 0 := fun kind => if_neg fun h => Next.noConfusion h.2
          rw [hended, hended] at hsize
          simp only at hsize ⊢
          omega
        · rintro kind c'' heq
          cases heq
          exact ⟨hnext.2, hnext.1⟩
      | done outcome =>
        simp only [hcall] at hstep
        cases hstep
        obtain ⟨herrors, hcount⟩ := record_expected worker.result c.kind hnext
        refine ⟨⟨htables, ?_, ?_⟩, herrors.trans hw.expected, ?_, hw.stream, fun _ _ heq => by cases heq⟩
        · intro e he
          rcases List.mem_append.1 he with hold | hlast
          · exact hg.expected e hold
          · rw [List.mem_singleton.1 hlast]
            exact hnext
        · have hforwardings := hg.forwardings
          simp only [completions_snoc]
          simp only at hsize
          omega
        · simp only [Option.toList_none, List.length_nil, Option.toList_some, List.length_singleton] at htotal ⊢
          omega

/-- the proof outline of the workers: no worker's assertion mentions the shared state -/
def outline : Threads.Outline (step (T := T)) where
  Glob := SharedOk loaded
  Loc t _ worker := WorkerOk loaded streams t worker
  Guar _ _ _ := True
  step_ok t g worker g' worker' hg hw hstep := by
    obtain ⟨hg', hw'⟩ := step_ok loaded streams t g worker g' worker' hg hw hstep
    exact ⟨hg', hw', trivial⟩
  stable _ _ _ _ _ _ _ _ hw := hw

end Run

/-! ## Finishing -/

/-- the calls a procedure may still make -/
def Call.rank : Call → ℕ
  | .first _ => 4
  | .selectForwardings .. => 1
  | .updateVlrLocation .. => 1
  | .updateBit1 .. => 2
  | .updateFacility .. => 1
  | .selectFacility .. => 2
  | .insertForwarding .. => 1
  | .deleteForwarding .. => 1

def Worker.measure (worker : Worker) : ℕ := 6 * worker.stream.length + (worker.current.elim 0 fun c => c.2.rank)

theorem call_rank (tables : Tables) (c c' : Call) (h : (call tables c).2 = .again c') : c'.rank < c.rank := by
  cases c with
  | first operation =>
    have hle : c'.rank ≤ 2 := by
      cases operation with
      | getAccessData sId aiType => cases h
      | getSubscriberData sId =>
        simp only [call, firstCall] at h
        split_ifs at h
      | getNewDestination sId sfType startTime endTime =>
        simp only [call, firstCall] at h
        split at h
        · cases h
        · split_ifs at h
          cases h
          exact Nat.le_succ 1
      | _ =>
        simp only [call, firstCall] at h
        split at h <;> cases h
        simp [Call.rank]
    exact Nat.lt_of_le_of_lt hle (show 2 < 4 by decide)
  | selectForwardings sId sfType => cases h
  | updateVlrLocation sId vlrLocation =>
    simp only [call] at h
    split at h <;> cases h
  | updateBit1 facility sId bit1 dataA =>
    simp only [call] at h
    split at h <;> cases h
    exact Nat.one_lt_two
  | updateFacility facility =>
    simp only [call] at h
    split_ifs at h
  | selectFacility sId sfType startTime endTime numberx =>
    simp only [call] at h
    split at h <;> cases h
    exact Nat.one_lt_two
  | insertForwarding sId sfType startTime endTime numberx =>
    simp only [call] at h
    split_ifs at h
  | deleteForwarding sId sfType startTime =>
    simp only [call] at h
    split_ifs at h

theorem step_measure {T : Type} (t : T) (g : Shared) (worker : Worker) (g' : Shared) (worker' : Worker)
    (hstep : step t g worker = some (g', worker')) : worker'.measure < worker.measure := by
  unfold step at hstep
  unfold Worker.measure
  cases hcurrent : worker.current with
  | none =>
    rw [hcurrent] at hstep
    cases hstream : worker.stream with
    | nil =>
      rw [hstream] at hstep
      cases hstep
    | cons operation rest =>
      rw [hstream] at hstep
      cases hstep
      simp only [Option.elim, Call.rank, List.length_cons]
      omega
  | some current =>
    obtain ⟨kind, c⟩ := current
    rw [hcurrent] at hstep
    cases hcall : call g.tables c with
    | mk tables next =>
      cases next with
      | again c' =>
        simp only [hcall] at hstep
        cases hstep
        have hrank := call_rank g.tables c c' (by rw [hcall])
        simp only [Option.elim]
        omega
      | done outcome =>
        simp only [hcall] at hstep
        cases hstep
        have hpos : 0 < c.rank := by cases c <;> exact Nat.succ_pos _
        simp only [Option.elim]
        omega

theorem step_moves {T : Type} (t : T) (g : Shared) (worker : Worker) (h : ¬ worker.finished) :
    step t g worker ≠ none := by
  unfold step
  cases hcurrent : worker.current with
  | none =>
    cases hstream : worker.stream with
    | nil => exact absurd ⟨hstream, hcurrent⟩ h
    | cons operation rest => exact Option.some_ne_none _
  | some current =>
    dsimp only
    split <;> exact Option.some_ne_none _

/-! ## Every run -/

/-- the stream handed to a worker -/
def workerStream {threads : ℕ} (streams : List (List Operation)) (t : Fin threads) : List Operation :=
  (streams[t.val]?).getD []

/-- the run of a schedule after the load -/
def runWorkers (config : Config) (loaded : Tables) (streams : List (List Operation))
    (sched : List (Fin config.threads)) :
    Threads.State (Fin config.threads) Shared Worker :=
  Threads.run step (start loaded (workerStream streams)) sched

/-- the state invariant of the benchmark, relative to what was loaded -/
structure RunOk (config : Config) (loaded : Progress) (s : Threads.State (Fin config.threads) Shared Worker) :
    Prop where
  /-- no operation has returned an unexpected error -/
  expected : ∀ e ∈ s.shared.history, e.2 ≠ .unexpectedError
  unexpectedErrors : ∀ t, (s.locals t).result.unexpectedErrors = 0
  /-- when all workers are done, their counters add up -/
  operations : (∀ t, (s.locals t).finished) →
    ∑ t, ((s.locals t).result.completed + (s.locals t).result.expectedAborts) = config.operations.toNat
  /-- the key sets do not change -/
  subscriberKeys : ∀ k : UInt64, k ∈ s.shared.tables.subscribers.rows ↔ k ∈ loaded.1.subscribers.rows
  accessInfoKeys : ∀ k, k ∈ s.shared.tables.accessInfo ↔ k ∈ loaded.1.accessInfo
  facilityKeys : ∀ k, k ∈ s.shared.tables.specialFacilities ↔ k ∈ loaded.1.specialFacilities
  /-- the number of a subscriber is made from its key, finds it, and no other has it -/
  numbers : ∀ (k : UInt64) row, s.shared.tables.subscribers.rows[k]? = some row →
    row.sId = k ∧ row.subNbr = subscriberNumber k ∧ s.shared.tables.subscribers.selectByUnique row.subNbr = some row ∧
      ∀ (k' : UInt64) row', s.shared.tables.subscribers.rows[k']? = some row' → row'.subNbr = row.subNbr → k' = k
  /-- every call-forwarding row is under its key and refers to a facility -/
  forwardings : ∀ (k : Key) row, s.shared.tables.callForwarding.rows[k]? = some row →
    k = callForwardingKey row.sId row.sfType row.startTime ∧ row.facility = facilityKey row.sId row.sfType ∧
      row.facility ∈ s.shared.tables.specialFacilities
  /-- the call-forwarding rows are the loaded ones plus completed inserts minus completed deletes -/
  forwardingRows : s.shared.tables.callForwarding.rows.size + completions .deleteCallForwarding s.shared.history =
    loaded.2.callForwarding + completions .insertCallForwarding s.shared.history

theorem sum_workerStream (streams : List (List Operation)) {threads : ℕ} (h : streams.length = threads) :
    ∑ t : Fin threads, (workerStream streams t).length = (streams.map List.length).sum := by
  subst h
  rw [← List.sum_ofFn]
  congr 1
  apply List.ext_getElem
  · simp
  · intro i hi hi'
    simp only [List.getElem_ofFn, List.getElem_map, workerStream]
    rw [List.getElem?_eq_getElem (by simpa using hi), Option.getD_some]

theorem start_holds {T : Type} {n : ℕ} {p : Progress} (h : Loaded n p) (streams : T → List Operation)
    (habout : ∀ t, ∀ operation ∈ streams t, operation.About fun s => s ∈ p.1.subscribers.rows) :
    (outline p.1 streams).Holds (start p.1 streams) := by
  refine ⟨⟨h.tablesOk, fun e he => (List.not_mem_nil he).elim, rfl⟩, fun t => ⟨rfl, ?_, habout t, fun _ _ heq => ?_⟩⟩
  · simp [start, WorkerResult.default]
  · cases heq

theorem runOk {config : Config} {n : ℕ} {loaded : Progress} (hloaded : Loaded n loaded)
    {streams : List (List Operation)} (hstreams : streams.length = config.threads)
    (htotal : (streams.map List.length).sum = config.operations.toNat)
    {s : Threads.State (Fin config.threads) Shared Worker} (h : (outline loaded.1 (workerStream streams)).Holds s) :
    RunOk config loaded s := by
  obtain ⟨hg, hw⟩ := h
  refine ⟨hg.expected, fun t => (hw t).expected, fun hfinished => ?_, hg.tables.subscriberKeys,
    hg.tables.accessInfoKeys, hg.tables.facilityKeys, fun k row hrow => ?_, fun k row hrow => ?_, ?_⟩
  · rw [← htotal, ← sum_workerStream streams hstreams]
    refine Finset.sum_congr rfl fun t _ => ?_
    have hworker := (hw t).total
    rw [(hfinished t).1, (hfinished t).2] at hworker
    exact hworker
  · obtain ⟨hid, hnbr⟩ := hg.tables.subscribers k row hrow
    refine ⟨hid, hnbr, UniqueTable.selectByUnique_eq_some.2 ⟨k, hrow, rfl⟩, fun k' row' hrow' heq => ?_⟩
    exact UniqueTable.unique_inj hrow' hrow heq
  · obtain ⟨hforwarding, hmem⟩ := hg.tables.forwardings k row hrow
    exact ⟨hforwarding.packed, hforwarding.facility, hmem⟩
  · rw [hloaded.counts]
    exact hg.forwardings

/-- **TATP state invariant.** Every accepted configuration loads and generates its streams, the invariant holds at every
moment of every interleaving of the workers' table calls, and every run can be continued until all workers are done. -/
theorem tatp_invariant (config : Config) (hvalid : config.check = .ok ()) :
    ∃ loaded streams, load config = some loaded ∧ generateStreams config = some streams ∧
      ∀ sched, RunOk config loaded (runWorkers config loaded.1 streams sched) ∧
        ∃ rest, ∀ t, ((runWorkers config loaded.1 streams (sched ++ rest)).locals t).finished := by
  have hacc := Config.accepted_of_check hvalid
  obtain ⟨loaded, hload, hloaded⟩ := load_total hacc
  obtain ⟨streams, hgenerate, hstreams⟩ := generateStreams_total hacc (P := fun s => s ∈ loaded.1.subscribers.rows)
    fun s hlo hhi => (hloaded.subscriberKeys s).2 ⟨hlo, hhi⟩
  have hstart : (outline loaded.1 (workerStream streams)).Holds
      (start loaded.1 (@workerStream config.threads streams)) := by
    refine start_holds hloaded _ fun t operation hop => ?_
    unfold workerStream at hop
    cases hget : streams[t.val]? with
    | none =>
      rw [hget] at hop
      cases hop
    | some stream =>
      rw [hget] at hop
      exact hstreams.about stream (List.mem_of_getElem? hget) operation hop
  refine ⟨loaded, streams, hload, hgenerate, fun sched => ?_⟩
  have hrun := (outline loaded.1 (workerStream streams)).run _ hstart sched
  refine ⟨runOk hloaded hstreams.threads hstreams.total hrun, ?_⟩
  obtain ⟨rest, hrest⟩ := Threads.run_finishes (fun _ => True) Worker.finished Worker.measure
    (fun _ _ _ _ _ _ => trivial) (fun s t g worker _ hstep => step_measure t _ _ g worker hstep)
    (fun s _ ⟨t, ht⟩ => ⟨t, step_moves t _ _ ht⟩) (runWorkers config loaded.1 streams sched) trivial
  refine ⟨rest, ?_⟩
  unfold runWorkers at hrest ⊢
  rw [Threads.run_append]
  exact hrest

/-- one subscriber, two workers -/
def tinyConfig : Config := ⟨1, 3, 2, 1, 1, 42⟩

theorem tatp_invariant_tiny :
    ∃ loaded streams, load tinyConfig = some loaded ∧ generateStreams tinyConfig = some streams ∧
      ∀ sched, RunOk tinyConfig loaded (runWorkers tinyConfig loaded.1 streams sched) ∧
        ∃ rest, ∀ t, ((runWorkers tinyConfig loaded.1 streams (sched ++ rest)).locals t).finished :=
  tatp_invariant tinyConfig rfl

end WtBenchmarks.Tatp
