/-
`DynTable` is linearizable for strings that the row codec can express.

At every moment of every run the batches linearize the history, the table holds what the linearization leaves, and each
column of a row has the value that was written to it last. With a longer string the codec loses the row.

- `column_last_write`: columns along a linearization;
- `dynTable_linearizable`: linearizability, indices in bounds, no panic, no lost update;
- `long_string_lost`: a row with a string of `2 ^ 32` bytes is not selected as it was inserted.
-/
import WtBenchmarks.Contention.Clients

namespace WtBenchmarks.Contention

open Linearizability

variable {T : Type}

/-! ## Columns -/

/-- what an operation writes to a column of the row under a key -/
def writes (pk : UInt64) (pos : ℕ) (e : Entry (T × ℕ) Op Ret) : Option Value :=
  match e.op with
  | .insert pk' row => if pk' = pk then row[pos]? else none
  | .select _ => none
  | .updateField pk' col v =>
    if pk' = pk ∧ catalogGet col = some pos ∧ e.ret = .updateField (some ()) then some v else none

theorem writes_insert (id : T × ℕ) (pk' : UInt64) (row : List Value) (ret : Ret) (pk : UInt64) (pos : ℕ) :
    writes pk pos ⟨id, .insert pk' row, ret⟩ = if pk' = pk then row[pos]? else none := rfl

theorem writes_updateField (id : T × ℕ) (pk' : UInt64) (col : String) (v : Value) (ret : Ret) (pk : UInt64) (pos : ℕ) :
    writes pk pos ⟨id, .updateField pk' col v, ret⟩ =
      if pk' = pk ∧ catalogGet col = some pos ∧ ret = .updateField (some ()) then some v else none := rfl

/-- inserted rows have the bench columns -/
def Wide (order : List (Entry (T × ℕ) Op Ret)) : Prop :=
  ∀ e ∈ order, ∀ pk row, e.op = .insert pk row → row.length = cols.length

/-- all rows have the bench columns -/
def WideRows (m : RowMap) : Prop := ∀ pk row, m pk = some row → row.length = cols.length

theorem WideRows.update {m : RowMap} (hm : WideRows m) {pk : UInt64} {row : List Value}
    (hrow : row.length = cols.length) : WideRows (Function.update m pk (some row)) := by
  intro pk' row' h
  by_cases hpk : pk' = pk
  · subst hpk
    rw [Function.update_self] at h
    cases h
    exact hrow
  · rw [Function.update_of_ne hpk] at h
    exact hm pk' row' h

/-- an operation keeps the columns -/
theorem apply_wide {m : RowMap} (hm : WideRows m) {op : Op}
    (hwide : ∀ pk row, op = .insert pk row → row.length = cols.length) : WideRows (mapApply m op).1 := by
  cases op with
  | insert pk row => exact hm.update (hwide pk row rfl)
  | select pk => exact hm
  | updateField pk col v =>
    cases hold : m pk with
    | none =>
      simp only [mapApply, hold]
      exact hm
    | some old =>
      cases hcol : catalogGet col with
      | none =>
        simp only [mapApply, hold, hcol]
        exact hm
      | some pos =>
        simp only [mapApply, hold, hcol]
        exact hm.update ((List.length_set).trans (hm pk old hold))

/-- the value in a column of the row under a key -/
def RowMap.column (m : RowMap) (pk : UInt64) (pos : ℕ) : Option Value := (m pk).bind (·[pos]?)

theorem column_update (m : RowMap) (pk' : UInt64) (row : List Value) (pk : UInt64) (pos : ℕ) :
    RowMap.column (Function.update m pk' (some row)) pk pos = if pk' = pk then row[pos]? else m.column pk pos := by
  unfold RowMap.column
  by_cases hpk : pk' = pk
  · subst hpk
    rw [if_pos rfl, Function.update_self, Option.bind_some]
  · rw [if_neg hpk, Function.update_of_ne (Ne.symm hpk)]

/-- an operation leaves in a column the value it writes, or the one that was there -/
theorem apply_column {m : RowMap} (hm : WideRows m) {e : Entry (T × ℕ) Op Ret} (hret : (mapApply m e.op).2 = e.ret)
    (hwide : ∀ pk row, e.op = .insert pk row → row.length = cols.length) (pk : UInt64) {pos : ℕ}
    (hpos : pos < cols.length) :
    RowMap.column (mapApply m e.op).1 pk pos = (writes pk pos e).or (m.column pk pos) := by
  obtain ⟨id, op, ret⟩ := e
  dsimp only at hret hwide ⊢
  cases op with
  | insert pk' row =>
    have hwidth := hwide pk' row rfl
    change RowMap.column (Function.update m pk' (some row)) pk pos = _
    rw [column_update]
    by_cases hpk : pk' = pk
    · rw [writes_insert, if_pos hpk, if_pos hpk, List.getElem?_eq_getElem (by omega), Option.some_or]
    · rw [writes_insert, if_neg hpk, if_neg hpk, Option.none_or]
  | select pk' => rfl
  | updateField pk' col v =>
    have hfailed : mapApply m (.updateField pk' col v) = (m, .updateField none) →
        RowMap.column (mapApply m (.updateField pk' col v)).1 pk pos =
          (writes pk pos (⟨id, .updateField pk' col v, ret⟩ : Entry (T × ℕ) Op Ret)).or (m.column pk pos) := by
      intro hmap
      rw [hmap] at hret
      rw [hmap, writes_updateField, if_neg, Option.none_or]
      rintro ⟨-, -, hdone⟩
      cases hret.trans hdone
    cases hold : m pk' with
    | none => exact hfailed (by simp only [mapApply, hold])
    | some old =>
      cases hcol : catalogGet col with
      | none => exact hfailed (by simp only [mapApply, hold, hcol])
      | some pos' =>
        simp only [mapApply, hold, hcol] at hret ⊢
        rw [column_update, writes_updateField, hcol]
        have hwidth := hm pk' old hold
        by_cases hpk : pk' = pk
        · subst hpk
          rw [if_pos rfl]
          by_cases hsame : pos' = pos
          · subst hsame
            rw [if_pos ⟨rfl, rfl, hret.symm⟩, Option.some_or]
            exact List.getElem?_set_self (by omega)
          · rw [if_neg fun h => hsame (Option.some_inj.1 h.2.1), Option.none_or, List.getElem?_set_ne hsame,
              RowMap.column, hold, Option.bind_some]
        · rw [if_neg hpk, if_neg fun h => hpk h.1, Option.none_or]

/-- **A column has the value that was written to it last.** -/
theorem column_last_write (order : List (Entry (T × ℕ) Op Ret)) (hlegal : Legal mapApply noRows order)
    (hwide : Wide order) : WideRows (after mapApply noRows order) ∧ ∀ (pk : UInt64), ∀ pos < cols.length,
      RowMap.column (after mapApply noRows order) pk pos = (order.filterMap (writes pk pos)).getLast? := by
  induction order using List.reverseRecOn with
  | nil => exact ⟨nofun, fun _ _ _ => rfl⟩
  | append_singleton order e ih =>
    rw [legal_append] at hlegal
    obtain ⟨hrows, hcolumns⟩ := ih hlegal.1 fun e' he' => hwide e' (List.mem_append_left _ he')
    have hinsert := hwide e (List.mem_append_right _ (List.mem_singleton.2 rfl))
    rw [after_append, after_cons, after_nil]
    refine ⟨apply_wide hrows hinsert, fun pk pos hpos => ?_⟩
    rw [apply_column hrows hlegal.2.1 hinsert pk hpos, hcolumns pk pos hpos, List.filterMap_append,
      List.getLast?_append]
    congr 1
    cases hwrites : writes pk pos e <;> simp [hwrites]

/-! ## Runs -/

/-- a step invokes no other inserts than those of the client's calls -/
theorem step_inserts {t : T} {g g' : Shared T} {c c' : Client} (hstep : step t g c = some (g', c')) :
    c'.calls = c.calls ∧ ∀ id pk row, Event.invoke id (.insert pk row) ∈ g'.history →
      Event.invoke id (.insert pk row) ∈ g.history ∨ .insert row ∈ c.calls := by
  cases hpc : c.pc <;> simp only [step, hpc] at hstep
  case idle =>
    obtain ⟨call, hcall, heq⟩ := Option.map_eq_some_iff.1 hstep
    have hmem := List.mem_of_getElem? hcall
    unfold invoke at heq
    split at heq
    · split at heq
      · cases heq
        refine ⟨rfl, fun id pk row h => ?_⟩
        rcases List.mem_append.1 h with hold | hnew
        · exact Or.inl hold
        · cases List.mem_singleton.1 hnew
          exact Or.inr hmem
      · cases heq
        exact ⟨rfl, fun _ _ _ => Or.inl⟩
    · cases heq
      refine ⟨rfl, fun id pk row h => ?_⟩
      rcases List.mem_append.1 h with hold | hnew
      · exact Or.inl hold
      · cases List.mem_singleton.1 hnew
    · cases heq
      refine ⟨rfl, fun id pk row h => ?_⟩
      rcases List.mem_append.1 h with hold | hnew
      · exact Or.inl hold
      · cases List.mem_singleton.1 hnew
  case respond =>
    cases hstep
    refine ⟨rfl, fun id pk row h => ?_⟩
    rcases List.mem_append.1 h with hold | hnew
    · exact Or.inl hold
    · cases List.mem_singleton.1 hnew
  case lockRow =>
    split_ifs at hstep
    cases hstep
    exact ⟨rfl, fun _ _ _ => Or.inl⟩
  case panicked => cases hstep
  all_goals
    try split at hstep
    all_goals
      cases hstep
      exact ⟨rfl, fun _ _ _ => Or.inl⟩

/-- all inserts in the history of a run have the bench columns -/
theorem run_wide [DecidableEq T] (calls : T → List Call) (hcalls : ∀ t, ∀ call ∈ calls t, call.Bench) (sched : List T) :
    ∀ id pk row, Event.invoke id (.insert pk row) ∈ (Threads.run step (start calls) sched).shared.history →
      row.length = cols.length := by
  let I : Threads.State T (Shared T) Client → Prop := fun s =>
    (∀ t, ∀ call ∈ (s.locals t).calls, call.Bench) ∧
      ∀ id pk row, Event.invoke id (.insert pk row) ∈ s.shared.history → row.length = cols.length
  refine (Threads.run_inv I (fun s t g c hs hstep => ?_) (start calls) ⟨hcalls, nofun⟩ sched).2
  obtain ⟨hbench, hwide⟩ := hs
  obtain ⟨hsame, hinserts⟩ := step_inserts hstep
  refine ⟨fun u => ?_, fun id pk row h => ?_⟩
  · by_cases hu : u = t
    · subst hu
      change ∀ call ∈ (Function.update s.locals u c u).calls, call.Bench
      rw [Function.update_self, hsame]
      exact hbench u
    · change ∀ call ∈ (Function.update s.locals t c u).calls, call.Bench
      rw [Function.update_of_ne hu]
      exact hbench u
  · rcases hinserts id pk row h with hold | hcall
    · exact hwide id pk row hold
    · exact (hbench t _ hcall).1

/-- the table holds what the linearization leaves -/
theorem TableOk.content {g : Shared T} {γ : Ghost T} (hg : TableOk g γ) (pk : UInt64) :
    g.table.content pk = γ.now pk := by
  unfold DynTable.content
  cases hidx : g.table.pkIndex[pk]? with
  | none => exact (hg.absent pk hidx).symm
  | some idx =>
    obtain ⟨row, hholds, hnow⟩ := hg.live idx pk ((hg.index pk idx).1 hidx)
    rw [hnow, Option.bind_eq_bind, Option.bind_some, hholds.bytes, Option.bind_eq_bind, Option.bind_some]
    exact decode_encode hholds.good.short

/-- the slot index that a client is about to use -/
def Pc.index : Pc → Option ℕ
  | .read idx => some idx
  | .write idx _ _ _ => some idx
  | _ => none

/-- no client has panicked, and no index in the map or on its way to a slot is out of bounds -/
structure InBounds (s : Threads.State T (Shared T) Client) : Prop where
  running : ∀ t, (s.locals t).pc ≠ .panicked ∧ ∀ mutex, (s.locals t).pc ≠ .unwind mutex
  mapped : ∀ (pk : UInt64) idx, s.shared.table.pkIndex[pk]? = some idx → idx < s.shared.table.slots.length
  held : ∀ t idx, (s.locals t).pc.index = some idx → idx < s.shared.table.slots.length

theorem Found.lt {t : T} {n idx : ℕ} {pk : UInt64} {g : Shared T} {γ : Ghost T} (hg : TableOk g γ)
    (h : Found t n idx pk g γ) : idx < g.table.slots.length := by
  obtain ⟨row, hholds⟩ := h.holds hg
  exact (List.getElem?_eq_some_iff.1 hholds.bytes).1

theorem inBounds_of_holds {s : Threads.State T (Shared T) Client} {γ : Ghost T} (hg : TableOk s.shared γ)
    (hc : ∀ t, ClientOk t s.shared γ (s.locals t)) : InBounds s := by
  refine ⟨fun t => ⟨fun hpc => ?_, fun mutex hpc => ?_⟩, fun pk idx hidx => ?_, fun t idx hidx => ?_⟩
  · have hat := (hc t).pc
    rw [hpc] at hat
    exact hat
  · have hat := (hc t).pc
    rw [hpc] at hat
    exact hat
  · rw [← hg.length]
    exact (List.getElem?_eq_some_iff.1 ((hg.index pk idx).1 hidx)).1
  · have hat := (hc t).pc
    cases hpc : (s.locals t).pc <;> rw [hpc] at hidx hat <;> cases hidx
    · obtain ⟨pk, -, hfound⟩ := hat
      exact hfound.lt hg
    · obtain ⟨pk, col, -, -, -, hfound⟩ := hat
      exact hfound.lt hg

/-- **DynTable is linearizable.** For calls with bench rows and strings shorter than `2 ^ 32` bytes, at every moment of
every schedule: no slot index is out of bounds and no client has panicked; some order of atomic map operations explains
every result and respects real time; the table holds what that order leaves, and every column the value that was written
to it last. -/
theorem dynTable_linearizable [DecidableEq T] (calls : T → List Call)
    (hcalls : ∀ t, ∀ call ∈ calls t, call.Bench ∧ call.Short) (sched : List T) :
    InBounds (Threads.run step (start calls) sched) ∧
    ∃ order, Linearization mapApply noRows (Threads.run step (start calls) sched).shared.history order ∧
      (∀ pk, (Threads.run step (start calls) sched).shared.table.content pk = after mapApply noRows order pk) ∧
      ∀ pk row, (Threads.run step (start calls) sched).shared.table.content pk = some row →
        ∀ pos < cols.length, row[pos]? = (order.filterMap (writes pk pos)).getLast? := by
  obtain ⟨γ, hg, hc⟩ := (outline T).run _ (start_holds calls hcalls) sched
  have hlinear := Explains.linearization hg.explains
  have hwide : Wide (order γ.batches) := by
    intro e he pk row hop
    have hinvoked := hlinear.invoked e he
    rw [hop] at hinvoked
    exact run_wide calls (fun t call h => (hcalls t call h).1) sched e.id pk row hinvoked
  refine ⟨inBounds_of_holds hg hc, order γ.batches, hlinear, hg.content, fun pk row hrow pos hpos => ?_⟩
  rw [hg.content pk] at hrow
  have hcolumn := (column_last_write _ hlinear.legal hwide).2 pk pos hpos
  rw [← hcolumn]
  exact (congrArg (Option.bind · (·[pos]?)) hrow).symm

/-- a row as the benchmark makes it -/
def benchRow (pk : UInt64) : List Value := [.u64 pk, .u64 0, .u64 0, .u64 0, .f64 0, .str "payloadpayload"]

/-- one client inserts a row twice, the other updates and selects it -/
def twoClients : Bool → List Call
  | true => [.insert (benchRow 1), .insert (benchRow 1)]
  | false => [.updateField 1 "b" (.u64 7), .select 1]

/-- the update finds the slot of the first insert, and writes to it after the second insert has replaced it -/
def staleUpdate : List Bool :=
  [true, true, true, true, false, false, false, false, true, true, true, false, false, false, true, false, false, false]

theorem dynTable_linearizable_stale :
    InBounds (Threads.run step (start twoClients) staleUpdate) ∧
    ∃ order, Linearization mapApply noRows (Threads.run step (start twoClients) staleUpdate).shared.history order := by
  have hrow : (Call.insert (benchRow 1)).Bench ∧ (Call.insert (benchRow 1)).Short := by
    refine ⟨⟨rfl, 1, _, rfl⟩, fun v hv => ?_⟩
    fin_cases hv <;> first | trivial | exact (by decide : "payloadpayload".utf8ByteSize < 2 ^ 32)
  have hcalls : ∀ t, ∀ call ∈ twoClients t, call.Bench ∧ call.Short := by
    intro t call hcall
    cases t with
    | true => fin_cases hcall <;> exact hrow
    | false => fin_cases hcall <;> exact ⟨by simp [Call.Bench, cols], trivial⟩
  obtain ⟨hbounds, order, hlinear, -⟩ := dynTable_linearizable twoClients hcalls staleUpdate
  exact ⟨hbounds, order, hlinear⟩

/-! ## Long strings -/

/-- how often the encoding of `0` fits into `2 ^ 32` bytes beside eight empty strings -/
def zeros : ℕ := 477218584

/-- the content of a string of `2 ^ 32` bytes: the encoding of values -/
def longBytes : List UInt8 := (List.replicate 8 (Value.str "") ++ List.replicate zeros (Value.u64 0)).flatMap valueBytes

/-- a bench row with that string -/
def longRow : List Value := [.u64 1, .u64 0, .u64 0, .u64 0, .f64 0, .str (asciiString longBytes)]

/-- what is read back: the length of the string was cut to zero, and its content is read as values -/
def readBack : List Value :=
  [.u64 1, .u64 0, .u64 0, .u64 0, .f64 0, .str ""] ++ (List.replicate 8 (.str "") ++ List.replicate zeros (.u64 0))

theorem valueBytes_empty : valueBytes (.str "") = [2, 0, 0, 0, 0] := by decide

theorem valueBytes_zero : valueBytes (.u64 0) = [0, 0, 0, 0, 0, 0, 0, 0, 0] := by decide

theorem longBytes_ascii : ∀ b ∈ longBytes, b < 128 := by
  intro b hb
  unfold longBytes at hb
  obtain ⟨v, hv, hb⟩ := List.mem_flatMap.1 hb
  rcases List.mem_append.1 hv with hv | hv
  · rw [List.eq_of_mem_replicate hv, valueBytes_empty] at hb
    fin_cases hb <;> decide
  · rw [List.eq_of_mem_replicate hv, valueBytes_zero] at hb
    fin_cases hb <;> decide

theorem encodings_length (n : ℕ) :
    ((List.replicate 8 (Value.str "") ++ List.replicate n (Value.u64 0)).flatMap valueBytes).length = 40 + n * 9 := by
  rw [List.flatMap_append, List.length_append, List.flatMap_replicate, List.flatMap_replicate, List.length_flatten,
    List.length_flatten, List.map_replicate, List.map_replicate, List.sum_replicate_nat, List.sum_replicate_nat,
    valueBytes_empty, valueBytes_zero]
  rfl

theorem longBytes_length : longBytes.length = 2 ^ 32 := by
  have hfit : 40 + zeros * 9 = 2 ^ 32 := by norm_num [zeros]
  exact (encodings_length zeros).trans hfit

/-- the length of a string of `2 ^ 32` bytes is cut to zero -/
theorem valueBytes_long {s : String} (hs : s.utf8ByteSize = 2 ^ 32) :
    valueBytes (.str s) = valueBytes (.str "") ++ asBytes s := by
  have hcut : leBytes 4 (2 ^ 32 % 2 ^ 32) = [0, 0, 0, 0] := by decide
  rw [valueBytes_empty, valueBytes, encodeValue, hs, hcut]
  rfl

theorem encode_longRow : encode longRow = encode readBack := by
  have hbytes := asBytes_asciiString longBytes_ascii
  have hsize : (asciiString longBytes).utf8ByteSize = 2 ^ 32 := by
    rw [← asBytes_length, hbytes, longBytes_length]
  have hvalue := valueBytes_long hsize
  rw [hbytes] at hvalue
  have hrest :
      (List.replicate 8 (Value.str "") ++ List.replicate zeros (Value.u64 0)).flatMap valueBytes = longBytes := by
    rw [longBytes]
  rw [encode_eq, encode_eq, longRow, readBack, List.flatMap_append, hrest]
  simp only [List.flatMap_cons, List.flatMap_nil, List.append_nil, hvalue, List.append_assoc]

theorem decode_longRow : decode (encode longRow) = some readBack := by
  rw [encode_longRow]
  apply decode_encode
  intro v hv
  rcases List.mem_append.1 hv with hv | hv
  · fin_cases hv <;> first | trivial | exact (by decide : "".utf8ByteSize < 2 ^ 32)
  · rcases List.mem_append.1 hv with hv | hv
    · rw [List.eq_of_mem_replicate hv]
      exact (by decide : "".utf8ByteSize < 2 ^ 32)
    · rw [List.eq_of_mem_replicate hv]
      trivial

/-- a client that inserts a row and then selects it, alone -/
theorem alone_history {pk : UInt64} {row rest row' : List Value} (hrow : row = .u64 pk :: rest)
    (hdecode : decode (encode row) = some row') :
    (Threads.run step (start fun _ : Unit => [.insert row, .select pk]) (List.replicate 8 ())).shared.history =
      [.invoke ((), 0) (.insert pk row), .respond ((), 0) (.insert pk), .invoke ((), 1) (.select pk),
        .respond ((), 1) (.select (some row'))] := by
  subst hrow
  simp [Threads.run, Threads.exec, step, start, invoke, Shared.record, DynTable.new, hdecode]

/-- a select after an insert that returns another row has no linearization -/
theorem not_linearizable {pk : UInt64} {row row' : List Value} (hne : row' ≠ row) :
    ¬ ∃ order, Linearization mapApply noRows [.invoke ((), 0) (.insert pk row), .respond ((), 0) (.insert pk),
      .invoke ((), 1) (.select pk), .respond ((), 1) (.select (some row'))] order := by
  rintro ⟨order, h⟩
  obtain ⟨a, ha, haid, -⟩ := h.completed ((), 0) (.insert pk) (by simp)
  obtain ⟨b, hb, hbid, hbret⟩ := h.completed ((), 1) (.select (some row')) (by simp)
  have haop : a.op = .insert pk row := by
    have hinvoked := h.invoked a ha
    rw [haid] at hinvoked
    simpa using hinvoked
  have hbop : b.op = .select pk := by
    have hinvoked := h.invoked b hb
    rw [hbid] at hinvoked
    simpa using hinvoked
  have hsub : [a, b].Sublist order := by
    refine h.realTime a ha b hb ⟨1, 2, .insert pk, .select pk, by omega, ?_, ?_⟩
    · rw [haid]
      rfl
    · rw [hbid]
      rfl
  have hids : ∀ id ∈ order.map Entry.id, id ∈ [((), 0), ((), 1)] := by
    intro id hid
    obtain ⟨e, he, rfl⟩ := List.mem_map.1 hid
    have hinvoked := h.invoked e he
    simp only [List.mem_cons, Event.invoke.injEq, reduceCtorEq, List.not_mem_nil, or_false, false_or] at hinvoked
    rcases hinvoked with ⟨heq, -⟩ | ⟨heq, -⟩ <;> simp [heq]
  have hlength : order.length ≤ 2 := by
    have hle := (List.subperm_of_subset h.nodup hids).length_le
    rwa [List.length_map] at hle
  have horder : [a, b] = order := hsub.eq_of_length_le hlength
  have hlegal := h.legal
  rw [← horder] at hlegal
  have hselect := hlegal.2.1
  rw [haop, hbop, hbret] at hselect
  change Ret.select (Function.update noRows pk (some row) pk) = _ at hselect
  rw [Function.update_self] at hselect
  cases hselect
  exact hne rfl

theorem append_ne {row more row' : List Value} (h : row.length = row'.length) (hmore : more ≠ []) :
    row ++ more ≠ row' := by
  intro heq
  have hlength := congrArg List.length heq
  rw [List.length_append, h] at hlength
  exact hmore (List.length_eq_zero_iff.1 (by omega))

theorem readBack_ne : readBack ≠ longRow := by
  rw [readBack, longRow]
  apply append_ne
  · simp only [List.length_cons, List.length_nil]
  · intro h
    have height : List.replicate 8 (Value.str "") = [] := (List.append_eq_nil_iff.1 h).1
    exact absurd ((List.replicate_eq_nil_iff _).1 height) (by decide)

/-- **A long string is lost.** A client inserts a bench row whose string has `2 ^ 32` bytes, and selects it: no order
explains what it gets. -/
theorem long_string_lost : (∀ call ∈ [Call.insert longRow, .select 1], call.Bench) ∧
    ¬ ∃ order, Linearization mapApply noRows
      (Threads.run step (start fun _ : Unit => [.insert longRow, .select 1]) (List.replicate 8 ())).shared.history
      order := by
  have hrow : longRow = .u64 1 :: [.u64 0, .u64 0, .u64 0, .f64 0, .str (asciiString longBytes)] := by rw [longRow]
  refine ⟨fun call hcall => ?_, ?_⟩
  · rcases List.mem_cons.1 hcall with rfl | hcall
    · exact ⟨by simp only [longRow, cols, List.length_cons, List.length_nil], 1, _, hrow⟩
    · cases List.mem_singleton.1 hcall
      trivial
  · rw [alone_history hrow decode_longRow]
    exact not_linearizable readBack_ne

end WtBenchmarks.Contention
