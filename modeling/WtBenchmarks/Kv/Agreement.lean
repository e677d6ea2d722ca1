/-
The three key-value adapters against one array of payloads.

Every engine holds the rows `0..rows` of an array indexed by the keys (`Full`), whatever its key type and transaction
scope; each phase of each adapter is a fold over that array (`loaded`, `pointSum`, `overwritten`, `scanSum`,
`deletedFrom`). What is left to differ is the number emitted for the overwrite phase.

- `Worktable.main_eq`, `Redb.main_eq`, `Sqlite.main_eq`: the lines of a whole run.
- `kv_checksums_agree`: exactly when the three runs emit the same lines.
-/
import WtBenchmarks.Kv.Runners

namespace WtBenchmarks.Kv

/-! ## The array -/

/-- the payloads after the insert phase -/
def loaded (config : KvConfig) (i : ℕ) : List UInt8 := textValue (UInt64.ofNat i) config.payloadBytes

def pointSum (w : ℕ → List UInt8) (keys : List UInt64) : UInt64 :=
  keys.foldl (fun sum key => sum + textChecksum key (w key.toNat)) 0

def overwritten (config : KvConfig) (w : ℕ → List UInt8) (keys : List UInt64) : ℕ → List UInt8 :=
  keys.foldl (fun w key => Function.update w key.toNat (textValue (key * 17) config.payloadBytes)) w

/-- the checksum of one range, added to `sum` -/
def rangeSum (w : ℕ → List UInt8) (len : UInt64) (sum start : UInt64) : UInt64 :=
  (List.range' start.toNat len.toNat).foldl (fun sum i => sum + textChecksum (UInt64.ofNat i) (w i)) sum

def scanSum (w : ℕ → List UInt8) (len : UInt64) (starts : List UInt64) : UInt64 := starts.foldl (rangeSum w len) 0

def deletedFrom (w : ℕ → List UInt8) (keys : List UInt64) : UInt64 :=
  (keys.foldl deleteCell (fun i => some (w i), 0)).2

/-- the lines of a repetition that emits `overwrite` for the overwrite phase -/
def arrayLines (config : KvConfig) (overwrite : UInt64) (repetition : ℕ) : List Line :=
  let w := overwritten config (loaded config) config.pointKeys
  phases repetition config.rows (pointSum (loaded config) config.pointKeys) overwrite
    (scanSum w config.scanLength config.scanStarts) (deletedFrom w config.pointKeys)

/-- a run of repetitions none of which fails -/
theorem repeated_eq (repetitions : ℕ) (body : ℕ → Option (List Line)) (lines : ℕ → List Line)
    (h : ∀ repetition, body repetition = some (lines repetition)) :
    repeated repetitions body = some ((List.range' 1 repetitions).map lines).flatten := by
  unfold repeated
  rw [mapM_eq_some _ fun repetition _ => h repetition]
  rfl

/-! ## Transaction scopes -/

/-- the scope of the transactions does not show in the result of a write phase -/
theorem writePhase_eq {D A K : Type} (scope : TransactionScope) (body : D × A → K → Option (D × A))
    (database : Database D) (acc : A) (keys : List K) :
    writePhase scope body database acc keys =
      (keys.foldlM body (database.committed, acc)).map fun r => (commit r.1, r.2) := by
  cases scope with
  | batch =>
    simp only [writePhase, beginTransaction]
    cases keys.foldlM body (database.committed, acc) <;> rfl
  | perOperation =>
    simp only [writePhase, beginTransaction]
    induction keys generalizing database acc with
    | nil => rfl
    | cons key keys ih =>
      rw [List.foldlM_cons, List.foldlM_cons]
      cases hbody : body (database.committed, acc) key with
      | none => rfl
      | some r => exact ih (commit r.1) r.2

/-- nor in that of a read phase -/
theorem readPhase_eq {D A K : Type} (scope : TransactionScope) (body : D → A → K → Option A) (database : Database D)
    (acc : A) (keys : List K) : readPhase scope body database acc keys = keys.foldlM (body database.committed) acc := by
  cases scope <;> rfl

/-- a write phase that follows the array -/
theorem writePhase_simulates {D A K S : Type} (R : D × A → S → Prop) {body : D × A → K → Option (D × A)}
    {g : S → K → S} (scope : TransactionScope) (keys : List K)
    (h : ∀ r s, ∀ k ∈ keys, R r s → ∃ r', body r k = some r' ∧ R r' (g s k)) (database : Database D) (acc : A) (s : S)
    (hR : R (database.committed, acc) s) :
    ∃ database' acc', writePhase scope body database acc keys = some (database', acc') ∧
      R (database'.committed, acc') (keys.foldl g s) := by
  obtain ⟨r, hr, hR'⟩ := foldlM_simulates R keys h _ s hR
  exact ⟨commit r.1, r.2, by rw [writePhase_eq, hr]; rfl, hR'⟩

/-- a write phase that loads the rows in order -/
theorem writePhase_loads {D : Type} (I : ℕ → D → Prop) {body : D × Unit → ℕ → Option (D × Unit)}
    (scope : TransactionScope) (n : ℕ) (h : ∀ i d, i < n → I i d → ∃ d', body (d, ()) i = some (d', ()) ∧ I (i + 1) d')
    (database : Database D) (h0 : I 0 database.committed) :
    ∃ database', writePhase scope body database () (List.range n) = some (database', ()) ∧ I n database'.committed := by
  obtain ⟨r, hr, hI⟩ := exists_foldlM_range (I := fun i r => I i r.1) (f := body) n (fun i r hi hI => by
    obtain ⟨d', hd', hI'⟩ := h i r.1 hi hI
    exact ⟨(d', ()), hd', hI'⟩) (database.committed, ()) h0
  exact ⟨commit r.1, by rw [writePhase_eq, hr]; rfl, hI⟩

/-! ## WorkTable -/

namespace Worktable

variable {config : KvConfig} {table : KvBench} {w : ℕ → List UInt8}

/-- the table holds the array -/
abbrev Holds (config : KvConfig) (table : KvBench) (w : ℕ → List UInt8) : Prop :=
  Full (byCast id) config.rows.toNat table w

theorem increasing (config : KvConfig) : Increasing (byCast (id : UInt64 → UInt64)) config.rows.toNat :=
  increasing_u64 config.rows.toNat_lt.le

theorem load_holds (config : KvConfig) :
    ∃ table, (List.range config.rows.toNat).foldlM
      (fun table key => insert config.payloadBytes table (UInt64.ofNat key)) ∅ = some table ∧
        Holds config table (loaded config) := by
  obtain ⟨table, htable, hfull⟩ := exists_foldlM_range
    (I := fun i table => Indexed (byCast id) config.rows.toNat table (Indexed.upTo i (loaded config)))
    (f := fun table key => insert config.payloadBytes table (UInt64.ofNat key)) config.rows.toNat
    (fun i table hi h => by
      obtain ⟨hnew, hinsert⟩ := Indexed.load_step (increasing config).injOn hi h
      exact ⟨_, if_neg hnew, hinsert⟩) ∅ (Indexed.empty_upTo _ _ _)
  exact ⟨table, htable, Full.of_upTo hfull⟩

theorem pointRead_eq (h : Holds config table w) {keys : List UInt64} (hk : ∀ k ∈ keys, k < config.rows) :
    pointReadChecksum table keys = some (pointSum w keys) := by
  refine foldlM_eq_some keys (fun sum key hkey => ?_) 0
  have hget : table[key]? = some (w key.toNat) := h.get_key (UInt64.lt_iff_toNat_lt.1 (hk key hkey))
  rw [hget]
  rfl

theorem overwrite_holds (h : Holds config table w) {keys : List UInt64} (hk : ∀ k ∈ keys, k < config.rows) :
    ∃ table', overwrite config.payloadBytes table keys = some table' ∧
      Holds config table' (overwritten config w keys) := by
  refine foldlM_simulates (Holds config) keys (fun table w key hkey h => ?_) table w h
  have hlt := UInt64.lt_iff_toNat_lt.1 (hk key hkey)
  exact ⟨_, if_pos (h.mem_key hlt), h.insert_key (increasing config).injOn hlt _⟩

theorem rangeScan_eq (h : Holds config table w) {starts : List UInt64}
    (hs : ∀ start ∈ starts, start.toNat + config.scanLength.toNat ≤ config.rows.toNat) :
    rangeScanChecksum table starts config.scanLength = some (scanSum w config.scanLength starts) := by
  refine foldlM_eq_some starts (fun sum start hstart => ?_) 0
  have hfit := hs start hstart
  have hrows := config.rows.toNat_lt
  obtain ⟨stop, hstop, hv⟩ := checkedAdd_some (a := start) (b := config.scanLength) (by omega)
  have hrange : selectByPkRange table start stop =
      (List.range' start.toNat config.scanLength.toNat).map fun i => (byCast id i, w i) := by
    have hsel : ∀ i < config.rows.toNat, decide (start ≤ byCast id i ∧ byCast id i < stop) = true ↔
        start.toNat ≤ i ∧ i < stop.toNat := fun i hi => by
      rw [decide_eq_true_eq, byCast, id, UInt64.le_iff_toNat_le, UInt64.lt_iff_toNat_lt,
        ofNat_toNat_of_lt (hi.trans hrows)]
    have hbetween := h.between (increasing config) (fun row => decide (start ≤ row.1 ∧ row.1 < stop)) (by omega)
      (by omega) hsel
    rwa [hv, Nat.add_sub_cancel_left] at hbetween
  rw [hstop]
  simp only [Option.bind_eq_bind, Option.bind_some, hrange, List.foldl_map, rangeSum]
  rfl

theorem count_eq (h : Holds config table w) : count table = config.rows := by
  rw [count, h.size_eq (increasing config).injOn, UInt64.ofNat_toNat]

theorem delete_eq (h : Holds config table w) {keys : List UInt64} (hk : ∀ k ∈ keys, k < config.rows) :
    (delete table keys).2 = deletedFrom w keys := by
  have hstart : Deleting id config.rows.toNat (table, 0) (fun i => some (w i), 0) := ⟨h, rfl⟩
  refine (List.foldl_rel hstart fun key hkey r s hrs => ?_).2
  rcases hrs.step (increasing config).injOn (UInt64.lt_iff_toNat_lt.1 (hk key hkey)) with ⟨hin, hrs'⟩ | ⟨hin, hrs', -⟩
  · rw [if_pos (show key ∈ r.1 from hin)]
    exact hrs'
  · rw [if_neg (show key ∉ r.1 from hin)]
    exact hrs'

theorem runBackend_eq (hacc : config.Accepted) (repetition : ℕ) :
    runBackend config config.pointKeys config.scanStarts repetition =
      some (arrayLines config config.rows repetition) := by
  have hk := KvConfig.pointKeys_lt hacc
  obtain ⟨table, hload, h⟩ := load_holds config
  obtain ⟨table', hover, h'⟩ := overwrite_holds h hk
  rw [runBackend, hload]
  simp only [Option.bind_eq_bind, Option.bind_some, pointRead_eq h hk, hover, count_eq h, count_eq h',
    rangeScan_eq h' (KvConfig.scanStarts_le hacc), delete_eq h' hk]
  rfl

theorem main_eq (hacc : config.Accepted) (hd : config.durability = .memory)
    (hs : config.transactionScope = .perOperation) :
    main config = some ((List.range' 1 config.repetitions).map (arrayLines config config.rows)).flatten := by
  rw [main, if_neg (not_not_intro hd), if_neg (not_not_intro hs)]
  exact repeated_eq _ _ _ (runBackend_eq hacc)

end Worktable

/-! ## redb -/

namespace Redb

variable {config : KvConfig} {database : Database Table} {w : ℕ → List UInt8}

/-- the committed table holds the array -/
abbrev Holds (config : KvConfig) (database : Database Table) (w : ℕ → List UInt8) : Prop :=
  Full (byCast id) config.rows.toNat database.committed w

theorem increasing (config : KvConfig) : Increasing (byCast (id : UInt64 → UInt64)) config.rows.toNat :=
  increasing_u64 config.rows.toNat_lt.le

theorem insertRows_holds (config : KvConfig) :
    ∃ database, insertRows config ⟨∅⟩ = some (database, ()) ∧ Holds config database (loaded config) := by
  have hload : ∃ database, insertRows config ⟨∅⟩ = some (database, ()) ∧
      Indexed (byCast id) config.rows.toNat database.committed (Indexed.upTo config.rows.toNat (loaded config)) :=
    writePhase_loads (fun i table => Indexed (byCast id) config.rows.toNat table (Indexed.upTo i (loaded config))) _ _
      (fun i table hi h => ⟨_, rfl, (Indexed.load_step (increasing config).injOn hi h).2⟩) ⟨∅⟩
      (Indexed.empty_upTo _ _ _)
  obtain ⟨database, hdatabase, hfull⟩ := hload
  exact ⟨database, hdatabase, Full.of_upTo hfull⟩

theorem readPoints_eq (h : Holds config database w) {keys : List UInt64} (hk : ∀ k ∈ keys, k < config.rows) :
    readPoints config database keys = some (pointSum w keys) := by
  rw [readPoints, readPhase_eq]
  refine foldlM_eq_some keys (fun sum key hkey => ?_) 0
  have hget : database.committed[key]? = some (w key.toNat) := h.get_key (UInt64.lt_iff_toNat_lt.1 (hk key hkey))
  rw [hget]
  rfl

theorem updateRows_holds (h : Holds config database w) {keys : List UInt64} (hk : ∀ k ∈ keys, k < config.rows) :
    ∃ database', updateRows config database keys = some (database', ()) ∧
      Holds config database' (overwritten config w keys) :=
  let ⟨database', (), hrun, hfull⟩ := writePhase_simulates
    (fun (r : Table × Unit) w => Full (byCast id) config.rows.toNat r.1 w) config.transactionScope keys
    (fun _ _ key hkey h => ⟨_, rfl, h.insert_key (increasing config).injOn (UInt64.lt_iff_toNat_lt.1 (hk key hkey)) _⟩)
    database () w h
  ⟨database', hrun, hfull⟩

theorem scanRows_eq (h : Holds config database w) {starts : List UInt64}
    (hs : ∀ start ∈ starts, start.toNat + config.scanLength.toNat ≤ config.rows.toNat) :
    scanRows config database starts = some (scanSum w config.scanLength starts) := by
  rw [scanRows, readPhase_eq]
  refine foldlM_eq_some starts (fun sum start hstart => ?_) 0
  have hrows := config.rows.toNat_lt
  have hrange : (range database.committed start).take config.scanLength.toNat =
      (List.range' start.toNat config.scanLength.toNat).map fun i => (byCast id i, w i) :=
    h.take (increasing config) (fun row => decide (start ≤ row.1)) (hs start hstart) fun i hi => by
      rw [decide_eq_true_eq, byCast, id, UInt64.le_iff_toNat_le, ofNat_toNat_of_lt (hi.trans hrows)]
  rw [hrange, List.foldl_map]
  rfl

theorem deleteRows_eq (h : Holds config database w) {keys : List UInt64} (hk : ∀ k ∈ keys, k < config.rows) :
    ∃ database', deleteRows config database keys = some (database', deletedFrom w keys) := by
  have hstart : Deleting id config.rows.toNat (database.committed, 0) (fun i => some (w i), 0) := ⟨h, rfl⟩
  have hrun : ∃ database' deleted, deleteRows config database keys = some (database', deleted) ∧
      Deleting id config.rows.toNat (database'.committed, deleted)
        (keys.foldl deleteCell (fun i => some (w i), 0)) := by
    refine writePhase_simulates _ _ _ (fun r s key hkey hrs => ⟨_, rfl, ?_⟩) _ _ _ hstart
    rcases hrs.step (increasing config).injOn (UInt64.lt_iff_toNat_lt.1 (hk key hkey)) with ⟨hin, hrs'⟩ | ⟨hin, -, hrs'⟩
    · rw [if_pos (Std.ExtTreeMap.mem_iff_isSome_getElem?.1 (show key ∈ r.1 from hin))]
      exact hrs'
    · have hget : ¬ (r.1[key]?).isSome := fun hget => hin (Std.ExtTreeMap.mem_iff_isSome_getElem?.2 hget)
      rw [if_neg hget, UInt64.add_zero]
      exact hrs'
  obtain ⟨database', deleted, hrun, -, rfl⟩ := hrun
  exact ⟨database', hrun⟩

theorem runRepetition_eq (hacc : config.Accepted) (repetition : ℕ) :
    runRepetition config config.pointKeys config.scanStarts repetition =
      some (arrayLines config config.operations repetition) := by
  have hk := KvConfig.pointKeys_lt hacc
  obtain ⟨database, hinsert, h⟩ := insertRows_holds config
  obtain ⟨database', hupdate, h'⟩ := updateRows_holds h hk
  obtain ⟨database'', hdelete⟩ := deleteRows_eq h' hk
  rw [runRepetition, hinsert]
  simp only [Option.bind_eq_bind, Option.bind_some, readPoints_eq h hk, hupdate,
    scanRows_eq h' (KvConfig.scanStarts_le hacc), hdelete]
  rfl

theorem main_eq (hacc : config.Accepted) (hd : config.durability ≠ .memory) :
    main config = some ((List.range' 1 config.repetitions).map (arrayLines config config.operations)).flatten := by
  rw [main, if_neg hd]
  exact repeated_eq _ _ _ (runRepetition_eq hacc)

end Redb

/-! ## SQLite -/

/-- the checksum of a range from `sum` on is the one from zero, added to `sum` -/
theorem rangeSum_add (w : ℕ → List UInt8) (len sum start : UInt64) :
    rangeSum w len sum start = sum + rangeSum w len 0 start := by
  have hadd : ∀ (l : List ℕ) (a b : UInt64),
      l.foldl (fun sum i => sum + textChecksum (UInt64.ofNat i) (w i)) (a + b) =
        a + l.foldl (fun sum i => sum + textChecksum (UInt64.ofNat i) (w i)) b := by
    intro l a b
    induction l generalizing b with
    | nil => rfl
    | cons i l ih => rw [List.foldl_cons, List.foldl_cons, UInt64.add_assoc, ih]
  rw [rangeSum, rangeSum, ← hadd, UInt64.add_zero]

namespace Sqlite

variable {config : KvConfig} {database : Database Table} {w : ℕ → List UInt8}

/-- the committed table holds the array -/
abbrev Holds (config : KvConfig) (database : Database Table) (w : ℕ → List UInt8) : Prop :=
  Full (byCast UInt64.toInt64) config.rows.toNat database.committed w

theorem rows_le (hrows : config.rows ≤ i64Max) : config.rows.toNat < 2 ^ 63 := by
  have hle := UInt64.le_iff_toNat_le.1 hrows
  have hmax : i64Max.toNat = 2 ^ 63 - 1 := rfl
  omega

theorem increasing (hrows : config.rows ≤ i64Max) : Increasing (byCast UInt64.toInt64) config.rows.toNat :=
  increasing_i64 (rows_le hrows).le

theorem insertRows_holds (hrows : config.rows ≤ i64Max) :
    ∃ database, insertRows config ⟨∅⟩ = some (database, ()) ∧ Holds config database (loaded config) := by
  have hload : ∃ database, insertRows config ⟨∅⟩ = some (database, ()) ∧
      Indexed (byCast UInt64.toInt64) config.rows.toNat database.committed
        (Indexed.upTo config.rows.toNat (loaded config)) := by
    refine writePhase_loads (fun i table => Indexed (byCast UInt64.toInt64) config.rows.toNat table
      (Indexed.upTo i (loaded config))) _ _ (fun i table hi h => ?_) ⟨∅⟩ (Indexed.empty_upTo _ _ _)
    obtain ⟨hnew, hinsert⟩ := Indexed.load_step (increasing hrows).injOn hi h
    exact ⟨_, if_neg hnew, hinsert⟩
  obtain ⟨database, hdatabase, hfull⟩ := hload
  exact ⟨database, hdatabase, Full.of_upTo hfull⟩

theorem readPoints_eq (h : Holds config database w) {keys : List UInt64} (hk : ∀ k ∈ keys, k < config.rows) :
    readPoints config database keys = some (pointSum w keys) := by
  rw [readPoints, readPhase_eq]
  refine foldlM_eq_some keys (fun sum key hkey => ?_) 0
  have hget : database.committed[key.toInt64]? = some (w key.toNat) :=
    h.get_key (UInt64.lt_iff_toNat_lt.1 (hk key hkey))
  rw [queryRow, hget]
  simp [UInt64.toUInt64_toInt64]

theorem updateRows_holds (hrows : config.rows ≤ i64Max) (h : Holds config database w) {keys : List UInt64}
    (hk : ∀ k ∈ keys, k < config.rows) :
    ∃ database', updateRows config database keys = some (database', ()) ∧
      Holds config database' (overwritten config w keys) := by
  have hrun : ∃ database' acc, updateRows config database keys = some (database', acc) ∧
      Full (byCast UInt64.toInt64) config.rows.toNat database'.committed (overwritten config w keys) := by
    refine writePhase_simulates (fun (r : Table × Unit) w => Full (byCast UInt64.toInt64) config.rows.toNat r.1 w) _ _
      (fun r w key hkey h => ⟨_, rfl, ?_⟩) _ _ _ h
    have hlt := UInt64.lt_iff_toNat_lt.1 (hk key hkey)
    rw [update, if_pos (h.mem_key hlt)]
    exact h.insert_key (increasing hrows).injOn hlt _
  obtain ⟨database', acc, hrun, hfull⟩ := hrun
  exact ⟨database', hrun, hfull⟩

theorem scanOnce_eq (hrows : config.rows ≤ i64Max) (h : Holds config database w) {start : UInt64}
    (hs : start.toNat + config.scanLength.toNat ≤ config.rows.toNat) :
    scanOnce database.committed start config.scanLength = rangeSum w config.scanLength 0 start := by
  have hbound := rows_le hrows
  have hlen : config.scanLength.toInt64.toInt = config.scanLength.toNat := by
    have := @toInt_ofNat_toInt64 config.scanLength.toNat (by omega)
    rwa [UInt64.ofNat_toNat] at this
  have hstart : start.toInt64.toInt = start.toNat := by
    have := toInt_ofNat_toInt64 (i := start.toNat) (by omega)
    rwa [UInt64.ofNat_toNat] at this
  have hnonneg : ¬ config.scanLength.toInt64 < 0 := by
    rw [Int64.lt_iff_toInt_lt, hlen, Int64.toInt_zero]
    omega
  have hrange :
      (database.committed.toList.filter fun row => decide (start.toInt64 ≤ row.1)).take config.scanLength.toNat =
      (List.range' start.toNat config.scanLength.toNat).map fun i => (byCast UInt64.toInt64 i, w i) :=
    h.take (increasing hrows) (fun row => decide (start.toInt64 ≤ row.1)) hs fun i hi => by
      rw [decide_eq_true_eq, byCast, Int64.le_iff_toInt_le, hstart, toInt_ofNat_toInt64 (hi.trans hbound)]
      omega
  rw [scanOnce, selectFrom, limit, if_neg hnonneg, hlen, Int.toNat_natCast, hrange, List.map_map, List.foldl_map]
  simp only [Function.comp_apply, byCast, UInt64.toUInt64_toInt64]
  rfl

theorem scanRows_eq (hrows : config.rows ≤ i64Max) (h : Holds config database w) {starts : List UInt64}
    (hs : ∀ start ∈ starts, start.toNat + config.scanLength.toNat ≤ config.rows.toNat) :
    scanRows config database starts = some (scanSum w config.scanLength starts) := by
  rw [scanRows, readPhase_eq]
  refine foldlM_eq_some starts (fun sum start hstart => ?_) 0
  rw [scanOnce_eq hrows h (hs start hstart), rangeSum_add w _ sum]

theorem deleteRows_eq (hrows : config.rows ≤ i64Max) (h : Holds config database w) {keys : List UInt64}
    (hk : ∀ k ∈ keys, k < config.rows) :
    ∃ database', deleteRows config database keys = some (database', deletedFrom w keys) := by
  have hstart : Deleting UInt64.toInt64 config.rows.toNat (database.committed, 0) (fun i => some (w i), 0) := ⟨h, rfl⟩
  have hrun : ∃ database' deleted, deleteRows config database keys = some (database', deleted) ∧
      Deleting UInt64.toInt64 config.rows.toNat (database'.committed, deleted)
        (keys.foldl deleteCell (fun i => some (w i), 0)) := by
    refine writePhase_simulates _ _ _ (fun r s key hkey hrs => ⟨_, rfl, ?_⟩) _ _ _ hstart
    rcases hrs.step (increasing hrows).injOn (UInt64.lt_iff_toNat_lt.1 (hk key hkey)) with ⟨hin, hrs'⟩ | ⟨hin, hrs', -⟩
    · rw [delete, if_pos hin]
      exact hrs'
    · have hzero : r.2 + 0 = r.2 := UInt64.add_zero r.2
      rw [delete, if_neg hin, hzero]
      exact hrs'
  obtain ⟨database', deleted, hrun, -, rfl⟩ := hrun
  exact ⟨database', hrun⟩

theorem runRepetition_eq (hacc : config.Accepted) (hrows : config.rows ≤ i64Max) (repetition : ℕ) :
    runRepetition config config.pointKeys config.scanStarts repetition =
      some (arrayLines config config.operations repetition) := by
  have hk := KvConfig.pointKeys_lt hacc
  obtain ⟨database, hinsert, h⟩ := insertRows_holds hrows
  obtain ⟨database', hupdate, h'⟩ := updateRows_holds hrows h hk
  obtain ⟨database'', hdelete⟩ := deleteRows_eq hrows h' hk
  rw [runRepetition, hinsert]
  simp only [Option.bind_eq_bind, Option.bind_some, readPoints_eq h hk, hupdate,
    scanRows_eq hrows h' (KvConfig.scanStarts_le hacc), hdelete]
  rfl

theorem main_eq (hacc : config.Accepted) (hd : config.durability = .memory) (hrows : config.rows ≤ i64Max) :
    main config = some ((List.range' 1 config.repetitions).map (arrayLines config config.operations)).flatten := by
  rw [main, if_neg (not_not_intro hd), if_neg (UInt64.not_lt.2 hrows)]
  exact repeated_eq _ _ _ (runRepetition_eq hacc hrows)

end Sqlite

/-! ## The cross-engine check -/

/-- the three adapters accept the workload, under their durability and transaction scopes, and emit the same lines -/
def Agree (config : KvConfig) (durability : DurabilityMode) (sqliteScope redbScope : TransactionScope) : Prop :=
  ∃ lines,
    Worktable.main { config with durability := .memory, transactionScope := .perOperation } = some lines ∧
    Sqlite.main { config with durability := .memory, transactionScope := sqliteScope } = some lines ∧
    Redb.main { config with durability := durability, transactionScope := redbScope } = some lines

/-- only the number emitted for the overwrite phase tells two runs apart -/
theorem arrayLines_inj {config : KvConfig} (hacc : config.Accepted) {a b : UInt64}
    (h : ((List.range' 1 config.repetitions).map (arrayLines config a)).flatten =
      ((List.range' 1 config.repetitions).map (arrayLines config b)).flatten) : a = b := by
  obtain ⟨repetitions, hrep⟩ := Nat.exists_eq_succ_of_ne_zero hacc.repetitions.ne'
  rw [hrep, List.range'_succ, List.map_cons, List.map_cons, List.flatten_cons, List.flatten_cons] at h
  have hline := congrArg (fun lines : List Line => (lines[2]?).map Line.checksum) h
  simpa [arrayLines, phases] using hline

theorem agree_iff {config : KvConfig} (hacc : config.Accepted) {durability : DurabilityMode}
    (hdurability : durability ≠ .memory) (sqliteScope redbScope : TransactionScope) :
    Agree config durability sqliteScope redbScope ↔ config.rows ≤ i64Max ∧ config.operations = config.rows := by
  have hworktable := @Worktable.main_eq { config with durability := .memory, transactionScope := .perOperation }
    ⟨hacc.1, hacc.2, hacc.3, hacc.4⟩ rfl rfl
  have hredb := @Redb.main_eq { config with durability := durability, transactionScope := redbScope }
    ⟨hacc.1, hacc.2, hacc.3, hacc.4⟩ hdurability
  have hsqlite := @Sqlite.main_eq { config with durability := .memory, transactionScope := sqliteScope }
    ⟨hacc.1, hacc.2, hacc.3, hacc.4⟩ rfl
  constructor
  · rintro ⟨lines, hw, hs, hr⟩
    refine ⟨?_, arrayLines_inj hacc (Option.some_inj.1 ((hredb.symm.trans hr).trans (hworktable.symm.trans hw).symm))⟩
    refine UInt64.not_lt.1 fun hlt => ?_
    rw [Sqlite.main, if_neg (not_not_intro rfl), if_pos hlt] at hs
    cases hs
  · rintro ⟨hrows, hoperations⟩
    refine ⟨_, hworktable, (hsqlite hrows).trans ?_, hredb.trans ?_⟩
    · exact congrArg (fun n => some ((List.range' 1 config.repetitions).map (arrayLines config n)).flatten) hoperations
    · exact congrArg (fun n => some ((List.range' 1 config.repetitions).map (arrayLines config n)).flatten) hoperations

/-- **Cross-engine checksums.** The three adapters emit the same lines exactly when SQLite can number the rows and there
are as many point operations as rows: the WorkTable adapter emits the row count for the overwrite phase, the others the
number of operations. -/
theorem kv_checksums_agree (config : KvConfig) (durability : DurabilityMode)
    (sqliteScope redbScope : TransactionScope) (hvalid : config.validate = .ok ())
    (hdurability : durability ≠ .memory) :
    Agree config durability sqliteScope redbScope ↔ config.rows ≤ i64Max ∧ config.operations = config.rows :=
  agree_iff (KvConfig.accepted_of_validate hvalid) hdurability sqliteScope redbScope

/-- one row, one scan of one row -/
def oneRow (operations : UInt64) : KvConfig := ⟨1, operations, 1, 1, 1, 1, 1, .memory, .perOperation⟩

theorem kv_checksums_agree_one_row :
    Agree (oneRow 1) .durable .batch .perOperation ↔
      (oneRow 1).rows ≤ i64Max ∧ (oneRow 1).operations = (oneRow 1).rows :=
  kv_checksums_agree (oneRow 1) .durable .batch .perOperation rfl (by decide)

/-- two overwrites of one row: WorkTable emits 1, SQLite and redb emit 2 -/
theorem two_overwrites_disagree :
    ¬ ∀ (config : KvConfig) (durability : DurabilityMode) (sqliteScope redbScope : TransactionScope),
      config.validate = .ok () → durability ≠ .memory → Agree config durability sqliteScope redbScope := by
  intro h
  have hagree := h (oneRow 2) .durable .batch .batch rfl (by decide)
  rw [agree_iff (KvConfig.accepted_of_validate rfl) (by decide)] at hagree
  exact absurd hagree.2 (by decide)

end WtBenchmarks.Kv
