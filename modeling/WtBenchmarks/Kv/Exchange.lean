/-
What the checksums of the key-value adapters notice (`text_checksum`, `src/kv.rs`).

The digest of a row is the hash of its payload plus its key, and the digests of a pass are added up. So the sum does not
know which payload came with which key: what shows is how often each payload was read.

- `checksum_eq`: the checksum of a pass adds up the digests of the rows it reads, for every adapter and scope;
- `rows_answering`: an adapter that answers with other payloads reads the same keys;
- `exchange_noticed_iff`: when a pass notices two payloads returned under each other's keys.
-/
import Mathlib.Data.UInt
import WtBenchmarks.Core.Aggregate
import WtBenchmarks.Kv.Agreement

namespace WtBenchmarks.Kv

/-! ## Passes -/

/-- a read pass of an adapter over what it has stored -/
inductive Pass where
  | worktablePoints (table : Worktable.KvBench) (keys : List UInt64)
  | worktableScan (table : Worktable.KvBench) (starts : List UInt64) (scanLength : UInt64)
  | redbPoints (config : KvConfig) (table : Redb.Table) (keys : List UInt64)
  | redbScan (config : KvConfig) (table : Redb.Table) (starts : List UInt64)
  | sqlitePoints (config : KvConfig) (table : Sqlite.Table) (keys : List UInt64)
  | sqliteScan (config : KvConfig) (table : Sqlite.Table) (starts : List UInt64)

namespace Pass

/-- what the adapter reports -/
def checksum : Pass → Option UInt64
  | worktablePoints table keys => Worktable.pointReadChecksum table keys
  | worktableScan table starts scanLength => Worktable.rangeScanChecksum table starts scanLength
  | redbPoints config table keys => Redb.readPoints config ⟨table⟩ keys
  | redbScan config table starts => Redb.scanRows config ⟨table⟩ starts
  | sqlitePoints config table keys => Sqlite.readPoints config ⟨table⟩ keys
  | sqliteScan config table starts => Sqlite.scanRows config ⟨table⟩ starts

/-- the same pass, over an adapter that answers with other payloads -/
def answering (f : UInt64 → List UInt8 → List UInt8) : Pass → Pass
  | worktablePoints table keys => worktablePoints (table.map f) keys
  | worktableScan table starts scanLength => worktableScan (table.map f) starts scanLength
  | redbPoints config table keys => redbPoints config (table.map f) keys
  | redbScan config table starts => redbScan config (table.map f) starts
  | sqlitePoints config table keys => sqlitePoints config (table.map fun k => f k.toUInt64) keys
  | sqliteScan config table starts => sqliteScan config (table.map fun k => f k.toUInt64) starts

/-- the keys or the starts the pass goes through -/
def requests : Pass → List UInt64
  | worktablePoints _ keys => keys
  | worktableScan _ starts _ => starts
  | redbPoints _ _ keys => keys
  | redbScan _ _ starts => starts
  | sqlitePoints _ _ keys => keys
  | sqliteScan _ _ starts => starts

/-- the rows one key or start is answered with -/
def fetch : Pass → UInt64 → Option (List (UInt64 × List UInt8))
  | worktablePoints table _, key => (table[key]?).map fun payload => [(key, payload)]
  | worktableScan table _ scanLength, start =>
    (checkedAdd start scanLength).map fun stop => Worktable.selectByPkRange table start stop
  | redbPoints _ table _, key => (table[key]?).map fun payload => [(key, payload)]
  | redbScan config table _, start => some ((Redb.range table start).take config.scanLength.toNat)
  | sqlitePoints _ table _, key => (Sqlite.queryRow table key.toInt64).map fun row => [row]
  | sqliteScan config table _, start => some (Sqlite.selectFrom table start.toInt64 config.scanLength.toInt64)

/-- the rows the pass reads -/
def rows (pass : Pass) : Option (List (UInt64 × List UInt8)) := Aggregate.answers pass.fetch pass.requests

/-- the payload stored under a key -/
def stored : Pass → UInt64 → Option (List UInt8)
  | worktablePoints table _, key => table[key]?
  | worktableScan table _ _, key => table[key]?
  | redbPoints _ table _, key => table[key]?
  | redbScan _ table _, key => table[key]?
  | sqlitePoints _ table _, key => table[key.toInt64]?
  | sqliteScan _ table _, key => table[key.toInt64]?

/-! ## The rows of a pass -/

/-- a point that adds the digest of its row -/
theorem point_step (answer : Option (UInt64 × List UInt8)) (sum : UInt64) :
    (do
      let row ← answer
      some (sum + textChecksum row.1 row.2)) =
      (answer.map fun row => [row]).map fun rows => sum + Aggregate.total (fun row => fnv1a row.2 + row.1) rows := by
  cases answer with
  | none => rfl
  | some row => simp [textChecksum]

/-- a range that adds the digests of its rows -/
theorem range_step (rows : List (UInt64 × List UInt8)) (sum : UInt64) :
    rows.foldl (fun sum row => sum + textChecksum row.1 row.2) sum =
      sum + Aggregate.total (fun row => fnv1a row.2 + row.1) rows :=
  Aggregate.foldl_total (fun row : UInt64 × List UInt8 => fnv1a row.2 + row.1) rows sum

theorem checksum_eq_foldlM (pass : Pass) :
    pass.checksum = pass.requests.foldlM (fun sum request => (pass.fetch request).map fun rows =>
      sum + Aggregate.total (fun row => fnv1a row.2 + row.1) rows) 0 := by
  cases pass with
  | worktablePoints table keys =>
    refine congrArg (fun step => List.foldlM step 0 keys) (funext fun sum => funext fun key => ?_)
    have hstep := point_step ((table[key]?).map fun payload => (key, payload)) sum
    cases hget : table[key]? <;> simp_all [fetch]
  | worktableScan table starts scanLength =>
    refine congrArg (fun step => List.foldlM step 0 starts) (funext fun sum => funext fun start => ?_)
    simp only [fetch, range_step]
    cases checkedAdd start scanLength <;> rfl
  | redbPoints config table keys =>
    rw [checksum, Redb.readPoints, readPhase_eq]
    refine congrArg (fun step => List.foldlM step 0 keys) (funext fun sum => funext fun key => ?_)
    have hstep := point_step ((table[key]?).map fun payload => (key, payload)) sum
    cases hget : table[key]? <;> simp_all [fetch]
  | redbScan config table starts =>
    rw [checksum, Redb.scanRows, readPhase_eq]
    refine congrArg (fun step => List.foldlM step 0 starts) (funext fun sum => funext fun start => ?_)
    simp only [fetch, range_step, Option.map_some]
  | sqlitePoints config table keys =>
    rw [checksum, Sqlite.readPoints, readPhase_eq]
    refine congrArg (fun step => List.foldlM step 0 keys) (funext fun sum => funext fun key => ?_)
    exact point_step (Sqlite.queryRow table key.toInt64) sum
  | sqliteScan config table starts =>
    rw [checksum, Sqlite.scanRows, readPhase_eq]
    refine congrArg (fun step => List.foldlM step 0 starts) (funext fun sum => funext fun start => ?_)
    simp only [fetch, Sqlite.scanOnce, range_step, Option.map_some, zero_add]

/-- **What a checksum is.** -/
theorem checksum_eq (pass : Pass) :
    pass.checksum = pass.rows.map (Aggregate.total fun row => fnv1a row.2 + row.1) := by
  rw [checksum_eq_foldlM, Aggregate.foldlM_total]
  simp only [zero_add]
  rfl

/-- rows picked by their keys -/
theorem filter_map_fst {κ : Type} (q : κ → Bool) (f : κ → List UInt8 → List UInt8) (rows : List (κ × List UInt8)) :
    (rows.map fun row => (row.1, f row.1 row.2)).filter (fun row => q row.1) =
      (rows.filter fun row => q row.1).map fun row => (row.1, f row.1 row.2) := by
  rw [List.filter_map]
  rfl

theorem selectFrom_map (table : Sqlite.Table) (f : UInt64 → List UInt8 → List UInt8) (start length : Int64) :
    Sqlite.selectFrom (table.map fun k => f k.toUInt64) start length =
      (Sqlite.selectFrom table start length).map fun row => (row.1, f row.1 row.2) := by
  rw [Sqlite.selectFrom, Sqlite.selectFrom, Std.ExtTreeMap.toList_map,
    filter_map_fst (fun k => decide (start ≤ k)) fun k => f k.toUInt64]
  unfold Sqlite.limit
  split_ifs
  · rw [List.map_map, List.map_map]
    rfl
  · rw [← List.map_take, List.map_map, List.map_map]
    rfl

theorem fetch_answering (pass : Pass) (f : UInt64 → List UInt8 → List UInt8) (request : UInt64) :
    (pass.answering f).fetch request = (pass.fetch request).map (List.map fun row => (row.1, f row.1 row.2)) := by
  cases pass with
  | worktablePoints table keys | redbPoints config table keys =>
    simp only [answering, fetch, Std.ExtTreeMap.getElem?_map, Option.map_map]
    rfl
  | worktableScan table starts scanLength =>
    simp only [answering, fetch, Option.map_map]
    refine congrArg (fun g => Option.map g _) (funext fun stop => ?_)
    rw [Worktable.selectByPkRange, Std.ExtTreeMap.toList_map]
    exact filter_map_fst (fun k => decide (request ≤ k ∧ k < stop)) f table.toList
  | redbScan config table starts =>
    simp only [answering, fetch, Redb.range, Std.ExtTreeMap.toList_map, Option.map_some]
    rw [filter_map_fst (fun k => decide (request ≤ k)) f, List.map_take]
  | sqlitePoints config table keys =>
    simp only [answering, fetch, Sqlite.queryRow, Std.ExtTreeMap.getElem?_map]
    cases table[request.toInt64]? <;> rfl
  | sqliteScan config table starts =>
    simp only [answering, fetch, Option.map_some, selectFrom_map]

theorem requests_answering (pass : Pass) (f : UInt64 → List UInt8 → List UInt8) :
    (pass.answering f).requests = pass.requests := by
  cases pass <;> rfl

/-- **Other payloads under the same keys.** -/
theorem rows_answering (pass : Pass) (f : UInt64 → List UInt8 → List UInt8) :
    (pass.answering f).rows = pass.rows.map (List.map fun row => (row.1, f row.1 row.2)) := by
  rw [rows, requests_answering]
  exact Aggregate.answers_map _ (fetch_answering pass f) pass.requests

/-- a row listed by a table is stored in it -/
theorem get_of_mem_filter {κ : Type} [Ord κ] [Std.TransOrd κ] [Std.LawfulEqOrd κ]
    {table : Std.ExtTreeMap κ (List UInt8)} {q : κ × List UInt8 → Bool} {row : κ × List UInt8}
    (h : row ∈ table.toList.filter q) : table[row.1]? = some row.2 :=
  Std.ExtTreeMap.mem_toList_iff_getElem?_eq_some.1 (List.mem_filter.1 h).1

theorem mem_selectFrom {table : Sqlite.Table} {start length : Int64} {row : UInt64 × List UInt8}
    (h : row ∈ Sqlite.selectFrom table start length) : table[row.1.toInt64]? = some row.2 := by
  obtain ⟨signed, hsigned, rfl⟩ := List.mem_map.1 h
  have hlisted : signed ∈ table.toList.filter fun row => decide (start ≤ row.1) := by
    unfold Sqlite.limit at hsigned
    split_ifs at hsigned
    · exact hsigned
    · exact List.mem_of_mem_take hsigned
  exact get_of_mem_filter hlisted

theorem fetch_stored {pass : Pass} {request : UInt64} {rows : List (UInt64 × List UInt8)}
    (h : pass.fetch request = some rows) : ∀ row ∈ rows, pass.stored row.1 = some row.2 := by
  intro row hrow
  cases pass with
  | worktablePoints table keys | redbPoints config table keys =>
    obtain ⟨payload, hget, rfl⟩ := Option.map_eq_some_iff.1 h
    rw [List.mem_singleton.1 hrow]
    exact hget
  | worktableScan table starts scanLength =>
    obtain ⟨stop, -, rfl⟩ := Option.map_eq_some_iff.1 h
    exact get_of_mem_filter hrow
  | redbScan config table starts =>
    cases h
    exact get_of_mem_filter (List.mem_of_mem_take hrow)
  | sqlitePoints config table keys =>
    obtain ⟨found, hfound, rfl⟩ := Option.map_eq_some_iff.1 h
    obtain ⟨payload, hget, hsome⟩ := Option.bind_eq_some_iff.1 hfound
    cases hsome
    rw [List.mem_singleton.1 hrow]
    exact hget
  | sqliteScan config table starts =>
    cases h
    exact mem_selectFrom hrow

theorem rows_stored {pass : Pass} {rows : List (UInt64 × List UInt8)} (h : pass.rows = some rows) :
    ∀ row ∈ rows, pass.stored row.1 = some row.2 :=
  Aggregate.answers_forall (fun _ _ hfetch => fetch_stored hfetch) h

end Pass

/-! ## Exchanged payloads -/

theorem nsmul_eq (n : ℕ) (x : UInt64) : n • x = UInt64.ofNat n * x := by
  induction n with
  | zero => rw [zero_nsmul]; exact (UInt64.zero_mul).symm
  | succ n ih =>
    rw [succ_nsmul, ih, UInt64.ofNat_add, UInt64.add_mul]
    exact congrArg (UInt64.ofNat n * x + ·) (UInt64.one_mul x).symm

/-- how often a key is read -/
def readsOf (rows : List (UInt64 × List UInt8)) (key : UInt64) : UInt64 :=
  UInt64.ofNat ((rows.map Prod.fst).count key)

/-- **An exchange** of two payloads shows in the checksum of a pass exactly if the numbers of reads differ, and by more
than the hashes hide. -/
theorem exchange_noticed_iff (pass : Pass) {rows : List (UInt64 × List UInt8)} (hrows : pass.rows = some rows)
    {k₁ k₂ : UInt64} {p₁ p₂ : List UInt8} (h₁ : (k₁, p₁) ∈ rows) (h₂ : (k₂, p₂) ∈ rows) (hp : p₁ ≠ p₂) :
    ∃ correct exchanged, pass.checksum = some correct ∧
      (pass.answering (Aggregate.exchange k₁ k₂ p₁ p₂)).checksum = some exchanged ∧
      (exchanged ≠ correct ↔
        readsOf rows k₁ * (fnv1a p₂ - fnv1a p₁) ≠ readsOf rows k₂ * (fnv1a p₂ - fnv1a p₁)) := by
  have hstored := Pass.rows_stored hrows
  have hfixed : ∀ k p, (k, p) ∈ rows → ∀ row ∈ rows, row.1 = k → row.2 = p := by
    intro k p hkp row hrow heq
    have hrow := hstored row hrow
    rw [heq, hstored (k, p) hkp] at hrow
    exact (Option.some.inj hrow).symm
  have hne : k₁ ≠ k₂ := by
    rintro rfl
    exact hp (hfixed k₁ p₂ h₂ (k₁, p₁) h₁ rfl)
  refine ⟨_, _, by rw [Pass.checksum_eq, hrows]; rfl, by rw [Pass.checksum_eq, Pass.rows_answering, hrows]; rfl, ?_⟩
  have hnoticed := Aggregate.exchange_noticed (fun k : UInt64 => k) fnv1a hne (hfixed k₁ p₁ h₁) (hfixed k₂ p₂ h₂)
  rw [nsmul_eq, nsmul_eq] at hnoticed
  exact hnoticed

/-- two stored rows -/
def twoRows : Redb.Table := ((∅ : Redb.Table).insert 0 [98]).insert 1 [99]

/-- one of the keys is read twice -/
def twiceConfig : KvConfig := ⟨2, 3, 1, 1, 1, 1, 0, .relaxed, .batch⟩

theorem exchange_noticed_iff_twice : ∃ correct exchanged,
    (Pass.redbPoints twiceConfig twoRows [0, 0, 1]).checksum = some correct ∧
    (Pass.redbPoints twiceConfig (twoRows.map (Aggregate.exchange 0 1 [98] [99])) [0, 0, 1]).checksum =
      some exchanged ∧ exchanged ≠ correct := by
  obtain ⟨correct, exchanged, hcorrect, hexchanged, hnoticed⟩ :=
    exchange_noticed_iff (.redbPoints twiceConfig twoRows [0, 0, 1])
      (show _ = some [(0, [98]), (0, [98]), (1, [99])] from rfl) (show (0, [98]) ∈ _ by decide)
      (show (1, [99]) ∈ _ by decide) (by decide)
  exact ⟨correct, exchanged, hcorrect, hexchanged, hnoticed.2 (by decide)⟩

/-- two rows, scanned together -/
def tinyConfig : KvConfig := ⟨2, 1, 1, 2, 1, 4, 42, .memory, .perOperation⟩

/-- the table of a run when its ranges are scanned -/
def tinyTable : Option Worktable.KvBench := do
  let table ← (List.range tinyConfig.rows.toNat).foldlM
    (fun table key => Worktable.insert tinyConfig.payloadBytes table (UInt64.ofNat key)) ∅
  Worktable.overwrite tinyConfig.payloadBytes table tinyConfig.pointKeys

def tinyScan : Pass := .worktableScan (tinyTable.getD ∅) tinyConfig.scanStarts tinyConfig.scanLength

/-- every range holds both rows, and no exchange shows -/
theorem tinyScan_hides : tinyConfig.validate = .ok () ∧ tinyTable.isSome ∧
    tinyScan.rows = some [(0, textValue 0 4), (1, textValue 1 4)] ∧ textValue 0 4 ≠ textValue 1 4 ∧
    (tinyScan.answering (Aggregate.exchange 0 1 (textValue 0 4) (textValue 1 4))).checksum = tinyScan.checksum := by
  have hrows : tinyScan.rows = some [(0, textValue 0 4), (1, textValue 1 4)] := rfl
  refine ⟨rfl, rfl, hrows, by decide, ?_⟩
  have hunnoticed : Aggregate.total (fun row : UInt64 × List UInt8 => fnv1a row.2 + row.1)
      ([(0, textValue 0 4), (1, textValue 1 4)].map fun row =>
        (row.1, Aggregate.exchange 0 1 (textValue 0 4) (textValue 1 4) row.1 row.2)) =
      Aggregate.total (fun row => fnv1a row.2 + row.1) [(0, textValue 0 4), (1, textValue 1 4)] :=
    Aggregate.exchange_unnoticed (fun k : UInt64 => k) fnv1a (by decide) (by simp) (by simp) rfl
  rw [Pass.checksum_eq, Pass.checksum_eq, Pass.rows_answering, hrows]
  exact congrArg some hunnoticed

end WtBenchmarks.Kv
