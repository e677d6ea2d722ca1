/-
All nine arms of `src/bin/micro-layers.rs`, and the cross-layer validation of `scripts/run-micro-matrix.sh`.

The vector arms and the ordered-map arm keep the rows themselves; the others are engines that apply every update. A
campaign runs every payload size with every scan length that fits and appends the lines of all runs to one file, which
three filters then check: the checksums of the lines that agree on payload size, scan length and repetition (and on the
operation, in the second filter) must be equal. A filter reads numbers as `number` does, exactly below `2 ^ 53`.

- `benchVec_eq`, `benchVecRowLock_eq`, `benchBtreeMap_eq`, `benchMap_eq`, `benchWorktable_eq`: the lines of each arm;
- `main_eq`: the lines of a run;
- `campaign_filters`: the campaign runs to its end, the range and point-read filters accept its file, and the filter on
  inserts and updates accepts it only if it is empty.
-/
import Mathlib.Data.UInt
import WtBenchmarks.Core.Aggregate
import WtBenchmarks.Core.Grouping
import WtBenchmarks.Core.IndexedMap
import WtBenchmarks.MicroLayers.Arms

namespace WtBenchmarks.MicroLayers

open Aggregate (total foldl_total)

/-! ## The arms that keep the rows -/

section Vec

/-- `table[key].value = value` -/
def setValue (table : List Row) (key value : UInt64) : Option (List Row) := do
  let row ← table[key.toNat]?
  pure (table.set key.toNat { row with value := value })

/-- `table[start..stop]` -/
def rowsBetween (table : List Row) (start stop : ℕ) : Option (List Row) :=
  if start ≤ stop ∧ stop ≤ table.length then some ((table.take stop).drop start) else none

/-- the point reads of an arm that borrows its rows -/
def readBorrowed (get : UInt64 → Option Row) (pointKeys : List UInt64) : Option UInt64 :=
  pointKeys.foldlM (fun sum key => do
    let row ← get key
    pure (sum + row.value + UInt64.ofNat row.payload.length)) 0

def benchVec (config : Config) (repetition : ℕ) (pointKeys scanStarts : List UInt64) : Option (List ResultRow) := do
  let table := rows config
  let read ← readBorrowed (fun key => table[key.toNat]?) pointKeys
  let updated ← pointKeys.foldlM (fun table key => setValue table key (key * 17)) table
  let update := (updated.take 16).foldl (fun sum row => sum ^^^ row.value) 0
  let scanned ← scanStarts.foldlM (fun sum start => do
    let stop ← checkedAdd start config.scanLength
    let found ← rowsBetween updated start.toNat stop.toNat
    pure (found.foldl (fun inner row => inner + row.value) sum)) 0
  pure [
    emit config "vec" "L0" "insert" repetition config.rows (UInt64.ofNat table.length),
    emit config "vec" "L0" "point_read_borrowed" repetition config.operations read,
    emit config "vec" "L0" "update_field" repetition config.operations update,
    emit config "vec" "L0" "range_scan" repetition config.scanOperations scanned]

/-- every row behind its own lock; one thread takes them -/
def benchVecRowLock (config : Config) (repetition : ℕ) (pointKeys : List UInt64) : Option (List ResultRow) := do
  let table := rows config
  let read ← readBorrowed (fun key => table[key.toNat]?) pointKeys
  let updated ← pointKeys.foldlM (fun table key => setValue table key (key * 17)) table
  let row ← updated[0]?
  pure [
    emit config "vec_row_lock" "L1" "insert" repetition config.rows (UInt64.ofNat table.length),
    emit config "vec_row_lock" "L1" "point_read_borrowed" repetition config.operations read,
    emit config "vec_row_lock" "L1" "update_field" repetition config.operations row.value]

end Vec

/-- `table.range(start..)` -/
def rangeFrom (table : Std.ExtTreeMap UInt64 Row) (start : UInt64) : List (UInt64 × Row) :=
  table.toList.filter fun entry => start ≤ entry.1

def benchBtreeMap (config : Config) (repetition : ℕ) (pointKeys scanStarts : List UInt64) :
    Option (List ResultRow) := do
  let table ← load mapEngine config
  let read ← readBorrowed (fun key => table[key]?) pointKeys
  let updated ← updates mapEngine pointKeys table
  let row ← updated[(0 : UInt64)]?
  let scanned := scanStarts.foldl (fun sum start =>
    ((rangeFrom updated start).take config.scanLength.toNat).foldl (fun inner entry => inner + entry.2.value) sum) 0
  pure [
    emit config "btree_map" "L0" "insert" repetition config.rows (UInt64.ofNat table.size),
    emit config "btree_map" "L0" "point_read_borrowed" repetition config.operations read,
    emit config "btree_map" "L0" "update_field" repetition config.operations row.value,
    emit config "btree_map" "L0" "range_scan" repetition config.scanOperations scanned]

/-! ## The program and the campaign -/

/-- an engine that applies every update, counts its rows and lists a range in some order -/
structure Engine.Faithful {S : Type} (E : Engine S) : Prop extends E.Applies where
  len : ∀ s (keys : List UInt64), keys.Nodup → (∀ k, (E.get s k).isSome ↔ k ∈ keys) → E.len s = keys.length
  range : ∀ s first last, ∃ (found : List Row) (keys : List UInt64),
    E.selectByPkRange s first last = some found ∧ keys.Nodup ∧
    (∀ k, k ∈ keys ↔ first ≤ k ∧ k ≤ last ∧ (E.get s k).isSome) ∧ found.map some = keys.map (E.get s)

section Program

variable {S : Arm → Type} (E : ∀ arm, Engine (S arm))

/-- one turn of the loop of `main` -/
def runRepetition (config : Config) (repetition : ℕ) : Option (List ResultRow) := do
  let vec ← benchVec config repetition config.pointKeys config.scanStarts
  let vecRowLock ← benchVecRowLock config repetition config.pointKeys
  let hashMap ← Arm.hashMap.bench (E .hashMap) config repetition
  let btreeMap ← benchBtreeMap config repetition config.pointKeys config.scanStarts
  let rwlockHashMap ← Arm.rwlockHashMap.bench (E .rwlockHashMap) config repetition
  let dashMap ← Arm.dashMap.bench (E .dashMap) config repetition
  let worktable ← Arm.worktable.bench (E .worktable) config repetition
  let worktableCongee ← Arm.worktableCongee.bench (E .worktableCongee) config repetition
  let worktableArctic ← Arm.worktableArctic.bench (E .worktableArctic) config repetition
  pure (vec ++ vecRowLock ++ hashMap ++ btreeMap ++ rwlockHashMap ++ dashMap ++ worktable ++ worktableCongee ++
    worktableArctic)

/-- a run of the binary; an invalid configuration exits with an error -/
def main (config : Config) : Option (List ResultRow) :=
  match config.validate with
  | .error _ => none
  | .ok () => ((List.range' 1 config.repetitions).mapM (runRepetition E config)).map List.flatten

/-- the settings of `run-micro-matrix.sh` -/
structure Matrix where
  rows : UInt64
  operations : UInt64
  scanOperations : UInt64
  repetitions : ℕ
  payloadBytes : List ℕ
  scanLengths : List UInt64

/-- the runs of a campaign: scan lengths above the row count are skipped; the seed stays at its default -/
def Matrix.configs (matrix : Matrix) : List Config :=
  matrix.payloadBytes.flatMap fun payloadBytes =>
    (matrix.scanLengths.filter fun scanLength => ¬ scanLength > matrix.rows).map fun scanLength =>
      ⟨matrix.rows, matrix.operations, matrix.scanOperations, scanLength, matrix.repetitions, payloadBytes, 42⟩

/-- the lines in the results file; the script stops at a run that fails -/
def campaign (matrix : Matrix) : Option (List ResultRow) := (matrix.configs.mapM (main E)).map List.flatten

end Program

section Filters

variable {ν : Type} [DecidableEq ν] (number : ℕ → ν)

/-- `[.payload_bytes, .scan_length, .repetition]` -/
def cell (line : ResultRow) : ν × ν × ν :=
  (number line.payloadBytes, number line.scanLength.toNat, number line.repetition)

def checksumOf (line : ResultRow) : ν := number line.checksum.toNat

def isRangeScan (line : ResultRow) : Bool := line.operation == "range_scan"

def isInsertOrUpdate (line : ResultRow) : Bool := line.operation == "insert" || line.operation == "update_field"

def isPointRead (line : ResultRow) : Bool := "point_read".toList.isPrefixOf line.operation.toList

def rangeScanFilter (lines : List ResultRow) : Bool :=
  (Grouping.groupBy (cell number) (lines.filter isRangeScan)).all (Grouping.uniform (checksumOf number))

def insertUpdateFilter (lines : List ResultRow) : Bool :=
  (Grouping.groupBy (fun line => (cell number line, line.operation)) (lines.filter isInsertOrUpdate)).all
    (Grouping.uniform (checksumOf number))

def pointReadFilter (lines : List ResultRow) : Bool :=
  (Grouping.groupBy (cell number) (lines.filter isPointRead)).all (Grouping.uniform (checksumOf number))

end Filters

/-! ## What the arms add up -/

section Totals

variable (config : Config)

/-- the values after the updates of some keys -/
def written (keys : List UInt64) : UInt64 → UInt64 :=
  keys.foldl (fun value key => Function.update value key (key * 17)) id

def readTotal : UInt64 := total (fun key => key + UInt64.ofNat config.payloadBytes) config.pointKeys

/-- the values of one range -/
def rangeTotal (value : UInt64 → UInt64) (start : UInt64) : UInt64 :=
  total (fun i => value (UInt64.ofNat i)) (List.range' start.toNat config.scanLength.toNat)

def scanTotal : UInt64 := total (rangeTotal config (written config.pointKeys)) config.scanStarts

/-- the rows of the table, with some values -/
def valued (value : UInt64 → UInt64) : List Row :=
  (List.range config.rows.toNat).map fun i =>
    { row config (UInt64.ofNat i) with value := value (UInt64.ofNat i) }

end Totals

/-- row 0 is written with the value it was loaded with -/
theorem written_zero (keys : List UInt64) : written keys 0 = 0 := by
  unfold written
  induction keys using List.reverseRecOn with
  | nil => rfl
  | append_singleton keys key ih =>
    rw [List.foldl_append, List.foldl_cons, List.foldl_nil]
    by_cases hkey : key = 0
    · subst hkey
      rw [Function.update_self]
      rfl
    · rw [Function.update_of_ne (Ne.symm hkey), ih]

theorem printable_length (seed : UInt64) (length : ℕ) : (Rng.printable seed length).length = length := by
  rw [Rng.printable, List.length_map]
  exact (@Rng.draws_forall (fun _ => True) 94 (fun _ => trivial) length seed).1

section Tables

variable {config : Config} {value : UInt64 → UInt64} {k : UInt64}

theorem valued_get (hk : k < config.rows) :
    (valued config value)[k.toNat]? = some { row config k with value := value k } := by
  rw [valued, List.getElem?_map, List.getElem?_range (UInt64.lt_iff_toNat_lt.1 hk), Option.map_some, UInt64.ofNat_toNat]

@[simp] theorem valued_length : (valued config value).length = config.rows.toNat := by
  rw [valued, List.length_map, List.length_range]

theorem setValue_valued (hk : k < config.rows) (v : UInt64) :
    setValue (valued config value) k v = some (valued config (Function.update value k v)) := by
  rw [setValue, valued_get hk, Option.bind_eq_bind, Option.bind_some]
  refine congrArg some (List.ext_getElem? fun i => ?_)
  have hsize := config.rows.toNat_lt
  rw [List.getElem?_set, valued_length]
  by_cases hi : i < config.rows.toNat
  · rw [valued, valued, List.getElem?_map, List.getElem?_map, List.getElem?_range hi, Option.map_some, Option.map_some]
    by_cases hki : k.toNat = i
    · subst hki
      rw [if_pos rfl, if_pos hi, UInt64.ofNat_toNat, Function.update_self]
    · have hne : UInt64.ofNat i ≠ k := fun h => hki (by rw [← h, ofNat_toNat_of_lt (by omega)])
      rw [if_neg hki, Function.update_of_ne hne]
  · have hki : k.toNat ≠ i := fun h => hi (h ▸ UInt64.lt_iff_toNat_lt.1 hk)
    rw [if_neg hki, valued, valued, List.getElem?_map, List.getElem?_map, List.getElem?_eq_none (by simpa using hi)]
    rfl

theorem rowsBetween_valued (value : UInt64 → UInt64) {start : UInt64} {stop : ℕ}
    (h : start.toNat + config.scanLength.toNat = stop) (hfits : stop ≤ config.rows.toNat) :
    ∃ found, rowsBetween (valued config value) start.toNat stop = some found ∧
      found.map Row.value =
        (List.range' start.toNat config.scanLength.toNat).map fun i => value (UInt64.ofNat i) := by
  refine ⟨_, if_pos ⟨by omega, by rw [valued_length]; exact hfits⟩, ?_⟩
  rw [valued, ← List.map_take, ← List.map_drop, List.map_map, List.take_range, Nat.min_eq_left hfits,
    List.range_eq_range', List.drop_range']
  rw [show 0 + start.toNat * 1 = start.toNat by omega, show stop - start.toNat = config.scanLength.toNat by omega]
  rfl

end Tables

section Engines

variable {S : Type} {E : Engine S} {config : Config} {value : UInt64 → UInt64} {s : S}

theorem Holds.update (hE : E.Applies) (hs : Holds E config value s) {k : UInt64} (hk : k < config.rows) (v : UInt64) :
    ∃ s', E.update s k v = some s' ∧ Holds E config (Function.update value k v) s' := by
  obtain ⟨s', hupdate, hwritten⟩ := hE.update s k v _ (hs.get hk)
  refine ⟨s', hupdate, fun j => ?_⟩
  rw [hwritten j]
  by_cases hj : k = j
  · subst hj
    rw [if_pos rfl, if_pos hk, Function.update_self]
  · rw [if_neg hj, hs j, Function.update_of_ne (Ne.symm hj)]

theorem updates_written (hE : E.Applies) {keys : List UInt64} (hkeys : ∀ k ∈ keys, k < config.rows)
    (hs : Holds E config id s) : ∃ s', updates E keys s = some s' ∧ Holds E config (written keys) s' :=
  foldlM_simulates (fun s value => Holds E config value s) keys
    (fun _ _ k hk hs => hs.update hE (hkeys k hk) (k * 17)) s id hs

theorem Holds.len_eq (hE : E.Faithful) (hs : Holds E config value s) : E.len s = config.rows.toNat := by
  have hsize := config.rows.toNat_lt.le
  have hlen := hE.len s (words config.rows.toNat) (words_nodup hsize) fun k => by
    rw [hs k, mem_words hsize, ← UInt64.lt_iff_toNat_lt]
    split_ifs with h <;> simp [h]
  rw [hlen, words_length]

/-- a range that fits lists its values in some order -/
theorem rangeChecksum_eq (hE : E.Faithful) (hs : Holds E config value s) (hlen : 0 < config.scanLength.toNat)
    {start stop : UInt64} (hfits : start.toNat + config.scanLength.toNat ≤ config.rows.toNat)
    (hstop : stop.toNat = start.toNat + config.scanLength.toNat - 1) :
    rangeChecksum E s start stop = some (rangeTotal config value start) := by
  have hsize := config.rows.toNat_lt
  obtain ⟨found, keys, hselect, hnodup, hkeys, hfound⟩ := hE.range s start stop
  -- the keys of the range are the words from `start` on
  have hperm : keys.Perm ((List.range' start.toNat config.scanLength.toNat).map UInt64.ofNat) := by
    refine (List.perm_ext_iff_of_nodup hnodup ?_).2 fun k => ?_
    · refine List.Nodup.map_on (fun i hi j hj h => ?_) List.nodup_range'
      rw [List.mem_range'_1] at hi hj
      rw [← ofNat_toNat_of_lt (n := i) (by omega), h, ofNat_toNat_of_lt (by omega)]
    · rw [hkeys, hs k, List.mem_map, UInt64.le_iff_toNat_le, UInt64.le_iff_toNat_le]
      constructor
      · rintro ⟨hfirst, hlast, -⟩
        exact ⟨k.toNat, List.mem_range'_1.2 (by omega), UInt64.ofNat_toNat⟩
      · rintro ⟨i, hi, rfl⟩
        rw [List.mem_range'_1] at hi
        have hi' := ofNat_toNat_of_lt (n := i) (by omega)
        refine ⟨by omega, by omega, ?_⟩
        rw [if_pos (by rw [UInt64.lt_iff_toNat_lt]; omega)]
        rfl
  have hvalues : found.map Row.value = keys.map value := by
    have hget := congrArg (List.map (Option.map Row.value)) hfound
    rw [List.map_map, List.map_map] at hget
    refine List.map_injective_iff.2 (Option.some_injective _) ?_
    rw [List.map_map, List.map_map]
    refine hget.trans (List.map_congr_left fun k hk => ?_)
    have hlt : k < config.rows := by
      obtain ⟨-, hlast, -⟩ := (hkeys k).1 hk
      rw [UInt64.le_iff_toNat_le] at hlast
      rw [UInt64.lt_iff_toNat_lt]
      omega
    rw [Function.comp_apply, hs.get hlt]
    rfl
  rw [rangeChecksum, hselect, Option.bind_eq_bind, Option.bind_some]
  refine congrArg some ?_
  rw [foldl_total Row.value found 0, zero_add, total, hvalues, (hperm.map value).sum_eq, List.map_map]
  rfl

end Engines

/-! ## The lines of each arm -/

section Lines

variable (config : Config)

/-- the first three lines of an arm that reads rows in place -/
def borrowedLines (engine layer : String) (repetition : ℕ) (update : UInt64) : List ResultRow := [
  emit config engine layer "insert" repetition config.rows config.rows,
  emit config engine layer "point_read_borrowed" repetition config.operations (readTotal config),
  emit config engine layer "update_field" repetition config.operations update]

def scanLine (engine layer : String) (repetition : ℕ) : ResultRow :=
  emit config engine layer "range_scan" repetition config.scanOperations (scanTotal config)

def materializedLines (engine : String) (repetition : ℕ) : List ResultRow := [
  emit config engine "L2" "insert" repetition config.rows config.rows,
  emit config engine "L2" "point_read_materialized" repetition config.operations (readTotal config),
  emit config engine "L2" "update_field" repetition config.operations (UInt64.ofNat config.payloadBytes),
  scanLine config engine "L2" repetition]

/-- the first sixteen values, xored -/
def vecUpdate : UInt64 :=
  ((valued config (written config.pointKeys)).take 16).foldl (fun sum row => sum ^^^ row.value) 0

def repetitionLines (repetition : ℕ) : List ResultRow :=
  (borrowedLines config "vec" "L0" repetition (vecUpdate config) ++ [scanLine config "vec" "L0" repetition]) ++
  borrowedLines config "vec_row_lock" "L1" repetition 0 ++ borrowedLines config "hash_map" "L0" repetition 0 ++
  (borrowedLines config "btree_map" "L0" repetition 0 ++ [scanLine config "btree_map" "L0" repetition]) ++
  borrowedLines config "rwlock_hash_map" "L1" repetition 0 ++ borrowedLines config "dash_map" "L1" repetition 0 ++
  materializedLines config "worktable" repetition ++ materializedLines config "worktable-congee" repetition ++
  materializedLines config "worktable-arctic" repetition

end Lines

section Arms

variable {config : Config}

theorem readBorrowed_eq (hconfig : config.Accepted) {get : UInt64 → Option Row}
    (hget : ∀ k < config.rows, get k = some (row config k)) :
    readBorrowed get config.pointKeys = some (readTotal config) := by
  have hloop := foldlM_eq_some (f := fun sum key => do
      let row ← get key
      pure (sum + row.value + UInt64.ofNat row.payload.length))
    (g := fun sum key => sum + (key + UInt64.ofNat config.payloadBytes)) config.pointKeys (fun sum key hkey => by
      rw [hget key (Config.pointKeys_lt hconfig key hkey), Option.bind_eq_bind, Option.bind_some, row, printable_length,
        add_assoc]
      rfl) 0
  refine hloop.trans (congrArg some ?_)
  rw [foldl_total (fun key => key + UInt64.ofNat config.payloadBytes) config.pointKeys 0, zero_add]
  rfl

/-- the scan loop of an arm, when each of its ranges adds its values -/
theorem scans_eq (config : Config) (f : UInt64 → UInt64 → Option UInt64)
    (h : ∀ sum, ∀ start ∈ config.scanStarts,
      f sum start = some (sum + rangeTotal config (written config.pointKeys) start)) :
    config.scanStarts.foldlM f 0 = some (scanTotal config) := by
  rw [foldlM_eq_some config.scanStarts h 0, foldl_total (rangeTotal config (written config.pointKeys)), zero_add]
  rfl

theorem setValues_eq (hconfig : config.Accepted) :
    config.pointKeys.foldlM (fun table key => setValue table key (key * 17)) (rows config) =
      some (valued config (written config.pointKeys)) := by
  obtain ⟨table, hrun, rfl⟩ := foldlM_simulates (fun table value => table = valued config value) config.pointKeys
    (f := fun table key => setValue table key (key * 17)) (g := fun value key => Function.update value key (key * 17))
    (fun table value key hkey h => ⟨_, h ▸ setValue_valued (Config.pointKeys_lt hconfig key hkey) _, rfl⟩)
    (rows config) id rfl
  exact hrun

theorem rows_get (k : UInt64) (hk : k < config.rows) : (rows config)[k.toNat]? = some (row config k) :=
  (valued_get hk : (valued config id)[k.toNat]? = some { row config k with value := k })

theorem rows_length : UInt64.ofNat (rows config).length = config.rows := by
  rw [rows, List.length_map, List.length_range, UInt64.ofNat_toNat]

theorem benchVec_eq (hconfig : config.Accepted) (repetition : ℕ) :
    benchVec config repetition config.pointKeys config.scanStarts =
      some (borrowedLines config "vec" "L0" repetition (vecUpdate config) ++
        [scanLine config "vec" "L0" repetition]) := by
  have hscans := scans_eq config (fun sum start => do
      let stop ← checkedAdd start config.scanLength
      let found ← rowsBetween (valued config (written config.pointKeys)) start.toNat stop.toNat
      pure (found.foldl (fun inner row => inner + row.value) sum)) fun sum start hstart => by
    have hfits := Config.scanStarts_le hconfig start hstart
    have hsize := config.rows.toNat_lt
    obtain ⟨stop, hstop, hsum⟩ := checkedAdd_some (a := start) (b := config.scanLength) (by omega)
    obtain ⟨found, hfound, hvalues⟩ := rowsBetween_valued (written config.pointKeys) hsum.symm (by omega)
    rw [hstop, Option.bind_eq_bind, Option.bind_some, hfound, Option.bind_eq_bind, Option.bind_some,
      foldl_total Row.value found sum, total, hvalues]
    rfl
  simp only [Option.bind_eq_bind] at hscans
  simp only [benchVec, readBorrowed_eq hconfig rows_get, setValues_eq hconfig, Option.bind_eq_bind, Option.bind_some,
    rows_length, hscans]
  rfl

theorem benchVecRowLock_eq (hconfig : config.Accepted) (repetition : ℕ) :
    benchVecRowLock config repetition config.pointKeys =
      some (borrowedLines config "vec_row_lock" "L1" repetition 0) := by
  have hzero : (valued config (written config.pointKeys))[0]? =
      some { row config 0 with value := written config.pointKeys 0 } := valued_get (k := 0) hconfig.rows
  simp only [benchVecRowLock, readBorrowed_eq hconfig rows_get, setValues_eq hconfig, Option.bind_eq_bind,
    Option.bind_some, rows_length, hzero, written_zero]
  rfl

theorem benchMap_eq {S : Type} {E : Engine S} (hE : E.Faithful) (hconfig : config.Accepted) (engine layer : String)
    (repetition : ℕ) :
    benchMap E engine layer config repetition config.pointKeys =
      some (borrowedLines config engine layer repetition 0) := by
  obtain ⟨s, hload, hs⟩ : ∃ s, load E config = some s ∧ Holds E config id s := load_rows hE.toKeeps
  obtain ⟨s', hupdates, hs'⟩ := updates_written hE.toApplies (Config.pointKeys_lt hconfig) hs
  have hread : readBorrowed (E.get s) config.pointKeys = some (readTotal config) :=
    readBorrowed_eq hconfig fun k hk => hs.get hk
  unfold readBorrowed at hread
  simp only [Option.bind_eq_bind] at hread
  simp only [benchMap, Option.bind_eq_bind, hload, Option.bind_some, hread, hupdates, hs'.get hconfig.rows,
    hs.len_eq hE, written_zero, UInt64.ofNat_toNat]
  rfl

theorem benchWorktable_eq {S : Type} {E : Engine S} (hE : E.Faithful) (hconfig : config.Accepted) (engine : String)
    (repetition : ℕ) :
    benchWorktable E engine config repetition config.pointKeys config.scanStarts =
      some (materializedLines config engine repetition) := by
  obtain ⟨s, hload, hs⟩ : ∃ s, load E config = some s ∧ Holds E config id s := load_rows hE.toKeeps
  obtain ⟨s', hupdates, hs'⟩ := updates_written hE.toApplies (Config.pointKeys_lt hconfig) hs
  have hread : config.pointKeys.foldlM (fun sum key => do pure (sum + (← pointRead E s key))) 0 =
      some (readTotal config) := by
    refine (foldlM_eq_some (g := fun sum key => sum + (key + UInt64.ofNat config.payloadBytes)) config.pointKeys
      (fun sum key hkey => ?_) 0).trans (congrArg some ?_)
    · rw [pointRead_some hs (Config.pointKeys_lt hconfig key hkey), row, printable_length]
      rfl
    · rw [foldl_total (fun key => key + UInt64.ofNat config.payloadBytes) config.pointKeys 0, zero_add]
      rfl
  have hupdate : pointRead E s' 0 = some (UInt64.ofNat config.payloadBytes) := by
    rw [pointRead_some hs' hconfig.rows, written_zero, row, printable_length, zero_add]
  have hscans := scans_eq config (fun sum start => do
      let bound ← checkedAdd start config.scanLength
      let stop ← checkedSub bound 1
      pure (sum + (← rangeChecksum E s' start stop))) fun sum start hstart => by
    have hfits := Config.scanStarts_le hconfig start hstart
    have hsize := config.rows.toNat_lt
    have hpos := hconfig.scanLength
    obtain ⟨bound, hbound, hsum⟩ := checkedAdd_some (a := start) (b := config.scanLength) (by omega)
    obtain ⟨stop, hstop, hpred⟩ := checkedSub_some (a := bound) (b := 1) (by rw [hsum, UInt64.toNat_one]; omega)
    rw [hsum, UInt64.toNat_one] at hpred
    rw [hbound, Option.bind_eq_bind, Option.bind_some, hstop, Option.bind_some,
      rangeChecksum_eq hE hs' hpos hfits hpred]
    rfl
  simp only [Option.bind_eq_bind] at hread hscans
  simp only [benchWorktable, Option.bind_eq_bind, hload, Option.bind_some, hread, hupdates, hupdate, hscans]
  rfl

end Arms

/-! ## The ordered map -/

section BtreeMap

/-- the table of the ordered-map arm, with its own range listing -/
def rangeEngine : Engine (Std.ExtTreeMap UInt64 Row) :=
  { mapEngine with
    selectByPkRange := fun table first last =>
      some ((table.toList.filter fun entry => first ≤ entry.1 && entry.1 ≤ last).map Prod.snd) }

theorem rangeEngine_faithful : rangeEngine.Faithful where
  default := mapEngine_keeps.default
  insert := mapEngine_keeps.insert
  selectByPkRange _ _ _ := ⟨_, rfl⟩
  update := mapEngine_applies.update
  len table keys hkeys hmem := TreeMap.size_eq_of_keys table hkeys fun k => by
    rw [← hmem, Std.ExtTreeMap.mem_iff_isSome_getElem?]
    rfl
  range table first last := by
    refine ⟨_, (table.toList.filter fun entry => first ≤ entry.1 && entry.1 ≤ last).map Prod.fst, rfl, ?_, ?_, ?_⟩
    · exact (TreeMap.nodup_fst table).sublist (List.filter_sublist.map _)
    · intro k
      simp only [List.mem_map, List.mem_filter, Prod.exists, exists_and_right, exists_eq_right,
        Std.ExtTreeMap.mem_toList_iff_getElem?_eq_some, Bool.and_eq_true, decide_eq_true_eq, Option.isSome_iff_exists]
      constructor
      · rintro ⟨hr, hfirst, hlast⟩
        exact ⟨hfirst, hlast, hr⟩
      · rintro ⟨hfirst, hlast, hr⟩
        exact ⟨hr, hfirst, hlast⟩
    · rw [List.map_map, List.map_map]
      refine List.map_congr_left fun entry hentry => ?_
      exact (Std.ExtTreeMap.mem_toList_iff_getElem?_eq_some.1 (List.mem_of_mem_filter hentry)).symm

variable {config : Config}

theorem Holds.full {value : UInt64 → UInt64} {table : Std.ExtTreeMap UInt64 Row}
    (h : Holds mapEngine config value table) :
    Full (byCast id) config.rows.toNat table fun i =>
      { row config (UInt64.ofNat i) with value := value (UInt64.ofNat i) } := by
  have hsize := config.rows.toNat_lt
  have hget : ∀ k : UInt64,
      table[k]? = if k < config.rows then some { row config k with value := value k } else none := h
  refine ⟨fun i hi => ?_, fun k hk => ?_⟩
  · rw [byCast, id, hget, if_pos (by rw [UInt64.lt_iff_toNat_lt, ofNat_toNat_of_lt (by omega)]; exact hi)]
  · obtain ⟨r, hr⟩ := (TreeMap.mem_iff_get table k).1 hk
    rw [hget] at hr
    split_ifs at hr with hlt
    exact ⟨k.toNat, UInt64.lt_iff_toNat_lt.1 hlt, (byCast_toNat id k).symm⟩

theorem benchBtreeMap_eq (hconfig : config.Accepted) (repetition : ℕ) :
    benchBtreeMap config repetition config.pointKeys config.scanStarts =
      some (borrowedLines config "btree_map" "L0" repetition 0 ++ [scanLine config "btree_map" "L0" repetition]) := by
  have hsize := config.rows.toNat_lt
  obtain ⟨table, hload, hs⟩ : ∃ table, load mapEngine config = some table ∧ Holds mapEngine config id table :=
    load_rows mapEngine_keeps
  obtain ⟨updated, hupdates, hs'⟩ := updates_written mapEngine_applies (Config.pointKeys_lt hconfig) hs
  have hread : readBorrowed (fun key => table[key]?) config.pointKeys = some (readTotal config) :=
    readBorrowed_eq hconfig fun k hk => hs.get hk
  have hzero : updated[(0 : UInt64)]? = some { row config 0 with value := written config.pointKeys 0 } :=
    hs'.get hconfig.rows
  have hlen : table.size = config.rows.toNat := hs.full.size_eq (increasing_u64 hsize.le).injOn
  have hscans : config.scanStarts.foldl (fun sum start =>
      ((rangeFrom updated start).take config.scanLength.toNat).foldl (fun inner entry => inner + entry.2.value) sum) 0 =
        scanTotal config := by
    have hrange : ∀ sum, ∀ start ∈ config.scanStarts,
        ((rangeFrom updated start).take config.scanLength.toNat).foldl (fun inner entry => inner + entry.2.value) sum =
          sum + rangeTotal config (written config.pointKeys) start := by
      intro sum start hstart
      have hfits := Config.scanStarts_le hconfig start hstart
      rw [rangeFrom, hs'.full.take (increasing_u64 hsize.le) _ hfits fun i hi => by
        rw [decide_eq_true_eq, byCast, id, UInt64.le_iff_toNat_le, ofNat_toNat_of_lt (by omega)]]
      rw [foldl_total (fun entry : UInt64 × Row => entry.2.value), total, List.map_map]
      rfl
    have hloop := scans_eq config (fun sum start =>
      some (((rangeFrom updated start).take config.scanLength.toNat).foldl
        (fun inner entry => inner + entry.2.value) sum))
      fun sum start hstart => congrArg some (hrange sum start hstart)
    rw [foldlM_eq_some config.scanStarts (fun _ _ _ => rfl) 0] at hloop
    exact Option.some_inj.1 hloop
  simp only [benchBtreeMap, Option.bind_eq_bind, hload, Option.bind_some, hread, hupdates, hzero, hlen, hscans,
    written_zero, UInt64.ofNat_toNat]
  rfl

end BtreeMap

/-! ## The lines of a run -/

section Run

variable {S : Arm → Type} {E : ∀ arm, Engine (S arm)} {config : Config}

theorem runRepetition_eq (hE : ∀ arm, (E arm).Faithful) (hconfig : config.Accepted) (repetition : ℕ) :
    runRepetition E config repetition = some (repetitionLines config repetition) := by
  simp only [runRepetition, Arm.bench, benchHashMap, benchRwlockHashMap, benchDashMap, benchVec_eq hconfig,
    benchVecRowLock_eq hconfig, benchBtreeMap_eq hconfig, benchMap_eq (hE _) hconfig, benchWorktable_eq (hE _) hconfig,
    Option.bind_eq_bind, Option.bind_some]
  rfl

/-- the lines of a run -/
def runLines (config : Config) : List ResultRow :=
  ((List.range' 1 config.repetitions).map (repetitionLines config)).flatten

theorem main_eq (hE : ∀ arm, (E arm).Faithful) (hvalid : config.validate = .ok ()) :
    main E config = some (runLines config) := by
  have hconfig := Config.accepted_of_validate hvalid
  rw [main, hvalid]
  simp only [mapM_eq_some _ fun repetition _ => runRepetition_eq hE hconfig repetition]
  rfl

theorem campaign_eq (hE : ∀ arm, (E arm).Faithful) {matrix : Matrix}
    (hvalid : ∀ config ∈ matrix.configs, config.validate = .ok ()) :
    campaign E matrix = some (matrix.configs.map runLines).flatten := by
  rw [campaign, mapM_eq_some _ fun config hconfig => main_eq hE (hvalid config hconfig)]
  rfl

theorem mem_campaign {matrix : Matrix} {line : ResultRow} :
    line ∈ (matrix.configs.map runLines).flatten ↔
      ∃ config ∈ matrix.configs, ∃ repetition ∈ List.range' 1 config.repetitions,
        line ∈ repetitionLines config repetition := by
  simp only [List.mem_flatten, List.mem_map, exists_exists_and_eq_and, runLines]

end Run

/-! ## The filters -/

section Filters

/-- what the filters read of a line -/
structure Carries (config : Config) (line : ResultRow) : Prop where
  payloadBytes : line.payloadBytes = config.payloadBytes
  scanLength : line.scanLength = config.scanLength
  scan : isRangeScan line = true → line.checksum = scanTotal config
  read : isPointRead line = true → line.checksum = readTotal config

variable (config : Config)

theorem emit_carries (engine layer : String) {operation : String} (repetition : ℕ) (operations : UInt64) {sum : UInt64}
    (hscan : (operation == "range_scan") = true → sum = scanTotal config)
    (hread : "point_read".toList.isPrefixOf operation.toList = true → sum = readTotal config) :
    Carries config (emit config engine layer operation repetition operations sum) := ⟨rfl, rfl, hscan, hread⟩

theorem borrowedLines_carries (engine layer : String) (repetition : ℕ) (update : UInt64) :
    ∀ line ∈ borrowedLines config engine layer repetition update, Carries config line := by
  simp only [borrowedLines, List.forall_mem_cons, List.not_mem_nil, false_imp_iff, implies_true, and_true]
  exact ⟨emit_carries config _ _ _ _ (fun h => absurd h (by decide)) fun h => absurd h (by decide),
    emit_carries config _ _ _ _ (fun h => absurd h (by decide)) fun _ => rfl,
    emit_carries config _ _ _ _ (fun h => absurd h (by decide)) fun h => absurd h (by decide)⟩

theorem scanLine_carries (engine layer : String) (repetition : ℕ) :
    Carries config (scanLine config engine layer repetition) :=
  emit_carries config _ _ _ _ (fun _ => rfl) fun h => absurd h (by decide)

theorem materializedLines_carries (engine : String) (repetition : ℕ) :
    ∀ line ∈ materializedLines config engine repetition, Carries config line := by
  simp only [materializedLines, List.forall_mem_cons, List.not_mem_nil, false_imp_iff, implies_true, and_true]
  exact ⟨emit_carries config _ _ _ _ (fun h => absurd h (by decide)) fun h => absurd h (by decide),
    emit_carries config _ _ _ _ (fun h => absurd h (by decide)) fun _ => rfl,
    emit_carries config _ _ _ _ (fun h => absurd h (by decide)) fun h => absurd h (by decide),
    scanLine_carries config engine "L2" repetition⟩

theorem repetitionLines_carries (repetition : ℕ) : ∀ line ∈ repetitionLines config repetition, Carries config line := by
  have hborrowed := borrowedLines_carries config
  have hscan := scanLine_carries config
  have hmaterialized := materializedLines_carries config
  intro line hline
  simp only [repetitionLines, List.mem_append, List.mem_singleton] at hline
  rcases hline with ((((((((h | rfl) | h) | h) | h | rfl) | h) | h) | h) | h) | h
  all_goals first | exact hscan _ _ _ | exact hborrowed _ _ _ _ _ h | exact hmaterialized _ _ _ h

variable {config}

theorem mem_configs {matrix : Matrix} (h : config ∈ matrix.configs) :
    ∃ payloadBytes ∈ matrix.payloadBytes, ∃ scanLength ∈ matrix.scanLengths,
      config =
        ⟨matrix.rows, matrix.operations, matrix.scanOperations, scanLength, matrix.repetitions, payloadBytes, 42⟩ := by
  obtain ⟨payloadBytes, hpayload, h⟩ := List.mem_flatMap.1 h
  obtain ⟨scanLength, hscan, rfl⟩ := List.mem_map.1 h
  exact ⟨payloadBytes, hpayload, scanLength, List.mem_of_mem_filter hscan, rfl⟩

/-- what a valid configuration has at least one of -/
theorem nonzero_of_validate (h : config.validate = .ok ()) : config.repetitions ≠ 0 ∧ config.payloadBytes ≠ 0 := by
  unfold Config.validate at h
  split_ifs at h with hzero hlen
  simp only [not_or] at hzero
  exact ⟨hzero.2.2.2.2.1, hzero.2.2.2.2.2⟩

variable {ν : Type} [DecidableEq ν] {number : ℕ → ν}

/-- a filter whose lines carry a checksum that their cell determines accepts them -/
theorem filter_accepts (matrix : Matrix) (sum : Config → UInt64) {lines : List ResultRow}
    {selected : ResultRow → Bool}
    (hlines : ∀ line ∈ lines, ∃ config ∈ matrix.configs, Carries config line ∧
      (selected line = true → line.checksum = sum config))
    (hsum : ∀ config ∈ matrix.configs, ∀ config' ∈ matrix.configs,
      number config.payloadBytes = number config'.payloadBytes →
      number config.scanLength.toNat = number config'.scanLength.toNat → sum config = sum config') :
    (Grouping.groupBy (cell number) (lines.filter selected)).all (Grouping.uniform (checksumOf number)) = true := by
  rw [Grouping.all_groups_iff]
  intro a ha b hb hcell
  obtain ⟨ha, hsel⟩ := List.mem_filter.1 ha
  obtain ⟨hb, hsel'⟩ := List.mem_filter.1 hb
  obtain ⟨config, hmem, hcarries, hcheck⟩ := hlines a ha
  obtain ⟨config', hmem', hcarries', hcheck'⟩ := hlines b hb
  simp only [cell, Prod.mk.injEq, hcarries.payloadBytes, hcarries'.payloadBytes, hcarries.scanLength,
    hcarries'.scanLength] at hcell
  rw [checksumOf, checksumOf, hcheck hsel, hcheck' hsel', hsum config hmem config' hmem' hcell.1 hcell.2.1]

/-- a configuration whose lines are in the file puts the two update checksums of one repetition into one group -/
theorem insertUpdateFilter_rejects {lines : List ResultRow} (hnumber : ∀ a b, a < 2 ^ 53 → number a = number b → a = b)
    (hpayload : config.payloadBytes ≠ 0) (hsmall : config.payloadBytes < 2 ^ 53) {repetition : ℕ}
    (hlines : ∀ line ∈ repetitionLines config repetition, line ∈ lines) : insertUpdateFilter number lines = false := by
  rw [← Bool.not_eq_true, insertUpdateFilter, Grouping.all_groups_iff]
  intro h
  have hborrowed : emit config "hash_map" "L0" "update_field" repetition config.operations 0 ∈
      repetitionLines config repetition := by
    simp [repetitionLines, borrowedLines]
  have hmaterialized : emit config "worktable" "L2" "update_field" repetition config.operations
      (UInt64.ofNat config.payloadBytes) ∈ repetitionLines config repetition := by
    simp [repetitionLines, materializedLines]
  have heq := h _ (List.mem_filter.2 ⟨hlines _ hborrowed, rfl⟩) _
    (List.mem_filter.2 ⟨hlines _ hmaterialized, rfl⟩) rfl
  have hzero := hnumber 0 _ (by norm_num) heq
  rw [emit, ofNat_toNat_of_lt (by omega)] at hzero
  exact hpayload hzero.symm

end Filters

/-- **The validation of a campaign.** With engines that apply every update and valid runs, the campaign runs to its end.
Its range scans and its point reads agree across all nine arms. But the filter on inserts and updates accepts the file
only if no run was made: the arms that materialize rows emit the payload length for their updates, the others emit
row 0. -/
theorem campaign_filters {S : Arm → Type} (E : ∀ arm, Engine (S arm)) (hE : ∀ arm, (E arm).Faithful) (matrix : Matrix)
    (hvalid : ∀ config ∈ matrix.configs, config.validate = .ok ()) {ν : Type} [DecidableEq ν] (number : ℕ → ν)
    (hnumber : ∀ a b, a < 2 ^ 53 → number a = number b → a = b)
    (hpayload : ∀ payloadBytes ∈ matrix.payloadBytes, payloadBytes < 2 ^ 53)
    (hscan : ∀ scanLength ∈ matrix.scanLengths, scanLength.toNat < 2 ^ 53) :
    ∃ lines, campaign E matrix = some lines ∧ rangeScanFilter number lines = true ∧
      pointReadFilter number lines = true ∧ (insertUpdateFilter number lines = true ↔ matrix.configs = []) := by
  have hlines : ∀ line ∈ (matrix.configs.map runLines).flatten, ∃ config ∈ matrix.configs, Carries config line := by
    intro line hline
    obtain ⟨config, hconfig, repetition, -, hline⟩ := mem_campaign.1 hline
    exact ⟨config, hconfig, repetitionLines_carries config repetition line hline⟩
  refine ⟨_, campaign_eq hE hvalid, ?_, ?_, ?_⟩
  · refine filter_accepts matrix scanTotal (fun line hline => ?_) fun config hconfig config' hconfig' _ hlen => ?_
    · obtain ⟨config, hconfig, hcarries⟩ := hlines line hline
      exact ⟨config, hconfig, hcarries, hcarries.scan⟩
    · obtain ⟨payloadBytes, -, scanLength, hin, rfl⟩ := mem_configs hconfig
      obtain ⟨payloadBytes', -, scanLength', -, rfl⟩ := mem_configs hconfig'
      obtain rfl := UInt64.toNat_inj.1 (hnumber _ _ (hscan scanLength hin) hlen)
      rfl
  · refine filter_accepts matrix readTotal (fun line hline => ?_) fun config hconfig config' hconfig' hbytes _ => ?_
    · obtain ⟨config, hconfig, hcarries⟩ := hlines line hline
      exact ⟨config, hconfig, hcarries, hcarries.read⟩
    · obtain ⟨payloadBytes, hin, scanLength, -, rfl⟩ := mem_configs hconfig
      obtain ⟨payloadBytes', -, scanLength', -, rfl⟩ := mem_configs hconfig'
      obtain rfl := hnumber _ _ (hpayload payloadBytes hin) hbytes
      rfl
  · constructor
    · intro haccepts
      refine List.eq_nil_iff_forall_not_mem.2 fun config hconfig => ?_
      obtain ⟨hrepetitions, hbytes⟩ := nonzero_of_validate (hvalid config hconfig)
      have hsmall : config.payloadBytes < 2 ^ 53 := by
        obtain ⟨payloadBytes, hin, _, -, rfl⟩ := mem_configs hconfig
        exact hpayload payloadBytes hin
      have hfirst : 1 ∈ List.range' 1 config.repetitions := List.mem_range'_1.2 ⟨le_rfl, by omega⟩
      rw [insertUpdateFilter_rejects hnumber hbytes hsmall fun line hline =>
        mem_campaign.2 ⟨config, hconfig, 1, hfirst, hline⟩] at haccepts
      cases haccepts
    · intro hnone
      rw [hnone]
      rfl

/-- four rows; the scan length 9 does not fit -/
def fourRows : Matrix := ⟨4, 4, 2, 2, [8, 16], [1, 2, 9]⟩

theorem campaign_filters_four_rows : ∃ lines, campaign (fun _ => rangeEngine) fourRows = some lines ∧
    rangeScanFilter id lines = true ∧ pointReadFilter id lines = true ∧
    (insertUpdateFilter id lines = true ↔ fourRows.configs = []) :=
  campaign_filters (fun _ => rangeEngine) (fun _ => rangeEngine_faithful) fourRows (by decide) id (fun _ _ _ h => h)
    (by norm_num [fourRows]) (List.forall_mem_cons.2 ⟨by decide, List.forall_mem_cons.2 ⟨by decide,
      List.forall_mem_singleton.2 (by decide)⟩⟩)

end WtBenchmarks.MicroLayers
