/-
The map arms of `src/bin/micro-layers.rs`: what their `update_field` checksum can see.

Each arm loads the rows, reads and updates the rows of the point keys, and emits one line a phase. An engine is a
parameter: it keeps the rows it is given, and each of its updates either writes the new value or is dropped. A payload
string is its bytes; timings, versions and platform fields of a line are left out.

- `load_rows`, `updates_rows`: what a table holds after the load and after the updates, row 0 among it;
- `bench_blind`: an accepted configuration runs without a panic, and the `update_field` line of every arm carries the
  loaded value of row 0, 0, whichever updates the engine drops;
- `update_field_blind`: an engine that applies every update and one that drops them all emit the same checksum.
-/
import WtBenchmarks.Core.TreeMap
import WtBenchmarks.Kv.Config

namespace WtBenchmarks.MicroLayers

/-! ## Configuration -/

structure Config where
  rows : UInt64
  operations : UInt64
  scanOperations : UInt64
  scanLength : UInt64
  repetitions : ℕ
  payloadBytes : ℕ
  seed : UInt64

namespace Config

/-- the checks of `from_args` on the parsed options -/
def validate (config : Config) : Except String Unit :=
  if config.rows = 0 ∨ config.operations = 0 ∨ config.scanOperations = 0 ∨ config.scanLength = 0 ∨
      config.repetitions = 0 ∨ config.payloadBytes = 0 then
    .error "counts, repetitions, and payload size must be non-zero"
  else if config.scanLength > config.rows then .error "--scan-length cannot exceed --rows"
  else .ok ()

def pointKeys (config : Config) : List UInt64 := Rng.draws config.operations.toNat config.rows config.seed

def scanStarts (config : Config) : List UInt64 :=
  Rng.draws config.scanOperations.toNat (config.rows - config.scanLength + 1) (config.seed ^^^ 0xa5a5a5a5)

/-- what an accepted configuration guarantees -/
structure Accepted (config : Config) : Prop where
  rows : 0 < config.rows
  scanLength : 0 < config.scanLength.toNat
  fits : config.scanLength.toNat ≤ config.rows.toNat

theorem accepted_of_validate {config : Config} (h : config.validate = .ok ()) : config.Accepted := by
  unfold validate at h
  split_ifs at h with hzero hlen
  simp only [not_or] at hzero
  obtain ⟨hrows, -, -, hscan, -, -⟩ := hzero
  exact ⟨UInt64.lt_iff_toNat_lt.2 (toNat_pos_of_ne hrows), toNat_pos_of_ne hscan,
    UInt64.le_iff_toNat_le.1 (UInt64.not_lt.1 hlen)⟩

theorem pointKeys_lt {config : Config} (h : config.Accepted) : ∀ k ∈ config.pointKeys, k < config.rows :=
  Rng.draws_lt h.rows

theorem scanStarts_le {config : Config} (h : config.Accepted) :
    ∀ start ∈ config.scanStarts, start.toNat + config.scanLength.toNat ≤ config.rows.toNat :=
  Kv.KvConfig.draws_start_le h.scanLength h.fits

end Config

structure Row where
  id : UInt64
  value : UInt64
  payload : List UInt8
  deriving DecidableEq

/-- the row loaded under `id` -/
def row (config : Config) (id : UInt64) : Row := ⟨id, id, Rng.printable (id ^^^ config.seed) config.payloadBytes⟩

def rows (config : Config) : List Row := (List.range config.rows.toNat).map fun i => row config (UInt64.ofNat i)

/-! ## Engines -/

/-- a table with its own states `S`; a panic is `none` -/
structure Engine (S : Type) where
  default : S
  insert : S → Row → Option S
  get : S → UInt64 → Option Row
  len : S → ℕ
  /-- writes the value of a row that must be there -/
  update : S → UInt64 → UInt64 → Option S
  selectByPkRange : S → UInt64 → UInt64 → Option (List Row)

/-- the engine keeps the rows it is given -/
structure Engine.Keeps {S : Type} (E : Engine S) : Prop where
  default : ∀ k, E.get E.default k = none
  insert : ∀ s r, E.get s r.id = none →
    ∃ s', E.insert s r = some s' ∧ ∀ k, E.get s' k = if r.id = k then some r else E.get s k
  selectByPkRange : ∀ s first last, ∃ found, E.selectByPkRange s first last = some found

/-- `s'` is `s` with the value of the row `r` under `k` written -/
def Engine.Written {S : Type} (E : Engine S) (s : S) (k value : UInt64) (r : Row) (s' : S) : Prop :=
  ∀ j, E.get s' j = if k = j then some { r with value := value } else E.get s j

/-- every update of a loaded row is applied -/
structure Engine.Applies {S : Type} (E : Engine S) : Prop extends E.Keeps where
  update : ∀ s k value r, E.get s k = some r → ∃ s', E.update s k value = some s' ∧ E.Written s k value r s'

/-- every update of a loaded row is silently dropped -/
structure Engine.Drops {S : Type} (E : Engine S) : Prop extends E.Keeps where
  update : ∀ s k value r, E.get s k = some r → ∃ s', E.update s k value = some s' ∧ ∀ j, E.get s' j = E.get s j

/-- every update of a loaded row is applied or dropped, each as the engine likes -/
structure Engine.MayDrop {S : Type} (E : Engine S) : Prop extends E.Keeps where
  update : ∀ s k value r, E.get s k = some r →
    ∃ s', E.update s k value = some s' ∧ (E.Written s k value r s' ∨ ∀ j, E.get s' j = E.get s j)

theorem Engine.Applies.mayDrop {S : Type} {E : Engine S} (h : E.Applies) : E.MayDrop where
  toKeeps := h.toKeeps
  update s k value r hr := by
    obtain ⟨s', hs', hwritten⟩ := h.update s k value r hr
    exact ⟨s', hs', Or.inl hwritten⟩

theorem Engine.Drops.mayDrop {S : Type} {E : Engine S} (h : E.Drops) : E.MayDrop where
  toKeeps := h.toKeeps
  update s k value r hr := by
    obtain ⟨s', hs', hsame⟩ := h.update s k value r hr
    exact ⟨s', hs', Or.inr hsame⟩

/-! ## Arms -/

structure ResultRow where
  engine : String
  layer : String
  operation : String
  repetition : ℕ
  rows : UInt64
  operations : UInt64
  payloadBytes : ℕ
  scanLength : UInt64
  checksum : UInt64

def emit (config : Config) (engine layer operation : String) (repetition : ℕ) (operations checksum : UInt64) :
    ResultRow :=
  ⟨engine, layer, operation, repetition, config.rows, operations, config.payloadBytes, config.scanLength, checksum⟩

section Arms

variable {S : Type} (E : Engine S)

def load (config : Config) : Option S := (rows config).foldlM E.insert E.default

/-- the loop of the `update_field` phase -/
def updates (pointKeys : List UInt64) (table : S) : Option S :=
  pointKeys.foldlM (fun table key => E.update table key (key * 17)) table

/-- the arms that read rows in place -/
def benchMap (engine layer : String) (config : Config) (repetition : ℕ) (pointKeys : List UInt64) :
    Option (List ResultRow) := do
  let table ← load E config
  let read ← pointKeys.foldlM (fun sum key => do
    let row ← E.get table key
    pure (sum + row.value + UInt64.ofNat row.payload.length)) 0
  let updated ← updates E pointKeys table
  let row ← E.get updated 0
  pure [
    emit config engine layer "insert" repetition config.rows (UInt64.ofNat (E.len table)),
    emit config engine layer "point_read_borrowed" repetition config.operations read,
    emit config engine layer "update_field" repetition config.operations row.value]

def benchHashMap := benchMap E "hash_map" "L0"

def benchRwlockHashMap := benchMap E "rwlock_hash_map" "L1"

def benchDashMap := benchMap E "dash_map" "L1"

/-- `MicroBackend::point_read` -/
def pointRead (table : S) (key : UInt64) : Option UInt64 := do
  let row ← E.get table key
  pure (row.value + UInt64.ofNat row.payload.length)

/-- `MicroBackend::range_checksum` -/
def rangeChecksum (table : S) (start stop : UInt64) : Option UInt64 := do
  let rows ← E.selectByPkRange table start stop
  pure (rows.foldl (fun sum row => sum + row.value) 0)

def benchWorktable (engine : String) (config : Config) (repetition : ℕ) (pointKeys scanStarts : List UInt64) :
    Option (List ResultRow) := do
  let table ← load E config
  let read ← pointKeys.foldlM (fun sum key => do pure (sum + (← pointRead E table key))) 0
  let updated ← updates E pointKeys table
  let update ← pointRead E updated 0
  let scanned ← scanStarts.foldlM (fun sum start => do
    let bound ← checkedAdd start config.scanLength
    let stop ← checkedSub bound 1
    pure (sum + (← rangeChecksum E updated start stop))) 0
  pure [
    emit config engine "L2" "insert" repetition config.rows config.rows,
    emit config engine "L2" "point_read_materialized" repetition config.operations read,
    emit config engine "L2" "update_field" repetition config.operations update,
    emit config engine "L2" "range_scan" repetition config.scanOperations scanned]

end Arms

inductive Arm
  | hashMap
  | rwlockHashMap
  | dashMap
  | worktable
  | worktableCongee
  | worktableArctic
  deriving DecidableEq

/-- an arm of `main` in one repetition -/
def Arm.bench {S : Type} (E : Engine S) (config : Config) (repetition : ℕ) : Arm → Option (List ResultRow)
  | .hashMap => benchHashMap E config repetition config.pointKeys
  | .rwlockHashMap => benchRwlockHashMap E config repetition config.pointKeys
  | .dashMap => benchDashMap E config repetition config.pointKeys
  | .worktable => benchWorktable E "worktable" config repetition config.pointKeys config.scanStarts
  | .worktableCongee => benchWorktable E "worktable-congee" config repetition config.pointKeys config.scanStarts
  | .worktableArctic => benchWorktable E "worktable-arctic" config repetition config.pointKeys config.scanStarts

/-- the number an arm emits for its updates -/
def updateChecksum (lines : List ResultRow) : Option UInt64 :=
  (lines.find? fun line => line.operation == "update_field").map ResultRow.checksum

/-! ## What a table holds -/

section Table

variable {S : Type} {E : Engine S} {config : Config}

/-- the table holds the loaded rows, with some values -/
def Holds (E : Engine S) (config : Config) (value : UInt64 → UInt64) (s : S) : Prop :=
  ∀ k, E.get s k = if k < config.rows then some { row config k with value := value k } else none

theorem Holds.get {value : UInt64 → UInt64} {s : S} (h : Holds E config value s) {k : UInt64} (hk : k < config.rows) :
    E.get s k = some { row config k with value := value k } := by
  rw [h k, if_pos hk]

theorem load_rows (hE : E.Keeps) : ∃ s, load E config = some s ∧ Holds E config id s := by
  -- after `i` turns the rows below `i` are there
  have hloop := exists_foldlM_range (I := fun i s => ∀ k, E.get s k = if k.toNat < i then some (row config k) else none)
    (f := fun s i => E.insert s (row config (UInt64.ofNat i))) config.rows.toNat (fun i s hi hs => ?_) E.default
    (fun k => hE.default k)
  · obtain ⟨s, hload, hs⟩ := hloop
    refine ⟨s, ?_, fun k => ?_⟩
    · rw [load, rows, List.foldlM_map]
      exact hload
    · exact (hs k).trans (if_congr UInt64.lt_iff_toNat_lt.symm rfl rfl)
  · have hsize := config.rows.toNat_lt
    have hkey : (UInt64.ofNat i).toNat = i := ofNat_toNat_of_lt (by omega)
    obtain ⟨s', hinsert, hs'⟩ := hE.insert s (row config (UInt64.ofNat i)) (by
      rw [hs, if_neg]
      simp [row, hkey])
    refine ⟨s', hinsert, fun k => ?_⟩
    rw [hs' k, hs k]
    by_cases hk : UInt64.ofNat i = k
    · subst hk
      simp [row, hkey]
    · have hne : k.toNat ≠ i := fun h => hk (by rw [← h, UInt64.ofNat_toNat])
      rw [if_neg (by exact hk)]
      exact if_congr (by omega) rfl rfl

/-- an update of row 0 writes the value it was loaded with, 0 -/
theorem update_zero (hE : E.MayDrop) {value : UInt64 → UInt64} {s : S} (hzero : value 0 = 0)
    (hs : Holds E config value s) {k : UInt64} (hk : k < config.rows) :
    ∃ s', E.update s k (k * 17) = some s' ∧ ∃ value', value' 0 = 0 ∧ Holds E config value' s' := by
  obtain ⟨s', hupdate, hwritten | hsame⟩ := hE.update s k (k * 17) _ (hs.get hk)
  · refine ⟨s', hupdate, Function.update value k (k * 17), ?_, fun j => ?_⟩
    · by_cases hk0 : k = 0
      · subst hk0
        rw [Function.update_self]
        rfl
      · rwa [Function.update_of_ne (Ne.symm hk0)]
    · rw [hwritten j]
      by_cases hj : k = j
      · subst hj
        rw [if_pos rfl, if_pos hk, Function.update_self]
      · rw [if_neg hj, hs j, Function.update_of_ne (Ne.symm hj)]
  · exact ⟨s', hupdate, value, hzero, fun j => (hsame j).trans (hs j)⟩

theorem updates_rows (hE : E.MayDrop) {keys : List UInt64} (hkeys : ∀ k ∈ keys, k < config.rows) {s : S}
    (hs : Holds E config id s) :
    ∃ s', updates E keys s = some s' ∧ ∃ value, value 0 = 0 ∧ Holds E config value s' :=
  exists_foldlM keys (fun _ k hk ⟨_, hzero, hs⟩ => update_zero hE hzero hs (hkeys k hk)) s ⟨id, rfl, hs⟩

theorem pointRead_some {value : UInt64 → UInt64} {s : S} (hs : Holds E config value s) {k : UInt64}
    (hk : k < config.rows) : pointRead E s k = some (value k + UInt64.ofNat (row config k).payload.length) := by
  simp [pointRead, hs.get hk]

theorem rangeChecksum_some (hE : E.Keeps) (s : S) (start stop : UInt64) :
    ∃ c, rangeChecksum E s start stop = some c := by
  obtain ⟨found, hfound⟩ := hE.selectByPkRange s start stop
  exact ⟨_, by rw [rangeChecksum, hfound]; rfl⟩

end Table

/-! ## The emitted number -/

section Blind

variable {S : Type} {E : Engine S} {config : Config}

theorem benchMap_blind (hE : E.MayDrop) (hconfig : config.Accepted) (engine layer : String) (repetition : ℕ) :
    ∃ lines, benchMap E engine layer config repetition config.pointKeys = some lines ∧
      updateChecksum lines = some 0 := by
  have hkeys := Config.pointKeys_lt hconfig
  obtain ⟨s, hload, hs⟩ := load_rows hE.toKeeps
  obtain ⟨read, hread⟩ := exists_foldlM_some (f := fun sum key => do
      let row ← E.get s key
      pure (sum + row.value + UInt64.ofNat row.payload.length)) config.pointKeys (fun sum k hk => by
    rw [hs.get (hkeys k hk)]
    exact ⟨_, rfl⟩) 0
  obtain ⟨s', hupdates, value, hzero, hs'⟩ := updates_rows hE hkeys hs
  have hbench : benchMap E engine layer config repetition config.pointKeys = some [
      emit config engine layer "insert" repetition config.rows (UInt64.ofNat (E.len s)),
      emit config engine layer "point_read_borrowed" repetition config.operations read,
      emit config engine layer "update_field" repetition config.operations (value 0)] := by
    simp only [Option.bind_eq_bind] at hread
    simp only [benchMap, Option.bind_eq_bind, hload, Option.bind_some, hread, hupdates, hs'.get hconfig.rows]
    rfl
  exact ⟨_, hbench, congrArg some hzero⟩

theorem benchWorktable_blind (hE : E.MayDrop) (hconfig : config.Accepted) (engine : String) (repetition : ℕ) :
    ∃ lines, benchWorktable E engine config repetition config.pointKeys config.scanStarts = some lines ∧
      updateChecksum lines = some (UInt64.ofNat (row config 0).payload.length) := by
  have hkeys := Config.pointKeys_lt hconfig
  obtain ⟨s, hload, hs⟩ := load_rows hE.toKeeps
  obtain ⟨read, hread⟩ := exists_foldlM_some (f := fun sum key => do pure (sum + (← pointRead E s key)))
    config.pointKeys (fun sum k hk => by
      rw [pointRead_some hs (hkeys k hk)]
      exact ⟨_, rfl⟩) 0
  obtain ⟨s', hupdates, value, hzero, hs'⟩ := updates_rows hE hkeys hs
  obtain ⟨scanned, hscanned⟩ := exists_foldlM_some (f := fun sum start => do
      let bound ← checkedAdd start config.scanLength
      let stop ← checkedSub bound 1
      pure (sum + (← rangeChecksum E s' start stop))) config.scanStarts (fun sum start hstart => by
    have hfits := Config.scanStarts_le hconfig start hstart
    have hsize := config.rows.toNat_lt
    have hpos := hconfig.scanLength
    obtain ⟨bound, hbound, hsum⟩ := checkedAdd_some (a := start) (b := config.scanLength) (by omega)
    obtain ⟨stop, hstop, -⟩ := checkedSub_some (a := bound) (b := 1) (by rw [hsum, UInt64.toNat_one]; omega)
    obtain ⟨c, hc⟩ := rangeChecksum_some hE.toKeeps s' start stop
    rw [hbound, Option.bind_eq_bind, Option.bind_some, hstop, Option.bind_some, hc]
    exact ⟨_, rfl⟩) 0
  have hbench : benchWorktable E engine config repetition config.pointKeys config.scanStarts = some [
      emit config engine "L2" "insert" repetition config.rows config.rows,
      emit config engine "L2" "point_read_materialized" repetition config.operations read,
      emit config engine "L2" "update_field" repetition config.operations
        (value 0 + UInt64.ofNat (row config 0).payload.length),
      emit config engine "L2" "range_scan" repetition config.scanOperations scanned] := by
    simp only [Option.bind_eq_bind] at hread hscanned
    simp only [benchWorktable, Option.bind_eq_bind, hload, Option.bind_some, hread, hupdates,
      pointRead_some hs' hconfig.rows, hscanned]
    rfl
  refine ⟨_, hbench, congrArg some ?_⟩
  change value 0 + _ = _
  rw [hzero, UInt64.zero_add]

/-- what the `update_field` line of an arm carries: the loaded value of row 0, and the length of its payload where rows
are materialized -/
def Arm.blindChecksum (config : Config) : Arm → UInt64
  | .hashMap | .rwlockHashMap | .dashMap => 0
  | .worktable | .worktableCongee | .worktableArctic => UInt64.ofNat (row config 0).payload.length

theorem bench_blind (hE : E.MayDrop) (hconfig : config.Accepted) (repetition : ℕ) (arm : Arm) :
    ∃ lines, arm.bench E config repetition = some lines ∧ updateChecksum lines = some (arm.blindChecksum config) := by
  cases arm with
  | hashMap | rwlockHashMap | dashMap => exact benchMap_blind hE hconfig _ _ repetition
  | worktable | worktableCongee | worktableArctic => exact benchWorktable_blind hE hconfig _ repetition

end Blind

/-! ## Two engines -/

/-- a map from ids to rows -/
def mapEngine : Engine (Std.ExtTreeMap UInt64 Row) where
  default := ∅
  insert table row := some (table.insert row.id row)
  get table key := table[key]?
  len table := table.size
  update table key value := table[key]?.map fun row => table.insert key { row with value := value }
  selectByPkRange table first last := some (table.values.filter fun row => first ≤ row.id && row.id ≤ last)

/-- the same map, but its updates do nothing -/
def droppingEngine : Engine (Std.ExtTreeMap UInt64 Row) :=
  { mapEngine with update := fun table key _ => table[key]?.map fun _ => table }

theorem mapEngine_keeps : mapEngine.Keeps where
  default k := by simp [mapEngine]
  insert table row _ := ⟨_, rfl, fun k => TreeMap.get_insert table row.id k row⟩
  selectByPkRange _ _ _ := ⟨_, rfl⟩

theorem mapEngine_applies : mapEngine.Applies where
  toKeeps := mapEngine_keeps
  update table k value row hrow := by
    change table[k]? = some row at hrow
    refine ⟨table.insert k { row with value := value }, ?_, fun j => TreeMap.get_insert table k j _⟩
    simp [mapEngine, hrow]

theorem droppingEngine_drops : droppingEngine.Drops where
  toKeeps := ⟨mapEngine_keeps.default, mapEngine_keeps.insert, mapEngine_keeps.selectByPkRange⟩
  update table k value row hrow := by
    change table[k]? = some row at hrow
    exact ⟨table, by simp [droppingEngine, hrow], fun _ => rfl⟩

/-! ## The checksum does not see the updates -/

/-- eight rows and eight updates -/
def eightRows : Config := ⟨8, 8, 1, 1, 1, 16, 42⟩

/-- row 0 is not the only one updated, and still no arm tells the two engines apart -/
theorem eightRows_blind : eightRows.validate = .ok () ∧ (∃ k ∈ eightRows.pointKeys, k ≠ 0) ∧
    ∀ arm : Arm, ∃ lines lines', arm.bench mapEngine eightRows 1 = some lines ∧
      arm.bench droppingEngine eightRows 1 = some lines' ∧ updateChecksum lines = updateChecksum lines' := by
  have hconfig : eightRows.Accepted := Config.accepted_of_validate (by decide)
  refine ⟨by decide, by decide, fun arm => ?_⟩
  obtain ⟨lines, hlines, hsum⟩ := bench_blind mapEngine_applies.mayDrop hconfig 1 arm
  obtain ⟨lines', hlines', hsum'⟩ := bench_blind droppingEngine_drops.mayDrop hconfig 1 arm
  exact ⟨lines, lines', hlines, hlines', hsum.trans hsum'.symm⟩

/-- **Blind checksums.** Under every accepted configuration, and whatever the point keys, an engine that applies every
update and one that drops them all run every arm to its end and emit the same `update_field` checksum. -/
theorem update_field_blind {S S' : Type} (config : Config) (hconfig : config.validate = .ok ()) (E : Engine S)
    (hE : E.Applies) (D : Engine S') (hD : D.Drops) (arm : Arm) (repetition : ℕ) :
    ∃ lines lines' checksum, arm.bench E config repetition = some lines ∧ arm.bench D config repetition = some lines' ∧
      updateChecksum lines = some checksum ∧ updateChecksum lines' = some checksum := by
  have haccepted := Config.accepted_of_validate hconfig
  obtain ⟨lines, hlines, hsum⟩ := bench_blind hE.mayDrop haccepted repetition arm
  obtain ⟨lines', hlines', hsum'⟩ := bench_blind hD.mayDrop haccepted repetition arm
  exact ⟨lines, lines', _, hlines, hlines', hsum, hsum'⟩

theorem update_field_blind_eight : ∃ lines lines' checksum,
    Arm.worktable.bench mapEngine eightRows 1 = some lines ∧
    Arm.worktable.bench droppingEngine eightRows 1 = some lines' ∧
    updateChecksum lines = some checksum ∧ updateChecksum lines' = some checksum :=
  update_field_blind eightRows (by decide) mapEngine mapEngine_applies droppingEngine droppingEngine_drops .worktable 1

end WtBenchmarks.MicroLayers
