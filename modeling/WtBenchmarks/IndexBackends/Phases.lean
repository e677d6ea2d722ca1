/-
The phases of `campaigns/index-backends/src/main.rs`: none of their assertions fails.

`run_backend!` loads a table with an autoincrement key and a unique lookup column and takes it through point hits, range
queries, point misses, updates, inserts and deletions, each on the table the phases before it left. A panic (`expect`,
`assert_eq!`, an overflow) is `none`; the emitted lines are kept by operation and count. Latency samples, timings and
allocation counts are left out, and so is the choice of the backend, since all four run the same phases.

- `Loaded`: the table after the load, which holds until the updates;
- `Holds`: keys and lookup values by interval, which the updates, inserts and deletions keep;
- `runBackend_some`: every expectation of every phase holds.
-/
import WtBenchmarks.Core.IndexedMap
import WtBenchmarks.Core.UniqueTable

namespace WtBenchmarks.IndexBackends.Phases

/-! ## Model -/

structure Config where
  rows : UInt64
  operations : UInt64
  rangeOperations : UInt64
  mutations : UInt64
  sampleEvery : UInt64
  repetition : ℕ

/-- the checks of `from_args` on the parsed options -/
def Config.validate (config : Config) : Except String Unit :=
  if config.rows = 0 ∨ config.operations = 0 ∨ config.rangeOperations = 0 ∨ config.mutations = 0 ∨
      config.sampleEvery = 0 ∨ config.repetition = 0 then
    .error "counts, sampling interval, and repetition must be non-zero"
  else
    match checkedAdd config.rows config.mutations with
    | none => .error "--rows plus --mutations overflows u64"
    | some _ => .ok ()

structure Row where
  id : UInt64
  lookup : UInt64
  payload : List UInt8

/-- the table and its key generator -/
structure Table where
  store : UniqueTable UInt64 UInt64 Row Row.lookup
  nextPk : UInt64

namespace Table

def default : Table := ⟨UniqueTable.empty _, 0⟩

def getNextPk (t : Table) : UInt64 × Table := (t.nextPk, { t with nextPk := t.nextPk + 1 })

/-- the key of the new row is returned -/
def insert (t : Table) (row : Row) : Option (Table × UInt64) :=
  (t.store.insert row.id row).map fun store => ({ t with store := store }, row.id)

def update (t : Table) (row : Row) : Option Table :=
  (t.store.update row.id row).map fun store => { t with store := store }

def delete (t : Table) (id : UInt64) : Option Table :=
  (t.store.delete id).map fun store => { t with store := store }

def select (t : Table) (id : UInt64) : Option Row := t.store.rows[id]?

def selectByLookup (t : Table) (lookup : UInt64) : Option Row := t.store.selectByUnique lookup

/-- the rows with a lookup in `start..stop` -/
def selectByLookupRange (t : Table) (start stop : UInt64) : List Row :=
  t.store.selectRange fun lookup => start ≤ lookup && lookup < stop

end Table

/-- the operation and the count of an emitted line -/
structure Phase where
  operation : String
  operations : UInt64
  deriving DecidableEq

/-- `[sequence as u8; 32]` -/
def payload (sequence : UInt64) : List UInt8 := List.replicate 32 sequence.toUInt8

/-- a turn of the load -/
def insertLoaded (table : Table) (i : ℕ) : Option Table := do
  let sequence := UInt64.ofNat i
  let (id, table) := table.getNextPk
  let (table, _) ← table.insert ⟨id, sequence, payload sequence⟩
  pure table

def insertInitial (config : Config) : Option Table :=
  (List.range config.rows.toNat).foldlM insertLoaded Table.default

/-- both phases of point hits: `select` is by key or by lookup -/
def pointHits (config : Config) (select : UInt64 → Option Row) : Option UInt64 :=
  (List.range config.operations.toNat).foldlM (fun checksum i => do
    let key ← checkedMod (UInt64.ofNat i) config.rows
    let row ← select key
    pure (checksum + row.lookup)) 0

/-- `run_unique_range!` -/
def uniqueRange (config : Config) (table : Table) (width : UInt64) (operation : String) : Option (List Phase) :=
  if width ≤ config.rows then do
    let free ← checkedSub config.rows width
    let startDomain ← checkedAdd free 1
    let _ ← (List.range config.rangeOperations.toNat).foldlM (fun checksum i => do
      let rangeStart ← checkedMod (UInt64.ofNat i * 9973) startDomain
      let rangeStop ← checkedAdd rangeStart width
      let rows := table.selectByLookupRange rangeStart rangeStop
      guard (UInt64.ofNat rows.length = width)
      pure (checksum + UInt64.ofNat rows.length)) 0
    pure [⟨operation, config.rangeOperations⟩]
  else pure []

/-- both phases of point misses: `key` is the key asked for in each turn -/
def pointMisses (config : Config) (select : UInt64 → Option Row) (key : UInt64 → Option UInt64) : Option Unit := do
  let misses ← (List.range config.operations.toNat).foldlM (fun misses i => do
    let key ← key (UInt64.ofNat i)
    checkedAdd misses (if (select key).isNone then 1 else 0)) 0
  guard (misses = config.operations)

/-- `config.rows + config.mutations + sequence % config.rows` -/
def primaryMissKey (config : Config) (sequence : UInt64) : Option UInt64 := do
  let base ← checkedAdd config.rows config.mutations
  let offset ← checkedMod sequence config.rows
  checkedAdd base offset

/-- `u64::MAX - sequence % config.rows` -/
def uniqueMissKey (config : Config) (sequence : UInt64) : Option UInt64 := do
  let offset ← checkedMod sequence config.rows
  checkedSub u64Max offset

/-- a turn of the updates -/
def updateNext (config : Config) (table : Table) (i : ℕ) : Option Table := do
  let sequence := UInt64.ofNat i
  let id ← checkedMod sequence config.rows
  let base ← checkedAdd config.rows config.mutations
  let lookup ← checkedAdd base sequence
  table.update ⟨id, lookup, payload sequence⟩

def updateUnique (config : Config) (table : Table) : Option Table :=
  (List.range config.mutations.toNat).foldlM (updateNext config) table

/-- a turn of the inserts, with the keys inserted so far -/
def insertNext (config : Config) (state : Table × List UInt64) (i : ℕ) : Option (Table × List UInt64) := do
  let (table, insertedKeys) := state
  let sequence := UInt64.ofNat i
  let (id, table) := table.getNextPk
  let lookup ← checkedAdd config.rows sequence
  let (table, key) ← table.insert ⟨id, lookup, payload sequence⟩
  pure (table, insertedKeys ++ [key])

def insertSteady (config : Config) (table : Table) : Option (Table × List UInt64) :=
  (List.range config.mutations.toNat).foldlM (insertNext config) (table, [])

def deleteSteady (table : Table) (insertedKeys : List UInt64) : Option Table :=
  insertedKeys.foldlM (fun table key => table.delete key) table

/-- `run_backend!` -/
def runBackend (config : Config) : Option (List Phase) := do
  let table ← insertInitial config
  let _ ← pointHits config table.select
  let _ ← pointHits config table.selectByLookup
  let range1 ← uniqueRange config table 1 "unique_range_1"
  let range8 ← uniqueRange config table 8 "unique_range_8"
  let range64 ← uniqueRange config table 64 "unique_range_64"
  let range1024 ← uniqueRange config table 1024 "unique_range_1024"
  let rangeFull ← uniqueRange config table config.rows "unique_range_full"
  pointMisses config table.select (primaryMissKey config)
  pointMisses config table.selectByLookup (uniqueMissKey config)
  let table ← updateUnique config table
  let (table, insertedKeys) ← insertSteady config table
  let _ ← deleteSteady table insertedKeys
  pure ([⟨"insert_initial", config.rows⟩, ⟨"primary_point_hit", config.operations⟩,
    ⟨"unique_point_hit", config.operations⟩] ++ range1 ++ range8 ++ range64 ++ range1024 ++ rangeFull ++
    [⟨"primary_point_miss", config.operations⟩, ⟨"unique_point_miss", config.operations⟩,
    ⟨"update_unique", config.mutations⟩, ⟨"insert_steady", config.mutations⟩, ⟨"delete_steady", config.mutations⟩])

/-! ## The load -/

/-- there is room for every key and lookup value of the phases -/
structure Config.Bounded (config : Config) : Prop where
  rows : 0 < config.rows.toNat
  updates : config.rows.toNat + 2 * config.mutations.toNat < 2 ^ 64
  misses : 2 * config.rows.toNat + config.mutations.toNat < 2 ^ 64
  half : config.rows.toNat ≤ 2 ^ 63

/-- the keys of the table, numbered -/
abbrev idKey : ℕ → UInt64 := byCast id

theorem idKey_injOn {n : ℕ} (hn : n ≤ 2 ^ 64) : Set.InjOn idKey (Set.Iio n) := (increasing_u64 hn).injOn

theorem idKey_toNat (key : UInt64) : idKey key.toNat = key := byCast_toNat id key

def loadedRow (i : ℕ) : Row := ⟨idKey i, idKey i, payload (idKey i)⟩

theorem loadedRow_lookup (key : UInt64) : (loadedRow key.toNat).lookup = key := idKey_toNat key

/-- the table after the load -/
structure Loaded (config : Config) (t : Table) : Prop where
  rows : Full idKey config.rows.toNat t.store.rows loadedRow
  nextPk : t.nextPk = config.rows

section Load

variable {config : Config}

theorem Table.insert_some {t : Table} {row : Row} (hnew : row.id ∉ t.store.rows)
    (hunique : ∀ (k : UInt64) r, t.store.rows[k]? = some r → r.lookup ≠ row.lookup) :
    ∃ store, t.insert row = some (⟨store, t.nextPk⟩, row.id) ∧ store.rows = t.store.rows.insert row.id row := by
  obtain ⟨store, hinsert, hrows⟩ := UniqueTable.insert_some hnew hunique
  exact ⟨store, by rw [Table.insert, hinsert]; rfl, hrows⟩

/-- after `i` turns of the load the rows below `i` are there -/
def LoadedUpTo (config : Config) (i : ℕ) (t : Table) : Prop :=
  Indexed idKey config.rows.toNat t.store.rows (Indexed.upTo i loadedRow) ∧ t.nextPk = idKey i

theorem insertLoaded_some {i : ℕ} {t : Table} (hi : i < config.rows.toNat) (h : LoadedUpTo config i t) :
    ∃ t', insertLoaded t i = some t' ∧ LoadedUpTo config (i + 1) t' := by
  have hinj := idKey_injOn config.rows.toNat_lt.le
  obtain ⟨hrows, hpk⟩ := h
  obtain ⟨hnew, hnext⟩ := hrows.load_step hinj hi
  have hunique : ∀ (k : UInt64) r, t.store.rows[k]? = some r → r.lookup ≠ (loadedRow i).lookup := by
    intro k r hr heq
    obtain ⟨j, hj, rfl⟩ := hrows.only k ((TreeMap.mem_iff_get t.store.rows k).2 ⟨r, hr⟩)
    rw [hrows.get j hj, Indexed.upTo] at hr
    split_ifs at hr with hlt
    cases hr
    have hsame : j = i := hinj hj hi heq
    omega
  obtain ⟨store, nextPk⟩ := t
  subst hpk
  obtain ⟨store', hinsert, hstore⟩ := Table.insert_some (t := ⟨store, idKey i + 1⟩) hnew hunique
  refine ⟨⟨store', idKey i + 1⟩, ?_, hstore ▸ hnext, ?_⟩
  · change (Table.insert ⟨store, idKey i + 1⟩ (loadedRow i)).bind _ = _
    rw [hinsert]
    rfl
  · exact (UInt64.ofNat_add i 1).symm

theorem insertInitial_some (config : Config) : ∃ t, insertInitial config = some t ∧ Loaded config t := by
  obtain ⟨t, hload, hrows, hpk⟩ := exists_foldlM_range config.rows.toNat
    (fun i t hi h => insertLoaded_some hi h) Table.default (show LoadedUpTo config 0 Table.default from
      ⟨Indexed.empty_upTo _ _ _, rfl⟩)
  exact ⟨t, hload, Full.of_upTo hrows, hpk.trans (UInt64.ofNat_toNat)⟩

variable {t : Table} (ht : Loaded config t)
include ht

theorem Loaded.select {key : UInt64} (hk : key < config.rows) : t.select key = some (loadedRow key.toNat) := by
  have hget := ht.rows.get key.toNat (UInt64.lt_iff_toNat_lt.1 hk)
  rwa [idKey_toNat] at hget

theorem Loaded.selectByLookup {key : UInt64} (hk : key < config.rows) :
    t.selectByLookup key = some (loadedRow key.toNat) :=
  UniqueTable.selectByUnique_eq_some.2 ⟨key, ht.select hk, loadedRow_lookup key⟩

theorem Loaded.of_row {key : UInt64} {r : Row} (hr : t.store.rows[key]? = some r) :
    key < config.rows ∧ r = loadedRow key.toNat := by
  obtain ⟨i, hi, rfl⟩ := ht.rows.only key ((TreeMap.mem_iff_get _ _).2 ⟨r, hr⟩)
  have hkey : (idKey i).toNat = i := ofNat_toNat_of_lt (hi.trans config.rows.toNat_lt)
  rw [ht.rows.get i hi] at hr
  cases hr
  rw [UInt64.lt_iff_toNat_lt, hkey]
  exact ⟨hi, rfl⟩

/-- the index numbers the keys as the rows do -/
theorem Loaded.index : Full idKey config.rows.toNat t.store.index idKey := by
  refine ⟨fun i hi => (t.store.listed _ _).2 ⟨loadedRow i, ht.rows.get i hi, rfl⟩, fun u hu => ?_⟩
  obtain ⟨k, hk⟩ := (TreeMap.mem_iff_get _ _).1 hu
  obtain ⟨r, hr, rfl⟩ := (t.store.listed u k).1 hk
  obtain ⟨hlt, rfl⟩ := ht.of_row hr
  exact ⟨k.toNat, UInt64.lt_iff_toNat_lt.1 hlt, rfl⟩

/-- a range inside the loaded rows has its width in rows -/
theorem Loaded.length_range (start stop : UInt64) (hle : start.toNat ≤ stop.toNat)
    (hstop : stop.toNat ≤ config.rows.toNat) :
    (t.selectByLookupRange start stop).length = stop.toNat - start.toNat := by
  have hbetween := ht.index.between (increasing_u64 config.rows.toNat_lt.le)
    (fun entry => start ≤ entry.1 && entry.1 < stop) hle hstop (fun i hi => by
      have hkey : (idKey i).toNat = i := ofNat_toNat_of_lt (hi.trans config.rows.toNat_lt)
      rw [Bool.and_eq_true, decide_eq_true_iff, decide_eq_true_iff, UInt64.le_iff_toNat_le, UInt64.lt_iff_toNat_lt,
        hkey])
  rw [Table.selectByLookupRange, UniqueTable.length_selectRange, hbetween, List.length_map, List.length_range']

omit ht in
/-- **Hits.** -/
theorem pointHits_some (hconfig : config.Bounded) {select : UInt64 → Option Row}
    (hselect : ∀ key < config.rows, ∃ row, select key = some row) :
    ∃ checksum, pointHits config select = some checksum := by
  refine exists_foldlM_some _ (fun checksum i _ => ?_) 0
  obtain ⟨key, hkey, hmod⟩ := checkedMod_some (a := UInt64.ofNat i) hconfig.rows
  obtain ⟨row, hrow⟩ := hselect key (by
    rw [UInt64.lt_iff_toNat_lt, hmod]
    exact Nat.mod_lt _ hconfig.rows)
  exact ⟨checksum + row.lookup, by rw [hkey, Option.bind_eq_bind, Option.bind_some, hrow]; rfl⟩

/-- **Ranges.** A width that fits is found in full from every start. -/
theorem uniqueRange_some (hconfig : config.Bounded) (width : UInt64) (operation : String) :
    uniqueRange config t width operation =
      some (if width ≤ config.rows then [⟨operation, config.rangeOperations⟩] else []) := by
  unfold uniqueRange
  split_ifs with hwidth
  · rw [UInt64.le_iff_toNat_le] at hwidth
    have hhalf := hconfig.half
    obtain ⟨free, hfree, hsub⟩ := checkedSub_some hwidth
    obtain ⟨startDomain, hdomain, hadd⟩ := checkedAdd_some (a := free) (b := 1) (by rw [hsub, UInt64.toNat_one]; omega)
    rw [hsub, UInt64.toNat_one] at hadd
    obtain ⟨checksum, hloop⟩ := exists_foldlM_some (f := fun checksum i => do
      let rangeStart ← checkedMod (UInt64.ofNat i * 9973) startDomain
      let rangeStop ← checkedAdd rangeStart width
      let rows := t.selectByLookupRange rangeStart rangeStop
      guard (UInt64.ofNat rows.length = width)
      pure (checksum + UInt64.ofNat rows.length)) (List.range config.rangeOperations.toNat) (fun checksum i _ => by
        have hpos : 0 < startDomain.toNat := by omega
        obtain ⟨rangeStart, hstart, hmod⟩ := checkedMod_some (a := UInt64.ofNat i * 9973) hpos
        have hlt := Nat.mod_lt (UInt64.ofNat i * 9973).toNat hpos
        obtain ⟨rangeStop, hstop, hsum⟩ := checkedAdd_some (a := rangeStart) (b := width) (by omega)
        have hlength := ht.length_range rangeStart rangeStop (by omega) (by omega)
        have hfull : UInt64.ofNat (t.selectByLookupRange rangeStart rangeStop).length = width := by
          rw [hlength, hsum, Nat.add_sub_cancel_left, UInt64.ofNat_toNat]
        refine ⟨checksum + width, ?_⟩
        simp only [hstart, hstop, hfull, Option.bind_eq_bind, Option.bind_some, guard_true]
        rfl) 0
    simp only [Option.bind_eq_bind] at hloop
    simp only [hfree, hdomain, hloop, Option.bind_eq_bind, Option.bind_some]
    rfl
  · rfl

omit ht in
/-- **Misses.** -/
theorem pointMisses_some (config : Config) {select : UInt64 → Option Row} {key : UInt64 → Option UInt64}
    (hkey : ∀ sequence, ∃ k, key sequence = some k ∧ select k = none) : pointMisses config select key = some () := by
  obtain ⟨misses, hloop, hcount⟩ := exists_foldlM_range (I := fun i misses => UInt64.toNat misses = i)
    (f := fun misses i => do
      let k ← key (UInt64.ofNat i)
      checkedAdd misses (if (select k).isNone then 1 else 0)) config.operations.toNat (fun i misses hi hmisses => by
        obtain ⟨k, hk, hnone⟩ := hkey (UInt64.ofNat i)
        have hsize := config.operations.toNat_lt
        obtain ⟨misses', hadd, hsum⟩ := checkedAdd_some (a := misses) (b := 1) (by rw [UInt64.toNat_one]; omega)
        refine ⟨misses', ?_, by rw [hsum, hmisses, UInt64.toNat_one]⟩
        simp only [hk, hnone, Option.bind_eq_bind, Option.bind_some, Option.isNone_none, if_pos]
        exact hadd) 0 rfl
  have heq : misses = config.operations := UInt64.toNat_inj.1 hcount
  simp only [Option.bind_eq_bind] at hloop
  simp only [pointMisses, hloop, Option.bind_eq_bind, Option.bind_some, heq, guard_true]
  rfl

theorem primaryMissKey_miss (hconfig : config.Bounded) (sequence : UInt64) :
    ∃ k, primaryMissKey config sequence = some k ∧ t.select k = none := by
  have hbound := hconfig.misses
  obtain ⟨base, hbase, hsum⟩ := checkedAdd_some (a := config.rows) (b := config.mutations) (by omega)
  obtain ⟨offset, hoffset, hmod⟩ := checkedMod_some (a := sequence) hconfig.rows
  have hlt := Nat.mod_lt sequence.toNat hconfig.rows
  obtain ⟨k, hk, hkey⟩ := checkedAdd_some (a := base) (b := offset) (by omega)
  refine ⟨k, ?_, Option.eq_none_iff_forall_ne_some.2 fun r hr => ?_⟩
  · rw [primaryMissKey, hbase, hoffset]
    exact hk
  · have hloaded := UInt64.lt_iff_toNat_lt.1 (ht.of_row hr).1
    omega

theorem uniqueMissKey_miss (hconfig : config.Bounded) (sequence : UInt64) :
    ∃ k, uniqueMissKey config sequence = some k ∧ t.selectByLookup k = none := by
  have hhalf := hconfig.half
  obtain ⟨offset, hoffset, hmod⟩ := checkedMod_some (a := sequence) hconfig.rows
  have hlt := Nat.mod_lt sequence.toNat hconfig.rows
  obtain ⟨k, hk, hkey⟩ := checkedSub_some (a := u64Max) (b := offset) (by rw [u64Max_toNat]; omega)
  rw [u64Max_toNat] at hkey
  refine ⟨k, ?_, UniqueTable.selectByUnique_eq_none.2 fun key r hr heq => ?_⟩
  · rw [uniqueMissKey, hoffset]
    exact hk
  · obtain ⟨hloaded, rfl⟩ := ht.of_row hr
    rw [UInt64.lt_iff_toNat_lt] at hloaded
    rw [loadedRow_lookup] at heq
    subst heq
    omega

end Load

/-! ## The mutations -/

/-- the numbers of the keys, and numbers among which the lookup values are -/
structure Holds (t : Table) (keys lookups : Set ℕ) : Prop where
  keys : ∀ k, k ∈ t.store.rows ↔ k.toNat ∈ keys
  lookups : ∀ (k : UInt64) r, t.store.rows[k]? = some r → r.lookup.toNat ∈ lookups

section Holds

variable {t : Table} {keys lookups : Set ℕ} {row : Row}

theorem Holds.mono {keys' lookups' : Set ℕ} (h : Holds t keys lookups) (hkeys : ∀ n < 2 ^ 64, n ∈ keys ↔ n ∈ keys')
    (hlookups : lookups ⊆ lookups') : Holds t keys' lookups' :=
  ⟨fun k => (h.keys k).trans (hkeys _ k.toNat_lt), fun k r hr => hlookups (h.lookups k r hr)⟩

/-- the lookup values after a row is written -/
theorem Holds.written (h : Holds t keys lookups) {store : UniqueTable UInt64 UInt64 Row Row.lookup}
    (hstore : store.rows = t.store.rows.insert row.id row) (k : UInt64) (r : Row) (hr : store.rows[k]? = some r) :
    r.lookup.toNat ∈ insert row.lookup.toNat lookups := by
  rw [hstore, TreeMap.get_insert] at hr
  split_ifs at hr
  · cases hr
    exact Set.mem_insert _ _
  · exact Set.mem_insert_of_mem _ (h.lookups k r hr)

theorem Holds.free (h : Holds t keys lookups) (hlookup : row.lookup.toNat ∉ lookups) (k : UInt64) (r : Row)
    (hr : t.store.rows[k]? = some r) : r.lookup ≠ row.lookup := fun heq =>
  hlookup (heq ▸ h.lookups k r hr)

theorem Holds.insert (h : Holds t keys lookups) (row : Row) (hkey : row.id.toNat ∉ keys)
    (hlookup : row.lookup.toNat ∉ lookups) :
    ∃ store, t.insert row = some (⟨store, t.nextPk⟩, row.id) ∧
      Holds ⟨store, t.nextPk⟩ (insert row.id.toNat keys) (insert row.lookup.toNat lookups) := by
  obtain ⟨store, hinsert, hstore⟩ := Table.insert_some (fun hmem => hkey ((h.keys _).1 hmem)) (h.free hlookup)
  refine ⟨store, hinsert, fun k => ?_, h.written hstore⟩
  change k ∈ store.rows ↔ _
  rw [hstore, TreeMap.mem_insert, h.keys, Set.mem_insert_iff, UInt64.toNat_inj, eq_comm]

theorem Holds.update (h : Holds t keys lookups) (row : Row) (hkey : row.id.toNat ∈ keys)
    (hlookup : row.lookup.toNat ∉ lookups) :
    ∃ store, t.update row = some ⟨store, t.nextPk⟩ ∧
      Holds ⟨store, t.nextPk⟩ keys (Insert.insert row.lookup.toNat lookups) := by
  have hmem := (h.keys row.id).2 hkey
  obtain ⟨store, hupdate, hstore⟩ := UniqueTable.update_some hmem fun k r _ hr => h.free hlookup k r hr
  refine ⟨store, by rw [Table.update, hupdate]; rfl, fun k => ?_, h.written hstore⟩
  change k ∈ store.rows ↔ _
  rw [hstore, TreeMap.mem_insert_of_mem hmem, h.keys]

theorem Holds.delete (h : Holds t keys lookups) (key : UInt64) (hkey : key.toNat ∈ keys) :
    ∃ store, t.delete key = some ⟨store, t.nextPk⟩ ∧ Holds ⟨store, t.nextPk⟩ (keys \ {key.toNat}) lookups := by
  obtain ⟨store, hdelete, hstore⟩ := UniqueTable.delete_some ((h.keys key).2 hkey)
  refine ⟨store, by rw [Table.delete, hdelete]; rfl, fun k => ?_, fun k r hr => ?_⟩
  · change k ∈ store.rows ↔ _
    rw [hstore, TreeMap.mem_erase, h.keys, Set.mem_sdiff, Set.mem_singleton_iff, UInt64.toNat_inj, and_comm, ne_comm]
  · change store.rows[k]? = some r at hr
    rw [hstore, TreeMap.get_erase] at hr
    split_ifs at hr
    exact h.lookups k r hr

end Holds

section Mutations

variable {config : Config} (hconfig : config.Bounded) {t : Table}

/-- the table after `i` updates, each of which moves a lookup value above all others -/
def Updated (config : Config) (i : ℕ) (t : Table) : Prop :=
  t.nextPk = config.rows ∧ Holds t (Set.Iio config.rows.toNat) (Set.Iio config.rows.toNat ∪
    Set.Ico (config.rows.toNat + config.mutations.toNat) (config.rows.toNat + config.mutations.toNat + i))

theorem Loaded.updated (ht : Loaded config t) : Updated config 0 t := by
  refine ⟨ht.nextPk, fun k => ?_, fun k r hr => Or.inl ?_⟩
  · rw [TreeMap.mem_iff_get, Set.mem_Iio]
    constructor
    · rintro ⟨r, hr⟩
      exact UInt64.lt_iff_toNat_lt.1 (ht.of_row hr).1
    · exact fun hk => ⟨_, ht.select (UInt64.lt_iff_toNat_lt.2 hk)⟩
  · obtain ⟨hk, rfl⟩ := ht.of_row hr
    rw [loadedRow_lookup]
    exact UInt64.lt_iff_toNat_lt.1 hk

/-- the table after `i` inserts, with the keys inserted -/
def Inserted (config : Config) (i : ℕ) (state : Table × List UInt64) : Prop :=
  state.1.nextPk.toNat = config.rows.toNat + i ∧
  state.2 = (List.range i).map (fun j => idKey (config.rows.toNat + j)) ∧
  Holds state.1 (Set.Iio (config.rows.toNat + i))
    (Set.Iio (config.rows.toNat + i) ∪ Set.Ici (config.rows.toNat + config.mutations.toNat))

/-- the table after `i` deletions -/
def Deleted (config : Config) (i : ℕ) (t : Table) : Prop :=
  Holds t (Set.Iio config.rows.toNat ∪ Set.Ico (config.rows.toNat + i) (config.rows.toNat + config.mutations.toNat))
    Set.univ

include hconfig

/-- **Updates.** The lookup value of an update is above all that are in use. -/
theorem updateNext_some {i : ℕ} (hi : i < config.mutations.toNat) (h : Updated config i t) :
    ∃ t', updateNext config t i = some t' ∧ Updated config (i + 1) t' := by
  have hbound := hconfig.updates
  have hword : (UInt64.ofNat i).toNat = i := ofNat_toNat_of_lt (by omega)
  obtain ⟨hpk, hholds⟩ := h
  obtain ⟨id, hid, hmod⟩ := checkedMod_some (a := UInt64.ofNat i) hconfig.rows
  have hlt := Nat.mod_lt (UInt64.ofNat i).toNat hconfig.rows
  obtain ⟨base, hbase, hsum⟩ := checkedAdd_some (a := config.rows) (b := config.mutations) (by omega)
  obtain ⟨lookup, hlookup, hvalue⟩ := checkedAdd_some (a := base) (b := UInt64.ofNat i) (by omega)
  rw [hsum, hword] at hvalue
  obtain ⟨store, hupdate, hnext⟩ := hholds.update ⟨id, lookup, payload (UInt64.ofNat i)⟩
    (by change id.toNat < config.rows.toNat; omega)
    (by
      rw [Set.mem_union, Set.mem_Iio, Set.mem_Ico]
      change ¬ (lookup.toNat < _ ∨ _ ≤ lookup.toNat ∧ lookup.toNat < _)
      omega)
  refine ⟨⟨store, t.nextPk⟩, ?_, hpk, hnext.mono (fun _ _ => Iff.rfl) fun n hn => ?_⟩
  · simp only [updateNext, hid, hbase, hlookup, Option.bind_eq_bind, Option.bind_some]
    exact hupdate
  · rw [Set.mem_insert_iff, Set.mem_union, Set.mem_Iio, Set.mem_Ico] at hn
    rw [Set.mem_union, Set.mem_Iio, Set.mem_Ico]
    change n = lookup.toNat ∨ _ at hn
    omega

theorem updateUnique_some (ht : Loaded config t) :
    ∃ t', updateUnique config t = some t' ∧ Updated config config.mutations.toNat t' :=
  exists_foldlM_range config.mutations.toNat (fun _ _ hi h => updateNext_some hconfig hi h) t ht.updated

/-- **Inserts.** The lookup value of an insert is between the loaded and the updated ones. -/
theorem insertNext_some {i : ℕ} {state : Table × List UInt64} (hi : i < config.mutations.toNat)
    (h : Inserted config i state) :
    ∃ state', insertNext config state i = some state' ∧ Inserted config (i + 1) state' := by
  have hbound := hconfig.updates
  have hword : (UInt64.ofNat i).toNat = i := ofNat_toNat_of_lt (by omega)
  obtain ⟨⟨store, nextPk⟩, insertedKeys⟩ := state
  obtain ⟨hpk, hkeys, hholds⟩ := h
  change nextPk.toNat = _ at hpk
  obtain ⟨lookup, hlookup, hvalue⟩ := checkedAdd_some (a := config.rows) (b := UInt64.ofNat i) (by omega)
  rw [hword] at hvalue
  obtain ⟨store', hinsert, hnext⟩ := Holds.insert (t := ⟨store, nextPk + 1⟩) ⟨hholds.keys, hholds.lookups⟩
    ⟨nextPk, lookup, payload (UInt64.ofNat i)⟩
    (by change ¬ nextPk.toNat < _; omega)
    (by
      rw [Set.mem_union, Set.mem_Iio, Set.mem_Ici]
      change ¬ (lookup.toNat < _ ∨ _ ≤ lookup.toNat)
      omega)
  refine ⟨(⟨store', nextPk + 1⟩, insertedKeys ++ [nextPk]), ?_, ?_, ?_, hnext.mono (fun n _ => ?_) fun n hn => ?_⟩
  · simp only [insertNext, Table.getNextPk, hlookup, Option.bind_eq_bind, Option.bind_some, hinsert]
    rfl
  · change (nextPk + 1).toNat = _
    rw [toNat_add_of_lt, hpk, UInt64.toNat_one, Nat.add_assoc]
    rw [hpk, UInt64.toNat_one]
    omega
  · rw [List.range_succ, List.map_append, ← hkeys, List.map_singleton, ← hpk, idKey_toNat]
  · rw [Set.mem_insert_iff, Set.mem_Iio, Set.mem_Iio]
    change n = nextPk.toNat ∨ _ ↔ _
    omega
  · rw [Set.mem_insert_iff, Set.mem_union, Set.mem_Iio, Set.mem_Ici] at hn
    rw [Set.mem_union, Set.mem_Iio, Set.mem_Ici]
    change n = lookup.toNat ∨ _ at hn
    omega

theorem insertSteady_some (ht : Updated config config.mutations.toNat t) :
    ∃ state, insertSteady config t = some state ∧ Inserted config config.mutations.toNat state := by
  refine exists_foldlM_range config.mutations.toNat (fun _ _ hi h => insertNext_some hconfig hi h) (t, []) ?_
  obtain ⟨hpk, hholds⟩ := ht
  refine ⟨congrArg UInt64.toNat hpk, rfl, hholds.mono (fun _ _ => Iff.rfl) ?_⟩
  exact Set.union_subset_union_right _ fun n hn => hn.1

/-- **Deletions.** Every inserted key is there until it is deleted. -/
theorem delete_some {i : ℕ} (hi : i < config.mutations.toNat) (h : Deleted config i t) :
    ∃ t', t.delete (idKey (config.rows.toNat + i)) = some t' ∧ Deleted config (i + 1) t' := by
  have hbound := hconfig.updates
  have hword : (idKey (config.rows.toNat + i)).toNat = config.rows.toNat + i := ofNat_toNat_of_lt (by omega)
  obtain ⟨store, hdelete, hnext⟩ := Holds.delete h (idKey (config.rows.toNat + i)) (by
    rw [hword, Set.mem_union, Set.mem_Iio, Set.mem_Ico]
    omega)
  refine ⟨⟨store, t.nextPk⟩, hdelete, hnext.mono (fun n _ => ?_) (Set.subset_univ _)⟩
  rw [hword, Set.mem_sdiff, Set.mem_singleton_iff, Set.mem_union, Set.mem_union, Set.mem_Iio, Set.mem_Ico, Set.mem_Ico]
  omega

theorem deleteSteady_some {state : Table × List UInt64} (h : Inserted config config.mutations.toNat state) :
    ∃ t', deleteSteady state.1 state.2 = some t' := by
  obtain ⟨-, hkeys, hholds⟩ := h
  have hstart : Deleted config 0 state.1 := hholds.mono (fun n _ => by
    rw [Set.mem_union, Set.mem_Iio, Set.mem_Iio, Set.mem_Ico]
    omega) (Set.subset_univ _)
  obtain ⟨t', hdelete, -⟩ := exists_foldlM_range config.mutations.toNat (fun _ _ hi h => delete_some hconfig hi h)
    state.1 hstart
  exact ⟨t', by rw [deleteSteady, hkeys, List.foldlM_map]; exact hdelete⟩

end Mutations

/-! ## The whole run -/

def ranges (config : Config) : List (UInt64 × String) :=
  [(1, "unique_range_1"), (8, "unique_range_8"), (64, "unique_range_64"), (1024, "unique_range_1024"),
    (config.rows, "unique_range_full")]

/-- the lines of a run that no assertion stops -/
def phases (config : Config) : List Phase :=
  [⟨"insert_initial", config.rows⟩, ⟨"primary_point_hit", config.operations⟩,
    ⟨"unique_point_hit", config.operations⟩] ++
  (ranges config).flatMap (fun range => if range.1 ≤ config.rows then [⟨range.2, config.rangeOperations⟩] else []) ++
  [⟨"primary_point_miss", config.operations⟩, ⟨"unique_point_miss", config.operations⟩,
    ⟨"update_unique", config.mutations⟩, ⟨"insert_steady", config.mutations⟩, ⟨"delete_steady", config.mutations⟩]

theorem rows_pos {config : Config} (h : config.validate = .ok ()) : 0 < config.rows.toNat := by
  unfold Config.validate at h
  split_ifs at h with hzero
  exact toNat_pos_of_ne fun hrows => hzero (Or.inl hrows)

/-- **The phases hold.** Every expectation of every phase holds: all point hits are found, every range that fits has its
width, all misses miss, no update and no insert collides on the lookup column, and every deletion hits. -/
theorem runBackend_some (config : Config) (hconfig : config.validate = .ok ())
    (hupdates : config.rows.toNat + 2 * config.mutations.toNat < 2 ^ 64)
    (hmisses : 2 * config.rows.toNat + config.mutations.toNat < 2 ^ 64) (hrows : config.rows.toNat ≤ 2 ^ 63) :
    runBackend config = some (phases config) := by
  have hbounded : config.Bounded := ⟨rows_pos hconfig, hupdates, hmisses, hrows⟩
  obtain ⟨loaded, hload, hloaded⟩ := insertInitial_some config
  obtain ⟨primary, hprimary⟩ := pointHits_some hbounded fun key hk => ⟨_, hloaded.select hk⟩
  obtain ⟨unique, hunique⟩ := pointHits_some hbounded fun key hk => ⟨_, hloaded.selectByLookup hk⟩
  have hprimaryMiss := pointMisses_some config (primaryMissKey_miss hloaded hbounded)
  have huniqueMiss := pointMisses_some config (uniqueMissKey_miss hloaded hbounded)
  obtain ⟨updated, hupdate, hupdated⟩ := updateUnique_some hbounded hloaded
  obtain ⟨inserted, hinsert, hinserted⟩ := insertSteady_some hbounded hupdated
  obtain ⟨deleted, hdelete⟩ := deleteSteady_some hbounded hinserted
  simp only [runBackend, hload, hprimary, hunique, uniqueRange_some hloaded hbounded, hprimaryMiss, huniqueMiss,
    hupdate, hinsert, hdelete, Option.bind_eq_bind, Option.bind_some]
  simp [phases, ranges]

/-- more mutations than rows -/
theorem runBackend_some_wrapping : runBackend ⟨3, 5, 2, 7, 128, 1⟩ = some [⟨"insert_initial", 3⟩,
    ⟨"primary_point_hit", 5⟩, ⟨"unique_point_hit", 5⟩, ⟨"unique_range_1", 2⟩, ⟨"unique_range_full", 2⟩,
    ⟨"primary_point_miss", 5⟩, ⟨"unique_point_miss", 5⟩, ⟨"update_unique", 7⟩, ⟨"insert_steady", 7⟩,
    ⟨"delete_steady", 7⟩] :=
  runBackend_some ⟨3, 5, 2, 7, 128, 1⟩ (by decide) (by decide) (by decide) (by decide)

end WtBenchmarks.IndexBackends.Phases
