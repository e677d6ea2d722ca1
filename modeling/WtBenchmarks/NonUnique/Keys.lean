/-
The non-unique index benchmark (`src/nonunique.rs`): one key derivation, two representations of the key.

A seed is hashed to 128 bits; one arm indexes the hash, another the 32 hexadecimal digits it is written with. A driver
is a table with an autoincrement key and a non-unique index over its key column, generic in the key's representation; a
benchmark fills it, prepares rows and inserts them.

- `hashOf_injective`: the multiplier of the hash is even, but seeds are short enough;
- `fromSeed_compare`: the digits compare as the hashes do;
- `key_structure`: both, and that the arms index the same groups in the same order, whatever is inserted.
-/
import WtBenchmarks.Core.GroupTable
import WtBenchmarks.Core.Mixer
import WtBenchmarks.Core.Numeral
import WtBenchmarks.Core.Presents
import WtBenchmarks.Core.Word

namespace WtBenchmarks.NonUnique

/-! ## Keys -/

abbrev U128 := BitVec 128

def hashOf (seed : UInt64) : U128 :=
  let spread := seed.toBitVec.setWidth 128 * 0x9E3779B97F4A7C15F39CC0605CEDC834
  spread ^^^ (spread >>> 64)

class NonUniqueKey (K : Type) where
  fromSeed : UInt64 → K

/-- `format!("{:032x}")` -/
def render (hash : U128) : String := String.ofList (Numeral.padded 16 32 hash.toNat)

instance : NonUniqueKey U128 := ⟨hashOf⟩

instance : NonUniqueKey String := ⟨fun seed => render (hashOf seed)⟩

/-! ## Drivers -/

structure AdjacencyRow (K : Type) where
  id : UInt64
  source : K
  payload : UInt64

/-- a driver, with the next autoincrement key of its table -/
structure Adjacency (K : Type) [Ord K] [Std.TransOrd K] where
  table : GroupTable UInt64 K (AdjacencyRow K) AdjacencyRow.source
  nextPk : UInt64
  keys : UInt64

section Driver

variable {K : Type} [Ord K] [Std.TransOrd K] [Std.LawfulEqOrd K] [DecidableEq K] [NonUniqueKey K]

/-- an insert that is refused is a panic -/
def Adjacency.insertRow (driver : Adjacency K) (row : AdjacencyRow K) : Option (Adjacency K) :=
  if h : row.id ∈ driver.table.rows then none
  else some { driver with table := driver.table.insertNew row.id row h }

def Adjacency.populated (fanOut keys : UInt64) : Option (Adjacency K) :=
  (List.range keys.toNat).foldlM (fun driver seed =>
    (List.range fanOut.toNat).foldlM (fun (driver : Adjacency K) copy =>
      { driver with nextPk := driver.nextPk + 1 }.insertRow
        ⟨driver.nextPk, NonUniqueKey.fromSeed (UInt64.ofNat seed), UInt64.ofNat copy⟩) driver)
    ⟨GroupTable.empty AdjacencyRow.source, 0, keys⟩

def Adjacency.nextRow (driver : Adjacency K) (seed : UInt64) : Option (AdjacencyRow K × Adjacency K) := do
  let seed ← checkedMod seed driver.keys
  some (⟨driver.nextPk, NonUniqueKey.fromSeed seed, u64Max⟩, { driver with nextPk := driver.nextPk + 1 })

def Adjacency.selectByKey (driver : Adjacency K) (seed : UInt64) : Option ℕ := do
  let seed ← checkedMod seed driver.keys
  some (driver.table.selectByGroup (NonUniqueKey.fromSeed seed)).length

/-! ## Benchmarks -/

/-- a benchmark prepares rows in batches, and inserts them afterwards -/
inductive Op where
  | prepare (seed : UInt64)
  | insert

/-- a driver and the rows that are prepared -/
structure Bench (K : Type) [Ord K] [Std.TransOrd K] where
  driver : Adjacency K
  prepared : List (AdjacencyRow K)

def Bench.step (bench : Bench K) : Op → Option (Bench K)
  | .prepare seed => do
    let (row, driver) ← bench.driver.nextRow seed
    some ⟨driver, bench.prepared ++ [row]⟩
  | .insert =>
    match bench.prepared with
    | [] => some bench
    | row :: prepared => do
      let driver ← bench.driver.insertRow row
      some ⟨driver, prepared⟩

def Bench.run (fanOut keys : UInt64) (ops : List Op) : Option (Bench K) := do
  let driver ← Adjacency.populated fanOut keys
  ops.foldlM Bench.step ⟨driver, []⟩

end Driver

/-! ## The hash -/

/-- the multiplier is four times an odd number -/
theorem multiplier_eq : (0x9E3779B97F4A7C15F39CC0605CEDC834 : U128).toNat =
    2 ^ 2 * 52576517132350718291434092471003083277 := rfl

theorem hashOf_injective : Function.Injective hashOf := by
  intro a b h
  have hval := congrArg BitVec.toNat h
  simp only [hashOf, BitVec.toNat_xor, BitVec.toNat_ushiftRight] at hval
  have hproduct := Mixer.xor_shiftRight_injective (by decide) hval
  have hwide : ∀ w : UInt64, (w.toBitVec.setWidth 128).toNat = w.toNat := by
    intro w
    have hw := w.toNat_lt
    rw [BitVec.toNat_setWidth, UInt64.toNat_toBitVec, Nat.mod_eq_of_lt (by omega)]
  rw [BitVec.toNat_mul, BitVec.toNat_mul, hwide, hwide, multiplier_eq] at hproduct
  exact UInt64.toNat_inj.1 (Mixer.mul_even_injective (l := 64) (by decide) (by decide) a.toNat_lt b.toNat_lt hproduct)

/-! ## The representations -/

theorem render_compare (a b : U128) : compare (render a) (render b) = compare a b := by
  have hsmall : ∀ k : U128, k.toNat < 16 ^ (31 + 1) := fun k => k.isLt
  have hnat : compare a.toNat b.toNat = compare a b := by
    show compareOfLessAndEq a.toNat b.toNat = compareOfLessAndEq a b
    simp only [compareOfLessAndEq, BitVec.lt_def, BitVec.toNat_inj]
  exact (Numeral.paddedString_compare (by decide) (by decide) (hsmall a) (hsmall b)).trans hnat

/-- **Key order.** -/
theorem fromSeed_compare (a b : UInt64) :
    compare (NonUniqueKey.fromSeed a : String) (NonUniqueKey.fromSeed b) =
      compare (NonUniqueKey.fromSeed a : U128) (NonUniqueKey.fromSeed b) := render_compare _ _

/-! ## Two arms -/

section Arms

variable {K K' : Type} [Ord K] [Std.TransOrd K] [Std.LawfulEqOrd K] [DecidableEq K] [NonUniqueKey K]
  [Ord K'] [Std.TransOrd K'] [Std.LawfulEqOrd K'] [DecidableEq K'] [NonUniqueKey K'] {key : K → K'}

/-- a row with its key in the other representation -/
def AdjacencyRow.map (key : K → K') (row : AdjacencyRow K) : AdjacencyRow K' := ⟨row.id, key row.source, row.payload⟩

omit [Ord K] [Std.TransOrd K] [Std.LawfulEqOrd K] [DecidableEq K] [NonUniqueKey K] [Ord K'] [Std.TransOrd K']
  [Std.LawfulEqOrd K'] [DecidableEq K'] [NonUniqueKey K'] in
@[simp] theorem AdjacencyRow.map_id (row : AdjacencyRow K) : (row.map key).id = row.id := rfl

/-- the rows of one arm are those of the other, and so are the groups of the index -/
structure SameTable (key : K → K') (other : Adjacency K') (driver : Adjacency K) : Prop where
  rows : ∀ id : UInt64, other.table.rows[id]? = driver.table.rows[id]?.map (AdjacencyRow.map key)
  index : Presents key some other.table.index driver.table.index
  nextPk : other.nextPk = driver.nextPk
  keys : other.keys = driver.keys

variable {other : Adjacency K'} {driver : Adjacency K}

omit [Std.LawfulEqOrd K] [DecidableEq K] [NonUniqueKey K] [Std.LawfulEqOrd K'] [DecidableEq K'] [NonUniqueKey K'] in
theorem SameTable.bucketOf (h : SameTable key other driver) (k : K) :
    bucketOf other.table.index (key k) = bucketOf driver.table.index k := by
  have hget := h.index.get k
  unfold WtBenchmarks.bucketOf
  cases hdriver : driver.table.index[k]? with
  | none =>
    rw [hdriver, Option.map_none, Option.map_eq_none_iff] at hget
    rw [hget]
  | some ids =>
    obtain ⟨ids', hids, hview⟩ := h.index.get_some hdriver
    rw [hids, Option.some.inj hview]

omit [NonUniqueKey K] [NonUniqueKey K'] in
theorem SameTable.insertRow (hkey : Function.Injective key) (h : SameTable key other driver) (row : AdjacencyRow K) :
    Option.Rel (SameTable key) (other.insertRow (row.map key)) (driver.insertRow row) := by
  have hmem : (row.map key).id ∈ other.table.rows ↔ row.id ∈ driver.table.rows := by
    rw [AdjacencyRow.map_id, Std.ExtTreeMap.mem_iff_isSome_getElem?, Std.ExtTreeMap.mem_iff_isSome_getElem?, h.rows,
      Option.isSome_map]
  unfold Adjacency.insertRow
  by_cases hrow : row.id ∈ driver.table.rows
  · rw [dif_pos hrow, dif_pos (hmem.2 hrow)]
    exact Option.Rel.none
  · rw [dif_neg hrow, dif_neg fun hc => hrow (hmem.1 hc)]
    refine Option.Rel.some ⟨fun id => ?_, ?_, h.nextPk, h.keys⟩
    · simp only [GroupTable.insertNew_rows, TreeMap.get_insert, AdjacencyRow.map_id]
      by_cases hid : row.id = id
      · rw [if_pos hid, if_pos hid]
        rfl
      · rw [if_neg hid, if_neg hid, h.rows]
    · have hview : some (row.id :: WtBenchmarks.bucketOf other.table.index (key row.source)) =
          some (row.id :: WtBenchmarks.bucketOf driver.table.index row.source) := by rw [h.bucketOf]
      exact h.index.insert hkey row.source hview

variable (hseed : ∀ seed, NonUniqueKey.fromSeed seed = key (NonUniqueKey.fromSeed seed))

include hseed

theorem populated_same (hkey : Function.Injective key) (fanOut keys : UInt64) :
    Option.Rel (SameTable key) (Adjacency.populated fanOut keys) (Adjacency.populated fanOut keys) := by
  refine rel_foldlM _ (fun other driver seed h => rel_foldlM _ (fun other driver copy h => ?_) h) ?_
  · have hnext : SameTable key { other with nextPk := other.nextPk + 1 } { driver with nextPk := driver.nextPk + 1 } :=
      ⟨h.rows, h.index, by rw [h.nextPk], h.keys⟩
    have hrel := hnext.insertRow hkey ⟨driver.nextPk, NonUniqueKey.fromSeed (UInt64.ofNat seed), UInt64.ofNat copy⟩
    rw [AdjacencyRow.map, ← hseed, ← h.nextPk] at hrel
    rw [← h.nextPk]
    exact hrel
  · exact ⟨fun id => by simp [GroupTable.empty], Presents.empty, rfl, rfl⟩

/-- the benchmarks of two arms, at the same point -/
def SameBench (key : K → K') (other : Bench K') (bench : Bench K) : Prop :=
  SameTable key other.driver bench.driver ∧ other.prepared = bench.prepared.map (AdjacencyRow.map key)

theorem SameBench.step (hkey : Function.Injective key) {other : Bench K'} {bench : Bench K}
    (h : SameBench key other bench) (op : Op) : Option.Rel (SameBench key) (other.step op) (bench.step op) := by
  obtain ⟨htable, hprepared⟩ := h
  cases op with
  | prepare seed =>
    simp only [Bench.step, Adjacency.nextRow, htable.keys]
    cases checkedMod seed bench.driver.keys with
    | none => exact Option.Rel.none
    | some seed =>
      refine Option.Rel.some ⟨⟨htable.rows, htable.index, by rw [htable.nextPk], rfl⟩, ?_⟩
      rw [hprepared, List.map_append, htable.nextPk, hseed]
      rfl
  | insert =>
    simp only [Bench.step, hprepared]
    cases bench.prepared with
    | nil => exact Option.Rel.some ⟨htable, hprepared⟩
    | cons row prepared =>
      exact rel_bind (htable.insertRow hkey row) fun other driver hrow => Option.Rel.some ⟨hrow, rfl⟩

theorem run_same (hkey : Function.Injective key) (fanOut keys : UInt64) (ops : List Op) :
    Option.Rel (SameBench key) (Bench.run fanOut keys ops) (Bench.run fanOut keys ops) :=
  rel_bind (populated_same hseed hkey fanOut keys) fun _ _ h =>
    rel_foldlM ops (fun _ _ op hbench => hbench.step hseed hkey op) ⟨h, rfl⟩

omit [Std.LawfulEqOrd K] [DecidableEq K] [Std.LawfulEqOrd K'] [DecidableEq K'] in
theorem SameTable.selectByKey (h : SameTable key other driver) (seed : UInt64) :
    other.selectByKey seed = driver.selectByKey seed := by
  simp only [Adjacency.selectByKey, h.keys]
  cases checkedMod seed driver.keys with
  | none => rfl
  | some seed =>
    have hrows : ∀ ids : List UInt64, (ids.filterMap fun id => other.table.rows[id]?).length =
        (ids.filterMap fun id => driver.table.rows[id]?).length := by
      intro ids
      have hmap : (ids.filterMap fun id => other.table.rows[id]?) =
          (ids.filterMap fun id => driver.table.rows[id]?).map (AdjacencyRow.map key) := by
        rw [List.map_filterMap]
        exact List.filterMap_congr fun id _ => h.rows id
      rw [hmap, List.length_map]
    simp only [Option.bind_eq_bind, Option.bind_some, GroupTable.selectByGroup, hseed, h.bucketOf, hrows]

end Arms

/-! ## Main result -/

/-- what the string arm has after a benchmark, against the `u128` arm -/
structure SameGroups (other : Bench String) (bench : Bench U128) : Prop where
  /-- the index lists the same groups of rows, in the same order -/
  index : other.driver.table.index.toList = bench.driver.table.index.toList.map fun e => (render e.1, e.2)
  rows : ∀ id : UInt64, other.driver.table.rows[id]? = bench.driver.table.rows[id]?.map (AdjacencyRow.map render)
  select : ∀ seed, other.driver.selectByKey seed = bench.driver.selectByKey seed

theorem render_injective : Function.Injective render := by
  intro a b h
  have hcompare := render_compare a b
  rw [h, Std.compare_self] at hcompare
  exact Std.LawfulEqOrd.compare_eq_iff_eq.1 hcompare.symm

theorem SameBench.sameGroups {other : Bench String} {bench : Bench U128} (h : SameBench render other bench) :
    SameGroups other bench := by
  have hlist := h.1.index.toList_eq render_compare
  refine ⟨?_, h.1.rows, h.1.selectByKey fun _ => rfl⟩
  have hunview := congrArg (List.map fun p : String × Option (List UInt64) => (p.1, p.2.getD [])) hlist
  simpa [List.map_map, Function.comp_def] using hunview

/-- **One key structure.** Different seeds have different hashes, and string keys compare as `u128` keys do. Whatever a
benchmark prepares and inserts, either both arms panic, or they index the same groups in the same order. -/
theorem key_structure :
    (∀ a b, hashOf a = hashOf b → a = b) ∧
    (∀ a b, compare (NonUniqueKey.fromSeed a : String) (NonUniqueKey.fromSeed b) =
      compare (NonUniqueKey.fromSeed a : U128) (NonUniqueKey.fromSeed b)) ∧
    ∀ (fanOut keys : UInt64) (ops : List Op),
      Option.Rel SameGroups (Bench.run fanOut keys ops) (Bench.run fanOut keys ops) := by
  refine ⟨fun a b h => hashOf_injective h, fromSeed_compare, fun fanOut keys ops => ?_⟩
  exact rel_mono (fun _ _ h => h.sameGroups) (run_same (fun _ => rfl) render_injective fanOut keys ops)

theorem key_structure_seeds : hashOf 1 ≠ hashOf 2 := fun h => absurd (key_structure.1 1 2 h) (by decide)

end WtBenchmarks.NonUnique
