/-
The agentcode storage profile (`src/codegraph.rs`): one generation is published into three tables, each with a unique
index over a digest column, then scanned and walked.

The digests come from a mixer, `spread`, which is not injective: its first step sets the lowest bit of a product, so it
identifies words whose distance is the inverse of the factor. The seeds of one generation are never that far apart.

A table is a map with its unique index; a non-unique index answers as a scan of the rows. A refused batch is a panic.

- `spread_inj_near`: `spread` separates the words of a block of `2 ^ 48`.
- `batch_eq`: the rows a publish builds, one for each file and ordinal.
- `publish_complete`: what a publish writes, and what a scan and a walk then find.
-/
import Mathlib.Data.Nat.Bitwise
import WtBenchmarks.Core.Mixer
import WtBenchmarks.Core.UniqueTable
import WtBenchmarks.Core.Word

namespace WtBenchmarks.Codegraph

/-! ## Model -/

abbrev U128 := BitVec 128

local instance : Std.TransOrd U128 := inferInstanceAs (Std.TransOrd (BitVec 128))

local instance : Std.LawfulEqOrd U128 := inferInstanceAs (Std.LawfulEqOrd (BitVec 128))

/-- `SYMBOLS_PER_FILE` -/
def symbolsPerFile : UInt64 := 18

/-- `EDGES_PER_FILE` -/
def edgesPerFile : UInt64 := 18

def rowsPerGeneration (files : UInt64) : Option UInt64 := checkedMul files (symbolsPerFile * 2 + edgesPerFile)

def rotateLeft (s n : UInt64) : UInt64 := (s <<< n) ||| (s >>> (64 - n))

def spread (seed : UInt64) : U128 :=
  let s := seed * 0x9E3779B97F4A7C15 ||| 1
  let s := s ^^^ (s >>> 30)
  let s := s * 0xBF58476D1CE4E5B9
  let s := s ^^^ (s >>> 27)
  let s := s * 0x94D049BB133111EB
  let s := s ^^^ (s >>> 31)
  Mixer.join s (rotateLeft s 17)

def symbolName (file ordinal : ℕ) : String := s!"crate::module_{file}::function_{ordinal}_normalized"

/-- an ordinal is below `EDGES_PER_FILE`, where its arithmetic does not overflow -/
def edgeBlob (file : UInt64) (ordinal : ℕ) : String :=
  let source := file.toNat
  let target := (file + 1).toNat
  s!"\x7b\"kind\":\"calls\",\"source\":\"module_{source}::sym_{ordinal}\"," ++
    s!"\"target\":\"module_{target}::sym_{ordinal + 3}\",\"range\":[{ordinal * 40},{ordinal * 40 + 32}]\x7d"

structure SymbolPostingRow where
  id : UInt64
  postingHash : U128
  snapshotKey : U128
  normalizedName : String
  recordsBlobHigh : U128
  recordsBlobLow : U128

structure SymbolLexemeRow where
  id : UInt64
  lexemeKey : U128
  snapshotKey : U128
  normalizedName : String
  postingHash : U128

structure DependencyFactRow where
  id : UInt64
  edgeHash : U128
  snapshotKey : U128
  sourceKey : U128
  targetKey : U128
  edgeBlob : String

/-- a table with an autoincrement key and a unique index -/
structure AutoTable (ρ : Type) (unique : ρ → U128) where
  nextPk : UInt64
  table : UniqueTable UInt64 U128 ρ unique

/-- the rows of a table, through its primary key -/
def AutoTable.rows {ρ : Type} {unique : ρ → U128} (t : AutoTable ρ unique) : List ρ := t.table.rows.toList.map Prod.snd

structure Generation where
  key : U128
  files : UInt64

def Generation.new (ordinal files : UInt64) : Generation := ⟨spread (0xC0DE0000 ^^^ ordinal), files⟩

def Generation.probeNode (generation : Generation) : U128 := spread (0x4E0D ^^^ (generation.files / 2))

structure Store where
  postings : AutoTable SymbolPostingRow SymbolPostingRow.postingHash
  lexemes : AutoTable SymbolLexemeRow SymbolLexemeRow.lexemeKey
  edges : AutoTable DependencyFactRow DependencyFactRow.edgeHash

/-- the vectors of `publish`, and the next primary keys of the tables -/
structure Batch where
  postings : List SymbolPostingRow
  lexemes : List SymbolLexemeRow
  edges : List DependencyFactRow
  nextPosting : UInt64
  nextLexeme : UInt64
  nextEdge : UInt64

/-- `generation.key as u64 ^ (file << 8) ^ ordinal` -/
def seedOf (key : U128) (file ordinal : ℕ) : UInt64 :=
  UInt64.ofBitVec (key.setWidth 64) ^^^ (UInt64.ofNat file <<< 8) ^^^ UInt64.ofNat ordinal

def postingRow (generation : Generation) (file ordinal : ℕ) (id : UInt64) : SymbolPostingRow :=
  let seed := seedOf generation.key file ordinal
  ⟨id, spread seed, generation.key, symbolName file ordinal, spread (seed ^^^ 0xB10B), spread (seed ^^^ 0xB10C)⟩

def lexemeRow (generation : Generation) (file ordinal : ℕ) (id : UInt64) : SymbolLexemeRow :=
  let seed := seedOf generation.key file ordinal
  ⟨id, spread (seed ^^^ 0x1EFE), generation.key, symbolName file ordinal, spread seed⟩

def edgeRow (generation : Generation) (file ordinal : ℕ) (id : UInt64) : DependencyFactRow :=
  let seed := seedOf generation.key file ordinal
  ⟨id, spread (seed ^^^ 0xED6E), generation.key, spread (0x4E0D ^^^ UInt64.ofNat file),
    spread (0x4E0D ^^^ (UInt64.ofNat file + 1)), edgeBlob (UInt64.ofNat file) ordinal⟩

def symbolTurn (generation : Generation) (file : ℕ) (b : Batch) (ordinal : ℕ) : Batch :=
  { b with
    postings := b.postings ++ [postingRow generation file ordinal b.nextPosting]
    nextPosting := b.nextPosting + 1
    lexemes := b.lexemes ++ [lexemeRow generation file ordinal b.nextLexeme]
    nextLexeme := b.nextLexeme + 1 }

def edgeTurn (generation : Generation) (file : ℕ) (b : Batch) (ordinal : ℕ) : Batch :=
  { b with
    edges := b.edges ++ [edgeRow generation file ordinal b.nextEdge]
    nextEdge := b.nextEdge + 1 }

def fileTurn (generation : Generation) (b : Batch) (file : ℕ) : Batch :=
  let b := (List.range symbolsPerFile.toNat).foldl (symbolTurn generation file) b
  (List.range edgesPerFile.toNat).foldl (edgeTurn generation file) b

/-- the rows of a generation, built before any is inserted -/
def Store.batch (store : Store) (generation : Generation) : Batch :=
  (List.range generation.files.toNat).foldl (fileTurn generation)
    ⟨[], [], [], store.postings.nextPk, store.lexemes.nextPk, store.edges.nextPk⟩

def Store.publish (store : Store) (generation : Generation) : Option (Store × UInt64) := do
  let b := store.batch generation
  let written := UInt64.ofNat (b.postings.length + b.lexemes.length + b.edges.length)
  let postings ← store.postings.table.insertMany SymbolPostingRow.id b.postings
  let lexemes ← store.lexemes.table.insertMany SymbolLexemeRow.id b.lexemes
  let edges ← store.edges.table.insertMany DependencyFactRow.id b.edges
  some (⟨⟨b.nextPosting, postings⟩, ⟨b.nextLexeme, lexemes⟩, ⟨b.nextEdge, edges⟩⟩, written)

/-- `select_by_snapshot_key` -/
def Store.selectBySnapshotKey (store : Store) (key : U128) : List SymbolLexemeRow :=
  store.lexemes.rows.filter fun r => r.snapshotKey = key

def Store.selectBySourceKey (store : Store) (key : U128) : List DependencyFactRow :=
  store.edges.rows.filter fun r => r.sourceKey = key

def Store.selectByTargetKey (store : Store) (key : U128) : List DependencyFactRow :=
  store.edges.rows.filter fun r => r.targetKey = key

def Store.generationScan (store : Store) (generation : Generation) : ℕ :=
  (store.selectBySnapshotKey generation.key).length

def Store.dependencyWalk (store : Store) (node : U128) : ℕ :=
  (store.selectBySourceKey node).length + (store.selectByTargetKey node).length

/-- a store without rows, whose tables number their next rows from anywhere -/
def Store.new (nextPosting nextLexeme nextEdge : UInt64) : Store :=
  ⟨⟨nextPosting, UniqueTable.empty _⟩, ⟨nextLexeme, UniqueTable.empty _⟩, ⟨nextEdge, UniqueTable.empty _⟩⟩

/-! ## Digests -/

/-- the steps of `spread` after its first one lose nothing -/
theorem spread_eq_iff {x y : UInt64} :
    spread x = spread y ↔ x * 0x9E3779B97F4A7C15 ||| 1 = y * 0x9E3779B97F4A7C15 ||| 1 := by
  constructor
  · intro h
    exact Mixer.xorShiftMuls_injective (by decide) (by decide) (by decide) (by decide) (by decide)
      (Mixer.join_injective h)
  · intro h
    simp only [spread, h]

/-- the factor of `spread` and its inverse -/
theorem spread_factor : (0x9E3779B97F4A7C15 : UInt64) * 0xF1DE83E19937733D = 1 := by decide

/-- **Digests of a block.** `spread` separates words that agree above the lowest 48 bits. -/
theorem spread_inj_near {x y : UInt64} (hblock : x.toNat / 2 ^ 48 = y.toNat / 2 ^ 48) (h : spread x = spread y) :
    x = y := Mixer.mulOrOne_inj_near spread_factor (by decide) (by decide) hblock (spread_eq_iff.1 h)

/-- the part of a seed that depends on the row -/
def offset (file ordinal : ℕ) : UInt64 := UInt64.ofNat file <<< 8 ^^^ UInt64.ofNat ordinal

theorem seedOf_eq (key : U128) (file ordinal : ℕ) :
    seedOf key file ordinal = UInt64.ofBitVec (key.setWidth 64) ^^^ offset file ordinal := UInt64.xor_assoc ..

variable {file file' ordinal ordinal' : ℕ}

theorem offset_toNat (hfile : file < 2 ^ 40) (hordinal : ordinal < 2 ^ 8) :
    (offset file ordinal).toNat = file <<< 8 ^^^ ordinal := by
  have hshift : (UInt64.ofNat file <<< 8).toNat = file <<< 8 := by
    rw [UInt64.toNat_shiftLeft, ofNat_toNat_of_lt (by omega), show (8 : UInt64).toNat % 64 = 8 from rfl,
      Nat.mod_eq_of_lt (by rw [Nat.shiftLeft_eq]; omega)]
  rw [offset, UInt64.toNat_xor, hshift, ofNat_toNat_of_lt (by omega)]

theorem offset_lt (hfile : file < 2 ^ 40) (hordinal : ordinal < 2 ^ 8) : (offset file ordinal).toNat < 2 ^ 48 := by
  rw [offset_toNat hfile hordinal]
  exact Nat.xor_lt_two_pow (by rw [Nat.shiftLeft_eq]; omega) (by omega)

theorem offset_inj (hfile : file < 2 ^ 40) (hfile' : file' < 2 ^ 40) (hordinal : ordinal < 2 ^ 8)
    (hordinal' : ordinal' < 2 ^ 8) (h : offset file ordinal = offset file' ordinal') :
    file = file' ∧ ordinal = ordinal' := by
  have hval := congrArg UInt64.toNat h
  rw [offset_toNat hfile hordinal, offset_toNat hfile' hordinal'] at hval
  have hhigh : file = file' := by
    have hshift := congrArg (· >>> 8) hval
    simp only [Nat.shiftRight_xor_distrib, Nat.shiftLeft_shiftRight] at hshift
    rwa [Nat.shiftRight_eq_div_pow, Nat.shiftRight_eq_div_pow, Nat.div_eq_of_lt hordinal, Nat.div_eq_of_lt hordinal',
      Nat.xor_zero, Nat.xor_zero] at hshift
  subst hhigh
  exact ⟨rfl, Nat.xor_right_injective hval⟩

/-- the digests of a generation's rows under a short mask -/
theorem digest_inj {key : U128} {mask : UInt64} (hmask : mask.toNat < 2 ^ 48) (hfile : file < 2 ^ 40)
    (hfile' : file' < 2 ^ 40) (hordinal : ordinal < 2 ^ 8) (hordinal' : ordinal' < 2 ^ 8)
    (h : spread (seedOf key file ordinal ^^^ mask) = spread (seedOf key file' ordinal' ^^^ mask)) :
    file = file' ∧ ordinal = ordinal' := by
  have hblock : ∀ f o, f < 2 ^ 40 → o < 2 ^ 8 → (seedOf key f o ^^^ mask).toNat / 2 ^ 48 =
      (UInt64.ofBitVec (key.setWidth 64)).toNat / 2 ^ 48 := by
    intro f o hf ho
    rw [seedOf_eq, UInt64.xor_assoc]
    refine Mixer.xor_block ?_
    rw [UInt64.toNat_xor]
    exact Nat.xor_lt_two_pow (offset_lt hf ho) hmask
  have hseed := spread_inj_near ((hblock _ _ hfile hordinal).trans (hblock _ _ hfile' hordinal').symm) h
  rw [seedOf_eq, seedOf_eq] at hseed
  have hoffset := (UInt64.xor_right_inj _).1 ((UInt64.xor_left_inj _).1 hseed)
  exact offset_inj hfile hfile' hordinal hordinal' hoffset

/-! ## The rows of a publish -/

/-- rows numbered from `p` on -/
def numbered {ρ : Type} (row : ℕ → UInt64 → ρ) (p : UInt64) (n : ℕ) : List ρ :=
  (List.range n).map fun i => row i (p + UInt64.ofNat i)

section numbered

variable {ρ : Type} (row : ℕ → UInt64 → ρ) (p : UInt64)

theorem numbered_succ (n : ℕ) : numbered row p (n + 1) = numbered row p n ++ [row n (p + UInt64.ofNat n)] := by
  rw [numbered, List.range_succ, List.map_append]
  rfl

theorem numbered_add (a b : ℕ) :
    numbered row p (a + b) = numbered row p a ++ numbered (fun i => row (a + i)) (p + UInt64.ofNat a) b := by
  rw [numbered, List.range_add, List.map_append, List.map_map]
  congr 1
  refine List.map_congr_left fun i _ => ?_
  rw [Function.comp_apply, UInt64.ofNat_add, UInt64.add_assoc]

theorem numbered_congr {row row' : ℕ → UInt64 → ρ} {n : ℕ} (h : ∀ i < n, row i = row' i) :
    numbered row p n = numbered row' p n :=
  List.map_congr_left fun i hi => by rw [h i (List.mem_range.1 hi)]

/-- a row of the files' rows, `18` a file -/
def byFile (row : ℕ → ℕ → UInt64 → ρ) (n : ℕ) : UInt64 → ρ := row (n / 18) (n % 18)

theorem numbered_byFile (row : ℕ → ℕ → UInt64 → ρ) (files : ℕ) :
    numbered (byFile row) p ((files + 1) * 18) =
      numbered (byFile row) p (files * 18) ++ numbered (row files) (p + UInt64.ofNat (files * 18)) 18 := by
  rw [Nat.succ_mul, numbered_add]
  congr 1
  refine numbered_congr _ fun i hi => ?_
  rw [byFile, show (files * 18 + i) / 18 = files by omega, show (files * 18 + i) % 18 = i by omega]

end numbered

variable (generation : Generation)

theorem symbols_loop (b : Batch) (n : ℕ) :
    (List.range n).foldl (symbolTurn generation file) b =
      { b with
        postings := b.postings ++ numbered (postingRow generation file) b.nextPosting n
        nextPosting := b.nextPosting + UInt64.ofNat n
        lexemes := b.lexemes ++ numbered (lexemeRow generation file) b.nextLexeme n
        nextLexeme := b.nextLexeme + UInt64.ofNat n } := by
  induction n with
  | zero => simp [numbered]
  | succ n ih =>
    rw [List.range_succ, List.foldl_append, ih, numbered_succ, numbered_succ, UInt64.ofNat_add]
    simp only [List.foldl_cons, List.foldl_nil, symbolTurn, List.append_assoc, UInt64.add_assoc]
    rfl

theorem edges_loop (b : Batch) (n : ℕ) :
    (List.range n).foldl (edgeTurn generation file) b =
      { b with
        edges := b.edges ++ numbered (edgeRow generation file) b.nextEdge n
        nextEdge := b.nextEdge + UInt64.ofNat n } := by
  induction n with
  | zero => simp [numbered]
  | succ n ih =>
    rw [List.range_succ, List.foldl_append, ih, numbered_succ, UInt64.ofNat_add]
    simp only [List.foldl_cons, List.foldl_nil, edgeTurn, List.append_assoc, UInt64.add_assoc]
    rfl

/-- the rows of the first files -/
def rowsOf (p l e : UInt64) (n : ℕ) : Batch :=
  ⟨numbered (byFile (postingRow generation)) p n, numbered (byFile (lexemeRow generation)) l n,
    numbered (byFile (edgeRow generation)) e n, p + UInt64.ofNat n, l + UInt64.ofNat n, e + UInt64.ofNat n⟩

theorem fileTurn_eq (p l e : UInt64) (file : ℕ) :
    fileTurn generation (rowsOf generation p l e (file * 18)) file = rowsOf generation p l e ((file + 1) * 18) := by
  have hnext : ∀ q : UInt64, q + UInt64.ofNat ((file + 1) * 18) = q + UInt64.ofNat (file * 18) + UInt64.ofNat 18 := by
    intro q
    rw [Nat.succ_mul, UInt64.ofNat_add, UInt64.add_assoc]
  unfold fileTurn rowsOf
  rw [show symbolsPerFile.toNat = 18 from rfl, show edgesPerFile.toNat = 18 from rfl, symbols_loop, edges_loop]
  simp only [numbered_byFile, hnext]

/-- **The rows of a publish:** one of each table for each file and ordinal, numbered from the next primary keys on. -/
theorem batch_eq (store : Store) : store.batch generation =
    rowsOf generation store.postings.nextPk store.lexemes.nextPk store.edges.nextPk
      (generation.files.toNat * 18) := by
  unfold Store.batch
  induction generation.files.toNat with
  | zero => simp [rowsOf, numbered]
  | succ files ih => rw [List.range_succ, List.foldl_append, ih, List.foldl_cons, List.foldl_nil, fileTurn_eq]

/-! ## Uniqueness -/

section unique

variable {ρ α : Type} {row : ℕ → ℕ → UInt64 → ρ} {f : ρ → α} {p : UInt64} {n : ℕ}

theorem numbered_nodup {row : ℕ → UInt64 → ρ}
    (h : ∀ i < n, ∀ j < n, f (row i (p + UInt64.ofNat i)) = f (row j (p + UInt64.ofNat j)) → i = j) :
    ((numbered row p n).map f).Nodup := by
  rw [numbered, List.map_map]
  refine List.nodup_range.map_on fun i hi j hj heq => ?_
  exact h i (List.mem_range.1 hi) j (List.mem_range.1 hj) heq

/-- the primary keys of a publish -/
theorem ids_nodup {id : ρ → UInt64} (hid : ∀ file ordinal w, id (row file ordinal w) = w) (hn : n < 2 ^ 64) :
    ((numbered (byFile row) p n).map id).Nodup := by
  refine numbered_nodup fun i hi j hj heq => ?_
  rw [byFile, byFile, hid, hid, UInt64.add_right_inj] at heq
  rw [← ofNat_toNat_of_lt (hi.trans hn), heq, ofNat_toNat_of_lt (hj.trans hn)]

/-- a digest column -/
theorem digests_nodup {files : ℕ} (hfiles : files < 2 ^ 40) (key : U128) (mask : UInt64) (digest : ρ → U128)
    (hmask : mask.toNat < 2 ^ 48)
    (hdigest : ∀ file ordinal w, digest (row file ordinal w) = spread (seedOf key file ordinal ^^^ mask)) :
    ((numbered (byFile row) p (files * 18)).map digest).Nodup := by
  refine numbered_nodup fun i hi j hj heq => ?_
  rw [byFile, byFile, hdigest, hdigest] at heq
  obtain ⟨hfile, hordinal⟩ := digest_inj hmask (by omega) (by omega) (by omega) (by omega) heq
  omega

end unique

/-! ## Scans and walks -/

theorem count_file {files f : ℕ} (hf : f < files) : (List.range (files * 18)).countP (fun i => i / 18 = f) = 18 := by
  have hsplit : files * 18 = f * 18 + (18 + (files - f - 1) * 18) := by omega
  have hbefore : Nat.count (fun i => i / 18 = f) (f * 18) = 0 := Nat.count_of_forall_not fun i hi => by omega
  have hof : Nat.count (fun i => (f * 18 + i) / 18 = f) 18 = 18 := Nat.count_of_forall fun i hi => by omega
  have hafter : Nat.count (fun i => (f * 18 + (18 + i)) / 18 = f) ((files - f - 1) * 18) = 0 :=
    Nat.count_of_forall_not fun i hi => by omega
  calc (List.range (files * 18)).countP (fun i => i / 18 = f)
      = Nat.count (fun i => i / 18 = f) (f * 18 + (18 + (files - f - 1) * 18)) := by rw [← hsplit]; rfl
    _ = 18 := by rw [Nat.count_add, Nat.count_add, hbefore, hof, hafter]

/-- the rows of a table that hold one file's key -/
theorem select_length {ρ : Type} {rows : List ρ} {row : ℕ → ℕ → UInt64 → ρ} {p : UInt64} {files f : ℕ}
    (hrows : rows.Perm (numbered (byFile row) p (files * 18))) (hf : f < files) {q : ρ → Bool}
    (hq : ∀ file < files, ∀ ordinal w, q (row file ordinal w) = true ↔ file = f) : (rows.filter q).length = 18 := by
  rw [← List.countP_eq_length_filter, hrows.countP_eq, numbered, List.countP_map]
  refine Eq.trans (List.countP_congr fun i hi => ?_) (count_file hf)
  have hi := List.mem_range.1 hi
  rw [Function.comp_apply, byFile, hq _ (by omega), decide_eq_true_iff]

/-- node keys of the files -/
theorem node_inj {x y : UInt64} (hx : x.toNat ≤ 2 ^ 40) (hy : y.toNat ≤ 2 ^ 40) :
    spread (0x4E0D ^^^ x) = spread (0x4E0D ^^^ y) ↔ x.toNat = y.toNat := by
  have hblock : ∀ w : UInt64, w.toNat ≤ 2 ^ 40 → (0x4E0D ^^^ w).toNat / 2 ^ 48 = (0x4E0D : UInt64).toNat / 2 ^ 48 :=
    fun w hw => Mixer.xor_block (by omega)
  constructor
  · intro h
    rw [(UInt64.xor_right_inj _).1 (spread_inj_near ((hblock x hx).trans (hblock y hy).symm) h)]
  · intro h
    rw [UInt64.toNat_inj.1 h]

/-! ## Publishing a generation -/

theorem rowsPerGeneration_some {files : UInt64} (hfiles : files.toNat < 2 ^ 40) :
    ∃ rows, rowsPerGeneration files = some rows ∧ rows.toNat = files.toNat * 54 :=
  checkedMul_some (show files.toNat * (54 : UInt64).toNat < 2 ^ 64 by
    rw [show (54 : UInt64).toNat = 54 from rfl]; omega)

/-- the digest columns of a publish -/
theorem hashes_nodup (hfiles : generation.files.toNat < 2 ^ 40) (p l e : UInt64) :
    let b := rowsOf generation p l e (generation.files.toNat * 18)
    (b.postings.map SymbolPostingRow.postingHash).Nodup ∧ (b.lexemes.map SymbolLexemeRow.lexemeKey).Nodup ∧
      (b.edges.map DependencyFactRow.edgeHash).Nodup := by
  refine ⟨?_, ?_, ?_⟩
  · exact digests_nodup hfiles generation.key 0 _ (by decide) fun _ _ _ => by rw [UInt64.xor_zero]; rfl
  · exact digests_nodup hfiles generation.key 0x1EFE _ (by decide) fun _ _ _ => rfl
  · exact digests_nodup hfiles generation.key 0xED6E _ (by decide) fun _ _ _ => rfl

@[simp] theorem numbered_length {ρ : Type} (row : ℕ → UInt64 → ρ) (p : UInt64) (n : ℕ) :
    (numbered row p n).length = n := by
  rw [numbered, List.length_map, List.length_range]

/-- the three batches of inserts are accepted, and leave their rows -/
theorem publish_eq (hfiles : generation.files.toNat < 2 ^ 40) (p l e : UInt64) :
    ∃ store rows, (Store.new p l e).publish generation = some (store, rows) ∧
      rowsPerGeneration generation.files = some rows ∧ rows.toNat = generation.files.toNat * 54 ∧
      store.postings.rows.Perm (rowsOf generation p l e (generation.files.toNat * 18)).postings ∧
      store.lexemes.rows.Perm (rowsOf generation p l e (generation.files.toNat * 18)).lexemes ∧
      store.edges.rows.Perm (rowsOf generation p l e (generation.files.toNat * 18)).edges := by
  have hn : generation.files.toNat * 18 < 2 ^ 64 := by omega
  obtain ⟨hpostingHashes, hlexemeKeys, hedgeHashes⟩ := hashes_nodup generation hfiles p l e
  obtain ⟨postings, hpostings, hpostingRows⟩ :=
    UniqueTable.insertMany_perm SymbolPostingRow.id _ (ids_nodup (fun _ _ _ => rfl) hn) hpostingHashes
  obtain ⟨lexemes, hlexemes, hlexemeRows⟩ :=
    UniqueTable.insertMany_perm SymbolLexemeRow.id _ (ids_nodup (fun _ _ _ => rfl) hn) hlexemeKeys
  obtain ⟨edges, hedges, hedgeRows⟩ :=
    UniqueTable.insertMany_perm DependencyFactRow.id _ (ids_nodup (fun _ _ _ => rfl) hn) hedgeHashes
  obtain ⟨rows, hrows, hrowsNat⟩ := rowsPerGeneration_some hfiles
  have hwritten : UInt64.ofNat (generation.files.toNat * 18 + generation.files.toNat * 18 +
      generation.files.toNat * 18) = rows := by
    rw [← UInt64.toNat_inj, hrowsNat, ofNat_toNat_of_lt (by omega)]
    omega
  refine ⟨⟨⟨p + UInt64.ofNat (generation.files.toNat * 18), postings⟩,
    ⟨l + UInt64.ofNat (generation.files.toNat * 18), lexemes⟩, ⟨e + UInt64.ofNat (generation.files.toNat * 18), edges⟩⟩,
    rows, ?_, hrows, hrowsNat, hpostingRows, hlexemeRows, hedgeRows⟩
  unfold Store.publish
  rw [batch_eq]
  simp only [Store.new, rowsOf, hpostings, hlexemes, hedges, numbered_length, hwritten, Option.bind_eq_bind,
    Option.bind_some]

variable {generation} {store : Store} {p l e : UInt64}

theorem scan_eq (hlexemes : store.lexemes.rows.Perm (rowsOf generation p l e (generation.files.toNat * 18)).lexemes) :
    store.generationScan generation = generation.files.toNat * 18 := by
  have hall : ∀ r ∈ store.lexemes.rows, decide (r.snapshotKey = generation.key) = true := by
    intro r hr
    obtain ⟨i, -, rfl⟩ := List.mem_map.1 (hlexemes.mem_iff.1 hr)
    exact decide_eq_true rfl
  rw [Store.generationScan, Store.selectBySnapshotKey, List.filter_eq_self.2 hall, hlexemes.length_eq]
  exact numbered_length _ _ _

/-- the node asked for is the source of one file's edges and the target of the edges of the file before -/
theorem walk_eq (hfiles : generation.files.toNat < 2 ^ 40) (htwo : 2 ≤ generation.files.toNat)
    (hedges : store.edges.rows.Perm (rowsOf generation p l e (generation.files.toNat * 18)).edges) :
    store.dependencyWalk generation.probeNode = 36 := by
  have hhalf : (generation.files / 2).toNat = generation.files.toNat / 2 := UInt64.toNat_div _ 2
  have hnode : ∀ w : UInt64, w.toNat ≤ 2 ^ 40 →
      (spread (0x4E0D ^^^ w) = generation.probeNode ↔ w.toNat = generation.files.toNat / 2) := by
    intro w hw
    rw [← hhalf]
    exact node_inj hw (by omega)
  have hout : (store.selectBySourceKey generation.probeNode).length = 18 := by
    have hf : generation.files.toNat / 2 < generation.files.toNat := by omega
    refine select_length hedges hf fun file hfile ordinal w => ?_
    have hword : (UInt64.ofNat file).toNat = file := ofNat_toNat_of_lt (by omega)
    rw [decide_eq_true_iff]
    exact (hnode _ (by omega)).trans (by rw [hword])
  have hin : (store.selectByTargetKey generation.probeNode).length = 18 := by
    have hf : generation.files.toNat / 2 - 1 < generation.files.toNat := by omega
    refine select_length hedges hf fun file hfile ordinal w => ?_
    have hword : (UInt64.ofNat file).toNat = file := ofNat_toNat_of_lt (by omega)
    have hnext : (UInt64.ofNat file + 1).toNat = file + 1 := by
      rw [toNat_add_of_lt (by rw [hword, UInt64.toNat_one]; omega), hword, UInt64.toNat_one]
    rw [decide_eq_true_iff]
    exact (hnode _ (by omega)).trans (by omega)
  rw [Store.dependencyWalk, hout, hin]

/-- **A published generation.** No digest is repeated, every row is written, and the scan and the walk find their
rows. -/
theorem publish_complete (ordinal files : UInt64) (hfiles : files.toNat < 2 ^ 40) (p l e : UInt64) :
    let generation := Generation.new ordinal files
    let b := (Store.new p l e).batch generation
    ((b.postings.map SymbolPostingRow.postingHash).Nodup ∧ (b.lexemes.map SymbolLexemeRow.lexemeKey).Nodup ∧
      (b.edges.map DependencyFactRow.edgeHash).Nodup) ∧
    ∃ store rows, (Store.new p l e).publish generation = some (store, rows) ∧ rowsPerGeneration files = some rows ∧
      (store.postings.rows.Perm b.postings ∧ store.lexemes.rows.Perm b.lexemes ∧ store.edges.rows.Perm b.edges ∧
        store.postings.rows.length + store.lexemes.rows.length + store.edges.rows.length = rows.toNat) ∧
      store.generationScan generation = files.toNat * 18 ∧
      (2 ≤ files.toNat → store.dependencyWalk generation.probeNode = 36) := by
  intro generation b
  have hb : b = rowsOf generation p l e (files.toNat * 18) := batch_eq generation _
  obtain ⟨store, rows, hpublish, hrows, hrowsNat, hpostings, hlexemes, hedges⟩ := publish_eq generation hfiles p l e
  rw [hb]
  refine ⟨hashes_nodup generation hfiles p l e, store, rows, hpublish, hrows, ⟨hpostings, hlexemes, hedges, ?_⟩,
    scan_eq hlexemes, fun htwo => walk_eq hfiles htwo hedges⟩
  rw [hpostings.length_eq, hlexemes.length_eq, hedges.length_eq, hrowsNat]
  simp only [rowsOf, numbered_length]
  change files.toNat * 18 + files.toNat * 18 + files.toNat * 18 = files.toNat * 54
  omega

/-- the largest generation of the profile -/
theorem publish_complete_800 : ∃ store rows, (Store.new 0 0 0).publish (Generation.new 0 800) = some (store, rows) ∧
    rows = 43200 ∧ store.generationScan (Generation.new 0 800) = 14400 ∧
    store.dependencyWalk (Generation.new 0 800).probeNode = 36 := by
  obtain ⟨-, store, rows, hpublish, hrows, -, hscan, hwalk⟩ := publish_complete 0 800 (by decide) 0 0 0
  have hvalue : rowsPerGeneration 800 = some 43200 := by decide
  exact ⟨store, rows, hpublish, Option.some_inj.1 (hrows.symm.trans hvalue), hscan, hwalk (by decide)⟩

end WtBenchmarks.Codegraph
