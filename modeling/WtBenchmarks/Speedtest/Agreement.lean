/-
The paired speedtest1 runners against one array of counters.

Whatever the engine's integer type, its integer table holds at key `i` the row that the counter `w i` determines
(`rowAt`, `Holds`), and its text table the row that `i` determines. Each phase is a fold over that array; the casts to
`i64` and back cancel, and below `i64::MAX` rows they keep the order of the keys.

- `Worktable.runRepetition_eq`, `Worktable.runText_eq`, `Sqlite.runRepetition_eq`: the lines of a repetition;
- `paired_runners_agree`: both runs emit the nine phases of every repetition, with the same checksums.
-/
import WtBenchmarks.Core.IndexedMap
import WtBenchmarks.Speedtest.Runners

namespace WtBenchmarks.Speedtest

open Kv (textValue textChecksum)

/-! ## Accepted configurations -/

/-- what both runners' checks guarantee -/
structure Config.Accepted (config : Config) : Prop where
  rows : 0 < config.rows
  groups : 0 < config.groups.toNat
  scanLength : 0 < config.scanLength.toNat
  fits : config.scanLength.toNat ≤ config.rows.toNat
  bound : config.rows.toNat < 2 ^ 63

theorem Config.accepted_of_check {config : Config} (h : config.checkSqlite = .ok ()) : config.Accepted := by
  unfold checkSqlite at h
  split_ifs at h with hzero hlen hmax
  simp only [not_or] at hzero hmax
  rcases hzero with ⟨hrows, -, -, hscan, -, hgroups⟩
  have hbound := UInt64.le_iff_toNat_le.1 (UInt64.not_lt.1 hmax.1)
  have hvalue : i64Max.toNat = 2 ^ 63 - 1 := rfl
  exact ⟨UInt64.lt_iff_toNat_lt.2 (toNat_pos_of_ne hrows), toNat_pos_of_ne hgroups, toNat_pos_of_ne hscan,
    UInt64.le_iff_toNat_le.1 (UInt64.not_lt.1 hlen), by omega⟩

theorem Config.keys_lt {config : Config} (h : config.Accepted) : ∀ k ∈ config.keys, k.toNat < config.rows.toNat :=
  fun k hk => UInt64.lt_iff_toNat_lt.1 (Rng.draws_lt h.rows k hk)

theorem Config.scanStarts_le {config : Config} (h : config.Accepted) :
    ∀ start ∈ config.scanStarts, start.toNat + config.scanLength.toNat ≤ config.rows.toNat :=
  Kv.KvConfig.draws_start_le h.scanLength h.fits

/-! ## The array -/

/-- the counters after the insert phase -/
def loaded (i : ℕ) : UInt64 := UInt64.ofNat i

def pointSum (config : Config) (w : ℕ → UInt64) : UInt64 :=
  config.keys.foldl (fun sum key => sum + (w key.toNat + textChecksum key (textValue key config.payloadBytes))) 0

/-- the counters from index `start` on, added to `sum` -/
def rangeSum (w : ℕ → UInt64) (len : ℕ) (sum : UInt64) (start : ℕ) : UInt64 :=
  (List.range' start len).foldl (fun sum i => sum + w i) sum

def rangesSum (config : Config) (w : ℕ → UInt64) : UInt64 :=
  config.scanStarts.foldl (fun sum start => rangeSum w config.scanLength.toNat sum start.toNat) 0

def groupSize (config : Config) (group : UInt64) : UInt64 :=
  UInt64.ofNat ((List.range config.rows.toNat).countP fun i => decide (UInt64.ofNat i % config.groups = group))

def fanoutSum (config : Config) : UInt64 :=
  config.keys.foldl (fun sum key => sum + groupSize config (key % config.groups)) 0

def updated (config : Config) (w : ℕ → UInt64) : ℕ → UInt64 :=
  config.keys.foldl (fun w key => Function.update w key.toNat (key * 17)) w

def textSum (config : Config) : UInt64 :=
  config.keys.foldl (fun sum key => sum + key + UInt64.ofNat (textValue key config.payloadBytes).length) 0

def deletedCount (config : Config) : UInt64 :=
  (config.keys.foldl deleteCell (fun _ => some (), 0)).2

/-- the seven integer phases, in the order of the WorkTable runner -/
def integerLines (config : Config) (repetition : ℕ) : List Line := [
  ⟨"integer_insert_sequential", repetition, config.rows, config.rows⟩,
  ⟨"integer_point_read_random", repetition, config.operations, pointSum config loaded⟩,
  ⟨"integer_range_read", repetition, config.operations, rangesSum config loaded⟩,
  ⟨"integer_secondary_fanout", repetition, config.operations, fanoutSum config⟩,
  ⟨"integer_update_random", repetition, config.operations, config.rows⟩,
  ⟨"integer_ordered_full_scan", repetition, config.rows, rangeSum (updated config loaded) config.rows.toNat 0 0⟩]

def deleteLine (config : Config) (repetition : ℕ) : Line :=
  ⟨"integer_delete_random", repetition, config.operations, deletedCount config⟩

def textLines (config : Config) (repetition : ℕ) : List Line := [
  ⟨"text_insert_sequential", repetition, config.rows, config.rows⟩,
  ⟨"text_point_read_random", repetition, config.operations, textSum config⟩]

/-- a range summed from zero, then added -/
theorem rangeSum_add (w : ℕ → UInt64) (len : ℕ) (sum : UInt64) (start : ℕ) :
    rangeSum w len sum start = sum + rangeSum w len 0 start := by
  have hadd : ∀ (l : List ℕ) (a b : UInt64), l.foldl (fun sum i => sum + w i) (a + b) =
      a + l.foldl (fun sum i => sum + w i) b := by
    intro l a b
    induction l generalizing b with
    | nil => rfl
    | cons i l ih => rw [List.foldl_cons, List.foldl_cons, UInt64.add_assoc, ih]
  unfold rangeSum
  rw [← hadd, UInt64.add_zero]

/-- which cells are deleted does not depend on what they hold -/
theorem deleteCell_count {β γ : Type} (keys : List UInt64) (a : β) (v : ℕ → γ) :
    (keys.foldl deleteCell (fun i => some (v i), 0)).2 = (keys.foldl deleteCell ((fun _ => some a), 0)).2 := by
  let same (s : (ℕ → Option γ) × UInt64) (u : (ℕ → Option β) × UInt64) : Prop :=
    (∀ i, (s.1 i).isSome = (u.1 i).isSome) ∧ s.2 = u.2
  have hstep : ∀ s u, same s u → ∀ key, same (deleteCell s key) (deleteCell u key) := by
    intro s u h key
    refine ⟨fun i => ?_, ?_⟩
    · change (Function.update s.1 key.toNat none i).isSome = (Function.update u.1 key.toNat none i).isSome
      by_cases hi : i = key.toNat
      · subst hi
        rw [Function.update_self, Function.update_self]
        rfl
      · rw [Function.update_of_ne hi, Function.update_of_ne hi, h.1]
    · unfold deleteCell
      rw [h.1, h.2]
  exact (List.foldl_rel (r := same) ⟨fun _ => rfl, rfl⟩ fun key _ s u h => hstep s u h key).2

/-! ## A table that holds the array -/

section Engine

variable {K : Type} [Ord K] [Std.TransOrd K] [Std.LawfulEqOrd K] [DecidableEq K] {cast : UInt64 → K} {config : Config}
  {table : SpeedInt K} {w : ℕ → UInt64}

/-- the row at key `i`, when its counter is `w i` -/
def rowAt (cast : UInt64 → K) (config : Config) (w : ℕ → UInt64) (i : ℕ) : SpeedIntRow K :=
  ⟨byCast cast i, cast (UInt64.ofNat i % config.groups), cast (w i), textValue (UInt64.ofNat i) config.payloadBytes⟩

def Holds (cast : UInt64 → K) (config : Config) (table : SpeedInt K) (w : ℕ → UInt64) : Prop :=
  Full (byCast cast) config.rows.toNat table.rows (rowAt cast config w)

omit [Ord K] [Std.TransOrd K] [Std.LawfulEqOrd K] [DecidableEq K] in
theorem rowAt_key (cast : UInt64 → K) (config : Config) (w : ℕ → UInt64) (key : UInt64) :
    rowAt cast config w key.toNat =
      ⟨cast key, cast (key % config.groups), cast (w key.toNat), textValue key config.payloadBytes⟩ := by
  unfold rowAt
  rw [byCast_toNat, UInt64.ofNat_toNat]

/-- the insert phase -/
theorem load_holds (hf : Increasing (byCast cast) config.rows.toNat) (hgroups : 0 < config.groups.toNat)
    (insert : SpeedInt K → UInt64 → UInt64 → Option (SpeedInt K))
    (hinsert : ∀ table id group, (h : cast id ∉ table.rows) → insert table id group =
      some (table.insertNew (cast id) ⟨cast id, cast group, cast id, textValue id config.payloadBytes⟩ h)) :
    ∃ table, ((List.range config.rows.toNat).foldlM (fun table i => do
      let group ← checkedMod (UInt64.ofNat i) config.groups
      insert table (UInt64.ofNat i) group) (GroupTable.empty _)) = some table ∧ Holds cast config table loaded := by
  have hne : config.groups ≠ 0 := by
    intro h
    rw [h] at hgroups
    exact absurd hgroups (by decide)
  obtain ⟨table, htable, hfull⟩ := exists_foldlM_range (f := fun table i => do
      let group ← checkedMod (UInt64.ofNat i) config.groups
      insert table (UInt64.ofNat i) group)
    (I := fun i (table : SpeedInt K) => Indexed (byCast cast) config.rows.toNat table.rows
      (Indexed.upTo i (rowAt cast config loaded))) config.rows.toNat (fun i table hi h => by
        obtain ⟨hnew, hnext⟩ := Indexed.load_step hf.injOn hi h
        refine ⟨table.insertNew (byCast cast i) (rowAt cast config loaded i) hnew, ?_, hnext⟩
        rw [checkedMod, if_neg hne]
        exact hinsert table _ _ hnew) (GroupTable.empty _) (Indexed.empty_upTo _ _ _)
  exact ⟨table, htable, Full.of_upTo hfull⟩

omit [DecidableEq K] in
theorem Holds.size_eq (hf : Increasing (byCast cast) config.rows.toNat) (h : Holds cast config table w) :
    table.rows.size = config.rows.toNat := Full.size_eq hf.injOn h

omit [Std.LawfulEqOrd K] [DecidableEq K] in
theorem Holds.get (h : Holds cast config table w) {key : UInt64} (hk : key.toNat < config.rows.toNat) :
    table.rows[cast key]? =
      some ⟨cast key, cast (key % config.groups), cast (w key.toNat), textValue key config.payloadBytes⟩ := by
  rw [← rowAt_key cast config w key]
  exact h.get_key hk

/-- one update of a counter -/
theorem Holds.modify (hf : Increasing (byCast cast) config.rows.toNat) (h : Holds cast config table w) {key : UInt64}
    (hk : key.toNat < config.rows.toNat) (counter : UInt64) :
    Holds cast config
      (table.modify (cast key) (SpeedIntRow.setCounter (cast counter)) (SpeedIntRow.setCounter_groupId (cast counter)))
      (Function.update w key.toNat counter) := by
  have hrow : rowAt cast config (Function.update w key.toNat counter) =
      Function.update (rowAt cast config w) key.toNat
        ⟨cast key, cast (key % config.groups), cast counter, textValue key config.payloadBytes⟩ := by
    funext i
    by_cases hi : i = key.toNat
    · subst hi
      rw [Function.update_self, rowAt_key, Function.update_self]
    · rw [Function.update_of_ne hi]
      unfold rowAt
      rw [Function.update_of_ne hi]
  unfold Holds
  rw [GroupTable.modify_rows table (SpeedIntRow.setCounter_groupId (cast counter)) (h.get hk), hrow]
  exact h.insert_key hf.injOn hk _

/-- the size of a group, through the index -/
theorem Holds.group_length (hf : Increasing (byCast cast) config.rows.toNat) (hcast : Function.Injective cast)
    (h : Holds cast config table w) (group : UInt64) :
    UInt64.ofNat (table.selectByGroup (cast group)).length = groupSize config group := by
  rw [GroupTable.selectByGroup_length, Full.toList_eq hf h, List.countP_map]
  unfold groupSize
  congr 2
  funext i
  exact decide_eq_decide.2 hcast.eq_iff

omit [DecidableEq K] in
/-- the rows a predicate on the keys selects, when it selects a range of indices -/
theorem Holds.between (hf : Increasing (byCast cast) config.rows.toNat) (h : Holds cast config table w) (p : K → Bool)
    {lo hi : ℕ} (hlo : lo ≤ hi) (hhi : hi ≤ config.rows.toNat)
    (hp : ∀ i < config.rows.toNat, p (byCast cast i) = true ↔ lo ≤ i ∧ i < hi) :
    (table.rows.toList.filter fun row => p row.1) =
      (List.range' lo (hi - lo)).map fun i => (byCast cast i, rowAt cast config w i) :=
  Full.between hf h (fun row => p row.1) hlo hhi hp

/-- the delete phase -/
theorem Holds.delete (hf : Increasing (byCast cast) config.rows.toNat) (h : Holds cast config table w)
    (hk : ∀ k ∈ config.keys, k.toNat < config.rows.toNat) (body : SpeedInt K × UInt64 → UInt64 → SpeedInt K × UInt64)
    (hin : ∀ table n key, cast key ∈ table.rows → body (table, n) key = (table.erase (cast key), n + 1))
    (hout : ∀ table n key, cast key ∉ table.rows → body (table, n) key = (table, n)) :
    (config.keys.foldl body (table, 0)).2 = deletedCount config := by
  have hstart : Deleting cast config.rows.toNat (table.rows, 0) (fun i => some (rowAt cast config w i), 0) := ⟨h, rfl⟩
  have hend : Deleting cast config.rows.toNat
      ((config.keys.foldl body (table, 0)).1.rows, (config.keys.foldl body (table, 0)).2)
      (config.keys.foldl deleteCell (fun i => some (rowAt cast config w i), 0)) := by
    refine List.foldl_rel (r := fun (r : SpeedInt K × UInt64) s => Deleting cast config.rows.toNat (r.1.rows, r.2) s)
      hstart ?_
    intro key hkey r s hrs
    rcases hrs.step hf.injOn (hk key hkey) with ⟨hmem, hrs'⟩ | ⟨hmem, hrs', -⟩
    · rw [hin r.1 r.2 key hmem, GroupTable.erase_rows _ hmem]
      exact hrs'
    · rw [hout r.1 r.2 key hmem]
      exact hrs'
  exact hend.2.trans (deleteCell_count _ _ _)

end Engine

theorem checkedMod_groups {config : Config} (hacc : config.Accepted) (key : UInt64) :
    checkedMod key config.groups = some (key % config.groups) := by
  unfold checkedMod
  apply if_neg
  intro h
  have hpos := hacc.groups
  rw [h] at hpos
  exact absurd hpos (by decide)

/-! ## The text table -/

theorem textKey_injective : Function.Injective textKey := by
  intro a b h
  have hlists := congrArg String.toList h
  unfold textKey at hlists
  rw [String.toList_append, String.toList_append] at hlists
  have hdigits := String.toList_injective (List.append_cancel_left hlists)
  exact UInt64.toNat_inj.1 (zeroPadded_injective 20 hdigits)

theorem textKey_injOn (config : Config) : Set.InjOn (byCast textKey) (Set.Iio config.rows.toNat) := by
  intro i hi j hj h
  have hrows := config.rows.toNat_lt
  have heq := congrArg UInt64.toNat (textKey_injective h)
  rwa [ofNat_toNat_of_lt ((Set.mem_Iio.1 hi).trans hrows), ofNat_toNat_of_lt ((Set.mem_Iio.1 hj).trans hrows)] at heq

/-- the text row of an index -/
def textRowAt {K : Type} (cast : UInt64 → K) (config : Config) (i : ℕ) : SpeedTextRow K :=
  ⟨byCast cast i, textValue (UInt64.ofNat i) config.payloadBytes⟩

/-- the insert phase of the text table -/
theorem loadText_holds {K : Type} (cast : UInt64 → K) (config : Config) :
    ∃ text, (List.range config.rows.toNat).foldlM (fun (text : SpeedText K) i =>
      let id := UInt64.ofNat i
      if textKey id ∈ text then none
      else some (text.insert (textKey id) ⟨cast id, textValue id config.payloadBytes⟩)) ∅ = some text ∧
        Full (byCast textKey) config.rows.toNat text (textRowAt cast config) := by
  obtain ⟨text, htext, hfull⟩ := exists_foldlM_range (f := fun (text : SpeedText K) i =>
      let id := UInt64.ofNat i
      if textKey id ∈ text then none
      else some (text.insert (textKey id) ⟨cast id, textValue id config.payloadBytes⟩))
    (I := fun i text => Indexed (byCast textKey) config.rows.toNat text (Indexed.upTo i (textRowAt cast config)))
    config.rows.toNat (fun i text hi h => by
      obtain ⟨hnew, hnext⟩ := Indexed.load_step (textKey_injOn config) hi h
      exact ⟨_, if_neg hnew, hnext⟩) ∅ (Indexed.empty_upTo _ _ _)
  exact ⟨text, htext, Full.of_upTo hfull⟩

/-- the read phase of the text table -/
theorem readText_eq {K : Type} {cast : UInt64 → K} {config : Config} {text : SpeedText K} (hacc : config.Accepted)
    (back : K → UInt64) (hback : ∀ x, back (cast x) = x)
    (h : Full (byCast textKey) config.rows.toNat text (textRowAt cast config)) :
    config.keys.foldlM (fun sum key => do
      let row ← text[textKey key]?
      some (sum + back row.value + UInt64.ofNat row.payload.length)) (0 : UInt64) = some (textSum config) := by
  refine foldlM_eq_some config.keys (fun sum key hkey => ?_) 0
  have hrow := h.get_key (Config.keys_lt hacc key hkey)
  unfold textRowAt at hrow
  rw [byCast_toNat, UInt64.ofNat_toNat] at hrow
  rw [hrow]
  simp only [Option.bind_eq_bind, Option.bind_some, hback]

/-! ## WorkTable -/

namespace Worktable

variable {config : Config} {table : SpeedInt UInt64} {w : ℕ → UInt64}

theorem increasing (config : Config) : Increasing (byCast (id : UInt64 → UInt64)) config.rows.toNat :=
  increasing_u64 config.rows.toNat_lt.le

theorem integerCount_eq (h : Holds id config table w) : integerCount table = config.rows := by
  unfold integerCount
  rw [h.size_eq (increasing config), UInt64.ofNat_toNat]

theorem integerPointChecksum_eq (h : Holds id config table w) {key : UInt64} (hk : key.toNat < config.rows.toNat) :
    integerPointChecksum table key = some (w key.toNat + textChecksum key (textValue key config.payloadBytes)) := by
  have hrow : table.rows[key]? =
      some ⟨key, key % config.groups, w key.toNat, textValue key config.payloadBytes⟩ := h.get hk
  unfold integerPointChecksum
  rw [hrow]
  rfl

/-- the counters of a range of keys -/
theorem selectByPkRange_sum (h : Holds id config table w) {start stop : UInt64} (hle : start.toNat ≤ stop.toNat)
    (hstop : stop.toNat ≤ config.rows.toNat) :
    (selectByPkRange table start stop).foldl (fun sum row => sum + row.2.counter) 0 =
      rangeSum w (stop.toNat - start.toNat) 0 start.toNat := by
  have hrows := config.rows.toNat_lt
  have hsel : ∀ i < config.rows.toNat, decide (start ≤ byCast id i ∧ byCast id i < stop) = true ↔
      start.toNat ≤ i ∧ i < stop.toNat := by
    intro i hi
    rw [decide_eq_true_eq, byCast, id, UInt64.le_iff_toNat_le, UInt64.lt_iff_toNat_lt,
      ofNat_toNat_of_lt (hi.trans hrows)]
  have hrange := h.between (increasing config) (fun key => decide (start ≤ key ∧ key < stop)) hle hstop hsel
  unfold selectByPkRange
  rw [hrange, List.foldl_map]
  rfl

theorem integerRangeChecksum_eq (h : Holds id config table w) {start : UInt64}
    (hs : start.toNat + config.scanLength.toNat ≤ config.rows.toNat) :
    integerRangeChecksum table start config.scanLength = some (rangeSum w config.scanLength.toNat 0 start.toNat) := by
  have hrows := config.rows.toNat_lt
  obtain ⟨stop, hstop, hv⟩ := checkedAdd_some (a := start) (b := config.scanLength) (by omega)
  unfold integerRangeChecksum
  rw [hstop]
  simp only [Option.bind_eq_bind, Option.bind_some]
  rw [selectByPkRange_sum h (by omega) (by omega), hv, Nat.add_sub_cancel_left]

theorem integerFullScanChecksum_eq (h : Holds id config table w) :
    integerFullScanChecksum table config.rows = rangeSum w config.rows.toNat 0 0 :=
  selectByPkRange_sum h (Nat.zero_le _) le_rfl

theorem updateInteger_holds (h : Holds id config table w) {key : UInt64} (hk : key.toNat < config.rows.toNat)
    (counter : UInt64) : ∃ table', updateInteger table key counter = some table' ∧
      Holds id config table' (Function.update w key.toNat counter) :=
  ⟨_, if_pos (h.mem_key hk), h.modify (increasing config) hk counter⟩

theorem runRepetition_eq (hacc : config.Accepted) (repetition : ℕ) :
    runRepetition config repetition config.keys config.scanStarts =
      some (integerLines config repetition ++ [deleteLine config repetition]) := by
  have hk := Config.keys_lt hacc
  obtain ⟨table, hload, h⟩ := load_holds (increasing config) hacc.groups
    (fun table id group => insertInteger table id group (textValue id config.payloadBytes))
    (fun table id group hnew => dif_neg hnew)
  have hread : config.keys.foldlM (fun sum key => do
      let checksum ← integerPointChecksum table key
      some (sum + checksum)) 0 = some (pointSum config loaded) :=
    foldlM_eq_some config.keys (fun sum key hkey => by rw [integerPointChecksum_eq h (hk key hkey)]; rfl) 0
  have hranges : config.scanStarts.foldlM (fun checksum start => do
      let range ← integerRangeChecksum table start config.scanLength
      some (checksum + range)) 0 = some (rangesSum config loaded) :=
    foldlM_eq_some config.scanStarts (fun sum start hstart => by
      rw [integerRangeChecksum_eq h (Config.scanStarts_le hacc start hstart), rangeSum_add _ _ sum]
      rfl) 0
  have hfanout : config.keys.foldlM (fun checksum key => do
      let group ← checkedMod key config.groups
      some (checksum + integerGroupCount table group)) 0 = some (fanoutSum config) :=
    foldlM_eq_some config.keys (fun sum key _ => by
      rw [checkedMod_groups hacc, ← h.group_length (increasing config) Function.injective_id]
      rfl) 0
  obtain ⟨table', hupdate, h'⟩ := foldlM_simulates (Holds id config) config.keys
    (fun table w key hkey h => updateInteger_holds h (hk key hkey) (key * 17)) table loaded h
  have hdelete := h'.delete (increasing config) hk deleteTurn
    (fun table n key hin => by simp only [deleteTurn, deleteInteger, if_pos (show key ∈ table.rows from hin)]; rfl)
    (fun table n key hout => by simp only [deleteTurn, deleteInteger, if_neg (show key ∉ table.rows from hout)]; rfl)
  unfold runRepetition
  simp only [Option.bind_eq_bind] at hload hread hranges hfanout ⊢
  rw [hload]
  simp only [Option.bind_some, hread, hranges, hfanout, hupdate, integerCount_eq h, integerCount_eq h',
    integerFullScanChecksum_eq h', hdelete]
  rfl

theorem runText_eq (hacc : config.Accepted) (repetition : ℕ) :
    runText config repetition config.keys = some (textLines config repetition) := by
  obtain ⟨text, hload, h⟩ := loadText_holds (id : UInt64 → UInt64) config
  have hread := readText_eq hacc id (fun _ => rfl) h
  have hsize : UInt64.ofNat text.size = config.rows := by
    rw [h.size_eq (textKey_injOn config), UInt64.ofNat_toNat]
  unfold runText
  simp only [id, Option.bind_eq_bind] at hload hread ⊢
  rw [hload]
  simp only [Option.bind_some, hread, hsize]
  rfl

end Worktable

/-! ## SQLite -/

namespace Sqlite

variable {config : Config} {table : SpeedInt Int64} {w : ℕ → UInt64}

theorem increasing (hacc : config.Accepted) : Increasing (byCast UInt64.toInt64) config.rows.toNat :=
  increasing_i64 hacc.bound.le

theorem toInt64_injective : Function.Injective UInt64.toInt64 := by
  intro a b h
  have hback := congrArg Int64.toUInt64 h
  rwa [UInt64.toUInt64_toInt64, UInt64.toUInt64_toInt64] at hback

theorem toInt_toInt64 {key : UInt64} (h : key.toNat < 2 ^ 63) : key.toInt64.toInt = key.toNat := by
  have hcast := toInt_ofNat_toInt64 h
  rwa [UInt64.ofNat_toNat] at hcast

theorem count_eq {α β : Type} [Ord α] [Std.TransOrd α] {rows : Std.ExtTreeMap α β}
    (h : rows.size = config.rows.toNat) : count rows = config.rows := by
  unfold count
  rw [h, ← UInt64.toInt64_ofNat', UInt64.toUInt64_toInt64, UInt64.ofNat_toNat]

/-- what a row of the table decodes to -/
theorem decode_rowAt (config : Config) (w : ℕ → UInt64) (i : ℕ) : decode (rowAt UInt64.toInt64 config w i) =
    (UInt64.ofNat i, UInt64.ofNat i % config.groups, w i, textValue (UInt64.ofNat i) config.payloadBytes) := by
  unfold decode rowAt byCast
  simp only [UInt64.toUInt64_toInt64]

theorem selectId_eq (h : Holds UInt64.toInt64 config table w) {key : UInt64} (hk : key.toNat < config.rows.toNat) :
    selectId table key.toInt64 =
      some (key, key % config.groups, w key.toNat, textValue key config.payloadBytes) := by
  unfold selectId
  rw [h.get_key hk, Option.map_some, decode_rowAt, UInt64.ofNat_toNat]

/-- the counters of a range of keys -/
theorem selectRange_sum (hacc : config.Accepted) (h : Holds UInt64.toInt64 config table w) (sum : UInt64)
    {start stop : UInt64} (hle : start.toNat ≤ stop.toNat) (hstop : stop.toNat ≤ config.rows.toNat) :
    (selectRange table start.toInt64 stop.toInt64).foldl (fun sum row => sum + row.2.2.1) sum =
      rangeSum w (stop.toNat - start.toNat) sum start.toNat := by
  have hbound := hacc.bound
  have hsel : ∀ i < config.rows.toNat,
      decide (start.toInt64 ≤ byCast UInt64.toInt64 i ∧ byCast UInt64.toInt64 i < stop.toInt64) = true ↔
        start.toNat ≤ i ∧ i < stop.toNat := by
    intro i hi
    rw [decide_eq_true_eq, byCast, Int64.le_iff_toInt_le, Int64.lt_iff_toInt_lt, toInt_ofNat_toInt64 (hi.trans hbound),
      toInt_toInt64 (by omega), toInt_toInt64 (by omega)]
    omega
  have hrange := h.between (increasing hacc) (fun key => decide (start.toInt64 ≤ key ∧ key < stop.toInt64)) hle hstop
    hsel
  unfold selectRange
  rw [hrange, List.map_map, List.foldl_map]
  simp only [Function.comp_apply, decode_rowAt]
  rfl

theorem selectAll_sum (hacc : config.Accepted) (h : Holds UInt64.toInt64 config table w) :
    (selectAll table).foldl (fun sum row => sum + row.2.2.1) 0 = rangeSum w config.rows.toNat 0 0 := by
  unfold selectAll
  rw [Full.toList_eq (increasing hacc) h, List.map_map, List.foldl_map]
  simp only [Function.comp_apply, decode_rowAt]
  unfold rangeSum
  rw [List.range_eq_range']

theorem selectGroup_length (hacc : config.Accepted) (h : Holds UInt64.toInt64 config table w) (group : UInt64) :
    UInt64.ofNat (selectGroup table group.toInt64).length = groupSize config group := by
  unfold selectGroup
  rw [List.length_map]
  exact h.group_length (increasing hacc) toInt64_injective group

theorem update_holds (hacc : config.Accepted) (h : Holds UInt64.toInt64 config table w) :
    Holds UInt64.toInt64 config
      (config.keys.foldl (fun table key => updateCounter table (key * 17).toInt64 key.toInt64) table)
      (updated config w) := by
  unfold updated
  refine List.foldl_rel (r := fun table w => Holds UInt64.toInt64 config table w) h ?_
  intro key hkey table w h
  exact h.modify (increasing hacc) (Config.keys_lt hacc key hkey) (key * 17)

theorem runRepetition_eq (hacc : config.Accepted) (repetition : ℕ) :
    runRepetition config repetition config.keys config.scanStarts =
      some (integerLines config repetition ++ textLines config repetition ++ [deleteLine config repetition]) := by
  have hk := Config.keys_lt hacc
  obtain ⟨table, hload, h⟩ := load_holds (increasing hacc) hacc.groups
    (fun table id group => insertInt table id.toInt64 group.toInt64 id.toInt64 (textValue id config.payloadBytes))
    (fun table id group hnew => dif_neg hnew)
  obtain ⟨text, hloadText, hText⟩ := loadText_holds UInt64.toInt64 config
  have hread : config.keys.foldlM (readTurn table) 0 = some (pointSum config loaded) :=
    foldlM_eq_some config.keys (fun sum key hkey => by
      rw [readTurn, selectId_eq h (hk key hkey), ← UInt64.add_assoc]
      rfl) 0
  have hranges : config.scanStarts.foldlM (fun checksum start => do
      let stop ← checkedAdd start config.scanLength
      some ((selectRange table start.toInt64 stop.toInt64).foldl (fun sum row => sum + row.2.2.1) checksum)) 0 =
        some (rangesSum config loaded) :=
    foldlM_eq_some config.scanStarts (fun sum start hstart => by
      have hfit := Config.scanStarts_le hacc start hstart
      have hrows := config.rows.toNat_lt
      obtain ⟨stop, hstop, hv⟩ := checkedAdd_some (a := start) (b := config.scanLength) (by omega)
      rw [hstop]
      simp only [Option.bind_eq_bind, Option.bind_some]
      rw [selectRange_sum hacc h sum (by omega) (by omega), hv, Nat.add_sub_cancel_left]) 0
  have hfanout : config.keys.foldlM (fun checksum key => do
      let group ← checkedMod key config.groups
      some (checksum + UInt64.ofNat (selectGroup table group.toInt64).length)) 0 = some (fanoutSum config) :=
    foldlM_eq_some config.keys (fun sum key _ => by
      rw [checkedMod_groups hacc, ← selectGroup_length hacc h]
      rfl) 0
  have h' := update_holds hacc h
  have hreadText := readText_eq hacc Int64.toUInt64 UInt64.toUInt64_toInt64 hText
  have hdelete := h'.delete (increasing hacc) hk deleteTurn
    (fun table n key hin => by simp only [deleteTurn, deleteInt, if_pos hin])
    (fun table n key hout => by simp only [deleteTurn, deleteInt, if_neg hout, UInt64.add_zero])
  unfold runRepetition
  simp only [Option.bind_eq_bind] at hload hread hranges hfanout hloadText hreadText ⊢
  rw [hload]
  simp only [Option.bind_some, hread, hranges, hfanout, hloadText, hreadText,
    count_eq (h.size_eq (increasing hacc)), count_eq (h'.size_eq (increasing hacc)),
    count_eq (hText.size_eq (textKey_injOn config)), selectAll_sum hacc h', hdelete]
  rfl

end Sqlite

/-! ## Whole runs -/

/-- the names of the phases -/
def phaseNames : List String := [
  "integer_insert_sequential", "integer_point_read_random", "integer_range_read", "integer_secondary_fanout",
  "integer_update_random", "integer_ordered_full_scan", "integer_delete_random", "text_insert_sequential",
  "text_point_read_random"]

/-- the lines of a repetition, in the order of the WorkTable runner -/
def worktableLines (config : Config) (repetition : ℕ) : List Line :=
  integerLines config repetition ++ [deleteLine config repetition] ++ textLines config repetition

/-- the lines of a repetition, in the order of the SQLite runner -/
def sqliteLines (config : Config) (repetition : ℕ) : List Line :=
  integerLines config repetition ++ textLines config repetition ++ [deleteLine config repetition]

theorem lines_perm (config : Config) (repetition : ℕ) :
    (worktableLines config repetition).Perm (sqliteLines config repetition) := by
  unfold worktableLines sqliteLines
  rw [List.append_assoc, List.append_assoc]
  exact List.Perm.append_left _ List.perm_append_comm

theorem worktableLines_phases (config : Config) (repetition : ℕ) :
    (worktableLines config repetition).map Line.phase = phaseNames := rfl

theorem worktableLines_repetition (config : Config) (repetition : ℕ) :
    ∀ line ∈ worktableLines config repetition, line.repetition = repetition := by
  unfold worktableLines integerLines deleteLine textLines
  simp

theorem Worktable.main_eq {config : Config} (hacc : config.Accepted) (hcheck : config.checkWorktable = .ok ()) :
    Worktable.main config = some ((List.range' 1 config.repetitions).map (worktableLines config)).flatten := by
  unfold main
  rw [hcheck]
  simp only
  rw [mapM_eq_some (g := worktableLines config)]
  · rfl
  · intro repetition _
    rw [runRepetition_eq hacc, Option.bind_eq_bind, Option.bind_some, runText_eq hacc]
    rfl

theorem Sqlite.main_eq {config : Config} (hacc : config.Accepted) (hcheck : config.checkSqlite = .ok ()) :
    Sqlite.main config = some ((List.range' 1 config.repetitions).map (sqliteLines config)).flatten := by
  unfold main
  rw [hcheck]
  simp only
  rw [mapM_eq_some (g := sqliteLines config)]
  · rfl
  · exact fun repetition _ => runRepetition_eq hacc repetition

/-- the lines of one repetition among those of a run -/
theorem filter_repetition (lines : ℕ → List Line) (h : ∀ r, ∀ line ∈ lines r, line.repetition = r)
    (repetitions : List ℕ) (hnodup : repetitions.Nodup) {r : ℕ} (hr : r ∈ repetitions) :
    ((repetitions.map lines).flatten.filter fun line => decide (line.repetition = r)) = lines r := by
  have hsame : ∀ r', (lines r').filter (fun line => decide (line.repetition = r)) = if r' = r then lines r else [] := by
    intro r'
    split_ifs with heq
    · subst heq
      exact List.filter_eq_self.2 fun line hline => decide_eq_true (h r' line hline)
    · exact List.filter_eq_nil_iff.2 fun line hline hdec => heq ((h r' line hline).symm.trans (of_decide_eq_true hdec))
  induction repetitions with
  | nil => cases hr
  | cons r' repetitions ih =>
    rcases List.nodup_cons.1 hnodup with ⟨hnot, hnodup'⟩
    rw [List.map_cons, List.flatten_cons, List.filter_append, hsame]
    by_cases heq : r' = r
    · subst heq
      have hrest : (repetitions.map lines).flatten.filter (fun line => decide (line.repetition = r')) = [] := by
        refine List.filter_eq_nil_iff.2 fun line hline hdec => ?_
        rcases List.mem_flatten.1 hline with ⟨ls, hls, hline⟩
        rcases List.mem_map.1 hls with ⟨r'', hr'', rfl⟩
        have heq := (h r'' line hline).symm.trans (of_decide_eq_true hdec)
        exact hnot (heq ▸ hr'')
      rw [if_pos rfl, hrest, List.append_nil]
    · rw [if_neg heq, List.nil_append]
      exact ih hnodup' ((List.mem_cons.1 hr).resolve_left (Ne.symm heq))

/-- a line of the WorkTable run is determined by its repetition and its phase -/
theorem worktableLines_unique {config : Config} {a b : Line} {r r' : ℕ} (ha : a ∈ worktableLines config r)
    (hb : b ∈ worktableLines config r') (hrep : a.repetition = b.repetition) (hphase : a.phase = b.phase) : a = b := by
  have hr : r = r' := by
    rw [← worktableLines_repetition config r a ha, ← worktableLines_repetition config r' b hb, hrep]
  subst hr
  have hnodup : ((worktableLines config r).map Line.phase).Nodup := by
    rw [worktableLines_phases]
    decide
  exact List.inj_on_of_nodup_map hnodup ha hb hphase

/-- **The paired runners agree.** On a configuration that both accept, both emit each of the nine phases once for every
repetition, the two runs have the same lines, and lines of the same phase and repetition have the same checksum. -/
theorem paired_runners_agree (config : Config) (hworktable : config.checkWorktable = .ok ())
    (hsqlite : config.checkSqlite = .ok ()) :
    ∃ worktable sqlite, Worktable.main config = some worktable ∧ Sqlite.main config = some sqlite ∧
      (∀ repetition ∈ List.range' 1 config.repetitions,
        ((worktable.filter fun line => line.repetition = repetition).map Line.phase).Perm phaseNames ∧
        ((sqlite.filter fun line => line.repetition = repetition).map Line.phase).Perm phaseNames) ∧
      worktable.Perm sqlite ∧
      ∀ a ∈ worktable, ∀ b ∈ sqlite, a.repetition = b.repetition → a.phase = b.phase → a.checksum = b.checksum := by
  have hacc := Config.accepted_of_check hsqlite
  have hperm : ((List.range' 1 config.repetitions).map (worktableLines config)).flatten.Perm
      ((List.range' 1 config.repetitions).map (sqliteLines config)).flatten := by
    rw [← List.flatMap_def, ← List.flatMap_def]
    exact List.Perm.flatMap_left _ fun r _ => lines_perm config r
  refine ⟨_, _, Worktable.main_eq hacc hworktable, Sqlite.main_eq hacc hsqlite, ?_, hperm, ?_⟩
  · intro repetition hrep
    have hphases : ((((List.range' 1 config.repetitions).map (worktableLines config)).flatten.filter
        fun line => decide (line.repetition = repetition)).map Line.phase).Perm phaseNames := by
      rw [filter_repetition _ (worktableLines_repetition config) _ List.nodup_range' hrep, worktableLines_phases]
    exact ⟨hphases, ((hperm.filter _).map _).symm.trans hphases⟩
  · intro a ha b hb hrep hphase
    rcases List.mem_flatten.1 ha with ⟨la, hla, ha⟩
    rcases List.mem_flatten.1 (hperm.mem_iff.2 hb) with ⟨lb, hlb, hb⟩
    rcases List.mem_map.1 hla with ⟨r, -, rfl⟩
    rcases List.mem_map.1 hlb with ⟨r', -, rfl⟩
    rw [worktableLines_unique ha hb hrep hphase]

/-- the configuration of the runner's own test -/
def smallConfig : Config := ⟨100, 100, 1, 10, 16, 10, 42⟩

theorem paired_runners_agree_small :
    ∃ worktable sqlite, Worktable.main smallConfig = some worktable ∧ Sqlite.main smallConfig = some sqlite ∧
      (∀ repetition ∈ List.range' 1 smallConfig.repetitions,
        ((worktable.filter fun line => line.repetition = repetition).map Line.phase).Perm phaseNames ∧
        ((sqlite.filter fun line => line.repetition = repetition).map Line.phase).Perm phaseNames) ∧
      worktable.Perm sqlite ∧
      ∀ a ∈ worktable, ∀ b ∈ sqlite, a.repetition = b.repetition → a.phase = b.phase → a.checksum = b.checksum :=
  paired_runners_agree smallConfig rfl rfl

end WtBenchmarks.Speedtest
