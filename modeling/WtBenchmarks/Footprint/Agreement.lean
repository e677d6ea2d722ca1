/-
The three storage footprint programs store the same rows.

Every engine is compared with one array indexed by the ids, written once for its key type and its form of a row: `upTo`
while the rows are loaded, `churnTo` while every fourth is deleted and every one after it updated. What the programs
store is then read off the array, and none of their verification steps reports anything.

- `churn_step`: the array under one churn turn, for any engine.
- `Worktable.main_ok`, `Sqlite.main_ok`, `Redb.main_ok`: a whole program against the array.
- `decodeRow_encoded`, `encodedChecksum_encoded`: what is read back of an encoded row, and its checksum.
- `footprint_agree`: the programs store the same logical rows after both loops, and which these are.
-/
import WtBenchmarks.Core.IndexedMap
import WtBenchmarks.Core.Total
import WtBenchmarks.Footprint.Programs

namespace WtBenchmarks.Footprint

open Indexed (upTo)

/-! ## The array -/

section Arrays

variable {α β : Type} [Ord α] [Std.TransOrd α] [Std.LawfulEqOrd α] {f : ℕ → α} {n : ℕ}
  {t : Std.ExtTreeMap α β} {w u : ℕ → β}

/-- the rows that are left of an array `w` after the churn loop; the updated ones are those of `u` -/
def churned (w u : ℕ → β) (i : ℕ) : Option β :=
  if i % 4 = 0 then none else if i % 4 = 1 then some (u i) else some (w i)

/-- the array after `i` churn turns -/
def churnTo (w u : ℕ → β) (i j : ℕ) : Option β := if j < i then churned w u j else some (w j)

theorem churnTo_succ (w u : ℕ → β) (i : ℕ) :
    churnTo w u (i + 1) = Function.update (churnTo w u i) i (churned w u i) := by
  funext j
  by_cases hj : j = i
  · subst hj
    rw [Function.update_self, churnTo, if_pos (Nat.lt_succ_self j)]
  · rw [Function.update_of_ne hj, churnTo, churnTo]
    by_cases hlt : j < i
    · rw [if_pos hlt, if_pos (by omega)]
    · rw [if_neg hlt, if_neg (by omega)]

omit [Std.LawfulEqOrd α] in
theorem churnTo_zero (h : Indexed f n t (upTo n w)) : Indexed f n t (churnTo w u 0) :=
  ⟨fun i hi => by rw [h.get i hi, upTo, if_pos hi, churnTo, if_neg (Nat.not_lt_zero i)], h.only⟩

omit [Std.LawfulEqOrd α] in
theorem churned_of_churnTo (h : Indexed f n t (churnTo w u n)) : Indexed f n t (churned w u) :=
  ⟨fun i hi => by rw [h.get i hi, churnTo, if_pos hi], h.only⟩

/-- **One churn turn.** The row is there; it is deleted, replaced or left alone. -/
theorem churn_step (hf : Set.InjOn f (Set.Iio n)) {i : ℕ} (hi : i < n) (h : Indexed f n t (churnTo w u i)) :
    t[f i]? = some (w i) ∧
      (i % 4 = 0 → Indexed f n (t.erase (f i)) (churnTo w u (i + 1))) ∧
      (i % 4 = 1 → Indexed f n (t.insert (f i) (u i)) (churnTo w u (i + 1))) ∧
      (i % 4 ≠ 0 → i % 4 ≠ 1 → Indexed f n t (churnTo w u (i + 1))) := by
  have hget : churnTo w u i i = some (w i) := if_neg (Nat.lt_irrefl i)
  rw [churnTo_succ]
  refine ⟨(h.get i hi).trans hget, fun h0 => ?_, fun h1 => ?_, fun h0 h1 => ?_⟩
  · rw [churned, if_pos h0]
    exact h.erase hf hi
  · rw [churned, if_neg (by omega), if_pos h1]
    exact h.insert hf hi (u i)
  · rw [churned, if_neg h0, if_neg h1, ← hget, Function.update_eq_self]
    exact h

/-- three of four rows are left, and of a last incomplete group all but the first -/
theorem churned_count {γ : Type} (g : ℕ → β → γ) :
    ((List.range n).filterMap fun i => (churned w u i).map (g i)).length = n - (n + 3) / 4 := by
  induction n with
  | zero => rfl
  | succ n ih =>
    rw [List.range_succ, List.filterMap_append, List.length_append, ih]
    by_cases h0 : n % 4 = 0
    · have hnone : (List.filterMap (fun i => (churned w u i).map (g i)) [n]).length = 0 := by simp [churned, h0]
      omega
    · have hsome : (List.filterMap (fun i => (churned w u i).map (g i)) [n]).length = 1 := by
        by_cases h1 : n % 4 = 1
        · simp [churned, h1]
        · simp [churned, h0, h1]
      omega

theorem churned_size (hf : Increasing f n) (h : Indexed f n t (churned w u)) : t.size = n - (n + 3) / 4 := by
  rw [← Std.ExtTreeMap.length_toList, h.toList_eq hf]
  exact churned_count fun i p => (f i, p)

/-- the contents an array of logical rows stands for -/
def entries (n : ℕ) (v : ℕ → Option LogicalRow) : Contents :=
  (List.range n).filterMap fun i => (v i).map fun row => ((i : ℤ), row)

/-- what an engine stores is read off the array -/
theorem contents_eq (hf : Increasing f n) {v : ℕ → Option β} (h : Indexed f n t v) (key : α → ℤ)
    (logical : β → Option LogicalRow) {v' : ℕ → Option LogicalRow} (hkey : ∀ i < n, key (f i) = i)
    (hsome : ∀ i < n, ∀ p, v i = some p → ∃ row, logical p = some row ∧ v' i = some row)
    (hnone : ∀ i < n, v i = none → v' i = none) :
    (t.toList.mapM fun e => (logical e.2).map fun row => (key e.1, row)) = some (entries n v') := by
  rw [h.toList_eq hf, Indexed.listing, entries]
  have hall : ∀ i ∈ List.range n, i < n := fun i hi => List.mem_range.1 hi
  revert hall
  generalize List.range n = ids
  intro hall
  induction ids with
  | nil => rfl
  | cons i ids ih =>
    have hi := hall i List.mem_cons_self
    have hrest := ih fun j hj => hall j (List.mem_cons_of_mem i hj)
    cases hv : v i with
    | none =>
      rw [List.filterMap_cons_none (by rw [hv]; rfl), List.filterMap_cons_none (by rw [hnone i hi hv]; rfl)]
      exact hrest
    | some p =>
      obtain ⟨row, hrow, hv'⟩ := hsome i hi p hv
      rw [List.filterMap_cons_some (b := (f i, p)) (by rw [hv]; rfl),
        List.filterMap_cons_some (b := ((i : ℤ), row)) (by rw [hv']; rfl), List.mapM_cons, hrest, hrow, hkey i hi]
      rfl

/-- the same for rows that can always be read -/
theorem contents_map_eq (hf : Increasing f n) {v : ℕ → Option β} (h : Indexed f n t v) (key : α → ℤ)
    (logical : β → LogicalRow) {v' : ℕ → Option LogicalRow} (hkey : ∀ i < n, key (f i) = i)
    (hlogical : ∀ i < n, (v i).map logical = v' i) :
    (t.toList.map fun e => (key e.1, logical e.2)) = entries n v' := by
  have hsome : ∀ i < n, ∀ p, v i = some p → ∃ row, some (logical p) = some row ∧ v' i = some row := by
    intro i hi p hv
    exact ⟨logical p, rfl, by rw [← hlogical i hi, hv]; rfl⟩
  have hnone : ∀ i < n, v i = none → v' i = none := by
    intro i hi hv
    rw [← hlogical i hi, hv]
    rfl
  have hmapM := contents_eq hf h key (fun p => some (logical p)) hkey hsome hnone
  exact Option.some.inj ((mapM_eq_some t.toList fun e _ => rfl).symm.trans hmapM)

end Arrays

/-! ## Logical rows -/

variable {config : StorageConfig}

/-- the row that is loaded for an id -/
def loadedRow (config : StorageConfig) (i : ℕ) : LogicalRow :=
  ⟨i, (i % 10000 : ℕ), (UInt64.ofNat i * 17).toInt64, (score (UInt64.ofNat i)).toBits,
    payload (UInt64.ofNat i) config.payloadBytes⟩

/-- the row an update leaves -/
def updatedRow (config : StorageConfig) (i : ℕ) : LogicalRow :=
  { loadedRow config i with payload := payload (UInt64.ofNat i + 1000000) config.payloadBytes }

def loadedContents (config : StorageConfig) : Contents :=
  entries config.rows.toNat fun i => some (loadedRow config i)

def churnedContents (config : StorageConfig) : Contents :=
  entries config.rows.toNat (churned (loadedRow config) (updatedRow config))

/-- `String::from_utf8` of a payload does not fail -/
theorem payload_utf8 (id : UInt64) (bytes : ℕ) : ∃ s, fromUtf8 (payload id bytes) = some s := by
  refine fromUtf8_ascii fun b hb => ?_
  rw [List.eq_of_mem_replicate hb, marker]
  have hlt : (id % 26).toNat < 26 := by
    rw [UInt64.toNat_mod]
    exact Nat.mod_lt _ (by decide)
  rw [UInt8.lt_iff_toNat_lt, UInt8.toNat_add, UInt64.toNat_toUInt8]
  have h97 : (97 : UInt8).toNat = 97 := rfl
  have h128 : (128 : UInt8).toNat = 128 := rfl
  omega

theorem marker_toNat (seed : UInt64) : (marker seed).toNat = 97 + seed.toNat % 26 := by
  have hmod := Nat.mod_lt seed.toNat (show 0 < 26 by decide)
  have h97 : (97 : UInt8).toNat = 97 := rfl
  have h26 : (26 : UInt64).toNat = 26 := rfl
  rw [marker, UInt8.toNat_add, UInt64.toNat_toUInt8, UInt64.toNat_mod, h97, h26]
  omega

/-- an update changes a payload that is not empty -/
theorem payload_ne {i bytes : ℕ} (hi : i < 2 ^ 63) (hbytes : 0 < bytes) :
    payload (UInt64.ofNat i + 1000000) bytes ≠ payload (UInt64.ofNat i) bytes := by
  intro h
  have hmarker := congrArg UInt8.toNat ((List.replicate_right_inj (Nat.ne_of_gt hbytes)).1 h)
  have hnat := ofNat_toNat_of_lt (n := i) (by omega)
  have hadd : (UInt64.ofNat i + 1000000).toNat = i + 1000000 := by
    rw [toNat_add_of_lt (by rw [hnat]; show i + 1000000 < 2 ^ 64; omega), hnat]
    rfl
  rw [marker_toNat, marker_toNat, hadd, hnat] at hmarker
  omega

/-! ## Words -/

/-- the ids of the two loops -/
theorem id_toNat (hrows : config.rows.toNat < 2 ^ 63) {i : ℕ} (hi : i < config.rows.toNat) :
    (UInt64.ofNat i).toNat = i := ofNat_toNat_of_lt (by omega)

theorem mod_four_iff {i : ℕ} (hi : i < 2 ^ 64) :
    (UInt64.ofNat i % 4 = 0 ↔ i % 4 = 0) ∧ (UInt64.ofNat i % 4 = 1 ↔ i % 4 = 1) := by
  have hnat : (UInt64.ofNat i % 4).toNat = i % 4 := by
    rw [UInt64.toNat_mod, ofNat_toNat_of_lt hi]
    rfl
  rw [← UInt64.toNat_inj, ← UInt64.toNat_inj, hnat]
  exact ⟨Iff.rfl, Iff.rfl⟩

theorem liveRowsAfterChurn_toNat (rows : UInt64) :
    (liveRowsAfterChurn rows).toNat = rows.toNat - (rows.toNat + 3) / 4 := by
  have hceil : (divCeil rows 4).toNat = (rows.toNat + 3) / 4 := divCeil_toNat (by decide)
  have hle : divCeil rows 4 ≤ rows := by
    rw [UInt64.le_iff_toNat_le, hceil]
    omega
  rw [liveRowsAfterChurn, UInt64.toNat_sub_of_le _ _ hle, hceil]

/-- the number of rows that are left, as a word -/
theorem size_ofNat {size : ℕ} (h : size = config.rows.toNat - (config.rows.toNat + 3) / 4) :
    UInt64.ofNat size = liveRowsAfterChurn config.rows := by
  rw [h, ← liveRowsAfterChurn_toNat, UInt64.ofNat_toNat]

/-! ## Steps -/

theorem verify_ok {ok : Prop} [Decidable ok] (h : ok) (message : String) : verify ok message = .ok () := if_pos h

/-- what an accepted configuration guarantees -/
structure StorageConfig.Accepted (config : StorageConfig) : Prop where
  rows : 0 < config.rows.toNat
  drainEvery : 0 < config.drainEvery.toNat

theorem StorageConfig.accepted_of_validate (h : config.validate = .ok ()) : config.Accepted := by
  unfold validate at h
  split_ifs at h with hrows hdrain
  exact ⟨toNat_pos_of_ne hrows, toNat_pos_of_ne hdrain⟩

theorem increasing_ids (hrows : config.rows.toNat < 2 ^ 63) : Increasing UInt64.ofNat config.rows.toNat :=
  increasing_u64 (by omega)

theorem increasing_casts (hrows : config.rows.toNat < 2 ^ 63) :
    Increasing (fun i => (UInt64.ofNat i).toInt64) config.rows.toNat := increasing_i64 (by omega)

/-! ## WorkTable -/

namespace Worktable

/-- the row an id is loaded with -/
def rowAt (config : StorageConfig) (i : ℕ) : Row :=
  let id := UInt64.ofNat i
  ⟨id, id % 10000, id * 17, score id, Footprint.payload id config.payloadBytes⟩

/-- the row an update leaves -/
def updatedAt (config : StorageConfig) (i : ℕ) : Row :=
  { rowAt config i with payload := Footprint.payload (UInt64.ofNat i + 1000000) config.payloadBytes }

/-- the table holds an array -/
abbrev Holds (config : StorageConfig) (table : Table) (v : ℕ → Option Row) : Prop :=
  Indexed UInt64.ofNat config.rows.toNat table.rows v

theorem drainAfter_eq (hdrain : 0 < config.drainEvery.toNat) (table : Table) {i : ℕ} (hi : i < 2 ^ 63) :
    drainAfter config table (UInt64.ofNat i) = .ok table := by
  have hnat := ofNat_toNat_of_lt (n := i) (by omega)
  obtain ⟨next, hnext, -⟩ := checkedAdd_some (a := UInt64.ofNat i) (b := 1) (by
    rw [hnat, UInt64.toNat_one]
    omega)
  obtain ⟨rest, hrest, -⟩ := checkedMod_some (a := next) hdrain
  rw [drainAfter, hnext, orPanic, ok_bind, hrest, orPanic, ok_bind, drain]
  split_ifs <;> rfl

section

variable (hok : config.Accepted) (hrows : config.rows.toNat < 2 ^ 63)

include hok hrows

theorem load_holds : ∃ table,
    (List.range config.rows.toNat).foldlM (loadTurn config) (GroupTable.empty _) = .ok table ∧
      Holds config table (upTo config.rows.toNat (rowAt config)) := by
  refine exists_foldlM_range_pure (I := fun i t => Holds config t (upTo i (rowAt config))) config.rows.toNat
    (fun i t hi hI => ?_) _ (Indexed.empty_upTo _ _ _)
  obtain ⟨hnew, hnext⟩ := Indexed.load_step (increasing_ids hrows).injOn hi hI
  refine ⟨t.insertNew (UInt64.ofNat i) (rowAt config i) hnew, ?_, hnext⟩
  have hinsert : insert t (rowAt config i) = .ok (t.insertNew (UInt64.ofNat i) (rowAt config i) hnew) := dif_neg hnew
  show (insert t (rowAt config i) >>= fun table => drainAfter config table (UInt64.ofNat i)) = _
  rw [hinsert, ok_bind, drainAfter_eq hok.drainEvery _ (by omega)]
  rfl

theorem churnTurn_spec {i : ℕ} (hi : i < config.rows.toNat) {t : Table}
    (hI : Holds config t (churnTo (rowAt config) (updatedAt config) i)) : ∃ t', churnTurn config t i = .ok t' ∧
      Holds config t' (churnTo (rowAt config) (updatedAt config) (i + 1)) := by
  obtain ⟨hget, hdelete, hupdate, hrest⟩ := churn_step (increasing_ids hrows).injOn hi hI
  obtain ⟨hzero, hone⟩ := mod_four_iff (i := i) (by omega)
  have hmem : UInt64.ofNat i ∈ t.rows := (TreeMap.mem_iff_get t.rows _).2 ⟨_, hget⟩
  have hdrain : ∀ t, drainAfter config t (UInt64.ofNat i) = .ok t :=
    fun t => drainAfter_eq hok.drainEvery t (by omega)
  unfold churnTurn
  by_cases h0 : i % 4 = 0
  · refine ⟨t.erase (UInt64.ofNat i), ?_, ?_⟩
    · rw [if_pos (hzero.2 h0), delete, if_pos hmem, ok_bind]
      exact hdrain _
    · rw [Holds, GroupTable.erase_rows t hmem]
      exact hdelete h0
  by_cases h1 : i % 4 = 1
  · refine ⟨t.modify (UInt64.ofNat i) (fun row =>
      { row with payload := Footprint.payload (UInt64.ofNat i + 1000000) config.payloadBytes }) fun _ => rfl, ?_, ?_⟩
    · rw [if_neg (mt hzero.1 h0), if_pos (hone.2 h1), updateSetPayload, if_pos hmem, ok_bind]
      exact hdrain _
    · rw [Holds, GroupTable.modify_rows t _ hget]
      exact hupdate h1
  · refine ⟨t, ?_, hrest h0 h1⟩
    rw [if_neg (mt hzero.1 h0), if_neg (mt hone.1 h1), ok_bind]
    exact hdrain _

theorem churn_holds {table : Table} (h : Holds config table (upTo config.rows.toNat (rowAt config))) :
    ∃ table', (List.range config.rows.toNat).foldlM (churnTurn config) table = .ok table' ∧
      Holds config table' (churned (rowAt config) (updatedAt config)) := by
  obtain ⟨table', htable', hholds⟩ := exists_foldlM_range_pure
    (I := fun i t => Holds config t (churnTo (rowAt config) (updatedAt config) i)) config.rows.toNat
    (fun i t hi hI => churnTurn_spec hok hrows hi hI) table (churnTo_zero h)
  exact ⟨table', htable', churned_of_churnTo hholds⟩

theorem verifyReloaded_ok {table : Table} (h : Holds config table (churned (rowAt config) (updatedAt config))) :
    verifyReloaded table config (liveRowsAfterChurn config.rows) = .ok () := by
  have hcount : count table = liveRowsAfterChurn config.rows := size_ofNat (churned_size (increasing_ids hrows) h)
  have hzero : (0 : UInt64) ∉ table.rows := by
    rw [show (0 : UInt64) = UInt64.ofNat 0 from rfl, h.mem_iff hok.rows]
    simp [churned]
  rw [verifyReloaded, verify_ok hcount, ok_bind, verify_ok hzero, ok_bind]
  split_ifs with hone
  · rw [UInt64.lt_iff_toNat_lt, UInt64.toNat_one] at hone
    have hget : table.rows[(1 : UInt64)]? = some (updatedAt config 1) := h.get 1 hone
    have hindexed : ((table.selectByGroup 1).any fun candidate => candidate.id == 1) = true := by
      rw [List.any_eq_true]
      exact ⟨updatedAt config 1, table.mem_selectByGroup.2 ⟨1, hget, rfl⟩, rfl⟩
    have hpayload : (updatedAt config 1).payload = Footprint.payload 1000001 config.payloadBytes := rfl
    simp only [hget]
    rw [verify_ok hpayload, ok_bind, verify_ok hindexed]
  · rfl

/-- **WorkTable.** The program ends without a failure, and its table holds the array after both loops. -/
theorem main_ok : ∃ stages, main config = .ok stages ∧
    Holds config stages.loaded (upTo config.rows.toNat (rowAt config)) ∧
    Holds config stages.churned (churned (rowAt config) (updatedAt config)) := by
  obtain ⟨loaded, hloaded, hload⟩ := load_holds hok hrows
  obtain ⟨churned, hchurned, hchurn⟩ := churn_holds hok hrows hload
  have hcount : count loaded = config.rows := by
    rw [count, (Full.of_upTo hload).size_eq (increasing_ids hrows).injOn, UInt64.ofNat_toNat]
  have hcount' : count churned = liveRowsAfterChurn config.rows :=
    size_ofNat (churned_size (increasing_ids hrows) hchurn)
  refine ⟨⟨loaded, churned⟩, ?_, hload, hchurn⟩
  rw [main, hloaded, ok_bind, drain, ok_bind, verify_ok hcount, ok_bind, hchurned, ok_bind, drain, ok_bind]
  dsimp only
  rw [verify_ok hcount', ok_bind, reopened, verifyReloaded_ok hok hrows hchurn, ok_bind]

end

end Worktable

/-! ## SQLite -/

namespace Sqlite

def rowAt (config : StorageConfig) (i : ℕ) : Row :=
  let id := UInt64.ofNat i
  ⟨id.toInt64, (id % 10000).toInt64, (id * 17).toInt64, score id, Footprint.payload id config.payloadBytes⟩

def updatedAt (config : StorageConfig) (i : ℕ) : Row :=
  { rowAt config i with payload := Footprint.payload (UInt64.ofNat i + 1000000) config.payloadBytes }

abbrev Holds (config : StorageConfig) (table : Table) (v : ℕ → Option Row) : Prop :=
  Indexed (fun i => (UInt64.ofNat i).toInt64) config.rows.toNat table.rows v

section

variable (hok : config.Accepted) (hrows : config.rows.toNat < 2 ^ 63)

include hrows

theorem load_holds : ∃ table,
    (List.range config.rows.toNat).foldlM (loadTurn config) (GroupTable.empty _) = .ok table ∧
      Holds config table (upTo config.rows.toNat (rowAt config)) := by
  refine exists_foldlM_range_pure (I := fun i t => Holds config t (upTo i (rowAt config))) config.rows.toNat
    (fun i t hi hI => ?_) _ (Indexed.empty_upTo _ _ _)
  obtain ⟨hnew, hnext⟩ := Indexed.load_step (increasing_casts hrows).injOn hi hI
  exact ⟨t.insertNew (UInt64.ofNat i).toInt64 (rowAt config i) hnew, dif_neg hnew, hnext⟩

theorem churnTurn_spec {i : ℕ} (hi : i < config.rows.toNat) {t : Table}
    (hI : Holds config t (churnTo (rowAt config) (updatedAt config) i)) : ∃ t', churnTurn config t i = .ok t' ∧
      Holds config t' (churnTo (rowAt config) (updatedAt config) (i + 1)) := by
  obtain ⟨hget, hdelete, hupdate, hrest⟩ := churn_step (increasing_casts hrows).injOn hi hI
  obtain ⟨hzero, hone⟩ := mod_four_iff (i := i) (by omega)
  have hmem : (UInt64.ofNat i).toInt64 ∈ t.rows := (TreeMap.mem_iff_get t.rows _).2 ⟨_, hget⟩
  unfold churnTurn
  by_cases h0 : i % 4 = 0
  · refine ⟨_, if_pos (hzero.2 h0), ?_⟩
    rw [Holds, GroupTable.erase_rows t hmem]
    exact hdelete h0
  by_cases h1 : i % 4 = 1
  · refine ⟨_, (if_neg (mt hzero.1 h0)).trans (if_pos (hone.2 h1)), ?_⟩
    rw [Holds, GroupTable.modify_rows t _ hget]
    exact hupdate h1
  · exact ⟨t, (if_neg (mt hzero.1 h0)).trans (if_neg (mt hone.1 h1)), hrest h0 h1⟩

theorem churn_holds {table : Table} (h : Holds config table (upTo config.rows.toNat (rowAt config))) :
    ∃ table', (List.range config.rows.toNat).foldlM (churnTurn config) table = .ok table' ∧
      Holds config table' (churned (rowAt config) (updatedAt config)) := by
  obtain ⟨table', htable', hholds⟩ := exists_foldlM_range_pure
    (I := fun i t => Holds config t (churnTo (rowAt config) (updatedAt config) i)) config.rows.toNat
    (fun i t hi hI => churnTurn_spec hrows hi hI) table (churnTo_zero h)
  exact ⟨table', htable', churned_of_churnTo hholds⟩

include hok

theorem verifyState_ok {table : Table} (h : Holds config table (churned (rowAt config) (updatedAt config))) :
    verifyState table config (liveRowsAfterChurn config.rows) = .ok () := by
  have hcount : (Int64.ofNat table.rows.size).toUInt64 = liveRowsAfterChurn config.rows := by
    rw [← size_ofNat (churned_size (increasing_casts hrows) h)]
    rfl
  have hzero : (0 : Int64) ∉ table.rows := by
    rw [show (0 : Int64) = (UInt64.ofNat 0).toInt64 from rfl, h.mem_iff hok.rows]
    simp [churned]
  unfold verifyState
  dsimp only
  rw [verify_ok hcount, ok_bind, verify_ok hzero, ok_bind]
  split_ifs with hone
  · rw [UInt64.lt_iff_toNat_lt, UInt64.toNat_one] at hone
    have hget : table.rows[(1 : Int64)]? = some (updatedAt config 1) := h.get 1 hone
    have hfound : (table.rows[(1 : Int64)]?.filter fun row => row.accountId = 1) = some (updatedAt config 1) := by
      rw [hget]
      rfl
    have hpayload : (updatedAt config 1).payload = Footprint.payload 1000001 config.payloadBytes := rfl
    simp only [hfound]
    exact verify_ok hpayload _
  · rfl

/-- **SQLite.** The program ends without a failure, and its table holds the array after both loops. -/
theorem main_ok : ∃ stages, main config = .ok stages ∧
    Holds config stages.loaded (upTo config.rows.toNat (rowAt config)) ∧
    Holds config stages.churned (churned (rowAt config) (updatedAt config)) := by
  obtain ⟨loaded, hloaded, hload⟩ := load_holds hrows
  obtain ⟨churned, hchurned, hchurn⟩ := churn_holds hrows hload
  have hverify := verifyState_ok hok hrows hchurn
  refine ⟨⟨loaded, churned⟩, ?_, hload, hchurn⟩
  rw [main, hloaded, ok_bind, hchurned, ok_bind]
  dsimp only [reopened]
  rw [hverify, ok_bind, ok_bind, ok_bind]

end

end Sqlite

/-! ## redb -/

/-! ### The encoding -/

theorem wordAt_append (pre rest : List UInt8) (x : UInt64) {i : ℕ} (hi : pre.length = i) :
    wordAt (pre ++ leBytes 8 x.toNat ++ rest) i = some x := by
  rw [wordAt, slice_append pre _ rest hi (by rw [leBytes_length]), Option.map_some, word_leBytes]

/-- the words in front of a payload -/
structure Header where
  id : UInt64
  accountId : UInt64
  sequence : UInt64
  scoreBits : UInt64

namespace Header

/-- the words an id is stored under -/
def ofId (id : UInt64) : Header := ⟨id, id % 10000, id * 17, (score id).toBits⟩

/-- the layout of an encoded row, with any words and any payload -/
def row (header : Header) (payload : List UInt8) : List UInt8 :=
  leBytes 8 header.id.toNat ++ (leBytes 8 header.accountId.toNat ++ (leBytes 8 header.sequence.toNat ++
    (leBytes 8 header.scoreBits.toNat ++ payload)))

/-- the checksum of such a row: the payload is in it with its length only -/
def digest (header : Header) (length : ℕ) : UInt64 :=
  header.id ^^^ header.accountId ^^^ header.sequence ^^^ header.scoreBits ^^^ UInt64.ofNat length

variable (header : Header) (payload : List UInt8)

theorem words_row : wordAt (header.row payload) 0 = some header.id ∧
    wordAt (header.row payload) 8 = some header.accountId ∧
    wordAt (header.row payload) 16 = some header.sequence ∧
    wordAt (header.row payload) 24 = some header.scoreBits := by
  unfold row
  refine ⟨?_, ?_, ?_, ?_⟩
  · exact wordAt_append [] _ header.id rfl
  · rw [← List.append_assoc]
    exact wordAt_append (leBytes 8 header.id.toNat) _ header.accountId (by simp)
  · rw [← List.append_assoc, ← List.append_assoc]
    exact wordAt_append (leBytes 8 header.id.toNat ++ leBytes 8 header.accountId.toNat) _ header.sequence (by simp)
  · rw [← List.append_assoc, ← List.append_assoc, ← List.append_assoc]
    exact wordAt_append
      (leBytes 8 header.id.toNat ++ leBytes 8 header.accountId.toNat ++ leBytes 8 header.sequence.toNat) _
      header.scoreBits (by simp)

theorem payload_row : sliceFrom (header.row payload) fixedBytes = some payload := by
  unfold row
  rw [← List.append_assoc, ← List.append_assoc, ← List.append_assoc]
  exact sliceFrom_append _ _ (by simp [fixedBytes])

theorem encodedChecksum_row : encodedChecksum (header.row payload) = some (header.digest payload.length) := by
  obtain ⟨hid, haccount, hsequence, hscore⟩ := words_row header payload
  have hlength : (header.row payload).length - fixedBytes = payload.length := by
    simp only [row, List.length_append, leBytes_length, fixedBytes]
    omega
  simp only [encodedChecksum, hid, haccount, hsequence, hscore, hlength, Option.bind_eq_bind, Option.bind_some]
  rfl

end Header

section Encoding

variable (id seed : UInt64) (bytes : ℕ)

theorem encoded_eq_row : encodedRowWithPayloadSeed id seed bytes = (Header.ofId id).row (payload seed bytes) := rfl

/-- **An encoded row reads back.** -/
theorem decodeRow_encoded : decodeRow (encodedRowWithPayloadSeed id seed bytes) =
    some ⟨id.toNat, (id % 10000).toNat, (id * 17).toInt64, (score id).toBits, payload seed bytes⟩ := by
  obtain ⟨hid, haccount, hsequence, hscore⟩ := (Header.ofId id).words_row (payload seed bytes)
  have hpayload := (Header.ofId id).payload_row (payload seed bytes)
  rw [encoded_eq_row]
  simp only [decodeRow, hid, haccount, hsequence, hscore, hpayload, Option.bind_eq_bind, Option.bind_some]
  rfl

theorem encodedChecksum_encoded :
    encodedChecksum (encodedRowWithPayloadSeed id seed bytes) = some ((Header.ofId id).digest bytes) := by
  rw [encoded_eq_row, Header.encodedChecksum_row, payload, List.length_replicate]

end Encoding

namespace Redb

def rowAt (config : StorageConfig) (i : ℕ) : List UInt8 := encodedRow (UInt64.ofNat i) config.payloadBytes

def updatedAt (config : StorageConfig) (i : ℕ) : List UInt8 :=
  encodedRowWithPayloadSeed (UInt64.ofNat i) (UInt64.ofNat i + 1000000) config.payloadBytes

/-- the entry of an id in the index -/
def entry (i : ℕ) : UInt64 × UInt64 := (UInt64.ofNat i % 10000, UInt64.ofNat i)

/-- the rows are an array, and the index lists the ids of `live` -/
structure Holds (config : StorageConfig) (table : Table) (v : ℕ → Option (List UInt8)) (live : Finset ℕ) : Prop where
  rows : Indexed UInt64.ofNat config.rows.toNat table.rows v
  index : table.index = live.image entry

/-- the ids that are live after `i` churn turns -/
def liveTo (n i : ℕ) : Finset ℕ := (Finset.range n).filter fun j => i ≤ j ∨ j % 4 ≠ 0

section

variable (hok : config.Accepted) (hrows : config.rows.toNat < 2 ^ 63)

include hrows

theorem load_holds : ∃ table, (List.range config.rows.toNat).foldlM (loadTurn config) Table.empty = .ok table ∧
    Holds config table (upTo config.rows.toNat (rowAt config)) (Finset.range config.rows.toNat) := by
  refine exists_foldlM_range_pure (I := fun i t => Holds config t (upTo i (rowAt config)) (Finset.range i))
    config.rows.toNat (fun i t hi hI => ?_) _ ⟨Indexed.empty_upTo _ _ _, rfl⟩
  obtain ⟨-, hnext⟩ := Indexed.load_step (increasing_ids hrows).injOn hi hI.rows
  refine ⟨_, rfl, hnext, ?_⟩
  rw [Finset.range_add_one, Finset.image_insert, ← hI.index]
  rfl

theorem churnTurn_spec {i : ℕ} (hi : i < config.rows.toNat) {t : Table}
    (hI : Holds config t (churnTo (rowAt config) (updatedAt config) i) (liveTo config.rows.toNat i)) :
    ∃ t', churnTurn config t i = .ok t' ∧
      Holds config t' (churnTo (rowAt config) (updatedAt config) (i + 1)) (liveTo config.rows.toNat (i + 1)) := by
  obtain ⟨-, hdelete, hupdate, hrest⟩ := churn_step (increasing_ids hrows).injOn hi hI.rows
  obtain ⟨hzero, hone⟩ := mod_four_iff (i := i) (by omega)
  have hsame : i % 4 ≠ 0 → liveTo config.rows.toNat (i + 1) = liveTo config.rows.toNat i := by
    intro h0
    ext j
    simp only [liveTo, Finset.mem_filter, Finset.mem_range]
    by_cases hj : j = i
    · subst hj
      simp [h0]
    · constructor <;> rintro ⟨hlt, hor⟩ <;> exact ⟨hlt, by omega⟩
  unfold churnTurn
  by_cases h0 : i % 4 = 0
  · refine ⟨_, if_pos (hzero.2 h0), hdelete h0, ?_⟩
    have hlive : liveTo config.rows.toNat (i + 1) = (liveTo config.rows.toNat i).erase i := by
      ext j
      simp only [liveTo, Finset.mem_filter, Finset.mem_range, Finset.mem_erase]
      constructor
      · rintro ⟨hlt, hor⟩
        have hne : j ≠ i := by
          rintro rfl
          omega
        exact ⟨hne, hlt, by omega⟩
      · rintro ⟨hne, hlt, hor⟩
        exact ⟨hlt, by omega⟩
    show t.index.erase (entry i) = _
    rw [hlive, hI.index]
    ext p
    simp only [Finset.mem_erase, Finset.mem_image]
    constructor
    · rintro ⟨hne, j, hj, rfl⟩
      exact ⟨j, ⟨fun he => hne (by rw [he]), hj⟩, rfl⟩
    · rintro ⟨j, ⟨hne, hj⟩, rfl⟩
      refine ⟨fun he => hne ?_, j, hj, rfl⟩
      have hlt : j < config.rows.toNat := Finset.mem_range.1 (Finset.mem_filter.1 hj).1
      exact (increasing_ids hrows).injOn hlt hi (congrArg Prod.snd he)
  by_cases h1 : i % 4 = 1
  · refine ⟨_, (if_neg (mt hzero.1 h0)).trans (if_pos (hone.2 h1)), hupdate h1, ?_⟩
    rw [hsame h0]
    exact hI.index
  · refine ⟨t, (if_neg (mt hzero.1 h0)).trans (if_neg (mt hone.1 h1)), hrest h0 h1, ?_⟩
    rw [hsame h0]
    exact hI.index

/-- the ids that are left -/
def live (config : StorageConfig) : Finset ℕ := liveTo config.rows.toNat config.rows.toNat

theorem churn_holds {table : Table}
    (h : Holds config table (upTo config.rows.toNat (rowAt config)) (Finset.range config.rows.toNat)) :
    ∃ table', (List.range config.rows.toNat).foldlM (churnTurn config) table = .ok table' ∧
      Holds config table' (churned (rowAt config) (updatedAt config)) (live config) := by
  have hstart : Finset.range config.rows.toNat = liveTo config.rows.toNat 0 := by
    rw [liveTo, Finset.filter_true_of_mem]
    exact fun j _ => Or.inl (Nat.zero_le j)
  obtain ⟨table', htable', hholds⟩ := exists_foldlM_range_pure
    (I := fun i t => Holds config t (churnTo (rowAt config) (updatedAt config) i) (liveTo config.rows.toNat i))
    config.rows.toNat (fun i t hi hI => churnTurn_spec hrows hi hI) table
    ⟨churnTo_zero h.rows, h.index.trans (by rw [hstart])⟩
  exact ⟨table', htable', churned_of_churnTo hholds.rows, hholds.index⟩

include hok

theorem verifyState_ok {table : Table}
    (h : Holds config table (churned (rowAt config) (updatedAt config)) (live config)) :
    verifyState table config (liveRowsAfterChurn config.rows) = .ok () := by
  have hcount : UInt64.ofNat table.rows.size = liveRowsAfterChurn config.rows :=
    size_ofNat (churned_size (increasing_ids hrows) h.rows)
  have hzero : (0 : UInt64) ∉ table.rows := by
    rw [show (0 : UInt64) = UInt64.ofNat 0 from rfl, h.rows.mem_iff hok.rows]
    simp [churned]
  unfold verifyState
  dsimp only
  rw [verify_ok hcount, ok_bind, verify_ok hzero, ok_bind]
  split_ifs with hone
  · rw [UInt64.lt_iff_toNat_lt, UInt64.toNat_one] at hone
    have hget : table.rows[(1 : UInt64)]? = some (encodedRowWithPayloadSeed 1 1000001 config.payloadBytes) :=
      h.rows.get 1 hone
    have hindexed : ((1 : UInt64), (1 : UInt64)) ∈ table.index := by
      rw [h.index]
      exact Finset.mem_image.2 ⟨1, Finset.mem_filter.2 ⟨Finset.mem_range.2 hone, Or.inr (by decide)⟩, rfl⟩
    have hchecksum := encodedChecksum_encoded 1 1000001 config.payloadBytes
    simp only [hget, hchecksum, orPanic]
    rw [ok_bind, verify_ok rfl, ok_bind, verify_ok hindexed]
  · rfl

/-- **redb.** The program ends without a failure, its rows are the array after both loops, and its index lists the live
ids. -/
theorem main_ok : ∃ stages, main config = .ok stages ∧
    Holds config stages.loaded (upTo config.rows.toNat (rowAt config)) (Finset.range config.rows.toNat) ∧
    Holds config stages.churned (churned (rowAt config) (updatedAt config)) (live config) := by
  obtain ⟨loaded, hloaded, hload⟩ := load_holds hrows
  obtain ⟨churned, hchurned, hchurn⟩ := churn_holds hrows hload
  have hverify := verifyState_ok hok hrows hchurn
  refine ⟨⟨loaded, churned⟩, ?_, hload, hchurn⟩
  rw [main, hloaded, ok_bind, hchurned, ok_bind]
  dsimp only [reopened]
  rw [hverify, ok_bind, ok_bind, ok_bind]

end

end Redb

/-! ## Contents -/

theorem mem_entries {n : ℕ} {v : ℕ → Option LogicalRow} {x : ℤ} {row : LogicalRow} :
    (x, row) ∈ entries n v ↔ ∃ i < n, v i = some row ∧ (i : ℤ) = x := by
  simp only [entries, List.mem_filterMap, List.mem_range, Option.map_eq_some_iff, Prod.mk.injEq]
  constructor
  · rintro ⟨i, hi, row', hv, hx, rfl⟩
    exact ⟨i, hi, hv, hx⟩
  · rintro ⟨i, hi, hv, hx⟩
    exact ⟨i, hi, row, hv, hx, rfl⟩

/-- a map of rows commutes with the churn loop -/
theorem churned_map {β γ : Type} {w u : ℕ → β} {w' u' : ℕ → γ} {g : β → γ} {i : ℕ} (hw : g (w i) = w' i)
    (hu : g (u i) = u' i) : (churned w u i).map g = churned w' u' i := by
  unfold churned
  split_ifs
  · rfl
  · exact congrArg some hu
  · exact congrArg some hw

theorem account_eq {i : ℕ} (hi : i < 2 ^ 63) : UInt64.ofNat i % 10000 = UInt64.ofNat (i % 10000) := by
  apply UInt64.toNat_inj.1
  rw [UInt64.toNat_mod, ofNat_toNat_of_lt (by omega), ofNat_toNat_of_lt (by omega)]
  rfl

section Contents

variable (hrows : config.rows.toNat < 2 ^ 63)

include hrows

theorem Worktable.rowAt_logical {i : ℕ} (hi : i < config.rows.toNat) :
    (Worktable.rowAt config i).logical = loadedRow config i := by
  have hid := id_toNat hrows hi
  have haccount : (UInt64.ofNat i % 10000).toNat = i % 10000 := by
    rw [account_eq (by omega), ofNat_toNat_of_lt (by omega)]
  simp only [Worktable.Row.logical, Worktable.rowAt, loadedRow, hid, haccount]

theorem Sqlite.rowAt_logical {i : ℕ} (hi : i < config.rows.toNat) :
    (Sqlite.rowAt config i).logical = loadedRow config i := by
  have hid : (UInt64.ofNat i).toInt64.toInt = i := toInt_ofNat_toInt64 (by omega)
  have haccount : (UInt64.ofNat i % 10000).toInt64.toInt = (i % 10000 : ℕ) := by
    rw [account_eq (by omega)]
    exact toInt_ofNat_toInt64 (by omega)
  simp only [Sqlite.Row.logical, Sqlite.rowAt, loadedRow, hid, haccount]

theorem Redb.decode_rowAt {i : ℕ} (hi : i < config.rows.toNat) (seed : UInt64) :
    decodeRow (encodedRowWithPayloadSeed (UInt64.ofNat i) seed config.payloadBytes) =
      some { loadedRow config i with payload := payload seed config.payloadBytes } := by
  have hid := id_toNat hrows hi
  have haccount : (UInt64.ofNat i % 10000).toNat = i % 10000 := by
    rw [account_eq (by omega), ofNat_toNat_of_lt (by omega)]
  rw [decodeRow_encoded, hid, haccount]
  rfl

theorem Worktable.contents_eq {table : Worktable.Table} {v : ℕ → Option Worktable.Row}
    {v' : ℕ → Option LogicalRow} (h : Worktable.Holds config table v)
    (hv : ∀ i < config.rows.toNat, (v i).map Worktable.Row.logical = v' i) :
    Worktable.contents table = entries config.rows.toNat v' :=
  contents_map_eq (increasing_ids hrows) h (fun k => (k.toNat : ℤ)) Worktable.Row.logical
    (fun i hi => by rw [id_toNat hrows hi]) hv

theorem Sqlite.contents_eq {table : Sqlite.Table} {v : ℕ → Option Sqlite.Row} {v' : ℕ → Option LogicalRow}
    (h : Sqlite.Holds config table v)
    (hv : ∀ i < config.rows.toNat, (v i).map Sqlite.Row.logical = v' i) :
    Sqlite.contents table = entries config.rows.toNat v' :=
  contents_map_eq (increasing_casts hrows) h Int64.toInt Sqlite.Row.logical
    (fun i hi => toInt_ofNat_toInt64 (by omega)) hv

theorem Redb.contents_eq {table : Redb.Table} {v : ℕ → Option (List UInt8)} {v' : ℕ → Option LogicalRow}
    {live : Finset ℕ} (h : Redb.Holds config table v live)
    (hv : ∀ i < config.rows.toNat, (v i).map decodeRow = (v' i).map some) :
    Redb.contents table = some (entries config.rows.toNat v') := by
  refine Footprint.contents_eq (increasing_ids hrows) h.rows (fun k => (k.toNat : ℤ)) decodeRow
    (fun i hi => by rw [id_toNat hrows hi]) (fun i hi p hp => ?_) fun i hi hnone => ?_
  · have hrow := hv i hi
    rw [hp, Option.map_some] at hrow
    obtain ⟨row, hrow', heq⟩ := Option.map_eq_some_iff.1 hrow.symm
    exact ⟨row, heq.symm, hrow'⟩
  · have hrow := hv i hi
    rw [hnone, Option.map_none] at hrow
    exact Option.map_eq_none_iff.1 hrow.symm

end Contents

/-! ## Main result -/

/-- which ids are left, and what their rows are -/
theorem mem_churnedContents {x : ℤ} {row : LogicalRow} : (x, row) ∈ churnedContents config ↔
    ∃ i < config.rows.toNat, i % 4 ≠ 0 ∧ (i : ℤ) = x ∧
      row = if i % 4 = 1 then updatedRow config i else loadedRow config i := by
  rw [churnedContents, mem_entries]
  constructor
  · rintro ⟨i, hi, hv, hx⟩
    unfold churned at hv
    split_ifs at hv with h0 h1
    · exact ⟨i, hi, h0, hx, by rw [if_pos h1, Option.some.inj hv]⟩
    · exact ⟨i, hi, h0, hx, by rw [if_neg h1, Option.some.inj hv]⟩
  · rintro ⟨i, hi, h0, hx, rfl⟩
    refine ⟨i, hi, ?_, hx⟩
    rw [churned, if_neg h0]
    split_ifs <;> rfl

/-- the ids that are left are those below `rows` that are no multiples of four -/
theorem churnedContents_ids {x : ℤ} :
    (∃ row, (x, row) ∈ churnedContents config) ↔ 0 ≤ x ∧ x < config.rows.toNat ∧ ¬ 4 ∣ x := by
  constructor
  · rintro ⟨row, hrow⟩
    obtain ⟨i, hi, h0, rfl, -⟩ := mem_churnedContents.1 hrow
    omega
  · rintro ⟨h0, hlt, hdvd⟩
    obtain ⟨i, rfl⟩ := Int.eq_ofNat_of_zero_le h0
    exact ⟨_, mem_churnedContents.2 ⟨i, by omega, by omega, rfl, rfl⟩⟩

/-- a row that is left is the loaded one, and the churn loop changed at most its payload -/
theorem churnedContents_row (hrows : config.rows.toNat < 2 ^ 63) {i : ℕ} {row : LogicalRow}
    (hrow : ((i : ℤ), row) ∈ churnedContents config) :
    ∃ old, ((i : ℤ), old) ∈ loadedContents config ∧
      (i % 4 = 1 → row = { old with payload := payload (UInt64.ofNat i + 1000000) config.payloadBytes } ∧
        (0 < config.payloadBytes → row.payload ≠ old.payload)) ∧
      (i % 4 ≠ 1 → row = old) := by
  obtain ⟨j, hj, h0, hij, rfl⟩ := mem_churnedContents.1 hrow
  obtain rfl : j = i := Int.ofNat_inj.1 hij
  refine ⟨loadedRow config j, mem_entries.2 ⟨j, hj, rfl, rfl⟩, fun h1 => ?_, fun h1 => if_neg h1⟩
  rw [if_pos h1]
  exact ⟨rfl, payload_ne (by omega)⟩

/-- the live ids of redb, under their accounts, are those of the rows that are left -/
theorem mem_index_churned (hrows : config.rows.toNat < 2 ^ 63) {p : UInt64 × UInt64} :
    p ∈ (Redb.live config).image Redb.entry ↔
      ∃ (i : ℕ) (row : LogicalRow), ((i : ℤ), row) ∈ churnedContents config ∧
        p = (UInt64.ofNat (i % 10000), UInt64.ofNat i) := by
  rw [Finset.mem_image]
  constructor
  · rintro ⟨i, hi, rfl⟩
    obtain ⟨hlt, hor⟩ := Finset.mem_filter.1 hi
    have hi' := Finset.mem_range.1 hlt
    refine ⟨i, _, mem_churnedContents.2 ⟨i, hi', by omega, rfl, rfl⟩, ?_⟩
    rw [Redb.entry, account_eq (by omega)]
  · rintro ⟨i, row, hrow, rfl⟩
    obtain ⟨j, hj, h0, hij, -⟩ := mem_churnedContents.1 hrow
    obtain rfl : j = i := Int.ofNat_inj.1 hij
    refine ⟨j, Finset.mem_filter.2 ⟨Finset.mem_range.2 hj, Or.inr h0⟩, ?_⟩
    rw [Redb.entry, account_eq (by omega)]

/-- **The programs store the same rows.** For up to `i64::MAX` rows the three programs end without a failure; they store
the same logical rows after the load loop, and after the churn loop. Then the ids that are left are those below `rows`
that are no multiples of four, and their number is `live_rows_after_churn`; the row of such an id is the loaded one,
with another payload if the id is one more than a multiple of four; and the index of redb lists exactly the ids that are
left, under their accounts. -/
theorem footprint_agree (config : StorageConfig) (hvalid : config.validate = .ok ())
    (hrows : config.rows.toNat < 2 ^ 63) :
    ∃ w s r, Worktable.main config = .ok w ∧ Sqlite.main config = .ok s ∧ Redb.main config = .ok r ∧
      (Worktable.contents w.loaded = loadedContents config ∧ Sqlite.contents s.loaded = loadedContents config ∧
        Redb.contents r.loaded = some (loadedContents config)) ∧
      (Worktable.contents w.churned = churnedContents config ∧ Sqlite.contents s.churned = churnedContents config ∧
        Redb.contents r.churned = some (churnedContents config)) ∧
      (∀ x : ℤ, (∃ row, (x, row) ∈ churnedContents config) ↔ 0 ≤ x ∧ x < config.rows.toNat ∧ ¬ 4 ∣ x) ∧
      (churnedContents config).length = (liveRowsAfterChurn config.rows).toNat ∧
      (∀ (i : ℕ) row, ((i : ℤ), row) ∈ churnedContents config → ∃ old, ((i : ℤ), old) ∈ loadedContents config ∧
        (i % 4 = 1 → row = { old with payload := payload (UInt64.ofNat i + 1000000) config.payloadBytes } ∧
          (0 < config.payloadBytes → row.payload ≠ old.payload)) ∧
        (i % 4 ≠ 1 → row = old)) ∧
      ∀ p, p ∈ r.churned.index ↔
        ∃ (i : ℕ) (row : LogicalRow), ((i : ℤ), row) ∈ churnedContents config ∧
          p = (UInt64.ofNat (i % 10000), UInt64.ofNat i) := by
  have hok := StorageConfig.accepted_of_validate hvalid
  obtain ⟨w, hw, hwload, hwchurn⟩ := Worktable.main_ok hok hrows
  obtain ⟨s, hs, hsload, hschurn⟩ := Sqlite.main_ok hok hrows
  obtain ⟨r, hr, hrload, hrchurn⟩ := Redb.main_ok hok hrows
  refine ⟨w, s, r, hw, hs, hr, ⟨?_, ?_, ?_⟩, ⟨?_, ?_, ?_⟩, fun x => churnedContents_ids, ?_,
    fun i row hrow => churnedContents_row hrows hrow, fun p => ?_⟩
  · refine Worktable.contents_eq hrows hwload fun i hi => ?_
    rw [upTo, if_pos hi, Option.map_some, Worktable.rowAt_logical hrows hi]
  · refine Sqlite.contents_eq hrows hsload fun i hi => ?_
    rw [upTo, if_pos hi, Option.map_some, Sqlite.rowAt_logical hrows hi]
  · refine Redb.contents_eq hrows hrload fun i hi => ?_
    rw [upTo, if_pos hi, Option.map_some, Redb.rowAt, encodedRow, Redb.decode_rowAt hrows hi]
    rfl
  · refine Worktable.contents_eq hrows hwchurn fun i hi => churned_map (Worktable.rowAt_logical hrows hi) ?_
    rw [updatedRow, ← Worktable.rowAt_logical hrows hi]
    rfl
  · refine Sqlite.contents_eq hrows hschurn fun i hi => churned_map (Sqlite.rowAt_logical hrows hi) ?_
    rw [updatedRow, ← Sqlite.rowAt_logical hrows hi]
    rfl
  · refine Redb.contents_eq hrows hrchurn fun i hi => ?_
    have hsome : (churned (loadedRow config) (updatedRow config) i).map some =
        churned (fun j => some (loadedRow config j)) (fun j => some (updatedRow config j)) i := churned_map rfl rfl
    rw [hsome]
    exact churned_map (Redb.decode_rowAt hrows hi _) (Redb.decode_rowAt hrows hi _)
  · rw [liveRowsAfterChurn_toNat]
    exact churned_count fun i row => ((i : ℤ), row)
  · rw [hrchurn.index]
    exact mem_index_churned hrows

/-- six rows of three payload bytes -/
def sixRows : StorageConfig := ⟨6, 3, 2⟩

theorem footprint_agree_sixRows : ∃ w s r, Worktable.main sixRows = .ok w ∧ Sqlite.main sixRows = .ok s ∧
    Redb.main sixRows = .ok r ∧ Worktable.contents w.churned = churnedContents sixRows ∧
    Sqlite.contents s.churned = churnedContents sixRows ∧ Redb.contents r.churned = some (churnedContents sixRows) ∧
    (churnedContents sixRows).length = 4 := by
  obtain ⟨w, s, r, hw, hs, hr, -, ⟨hcw, hcs, hcr⟩, -, hlength, -⟩ := footprint_agree sixRows rfl (by decide)
  exact ⟨w, s, r, hw, hs, hr, hcw, hcs, hcr, hlength.trans (by decide)⟩

end WtBenchmarks.Footprint
