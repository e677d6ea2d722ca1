/-
The start of a repetition: the loaded table and the barrier.

Loading, and inserting and deleting the fillers, never fails: at the first generation the unique key of a row is its id.
The table then holds the loaded rows alone, and the invariant holds.

- `setup_some`: the table after the setup;
- `start_holds`: the outline holds at the barrier.
-/
import WtBenchmarks.Core.IndexedMap
import WtBenchmarks.IndexBackends.Shadow.Oracle

namespace WtBenchmarks.IndexBackends.Shadow

variable {config : Config}

/-- the rows of the setup, by id -/
def firstRow (config : Config) (i : ℕ) : Row := rowOf config (UInt64.ofNat i) 0

/-- ids as keys of the table -/
abbrev idKey : ℕ → UInt64 := byCast id

theorem firstRow_uniqueKey (i : ℕ) : (firstRow config i).uniqueKey = UInt64.ofNat i := by
  change 0 * (config.records + 1) + UInt64.ofNat i = UInt64.ofNat i
  rw [UInt64.zero_mul, UInt64.zero_add]

theorem idKey_injOn {n : ℕ} (hn : n ≤ 2 ^ 64) : Set.InjOn idKey (Set.Iio n) := (increasing_u64 hn).injOn

section Setup

variable (hacc : config.Accepted) {n : ℕ} (hn : n ≤ 2 ^ 64)

/-- the id after the last filler -/
def fillerStop (config : Config) : ℕ := config.records.toNat + config.records.toNat / 2

include hacc in
theorem fillerStop_lt : fillerStop config < 2 ^ 64 := by
  have hproduct := hacc.product
  have hoperations := hacc.operations
  have hle : (config.records.toNat + 1) * 2 ≤ (config.records.toNat + 1) * (config.operations.toNat + 1) :=
    Nat.mul_le_mul_left _ (by omega)
  unfold fillerStop
  omega

include hn

include hacc in
/-- the next id is loaded -/
theorem insertFirst_some {i : ℕ} (hi : i < n) {table : Table}
    (h : Indexed idKey n table.rows (Indexed.upTo i (firstRow config))) :
    ∃ table', insertFirst config (config.records + 1) table i = some table' ∧
      Indexed idKey n table'.rows (Indexed.upTo (i + 1) (firstRow config)) := by
  have hinj := idKey_injOn hn
  have hzero : (0 : UInt64).toNat = 0 := rfl
  have hword : (UInt64.ofNat i).toNat = i := ofNat_toNat_of_lt (by omega)
  have hrange : InRange config (UInt64.ofNat i) 0 := ⟨by rw [hzero, hword]; omega, by rw [hzero, hword]; omega⟩
  obtain ⟨hnew, hnext⟩ := h.load_step hinj hi
  have hunique : ∀ (id : UInt64) row, table.rows[id]? = some row → row.uniqueKey ≠ (firstRow config i).uniqueKey := by
    intro id row hrow heq
    obtain ⟨j, hj, rfl⟩ := h.only id ((TreeMap.mem_iff_get table.rows id).2 ⟨row, hrow⟩)
    rw [h.get j hj, Indexed.upTo] at hrow
    split_ifs at hrow with hlt
    cases hrow
    rw [firstRow_uniqueKey, firstRow_uniqueKey] at heq
    have hsame : j = i := hinj hj hi heq
    omega
  obtain ⟨table', hinsert, hrows⟩ := UniqueTable.insert_some hnew hunique
  refine ⟨table', ?_, hrows ▸ hnext⟩
  unfold insertFirst
  rw [makeRow_some hacc hrange]
  exact hinsert

/-- the rows while the first `i` fillers are deleted again -/
def kept (config : Config) (n i j : ℕ) : Option Row :=
  if j < n ∧ (j < config.records.toNat ∨ config.records.toNat + i ≤ j) then some (firstRow config j) else none

omit hn in
theorem kept_zero : kept config n 0 = Indexed.upTo n (firstRow config) := by
  funext j
  unfold kept Indexed.upTo
  by_cases hj : j < n
  · rw [if_pos ⟨hj, by omega⟩, if_pos hj]
  · rw [if_neg fun h => hj h.1, if_neg hj]

omit hn in
theorem kept_all (hle : config.records.toNat ≤ n) :
    kept config n (n - config.records.toNat) = Indexed.upTo config.records.toNat (firstRow config) := by
  funext j
  unfold kept Indexed.upTo
  by_cases hj : j < config.records.toNat
  · rw [if_pos ⟨by omega, Or.inl hj⟩, if_pos hj]
  · rw [if_neg fun h => by omega, if_neg hj]

/-- the next filler is deleted -/
theorem delete_filler {i : ℕ} (hi : config.records.toNat + i < n) {table : Table}
    (h : Indexed idKey n table.rows (kept config n i)) :
    ∃ table', table.delete (UInt64.ofNat (config.records.toNat + i)) = some table' ∧
      Indexed idKey n table'.rows (kept config n (i + 1)) := by
  have hmem : idKey (config.records.toNat + i) ∈ table.rows := by
    rw [h.mem_iff hi, kept, if_pos ⟨hi, Or.inr le_rfl⟩]
    rfl
  obtain ⟨table', hdelete, hrows⟩ := UniqueTable.delete_some hmem
  have hnext : Function.update (kept config n i) (config.records.toNat + i) none = kept config n (i + 1) := by
    funext j
    by_cases hj : j = config.records.toNat + i
    · subst hj
      rw [Function.update_self, kept, if_neg fun h => by omega]
    · rw [Function.update_of_ne hj, kept, kept]
      congr 1
      apply propext
      omega
  refine ⟨table', hdelete, ?_⟩
  rw [hrows, ← hnext]
  exact h.erase (idKey_injOn hn) hi

end Setup

/-- **The setup** never fails, and leaves exactly the loaded rows. -/
theorem setup_some (hacc : config.Accepted) : ∃ (table : Table) (n : ℕ),
    setup config (config.records + 1) = some table ∧
    config.records.toNat ≤ n ∧ Indexed idKey n table.rows (Indexed.upTo config.records.toNat (firstRow config)) := by
  have hstop := fillerStop_lt hacc
  have hle : config.records.toNat ≤ fillerStop config := Nat.le_add_right _ _
  obtain ⟨table, hload, hrows⟩ := exists_foldlM_range
    (I := fun i table => Indexed idKey (fillerStop config) (UniqueTable.rows table) (Indexed.upTo i (firstRow config)))
    config.records.toNat (fun i table hi h => insertFirst_some hacc hstop.le (by omega) h) (UniqueTable.empty _)
    (Indexed.empty_upTo idKey _ _)
  unfold setup
  rw [hload, Option.bind_eq_bind, Option.bind_some]
  by_cases hvacuum : config.vacuum
  · have htwo : (2 : UInt64).toNat = 2 := rfl
    have hhalf : (config.records / 2).toNat = config.records.toNat / 2 := by rw [UInt64.toNat_div, htwo]
    obtain ⟨stop, hadd, hvalue⟩ := checkedAdd_some (a := config.records) (b := config.records / 2) (by
      rw [hhalf]
      exact hstop)
    rw [hhalf] at hvalue
    change stop.toNat = fillerStop config at hvalue
    rw [if_pos hvacuum, hadd, Option.bind_eq_bind, Option.bind_some, hvalue]
    dsimp only
    obtain ⟨filled, hfill, hfilled⟩ := exists_foldlM_range'
      (I := fun i table => Indexed idKey (fillerStop config) (UniqueTable.rows table)
        (Indexed.upTo (config.records.toNat + i) (firstRow config)))
      config.records.toNat (fillerStop config - config.records.toNat)
      (fun i table hi h => insertFirst_some hacc hstop.le (by omega) h) table hrows
    rw [Nat.add_sub_cancel' hle] at hfilled
    obtain ⟨emptied, hempty, hemptied⟩ := exists_foldlM_range' (f := fun table id => table.delete (UInt64.ofNat id))
      (I := fun i table => Indexed idKey (fillerStop config) (UniqueTable.rows table)
        (kept config (fillerStop config) i))
      config.records.toNat (fillerStop config - config.records.toNat)
      (fun i table hi h => delete_filler hstop.le (by omega) h) filled (kept_zero ▸ hfilled)
    rw [kept_all hle] at hemptied
    exact ⟨emptied, _, by rw [hfill]; exact hempty, hle, hemptied⟩
  · exact ⟨table, _, if_neg hvacuum, hle, hrows⟩

/-! ## The barrier -/

theorem participants_some (hacc : config.Accepted) : ∃ count, participants config = some count := by
  have hthreads := hacc.threads
  have howners := hacc.owners
  have hproduct := hacc.product
  have hoperations := hacc.operations
  have hle : (config.records.toNat + 1) * 2 ≤ (config.records.toNat + 1) * (config.operations.toNat + 1) :=
    Nat.mul_le_mul_left _ (by omega)
  refine ⟨_, if_pos ?_⟩
  unfold Config.writerThreads Config.readerThreads at *
  split_ifs <;> omega

/-- **The invariant holds at the barrier.** -/
theorem start_holds (hacc : config.Accepted) :
    ∃ s, start config (config.records + 1) = some s ∧ (outline hacc).Holds s := by
  obtain ⟨table, n, hsetup, hle, hrows⟩ := setup_some hacc
  obtain ⟨count, hcount⟩ := participants_some hacc
  have hzero : generationOf 0 = 0 := by decide
  have hget : ∀ id : UInt64, id.toNat < config.records.toNat → table.rows[id]? = some (rowOf config id 0) := by
    intro id hid
    have hkey : idKey id.toNat = id := UInt64.ofNat_toNat
    have hrow := hrows.get id.toNat (by omega)
    rw [hkey, Indexed.upTo, if_pos hid, firstRow, UInt64.ofNat_toNat] at hrow
    exact hrow
  have hshared : SharedOk config ⟨table, fun _ => 0, Counters.default⟩ := by
    refine ⟨fun id _ => ?_, fun id hid _ => ?_, fun id row hrow => ?_, rfl⟩
    · change (generationOf 0).toNat ≤ _
      rw [hzero]
      exact Nat.zero_le _
    · change table.rows[id]? = some (rowOf config id (generationOf 0))
      rw [hzero]
      exact hget id hid
    · change table.rows[id]? = some row at hrow
      obtain ⟨i, hi, rfl⟩ := hrows.only id ((TreeMap.mem_iff_get table.rows id).2 ⟨row, hrow⟩)
      rw [hrows.get i hi, Indexed.upTo] at hrow
      split_ifs at hrow with hlt
      cases hrow
      refine ⟨?_, 0, Nat.zero_le _, rfl⟩
      have hword := ofNat_toNat_of_lt (hlt.trans config.records.toNat_lt)
      change (UInt64.ofNat i).toNat < _
      omega
  unfold start
  rw [hsetup, hcount, Option.bind_eq_bind, Option.bind_some, Option.bind_eq_bind, Option.bind_some]
  refine ⟨_, rfl, hshared, fun t => ?_⟩
  cases t with
  | inl worker =>
    refine ⟨worker, rfl, rfl, turns_le worker.isLt, Nat.zero_le _, fun id _ _ _ => ?_⟩
    change isWriting 0 = false ∧ (generationOf 0).toNat ≤ 0
    decide
  | inr reader => exact ⟨⟨reader, rfl⟩, trivial⟩

end WtBenchmarks.IndexBackends.Shadow
