/-
The scan of the two YCSB adapters (`YcsbTable::scan`, `src/ycsb/worktable_adapter.rs`, and `scan`,
`src/bin/ycsb-sqlite.rs`) over one table.

The WorkTable adapter selects the keys `start..=start + length - 1`; the SQLite adapter selects the first `length` rows
from `start` on, in the order of the ids, which are the keys cast to `i64`.

- `scanRows_eq_iff`: the two select the same rows exactly if the window is covered (`Covered`);
- `covered_iff`: as long as the keys are below 2^63, it is covered if no key of it is absent, or no row lies past it;
- `covered_of_closed`: it always is when the keys have no gap.
-/
import WtBenchmarks.Core.TreeMap
import WtBenchmarks.Core.Window
import WtBenchmarks.Ycsb.Worker

namespace WtBenchmarks.Ycsb

namespace Table

/-! ## Model -/

/-- the last key of a scan of the WorkTable adapter -/
def lastKey (start length : UInt64) : UInt64 := saturatingAdd start (saturatingSub length 1)

/-- the rows the WorkTable adapter selects -/
def scanRows (table : Table) (start length : UInt64) : Option (List (UInt64 × Fields)) :=
  table.selectByPkRange start (lastKey start length)

theorem scan_eq (table : Table) (start length : UInt64) :
    table.scan start length = (table.scanRows start length).isSome := rfl

/-- `WHERE id >= ?1 ORDER BY id` -/
def listed (table : Table) (start : UInt64) : List (UInt64 × Fields) :=
  (table.toList.filter fun row => decide (start.toInt64 ≤ row.1.toInt64)).mergeSort
    fun a b => decide (a.1.toInt64 ≤ b.1.toInt64)

/-- the rows the SQLite adapter selects; a negative `LIMIT` is none -/
def sqliteRows (table : Table) (start length : UInt64) : List (UInt64 × Fields) :=
  if length.toInt64 < 0 then table.listed start else (table.listed start).take length.toNat

/-! ## The window -/

def InWindow (start length key : UInt64) : Prop := start ≤ key ∧ key ≤ lastKey start length

instance (start length key : UInt64) : Decidable (InWindow start length key) := inferInstanceAs (Decidable (_ ∧ _))

/-- where the two adapters select the same rows -/
structure Covered (table : Table) (start length : UInt64) : Prop where
  /-- no row of the window is before `start` as an `i64` -/
  signed : ∀ k ∈ table, InWindow start length k → start.toInt64 ≤ k.toInt64
  /-- no key of the window is absent, or no row SQLite lists is outside the window -/
  rows : (length.toNat < 2 ^ 63 ∧ ∀ i < length.toNat, ∃ k ∈ table, k.toNat = start.toNat + i) ∨
    ∀ k ∈ table, start.toInt64 ≤ k.toInt64 → InWindow start length k

theorem lastKey_toNat {start length : UInt64} (hlen : 0 < length.toNat) :
    (lastKey start length).toNat = min (start.toNat + (length.toNat - 1)) (2 ^ 64 - 1) := by
  have hsub : (saturatingSub length 1).toNat = length.toNat - 1 := by
    obtain ⟨n, hn, hv⟩ := checkedSub_some (a := length) (b := 1) hlen
    rw [saturatingSub, hn, Option.getD_some, hv, UInt64.toNat_one]
  unfold lastKey saturatingAdd checkedAdd
  split_ifs with hfit
  · rw [Option.getD_some, toNat_add_of_lt hfit, hsub, Nat.min_eq_left (by omega)]
  · rw [Option.getD_none, u64Max_toNat, Nat.min_eq_right (by omega)]

theorem inWindow_toNat {start length k : UInt64} (hlen : 0 < length.toNat) :
    InWindow start length k ↔ start.toNat ≤ k.toNat ∧ k.toNat < start.toNat + length.toNat := by
  have hk := k.toNat_lt
  rw [InWindow, UInt64.le_iff_toNat_le, UInt64.le_iff_toNat_le, lastKey_toNat hlen]
  omega

/-! ## Rows in key order -/

theorem mem_of_row {table : Table} {row : UInt64 × Fields} (h : row ∈ table.toList) : row.1 ∈ table :=
  (TreeMap.mem_iff_get table row.1).2 ⟨row.2, Std.ExtTreeMap.mem_toList_iff_getElem?_eq_some.1 h⟩

theorem row_of_mem {table : Table} {k : UInt64} (h : k ∈ table) : ∃ row ∈ table.toList, row.1 = k := by
  obtain ⟨fields, hget⟩ := (TreeMap.mem_iff_get table k).1 h
  exact ⟨(k, fields), Std.ExtTreeMap.mem_toList_iff_getElem?_eq_some.2 hget, rfl⟩

theorem rows_sorted (table : Table) : table.toList.Pairwise fun a b => a.1.toNat < b.1.toNat :=
  table.ordered_keys_toList.imp fun h => UInt64.lt_iff_toNat_lt.1 (Std.compare_eq_lt.1 h)

theorem row_unique {table : Table} {a b : UInt64 × Fields} (ha : a ∈ table.toList) (hb : b ∈ table.toList)
    (h : a.1 = b.1) : a = b := by
  have hget := Std.ExtTreeMap.mem_toList_iff_getElem?_eq_some.1 ha
  rw [h, Std.ExtTreeMap.mem_toList_iff_getElem?_eq_some.1 hb] at hget
  exact Prod.ext h (Option.some.inj hget).symm

theorem listed_perm (table : Table) (start : UInt64) :
    (table.listed start).Perm (table.toList.filter fun row => decide (start.toInt64 ≤ row.1.toInt64)) :=
  List.mergeSort_perm _ _

theorem mem_listed {table : Table} {start : UInt64} {row : UInt64 × Fields} :
    row ∈ table.listed start ↔ row ∈ table.toList ∧ start.toInt64 ≤ row.1.toInt64 := by
  rw [(listed_perm table start).mem_iff, List.mem_filter, decide_eq_true_eq]

theorem listed_sorted (table : Table) (start : UInt64) :
    (table.listed start).Pairwise fun a b => a.1.toInt64 ≤ b.1.toInt64 := by
  have hsorted : (table.listed start).Pairwise fun a b => decide (a.1.toInt64 ≤ b.1.toInt64) = true := by
    apply List.pairwise_mergeSort
    · intro a b c hab hbc
      rw [decide_eq_true_eq] at hab hbc ⊢
      exact Int64.le_trans hab hbc
    · intro a b
      rw [Bool.or_eq_true, decide_eq_true_eq, decide_eq_true_eq]
      exact Int64.le_total a.1.toInt64 b.1.toInt64
  exact hsorted.imp fun h => of_decide_eq_true h

/-! ## Range and limit -/

variable {table : Table} {start length : UInt64}

/-- what SQLite lists from `start` on, it lists in key order up to the end of the window -/
theorem window_first (hlen : 0 < length.toNat) : (table.listed start).Pairwise fun a b =>
    decide (InWindow start length b.1) = true → decide (InWindow start length a.1) = true := by
  apply (listed_sorted table start).imp_of_mem
  intro a b ha hb hab hwin
  have hstart := (mem_listed.1 ha).2
  rw [decide_eq_true_eq, inWindow_toNat hlen] at hwin ⊢
  rw [toInt64_le] at hab hstart
  omega

/-- the rows of the window, if none is before `start` as an `i64` -/
theorem listed_window (hlen : 0 < length.toNat)
    (hsigned : ∀ k ∈ table, InWindow start length k → start.toInt64 ≤ k.toInt64) :
    (table.listed start).filter (fun row => decide (InWindow start length row.1)) =
      table.toList.filter fun row => decide (InWindow start length row.1) := by
  refine List.Perm.eq_of_pairwise ?_ ((listed_sorted table start).filter _) ?_ ?_
  · intro a b ha hb hab hba
    have hmem := mem_listed.1 (List.mem_filter.1 ha).1
    apply row_unique hmem.1 (List.mem_filter.1 hb).1
    apply UInt64.toNat_inj.1
    rw [toInt64_le] at hab hba
    omega
  · apply ((rows_sorted table).filter _).imp_of_mem
    intro a b ha hb hab
    obtain ⟨ha, hwina⟩ := List.mem_filter.1 ha
    obtain ⟨hb, hwinb⟩ := List.mem_filter.1 hb
    rw [decide_eq_true_eq] at hwina hwinb
    have hsa := hsigned a.1 (mem_of_row ha) hwina
    have hsb := hsigned b.1 (mem_of_row hb) hwinb
    rw [inWindow_toNat hlen] at hwina hwinb
    rw [toInt64_le] at hsa hsb ⊢
    omega
  · have hboth : (table.toList.filter fun row => decide (start.toInt64 ≤ row.1.toInt64)).filter
        (fun row => decide (InWindow start length row.1)) =
        table.toList.filter fun row => decide (InWindow start length row.1) := by
      rw [List.filter_filter]
      apply List.filter_congr
      intro row hrow
      by_cases hwin : InWindow start length row.1
      · simp [hwin, hsigned row.1 (mem_of_row hrow) hwin]
      · simp [hwin]
    rw [← hboth]
    exact (listed_perm table start).filter _

/-- the rows of the window are at most `length`, and exactly `length` if no key of it is absent -/
theorem window_length (table : Table) (start : UInt64) (hlen : 0 < length.toNat) :
    (table.toList.filter fun row => decide (InWindow start length row.1)).length ≤ length.toNat ∧
      ((table.toList.filter fun row => decide (InWindow start length row.1)).length = length.toNat ↔
        ∀ i < length.toNat, ∃ k ∈ table, k.toNat = start.toNat + i) := by
  set rows := table.toList.filter fun row => decide (InWindow start length row.1) with hrows
  have hnodup : (rows.map fun row => row.1.toNat).Nodup :=
    List.pairwise_map.2 (((rows_sorted table).filter _).imp fun h => h.ne)
  have hbounds : ∀ x ∈ rows.map fun row => row.1.toNat, start.toNat ≤ x ∧ x < start.toNat + length.toNat := by
    intro x hx
    obtain ⟨row, hrow, rfl⟩ := List.mem_map.1 hx
    have hwin := (List.mem_filter.1 hrow).2
    rwa [decide_eq_true_eq, inWindow_toNat hlen] at hwin
  have hle := length_le_window hnodup hbounds
  have heq := length_eq_window hnodup hbounds
  rw [List.length_map] at hle heq
  refine ⟨hle, heq.trans (forall₂_congr fun i hi => ?_)⟩
  rw [List.mem_map]
  constructor
  · rintro ⟨row, hrow, hkey⟩
    exact ⟨row.1, mem_of_row (List.mem_filter.1 hrow).1, hkey⟩
  · rintro ⟨k, hk, hkey⟩
    obtain ⟨row, hrow, rfl⟩ := row_of_mem hk
    refine ⟨row, List.mem_filter.2 ⟨hrow, ?_⟩, hkey⟩
    rw [decide_eq_true_eq, inWindow_toNat hlen]
    omega

/-- all that is listed is in the window -/
theorem listed_in_window :
    (∀ row ∈ table.listed start, decide (InWindow start length row.1) = true) ↔
      ∀ k ∈ table, start.toInt64 ≤ k.toInt64 → InWindow start length k := by
  constructor
  · intro h k hk hstart
    obtain ⟨row, hrow, rfl⟩ := row_of_mem hk
    exact of_decide_eq_true (h row (mem_listed.2 ⟨hrow, hstart⟩))
  · intro h row hrow
    obtain ⟨hmem, hstart⟩ := mem_listed.1 hrow
    exact decide_eq_true (h row.1 (mem_of_row hmem) hstart)

/-- what SQLite selects is listed -/
theorem mem_sqliteRows {row : UInt64 × Fields} (h : row ∈ table.sqliteRows start length) :
    row ∈ table.listed start := by
  unfold sqliteRows at h
  split_ifs at h
  · exact h
  · exact List.mem_of_mem_take h

/-- **Range and limit.** -/
theorem scanRows_eq_iff (hlen : 0 < length.toNat) :
    table.scanRows start length = some (table.sqliteRows start length) ↔ Covered table start length := by
  have hscan : table.scanRows start length =
      some (table.toList.filter fun row => decide (InWindow start length row.1)) := rfl
  obtain ⟨hle, hfull⟩ := window_length table start hlen
  rw [hscan, Option.some_inj]
  constructor
  · intro heq
    have hsigned : ∀ k ∈ table, InWindow start length k → start.toInt64 ≤ k.toInt64 := by
      intro k hk hwin
      obtain ⟨row, hrow, rfl⟩ := row_of_mem hk
      have hmem : row ∈ table.sqliteRows start length := by
        rw [← heq]
        exact List.mem_filter.2 ⟨hrow, decide_eq_true hwin⟩
      exact (mem_listed.1 (mem_sqliteRows hmem)).2
    refine ⟨hsigned, ?_⟩
    rw [← listed_window hlen hsigned, sqliteRows] at heq
    split_ifs at heq with hneg
    · exact Or.inr (listed_in_window.1 (List.filter_eq_self.1 heq))
    · rcases (take_eq_filter (window_first hlen) length.toNat).1 heq.symm with hcount | ⟨-, hall⟩
      · rw [listed_window hlen hsigned] at hcount
        rw [toInt64_neg] at hneg
        exact Or.inl ⟨Nat.not_le.1 hneg, hfull.1 hcount⟩
      · exact Or.inr (listed_in_window.1 hall)
  · rintro ⟨hsigned, hrows⟩
    rw [← listed_window hlen hsigned] at hle ⊢
    rw [sqliteRows]
    split_ifs with hneg
    · rcases hrows with ⟨hsmall, -⟩ | hall
      · exact absurd hsmall (Nat.not_lt.2 (toInt64_neg.1 hneg))
      · exact List.filter_eq_self.2 (listed_in_window.2 hall)
    · refine ((take_eq_filter (window_first hlen) length.toNat).2 ?_).symm
      rcases hrows with ⟨-, hpresent⟩ | hall
      · left
        rw [listed_window hlen hsigned]
        exact hfull.2 hpresent
      · exact Or.inr ⟨hle, listed_in_window.2 hall⟩

/-! ## Keys below 2^63 -/

/-- **Without casts.** The window has no gap, or no row lies past it. -/
theorem covered_iff (hlen : 0 < length.toNat) (hstart : start.toNat < 2 ^ 63) (hkeys : ∀ k ∈ table, k.toNat < 2 ^ 63) :
    Covered table start length ↔ (∀ i < length.toNat, ∃ k ∈ table, k.toNat = start.toNat + i) ∨
      ∀ k ∈ table, start ≤ k → InWindow start length k := by
  have hcast : ∀ k ∈ table, (start.toInt64 ≤ k.toInt64 ↔ start ≤ k) := by
    intro k hk
    have hlt := hkeys k hk
    rw [toInt64_le, UInt64.le_iff_toNat_le]
    omega
  constructor
  · rintro ⟨-, ⟨-, hfull⟩ | hall⟩
    · exact Or.inl hfull
    · exact Or.inr fun k hk hle => hall k hk ((hcast k hk).2 hle)
  · intro hrows
    refine ⟨fun k hk hwin => (hcast k hk).2 hwin.1, ?_⟩
    rcases hrows with hfull | hall
    · by_cases hsmall : length.toNat < 2 ^ 63
      · exact Or.inl ⟨hsmall, hfull⟩
      · refine Or.inr fun k hk hle => ?_
        have hlt := hkeys k hk
        have hle' := (hcast k hk).1 hle
        rw [UInt64.le_iff_toNat_le] at hle'
        rw [inWindow_toNat hlen]
        omega
    · exact Or.inr fun k hk hle => hall k hk ((hcast k hk).1 hle)

/-- keys without a gap cover every window that starts below 2^63 -/
theorem covered_of_closed (hlen : 0 < length.toNat) (hstart : start.toNat < 2 ^ 63)
    (hkeys : ∀ k ∈ table, k.toNat < 2 ^ 63) (hclosed : ∀ k ∈ table, ∀ j < k, j ∈ table) :
    Covered table start length := by
  rw [covered_iff hlen hstart hkeys]
  by_cases hpast : ∃ k ∈ table, start ≤ k ∧ ¬ InWindow start length k
  · -- a row past the window: all keys before it are there
    obtain ⟨k, hk, hle, hout⟩ := hpast
    rw [inWindow_toNat hlen] at hout
    rw [UInt64.le_iff_toNat_le] at hle
    refine Or.inl fun i hi => ?_
    have hlt := k.toNat_lt
    have hi' : (UInt64.ofNat (start.toNat + i)).toNat = start.toNat + i := ofNat_toNat_of_lt (by omega)
    refine ⟨UInt64.ofNat (start.toNat + i), hclosed k hk _ ?_, hi'⟩
    rw [UInt64.lt_iff_toNat_lt, hi']
    omega
  · refine Or.inr fun k hk hle => ?_
    by_contra hout
    exact hpast ⟨k, hk, hle, hout⟩

end Table

end WtBenchmarks.Ycsb
