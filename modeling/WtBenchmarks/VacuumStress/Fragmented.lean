/-
The fragmented table of the vacuum benchmark (`fragmented`, `src/vacuum_stress.rs`): rows `0..seed_rows` are inserted,
then every `step`-th row is deleted, where `step` is the integer quotient of 100 by the requested percentage.

The table is a map from ids to rows with a unique index. An overflow is a `none`. The page count the source also
returns belongs to the engine and is left out.

- `fragmented_some`: the deletion loop returns, and removes `seed_rows / step` rows, rounded up.
- `removes_percentage_iff`: for which tables and percentages that is the requested share, up to one row.
- `strideFits_of_dvd`, `not_strideFits_of_large`: always for a divisor of 100, and for no other percentage once the
  table has `101 * step` rows.
-/
import WtBenchmarks.Core.UniqueTable
import WtBenchmarks.Core.Word
import Mathlib.Tactic

namespace WtBenchmarks.VacuumStress

/-! ## Model -/

structure VacStressRow where
  id : UInt64
  uniq : UInt64
  tag : UInt32
  payload : String
deriving DecidableEq, Repr

abbrev VacStressTable := UniqueTable UInt64 UInt64 VacStressRow VacStressRow.uniq

/-- `SEED_ROWS` -/
def seedRowsDefault : UInt64 := 20000

/-- `FRAGMENTATION` -/
def fragmentation : List UInt64 := [25, 60]

def row (id : UInt64) : Option VacStressRow := do
  let uniq ← checkedAdd 1000000 id
  some ⟨id, uniq, (id % 8).toUInt32, "payload-" ++ toString id.toNat⟩

def seedTurn (table : VacStressTable) (id : ℕ) : Option VacStressTable := do
  let r ← row (UInt64.ofNat id)
  table.insert (UInt64.ofNat id) r

def seeded (seedRows : UInt64) : Option VacStressTable :=
  (List.range seedRows.toNat).foldlM seedTurn (UniqueTable.empty VacStressRow.uniq)

/-- the deletion loop from `id` on; the result of a deletion is dropped -/
def deleteEvery (seedRows step : UInt64) (hstep : 0 < step.toNat) (id : UInt64) (table : VacStressTable) :
    Option VacStressTable :=
  if _hid : id < seedRows then
    match _hnext : checkedAdd id step with
    | none => none
    | some next => deleteEvery seedRows step hstep next ((table.delete id).getD table)
  else some table
termination_by seedRows.toNat - id.toNat
decreasing_by
  rw [UInt64.lt_iff_toNat_lt] at _hid
  unfold checkedAdd at _hnext
  split_ifs at _hnext with hlt
  cases _hnext
  rw [toNat_add_of_lt hlt]
  omega

/-- `(100 / fragmentation_pct).max(1)` -/
def stride (fragmentationPct : UInt64) : UInt64 := max (100 / fragmentationPct) 1

theorem stride_toNat (pct : UInt64) : (stride pct).toNat = max (100 / pct.toNat) 1 := by
  rw [stride, max_one_toNat, UInt64.toNat_div]
  rfl

theorem stride_pos (pct : UInt64) : 0 < (stride pct).toNat := by
  rw [stride_toNat]
  omega

/-- the table, and the next free id -/
def fragmented (seedRows fragmentationPct : UInt64) : Option (VacStressTable × UInt64) := do
  let table ← seeded seedRows
  if 0 < fragmentationPct then
    let table ← deleteEvery seedRows (stride fragmentationPct) (stride_pos fragmentationPct) 0 table
    some (table, seedRows)
  else some (table, seedRows)

/-! ## Seeding -/

theorem row_some {id : UInt64} (h : 1000000 + id.toNat < 2 ^ 64) :
    ∃ r, row id = some r ∧ r.uniq.toNat = 1000000 + id.toNat := by
  obtain ⟨uniq, huniq, hv⟩ := checkedAdd_some (a := 1000000) (b := id) h
  exact ⟨_, by rw [row, huniq]; rfl, hv⟩

/-- **Seeding.** The ids below `seed_rows` enter the table, unless the unique column overflows. -/
theorem seeded_some {seedRows : UInt64} (h : 1000000 + seedRows.toNat ≤ 2 ^ 64) :
    ∃ table, seeded seedRows = some table ∧ table.rows.size = seedRows.toNat ∧
      ∀ id, id ∈ table.rows ↔ id < seedRows := by
  have hid : ∀ i < seedRows.toNat, (UInt64.ofNat i).toNat = i := by
    intro i hi
    exact ofNat_toNat_of_lt (hi.trans seedRows.toNat_lt)
  have hrow : ∀ i < seedRows.toNat, ∃ r, row (UInt64.ofNat i) = some r ∧ r.uniq.toNat = 1000000 + i := by
    intro i hi
    obtain ⟨r, hr, hv⟩ := row_some (show 1000000 + (UInt64.ofNat i).toNat < 2 ^ 64 by rw [hid i hi]; omega)
    exact ⟨r, hr, by rw [hv, hid i hi]⟩
  let rowOf : ℕ → VacStressRow := fun i => (row (UInt64.ofNat i)).getD ⟨0, 0, 0, ""⟩
  have hrowOf : ∀ i < seedRows.toNat, row (UInt64.ofNat i) = some (rowOf i) ∧ (rowOf i).uniq.toNat = 1000000 + i := by
    intro i hi
    obtain ⟨r, hr, hv⟩ := hrow i hi
    have hget : rowOf i = r := by simp only [rowOf, hr, Option.getD_some]
    rw [hget]
    exact ⟨hr, hv⟩
  have hbody : ∀ table, ∀ i < seedRows.toNat, seedTurn table i = table.insert (UInt64.ofNat i) (rowOf i) := by
    intro table i hi
    rw [seedTurn, (hrowOf i hi).1]
    rfl
  obtain ⟨table, htable, hsize, hrows⟩ := UniqueTable.load (f := UInt64.ofNat) (g := rowOf) seedRows.toNat hbody
    (fun i hi j hj he => by rw [← hid i hi, ← hid j hj, he])
    (fun i hi j hj he => by
      have hval := congrArg UInt64.toNat he
      simp only [(hrowOf i hi).2, (hrowOf j hj).2] at hval
      omega)
  refine ⟨table, htable, hsize, fun id => ?_⟩
  rw [TreeMap.mem_iff_get, UInt64.lt_iff_toNat_lt]
  constructor
  · intro hex
    obtain ⟨r, hr⟩ := hex
    obtain ⟨i, hi, rfl, -⟩ := (hrows id r).1 hr
    rwa [hid i hi]
  · intro hlt
    exact ⟨rowOf id.toNat, (hrows id _).2 ⟨id.toNat, hlt, UInt64.ofNat_toNat, rfl⟩⟩

/-- past the range of the unique column seeding overflows -/
theorem seeded_none {seedRows : UInt64} (h : 2 ^ 64 < 1000000 + seedRows.toNat) : seeded seedRows = none := by
  obtain ⟨first, hfirst⟩ : ∃ first, 1000000 + first = 2 ^ 64 := ⟨2 ^ 64 - 1000000, by norm_num⟩
  have hmillion : (1000000 : UInt64).toNat = 1000000 := rfl
  have hid : (UInt64.ofNat first).toNat = first := ofNat_toNat_of_lt (by omega)
  have hrow : row (UInt64.ofNat first) = none := by
    rw [row, checkedAdd, if_neg (by rw [hid, hmillion]; omega)]
    rfl
  have hmem : first ∈ List.range seedRows.toNat := List.mem_range.2 (by omega)
  exact foldlM_eq_none hmem (fun table => by rw [seedTurn, hrow]; rfl) _

/-! ## Deleting -/

/-- below the next multiple there are the multiple itself and those before it -/
theorem dvd_lt_add_iff {s m k : ℕ} (hs : 0 < s) (hm : s ∣ m) : s ∣ k ∧ k < m + s ↔ m = k ∨ s ∣ k ∧ k < m := by
  constructor
  · intro h
    obtain ⟨hk, hlt⟩ := h
    rcases Nat.lt_or_ge k m with hbelow | habove
    · exact Or.inr ⟨hk, hbelow⟩
    · have hzero : k - m = 0 := Nat.eq_zero_of_dvd_of_lt (Nat.dvd_sub hk hm) (by omega)
      exact Or.inl (by omega)
  · intro h
    rcases h with rfl | ⟨hk, hbelow⟩
    · exact ⟨hm, by omega⟩
    · exact ⟨hk, by omega⟩

/-- **The deletion loop.** From a multiple of the stride on, with the earlier multiples gone, it removes the rest of
them. -/
theorem deleteEvery_some {seedRows step : UInt64} (hstep : 0 < step.toNat)
    (hfit : seedRows.toNat + step.toNat ≤ 2 ^ 64) :
    ∀ (turns : ℕ) (id : UInt64) (table : VacStressTable), id.toNat = turns * step.toNat →
      table.rows.size + turns = seedRows.toNat → id.toNat < seedRows.toNat + step.toNat →
      (∀ key, key ∈ table.rows ↔ key < seedRows ∧ ¬ (step.toNat ∣ key.toNat ∧ key < id)) →
      ∃ table', deleteEvery seedRows step hstep id table = some table' ∧
        table'.rows.size + (seedRows.toNat + step.toNat - 1) / step.toNat = seedRows.toNat ∧
        ∀ key, key ∈ table'.rows ↔ key < seedRows ∧ ¬ step.toNat ∣ key.toNat := by
  intro turns id table
  induction hn : seedRows.toNat - id.toNat using Nat.strong_induction_on generalizing turns id table with
  | _ n ih =>
    intro hid hsize hbound hrows
    rw [deleteEvery]
    by_cases hlt : id < seedRows
    · have hlt' := UInt64.lt_iff_toNat_lt.1 hlt
      obtain ⟨next, hnext, hv⟩ := checkedAdd_some (a := id) (b := step) (by omega)
      have hmem : id ∈ table.rows := (hrows id).2 ⟨hlt, fun h => absurd h.2 (UInt64.lt_irrefl id)⟩
      obtain ⟨table', htable', hrows'⟩ := UniqueTable.delete_some hmem
      have hsize' := TreeMap.size_erase_mem table.rows hmem
      rw [dif_pos hlt, hnext, htable', Option.getD_some]
      refine ih _ ?_ (turns + 1) next table' rfl ?_ ?_ (by omega) fun key => ?_
      · omega
      · rw [hv, hid]
        ring
      · rw [hrows']
        omega
      · rw [hrows', TreeMap.mem_erase, hrows]
        -- below the next multiple, the only multiple that was left is `id`
        have hkey : step.toNat ∣ key.toNat ∧ key < next ↔ id = key ∨ (step.toNat ∣ key.toNat ∧ key < id) := by
          rw [UInt64.lt_iff_toNat_lt, UInt64.lt_iff_toNat_lt, hv, ← UInt64.toNat_inj]
          exact dvd_lt_add_iff hstep (hid ▸ Nat.dvd_mul_left _ _)
        rw [hkey]
        tauto
    · have hge : seedRows.toNat ≤ id.toNat := by
        rw [UInt64.lt_iff_toNat_lt] at hlt
        omega
      rw [dif_neg hlt]
      refine ⟨table, rfl, ?_, fun key => ?_⟩
      · have hturns : (seedRows.toNat + step.toNat - 1) / step.toNat = turns := by
          apply Nat.div_eq_of_lt_le
          · omega
          · rw [Nat.add_mul, Nat.one_mul, ← hid]
            omega
        rw [hturns, hsize]
      · rw [hrows]
        constructor
        · intro h
          refine ⟨h.1, fun hdvd => h.2 ⟨hdvd, ?_⟩⟩
          have := h.1
          rw [UInt64.lt_iff_toNat_lt] at this ⊢
          omega
        · exact fun h => ⟨h.1, fun h' => h.2 h'.1⟩

/-- **The fragmented table.** Every `step`-th row is gone, that is `seed_rows / step` rows rounded up. -/
theorem fragmented_some {seedRows pct : UInt64} (hpct : 0 < pct) (h : 1000000 + seedRows.toNat ≤ 2 ^ 64) :
    ∃ table, fragmented seedRows pct = some (table, seedRows) ∧
      table.rows.size + (seedRows.toNat + (stride pct).toNat - 1) / (stride pct).toNat = seedRows.toNat ∧
      ∀ id, id ∈ table.rows ↔ id < seedRows ∧ ¬ (stride pct).toNat ∣ id.toNat := by
  obtain ⟨table, htable, hsize, hrows⟩ := seeded_some h
  have hstride : (stride pct).toNat ≤ 100 := by
    rw [stride_toNat]
    have := Nat.div_le_self 100 pct.toNat
    omega
  have hfit : seedRows.toNat + (stride pct).toNat ≤ 2 ^ 64 := by omega
  obtain ⟨table', hdelete, hsize', hrows'⟩ := deleteEvery_some (stride_pos pct) hfit 0 0 table
    (by rw [UInt64.toNat_zero, Nat.zero_mul]) (by omega)
    (by rw [UInt64.toNat_zero]; have := stride_pos pct; omega)
    fun key => by
      rw [hrows key]
      exact ⟨fun hk => ⟨hk, fun hz => absurd hz.2 UInt64.not_lt_zero⟩, And.left⟩
  refine ⟨table', ?_, hsize', hrows'⟩
  simp [fragmented, htable, hpct, hdelete]

/-! ## The requested share -/

/-- `fragmented` returns, and the number of rows it removed is the requested percentage of the seeded ones, up to one
row -/
def RemovesPercentage (seedRows pct : UInt64) : Prop :=
  ∃ table, fragmented seedRows pct = some (table, seedRows) ∧
    |((seedRows.toNat - table.rows.size : ℕ) : ℚ) - (seedRows.toNat : ℚ) * pct.toNat / 100| ≤ 1

/-- the rounding of the stride, summed over the table, stays within one row: `100 % pct` hundredths of a row are
deleted too many at every full stride, and the last, partial stride deletes one row where it has `seed_rows % step` -/
def StrideFits (seedRows pct : ℕ) : Prop :=
  seedRows / (100 / pct) * (100 % pct) ≤
    if seedRows % (100 / pct) = 0 then 100 else seedRows % (100 / pct) * pct

instance (seedRows pct : ℕ) : Decidable (StrideFits seedRows pct) := inferInstanceAs (Decidable (_ ≤ _))

theorem removed_ge {n pct : ℕ} (h0 : 0 < pct) (hle : pct ≤ 100) :
    n * pct ≤ 100 * ((n + 100 / pct - 1) / (100 / pct)) := by
  set step := 100 / pct with hstep
  have hpos : 0 < step := Nat.div_pos hle h0
  have hmul : pct * step ≤ 100 := Nat.mul_div_le _ _
  have hceil : n ≤ step * ((n + step - 1) / step) := by
    have hmod := Nat.div_add_mod (n + step - 1) step
    have := Nat.mod_lt (n + step - 1) hpos
    omega
  calc n * pct ≤ step * ((n + step - 1) / step) * pct := Nat.mul_le_mul_right _ hceil
    _ = pct * step * ((n + step - 1) / step) := by ring
    _ ≤ 100 * ((n + step - 1) / step) := Nat.mul_le_mul_right _ hmul

/-- the surplus of the rounded-up count, as a condition on the table and the percentage -/
theorem removed_le_iff {n pct : ℕ} (h0 : 0 < pct) (hle : pct ≤ 100) :
    100 * ((n + 100 / pct - 1) / (100 / pct)) ≤ n * pct + 100 ↔ StrideFits n pct := by
  unfold StrideFits
  set step := 100 / pct with hstep
  have hpos : 0 < step := Nat.div_pos hle h0
  have hhundred : pct * step + 100 % pct = 100 := Nat.div_add_mod 100 pct
  set rest := 100 % pct
  have hn : step * (n / step) + n % step = n := Nat.div_add_mod n step
  have hlt : n % step < step := Nat.mod_lt _ hpos
  set q := n / step
  set t := n % step
  have hprod : n * pct = q * (pct * step) + t * pct := by
    rw [← hn]
    ring
  have hq : q * 100 = q * (pct * step) + q * rest := by
    rw [← Nat.mul_add, hhundred]
  split_ifs with ht
  · have hceil : (n + step - 1) / step = q := by
      apply Nat.div_eq_of_lt_le
      · rw [Nat.mul_comm]
        omega
      · rw [Nat.add_mul, Nat.one_mul, Nat.mul_comm]
        omega
    rw [hceil, hprod, ht, Nat.zero_mul]
    omega
  · have hceil : (n + step - 1) / step = q + 1 := by
      apply Nat.div_eq_of_lt_le
      · rw [Nat.add_mul, Nat.one_mul, Nat.mul_comm]
        omega
      · rw [Nat.add_mul, Nat.add_mul, Nat.one_mul, Nat.mul_comm]
        omega
    rw [hceil, hprod, Nat.mul_add, Nat.mul_one]
    omega

/-- **When the requested share is removed.** Exactly for the tables whose unique column fits and for which the rounding
of the stride stays within one row. -/
theorem removes_percentage_iff (seedRows pct : UInt64) (h0 : 0 < pct) (hle : pct ≤ 100) :
    RemovesPercentage seedRows pct ↔
      1000000 + seedRows.toNat ≤ 2 ^ 64 ∧ StrideFits seedRows.toNat pct.toNat := by
  rw [UInt64.le_iff_toNat_le] at hle
  have hle' : pct.toNat ≤ 100 := hle
  have h0' : 0 < pct.toNat := UInt64.lt_iff_toNat_lt.1 h0
  have hstride : (stride pct).toNat = 100 / pct.toNat := by
    rw [stride_toNat]
    exact max_eq_left (Nat.div_pos hle' h0')
  by_cases hfit : 1000000 + seedRows.toNat ≤ 2 ^ 64
  · obtain ⟨table, htable, hsize, -⟩ := fragmented_some h0 hfit
    rw [hstride] at hsize
    set removed := (seedRows.toNat + 100 / pct.toNat - 1) / (100 / pct.toNat)
    have hremoved : seedRows.toNat - table.rows.size = removed :=
      Nat.sub_eq_of_eq_add (hsize.symm.trans (Nat.add_comm _ _))
    have hlow := removed_ge (n := seedRows.toNat) h0' hle'
    have hiff := removed_le_iff (n := seedRows.toNat) h0' hle'
    have hnear : |((seedRows.toNat - table.rows.size : ℕ) : ℚ) - (seedRows.toNat : ℚ) * pct.toNat / 100| ≤ 1 ↔
        100 * removed ≤ seedRows.toNat * pct.toNat + 100 := by
      rw [hremoved]
      have hlow' : (seedRows.toNat : ℚ) * pct.toNat ≤ 100 * removed := by exact_mod_cast hlow
      rw [abs_of_nonneg (by linarith), sub_le_iff_le_add]
      constructor
      · intro h
        have hq : (100 : ℚ) * removed ≤ seedRows.toNat * pct.toNat + 100 := by linarith
        exact_mod_cast hq
      · intro h
        have hq : (100 : ℚ) * removed ≤ seedRows.toNat * pct.toNat + 100 := by exact_mod_cast h
        linarith
    constructor
    · intro h
      obtain ⟨table', htable', habs⟩ := h
      rw [htable] at htable'
      cases htable'
      exact ⟨hfit, hiff.1 (hnear.1 habs)⟩
    · intro h
      exact ⟨table, htable, hnear.2 (hiff.2 h.2)⟩
  · constructor
    · intro h
      obtain ⟨table, htable, -⟩ := h
      rw [fragmented, seeded_none (by omega)] at htable
      cases htable
    · exact fun h => absurd h.1 hfit

theorem removes_percentage_quarter : 0 < (25 : UInt64) ∧ (25 : UInt64) ≤ 100 ∧
    (RemovesPercentage 20000 25 ↔ 1000000 + 20000 ≤ 2 ^ 64 ∧ StrideFits 20000 25) :=
  ⟨by decide, by decide, removes_percentage_iff 20000 25 (by decide) (by decide)⟩

/-- the second percentage the benchmark runs with: of 20000 rows all are removed instead of 12000 -/
theorem all_rows_removed : ¬ RemovesPercentage 20000 60 := by
  intro h
  obtain ⟨table, htable, habs⟩ := h
  have hpct : 0 < (60 : UInt64) := by decide
  have hfit : 1000000 + (20000 : UInt64).toNat ≤ 2 ^ 64 := by decide
  obtain ⟨table', htable', hsize, -⟩ := fragmented_some hpct hfit
  rw [htable] at htable'
  cases htable'
  have hzero : table.rows.size = 0 := by
    have hn : (20000 : UInt64).toNat = 20000 := rfl
    have hs : (stride 60).toNat = 1 := rfl
    rw [hn, hs] at hsize
    omega
  have hn : (20000 : UInt64).toNat = 20000 := rfl
  have hp : (60 : UInt64).toNat = 60 := rfl
  rw [hzero, hn, hp] at habs
  norm_num at habs

/-! ## Which percentages -/

theorem strideFits_of_dvd {n pct : ℕ} (h : pct ∣ 100) : StrideFits n pct := by
  unfold StrideFits
  rw [Nat.mod_eq_zero_of_dvd h, Nat.mul_zero]
  exact Nat.zero_le _

/-- a percentage that does not divide 100 fails on every table of `101` strides -/
theorem not_strideFits_of_large {n pct : ℕ} (h0 : 0 < pct) (hle : pct ≤ 100) (h : ¬ pct ∣ 100)
    (hn : 101 * (100 / pct) ≤ n) : ¬ StrideFits n pct := by
  have hpos : 0 < 100 / pct := Nat.div_pos hle h0
  have hrest : 1 ≤ 100 % pct := Nat.pos_of_ne_zero fun he => h (Nat.dvd_of_mod_eq_zero he)
  have hq : 101 ≤ n / (100 / pct) := (Nat.le_div_iff_mul_le hpos).2 hn
  have hlarge : 101 ≤ n / (100 / pct) * (100 % pct) :=
    calc 101 ≤ n / (100 / pct) := hq
      _ = n / (100 / pct) * 1 := (Nat.mul_one _).symm
      _ ≤ n / (100 / pct) * (100 % pct) := Nat.mul_le_mul_left _ hrest
  have hpartial : n % (100 / pct) * pct ≤ 100 :=
    calc n % (100 / pct) * pct ≤ 100 / pct * pct := Nat.mul_le_mul_right _ (Nat.mod_lt _ hpos).le
      _ ≤ 100 := Nat.div_mul_le_self _ _
  unfold StrideFits
  split_ifs
  · omega
  · omega

/-- of the two percentages the benchmark runs with, only the first divides 100 -/
example : fragmentation.map (fun pct => decide (StrideFits seedRowsDefault.toNat pct.toNat)) = [true, false] := by
  decide

end WtBenchmarks.VacuumStress
