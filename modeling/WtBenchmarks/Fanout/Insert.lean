/-
The fan-out benchmark (`src/fanout.rs`): rows are inserted under the keys `i % groups`, where `groups` is the quotient
of the rows by the fan-out asked for.

Two roundings meet. What is left over when the rows are divided into groups is dealt out to the groups again, so a key
has one row for each time the remainder goes round.

- `insertAtFanOut_entries`: the rows inserted;
- `group_count`: how many rows share a key;
- `fanOutIs_iff`: when these are as many as asked for, up to one.
-/
import Mathlib.Data.Int.CardIntervalMod
import WtBenchmarks.Core.GroupTable
import WtBenchmarks.Core.Total
import WtBenchmarks.Core.Word

namespace WtBenchmarks.Fanout

/-! ## Model -/

/-- `ROWS` -/
def rowsDefault : UInt64 := 20000

/-- `FAN_OUT` -/
def fanOuts : List UInt64 := [1, 16, 256, 4096]

structure FanoutRow where
  id : UInt64
  groupKey : UInt64
  payload : UInt64
deriving DecidableEq, Repr

structure Driver where
  nextPk : UInt64
  table : GroupTable UInt64 UInt64 FanoutRow FanoutRow.groupKey

/-- a table without rows, which numbers its next row from anywhere -/
def Driver.new (nextPk : UInt64) : Driver := ⟨nextPk, GroupTable.empty FanoutRow.groupKey⟩

def insertTurn (groups : UInt64) (d : Driver) (i : ℕ) : Option Driver :=
  let r : FanoutRow := ⟨d.nextPk, UInt64.ofNat i % groups, UInt64.ofNat i⟩
  if h : r.id ∈ d.table.rows then none else some ⟨d.nextPk + 1, d.table.insertNew r.id r h⟩

def Driver.insertAtFanOut (d : Driver) (rows fanOut : UInt64) : Option (Driver × UInt64) :=
  if fanOut = 0 then none
  else do
    let groups := max (rows / fanOut) 1
    let d ← (List.range rows.toNat).foldlM (insertTurn groups) d
    some (d, rows)

/-- the rows that share a key -/
def Driver.shared (d : Driver) (key : UInt64) : ℕ := (d.table.selectByGroup key).length

/-- every key that occurs is shared by `fanOut` rows, up to one -/
def Driver.FanOutIs (d : Driver) (fanOut : UInt64) : Prop :=
  ∀ key, 0 < d.shared key → d.shared key ≤ fanOut.toNat + 1 ∧ fanOut.toNat ≤ d.shared key + 1

/-! ## The rows inserted -/

/-- the first entries of the table -/
def entries (p groups : UInt64) (n : ℕ) : List (UInt64 × FanoutRow) :=
  (List.range n).map fun i => (p + UInt64.ofNat i, ⟨p + UInt64.ofNat i, UInt64.ofNat i % groups, UInt64.ofNat i⟩)

variable {p groups : UInt64} {n : ℕ}

theorem entries_succ (p groups : UInt64) (n : ℕ) : entries p groups (n + 1) = entries p groups n ++
    [(p + UInt64.ofNat n, ⟨p + UInt64.ofNat n, UInt64.ofNat n % groups, UInt64.ofNat n⟩)] := by
  rw [entries, List.range_succ, List.map_append]
  rfl

theorem entries_fst_nodup (hn : n ≤ 2 ^ 64) : ((entries p groups n).map Prod.fst).Nodup := by
  have hwords : (entries p groups n).map Prod.fst = (words n).map (p + ·) := by
    rw [entries, words, List.map_map, List.map_map]
    rfl
  rw [hwords]
  exact (words_nodup hn).map fun a b h => (UInt64.add_right_inj p).1 h

/-- the table after some turns -/
structure Inserted (p groups : UInt64) (n : ℕ) (d : Driver) : Prop where
  nextPk : d.nextPk = p + UInt64.ofNat n
  rows : ∀ (id : UInt64) r, d.table.rows[id]? = some r ↔ (id, r) ∈ entries p groups n

theorem insertTurn_ok {d : Driver} (h : Inserted p groups n d) (hn : n < 2 ^ 64) :
    ∃ d', insertTurn groups d n = some d' ∧ Inserted p groups (n + 1) d' := by
  have hnodup : ((entries p groups (n + 1)).map Prod.fst).Nodup := entries_fst_nodup hn
  rw [entries_succ, List.map_append, List.map_singleton] at hnodup
  have hfresh : p + UInt64.ofNat n ∉ (entries p groups n).map Prod.fst := fun hmem =>
    (List.nodup_append.1 hnodup).2.2 _ hmem _ (List.mem_singleton_self _) rfl
  obtain ⟨next, table⟩ := d
  obtain ⟨hnext, hrows⟩ := h
  dsimp only at hnext hrows
  subst hnext
  have hkey : p + UInt64.ofNat n ∉ table.rows := by
    rw [TreeMap.mem_iff_get]
    intro hmem
    obtain ⟨r, hr⟩ := hmem
    exact hfresh (List.mem_map.2 ⟨_, (hrows _ r).1 hr, rfl⟩)
  refine ⟨_, dif_neg hkey, by rw [UInt64.ofNat_add, ← UInt64.add_assoc]; rfl, fun id r => ?_⟩
  rw [GroupTable.insertNew_rows, TreeMap.get_insert, entries_succ, List.mem_append, List.mem_singleton, ← hrows,
    Prod.mk.injEq]
  split_ifs with hid
  · subst hid
    rw [(TreeMap.get_none _ _).2 hkey, Option.some_inj]
    simp only [reduceCtorEq, false_or, true_and]
    exact eq_comm
  · simp [Ne.symm hid]

/-- **The rows inserted** at some fan-out. -/
theorem insertAtFanOut_entries {fanOut : UInt64} (hfanOut : fanOut ≠ 0) (rows p : UInt64) :
    ∃ d, (Driver.new p).insertAtFanOut rows fanOut = some (d, rows) ∧
      d.table.rows.toList.Perm (entries p (max (rows / fanOut) 1) rows.toNat) := by
  have hrows := rows.toNat_lt.le
  obtain ⟨d, hd, hinserted⟩ := exists_foldlM_range (I := Inserted p (max (rows / fanOut) 1))
    (f := insertTurn (max (rows / fanOut) 1)) rows.toNat (fun i d hi h => insertTurn_ok h (hi.trans_le hrows))
    (Driver.new p) ⟨(UInt64.add_zero p).symm, fun id r => by simp [Driver.new, entries]⟩
  refine ⟨d, ?_, TreeMap.toList_perm d.table.rows (entries_fst_nodup hrows) hinserted.rows⟩
  rw [Driver.insertAtFanOut, if_neg hfanOut]
  dsimp only
  rw [hd]
  rfl

/-! ## Keys and their rows -/

variable {d : Driver} {key : UInt64} {rows : UInt64}

theorem shared_eq_count (h : d.table.rows.toList.Perm (entries p groups rows.toNat)) :
    d.shared key = Nat.count (fun i => i % groups.toNat = key.toNat) rows.toNat := by
  rw [Driver.shared, GroupTable.selectByGroup_length, h.countP_eq, entries, List.countP_map, Nat.count]
  refine List.countP_congr fun i hi => ?_
  have hi := (List.mem_range.1 hi).trans rows.toNat_lt
  rw [Function.comp_apply, decide_eq_true_iff, decide_eq_true_iff, ← UInt64.toNat_inj, UInt64.toNat_mod,
    ofNat_toNat_of_lt hi]

/-- **The rows of a key.** -/
theorem group_count (h : d.table.rows.toList.Perm (entries p groups rows.toNat)) (hkey : key.toNat < groups.toNat) :
    d.shared key = rows.toNat / groups.toNat + if key.toNat < rows.toNat % groups.toNat then 1 else 0 := by
  have hcount := Nat.count_modEq_card rows.toNat (Nat.zero_lt_of_lt hkey) key.toNat
  simp only [Nat.ModEq, Nat.mod_eq_of_lt hkey] at hcount
  rw [shared_eq_count h, hcount]

theorem group_absent (h : d.table.rows.toList.Perm (entries p groups rows.toNat)) (hgroups : 0 < groups.toNat)
    (hkey : groups.toNat ≤ key.toNat) : d.shared key = 0 := by
  rw [shared_eq_count h]
  refine Nat.count_of_forall_not fun i _ heq => ?_
  exact absurd (Nat.mod_lt i hgroups) (by omega)

/-! ## The two roundings -/

/-- what a remainder adds to each group -/
theorem regrouped {rows fanOut : ℕ} (hgroups : 0 < rows / fanOut) :
    rows / (rows / fanOut) = fanOut + rows % fanOut / (rows / fanOut) ∧
      rows % (rows / fanOut) = rows % fanOut % (rows / fanOut) := by
  have hsplit : rows = rows % fanOut + rows / fanOut * fanOut := by
    rw [mul_comm]
    exact (Nat.mod_add_div rows fanOut).symm
  set g := rows / fanOut
  set r := rows % fanOut
  rw [hsplit, Nat.add_mul_div_left r fanOut hgroups, Nat.add_mul_mod_self_left, add_comm]
  exact ⟨rfl, rfl⟩

/-- a remainder goes round `g` groups at most once exactly if the first group gets at most one more -/
theorem goesRoundOnce {r g : ℕ} (hg : 0 < g) : (r / g + if 0 < r % g then 1 else 0) ≤ 1 ↔ r ≤ g := by
  have hdiv := Nat.div_add_mod r g
  have hmod := Nat.mod_lt r hg
  constructor
  · intro h
    have hquotient : r / g ≤ 1 := (Nat.le_add_right _ _).trans h
    rcases Nat.le_one_iff_eq_zero_or_eq_one.1 hquotient with hzero | hone
    · rw [hzero] at hdiv
      omega
    · rw [hone] at h hdiv
      split_ifs at h <;> omega
  · intro h
    rcases Nat.lt_or_eq_of_le h with hlt | rfl
    · rw [Nat.div_eq_of_lt hlt]
      split_ifs <;> omega
    · rw [Nat.div_self hg, Nat.mod_self, if_neg (Nat.lt_irrefl 0)]

/-- **The fan-out** is the one asked for exactly if the remainder goes round the groups at most once. -/
theorem fanOutIs_of_entries {rows fanOut : UInt64} (hgroups : 0 < rows.toNat / fanOut.toNat)
    (hword : groups.toNat = rows.toNat / fanOut.toNat)
    (hentries : d.table.rows.toList.Perm (entries p groups rows.toNat)) :
    d.FanOutIs fanOut ↔ rows.toNat % fanOut.toNat ≤ rows.toNat / fanOut.toNat := by
  obtain ⟨hquotient, hremainder⟩ := regrouped hgroups
  rw [← goesRoundOnce hgroups]
  -- `q` times round, and once more for the first groups
  obtain ⟨q, hq⟩ : ∃ q, rows.toNat % fanOut.toNat / (rows.toNat / fanOut.toNat) = q := ⟨_, rfl⟩
  obtain ⟨rest, hrest⟩ : ∃ rest, rows.toNat % fanOut.toNat % (rows.toNat / fanOut.toNat) = rest := ⟨_, rfl⟩
  have hcount : ∀ key : UInt64, key.toNat < groups.toNat →
      d.shared key = fanOut.toNat + q + if key.toNat < rest then 1 else 0 := by
    intro key hkey
    rw [group_count hentries hkey, hword, hquotient, hremainder, hq, hrest]
  rw [hq, hrest]
  constructor
  · intro h
    have hzero := hcount 0 (by rw [hword]; exact hgroups)
    have hpos : 0 < fanOut.toNat := Nat.pos_of_ne_zero fun h => by rw [h, Nat.div_zero] at hgroups; omega
    have hbound := (h 0 (by omega)).1
    rw [hzero, UInt64.toNat_zero] at hbound
    omega
  · intro h key hkey
    by_cases hlt : key.toNat < groups.toNat
    · -- no key has more rows than the first
      have hfirst : (if key.toNat < rest then 1 else 0) ≤ if 0 < rest then 1 else 0 := by
        split_ifs <;> omega
      rw [hcount key hlt]
      omega
    · rw [group_absent hentries (by omega) (Nat.not_lt.1 hlt)] at hkey
      omega

theorem groups_toNat {rows fanOut : UInt64} (hgroups : 0 < rows.toNat / fanOut.toNat) :
    (max (rows / fanOut) 1).toNat = rows.toNat / fanOut.toNat := by
  rw [max_one_toNat, UInt64.toNat_div]
  exact max_eq_left hgroups

/-- **Advertised fan-out.** -/
theorem fanOutIs_iff {rows fanOut : UInt64} (hpos : 1 ≤ fanOut) (hle : fanOut ≤ rows) (p : UInt64) :
    ∃ d, (Driver.new p).insertAtFanOut rows fanOut = some (d, rows) ∧
      (d.FanOutIs fanOut ↔ rows % fanOut ≤ rows / fanOut) := by
  rw [UInt64.le_iff_toNat_le] at hpos hle
  have hgroups : 0 < rows.toNat / fanOut.toNat := Nat.div_pos hle hpos
  have hne : fanOut ≠ 0 := by
    rintro rfl
    exact absurd hpos (by decide)
  obtain ⟨d, hd, hentries⟩ := insertAtFanOut_entries hne rows p
  refine ⟨d, hd, ?_⟩
  rw [UInt64.le_iff_toNat_le, UInt64.toNat_mod, UInt64.toNat_div]
  exact fanOutIs_of_entries hgroups (groups_toNat hgroups) hentries

theorem fanOutIs_iff_default : ∃ d, (Driver.new 0).insertAtFanOut rowsDefault 256 = some (d, rowsDefault) ∧
    (d.FanOutIs 256 ↔ rowsDefault % 256 ≤ rowsDefault / 256) :=
  fanOutIs_iff (by decide) (by decide) 0

/-- the largest fan-out of the benchmark: its rows come to 5000 a key -/
theorem largestFanOut : 4096 ∈ fanOuts ∧ ∃ d, (Driver.new 0).insertAtFanOut rowsDefault 4096 = some (d, rowsDefault) ∧
    d.shared 0 = 5000 ∧ ¬ d.FanOutIs 4096 := by
  obtain ⟨d, hd, hentries⟩ := insertAtFanOut_entries (by decide : (4096 : UInt64) ≠ 0) rowsDefault 0
  have hcount := group_count hentries (show (0 : UInt64).toNat < _ by decide)
  refine ⟨by decide, d, hd, hcount, fun h => ?_⟩
  have hbound := (h 0 (by rw [hcount]; decide)).1
  rw [hcount] at hbound
  exact absurd hbound (by decide)

end WtBenchmarks.Fanout
