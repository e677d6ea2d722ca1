/-
The foreground loop of the vacuum benchmark (`arm`, `src/vacuum_stress.rs`), for any number of turns.

A turn inserts the next id and selects a row; a churning arm also deletes the next 300 ids after every 100 inserts,
counting those that were there. The result of the select is dropped, and so is a refused insert. Vacuum moves rows and
changes none, so it is left out, with the page counts and the timings.

- `deleteNext_inv`, `turn_inv`: one deletion, one turn;
- `arm_rows`: what is left in the table after any number of turns, and how many rows were deleted;
- `churn_dries_up`: the deletions overtake the inserts: from some turn on, which depends on the seeded rows only, no row
  is deleted any more and the table grows with every turn.
-/
import WtBenchmarks.Core.Total
import WtBenchmarks.VacuumStress.Fragmented

namespace WtBenchmarks.VacuumStress

/-! ## Model -/

structure Foreground where
  table : VacStressTable
  nextId : UInt64
  /-- `insert_ns.len()` -/
  inserts : ℕ
  /-- `select_ns.len()` -/
  selects : ℕ
  deletes : UInt64
  deleteCursor : UInt64

/-- one deletion of a burst -/
def deleteNext (s : Foreground) : Option Foreground := do
  let cursor ← checkedAdd s.deleteCursor 1
  match s.table.delete cursor with
  | none => some { s with deleteCursor := cursor }
  | some table => do
    let deletes ← checkedAdd s.deletes 1
    some { s with table, deletes, deleteCursor := cursor }

def burst (s : Foreground) : Option Foreground := (List.range 300).foldlM (fun s _ => deleteNext s) s

/-- a turn of the loop; the selected row is dropped -/
def turn (churning : Bool) (s : Foreground) : Option Foreground := do
  let r ← row s.nextId
  let table := (s.table.insert s.nextId r).getD s.table
  let nextId ← checkedAdd s.nextId 1
  let s := { s with table, nextId, inserts := s.inserts + 1, selects := s.selects + 1 }
  if churning && s.inserts % 100 == 0 then burst s else some s

/-- an arm that is stopped after some turns -/
def arm (seedRows fragmentationPct : UInt64) (churning : Bool) (turns : ℕ) : Option Foreground := do
  let (table, nextId) ← fragmented seedRows fragmentationPct
  (List.range turns).foldlM (fun s _ => turn churning s) ⟨table, nextId, 0, 0, 0, 0⟩

/-! ## Rows under their ids -/

/-- every row is the one of its id -/
def Own (table : VacStressTable) : Prop := ∀ (k : UInt64) r, table.rows[k]? = some r → row k = some r

theorem row_uniq {k : UInt64} {r : VacStressRow} (h : row k = some r) : r.uniq.toNat = 1000000 + k.toNat := by
  rw [row, Option.bind_eq_bind, Option.bind_eq_some_iff] at h
  obtain ⟨uniq, huniq, h⟩ := h
  cases h
  exact checkedAdd_toNat huniq

/-- a new id enters the table -/
theorem Own.insert {table : VacStressTable} (h : Own table) {k : UInt64} {r : VacStressRow} (hr : row k = some r)
    (hk : k ∉ table.rows) :
    ∃ table', table.insert k r = some table' ∧ table'.rows = table.rows.insert k r ∧ Own table' := by
  obtain ⟨table', hinsert, hrows⟩ := UniqueTable.insert_some hk fun k' r' hr' hu => hk (by
    have huniq := congrArg UInt64.toNat hu
    rw [row_uniq (h k' r' hr'), row_uniq hr] at huniq
    obtain rfl : k' = k := UInt64.toNat_inj.1 (by omega)
    exact (TreeMap.mem_iff_get _ _).2 ⟨r', hr'⟩)
  refine ⟨table', hinsert, hrows, fun k' r' hr' => ?_⟩
  rw [hrows, TreeMap.get_insert] at hr'
  split_ifs at hr' with hkk
  · cases hr'
    rwa [← hkk]
  · exact h k' r' hr'

theorem Own.delete {table table' : VacStressTable} (h : Own table) {k : UInt64}
    (hrows : table'.rows = table.rows.erase k) : Own table' := by
  intro k' r' hr'
  rw [hrows, TreeMap.get_erase] at hr'
  split_ifs at hr' with hkk
  exact h k' r' hr'

theorem seeded_own {seedRows : UInt64} {table : VacStressTable} (h : seeded seedRows = some table) : Own table := by
  refine foldlM_history (I := fun _ table => Own table) (fun k r hr => by simp [UniqueTable.empty] at hr) ?_ h
  intro _ i s s' hs hturn
  rw [seedTurn, Option.bind_eq_bind, Option.bind_eq_some_iff] at hturn
  obtain ⟨r, hr, hinsert⟩ := hturn
  have hk : UInt64.ofNat i ∉ s.rows := by
    intro hk
    rw [UniqueTable.insert, dif_pos hk] at hinsert
    cases hinsert
  obtain ⟨s'', hinsert', -, hown⟩ := hs.insert hr hk
  rw [hinsert'] at hinsert
  cases hinsert
  exact hown

theorem deleteEvery_own {seedRows step : UInt64} (hstep : 0 < step.toNat) (id : UInt64) (table table' : VacStressTable)
    (hown : Own table) (h : deleteEvery seedRows step hstep id table = some table') : Own table' := by
  induction id, table using deleteEvery.induct seedRows step hstep with
  | case1 id table hid hnone =>
    rw [deleteEvery, dif_pos hid] at h
    split at h
    · cases h
    · rename_i hsome
      rw [hnone] at hsome
      cases hsome
  | case2 id table hid next hnext ih =>
    rw [deleteEvery, dif_pos hid] at h
    split at h
    · cases h
    · rename_i next' hnext'
      rw [hnext] at hnext'
      cases hnext'
      refine ih ?_ h
      cases hdelete : table.delete id with
      | none => exact hown
      | some t =>
        have hmem : id ∈ table.rows := by
          by_contra hmem
          unfold UniqueTable.delete at hdelete
          split at hdelete
          · cases hdelete
          · rename_i old hold
            exact hmem ((TreeMap.mem_iff_get _ _).2 ⟨old, hold⟩)
        obtain ⟨t', ht', hrows⟩ := UniqueTable.delete_some hmem
        rw [hdelete] at ht'
        cases ht'
        exact hown.delete hrows
  | case3 id table hid =>
    rw [deleteEvery, dif_neg hid] at h
    cases h
    exact hown

theorem fragmented_own {seedRows pct next : UInt64} {table : VacStressTable}
    (h : fragmented seedRows pct = some (table, next)) : Own table := by
  rw [fragmented, Option.bind_eq_bind, Option.bind_eq_some_iff] at h
  obtain ⟨before, hbefore, h⟩ := h
  split_ifs at h with hpct
  · rw [Option.bind_eq_some_iff] at h
    obtain ⟨after, hafter, h⟩ := h
    cases h
    exact deleteEvery_own _ _ _ _ (seeded_own hbefore) hafter
  · cases h
    exact seeded_own hbefore

/-! ## One deletion and one turn -/

/-- the id was deleted before the arm -/
def Gone (seedRows pct : UInt64) (k : ℕ) : Prop := 0 < pct.toNat ∧ (stride pct).toNat ∣ k ∧ k < seedRows.toNat

/-- the id was in use by the time the deletions came to it -/
def Reached (seedRows : UInt64) (k : ℕ) : Prop := 1 ≤ k ∧ k < seedRows.toNat + 100 * ((k + 299) / 300)

instance decidableGone (seedRows pct : UInt64) (k : ℕ) : Decidable (Gone seedRows pct k) :=
  inferInstanceAs (Decidable (_ ∧ _))

instance decidableReached (seedRows : UInt64) (k : ℕ) : Decidable (Reached seedRows k) :=
  inferInstanceAs (Decidable (_ ∧ _))

/-- the ids deleted while the cursor moved to `c` -/
def deletedIds (seedRows pct : UInt64) (c : ℕ) : Finset ℕ :=
  (Finset.range (c + 1)).filter fun k => Reached seedRows k ∧ ¬ Gone seedRows pct k

/-- how many rows were deleted before the arm -/
def removed (seedRows pct : UInt64) : ℕ :=
  if 0 < pct then (seedRows.toNat + (stride pct).toNat - 1) / (stride pct).toNat else 0

section Invariant

variable {seedRows pct : UInt64}

theorem deletedIds_succ (c : ℕ) : deletedIds seedRows pct (c + 1) =
    if Reached seedRows (c + 1) ∧ ¬ Gone seedRows pct (c + 1) then insert (c + 1) (deletedIds seedRows pct c)
    else deletedIds seedRows pct c := by
  rw [deletedIds, Finset.range_add_one, Finset.filter_insert]
  rfl

theorem succ_notMem_deletedIds (c : ℕ) : c + 1 ∉ deletedIds seedRows pct c := by
  rw [deletedIds, Finset.mem_filter, Finset.mem_range]
  omega

/-- the ids below `n` were inserted, and the deletions have come to `c` -/
structure Inv (seedRows pct : UInt64) (n c : ℕ) (s : Foreground) : Prop where
  own : Own s.table
  nextId : s.nextId.toNat = n
  cursor : s.deleteCursor.toNat = c
  rows : ∀ k, k ∈ s.table.rows ↔
    k.toNat < n ∧ ¬ Gone seedRows pct k.toNat ∧ ¬ (k.toNat ≤ c ∧ Reached seedRows k.toNat)
  deletes : s.deletes.toNat = (deletedIds seedRows pct c).card
  size : s.table.rows.size + s.deletes.toNat + removed seedRows pct = n

/-- **One deletion.** The burst that the next id belongs to is the one of the current turn. -/
theorem deleteNext_inv {n c : ℕ} {s : Foreground} (h : Inv seedRows pct n c s) (hc : c + 1 < 2 ^ 64) (hn : n < 2 ^ 64)
    (hburst : n = seedRows.toNat + 100 * ((c + 1 + 299) / 300)) :
    ∃ s', deleteNext s = some s' ∧ Inv seedRows pct n (c + 1) s' ∧ s'.inserts = s.inserts ∧ s'.selects = s.selects := by
  obtain ⟨cursor, hcursor, hvalue⟩ := checkedAdd_some (a := s.deleteCursor) (b := 1) (by rw [h.cursor]; exact hc)
  rw [h.cursor, UInt64.toNat_one] at hvalue
  have hreached : Reached seedRows (c + 1) ↔ c + 1 < n := by
    rw [Reached]
    omega
  have hmem : cursor ∈ s.table.rows ↔ Reached seedRows (c + 1) ∧ ¬ Gone seedRows pct (c + 1) := by
    rw [h.rows, hvalue, hreached]
    exact ⟨fun hin => ⟨hin.1, hin.2.1⟩, fun hin => ⟨hin.1, hin.2, fun hle => by omega⟩⟩
  -- the ids other than the one of the cursor are as they were
  have hother : ∀ k : UInt64, k ≠ cursor → (k.toNat ≤ c + 1 ↔ k.toNat ≤ c) := fun k hk => by
    have hne : k.toNat ≠ c + 1 := fun he => hk (UInt64.toNat_inj.1 (he.trans hvalue.symm))
    omega
  cases hdelete : s.table.delete cursor with
  | none =>
    have hout : cursor ∉ s.table.rows := fun hin => by
      obtain ⟨table', htable', -⟩ := UniqueTable.delete_some hin
      rw [hdelete] at htable'
      cases htable'
    refine ⟨{ s with deleteCursor := cursor }, ?_, ⟨h.own, h.nextId, hvalue, fun k => ?_, ?_, h.size⟩, rfl, rfl⟩
    · rw [deleteNext, hcursor, Option.bind_eq_bind, Option.bind_some, hdelete]
    · by_cases hk : k = cursor
      · subst hk
        rw [hvalue]
        exact ⟨fun hin => absurd hin hout, fun hin => absurd ⟨le_rfl, hreached.2 hin.1⟩ hin.2.2⟩
      · rw [h.rows, hother k hk]
    · rw [deletedIds_succ, if_neg fun hin => hout (hmem.2 hin)]
      exact h.deletes
  | some table' =>
    have hin : cursor ∈ s.table.rows := by
      by_contra hout
      unfold UniqueTable.delete at hdelete
      split at hdelete
      · cases hdelete
      · rename_i old hold
        exact hout ((TreeMap.mem_iff_get _ _).2 ⟨old, hold⟩)
    obtain ⟨table'', htable'', hrows⟩ := UniqueTable.delete_some hin
    rw [hdelete] at htable''
    cases htable''
    have hsize := TreeMap.size_erase_mem s.table.rows hin
    have htotal := h.size
    obtain ⟨deletes, hdeletes, hcount⟩ := checkedAdd_some (a := s.deletes) (b := 1) (by rw [UInt64.toNat_one]; omega)
    rw [UInt64.toNat_one] at hcount
    refine ⟨{ s with table := table', deletes := deletes, deleteCursor := cursor }, ?_,
      ⟨h.own.delete hrows, h.nextId, hvalue, fun k => ?_, ?_, ?_⟩, rfl, rfl⟩
    · rw [deleteNext, hcursor, Option.bind_eq_bind, Option.bind_some, hdelete]
      dsimp only
      rw [hdeletes]
      rfl
    · rw [hrows, TreeMap.mem_erase]
      by_cases hk : k = cursor
      · subst hk
        rw [hvalue]
        exact ⟨fun hne => absurd rfl hne.1, fun hne => absurd ⟨le_rfl, (hmem.1 hin).1⟩ hne.2.2⟩
      · rw [h.rows, hother k hk]
        exact and_iff_right (Ne.symm hk)
    · rw [deletedIds_succ, if_pos (hmem.1 hin), Finset.card_insert_of_notMem (succ_notMem_deletedIds c), ← h.deletes]
      exact hcount
    · rw [hrows]
      change _ + deletes.toNat + _ = n
      omega

/-- **A burst** deletes up to the next multiple of 300. -/
theorem burst_inv {b n : ℕ} {s : Foreground} (h : Inv seedRows pct n (300 * b) s) (hc : 300 * (b + 1) < 2 ^ 64)
    (hn : n < 2 ^ 64) (hburst : n = seedRows.toNat + 100 * (b + 1)) :
    ∃ s', burst s = some s' ∧ Inv seedRows pct n (300 * (b + 1)) s' ∧ s'.inserts = s.inserts ∧ s'.selects = s.selects :=
  exists_foldlM_range
    (I := fun j s' => Inv seedRows pct n (300 * b + j) s' ∧ s'.inserts = s.inserts ∧ s'.selects = s.selects) 300
    (fun j s' hj ⟨hinv, hinserts, hselects⟩ => by
      obtain ⟨s'', hdelete, hinv', hinserts', hselects'⟩ := deleteNext_inv hinv (by omega) hn (by omega)
      exact ⟨s'', hdelete, hinv', hinserts'.trans hinserts, hselects'.trans hselects⟩) s ⟨h, rfl, rfl⟩

/-- where the deletions have come to after some turns -/
def cursorAfter (churning : Bool) (turns : ℕ) : ℕ := if churning then 300 * (turns / 100) else 0

/-- an arm after some turns -/
structure After (seedRows pct : UInt64) (churning : Bool) (turns : ℕ) (s : Foreground) : Prop where
  inv : Inv seedRows pct (seedRows.toNat + turns) (cursorAfter churning turns) s
  inserts : s.inserts = turns
  selects : s.selects = turns

/-- the insert of a turn always succeeds -/
theorem insert_inv {n c : ℕ} {s : Foreground} (h : Inv seedRows pct n c s) (hn : 1000000 + n < 2 ^ 64)
    (hseed : seedRows.toNat ≤ n) (hfree : ¬ (n ≤ c ∧ Reached seedRows n)) :
    ∃ r nextId, row s.nextId = some r ∧ checkedAdd s.nextId 1 = some nextId ∧ ∀ inserts selects,
      Inv seedRows pct (n + 1) c
        ⟨(s.table.insert s.nextId r).getD s.table, nextId, inserts, selects, s.deletes, s.deleteCursor⟩ := by
  have hword : 1000000 + s.nextId.toNat < 2 ^ 64 := by rw [h.nextId]; exact hn
  obtain ⟨r, hr, -⟩ := row_some hword
  obtain ⟨nextId, hnext, hvalue⟩ := checkedAdd_some (a := s.nextId) (b := 1) (by
    rw [h.nextId, UInt64.toNat_one]
    omega)
  rw [h.nextId, UInt64.toNat_one] at hvalue
  have hnew : s.nextId ∉ s.table.rows := fun hin => by
    have hlt := ((h.rows s.nextId).1 hin).1
    rw [h.nextId] at hlt
    exact absurd hlt (Nat.lt_irrefl n)
  obtain ⟨table', hinsert, hrows, hown⟩ := h.own.insert hr hnew
  refine ⟨r, nextId, hr, hnext, fun inserts selects => ?_⟩
  rw [hinsert, Option.getD_some]
  refine ⟨hown, hvalue, h.cursor, fun k => ?_, h.deletes, ?_⟩
  · rw [hrows, TreeMap.mem_insert, h.rows]
    by_cases hk : s.nextId = k
    · subst hk
      rw [h.nextId]
      refine ⟨fun _ => ⟨Nat.lt_succ_self n, fun hgone => ?_, hfree⟩, fun _ => Or.inl rfl⟩
      exact absurd hgone.2.2 (Nat.not_lt.2 hseed)
    · have hne : k.toNat ≠ n := fun he => hk (UInt64.toNat_inj.1 (h.nextId.trans he.symm))
      have hlt : k.toNat < n + 1 ↔ k.toNat < n := by omega
      rw [hlt]
      exact ⟨fun hor => hor.resolve_left hk, Or.inr⟩
  · rw [hrows, TreeMap.size_insert_new _ hnew]
    have hsize := h.size
    change _ + s.deletes.toNat + _ = _
    omega

theorem turn_inv {churning : Bool} {turns : ℕ} {s : Foreground} (h : After seedRows pct churning turns s)
    (hfit : 1000000 + (seedRows.toNat + turns) < 2 ^ 64) (hcursor : cursorAfter churning (turns + 1) < 2 ^ 64) :
    ∃ s', turn churning s = some s' ∧ After seedRows pct churning (turns + 1) s' := by
  have hfree : ¬ (seedRows.toNat + turns ≤ cursorAfter churning turns ∧
      Reached seedRows (seedRows.toNat + turns)) := by
    unfold cursorAfter Reached
    split_ifs <;> omega
  obtain ⟨r, nextId, hr, hnext, hinv⟩ := insert_inv h.inv hfit (by omega) hfree
  have hinv := hinv (s.inserts + 1) (s.selects + 1)
  simp only [turn, hr, hnext, Option.bind_eq_bind, Option.bind_some]
  by_cases hburst : churning = true ∧ (turns + 1) % 100 = 0
  · obtain ⟨rfl, hturns⟩ := hburst
    rw [cursorAfter, if_pos rfl] at hinv hcursor
    obtain ⟨s', hs', hinv', hinserts, hselects⟩ := burst_inv hinv (by omega) (by omega) (by omega)
    refine ⟨s', ?_, ?_, hinserts.trans (congrArg (· + 1) h.inserts), hselects.trans (congrArg (· + 1) h.selects)⟩
    · rw [h.inserts] at hs' ⊢
      rw [if_pos (by simpa using hturns)]
      exact hs'
    · rw [cursorAfter, if_pos rfl, show (turns + 1) / 100 = turns / 100 + 1 by omega]
      exact hinv'
  · refine ⟨_, if_neg (by simpa [h.inserts] using hburst), ?_, congrArg (· + 1) h.inserts, congrArg (· + 1) h.selects⟩
    have hsame : cursorAfter churning (turns + 1) = cursorAfter churning turns := by
      unfold cursorAfter
      split_ifs with hchurning
      · have : (turns + 1) % 100 ≠ 0 := fun hz => hburst ⟨hchurning, hz⟩
        omega
      · rfl
    rw [hsame]
    exact hinv

/-! ## Whole arms -/

/-- what the arm starts from -/
theorem fragmented_after (seedRows pct : UInt64) (churning : Bool) (hfit : 1000000 + seedRows.toNat ≤ 2 ^ 64) :
    ∃ table, fragmented seedRows pct = some (table, seedRows) ∧
      After seedRows pct churning 0 ⟨table, seedRows, 0, 0, 0, 0⟩ := by
  obtain ⟨table, htable, hrows, hsize⟩ : ∃ table, fragmented seedRows pct = some (table, seedRows) ∧
      (∀ k, k ∈ table.rows ↔ k.toNat < seedRows.toNat ∧ ¬ Gone seedRows pct k.toNat) ∧
      table.rows.size + removed seedRows pct = seedRows.toNat := by
    by_cases hpct : 0 < pct
    · obtain ⟨table, htable, hsize, hrows⟩ := fragmented_some hpct hfit
      refine ⟨table, htable, fun k => ?_, by rw [removed, if_pos hpct]; exact hsize⟩
      rw [hrows, UInt64.lt_iff_toNat_lt, Gone]
      exact and_congr_right fun hlt => not_congr
        ⟨fun hdvd => ⟨UInt64.lt_iff_toNat_lt.1 hpct, hdvd, hlt⟩, fun hgone => hgone.2.1⟩
    · obtain ⟨table, htable, hsize, hrows⟩ := seeded_some hfit
      refine ⟨table, by simp [fragmented, htable, hpct], fun k => ?_, by rw [removed, if_neg hpct]; exact hsize⟩
      rw [hrows, UInt64.lt_iff_toNat_lt]
      exact (and_iff_left fun hgone => hpct (UInt64.lt_iff_toNat_lt.2 hgone.1)).symm
  have hzero : cursorAfter churning 0 = 0 := by
    unfold cursorAfter
    split_ifs <;> rfl
  refine ⟨table, htable, ⟨fragmented_own htable, rfl, hzero.symm, fun k => ?_, ?_, hsize⟩, rfl, rfl⟩
  · rw [hrows, hzero, Nat.add_zero]
    refine and_congr_right fun _ => (and_iff_left fun hreached => ?_).symm
    exact absurd (hreached.2.1.trans hreached.1) (by decide)
  · rw [hzero, deletedIds, Finset.filter_false_of_mem fun k hk hreached => ?_]
    · rfl
    · rw [Finset.mem_range] at hk
      exact absurd hreached.1.1 (by omega)

theorem arm_after (seedRows pct : UInt64) (churning : Bool) (turns : ℕ)
    (hfit : 1000000 + seedRows.toNat + turns ≤ 2 ^ 64) (hcursor : cursorAfter churning turns < 2 ^ 64) :
    ∃ s, arm seedRows pct churning turns = some s ∧ After seedRows pct churning turns s := by
  obtain ⟨table, htable, hstart⟩ := fragmented_after seedRows pct churning (by omega)
  have hmono : ∀ i < turns, cursorAfter churning (i + 1) ≤ cursorAfter churning turns := by
    intro i hi
    unfold cursorAfter
    split_ifs <;> omega
  obtain ⟨s, hrun, hs⟩ := exists_foldlM_range (I := fun i s => After seedRows pct churning i s)
    (f := fun s _ => turn churning s) turns
    (fun i s hi hs => turn_inv hs (by omega) ((hmono i hi).trans_lt hcursor)) _ hstart
  refine ⟨s, ?_, hs⟩
  rw [arm, htable]
  exact hrun

end Invariant

/-- **Rows of an arm.** After any number of turns that fit the ids, the arm has inserted and selected once a turn; the
table holds the ids in use but those deleted before the arm and those the deletions came to while they were in use, and
the latter are the ones counted. -/
theorem arm_rows (seedRows pct : UInt64) (churning : Bool) (turns : ℕ)
    (hfit : 1000000 + seedRows.toNat + turns ≤ 2 ^ 64) (hcursor : cursorAfter churning turns < 2 ^ 64) :
    ∃ s, arm seedRows pct churning turns = some s ∧ s.inserts = turns ∧ s.selects = turns ∧
      (∀ k, k ∈ s.table.rows ↔ k.toNat < seedRows.toNat + turns ∧ ¬ Gone seedRows pct k.toNat ∧
        ¬ (k.toNat ≤ cursorAfter churning turns ∧ Reached seedRows k.toNat)) ∧
      s.deletes.toNat = (deletedIds seedRows pct (cursorAfter churning turns)).card ∧
      s.table.rows.size + s.deletes.toNat + removed seedRows pct = seedRows.toNat + turns := by
  obtain ⟨s, hrun, hs⟩ := arm_after seedRows pct churning turns hfit hcursor
  exact ⟨s, hrun, hs.inserts, hs.selects, hs.inv.rows, hs.inv.deletes, hs.inv.size⟩

theorem arm_rows_small : ∃ s, arm 20 25 true 200 = some s ∧ s.inserts = 200 ∧ s.selects = 200 ∧
    (∀ k, k ∈ s.table.rows ↔ k.toNat < (20 : UInt64).toNat + 200 ∧ ¬ Gone 20 25 k.toNat ∧
      ¬ (k.toNat ≤ cursorAfter true 200 ∧ Reached 20 k.toNat)) ∧
    s.deletes.toNat = (deletedIds 20 25 (cursorAfter true 200)).card ∧
    s.table.rows.size + s.deletes.toNat + removed 20 25 = (20 : UInt64).toNat + 200 :=
  arm_rows 20 25 true 200 (by decide) (by decide)

/-! ## The deletions run out of rows -/

/-- an id that was in use when the deletions came to it is small -/
theorem Reached.small {seedRows : UInt64} {k : ℕ} (h : Reached seedRows k) : 2 * k < 3 * seedRows.toNat + 299 := by
  obtain ⟨-, hlt⟩ := h
  omega

theorem two_mul_card_deletedIds (seedRows pct : UInt64) (c : ℕ) :
    2 * (deletedIds seedRows pct c).card < 3 * seedRows.toNat + 299 := by
  have hsub : deletedIds seedRows pct c ⊆ Finset.Icc 1 ((3 * seedRows.toNat + 298) / 2) := by
    intro k hk
    have hreached := (Finset.mem_filter.1 hk).2.1
    have hsmall := hreached.small
    exact Finset.mem_Icc.2 ⟨hreached.1, by omega⟩
  have hcard := Finset.card_le_card hsub
  rw [Nat.card_Icc] at hcard
  omega

/-- once the deletions are past every id that will ever be reached, they count nothing more -/
theorem deletedIds_dry {seedRows : UInt64} (pct : UInt64) {b c : ℕ} (hb : seedRows.toNat + 299 ≤ 200 * b)
    (hc : 300 * b ≤ c) : deletedIds seedRows pct c = deletedIds seedRows pct (300 * b) := by
  ext k
  rw [deletedIds, deletedIds, Finset.mem_filter, Finset.mem_filter, Finset.mem_range, Finset.mem_range]
  refine and_congr_left fun hk => ⟨fun _ => ?_, fun _ => by omega⟩
  have hlt := hk.1.2
  omega

/-- **The churn dries up.** A churning arm deletes fewer than three rows for every two seeded ones, and 150 more,
however long it runs. Once `200 * (turns / 100)` exceeds the seeded rows by 299, later turns delete nothing: the table
grows by one row a turn, and no row inserted from then on is ever deleted. -/
theorem churn_dries_up (seedRows pct : UInt64) (turns : ℕ) (hfit : 1000000 + seedRows.toNat + turns ≤ 2 ^ 64)
    (hcursor : cursorAfter true turns < 2 ^ 64) :
    ∃ s, arm seedRows pct true turns = some s ∧ 2 * s.deletes.toNat < 3 * seedRows.toNat + 299 ∧
      (seedRows.toNat + 299 ≤ 200 * (turns / 100) → ∀ later, turns ≤ later →
        1000000 + seedRows.toNat + later ≤ 2 ^ 64 → cursorAfter true later < 2 ^ 64 →
        ∃ s', arm seedRows pct true later = some s' ∧ s'.deletes = s.deletes ∧
          s'.table.rows.size = s.table.rows.size + (later - turns) ∧
          ∀ k : UInt64, seedRows.toNat + turns ≤ k.toNat → k.toNat < seedRows.toNat + later → k ∈ s'.table.rows) := by
  obtain ⟨s, hrun, hs⟩ := arm_after seedRows pct true turns hfit hcursor
  refine ⟨s, hrun, ?_, fun hdry later hlater hfit' hcursor' => ?_⟩
  · rw [hs.inv.deletes]
    exact two_mul_card_deletedIds seedRows pct _
  obtain ⟨s', hrun', hs'⟩ := arm_after seedRows pct true later hfit' hcursor'
  have hle : cursorAfter true turns ≤ cursorAfter true later := by
    simp only [cursorAfter, if_true]
    omega
  have hcount : s'.deletes = s.deletes := by
    rw [← UInt64.toNat_inj, hs.inv.deletes, hs'.inv.deletes]
    exact congrArg Finset.card (deletedIds_dry pct hdry hle)
  refine ⟨s', hrun', hcount, ?_, fun k hk hlt => ?_⟩
  · have hsize := hs.inv.size
    have hsize' := hs'.inv.size
    rw [hcount] at hsize'
    omega
  · rw [hs'.inv.rows]
    refine ⟨hlt, fun hgone => ?_, fun hreached => ?_⟩
    · have := hgone.2.2
      omega
    · have := hreached.2.small
      omega

theorem churn_dries_up_small : ∃ s, arm 20 25 true 200 = some s ∧ 2 * s.deletes.toNat < 359 ∧
    ∃ s', arm 20 25 true 500 = some s' ∧ s'.deletes = s.deletes ∧ s'.table.rows.size = s.table.rows.size + 300 ∧
      ∀ k : UInt64, 220 ≤ k.toNat → k.toNat < 520 → k ∈ s'.table.rows := by
  obtain ⟨s, hrun, hdeletes, hdry⟩ := churn_dries_up 20 25 200 (by decide) (by decide)
  exact ⟨s, hrun, hdeletes, hdry (by decide) 500 (by decide) (by decide) (by decide)⟩

end WtBenchmarks.VacuumStress
