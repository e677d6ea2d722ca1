/-
The foreground load of the vacuum benchmark (`arm`, `src/vacuum_yield.rs`). Half of a table is deleted, then every turn
of the load writes a live row again, reinserts a missing one and deletes a live one, while a vacuum sweeps the table.

The ids wait in two queues, and every partial step of a turn moves one of them: from the missing to the live, then
back. What holds at each of these points is one invariant, with the number of rows above one half.

A vacuum is any function that moves rows and keeps them. The stop flag is read between turns, so a load is any number
of turns. Whether a counter that overflows stops the program depends on the build. Times and page counts are left out.

- `upsertLive_ok`, `reinsertMissing_ok`, `deleteLive_ok`: the partial steps of a turn;
- `start_ok`: the fragmented table, and the packed control;
- `arm_invariant`: what holds after any number of turns.
-/
import WtBenchmarks.Core.GroupTable
import WtBenchmarks.Core.Total
import WtBenchmarks.Core.Word

namespace WtBenchmarks.VacuumYield

/-! ## Model -/

structure VacYieldRow where
  id : UInt64
  payload : UInt64
  bucket : UInt32
deriving DecidableEq, Repr

abbrev VacYieldTable := GroupTable UInt64 UInt32 VacYieldRow VacYieldRow.bucket

def row (id : UInt64) : VacYieldRow := ⟨id, id * 2654435761, (id % 64).toUInt32⟩

def insert (table : VacYieldTable) (r : VacYieldRow) : Option VacYieldTable :=
  if h : r.id ∈ table.rows then none else some (table.insertNew r.id r h)

def update (table : VacYieldTable) (r : VacYieldRow) : Option VacYieldTable :=
  if r.id ∈ table.rows then some (table.upsert r.id r) else none

def upsert (table : VacYieldTable) (r : VacYieldRow) : Option VacYieldTable :=
  if r.id ∈ table.rows then update table r else insert table r

def delete (table : VacYieldTable) (id : UInt64) : Option VacYieldTable :=
  if id ∈ table.rows then some (table.erase id) else none

/-- a panic -/
inductive Fault where
  | expect (message : String)
  | overflow
deriving DecidableEq, Repr

def expect {α : Type} (message : String) : Option α → Except Fault α
  | some a => .ok a
  | none => .error (.expect message)

@[simp] theorem expect_some {α : Type} (message : String) (a : α) : expect message (some a) = .ok a := rfl

/-- `counter += 1`, in a build with overflow checks and in one without -/
def increment (checks : Bool) (counter : UInt64) : Except Fault UInt64 :=
  if checks ∧ 2 ^ 64 ≤ counter.toNat + 1 then .error .overflow else .ok (counter + 1)

/-- what the vacuum does to the table at each moment: rows move, none is lost or changed -/
structure Vacuum where
  sweep : ℕ → VacYieldTable → VacYieldTable
  rows_eq : ∀ moment table, (sweep moment table).rows = table.rows

/-- `VacuumMode::Off` -/
def Vacuum.off : Vacuum := ⟨fun _ table => table, fun _ _ => rfl⟩

structure Load where
  table : VacYieldTable
  live : List UInt64
  missing : List UInt64
  upserts : UInt64
  reinserts : UInt64
  deletes : UInt64

def seed (message : String) (rows : UInt64) : Except Fault VacYieldTable :=
  (List.range rows.toNat).foldlM (fun table id => expect message (insert table (row (UInt64.ofNat id))))
    (GroupTable.empty VacYieldRow.bucket)

def preFragment (s : Load) (i : ℕ) : Except Fault Load :=
  let id := UInt64.ofNat i
  if id % 2 = 0 then do
    let table ← expect "pre-fragment" (delete s.table id)
    .ok { s with table, missing := s.missing ++ [id] }
  else .ok { s with live := s.live ++ [id] }

/-- the packed control, and the arm before its load -/
def start (seedRows : UInt64) : Except Fault (VacYieldTable × Load) := do
  let table ← seed "seed" seedRows
  let packedControl ← seed "packed control" (seedRows / 2)
  let s ← (List.range seedRows.toNat).foldlM preFragment ⟨table, [], [], 0, 0, 0⟩
  .ok (packedControl, s)

def upsertLive (checks : Bool) (s : Load) : Except Fault Load := do
  let liveId ← expect "half the rows stay live" s.live.head?
  let table ← expect "upsert live row" (upsert s.table (row liveId))
  let upserts ← increment checks s.upserts
  .ok { s with table, upserts }

def reinsertMissing (checks : Bool) (s : Load) : Except Fault Load := do
  let missingId ← expect "half the rows stay missing" s.missing.head?
  let table ← expect "reinsert missing row" (upsert s.table (row missingId))
  let reinserts ← increment checks s.reinserts
  .ok { s with table, reinserts, missing := s.missing.tail, live := s.live ++ [missingId] }

def deleteLive (checks : Bool) (s : Load) : Except Fault Load := do
  let deleteId ← expect "reinsert precedes delete" s.live.head?
  let table ← expect "delete live row" (delete s.table deleteId)
  let deletes ← increment checks s.deletes
  .ok { s with table, deletes, live := s.live.tail, missing := s.missing ++ [deleteId] }

def Load.swept (s : Load) (vacuum : Vacuum) (moment : ℕ) : Load := { s with table := vacuum.sweep moment s.table }

def turn (checks : Bool) (vacuum : Vacuum) (s : Load) (i : ℕ) : Except Fault Load := do
  let s ← upsertLive checks (s.swept vacuum (3 * i))
  let s ← reinsertMissing checks (s.swept vacuum (3 * i + 1))
  deleteLive checks (s.swept vacuum (3 * i + 2))

/-- the packed control, and the arm when the stop flag is seen after `turns` turns -/
def arm (checks : Bool) (vacuum : Vacuum) (seedRows : UInt64) (turns : ℕ) : Except Fault (VacYieldTable × Load) := do
  let (packedControl, s) ← start seedRows
  let s ← (List.range turns).foldlM (turn checks vacuum) s
  .ok (packedControl, s)

/-! ## Table operations -/

variable {table : VacYieldTable} {id : UInt64}

/-- the table holds the rows of these ids and no others -/
def Holds (table : VacYieldTable) (p : UInt64 → Prop) [DecidablePred p] : Prop :=
  ∀ id : UInt64, table.rows[id]? = if p id then some (row id) else none

theorem Holds.mem {p : UInt64 → Prop} [DecidablePred p] (h : Holds table p) : id ∈ table.rows ↔ p id := by
  rw [TreeMap.mem_iff_get, h id]
  split_ifs with hp <;> simp [hp]

theorem Holds.congr {p q : UInt64 → Prop} [DecidablePred p] [DecidablePred q] (h : Holds table p)
    (hpq : ∀ id, p id ↔ q id) : Holds table q := by
  intro id
  rw [h id]
  exact if_congr (hpq id) rfl rfl

/-- a table that holds the ids of a list has as many rows -/
theorem Holds.size {ids : List UInt64} (h : Holds table (· ∈ ids)) (hnodup : ids.Nodup) :
    table.rows.size = ids.length := TreeMap.size_eq_of_keys table.rows hnodup fun _ => h.mem

theorem insert_ok {p : UInt64 → Prop} [DecidablePred p] (h : Holds table p) (id : UInt64) (hid : ¬ p id) :
    ∃ table', insert table (row id) = some table' ∧ Holds table' fun x => x = id ∨ p x := by
  have hnew : (row id).id ∉ table.rows := fun hmem => hid (h.mem.1 hmem)
  refine ⟨_, dif_neg hnew, fun x => ?_⟩
  rw [GroupTable.insertNew_rows, TreeMap.get_insert, h x]
  by_cases hx : x = id
  · subst hx
    simp [row]
  · simp [row, hx, Ne.symm hx]

theorem delete_ok {p : UInt64 → Prop} [DecidablePred p] (h : Holds table p) (id : UInt64) (hid : p id) :
    ∃ table', delete table id = some table' ∧ Holds table' fun x => x ≠ id ∧ p x := by
  have hmem := h.mem.2 hid
  refine ⟨_, if_pos hmem, fun x => ?_⟩
  rw [GroupTable.erase_rows table hmem, TreeMap.get_erase, h x]
  by_cases hx : x = id
  · subst hx
    simp
  · simp [hx, Ne.symm hx]

theorem upsert_ok {p : UInt64 → Prop} [DecidablePred p] (h : Holds table p) (id : UInt64) :
    ∃ table', upsert table (row id) = some table' ∧ Holds table' fun x => x = id ∨ p x := by
  by_cases hid : p id
  · have hmem : (row id).id ∈ table.rows := h.mem.2 hid
    refine ⟨_, (if_pos hmem).trans (if_pos hmem), fun x => ?_⟩
    rw [GroupTable.upsert_get, h x]
    by_cases hx : x = id
    · subst hx
      simp [row]
    · simp [row, hx, Ne.symm hx]
  · obtain ⟨table', htable', hholds⟩ := insert_ok h id hid
    exact ⟨table', (if_neg fun hmem => hid (h.mem.1 hmem)).trans htable', hholds⟩

/-! ## The partial steps of a turn -/

/-- the queues share out the ids below `n`, the table holds the live ones, and these are `k` above one half -/
structure Inv (n k : ℕ) (s : Load) : Prop where
  queues : (s.live ++ s.missing).Perm (words n)
  holds : Holds s.table (· ∈ s.live)
  live_length : s.live.length = n / 2 + k

variable {n k : ℕ} {s : Load} {checks : Bool} {w : UInt64}

theorem Inv.missing_length (h : Inv n k s) : s.missing.length + (n / 2 + k) = n := by
  have hlength := h.queues.length_eq
  rw [List.length_append, h.live_length, words_length] at hlength
  omega

theorem Inv.nodup (h : Inv n k s) (hn : n ≤ 2 ^ 64) : (s.live ++ s.missing).Nodup :=
  h.queues.nodup_iff.2 (words_nodup hn)

theorem Inv.swept (h : Inv n k s) (vacuum : Vacuum) (moment : ℕ) : Inv n k (s.swept vacuum moment) :=
  ⟨h.queues, fun id => by rw [Load.swept, vacuum.rows_eq]; exact h.holds id, h.live_length⟩

/-- only the counter can stop it -/
theorem upsertLive_ok (h : Inv n k s) (hlive : 0 < n / 2 + k) (checks : Bool) :
    ∃ table, (upsertLive checks s = do
        let upserts ← increment checks s.upserts
        .ok { s with table, upserts }) ∧ ∀ w, Inv n k { s with table, upserts := w } := by
  obtain ⟨liveId, rest, hcons⟩ : ∃ liveId rest, s.live = liveId :: rest :=
    List.exists_cons_of_length_pos (h.live_length ▸ hlive)
  obtain ⟨table, htable, hholds⟩ := upsert_ok h.holds liveId
  refine ⟨table, ?_, fun w => ⟨h.queues, hholds.congr fun id => ?_, h.live_length⟩⟩
  · have hhead : s.live.head? = some liveId := by rw [hcons, List.head?_cons]
    simp only [upsertLive, hhead, htable, expect_some, ok_bind]
  · rw [hcons, List.mem_cons, or_self_left]

theorem reinsertMissing_ok (h : Inv n k s) (hmissing : n / 2 + k < n) (hw : increment checks s.reinserts = .ok w) :
    ∃ table live missing, reinsertMissing checks s = .ok { s with table, live, missing, reinserts := w } ∧
      Inv n (k + 1) { s with table, live, missing, reinserts := w } := by
  obtain ⟨missingId, rest, hcons⟩ : ∃ missingId rest, s.missing = missingId :: rest :=
    List.exists_cons_of_length_pos (by have := h.missing_length; omega)
  obtain ⟨table, htable, hholds⟩ := upsert_ok h.holds missingId
  refine ⟨table, s.live ++ [missingId], rest, ?_, ?_, hholds.congr fun id => ?_, ?_⟩
  · simp only [reinsertMissing, hcons, List.head?_cons, List.tail_cons, htable, hw, expect_some, ok_bind]
  · rw [List.append_assoc, List.singleton_append, ← hcons]
    exact h.queues
  · rw [List.mem_append, List.mem_singleton, or_comm]
  · rw [List.length_append, h.live_length]
    rfl

theorem deleteLive_ok (h : Inv n (k + 1) s) (hn : n ≤ 2 ^ 64) (hw : increment checks s.deletes = .ok w) :
    ∃ table live missing, deleteLive checks s = .ok { s with table, live, missing, deletes := w } ∧
      Inv n k { s with table, live, missing, deletes := w } := by
  obtain ⟨deleteId, rest, hcons⟩ : ∃ deleteId rest, s.live = deleteId :: rest :=
    List.exists_cons_of_length_pos (h.live_length ▸ Nat.succ_pos _)
  have hnodup := (h.nodup hn).of_append_left
  rw [hcons, List.nodup_cons] at hnodup
  obtain ⟨table, htable, hholds⟩ := delete_ok h.holds deleteId (hcons ▸ List.mem_cons_self)
  refine ⟨table, rest, s.missing ++ [deleteId], ?_, ?_, hholds.congr fun id => ?_, ?_⟩
  · simp only [deleteLive, hcons, List.head?_cons, List.tail_cons, htable, hw, expect_some, ok_bind]
  · have hperm : (rest ++ (s.missing ++ [deleteId])).Perm (s.live ++ s.missing) := by
      rw [hcons, ← List.append_assoc, List.cons_append]
      exact List.perm_append_singleton deleteId (rest ++ s.missing)
    exact hperm.trans h.queues
  · rw [hcons, List.mem_cons]
    constructor
    · rintro ⟨hne, heq | hmem⟩
      · exact absurd heq hne
      · exact hmem
    · intro hmem
      exact ⟨fun heq => hnodup.1 (heq ▸ hmem), Or.inr hmem⟩
  · have hlength := h.live_length
    rw [hcons, List.length_cons] at hlength
    exact Nat.succ_injective hlength

/-! ## The fragmented table -/

theorem seed_ok (message : String) (rows : UInt64) :
    ∃ table, seed message rows = .ok table ∧ Holds table fun id => id.toNat < rows.toNat := by
  refine exists_foldlM_range_pure (I := fun m table => Holds table fun id => id.toNat < m) rows.toNat ?_ _ fun id => rfl
  intro m table hm hholds
  have hword : (UInt64.ofNat m).toNat = m := ofNat_toNat_of_lt (hm.trans rows.toNat_lt)
  obtain ⟨table', htable', hholds'⟩ := insert_ok hholds (UInt64.ofNat m) (by omega)
  refine ⟨table', by rw [htable', expect_some]; rfl, hholds'.congr fun id => ?_⟩
  rw [← UInt64.toNat_inj, hword]
  omega

def Load.countersAre (s : Load) (w : UInt64) : Prop := s.upserts = w ∧ s.reinserts = w ∧ s.deletes = w

/-- the first `m` ids are in the queues, the others still in the table -/
structure Fragmenting (n m : ℕ) (s : Load) : Prop where
  queues : (s.live ++ s.missing).Perm (words m)
  holds : Holds s.table fun id => id ∈ s.live ∨ m ≤ id.toNat ∧ id.toNat < n
  live_length : s.live.length = m / 2
  counters : s.countersAre 0

theorem preFragment_ok {m : ℕ} (h : Fragmenting n m s) (hm : m < n) (hn : n ≤ 2 ^ 64) :
    ∃ s', preFragment s m = .ok s' ∧ Fragmenting n (m + 1) s' := by
  have hword : (UInt64.ofNat m).toNat = m := ofNat_toNat_of_lt (hm.trans_le hn)
  have hlive : ∀ id ∈ s.live, id.toNat < m := by
    intro id hid
    exact (mem_words (by omega)).1 (h.queues.mem_iff.1 (List.mem_append_left _ hid))
  have heven : UInt64.ofNat m % 2 = 0 ↔ m % 2 = 0 := by
    rw [← UInt64.toNat_inj, UInt64.toNat_mod, hword]
    rfl
  by_cases hm2 : m % 2 = 0
  · obtain ⟨table, htable, hholds⟩ := delete_ok h.holds (UInt64.ofNat m) (Or.inr (by omega))
    refine ⟨{ s with table, missing := s.missing ++ [UInt64.ofNat m] }, ?_, ?_, hholds.congr fun id => ?_, ?_,
      h.counters⟩
    · rw [preFragment, if_pos (heven.2 hm2), htable, expect_some, ok_bind]
    · rw [words_succ, ← List.append_assoc]
      exact h.queues.append_right _
    · constructor
      · rintro ⟨hne, hid | hid⟩
        · exact Or.inl hid
        · rw [ne_eq, ← UInt64.toNat_inj, hword] at hne
          exact Or.inr (by omega)
      · rintro (hid | hid)
        · refine ⟨fun heq => ?_, Or.inl hid⟩
          have hlt := hlive id hid
          rw [heq, hword] at hlt
          omega
        · refine ⟨fun heq => ?_, Or.inr (by omega)⟩
          rw [heq, hword] at hid
          omega
    · rw [h.live_length]
      omega
  · refine ⟨{ s with live := s.live ++ [UInt64.ofNat m] }, if_neg (mt heven.1 hm2), ?_, h.holds.congr fun id => ?_, ?_,
      h.counters⟩
    · rw [words_succ, List.append_assoc]
      refine List.Perm.trans ?_ (h.queues.append_right _)
      rw [List.append_assoc]
      exact List.perm_append_comm.append_left _
    · rw [List.mem_append, List.mem_singleton, ← UInt64.toNat_inj, hword, or_assoc]
      exact or_congr_right (by omega)
    · rw [List.length_append, h.live_length, List.length_singleton]
      omega

/-- **The arm before its load:** half of the rows are deleted, rounded up. -/
theorem start_ok (seedRows : UInt64) :
    ∃ packedControl s, start seedRows = .ok (packedControl, s) ∧ packedControl.rows.size = seedRows.toNat / 2 ∧
      Inv seedRows.toNat 0 s ∧ s.countersAre 0 := by
  have hn := seedRows.toNat_lt.le
  obtain ⟨table, htable, hholds⟩ := seed_ok "seed" seedRows
  obtain ⟨packedControl, hpacked, hpackedHolds⟩ := seed_ok "packed control" (seedRows / 2)
  have hhalf : (seedRows / 2).toNat = seedRows.toNat / 2 := UInt64.toNat_div _ 2
  obtain ⟨s, hs, hfragmented⟩ := exists_foldlM_range_pure (I := Fragmenting seedRows.toNat) seedRows.toNat
    (fun m s hm h => preFragment_ok h hm hn) ⟨table, [], [], 0, 0, 0⟩
    ⟨List.Perm.nil, hholds.congr fun id => by simp, rfl, rfl, rfl, rfl⟩
  refine ⟨packedControl, s, ?_, ?_, ⟨hfragmented.queues, hfragmented.holds.congr fun id => ?_, ?_⟩,
    hfragmented.counters⟩
  · rw [start, htable, ok_bind, hpacked, ok_bind, hs]
    rfl
  · rw [(hpackedHolds.congr fun id => (mem_words (by omega)).symm).size (words_nodup (by omega)), words_length, hhalf]
  · exact or_iff_left (by omega)
  · exact hfragmented.live_length

/-! ## Turns -/

/-- **One turn** keeps the invariant and counts once on each counter. -/
theorem turn_ok (h : Inv n 0 s) (htwo : 2 ≤ n) (hn : n ≤ 2 ^ 64) {v : UInt64} (hv : s.countersAre v)
    (hw : increment checks v = .ok w) (vacuum : Vacuum) (i : ℕ) :
    ∃ s', turn checks vacuum s i = .ok s' ∧ Inv n 0 s' ∧ s'.countersAre w := by
  obtain ⟨hupserts, hreinserts, hdeletes⟩ := hv
  obtain ⟨table₁, hupsert, hinv₁⟩ := upsertLive_ok (h.swept vacuum (3 * i)) (by omega) checks
  have hinv₁ := (hinv₁ w).swept vacuum (3 * i + 1)
  obtain ⟨table₂, live₂, missing₂, hreinsert, hinv₂⟩ :=
    reinsertMissing_ok hinv₁ (by omega) ((congrArg (increment checks) hreinserts).trans hw)
  have hinv₂ := hinv₂.swept vacuum (3 * i + 2)
  obtain ⟨table₃, live₃, missing₃, hdelete, hinv₃⟩ :=
    deleteLive_ok hinv₂ hn ((congrArg (increment checks) hdeletes).trans hw)
  have hcount : increment checks (s.swept vacuum (3 * i)).upserts = .ok w :=
    (congrArg (increment checks) hupserts).trans hw
  refine ⟨_, ?_, hinv₃, rfl, rfl, rfl⟩
  rw [turn, hupsert, hcount, ok_bind, ok_bind, hreinsert, ok_bind, hdelete]

theorem turn_overflow (h : Inv n 0 s) (htwo : 2 ≤ n) {v : UInt64} (hv : s.countersAre v) {fault : Fault}
    (hw : increment checks v = .error fault) (vacuum : Vacuum) (i : ℕ) : turn checks vacuum s i = .error fault := by
  obtain ⟨table, hupsert, -⟩ := upsertLive_ok (h.swept vacuum (3 * i)) (by omega) checks
  have hcount : increment checks (s.swept vacuum (3 * i)).upserts = .error fault :=
    (congrArg (increment checks) hv.1).trans hw
  rw [turn, hupsert, hcount, error_bind, error_bind]

/-- **Any number of turns.** The counters count them, unless the build checks them and there are too many. -/
theorem turns_ok (h : Inv n 0 s) (htwo : 2 ≤ n) (hn : n ≤ 2 ^ 64) (hzero : s.countersAre 0) (checks : Bool)
    (vacuum : Vacuum) (turns : ℕ) :
    (∃ s', (List.range turns).foldlM (turn checks vacuum) s = .ok s' ∧ Inv n 0 s' ∧
        s'.countersAre (UInt64.ofNat turns)) ∨
      (checks = true ∧ 2 ^ 64 ≤ turns ∧ (List.range turns).foldlM (turn checks vacuum) s = .error .overflow) := by
  induction turns with
  | zero => exact Or.inl ⟨s, rfl, h, hzero⟩
  | succ turns ih =>
    rw [List.range_succ, List.foldlM_append]
    rcases ih with ⟨s', hs', hinv, hcounters⟩ | ⟨hchecks, hturns, herror⟩
    · rw [hs', ok_bind, List.foldlM_cons]
      by_cases hover : checks = true ∧ 2 ^ 64 ≤ (UInt64.ofNat turns).toNat + 1
      · -- the counter is at its last value, which is at most the number of turns
        have hlast : (UInt64.ofNat turns).toNat ≤ turns := by
          rw [UInt64.toNat_ofNat']
          exact Nat.mod_le _ _
        have herror : turn checks vacuum s' turns = .error .overflow :=
          turn_overflow hinv htwo hcounters (if_pos hover) vacuum turns
        rw [herror, error_bind]
        exact Or.inr ⟨hover.1, by omega, rfl⟩
      · obtain ⟨s'', hs'', hinv', hcounters'⟩ := turn_ok hinv htwo hn hcounters (if_neg hover) vacuum turns
        rw [hs'', ok_bind]
        exact Or.inl ⟨s'', rfl, hinv', by rw [UInt64.ofNat_add]; exact hcounters'⟩
    · rw [herror, error_bind]
      exact Or.inr ⟨hchecks, Nat.le_succ_of_le hturns, rfl⟩

/-! ## Runs -/

/-- a table half full, next to its packed control -/
structure HalfFull (seedRows : UInt64) (packedControl : VacYieldTable) (s : Load) : Prop where
  live_nodup : s.live.Nodup
  missing_nodup : s.missing.Nodup
  disjoint : s.live.Disjoint s.missing
  ids : ∀ id, id ∈ s.live ∨ id ∈ s.missing ↔ id < seedRows
  rows : ∀ id : UInt64, s.table.rows[id]? = if id ∈ s.live then some (row id) else none
  live_length : s.live.length = seedRows.toNat / 2
  size : s.table.rows.size = seedRows.toNat / 2
  packed_size : packedControl.rows.size = seedRows.toNat / 2

theorem Inv.halfFull {seedRows : UInt64} {packedControl : VacYieldTable} (h : Inv seedRows.toNat 0 s)
    (hpacked : packedControl.rows.size = seedRows.toNat / 2) : HalfFull seedRows packedControl s := by
  have hnodup := h.nodup seedRows.toNat_lt.le
  refine ⟨hnodup.of_append_left, hnodup.of_append_right, List.disjoint_of_nodup_append hnodup, fun id => ?_, h.holds,
    h.live_length, ?_, hpacked⟩
  · rw [← List.mem_append, h.queues.mem_iff, mem_words seedRows.toNat_lt.le, UInt64.lt_iff_toNat_lt]
  · rw [h.holds.size hnodup.of_append_left, h.live_length]
    rfl

/-- **The load** never fails one of its expectations: after any number of turns the table is half full and the counters
agree. A build that checks its counters stops when they overflow. -/
theorem arm_invariant {seedRows : UInt64} (hrows : 2 ≤ seedRows.toNat) (checks : Bool) (vacuum : Vacuum) (turns : ℕ) :
    (∃ packedControl s, arm checks vacuum seedRows turns = .ok (packedControl, s) ∧
        HalfFull seedRows packedControl s ∧ s.upserts = UInt64.ofNat turns ∧ s.reinserts = s.upserts ∧
        s.deletes = s.upserts) ∨
      (checks = true ∧ 2 ^ 64 ≤ turns ∧ arm checks vacuum seedRows turns = .error .overflow) := by
  obtain ⟨packedControl, s, hstart, hpacked, hinv, hzero⟩ := start_ok seedRows
  rcases turns_ok hinv hrows seedRows.toNat_lt.le hzero checks vacuum turns with
    ⟨s', hs', hinv', hupserts, hreinserts, hdeletes⟩ | ⟨hchecks, hturns, herror⟩
  · refine Or.inl ⟨packedControl, s', ?_, hinv'.halfFull hpacked, hupserts, hreinserts.trans hupserts.symm,
      hdeletes.trans hupserts.symm⟩
    simp only [arm, hstart, hs', ok_bind]
  · refine Or.inr ⟨hchecks, hturns, ?_⟩
    simp only [arm, hstart, herror, ok_bind, error_bind]

/-- five turns over three rows -/
theorem arm_invariant_three : ∃ packedControl s, arm true Vacuum.off 3 5 = .ok (packedControl, s) ∧
    HalfFull 3 packedControl s ∧ s.upserts = 5 := by
  rcases arm_invariant (show 2 ≤ (3 : UInt64).toNat by decide) true Vacuum.off 5 with
    ⟨packedControl, s, harm, hhalf, hupserts, -⟩ | ⟨-, hturns, -⟩
  · exact ⟨packedControl, s, harm, hhalf, hupserts⟩
  · exact absurd hturns (by decide)

end WtBenchmarks.VacuumYield
