/-
The mixed read/write run (`populated`, `run`, `src/concurrent_mix.rs`): the threads execute their scripts against one
shared table, interleaved.

The table is a map from ids to rows with a unique index on the payload. `select` and `upsert` are one step each; a
thread that has finished its script adds its two counters to the shared ones in two further steps. An overflow while a
payload is computed is a program point no step leaves.

- `mix_fixture`: with at most `TABLE_ROWS` threads, at every moment of every interleaving: spans are disjoint, no upsert
  violates the unique index, every read hits, and the key set is the loaded one. The counters returned are the numbers
  of reads and writes of the scripts, and every run can be completed.
- `write_mutates_iff`: when every upsert changes the payload of its row, and which upserts do.
-/
import WtBenchmarks.ConcurrentMix.Scripts
import WtBenchmarks.Core.Threads
import WtBenchmarks.Core.Total
import WtBenchmarks.Core.UniqueTable
import Mathlib.Data.List.GetD

namespace WtBenchmarks.ConcurrentMix

open Threads

/-! ## The table -/

structure MixRow where
  id : UInt64
  payload : UInt64
  bucket : UInt32
deriving DecidableEq, Repr

/-- the rows by id, with the unique index on the payload -/
abbrev MixTable := UniqueTable UInt64 UInt64 MixRow MixRow.payload

namespace MixTable

def select (table : MixTable) (key : UInt64) : Option MixRow := table.rows[key]?

/-- replaces the row with this id, or inserts it; refused when another row has the payload -/
def upsert (table : MixTable) (row : MixRow) : Option MixTable :=
  if row.id ∈ table.rows then table.update row.id row else table.insert row.id row

end MixTable

/-- a row of the fixture -/
def seedRow (id : UInt64) : MixRow := ⟨id, 1000000 + id, (id % 16).toUInt32⟩

def populated : Option MixTable :=
  (List.range tableRows.toNat).foldlM
    (fun table id => table.insert (UInt64.ofNat id) (seedRow (UInt64.ofNat id))) (UniqueTable.empty MixRow.payload)

/-! ## Threads -/

inductive WorkerPc where
  /-- inside the script -/
  | running
  /-- the hits are added to the shared counter -/
  | addWrites
  | done
  | panicked
deriving DecidableEq

structure Worker where
  script : List Op
  hit : UInt64
  wrote : UInt64
  pc : WorkerPc

structure Shared where
  table : MixTable
  readsHit : UInt64
  writesOk : UInt64

/-- the row a write stores: its payload carries the counter of successful writes -/
def rowFor (key wrote : UInt64) : Option MixRow := do
  let base ← checkedAdd 1000000 key
  let offset ← checkedMul wrote tableRows
  let payload ← checkedAdd base offset
  some ⟨key, payload, (key % 16).toUInt32⟩

def writeStep (s : Shared) (w : Worker) (key : UInt64) (rest : List Op) : Shared × Worker :=
  match rowFor key w.wrote with
  | none => (s, { w with pc := .panicked })
  | some row =>
    match s.table.upsert row with
    | none => (s, { w with script := rest })
    | some table => ({ s with table := table }, { w with script := rest, wrote := w.wrote + 1 })

def workerStep (s : Shared) (w : Worker) : Option (Shared × Worker) :=
  match w.pc with
  | .running =>
    match w.script with
    | [] => some ({ s with readsHit := s.readsHit + w.hit }, { w with pc := .addWrites })
    | .read key :: rest =>
      some (s, { w with script := rest, hit := if (s.table.select key).isSome then w.hit + 1 else w.hit })
    | .write key :: rest => some (writeStep s w key rest)
  | .addWrites => some ({ s with writesOk := s.writesOk + w.wrote }, { w with pc := .done })
  | .done | .panicked => none

section Steps

variable (s : Shared) {w : Worker} {key : UInt64} {rest : List Op}

theorem workerStep_end (hpc : w.pc = .running) (hs : w.script = []) :
    workerStep s w = some ({ s with readsHit := s.readsHit + w.hit }, { w with pc := .addWrites }) := by
  simp only [workerStep, hpc, hs]

theorem workerStep_read (hpc : w.pc = .running) (hs : w.script = .read key :: rest) :
    workerStep s w =
      some (s, { w with script := rest, hit := if (s.table.select key).isSome then w.hit + 1 else w.hit }) := by
  simp only [workerStep, hpc, hs]

theorem workerStep_write (hpc : w.pc = .running) (hs : w.script = .write key :: rest) :
    workerStep s w = some (writeStep s w key rest) := by
  simp only [workerStep, hpc, hs]

theorem workerStep_addWrites (hpc : w.pc = .addWrites) :
    workerStep s w = some ({ s with writesOk := s.writesOk + w.wrote }, { w with pc := .done }) := by
  simp only [workerStep, hpc]

end Steps

/-- every thread is at the head of its script -/
def startRun (threads : UInt64) (table : MixTable) (scripts : List (List Op)) :
    State (Fin threads.toNat) Shared Worker :=
  ⟨⟨table, 0, 0⟩, fun t => ⟨scripts.getD t [], 0, 0, .running⟩⟩

/-- the moments of a run -/
def runMix (threads : UInt64) (table : MixTable) (scripts : List (List Op)) (sched : List (Fin threads.toNat)) :
    State (Fin threads.toNat) Shared Worker :=
  run (fun _ => workerStep) (startRun threads table scripts) sched

/-- the row a thread upserts in its next step -/
def pendingRow (w : Worker) : Option MixRow :=
  match w.pc, w.script with
  | .running, .write key :: _ => rowFor key w.wrote
  | _, _ => none

/-- an upsert of the row changes the payload stored under its id -/
def Mutates (table : MixTable) (row : MixRow) : Prop := (table.select row.id).map MixRow.payload ≠ some row.payload

/-! ## Payloads -/

/-- the payload a key has after its writer's counter stood at `n` -/
def payloadOf (key n : ℕ) : ℕ := 1000000 + key + n * 20000

/-- a payload names its key: the counter moves it by multiples of `TABLE_ROWS`, and so does the offset of the seed -/
theorem payloadOf_key {key key' n n' : ℕ} (hk : key < 20000) (hk' : key' < 20000)
    (h : payloadOf key n = payloadOf key' n') : key = key' := by
  unfold payloadOf at h
  omega

theorem payloadOf_inj {key n n' : ℕ} (h : payloadOf key n = payloadOf key n') : n = n' := by
  unfold payloadOf at h
  omega

theorem rowFor_some {key wrote : UInt64} (hk : key < tableRows) (hw : wrote.toNat ≤ opsPerThread) :
    ∃ row, rowFor key wrote = some row ∧ row.id = key ∧ row.payload.toNat = payloadOf key.toNat wrote.toNat := by
  rw [UInt64.lt_iff_toNat_lt, tableRows_toNat] at hk
  have hmillion : (1000000 : UInt64).toNat = 1000000 := rfl
  have hops : opsPerThread = 4000 := rfl
  obtain ⟨base, hbase, hb⟩ := checkedAdd_some (a := 1000000) (b := key) (by omega)
  obtain ⟨offset, hoffset, ho⟩ := checkedMul_some (a := wrote) (b := tableRows) (by rw [tableRows_toNat]; omega)
  rw [tableRows_toNat] at ho
  obtain ⟨payload, hpayload, hp⟩ := checkedAdd_some (a := base) (b := offset) (by omega)
  refine ⟨⟨key, payload, (key % 16).toUInt32⟩, by simp [rowFor, hbase, hoffset, hpayload], rfl, ?_⟩
  show payload.toNat = payloadOf key.toNat wrote.toNat
  unfold payloadOf
  omega

/-! ## The loaded table -/

/-- every row of the table has a payload of its own key, and the keys are those below `TABLE_ROWS` -/
structure TableInv (table : MixTable) : Prop where
  keys : ∀ key, key ∈ table.rows ↔ key < tableRows
  payload : ∀ (key : UInt64) (row : MixRow), table.rows[key]? = some row →
    ∃ n, row.payload.toNat = payloadOf key.toNat n

theorem seedRow_payload {key : UInt64} (hk : key < tableRows) :
    (seedRow key).payload.toNat = payloadOf key.toNat 0 := by
  rw [UInt64.lt_iff_toNat_lt, tableRows_toNat] at hk
  have hmillion : (1000000 : UInt64).toNat = 1000000 := rfl
  show (1000000 + key).toNat = _
  rw [toNat_add_of_lt (by omega), hmillion]
  unfold payloadOf
  omega

/-- **The fixture loads**, and every key below `TABLE_ROWS` has its seed row. -/
theorem populated_some : ∃ table, populated = some table ∧ TableInv table ∧
    ∀ (key : UInt64) (row : MixRow), table.rows[key]? = some row → row = seedRow key := by
  have hkey : ∀ i < tableRows.toNat, (UInt64.ofNat i).toNat = i := by
    intro i hi
    rw [tableRows_toNat] at hi
    exact ofNat_toNat_of_lt (by omega)
  have hpayload : ∀ i < tableRows.toNat, (seedRow (UInt64.ofNat i)).payload.toNat = payloadOf i 0 := by
    intro i hi
    rw [seedRow_payload (UInt64.lt_iff_toNat_lt.2 (by rwa [hkey i hi])), hkey i hi]
  have hkeys : Set.InjOn UInt64.ofNat (Set.Iio tableRows.toNat) := by
    intro i hi j hj he
    rw [← hkey i hi, ← hkey j hj, he]
  have hpayloads : Set.InjOn (fun i => (seedRow (UInt64.ofNat i)).payload) (Set.Iio tableRows.toNat) := by
    intro i hi j hj he
    have hval : payloadOf i 0 = payloadOf j 0 := by
      rw [← hpayload i hi, ← hpayload j hj]
      exact congrArg UInt64.toNat he
    exact payloadOf_key hi hj hval
  obtain ⟨table, htable, -, hrows⟩ := UniqueTable.load tableRows.toNat (fun _ _ _ => rfl) hkeys hpayloads
  have hrow : ∀ (key : UInt64) (row : MixRow), table.rows[key]? = some row ↔ key < tableRows ∧ row = seedRow key := by
    intro key row
    rw [hrows, UInt64.lt_iff_toNat_lt]
    constructor
    · intro h
      obtain ⟨i, hi, rfl, rfl⟩ := h
      rw [hkey i hi]
      exact ⟨hi, rfl⟩
    · intro h
      exact ⟨key.toNat, h.1, UInt64.ofNat_toNat, by rw [UInt64.ofNat_toNat, h.2]⟩
  refine ⟨table, htable, ⟨fun key => ?_, fun key row h => ?_⟩, fun key row h => ((hrow key row).1 h).2⟩
  · rw [TreeMap.mem_iff_get]
    constructor
    · intro h
      obtain ⟨row, h⟩ := h
      exact ((hrow key row).1 h).1
    · intro h
      exact ⟨seedRow key, (hrow key _).2 ⟨h, rfl⟩⟩
  · obtain ⟨hk, rfl⟩ := (hrow key row).1 h
    exact ⟨0, seedRow_payload hk⟩

/-- **An upsert of a key's own payload is never refused**, and changes that row only. -/
theorem upsert_ok {table : MixTable} (h : TableInv table) {key : UInt64} (hk : key < tableRows) {row : MixRow}
    (hid : row.id = key) {n : ℕ} (hp : row.payload.toNat = payloadOf key.toNat n) :
    ∃ table', table.upsert row = some table' ∧ table'.rows = table.rows.insert key row ∧ TableInv table' := by
  subst hid
  have hmem := (h.keys row.id).2 hk
  have hfree : ∀ (key' : UInt64) (row' : MixRow), key' ≠ row.id → table.rows[key']? = some row' →
      row'.payload ≠ row.payload := by
    intro key' row' hne hrow' he
    obtain ⟨n', hn'⟩ := h.payload key' row' hrow'
    have hk' := (h.keys key').1 ((TreeMap.mem_iff_get table.rows key').2 ⟨row', hrow'⟩)
    rw [UInt64.lt_iff_toNat_lt, tableRows_toNat] at hk hk'
    have heq : payloadOf key'.toNat n' = payloadOf row.id.toNat n := by rw [← hn', ← hp, he]
    exact hne (UInt64.toNat_inj.1 (payloadOf_key hk' hk heq))
  obtain ⟨table', htable', hrows⟩ := UniqueTable.update_some hmem hfree
  refine ⟨table', by rw [MixTable.upsert, if_pos hmem]; exact htable', hrows, fun key => ?_, fun key row' hrow' => ?_⟩
  · rw [hrows, TreeMap.mem_insert, ← h.keys key]
    constructor
    · intro hor
      rcases hor with rfl | hor
      · exact hmem
      · exact hor
    · exact Or.inr
  · rw [hrows, TreeMap.get_insert] at hrow'
    split_ifs at hrow' with he
    · subst he
      cases hrow'
      exact ⟨n, hp⟩
    · exact h.payload key row' hrow'

/-! ## The outline of a run -/

section Outline

variable {threads : UInt64}

/-- the name of a thread, as the source counts it -/
def threadOf (t : Fin threads.toNat) : UInt64 := UInt64.ofNat t

theorem threadOf_toNat (t : Fin threads.toNat) : (threadOf t).toNat = t :=
  ofNat_toNat_of_lt (t.isLt.trans threads.toNat_lt)

theorem threadOf_lt (t : Fin threads.toNat) : threadOf t < threads := by
  rw [UInt64.lt_iff_toNat_lt, threadOf_toNat]
  exact t.isLt

theorem threadOf_ne {t u : Fin threads.toNat} (h : u ≠ t) : threadOf u ≠ threadOf t := by
  intro he
  apply h
  apply Fin.ext
  rw [← threadOf_toNat u, ← threadOf_toNat t, he]

/-- what a thread knows: its script stays in its span, its counters leave room for the rest of the script, and the
rows of its span carry the seed or one of the values its counter already had -/
structure WorkerInv (t : Fin threads.toNat) (s : Shared) (w : Worker) : Prop where
  keys : ∀ op ∈ w.script, InSpan threads (threadOf t) op.key
  hits : w.hit.toNat + w.script.length ≤ opsPerThread
  writes : w.wrote.toNat + w.script.length ≤ opsPerThread
  alive : w.pc ≠ .panicked
  ended : w.pc ≠ .running → w.script = []
  own : ∀ (key : UInt64) (row : MixRow), InSpan threads (threadOf t) key → s.table.rows[key]? = some row →
    ∃ n, row.payload.toNat = payloadOf key.toNat n ∧ (n = 0 ∨ n < w.wrote.toNat)

/-- a thread leaves the rows outside its span alone -/
def RowsGuar (t : Fin threads.toNat) (s s' : Shared) : Prop :=
  ∀ key, ¬ InSpan threads (threadOf t) key → s'.table.rows[key]? = s.table.rows[key]?

/-- what one step establishes -/
structure StepOk (t : Fin threads.toNat) (s : Shared) (r : Shared × Worker) : Prop where
  table : TableInv r.1.table
  worker : WorkerInv t r.1 r.2
  guar : RowsGuar t s r.1

variable {t : Fin threads.toNat} {s : Shared} {w : Worker}

/-- the row of a pending write, and what becomes of the table -/
theorem writeStep_eq (hg : TableInv s.table) (hw : WorkerInv t s w) {key : UInt64} {rest : List Op}
    (hs : w.script = .write key :: rest) :
    ∃ row table, rowFor key w.wrote = some row ∧ row.id = key ∧
      row.payload.toNat = payloadOf key.toNat w.wrote.toNat ∧ s.table.upsert row = some table ∧
      table.rows = s.table.rows.insert key row ∧ TableInv table ∧
      writeStep s w key rest = ({ s with table := table }, { w with script := rest, wrote := w.wrote + 1 }) := by
  have hspan : InSpan threads (threadOf t) key := hw.keys (.write key) (by rw [hs]; exact List.mem_cons_self)
  have hk := span_lt (threadOf_lt t) hspan
  have hwrote : w.wrote.toNat ≤ opsPerThread := (Nat.le_add_right _ _).trans hw.writes
  obtain ⟨row, hrow, hid, hp⟩ := rowFor_some hk hwrote
  obtain ⟨table, htable, hrows, hinv⟩ := upsert_ok hg hk hid hp
  exact ⟨row, table, hrow, hid, hp, htable, hrows, hinv, by simp [writeStep, hrow, htable]⟩

theorem write_step_ok (hg : TableInv s.table) (hw : WorkerInv t s w) (hpc : w.pc = .running) {key : UInt64}
    {rest : List Op} (hs : w.script = .write key :: rest) : StepOk t s (writeStep s w key rest) := by
  obtain ⟨row, table, -, -, hp, -, hrows, hinv, heq⟩ := writeStep_eq hg hw hs
  have hspan : InSpan threads (threadOf t) key := hw.keys (.write key) (by rw [hs]; exact List.mem_cons_self)
  have hlen : w.script.length = rest.length + 1 := by rw [hs]; rfl
  have hhits := hw.hits
  have hwrites := hw.writes
  have hops : opsPerThread = 4000 := rfl
  have hwrote : (w.wrote + 1).toNat = w.wrote.toNat + 1 := toNat_add_of_lt (by rw [UInt64.toNat_one]; omega)
  rw [heq]
  refine ⟨hinv, ⟨fun op hop => hw.keys op (by rw [hs]; exact List.mem_cons_of_mem _ hop), ?_, ?_, hw.alive,
    fun h => absurd hpc h, fun key' row' hk' hrow' => ?_⟩, fun key' hk' => ?_⟩
  · show w.hit.toNat + rest.length ≤ _
    omega
  · show (w.wrote + 1).toNat + rest.length ≤ _
    omega
  · show ∃ n, _ ∧ (n = 0 ∨ n < (w.wrote + 1).toNat)
    rw [hwrote]
    simp only [hrows, TreeMap.get_insert] at hrow'
    split_ifs at hrow' with he
    · subst he
      cases hrow'
      exact ⟨w.wrote.toNat, hp, Or.inr (Nat.lt_succ_self _)⟩
    · obtain ⟨n, hn, hor⟩ := hw.own key' row' hk' hrow'
      exact ⟨n, hn, by omega⟩
  · show table.rows[key']? = _
    have hne : key ≠ key' := by
      intro he
      exact hk' (he ▸ hspan)
    rw [hrows, TreeMap.get_insert, if_neg hne]

theorem read_step_ok (hg : TableInv s.table) (hw : WorkerInv t s w) (hpc : w.pc = .running) {key : UInt64}
    {rest : List Op} (hs : w.script = .read key :: rest) :
    StepOk t s (s, { w with script := rest, hit := if (s.table.select key).isSome then w.hit + 1 else w.hit }) := by
  have hlen : w.script.length = rest.length + 1 := by rw [hs]; rfl
  have hhits := hw.hits
  have hwrites := hw.writes
  have hops : opsPerThread = 4000 := rfl
  have hhit : (w.hit + 1).toNat = w.hit.toNat + 1 := toNat_add_of_lt (by rw [UInt64.toNat_one]; omega)
  refine ⟨hg, ⟨fun op hop => hw.keys op (by rw [hs]; exact List.mem_cons_of_mem _ hop), ?_, ?_, hw.alive,
    fun h => absurd hpc h, hw.own⟩, fun _ _ => rfl⟩
  · show (if (s.table.select key).isSome then w.hit + 1 else w.hit).toNat + rest.length ≤ _
    split_ifs
    · omega
    · omega
  · show w.wrote.toNat + rest.length ≤ _
    omega

/-- **Step lemma.** Every step of a thread keeps the table and the thread's own assertion. -/
theorem worker_step_ok (hg : TableInv s.table) (hw : WorkerInv t s w) {r : Shared × Worker}
    (hr : workerStep s w = some r) : StepOk t s r := by
  cases hpc : w.pc with
  | running =>
    cases hs : w.script with
    | nil =>
      rw [workerStep_end s hpc hs] at hr
      cases hr
      exact ⟨hg, ⟨hw.keys, hw.hits, hw.writes, by simp, fun _ => hs, hw.own⟩, fun _ _ => rfl⟩
    | cons op rest =>
      cases op with
      | read key =>
        rw [workerStep_read s hpc hs] at hr
        cases hr
        exact read_step_ok hg hw hpc hs
      | write key =>
        rw [workerStep_write s hpc hs] at hr
        cases hr
        exact write_step_ok hg hw hpc hs
  | addWrites =>
    rw [workerStep_addWrites s hpc] at hr
    cases hr
    exact ⟨hg, ⟨hw.keys, hw.hits, hw.writes, by simp, fun _ => hw.ended (by rw [hpc]; decide), hw.own⟩,
      fun _ _ => rfl⟩
  | done => simp [workerStep, hpc] at hr
  | panicked => exact absurd hpc hw.alive

theorem worker_stable {u : Fin threads.toNat} {s' : Shared} (hu : u ≠ t) (hq : RowsGuar t s s')
    (h : WorkerInv u s w) : WorkerInv u s' w := by
  refine ⟨h.keys, h.hits, h.writes, h.alive, h.ended, fun key row hk hrow => h.own key row hk ?_⟩
  rwa [← hq key fun hk' => threadOf_ne hu (span_disjoint hk hk')]

/-- the proof outline of a run -/
def mixOutline (threads : UInt64) : Outline (fun (_ : Fin threads.toNat) => workerStep) where
  Glob s := TableInv s.table
  Loc := WorkerInv
  Guar := RowsGuar
  step_ok _ _ _ _ _ hg hw hr :=
    have h := worker_step_ok hg hw hr
    ⟨h.table, h.worker, h.guar⟩
  stable _ _ _ _ _ hu _ hq h := worker_stable hu hq h

/-! ## Counters -/

/-- the reads a thread has still to add to the shared counter -/
def readsDue (w : Worker) : ℕ :=
  match w.pc with
  | .running => w.hit.toNat + w.script.countP Op.isRead
  | _ => 0

/-- the writes a thread has still to add to the shared counter -/
def writesDue (w : Worker) : ℕ :=
  match w.pc with
  | .running | .addWrites => w.wrote.toNat + w.script.countP Op.isWrite
  | _ => 0

/-- every key of a pending operation is in the table -/
theorem pending_mem (hg : TableInv s.table) (hw : WorkerInv t s w) {op : Op} {rest : List Op}
    (hs : w.script = op :: rest) : op.key ∈ s.table.rows :=
  (hg.keys op.key).2 (span_lt (threadOf_lt t) (hw.keys op (by rw [hs]; exact List.mem_cons_self)))

theorem select_isSome {table : MixTable} {key : UInt64} : (table.select key).isSome ↔ key ∈ table.rows := by
  rw [MixTable.select, TreeMap.mem_iff_get, Option.isSome_iff_exists]

theorem reads_conserved (hg : TableInv s.table) (hw : WorkerInv t s w) {r : Shared × Worker}
    (hr : workerStep s w = some r) (hroom : s.readsHit.toNat + readsDue w < 2 ^ 64) :
    r.1.readsHit.toNat + readsDue r.2 = s.readsHit.toNat + readsDue w := by
  cases hpc : w.pc with
  | running =>
    cases hs : w.script with
    | nil =>
      rw [workerStep_end s hpc hs] at hr
      cases hr
      simp only [readsDue, hpc, hs, List.countP_nil, Nat.add_zero] at hroom ⊢
      exact toNat_add_of_lt hroom
    | cons op rest =>
      cases op with
      | read key =>
        have hmem : key ∈ s.table.rows := pending_mem hg hw hs
        rw [workerStep_read s hpc hs, if_pos (select_isSome.2 hmem)] at hr
        cases hr
        have hhits := hw.hits
        have hops : opsPerThread = 4000 := rfl
        have hlen : w.script.length = rest.length + 1 := by rw [hs]; rfl
        have hhit : (w.hit + 1).toNat = w.hit.toNat + 1 := toNat_add_of_lt (by rw [UInt64.toNat_one]; omega)
        simp only [readsDue, hpc, hs, hhit, List.countP_cons, Op.isRead, if_true]
        omega
      | write key =>
        obtain ⟨row, table, -, -, -, -, -, -, heq⟩ := writeStep_eq hg hw hs
        rw [workerStep_write s hpc hs, heq] at hr
        cases hr
        simp [readsDue, hpc, hs, Op.isRead]
  | addWrites =>
    rw [workerStep_addWrites s hpc] at hr
    cases hr
    simp [readsDue, hpc]
  | done => simp [workerStep, hpc] at hr
  | panicked => exact absurd hpc hw.alive

theorem writes_conserved (hg : TableInv s.table) (hw : WorkerInv t s w) {r : Shared × Worker}
    (hr : workerStep s w = some r) (hroom : s.writesOk.toNat + writesDue w < 2 ^ 64) :
    r.1.writesOk.toNat + writesDue r.2 = s.writesOk.toNat + writesDue w := by
  cases hpc : w.pc with
  | running =>
    cases hs : w.script with
    | nil =>
      rw [workerStep_end s hpc hs] at hr
      cases hr
      simp [writesDue, hpc, hs]
    | cons op rest =>
      cases op with
      | read key =>
        rw [workerStep_read s hpc hs] at hr
        cases hr
        simp [writesDue, hpc, hs, Op.isWrite]
      | write key =>
        obtain ⟨row, table, -, -, -, -, -, -, heq⟩ := writeStep_eq hg hw hs
        rw [workerStep_write s hpc hs, heq] at hr
        cases hr
        have hwrites := hw.writes
        have hops : opsPerThread = 4000 := rfl
        have hlen : w.script.length = rest.length + 1 := by rw [hs]; rfl
        have hwrote : (w.wrote + 1).toNat = w.wrote.toNat + 1 := toNat_add_of_lt (by rw [UInt64.toNat_one]; omega)
        simp only [writesDue, hpc, hs, hwrote, List.countP_cons, Op.isWrite, if_true]
        omega
  | addWrites =>
    have hnil := hw.ended (by rw [hpc]; decide)
    rw [workerStep_addWrites s hpc] at hr
    cases hr
    simp only [writesDue, hpc, hnil, List.countP_nil, Nat.add_zero] at hroom ⊢
    exact toNat_add_of_lt hroom
  | done => simp [workerStep, hpc] at hr
  | panicked => exact absurd hpc hw.alive

/-! ## Completion -/

/-- the steps left to a thread -/
def Worker.work (w : Worker) : ℕ :=
  match w.pc with
  | .running => w.script.length + 2
  | .addWrites => 1
  | .done | .panicked => 0

theorem worker_work (hg : TableInv s.table) (hw : WorkerInv t s w) {r : Shared × Worker}
    (hr : workerStep s w = some r) : r.2.work < w.work := by
  cases hpc : w.pc with
  | running =>
    cases hs : w.script with
    | nil =>
      rw [workerStep_end s hpc hs] at hr
      cases hr
      simp [Worker.work, hpc]
    | cons op rest =>
      cases op with
      | read key =>
        rw [workerStep_read s hpc hs] at hr
        cases hr
        simp [Worker.work, hpc, hs]
      | write key =>
        obtain ⟨row, table, -, -, -, -, -, -, heq⟩ := writeStep_eq hg hw hs
        rw [workerStep_write s hpc hs, heq] at hr
        cases hr
        simp [Worker.work, hpc, hs]
  | addWrites =>
    rw [workerStep_addWrites s hpc] at hr
    cases hr
    simp [Worker.work, hpc]
  | done => simp [workerStep, hpc] at hr
  | panicked => exact absurd hpc hw.alive

theorem worker_moves (hw : WorkerInv t s w) (hnd : w.pc ≠ .done) : workerStep s w ≠ none := by
  cases hpc : w.pc with
  | running =>
    cases hs : w.script with
    | nil => simp [workerStep_end s hpc hs]
    | cons op rest =>
      cases op with
      | read key => simp [workerStep_read s hpc hs]
      | write key => simp [workerStep_write s hpc hs]
  | addWrites => simp [workerStep_addWrites s hpc]
  | done => exact absurd hpc hnd
  | panicked => exact absurd hpc hw.alive

end Outline

/-! ## The fixture -/

section Fixture

variable {threads dedicatedWriters : UInt64} {writeRatio : UInt32}

/-- the scripts of a fixture, by thread -/
theorem scripts_getD (t : Fin threads.toNat) :
    ((List.range threads.toNat).map fun thread =>
      script threads dedicatedWriters writeRatio (UInt64.ofNat thread)).getD t [] =
      script threads dedicatedWriters writeRatio (threadOf t) := by
  rw [List.getD_eq_getElem _ _ (by simp)]
  simp [threadOf]

/-- the loaded table and the scripts satisfy the outline -/
theorem startRun_holds (h0 : 0 < threads) (hle : threads ≤ tableRows) {table : MixTable} (htable : TableInv table)
    (hseed : ∀ (key : UInt64) (row : MixRow), table.rows[key]? = some row → row = seedRow key)
    {scripts : List (List Op)}
    (hscripts : ∀ t : Fin threads.toNat, scripts.getD t [] = script threads dedicatedWriters writeRatio (threadOf t)) :
    (mixOutline threads).Holds (startRun threads table scripts) := by
  refine ⟨htable, fun t => ?_⟩
  have hlen : (scripts.getD t []).length = opsPerThread := by rw [hscripts]; exact script_length _
  refine ⟨fun op hop => ?_, ?_, ?_, by simp [startRun], fun h => absurd rfl h, fun key row hk hrow => ?_⟩
  · apply script_keys h0 hle (threadOf_lt t)
    rwa [← hscripts]
  · show (0 : UInt64).toNat + (scripts.getD t []).length ≤ _
    rw [hlen, UInt64.toNat_zero, Nat.zero_add]
  · show (0 : UInt64).toNat + (scripts.getD t []).length ≤ _
    rw [hlen, UInt64.toNat_zero, Nat.zero_add]
  · obtain rfl := hseed key row hrow
    exact ⟨0, seedRow_payload (span_lt (threadOf_lt t) hk), Or.inl rfl⟩

/-- the scripts are short enough for the counters -/
theorem countP_scripts_lt (hle : threads ≤ tableRows) {scripts : List (List Op)}
    (hcount : scripts.length = threads.toNat) (hlen : ∀ script ∈ scripts, script.length = opsPerThread)
    (p : Op → Bool) : scripts.flatten.countP p < 2 ^ 64 := by
  rw [UInt64.le_iff_toNat_le, tableRows_toNat] at hle
  have hops : opsPerThread = 4000 := rfl
  have hsum : (scripts.map List.length).sum ≤ scripts.length * opsPerThread := by
    have := List.sum_le_card_nsmul (scripts.map List.length) opsPerThread fun n hn => by
      obtain ⟨script, hscript, rfl⟩ := List.mem_map.1 hn
      exact (hlen script hscript).le
    rwa [List.length_map, smul_eq_mul] at this
  calc scripts.flatten.countP p ≤ scripts.flatten.length := List.countP_le_length
    _ = (scripts.map List.length).sum := List.length_flatten
    _ ≤ scripts.length * opsPerThread := hsum
    _ ≤ 20000 * 4000 := by rw [hcount, hops]; exact Nat.mul_le_mul_right _ hle
    _ < 2 ^ 64 := by norm_num

/-- when all threads are done, the counters are the numbers of reads and of writes in the scripts -/
theorem counters_of_done {threads : UInt64} {table : MixTable} {scripts : List (List Op)}
    (hcount : scripts.length = threads.toNat) (hfit : ∀ p, scripts.flatten.countP p < 2 ^ 64)
    (hstart : (mixOutline threads).Holds (startRun threads table scripts)) (sched : List (Fin threads.toNat))
    (hdone : ∀ t, ((runMix threads table scripts sched).locals t).pc = .done) :
    (runMix threads table scripts sched).shared.readsHit.toNat = scripts.flatten.countP Op.isRead ∧
    (runMix threads table scripts sched).shared.writesOk.toNat = scripts.flatten.countP Op.isWrite := by
  constructor
  · exact run_conserves_done _ (fun s => s.readsHit.toNat) (fun _ => readsDue) _ (mixOutline threads).exec_holds
      (fun s t g l h hroom hr => reads_conserved h.1 (h.2 t) hr (hroom.trans_lt (hfit _))) _ hstart
      (by rw [← sum_countP_getD Op.isRead scripts hcount]; simp [startRun, readsDue]) sched fun t => by
        show readsDue ((runMix threads table scripts sched).locals t) = 0
        simp [readsDue, hdone t]
  · exact run_conserves_done _ (fun s => s.writesOk.toNat) (fun _ => writesDue) _ (mixOutline threads).exec_holds
      (fun s t g l h hroom hr => writes_conserved h.1 (h.2 t) hr (hroom.trans_lt (hfit _))) _ hstart
      (by rw [← sum_countP_getD Op.isWrite scripts hcount]; simp [startRun, writesDue]) sched fun t => by
        show writesDue ((runMix threads table scripts sched).locals t) = 0
        simp [writesDue, hdone t]

/-- an upsert about to run is accepted, and its step stores its row -/
theorem pending_lands {s : State (Fin threads.toNat) Shared Worker} (hs : (mixOutline threads).Holds s)
    {t : Fin threads.toNat} {row : MixRow} (hrow : pendingRow (s.locals t) = some row) :
    (s.shared.table.upsert row).isSome ∧
      (exec (fun _ => workerStep) s t).shared.table.select row.id = some row := by
  unfold pendingRow at hrow
  split at hrow
  · rename_i hpc hscript
    obtain ⟨row', table', hrow', hid, -, htable', hrows, -, hwrite⟩ := writeStep_eq hs.1 (hs.2 t) hscript
    rw [hrow] at hrow'
    cases hrow'
    refine ⟨Option.isSome_iff_exists.2 ⟨table', htable'⟩, ?_⟩
    have hstep := (workerStep_write s.shared hpc hscript).trans (congrArg some hwrite)
    rw [exec_some hstep, MixTable.select, hrows, hid, TreeMap.get_insert, if_pos rfl]
  · cases hrow

/-- every moment can be continued until all threads are done -/
theorem mix_finishes {s : State (Fin threads.toNat) Shared Worker} (hs : (mixOutline threads).Holds s) :
    ∃ more, ∀ t, ((run (fun _ => workerStep) s more).locals t).pc = .done :=
  run_finishes (mixOutline threads).Holds (fun w => w.pc = .done) Worker.work (mixOutline threads).exec_holds
    (fun _ t _ _ h hr => worker_work h.1 (h.2 t) hr)
    (fun _ h hnd => hnd.imp fun t ht => worker_moves (h.2 t) ht) s hs

/-- **The mixed run is a sound fixture.** With at most `TABLE_ROWS` threads the scripts and the table exist, no two
threads share a key and every key is below `TABLE_ROWS`. At every moment of every interleaving: no upsert about to run
violates the unique index, and its step stores its row; every read about to run hits, no thread has panicked, and the
keys of the table are those loaded. When all threads are done, the counters are the numbers of reads and writes; every
run can be completed, with these counters. -/
theorem mix_fixture (threads dedicatedWriters : UInt64) (writeRatio : UInt32) (h0 : 0 < threads)
    (hle : threads ≤ tableRows) (hd : dedicatedWriters ≤ threads) :
    ∃ scripts table, scriptsFor threads dedicatedWriters writeRatio = some scripts ∧ populated = some table ∧
      scripts.length = threads.toNat ∧
      (∀ t u : Fin threads.toNat, t ≠ u → ∀ op ∈ scripts.getD t [], ∀ op' ∈ scripts.getD u [], op.key ≠ op'.key) ∧
      (∀ script ∈ scripts, ∀ op ∈ script, op.key < tableRows) ∧
      ∀ sched,
        let s := runMix threads table scripts sched
        (∀ t row, pendingRow (s.locals t) = some row → (s.shared.table.upsert row).isSome ∧
          (runMix threads table scripts (sched ++ [t])).shared.table.select row.id = some row) ∧
        (∀ t key rest, (s.locals t).script = .read key :: rest → (s.shared.table.select key).isSome) ∧
        (∀ t, (s.locals t).pc ≠ .panicked) ∧
        (∀ key, key ∈ s.shared.table.rows ↔ key < tableRows) ∧
        ((∀ t, (s.locals t).pc = .done) →
          s.shared.readsHit.toNat = scripts.flatten.countP Op.isRead ∧
            s.shared.writesOk.toNat = scripts.flatten.countP Op.isWrite) ∧
        ∃ more, (∀ t, ((runMix threads table scripts (sched ++ more)).locals t).pc = .done) ∧
          (runMix threads table scripts (sched ++ more)).shared.readsHit.toNat = scripts.flatten.countP Op.isRead ∧
          (runMix threads table scripts (sched ++ more)).shared.writesOk.toNat = scripts.flatten.countP Op.isWrite := by
  obtain ⟨table, hpop, hinv, hseed⟩ := populated_some
  set scripts := (List.range threads.toNat).map fun thread =>
    script threads dedicatedWriters writeRatio (UInt64.ofNat thread) with hscripts
  have hget : ∀ t : Fin threads.toNat,
      scripts.getD t [] = script threads dedicatedWriters writeRatio (threadOf t) := scripts_getD
  have hcount : scripts.length = threads.toNat := by simp [hscripts]
  have hmem : ∀ script' ∈ scripts, ∃ t : Fin threads.toNat,
      script' = script threads dedicatedWriters writeRatio (threadOf t) := by
    intro script' h
    obtain ⟨i, hi, rfl⟩ := List.mem_map.1 h
    exact ⟨⟨i, List.mem_range.1 hi⟩, rfl⟩
  have hfit : ∀ p, scripts.flatten.countP p < 2 ^ 64 := countP_scripts_lt hle hcount fun script' h => by
    obtain ⟨t, rfl⟩ := hmem script' h
    exact script_length _
  refine ⟨scripts, table, scriptsFor_eq h0 hd, hpop, hcount, fun t u hne op hop op' hop' he => ?_,
    fun script' h op hop => ?_, fun sched => ?_⟩
  · rw [hget] at hop hop'
    have hspan := script_keys h0 hle (threadOf_lt t) op hop
    have hspan' := script_keys h0 hle (threadOf_lt u) op' hop'
    rw [← he] at hspan'
    exact threadOf_ne hne (span_disjoint hspan hspan')
  · obtain ⟨t, rfl⟩ := hmem script' h
    exact span_lt (threadOf_lt t) (script_keys h0 hle (threadOf_lt t) op hop)
  intro s
  have hstart : (mixOutline threads).Holds (startRun threads table scripts) := startRun_holds h0 hle hinv hseed hget
  have hs : (mixOutline threads).Holds s := (mixOutline threads).run _ hstart sched
  refine ⟨fun t row hrow => ?_, fun t key rest hscript => ?_, fun t => (hs.2 t).alive, hs.1.keys,
    counters_of_done hcount hfit hstart sched, ?_⟩
  · obtain ⟨haccepted, hstored⟩ := pending_lands hs hrow
    have hnext : runMix threads table scripts (sched ++ [t]) = exec (fun _ => workerStep) s t := run_append _ _ _ _
    rw [hnext]
    exact ⟨haccepted, hstored⟩
  · have hkey : key ∈ s.shared.table.rows := pending_mem hs.1 (hs.2 t) hscript
    exact select_isSome.2 hkey
  · obtain ⟨more, hdone⟩ := mix_finishes hs
    have hrun : runMix threads table scripts (sched ++ more) = run (fun _ => workerStep) s more := run_append _ _ _ _
    have hall : ∀ t, ((runMix threads table scripts (sched ++ more)).locals t).pc = .done := by
      rw [hrun]
      exact hdone
    exact ⟨more, hall, counters_of_done hcount hfit hstart (sched ++ more) hall⟩

/-- eight dedicated writers of thirty-two threads -/
theorem mix_fixture_small : ∃ scripts table, scriptsFor 32 8 10 = some scripts ∧ populated = some table ∧
    ∀ sched, (∀ key, key ∈ (runMix 32 table scripts sched).shared.table.rows ↔ key < tableRows) ∧
      ∃ more, (∀ t, ((runMix 32 table scripts (sched ++ more)).locals t).pc = .done) ∧
        (runMix 32 table scripts (sched ++ more)).shared.readsHit.toNat = scripts.flatten.countP Op.isRead ∧
        (runMix 32 table scripts (sched ++ more)).shared.writesOk.toNat = scripts.flatten.countP Op.isWrite := by
  obtain ⟨scripts, table, hscripts, htable, -, -, -, hruns⟩ := mix_fixture 32 8 10 (by decide) (by decide) (by decide)
  refine ⟨scripts, table, hscripts, htable, fun sched => ?_⟩
  obtain ⟨-, -, -, hkeys, -, hends⟩ := hruns sched
  exact ⟨hkeys, hends⟩

/-! ## Which writes change their row -/

/-- a thread that runs alone reaches its first write, having changed nothing -/
theorem first_write_pending (table : MixTable) (scripts : List (List Op)) (t : Fin threads.toNat)
    (h : ∃ op ∈ scripts.getD t [], op.isWrite = true) :
    ∃ sched key, .write key ∈ scripts.getD t [] ∧ (runMix threads table scripts sched).shared.table = table ∧
      pendingRow ((runMix threads table scripts sched).locals t) = rowFor key 0 := by
  suffices hrun : ∀ (s : State (Fin threads.toNat) Shared Worker), (s.locals t).pc = .running →
      (s.locals t).wrote = 0 → (∃ op ∈ (s.locals t).script, op.isWrite = true) →
      ∃ sched key, .write key ∈ (s.locals t).script ∧
        (run (fun _ => workerStep) s sched).shared.table = s.shared.table ∧
        pendingRow ((run (fun _ => workerStep) s sched).locals t) = rowFor key 0 from
    hrun (startRun threads table scripts) rfl rfl h
  intro s hpc hwrote hex
  induction hscript : (s.locals t).script generalizing s with
  | nil =>
    rw [hscript] at hex
    obtain ⟨op, hop, -⟩ := hex
    cases hop
  | cons op rest ih =>
    cases op with
    | write key => exact ⟨[], key, List.mem_cons_self, rfl, by simp [pendingRow, hpc, hscript, hwrote]⟩
    | read key =>
      have hstep := workerStep_read s.shared hpc hscript
      rw [hscript] at hex
      obtain ⟨op, hop, hop'⟩ := hex
      have hrest : op ∈ rest := by
        rcases List.mem_cons.1 hop with rfl | hop
        · cases hop'
        · exact hop
      obtain ⟨sched, key', hmem, htable, hpend⟩ := ih (exec (fun _ => workerStep) s t)
        (by rw [exec_some hstep]; simpa using hpc) (by rw [exec_some hstep]; simpa using hwrote)
        ⟨op, by rw [exec_some hstep]; simpa using hrest, hop'⟩ (by rw [exec_some hstep]; simp)
      refine ⟨t :: sched, key', List.mem_cons_of_mem _ hmem, ?_, hpend⟩
      rw [run_cons, htable, exec_some hstep]

/-- the first thread's keys are in the table, for any thread count -/
theorem first_thread_keys : ∀ op ∈ script threads dedicatedWriters writeRatio 0, op.key < tableRows := by
  have hstart : (spanOf threads 0).start.toNat = 0 := by simp [spanOf]
  have hspan : (max (spanOf threads 0).span 1).toNat ≤ 20000 := by
    have hdiv : 20000 / threads.toNat ≤ 20000 := Nat.div_le_self _ _
    rw [max_one_toNat, spanOf, UInt64.toNat_div, tableRows_toNat]
    omega
  refine opsFrom_forall (fun state => ?_) _ _
  have hmem := opOf_mem_span (spanOf threads 0) (by omega) (decide (0 < dedicatedWriters)) writeRatio state
  rw [UInt64.lt_iff_toNat_lt, tableRows_toNat]
  omega

/-- **The first write of a run stores the seed again.** It carries the counter 0, and so does the seed. -/
theorem first_write_repeats {table : MixTable} (hinv : TableInv table)
    (hseed : ∀ (key : UInt64) (row : MixRow), table.rows[key]? = some row → row = seedRow key)
    {scripts : List (List Op)} (h0 : 0 < threads)
    (hscripts : ∀ t : Fin threads.toNat, scripts.getD t [] = script threads dedicatedWriters writeRatio (threadOf t))
    (hw : ¬ (dedicatedWriters = 0 ∧ writeRatio = 0)) :
    ∃ sched t row, pendingRow ((runMix threads table scripts sched).locals t) = some row ∧
      ¬ Mutates (runMix threads table scripts sched).shared.table row := by
  rw [UInt64.lt_iff_toNat_lt, UInt64.toNat_zero] at h0
  have hfirst : scripts.getD (⟨0, h0⟩ : Fin threads.toNat) [] = script threads dedicatedWriters writeRatio 0 :=
    hscripts ⟨0, h0⟩
  obtain ⟨sched, key, hmem, htable, hpend⟩ := first_write_pending table scripts ⟨0, h0⟩
    (by rw [hfirst]; exact exists_write hw)
  rw [hfirst] at hmem
  have hk : key < tableRows := first_thread_keys (.write key) hmem
  have hzero : (0 : UInt64).toNat ≤ opsPerThread := Nat.zero_le _
  obtain ⟨row, hrow, hid, hp⟩ := rowFor_some hk hzero
  obtain ⟨old, hold⟩ := (TreeMap.mem_iff_get table.rows key).1 ((hinv.keys key).2 hk)
  obtain rfl := hseed key old hold
  have hsame : (seedRow key).payload = row.payload := by
    apply UInt64.toNat_inj.1
    rw [seedRow_payload hk, hp, UInt64.toNat_zero]
  refine ⟨sched, ⟨0, h0⟩, row, hpend.trans hrow, fun hmut => hmut ?_⟩
  rw [htable, hid, MixTable.select, hold, Option.map_some, hsame]

/-- a step only shortens the script -/
theorem workerStep_script {s : Shared} {w : Worker} {r : Shared × Worker} (hr : workerStep s w = some r) :
    ∀ op ∈ r.2.script, op ∈ w.script := by
  unfold workerStep at hr
  split at hr
  · split at hr
    · cases hr
      exact fun op hop => hop
    · rename_i hs
      cases hr
      intro op hop
      rw [hs]
      exact List.mem_cons_of_mem _ hop
    · rename_i key rest hs
      cases hr
      intro op hop
      rw [hs]
      unfold writeStep at hop
      split at hop
      · rwa [hs] at hop
      · split at hop
        · exact List.mem_cons_of_mem _ hop
        · exact List.mem_cons_of_mem _ hop
  · cases hr
    exact fun op hop => hop
  · cases hr
  · cases hr

/-- scripts without writes have no pending row -/
theorem pendingRow_none {scripts : List (List Op)} {table : MixTable}
    (h : ∀ t : Fin threads.toNat, ∀ op ∈ scripts.getD t [], op.isWrite = false) (sched : List (Fin threads.toNat))
    (t : Fin threads.toNat) : pendingRow ((runMix threads table scripts sched).locals t) = none := by
  have hreads : ∀ t, ∀ op ∈ ((runMix threads table scripts sched).locals t).script, op.isWrite = false := by
    refine run_inv (fun s => ∀ t, ∀ op ∈ (s.locals t).script, op.isWrite = false)
      (fun s t g l hs hr u op hop => ?_) (startRun threads table scripts) h sched
    by_cases hu : u = t
    · subst hu
      simp only [Function.update_self] at hop
      exact hs u op (workerStep_script hr op hop)
    · simp only [Function.update_of_ne hu] at hop
      exact hs u op hop
  unfold pendingRow
  split
  · rename_i key rest hpc hs
    cases hreads t (.write key) (by rw [hs]; exact List.mem_cons_self)
  · rfl

/-- **Which writes change their row.** Every upsert of every interleaving changes the payload of its row exactly when
the scripts contain no write at all. With at most `TABLE_ROWS` threads, an upsert changes it exactly when its thread
has already counted a successful write. -/
theorem write_mutates_iff (threads dedicatedWriters : UInt64) (writeRatio : UInt32) (h0 : 0 < threads)
    (hd : dedicatedWriters ≤ threads) :
    ∃ scripts table, scriptsFor threads dedicatedWriters writeRatio = some scripts ∧ populated = some table ∧
      ((∀ sched t row, pendingRow ((runMix threads table scripts sched).locals t) = some row →
          Mutates (runMix threads table scripts sched).shared.table row) ↔
        dedicatedWriters = 0 ∧ writeRatio = 0) ∧
      (threads ≤ tableRows → ∀ sched t row, pendingRow ((runMix threads table scripts sched).locals t) = some row →
        (Mutates (runMix threads table scripts sched).shared.table row ↔
          0 < ((runMix threads table scripts sched).locals t).wrote)) := by
  obtain ⟨table, hpop, hinv, hseed⟩ := populated_some
  set scripts := (List.range threads.toNat).map fun thread =>
    script threads dedicatedWriters writeRatio (UInt64.ofNat thread)
  have hget : ∀ t : Fin threads.toNat,
      scripts.getD t [] = script threads dedicatedWriters writeRatio (threadOf t) := scripts_getD
  refine ⟨scripts, table, scriptsFor_eq h0 hd, hpop, ⟨fun hall => ?_, fun hnone => ?_⟩, fun hle sched t row hrow => ?_⟩
  · by_contra hw
    obtain ⟨sched, t, row, hrow, hsame⟩ := first_write_repeats hinv hseed h0 hget hw
    exact hsame (hall sched t row hrow)
  · intro sched t row hrow
    obtain ⟨rfl, rfl⟩ := hnone
    rw [pendingRow_none (fun t => by rw [hget]; exact script_reads _)] at hrow
    cases hrow
  · set s := runMix threads table scripts sched
    obtain ⟨hg, hw⟩ : (mixOutline threads).Holds s :=
      (mixOutline threads).run _ (startRun_holds h0 hle hinv hseed hget) sched
    unfold pendingRow at hrow
    split at hrow
    · rename_i key rest hpc hs
      obtain ⟨row', -, hrow', hid, hp, -⟩ := writeStep_eq hg (hw t) hs
      rw [hrow] at hrow'
      cases hrow'
      have hspan := (hw t).keys (.write key) (by rw [hs]; exact List.mem_cons_self)
      obtain ⟨old, hold⟩ := (TreeMap.mem_iff_get s.shared.table.rows key).1 (pending_mem hg (hw t) hs)
      obtain ⟨n, hn, hor⟩ := (hw t).own key old hspan hold
      have hsame : old.payload = row.payload ↔ n = (s.locals t).wrote.toNat := by
        rw [← UInt64.toNat_inj, hn, hp]
        exact ⟨payloadOf_inj, fun h => by rw [h]⟩
      unfold Mutates
      rw [hid, MixTable.select, hold, Option.map_some, ne_eq, Option.some_inj, hsame, UInt64.lt_iff_toNat_lt,
        UInt64.toNat_zero]
      omega
    · cases hrow

/-- one dedicated writer: its first upsert stores the payload that is already there -/
theorem first_write_unchanged :
    ∃ scripts table, scriptsFor 1 1 0 = some scripts ∧ populated = some table ∧
      ∃ sched t row, pendingRow ((runMix 1 table scripts sched).locals t) = some row ∧
        ¬ Mutates (runMix 1 table scripts sched).shared.table row := by
  obtain ⟨table, hpop, hinv, hseed⟩ := populated_some
  refine ⟨_, table, scriptsFor_eq (by decide) (by decide), hpop, ?_⟩
  exact first_write_repeats hinv hseed (by decide) scripts_getD (by decide)

theorem write_mutates_iff_one : 0 < (1 : UInt64) ∧ (1 : UInt64) ≤ 1 ∧
    ∃ scripts table, scriptsFor 1 1 0 = some scripts ∧ populated = some table :=
  ⟨by decide, by decide,
    let ⟨scripts, table, hscripts, htable, _⟩ := write_mutates_iff 1 1 0 (by decide) (by decide)
    ⟨scripts, table, hscripts, htable⟩⟩

end Fixture

end WtBenchmarks.ConcurrentMix
