/-
One cell of the contention matrix (`main`, `campaigns/contention/src/bin/contention-paper.rs`): workers increment fields
of hot rows under a lock discipline, then the sum of all fields is compared with what the committed operations asked
for.

The table is not trusted: an oracle says, for every operation, whether the call returns an error and how many times each
requested increment is applied. Workers interleave freely; an overflow is a panic, after which no cell is reported. The
counters of completed operations and of errors wrap, as atomic additions do.

- `fields_conserved`, `completed_conserved`, `errors_conserved`: what a step moves from a worker to the shared state.
- `report_eq`: the reported numbers, in terms of the oracle.
- `passed_exact_iff`: when a reported `passed` means that the sum is the requested one. A surplus is never noticed.
-/
import WtBenchmarks.Core.Threads
import WtBenchmarks.Core.Word
import Mathlib.Tactic

namespace WtBenchmarks.ContentionPaper

open Threads

/-! ## Model -/

/-- `CONTENTION_FIELDS` -/
def contentionFields : ℕ := 8

inductive Mode where
  | fieldGranular | overlap | wholeRow | singleMutex
deriving DecidableEq, Repr

structure Args where
  mode : Mode
  threads : ℕ
  opsPerThread : UInt64
  warmupOps : UInt64
  /-- `--hot-rows` -/
  hotRowsFlag : Option ℕ

def Args.hotRows (args : Args) : ℕ := max (args.hotRowsFlag.getD args.threads) 1

theorem Args.hotRows_pos (args : Args) : 0 < args.hotRows := lt_of_lt_of_le Nat.zero_lt_one (le_max_right _ _)

/-- the contention columns of a row -/
abbrev Fields := Fin contentionFields → UInt64

abbrev Rows (args : Args) := Fin args.hotRows → Fields

def disjointField (worker : ℕ) : Fin contentionFields := ⟨worker % contentionFields, Nat.mod_lt _ (by decide)⟩

/-- the field of the `overlap` mode -/
def f0 : Fin contentionFields := ⟨0, by decide⟩

/-- what the table makes of one increment call -/
structure Outcome where
  ok : Bool
  /-- how many times the increment of a field is applied, if it is requested -/
  times : Fin contentionFields → ℕ

/-- the fields one operation of a worker increments -/
def target (mode : Mode) (worker : ℕ) : Finset (Fin contentionFields) :=
  match mode with
  | .fieldGranular | .singleMutex => {disjointField worker}
  | .overlap => {f0}
  | .wholeRow => Finset.univ

/-- `per_op_increments` -/
def perOp : Mode → UInt64
  | .wholeRow => UInt64.ofNat contentionFields
  | _ => 1

/-- the row one operation of a worker goes to -/
def rowOf (args : Args) (worker : ℕ) : Fin args.hotRows :=
  match args.mode with
  | .fieldGranular => ⟨worker % args.hotRows, Nat.mod_lt _ args.hotRows_pos⟩
  | _ => ⟨0, args.hotRows_pos⟩

/-- the increments that arrive, by field -/
def arriving (fields : Finset (Fin contentionFields)) (outcome : Outcome) (f : Fin contentionFields) : ℕ :=
  if f ∈ fields then outcome.times f else 0

/-- adds to the fields of a row, unless one of them overflows -/
def increment (fields : Fields) (times : Fin contentionFields → ℕ) : Option Fields :=
  if ∀ f, (fields f).toNat + times f < 2 ^ 64 then some fun f => fields f + UInt64.ofNat (times f) else none

def incrementRow {args : Args} (rows : Rows args) (row : Fin args.hotRows) (times : Fin contentionFields → ℕ) :
    Option (Rows args) := do
  let fields ← increment (rows row) times
  some (Function.update rows row fields)

/-- one warmup increment; its result is dropped -/
def warmTurn (args : Args) (warm : ℕ → Outcome) (rows : Rows args) (i : ℕ) : Option (Rows args) :=
  incrementRow rows ⟨i % args.hotRows, Nat.mod_lt _ args.hotRows_pos⟩
    (arriving {disjointField (i % max args.threads 1)} (warm i))

/-- the hot rows are inserted, warmed up, and reset -/
def setup (args : Args) (warm : ℕ → Outcome) : Option (Rows args) := do
  let _warmed ← (List.range args.warmupOps.toNat).foldlM (warmTurn args warm) (fun row _ => UInt64.ofNat row)
  some fun _ _ => 0

/-! ## Workers -/

inductive WorkerPc where
  | next
  /-- an operation of `single_mutex` that holds the mutex -/
  | locked
  | finished
  | panicked
deriving DecidableEq

structure Worker where
  /-- the operations already made -/
  index : ℕ
  /-- the operations that returned without an error -/
  completed : UInt64
  pc : WorkerPc

structure Shared (args : Args) where
  rows : Rows args
  completed : UInt64
  errors : UInt64
  bigLock : Option (Fin args.threads)

/-- what the table makes of every operation of every worker -/
abbrev Oracle (args : Args) := Fin args.threads → ℕ → Outcome

section Cell

variable {args : Args} (table : Oracle args)

/-- one increment call and the bookkeeping after it -/
def operate (t : Fin args.threads) (g : Shared args) (w : Worker) : Shared args × Worker :=
  match incrementRow g.rows (rowOf args t) (arriving (target args.mode t) (table t w.index)) with
  | none => (g, { w with pc := .panicked })
  | some rows =>
    if (table t w.index).ok then
      ({ g with rows := rows }, { w with index := w.index + 1, completed := w.completed + 1, pc := .next })
    else ({ g with rows := rows, errors := g.errors + 1 }, { w with index := w.index + 1, pc := .next })

def workerStep (t : Fin args.threads) (g : Shared args) (w : Worker) : Option (Shared args × Worker) :=
  match w.pc with
  | .next =>
    if w.index < args.opsPerThread.toNat then
      if args.mode = .singleMutex then
        if g.bigLock = none then some ({ g with bigLock := some t }, { w with pc := .locked }) else none
      else some (operate table t g w)
    else some ({ g with completed := g.completed + w.completed }, { w with pc := .finished })
  | .locked =>
    let r := operate table t g w
    some ({ r.1 with bigLock := none }, r.2)
  | .finished | .panicked => none

def startCell (rows : Rows args) : State (Fin args.threads) (Shared args) Worker :=
  ⟨⟨rows, 0, 0, none⟩, fun _ => ⟨0, 0, .next⟩⟩

/-- the run of a cell -/
def runCell (rows : Rows args) (sched : List (Fin args.threads)) : State (Fin args.threads) (Shared args) Worker :=
  run (workerStep table) (startCell rows) sched

/-! ## The verdict -/

structure CellResult where
  operationsCompleted : UInt64
  expectedSum : UInt64
  observedSum : UInt64
  lostUpdates : UInt64
  errors : UInt64
  passed : Bool

/-- an iterator's sum -/
def sum (values : List UInt64) : Option UInt64 := values.foldlM checkedAdd 0

def observedSum (rows : Rows args) : Option UInt64 := do
  let sums ← (List.finRange args.hotRows).mapM fun row => sum ((List.finRange contentionFields).map (rows row))
  sum sums

/-- the cell that is reported once all workers are joined -/
def report (s : State (Fin args.threads) (Shared args) Worker) : Option CellResult :=
  if ∀ t, (s.locals t).pc = .finished then do
    let observed ← observedSum s.shared.rows
    let expected ← checkedMul s.shared.completed (perOp args.mode)
    let lost := saturatingSub expected observed
    some ⟨s.shared.completed, expected, observed, lost, s.shared.errors, lost = 0 ∧ s.shared.errors = 0⟩
  else none

/-! ## What the oracle says -/

/-- the increments one operation adds -/
def applied (t : Fin args.threads) (i : ℕ) : ℕ := ∑ f, arriving (target args.mode t) (table t i) f

/-- what the operations from `i` on sum up to -/
def fromOn (q : Fin args.threads → ℕ → ℕ) (t : Fin args.threads) (i : ℕ) : ℕ :=
  ∑ j ∈ Finset.Ico i args.opsPerThread.toNat, q t j

/-- a quantity of the operations of all workers -/
def total (q : Fin args.threads → ℕ → ℕ) : ℕ := ∑ t, fromOn q t 0

/-- one for an operation that commits -/
def commits (t : Fin args.threads) (i : ℕ) : ℕ := if (table t i).ok then 1 else 0

/-- one for an operation that returns an error -/
def fails (t : Fin args.threads) (i : ℕ) : ℕ := if (table t i).ok then 0 else 1

/-- the number of increments the committed operations requested -/
def requested : ℕ := total (commits table) * (perOp args.mode).toNat

end Cell

/-- a committed operation requests as many increments as it has target fields -/
theorem perOp_eq (mode : Mode) (worker : ℕ) : (perOp mode).toNat = (target mode worker).card := by
  cases mode with
  | wholeRow => exact (Finset.card_fin contentionFields).symm
  | fieldGranular => exact (Finset.card_singleton _).symm
  | overlap => exact (Finset.card_singleton _).symm
  | singleMutex => exact (Finset.card_singleton _).symm

/-! ## Steps -/

section Steps

variable {args : Args} {table : Oracle args} {t : Fin args.threads} {g : Shared args} {w : Worker}

/-- the sum of the fields of all rows -/
def fieldSum (rows : Rows args) : ℕ := ∑ row, ∑ f, (rows row f).toNat

theorem increment_some {fields fields' : Fields} {times : Fin contentionFields → ℕ}
    (h : increment fields times = some fields') :
    ∑ f, (fields' f).toNat = ∑ f, (fields f).toNat + ∑ f, times f := by
  unfold increment at h
  split_ifs at h with hfit
  cases h
  rw [← Finset.sum_add_distrib]
  refine Finset.sum_congr rfl fun f _ => ?_
  have htimes : (UInt64.ofNat (times f)).toNat = times f := ofNat_toNat_of_lt (by have := hfit f; omega)
  rw [toNat_add_of_lt (by rw [htimes]; exact hfit f), htimes]

theorem incrementRow_some {rows rows' : Rows args} {row : Fin args.hotRows} {times : Fin contentionFields → ℕ}
    (h : incrementRow rows row times = some rows') : fieldSum rows' = fieldSum rows + ∑ f, times f := by
  unfold incrementRow at h
  cases hfields : increment (rows row) times with
  | none =>
    rw [hfields] at h
    cases h
  | some fields =>
    rw [hfields] at h
    cases h
    have hrest : ∀ row' ∈ Finset.univ.erase row, ∑ f, (Function.update rows row fields row' f).toNat =
        ∑ f, (rows row' f).toNat := by
      intro row' hrow'
      rw [Function.update_of_ne (Finset.ne_of_mem_erase hrow')]
    unfold fieldSum
    rw [← Finset.add_sum_erase Finset.univ (fun r => ∑ f, (rows r f).toNat) (Finset.mem_univ row),
      ← Finset.add_sum_erase Finset.univ (fun r => ∑ f, (Function.update rows row fields r f).toNat)
        (Finset.mem_univ row), Finset.sum_congr rfl hrest]
    simp only [Function.update_self]
    rw [increment_some hfields]
    ring

theorem fromOn_step (q : Fin args.threads → ℕ → ℕ) {i : ℕ} (h : i < args.opsPerThread.toNat) :
    fromOn q t i = q t i + fromOn q t (i + 1) := Finset.sum_eq_sum_Ico_succ_bot h _

theorem fromOn_end (q : Fin args.threads → ℕ → ℕ) {i : ℕ} (h : args.opsPerThread.toNat ≤ i) : fromOn q t i = 0 := by
  rw [fromOn, Finset.Ico_eq_empty (by omega), Finset.sum_empty]

/-- **One operation.** It panics and changes nothing, or its increments reach the rows and it is counted once, as
completed or as an error. -/
theorem operate_cases (table : Oracle args) (t : Fin args.threads) (g : Shared args) (w : Worker) :
    operate table t g w = (g, { w with pc := .panicked }) ∨
    ∃ rows, fieldSum rows = fieldSum g.rows + applied table t w.index ∧
      operate table t g w =
        if (table t w.index).ok then
          ({ g with rows := rows }, { w with index := w.index + 1, completed := w.completed + 1, pc := .next })
        else ({ g with rows := rows, errors := g.errors + 1 }, { w with index := w.index + 1, pc := .next }) := by
  unfold operate
  cases hrows : incrementRow g.rows (rowOf args t) (arriving (target args.mode t) (table t w.index)) with
  | none => exact Or.inl rfl
  | some rows => exact Or.inr ⟨rows, incrementRow_some hrows, rfl⟩

/-- where a worker may be in its operations -/
structure AtPc (args : Args) (w : Worker) : Prop where
  locked : w.pc = .locked → w.index < args.opsPerThread.toNat
  finished : w.pc = .finished → args.opsPerThread.toNat ≤ w.index

theorem AtPc.of_ne (h : w.pc ≠ .locked) (h' : w.pc ≠ .finished) : AtPc args w :=
  ⟨fun hpc => absurd hpc h, fun hpc => absurd hpc h'⟩

/-- what a step does: takes the mutex, makes one operation (and may release the mutex after it), or hands in the
worker's counter -/
theorem workerStep_cases (hw : AtPc args w) {r : Shared args × Worker} (hr : workerStep table t g w = some r) :
    (w.pc = .next ∧ w.index < args.opsPerThread.toNat ∧
      r = ({ g with bigLock := some t }, { w with pc := .locked })) ∨
    (w.pc ≠ .finished ∧ w.index < args.opsPerThread.toNat ∧ r.2 = (operate table t g w).2 ∧
      r.1.rows = (operate table t g w).1.rows ∧ r.1.completed = (operate table t g w).1.completed ∧
      r.1.errors = (operate table t g w).1.errors) ∨
    (w.pc = .next ∧ args.opsPerThread.toNat ≤ w.index ∧
      r = ({ g with completed := g.completed + w.completed }, { w with pc := .finished })) := by
  unfold workerStep at hr
  cases hpc : w.pc with
  | next =>
    simp only [hpc] at hr
    split_ifs at hr with hindex hmode hlock
    · cases hr
      exact Or.inl ⟨rfl, hindex, rfl⟩
    · cases hr
      exact Or.inr (Or.inl ⟨by simp, hindex, rfl, rfl, rfl, rfl⟩)
    · cases hr
      exact Or.inr (Or.inr ⟨rfl, by omega, rfl⟩)
  | locked =>
    simp only [hpc] at hr
    cases hr
    exact Or.inr (Or.inl ⟨by simp, hw.locked hpc, rfl, rfl, rfl, rfl⟩)
  | finished => simp [hpc] at hr
  | panicked => simp [hpc] at hr

theorem atPc_step (hw : AtPc args w) {r : Shared args × Worker} (hr : workerStep table t g w = some r) :
    AtPc args r.2 := by
  rcases workerStep_cases hw hr with ⟨-, hindex, rfl⟩ | ⟨-, hindex, hr2, -⟩ | ⟨-, hindex, rfl⟩
  · exact ⟨fun _ => hindex, fun hpc => by simp at hpc⟩
  · rw [hr2]
    rcases operate_cases table t g w with hop | ⟨rows, -, hop⟩
    · rw [hop]
      exact AtPc.of_ne (by simp) (by simp)
    · rw [hop]
      split_ifs
      · exact AtPc.of_ne (by simp) (by simp)
      · exact AtPc.of_ne (by simp) (by simp)
  · exact ⟨fun hpc => by simp at hpc, fun _ => hindex⟩

/-! ## What a step conserves -/

/-- the field sum grows by what the operation adds -/
theorem fields_conserved (hw : AtPc args w) {r : Shared args × Worker} (hr : workerStep table t g w = some r) :
    fieldSum r.1.rows + fromOn (applied table) t r.2.index = fieldSum g.rows + fromOn (applied table) t w.index := by
  rcases workerStep_cases hw hr with ⟨-, -, rfl⟩ | ⟨-, hindex, hr2, hrows, -⟩ | ⟨-, -, rfl⟩
  · rfl
  · rw [hr2, hrows]
    rcases operate_cases table t g w with hop | ⟨rows, hsum, hop⟩
    · rw [hop]
    · have hstep := fromOn_step (t := t) (applied table) hindex
      rw [hop]
      split_ifs
      · show fieldSum rows + fromOn (applied table) t (w.index + 1) = _
        omega
      · show fieldSum rows + fromOn (applied table) t (w.index + 1) = _
        omega
  · rfl

/-- the completed operations a worker has still to hand in -/
def completedDue (table : Oracle args) (t : Fin args.threads) (w : Worker) : ℕ :=
  if w.pc = .finished then 0 else w.completed.toNat + fromOn (commits table) t w.index

/-- an atomic addition counts modulo the width of the counter -/
theorem add_toNat_modEq (a b : UInt64) (rest : ℕ) : (a + b).toNat + rest ≡ a.toNat + (b.toNat + rest) [MOD 2 ^ 64] := by
  rw [UInt64.toNat_add, ← Nat.add_assoc]
  exact (Nat.mod_modEq _ _).add_right rest

theorem completed_conserved (hw : AtPc args w) {r : Shared args × Worker} (hr : workerStep table t g w = some r) :
    r.1.completed.toNat + completedDue table t r.2 ≡ g.completed.toNat + completedDue table t w [MOD 2 ^ 64] := by
  rcases workerStep_cases hw hr with ⟨hpc, -, rfl⟩ | ⟨hpc, hindex, hr2, -, hcompleted, -⟩ | ⟨hpc, hindex, rfl⟩
  · simp only [completedDue, hpc, reduceCtorEq, if_false]
    rfl
  · rw [hr2, hcompleted]
    have hdue : completedDue table t w = w.completed.toNat + fromOn (commits table) t w.index := if_neg hpc
    rcases operate_cases table t g w with hop | ⟨rows, -, hop⟩
    · rw [hop, hdue]
      rfl
    · have hstep := fromOn_step (t := t) (commits table) hindex
      rw [hop, hdue, hstep, commits]
      split_ifs with hok
      · show g.completed.toNat + ((w.completed + 1).toNat + fromOn (commits table) t (w.index + 1)) ≡ _ [MOD _]
        exact (add_toNat_modEq w.completed 1 _).add_left _
      · show g.completed.toNat + (w.completed.toNat + fromOn (commits table) t (w.index + 1)) ≡ _ [MOD _]
        rw [Nat.zero_add]
  · have hdue : completedDue table t w = w.completed.toNat + 0 := by
      rw [completedDue, hpc, if_neg (by decide), fromOn_end _ hindex]
    rw [hdue]
    exact add_toNat_modEq g.completed w.completed 0

theorem errors_conserved (hw : AtPc args w) {r : Shared args × Worker} (hr : workerStep table t g w = some r) :
    r.1.errors.toNat + fromOn (fails table) t r.2.index ≡
      g.errors.toNat + fromOn (fails table) t w.index [MOD 2 ^ 64] := by
  rcases workerStep_cases hw hr with ⟨-, -, rfl⟩ | ⟨-, hindex, hr2, -, -, herrors⟩ | ⟨-, -, rfl⟩
  · rfl
  · rw [hr2, herrors]
    rcases operate_cases table t g w with hop | ⟨rows, -, hop⟩
    · rw [hop]
    · have hstep := fromOn_step (t := t) (fails table) hindex
      rw [hop, hstep, fails]
      split_ifs with hok
      · show g.errors.toNat + fromOn (fails table) t (w.index + 1) ≡ _ [MOD _]
        rw [Nat.zero_add]
      · exact add_toNat_modEq g.errors 1 _
  · rfl

/-- every worker is where it may be -/
def AllAtPc (s : State (Fin args.threads) (Shared args) Worker) : Prop := ∀ t, AtPc args (s.locals t)

theorem allAtPc_step (s : State (Fin args.threads) (Shared args) Worker) (t : Fin args.threads) (g : Shared args)
    (l : Worker) (hs : AllAtPc s) (hr : workerStep table t s.shared (s.locals t) = some (g, l)) :
    AllAtPc ⟨g, Function.update s.locals t l⟩ := by
  intro u
  by_cases hu : u = t
  · subst hu
    simp only [Function.update_self]
    exact atPc_step (hs u) hr
  · simp only [Function.update_of_ne hu]
    exact hs u

theorem allAtPc_start (rows : Rows args) : AllAtPc (startCell rows) :=
  fun _ => AtPc.of_ne (by simp [startCell]) (by simp [startCell])

/-! ## Finished cells -/

/-- the state of a run from the reset rows -/
abbrev afterRun (table : Oracle args) (sched : List (Fin args.threads)) :
    State (Fin args.threads) (Shared args) Worker := runCell table (fun _ _ => 0) sched

theorem allAtPc_run (table : Oracle args) (sched : List (Fin args.threads)) : AllAtPc (afterRun table sched) :=
  run_inv AllAtPc allAtPc_step _ (allAtPc_start _) sched

/-- nothing is left to a worker that has finished -/
theorem fromOn_finished {sched : List (Fin args.threads)}
    (hdone : ((afterRun table sched).locals t).pc = .finished) (q : Fin args.threads → ℕ → ℕ) :
    fromOn q t ((afterRun table sched).locals t).index = 0 :=
  fromOn_end q ((allAtPc_run table sched t).finished hdone)

theorem fieldSum_finished {sched : List (Fin args.threads)}
    (hdone : ∀ t, ((afterRun table sched).locals t).pc = .finished) :
    fieldSum (afterRun table sched).shared.rows = total (applied table) := by
  have hsum := run_conserves AllAtPc (fun g => fieldSum g.rows) (fun t w => fromOn (applied table) t w.index)
    (total (applied table)) allAtPc_step (fun s t g l hI _ hr => fields_conserved (r := (g, l)) (hI t) hr)
    (startCell fun _ _ => 0) (allAtPc_start _) (by simp [startCell, fieldSum, total]) sched
  have hrest := Finset.sum_eq_zero fun t (_ : t ∈ Finset.univ) => fromOn_finished (hdone t) (applied table)
  exact (Nat.add_eq_left.2 hrest).symm.trans hsum

theorem completed_finished {sched : List (Fin args.threads)}
    (hdone : ∀ t, ((afterRun table sched).locals t).pc = .finished) :
    (afterRun table sched).shared.completed.toNat ≡ total (commits table) [MOD 2 ^ 64] := by
  have hsum := run_conserves_mod (2 ^ 64) AllAtPc (fun g => g.completed.toNat) (completedDue table) allAtPc_step
    (fun s t g l hI hr => completed_conserved (r := (g, l)) (hI t) hr) (startCell fun _ _ => 0) (allAtPc_start _) sched
  have hstart : ∀ t : Fin args.threads, completedDue table t ⟨0, 0, .next⟩ = fromOn (commits table) t 0 :=
    fun t => Nat.zero_add _
  have hrest := Finset.sum_eq_zero fun t (_ : t ∈ Finset.univ) =>
    show completedDue table t ((afterRun table sched).locals t) = 0 from if_pos (hdone t)
  have hbegin : (0 : UInt64).toNat + ∑ t : Fin args.threads, completedDue table t ⟨0, 0, .next⟩ =
      total (commits table) := (Nat.zero_add _).trans (Finset.sum_congr rfl fun t _ => hstart t)
  calc (afterRun table sched).shared.completed.toNat
      = (afterRun table sched).shared.completed.toNat +
          ∑ t, completedDue table t ((afterRun table sched).locals t) := (Nat.add_eq_left.2 hrest).symm
    _ ≡ (0 : UInt64).toNat + ∑ t, completedDue table t ⟨0, 0, .next⟩ [MOD 2 ^ 64] := hsum
    _ = total (commits table) := hbegin

theorem errors_finished {sched : List (Fin args.threads)}
    (hdone : ∀ t, ((afterRun table sched).locals t).pc = .finished) :
    (afterRun table sched).shared.errors.toNat ≡ total (fails table) [MOD 2 ^ 64] := by
  have hsum := run_conserves_mod (2 ^ 64) AllAtPc (fun g => g.errors.toNat)
    (fun t w => fromOn (fails table) t w.index) allAtPc_step
    (fun s t g l hI hr => errors_conserved (r := (g, l)) (hI t) hr)
    (startCell fun _ _ => 0) (allAtPc_start _) sched
  have hrest := Finset.sum_eq_zero fun t (_ : t ∈ Finset.univ) => fromOn_finished (hdone t) (fails table)
  calc (afterRun table sched).shared.errors.toNat
      = (afterRun table sched).shared.errors.toNat +
          ∑ t, fromOn (fails table) t ((afterRun table sched).locals t).index := (Nat.add_eq_left.2 hrest).symm
    _ ≡ (0 : UInt64).toNat + total (fails table) [MOD 2 ^ 64] := hsum
    _ = total (fails table) := Nat.zero_add _

/-- a word that counts modulo its width -/
theorem toNat_eq_mod {a : UInt64} {n : ℕ} (h : a.toNat ≡ n [MOD 2 ^ 64]) : a.toNat = n % 2 ^ 64 :=
  (Nat.mod_eq_of_lt a.toNat_lt).symm.trans h

/-! ## The report -/

theorem sum_some {values : List UInt64} {r : UInt64} (h : sum values = some r) :
    r.toNat = (values.map UInt64.toNat).sum := by
  suffices hfold : ∀ (values : List UInt64) (a : UInt64), values.foldlM checkedAdd a = some r →
      r.toNat = a.toNat + (values.map UInt64.toNat).sum by
    simpa using hfold values 0 h
  intro values
  induction values with
  | nil =>
    intro a h
    cases h
    simp
  | cons v values ih =>
    intro a h
    rw [List.foldlM_cons] at h
    cases hadd : checkedAdd a v with
    | none =>
      rw [hadd] at h
      cases h
    | some b =>
      rw [hadd] at h
      rw [ih b h, checkedAdd_toNat hadd, List.map_cons, List.sum_cons, Nat.add_assoc]

/-- the sum the program observes is the sum of the fields -/
theorem observedSum_some {rows : Rows args} {r : UInt64} (h : observedSum rows = some r) :
    r.toNat = fieldSum rows := by
  unfold observedSum at h
  rw [Option.bind_eq_bind, Option.bind_eq_some_iff] at h
  obtain ⟨sums, hsums, hr⟩ := h
  have hmap : sums.map UInt64.toNat =
      (List.finRange args.hotRows).map fun row => ∑ f, (rows row f).toNat := by
    suffices hall : ∀ (indices : List (Fin args.hotRows)) (sums : List UInt64),
        indices.mapM (fun row => sum ((List.finRange contentionFields).map (rows row))) = some sums →
        sums.map UInt64.toNat = indices.map fun row => ∑ f, (rows row f).toNat from hall _ _ hsums
    intro indices
    induction indices with
    | nil =>
      intro sums h
      cases h
      rfl
    | cons row indices ih =>
      intro sums h
      rw [List.mapM_cons, Option.bind_eq_bind, Option.bind_eq_some_iff] at h
      obtain ⟨v, hv, h⟩ := h
      rw [Option.bind_eq_bind, Option.bind_eq_some_iff] at h
      obtain ⟨rest, hrest, h⟩ := h
      cases h
      rw [List.map_cons, List.map_cons, ih rest hrest, sum_some hv, List.map_map]
      congr 1
  rw [sum_some hr, hmap, ← List.ofFn_eq_map, List.sum_ofFn, fieldSum]

/-- **What a cell reports.** The observed sum is what the table applied, the expected one what the counted operations
requested, and both counters hold their numbers modulo their width. -/
theorem report_eq {sched : List (Fin args.threads)} {r : CellResult}
    (h : report (runCell table (fun _ _ => 0) sched) = some r) :
    fieldSum (runCell table (fun _ _ => 0) sched).shared.rows = total (applied table) ∧
      (r.passed = true ↔ total (fails table) % 2 ^ 64 = 0 ∧
        total (commits table) % 2 ^ 64 * (perOp args.mode).toNat ≤ total (applied table)) := by
  unfold report at h
  split_ifs at h with hdone
  obtain ⟨observed, hobserved, h⟩ := Option.bind_eq_some_iff.1 h
  obtain ⟨expected, hexpected, h⟩ := Option.bind_eq_some_iff.1 h
  cases h
  have hrows := fieldSum_finished hdone
  have hexp := checkedMul_toNat hexpected
  rw [toNat_eq_mod (completed_finished hdone)] at hexp
  refine ⟨hrows, ?_⟩
  rw [decide_eq_true_eq, saturatingSub_eq_zero, ← UInt64.toNat_inj, UInt64.toNat_zero, and_comm, hexp,
    toNat_eq_mod (errors_finished hdone), observedSum_some hobserved, hrows]

/-! ## Main result -/

theorem setup_zero {warm : ℕ → Outcome} {rows : Rows args} (h : setup args warm = some rows) :
    rows = fun _ _ => 0 := by
  obtain ⟨_, -, h⟩ := Option.bind_eq_some_iff.1 h
  exact (Option.some.inj h).symm

/-- a quantity of at most one for each operation is at most the number of operations -/
theorem total_le {q : Fin args.threads → ℕ → ℕ} (h : ∀ t i, q t i ≤ 1) :
    total q ≤ args.threads * args.opsPerThread.toNat := by
  have hworker : ∀ t, fromOn q t 0 ≤ args.opsPerThread.toNat := by
    intro t
    calc fromOn q t 0 ≤ ∑ _j ∈ Finset.Ico 0 args.opsPerThread.toNat, 1 := Finset.sum_le_sum fun i _ => h t i
      _ = args.opsPerThread.toNat := by simp
  calc total q ≤ ∑ _t : Fin args.threads, args.opsPerThread.toNat := Finset.sum_le_sum fun t _ => hworker t
    _ = args.threads * args.opsPerThread.toNat := by simp

/-- **When the verdict is exact.** A reported cell passes if no error was counted and the sum is not below the expected
one. So `passed` means that the sum is the requested number of increments exactly if an error was counted, or the table
applied less than expected, or it applied the requested number; as long as the operations do not overflow a counter,
exactly if an operation failed or the table applied no more increments in total than were requested. -/
theorem passed_exact_iff (args : Args) (table : Oracle args) (warm : ℕ → Outcome) (rows : Rows args)
    (sched : List (Fin args.threads)) (r : CellResult) (hsetup : setup args warm = some rows)
    (hr : report (runCell table rows sched) = some r) :
    ((r.passed = true → fieldSum (runCell table rows sched).shared.rows = requested table) ↔
        total (fails table) % 2 ^ 64 ≠ 0 ∨
          total (applied table) < total (commits table) % 2 ^ 64 * (perOp args.mode).toNat ∨
          total (applied table) = requested table) ∧
      (args.threads * args.opsPerThread.toNat < 2 ^ 64 →
        ((r.passed = true → fieldSum (runCell table rows sched).shared.rows = requested table) ↔
          total (fails table) ≠ 0 ∨ total (applied table) ≤ requested table)) := by
  obtain rfl := setup_zero hsetup
  obtain ⟨hrows, hpassed⟩ := report_eq hr
  rw [hrows, hpassed]
  refine ⟨?_, fun hfit => ?_⟩
  · constructor
    · intro h
      by_contra hnot
      push Not at hnot
      exact hnot.2.2 (h ⟨hnot.1, hnot.2.1⟩)
    · intro h hpass
      rcases h with h | h | h
      · exact absurd hpass.1 h
      · exact absurd hpass.2 (not_le.2 h)
      · exact h
  · have hcommits : total (commits table) ≤ _ := total_le fun t i => by unfold commits; split_ifs <;> omega
    have hfails : total (fails table) ≤ _ := total_le fun t i => by unfold fails; split_ifs <;> omega
    rw [Nat.mod_eq_of_lt (hcommits.trans_lt hfit), Nat.mod_eq_of_lt (hfails.trans_lt hfit), requested]
    constructor
    · intro h
      by_contra hnot
      push Not at hnot
      exact absurd (h ⟨hnot.1, hnot.2.le⟩) (Nat.ne_of_gt hnot.2)
    · intro h hpass
      rcases h with h | h
      · exact absurd hpass.1 h
      · exact Nat.le_antisymm h hpass.2

end Steps

/-- one worker makes one operation in the `overlap` mode -/
def oneOp : Args := ⟨.overlap, 1, 1, 0, none⟩

/-- the worker runs to its end -/
def bothSteps : List (Fin oneOp.threads) := [⟨0, by decide⟩, ⟨0, by decide⟩]

/-- a table that applies every increment `n` times -/
def repeating (n : ℕ) : Oracle oneOp := fun _ _ => ⟨true, fun _ => n⟩

theorem setup_oneOp : setup oneOp (fun _ => ⟨true, fun _ => 1⟩) = some fun _ _ => 0 := rfl

theorem passed_exact_iff_oneOp : ∃ (table : Oracle oneOp) (rows : Rows oneOp) (r : CellResult),
    setup oneOp (fun _ => ⟨true, fun _ => 1⟩) = some rows ∧ report (runCell table rows bothSteps) = some r ∧
      r.passed = true ∧ fieldSum (runCell table rows bothSteps).shared.rows = requested table := by
  have hreport : report (runCell (repeating 1) (fun _ _ => 0) bothSteps) = some ⟨1, 1, 1, 0, 0, true⟩ := rfl
  have hfit : oneOp.threads * oneOp.opsPerThread.toNat < 2 ^ 64 := by decide
  have happlied : total (applied (repeating 1)) ≤ requested (repeating 1) := by decide
  refine ⟨repeating 1, _, _, setup_oneOp, hreport, rfl, ?_⟩
  exact ((passed_exact_iff oneOp _ _ _ bothSteps _ setup_oneOp hreport).2 hfit).2 (Or.inr happlied) rfl

/-- an increment that is applied twice goes unnoticed -/
theorem duplicate_passes : ∃ (table : Oracle oneOp) (rows : Rows oneOp) (r : CellResult),
    setup oneOp (fun _ => ⟨true, fun _ => 1⟩) = some rows ∧ report (runCell table rows bothSteps) = some r ∧
      r.passed = true ∧ fieldSum (runCell table rows bothSteps).shared.rows ≠ requested table :=
  ⟨repeating 2, _, ⟨1, 1, 2, 0, 0, true⟩, setup_oneOp, rfl, rfl, by decide⟩

end WtBenchmarks.ContentionPaper
