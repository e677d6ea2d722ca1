/-
What a run of `src/partition_ticks.rs` reports (`Outcome`), and that every run can end.

- `Reached.finished`, `Reached.missed`: the two sums that the readers' returns keep;
- `Reached.settled`: nobody changes the counters after the main thread has read them;
- `run_finishes_under_churn`: from every moment the run can come to its end;
- `run_accounts`: every tick is accounted for. Only ticks of the last symbol can miss, so none does where the readers
  ask for the first one, as they do in the default shape.
-/
import WtBenchmarks.PartitionTicks.Churn

namespace WtBenchmarks.PartitionTicks

open Rng Threads

section Run

variable {checks churn : Bool} {shape : Shape} {ticksPerReader : UInt64} {readers : ℕ}

/-! ## What is counted -/

def ReaderPc.isDone : ReaderPc → Bool
  | .done => true
  | _ => false

/-- readers that have still to return -/
def unfinished : Option (Option (Fin readers)) → Agent → ℕ
  | some (some _), .reader r => if r.pc.isDone then 0 else 1
  | _, _ => 0

/-- the misses a reader has reported, owed -/
def owed : Option (Option (Fin readers)) → Agent → ℤ
  | some (some _), .reader r => if r.pc.isDone then -(r.log.missed : ℤ) else 0
  | _, _ => 0

theorem owed_main (a : Agent) : owed (none : Option (Option (Fin readers))) a = 0 := rfl

theorem owed_writer (a : Agent) : owed (some none : Option (Option (Fin readers))) a = 0 := rfl

/-- a tick reports nothing -/
theorem tickStep_counts {reader : UInt64} {i : Fin readers} {g : Shared} {r : Reader} {next : ReaderPc}
    (hr : r.pc.isDone = false) (hnext : next.isDone = false) :
    g.finished + unfinished (some (some i)) (.reader (tickStep checks shape reader g r next)) =
        g.finished + unfinished (some (some i)) (.reader r) ∧
      (g.missed : ℤ) + owed (some (some i)) (.reader (tickStep checks shape reader g r next)) =
        g.missed + owed (some (some i)) (.reader r) := by
  have hpc : (tickStep checks shape reader g r next).pc.isDone = false := by
    rcases tickStep_cases checks shape reader g r next with ⟨log, rng, htick⟩ | htick
    · rw [htick]
      exact hnext
    · rw [htick]
      rfl
  simp [unfinished, owed, hpc, hr]

theorem step_counts {t : Option (Option (Fin readers))} {g g' : Shared} {a a' : Agent}
    (hs : step checks shape readers ticksPerReader t g a = some (g', a')) :
    g'.finished + unfinished t a' = g.finished + unfinished t a ∧
      (g'.missed : ℤ) + owed t a' = g.missed + owed t a := by
  match t, a with
  | none, .main pc =>
    obtain ⟨⟨g₁, pc'⟩, hstep, hr⟩ := Option.map_eq_some_iff.1 hs
    cases hr
    cases pc with
    | go | stop => cases hstep; exact ⟨rfl, rfl⟩
    | joinReaders =>
      simp only [mainStep] at hstep
      split_ifs at hstep
      cases hstep
      exact ⟨rfl, rfl⟩
    | joinWriter =>
      simp only [mainStep] at hstep
      split_ifs at hstep
      split at hstep <;> cases hstep <;> exact ⟨rfl, rfl⟩
    | done outcome => cases hstep
    | panicked => cases hstep
  | some none, .writer w =>
    obtain ⟨⟨g₁, w'⟩, hstep, hr⟩ := Option.map_eq_some_iff.1 hs
    cases hr
    obtain ⟨pc, rng⟩ := w
    cases pc with
    | spin | check =>
      simp only [writerStep] at hstep
      split_ifs at hstep <;> cases hstep <;> exact ⟨rfl, rfl⟩
    | remove | create | count => cases hstep; exact ⟨rfl, rfl⟩
    | insert =>
      simp only [writerStep] at hstep
      split at hstep <;> cases hstep <;> exact ⟨rfl, rfl⟩
    | done => cases hstep
    | panicked => cases hstep
  | some (some i), .reader r =>
    obtain ⟨⟨g₁, r'⟩, hstep, hr⟩ := Option.map_eq_some_iff.1 hs
    cases hr
    obtain ⟨pc, rng, turn, log⟩ := r
    cases pc with
    | spin =>
      simp only [readerStep] at hstep
      split_ifs at hstep
      split at hstep <;> cases hstep <;> exact ⟨rfl, rfl⟩
    | tick =>
      simp only [readerStep] at hstep
      split_ifs at hstep
      · cases hstep
        exact tickStep_counts rfl rfl
      · cases hstep
        exact ⟨rfl, rfl⟩
    | pin before =>
      simp only [readerStep] at hstep
      split_ifs at hstep <;> cases hstep <;> exact ⟨rfl, rfl⟩
    | batch before thisBatch left =>
      cases left with
      | zero => cases hstep; exact ⟨rfl, rfl⟩
      | succ left =>
        cases hstep
        exact tickStep_counts rfl rfl
    | addMissed =>
      cases hstep
      refine ⟨rfl, ?_⟩
      change ((g.missed + log.missed : ℕ) : ℤ) + -(log.missed : ℤ) = g.missed + 0
      push_cast
      omega
    | done => cases hstep
    | panicked => cases hstep

/-- the moments of a run -/
def Reached (checks churn : Bool) (shape : Shape) (readers : ℕ) (ticksPerReader : UInt64) (table : TickPartitions)
    (s : State (Option (Option (Fin readers))) Shared Agent) : Prop :=
  ∃ sched, s = run (step checks shape readers ticksPerReader) (start churn readers table) sched

variable {table : TickPartitions} {s : State (Option (Option (Fin readers))) Shared Agent}

theorem Reached.after (h : Reached checks churn shape readers ticksPerReader table s)
    {t : Option (Option (Fin readers))} {g : Shared} {a : Agent}
    (hs : step checks shape readers ticksPerReader t s.shared (s.locals t) = some (g, a)) :
    Reached checks churn shape readers ticksPerReader table ⟨g, Function.update s.locals t a⟩ := by
  obtain ⟨sched, rfl⟩ := h
  exact ⟨sched ++ [t], by rw [run_append, run_cons, run_nil, exec_some hs]⟩

theorem Reached.finished (h : Reached checks churn shape readers ticksPerReader table s) :
    s.shared.finished + ∑ t, unfinished t (s.locals t) = readers := by
  obtain ⟨sched, rfl⟩ := h
  refine run_conserves_nat (fun _ => True) Shared.finished unfinished readers (fun _ _ _ _ _ _ => trivial)
    (fun s t g a _ _ hs => (step_counts hs).1) _ trivial ?_ sched
  simp [start, unfinished, Fintype.sum_option, ReaderPc.isDone]

/-- what was missed is what the readers that returned have missed -/
theorem Reached.missed (h : Reached checks churn shape readers ticksPerReader table s) :
    (s.shared.missed : ℤ) + ∑ t, owed t (s.locals t) = 0 := by
  obtain ⟨sched, rfl⟩ := h
  refine run_conserves (fun _ => True) (fun g => (g.missed : ℤ)) owed 0 (fun _ _ _ _ _ _ => trivial)
    (fun s t g a _ _ hs => (step_counts hs).2) _ trivial ?_ sched
  simp [start, owed, Fintype.sum_option, ReaderPc.isDone]

/-! ## The end of a run -/

theorem Reached.inv (h : Reached checks churn shape readers ticksPerReader table s)
    (hfits : Fits shape readers ticksPerReader)
    (hholds : (churnOutline checks churn hfits).Holds (start churn readers table)) (t : Option (Option (Fin readers))) :
    AgentInv checks shape churn ticksPerReader t s.shared (s.locals t) := by
  obtain ⟨sched, rfl⟩ := h
  exact ((churnOutline checks churn hfits).run _ hholds sched).2 t

/-- the reader of a reached moment -/
theorem Reached.reader (h : Reached checks churn shape readers ticksPerReader table s)
    (hfits : Fits shape readers ticksPerReader)
    (hholds : (churnOutline checks churn hfits).Holds (start churn readers table))
    (i : Fin readers) : ∃ r, s.locals (some (some i)) = .reader r ∧
      ReaderInv checks shape churn (UInt64.ofNat i) ticksPerReader r := by
  have hloc := h.inv hfits hholds (some (some i))
  cases ha : s.locals (some (some i)) with
  | reader r =>
    rw [ha] at hloc
    exact ⟨r, rfl, hloc⟩
  | main pc =>
    rw [ha] at hloc
    exact absurd hloc id
  | writer w =>
    rw [ha] at hloc
    exact absurd hloc id

/-- a writer that has returned is at its end -/
theorem WriterInv.ended {g : Shared} {w : Writer} (h : WriterInv shape churn g w) (hdone : g.writerDone = true) :
    w.pc = .done ∧ LastOk shape g := by
  obtain ⟨pc, rng⟩ := w
  cases pc with
  | done => exact ⟨rfl, h.2⟩
  | panicked => exact absurd h id
  | _ =>
    have hnot : g.writerDone = false := h.1.2
    rw [hdone] at hnot
    cases hnot

/-- the writer of a reached moment -/
theorem Reached.writer (h : Reached checks churn shape readers ticksPerReader table s)
    (hfits : Fits shape readers ticksPerReader)
    (hholds : (churnOutline checks churn hfits).Holds (start churn readers table)) :
    ∃ w, s.locals (some none) = .writer w ∧ WriterInv shape churn s.shared w := by
  have hloc := h.inv hfits hholds (some none)
  cases ha : s.locals (some none) with
  | writer w =>
    rw [ha] at hloc
    exact ⟨w, rfl, hloc⟩
  | main pc =>
    rw [ha] at hloc
    exact absurd hloc id
  | reader r =>
    rw [ha] at hloc
    exact absurd hloc id

/-- the main thread of a reached moment -/
theorem Reached.main (h : Reached checks churn shape readers ticksPerReader table s)
    (hfits : Fits shape readers ticksPerReader)
    (hholds : (churnOutline checks churn hfits).Holds (start churn readers table)) :
    ∃ pc, s.locals none = .main pc ∧ MainInv readers ticksPerReader s.shared pc := by
  have hloc := h.inv hfits hholds none
  cases ha : s.locals none with
  | main pc =>
    rw [ha] at hloc
    exact ⟨pc, rfl, hloc⟩
  | writer w =>
    rw [ha] at hloc
    exact absurd hloc id
  | reader r =>
    rw [ha] at hloc
    exact absurd hloc id

/-- once `readers` have returned, each of them has -/
theorem Reached.all_done (h : Reached checks churn shape readers ticksPerReader table s)
    (hfinished : readers ≤ s.shared.finished) {i : Fin readers} {r : Reader}
    (hr : s.locals (some (some i)) = .reader r) :
    r.pc = .done := by
  have hzero : ∑ t, unfinished t (s.locals t) = 0 := by
    have := h.finished
    omega
  have hone := Finset.sum_eq_zero_iff.1 hzero (some (some i)) (Finset.mem_univ _)
  rw [hr] at hone
  cases hpc : r.pc with
  | done => rfl
  | _ => simp [unfinished, ReaderPc.isDone, hpc] at hone

/-- when the main thread has read the counters, nobody is left to change them -/
theorem Reached.quiet (h : Reached checks churn shape readers ticksPerReader table s)
    (hfits : Fits shape readers ticksPerReader)
    (hholds : (churnOutline checks churn hfits).Holds (start churn readers table))
    {outcome : Outcome} (hdone : s.locals none = .main (.done outcome)) (t : Option (Option (Fin readers))) :
    step checks shape readers ticksPerReader t s.shared (s.locals t) = none := by
  obtain ⟨pc, hpc, hmain⟩ := h.main hfits hholds
  rw [hdone] at hpc
  cases hpc
  obtain ⟨-, hfinished, -, hwriterDone, -⟩ := hmain
  match t with
  | none =>
    rw [hdone]
    rfl
  | some none =>
    obtain ⟨w, hw, hwriter⟩ := h.writer hfits hholds
    rw [hw]
    simp [step, writerStep, (hwriter.ended hwriterDone).1]
  | some (some i) =>
    obtain ⟨r, hr, -⟩ := h.reader hfits hholds i
    rw [hr]
    simp [step, readerStep, h.all_done hfinished hr]

/-- the outcome is what the counters are from then on -/
theorem Reached.settled (h : Reached checks churn shape readers ticksPerReader table s)
    (hfits : Fits shape readers ticksPerReader)
    (hholds : (churnOutline checks churn hfits).Holds (start churn readers table))
    {outcome : Outcome} (hdone : s.locals none = .main (.done outcome)) :
    outcome.missed = s.shared.missed ∧ outcome.churned = s.shared.churned := by
  obtain ⟨sched, rfl⟩ := h
  refine (run_inv (fun s => Reached checks churn shape readers ticksPerReader table s ∧
      ∀ outcome, s.locals none = .main (.done outcome) →
        outcome.missed = s.shared.missed ∧ outcome.churned = s.shared.churned)
    (fun s t g a hs ht => ⟨hs.1.after ht, fun outcome hdone => ?_⟩) _
    ⟨⟨[], rfl⟩, fun outcome hdone => by cases hdone⟩ sched).2 outcome hdone
  dsimp only at hdone ⊢
  match t with
  | none =>
    rw [Function.update_self] at hdone
    subst hdone
    cases ha : s.locals none with
    | main pc =>
      rw [ha] at ht
      obtain ⟨⟨g₁, pc'⟩, hstep, hr⟩ := Option.map_eq_some_iff.1 ht
      cases hr
      cases pc with
      | joinWriter =>
        simp only [mainStep] at hstep
        split_ifs at hstep
        split at hstep
        · cases hstep
        · cases hstep
          exact ⟨rfl, rfl⟩
      | joinReaders =>
        simp only [mainStep] at hstep
        split_ifs at hstep
        cases hstep
      | _ => cases hstep
    | writer w =>
      rw [ha] at ht
      cases ht
    | reader r =>
      rw [ha] at ht
      cases ht
  | some u =>
    rw [Function.update_of_ne (by simp)] at hdone
    rw [hs.1.quiet hfits hholds hdone] at ht
    cases ht

/-! ## Every run can be finished -/

def Agent.Done : Agent → Prop
  | .main (.done _) => True
  | .writer w => w.pc = .done
  | .reader r => r.pc = .done
  | _ => False

/-- the system with the writer held back until it is told to stop -/
def heldBack (checks : Bool) (shape : Shape) (readers : ℕ) (ticksPerReader : UInt64)
    (t : Option (Option (Fin readers))) (g : Shared) (a : Agent) : Option (Shared × Agent) :=
  if t = some none ∧ g.stop = false then none else step checks shape readers ticksPerReader t g a

/-- an upper bound on the steps of a thread that are left -/
def work (ticksPerReader : UInt64) : Agent → ℕ
  | .main pc =>
    match pc with
    | .go => 4
    | .joinReaders => 3
    | .stop => 2
    | .joinWriter => 1
    | .done _ | .panicked => 0
  | .writer w =>
    match w.pc with
    | .spin => 6
    | .remove => 5
    | .create => 4
    | .insert => 3
    | .count => 2
    | .check => 1
    | .done | .panicked => 0
  | .reader r =>
    match r.pc with
    | .spin => 3 * ticksPerReader.toNat + 3
    | .tick => ticksPerReader.toNat - r.turn + 2
    | .pin before => 3 * (ticksPerReader.toNat - before.toNat) + 2
    | .batch before thisBatch left => 3 * (ticksPerReader.toNat - (before + thisBatch).toNat) + left + 3
    | .addMissed => 1
    | .done | .panicked => 0

theorem heldBack_work (hfits : Fits shape readers ticksPerReader) {t : Option (Option (Fin readers))}
    {g g' : Shared} {a a' : Agent} (ha : AgentInv checks shape churn ticksPerReader t g a)
    (hs : heldBack checks shape readers ticksPerReader t g a = some (g', a')) :
    work ticksPerReader a' < work ticksPerReader a := by
  unfold heldBack at hs
  split_ifs at hs with hheld
  match t, a with
  | none, .main pc =>
    obtain ⟨⟨g₁, pc'⟩, hstep, hr⟩ := Option.map_eq_some_iff.1 hs
    cases hr
    cases pc with
    | go | stop => cases hstep; simp only [work]; omega
    | joinReaders =>
      simp only [mainStep] at hstep
      split_ifs at hstep
      cases hstep
      simp only [work]
      omega
    | joinWriter =>
      simp only [mainStep] at hstep
      split_ifs at hstep
      split at hstep <;> cases hstep <;> simp only [work] <;> omega
    | done outcome => cases hstep
    | panicked => cases hstep
  | some none, .writer w =>
    have hstop : g.stop = true := by simpa using hheld
    obtain ⟨⟨g₁, w'⟩, hstep, hr⟩ := Option.map_eq_some_iff.1 hs
    cases hr
    obtain ⟨pc, rng⟩ := w
    cases pc with
    | spin =>
      simp only [writerStep] at hstep
      split_ifs at hstep
      cases hstep
      simp only [work]
      omega
    | check =>
      simp only [writerStep, hstop, if_true] at hstep
      cases hstep
      simp only [work]
      omega
    | remove | create | count => cases hstep; simp only [work]; omega
    | insert =>
      simp only [writerStep] at hstep
      split at hstep <;> cases hstep <;> simp only [work] <;> omega
    | done => cases hstep
    | panicked => cases hstep
  | some (some i), .reader r =>
    obtain ⟨⟨g₁, r'⟩, hstep, hr⟩ := Option.map_eq_some_iff.1 hs
    cases hr
    obtain ⟨pc, rng, turn, log⟩ := r
    have hposition : pc.At shape ticksPerReader turn := ha.position
    cases pc with
    | spin =>
      simp only [readerStep] at hstep
      split_ifs at hstep
      split at hstep <;> cases hstep <;> simp only [work, UInt64.toNat_zero] <;> omega
    | tick =>
      simp only [readerStep] at hstep
      split_ifs at hstep with hlt
      · cases hstep
        rcases tickStep_cases checks shape (UInt64.ofNat i) g ⟨.tick, rng, turn, log⟩ .tick with
          ⟨log', rng', htick⟩ | htick
        · simp only [htick, work]
          omega
        · simp only [htick, work]
          omega
      · cases hstep
        simp only [work]
        omega
    | pin before =>
      simp only [readerStep] at hstep
      split_ifs at hstep with hlt
      · cases hstep
        have hthis := thisBatch_toNat shape.batch hlt
        have hnext := done_add_toNat shape.batch hlt
        have hbatch := UInt64.le_iff_toNat_le.1 (hfits.batch hposition.1)
        rw [UInt64.lt_iff_toNat_lt] at hlt
        rw [UInt64.toNat_one] at hbatch
        simp only [work]
        omega
      · cases hstep
        simp only [work]
        omega
    | batch before thisBatch left =>
      cases left with
      | zero =>
        cases hstep
        simp only [work]
        omega
      | succ left =>
        cases hstep
        rcases tickStep_cases checks shape (UInt64.ofNat i) g ⟨.batch before thisBatch (left + 1), rng, turn, log⟩
          (.batch before thisBatch left) with ⟨log', rng', htick⟩ | htick
        · simp only [htick, work]
          omega
        · simp only [htick, work]
          omega
    | addMissed => cases hstep; simp only [work]; omega
    | done => cases hstep
    | panicked => cases hstep

/-- a reader that has not returned can go on -/
theorem reader_moves {g : Shared} {i : Fin readers} {r : Reader} (hgo : g.go = true)
    (hrunning : r.pc ≠ .panicked) (hdone : r.pc ≠ .done) :
    step checks shape readers ticksPerReader (some (some i)) g (.reader r) ≠ none := by
  obtain ⟨pc, rng, turn, log⟩ := r
  simp only [step, ne_eq, Option.map_eq_none_iff]
  cases pc with
  | spin =>
    simp only [readerStep, hgo, if_true]
    split <;> simp
  | tick =>
    simp only [readerStep]
    split_ifs <;> simp
  | pin before =>
    simp only [readerStep]
    split_ifs <;> simp
  | batch before thisBatch left => cases left <;> simp [readerStep]
  | addMissed => simp [readerStep]
  | done => exact absurd rfl hdone
  | panicked => exact absurd rfl hrunning

/-- and so can the writer -/
theorem writer_moves {g : Shared} {w : Writer} (hgo : g.go = true) (hw : WriterInv shape churn g w)
    (hdone : w.pc ≠ .done) : step checks shape readers ticksPerReader (some none) g (.writer w) ≠ none := by
  obtain ⟨pc, rng⟩ := w
  simp only [step, ne_eq, Option.map_eq_none_iff]
  cases pc with
  | spin => simp [writerStep, hgo]
  | check =>
    simp only [writerStep]
    split_ifs <;> simp
  | insert =>
    simp only [writerStep]
    split <;> simp
  | remove | create | count => simp [writerStep]
  | done => exact absurd rfl hdone
  | panicked => exact absurd hw id

/-- while a thread has not finished, one that is not held back can go on -/
theorem heldBack_moves (h : Reached checks churn shape readers ticksPerReader table s)
    (hfits : Fits shape readers ticksPerReader)
    (hholds : (churnOutline checks churn hfits).Holds (start churn readers table))
    (hleft : ∃ t, ¬ (s.locals t).Done) :
    ∃ t, heldBack checks shape readers ticksPerReader t s.shared (s.locals t) ≠ none := by
  obtain ⟨pc, hpc, hmain⟩ := h.main hfits hholds
  obtain ⟨w, hw, hwriter⟩ := h.writer hfits hholds
  cases pc with
  | go | stop => exact ⟨none, by rw [hpc]; simp [heldBack, step, mainStep]⟩
  | joinReaders =>
    by_cases hfinished : s.shared.finished = readers
    · exact ⟨none, by rw [hpc]; simp [heldBack, step, mainStep, hfinished]⟩
    · -- some reader has still to return
      obtain ⟨t, -, ht⟩ : ∃ t ∈ Finset.univ, unfinished t (s.locals t) ≠ 0 := by
        refine Finset.exists_ne_zero_of_sum_ne_zero fun hzero => hfinished ?_
        have := h.finished
        omega
      obtain _ | _ | i := t
      · exact absurd rfl ht
      · exact absurd rfl ht
      · obtain ⟨r, hr, hreader⟩ := h.reader hfits hholds i
        refine ⟨some (some i), ?_⟩
        rw [hr] at ht ⊢
        rw [heldBack, if_neg (by simp)]
        refine reader_moves hmain (fun hpc => ?_) fun hpc => ht ?_
        · have hposition := hreader.position
          rw [hpc] at hposition
          exact hposition
        · simp [unfinished, ReaderPc.isDone, hpc]
  | joinWriter =>
    obtain ⟨hgo, -, hstop⟩ := hmain
    by_cases hwriterDone : s.shared.writerDone = true
    · refine ⟨none, ?_⟩
      rw [hpc]
      simp only [heldBack, step, mainStep, hwriterDone, if_true, reduceCtorEq, false_and, if_false]
      split <;> simp
    · refine ⟨some none, ?_⟩
      rw [hw, heldBack, if_neg (by simp [hstop])]
      refine writer_moves hgo hwriter fun hdone => hwriterDone ?_
      unfold WriterInv at hwriter
      rw [hdone] at hwriter
      exact hwriter.1
  | done outcome =>
    obtain ⟨-, hfinished, -, hwriterDone, -⟩ := hmain
    obtain ⟨t, ht⟩ := hleft
    obtain _ | _ | i := t
    · rw [hpc] at ht
      exact absurd trivial ht
    · rw [hw] at ht
      exact absurd (hwriter.ended hwriterDone).1 ht
    · obtain ⟨r, hr, -⟩ := h.reader hfits hholds i
      rw [hr] at ht
      exact absurd (h.all_done hfinished hr) ht
  | panicked => exact absurd hmain id

/-- **The run can end.** -/
theorem run_finishes_under_churn (h : Reached checks churn shape readers ticksPerReader table s)
    (hfits : Fits shape readers ticksPerReader)
    (hholds : (churnOutline checks churn hfits).Holds (start churn readers table)) :
    ∃ sched outcome, (run (step checks shape readers ticksPerReader) s sched).locals none = .main (.done outcome) := by
  have hsub : ∀ (t : Option (Option (Fin readers))) g a r, heldBack checks shape readers ticksPerReader t g a = some r →
      step checks shape readers ticksPerReader t g a = some r := by
    intro t g a r hs
    unfold heldBack at hs
    split_ifs at hs
    exact hs
  obtain ⟨sched, hdone⟩ := run_finishes (Reached checks churn shape readers ticksPerReader table) Agent.Done
    (work ticksPerReader) (fun s t g a hs ht => hs.after (hsub _ _ _ _ ht))
    (fun s t g a hs ht => heldBack_work hfits (hs.inv hfits hholds t) ht)
    (fun s hs hleft => heldBack_moves hs hfits hholds hleft) s h
  obtain ⟨sched', hrun⟩ := run_restrict hsub s sched
  have hreached : Reached checks churn shape readers ticksPerReader table
      (run (step checks shape readers ticksPerReader) s sched') := by
    obtain ⟨before, rfl⟩ := h
    exact ⟨before ++ sched', (run_append _ _ _ _).symm⟩
  obtain ⟨pc, hpc, -⟩ := hreached.main hfits hholds
  have hend := hdone none
  rw [← hrun, hpc] at hend
  cases pc with
  | done outcome => exact ⟨sched', outcome, hpc⟩
  | _ => exact absurd hend id

/-- the last partition at any moment -/
theorem Reached.last (h : Reached checks churn shape readers ticksPerReader table s)
    (hfits : Fits shape readers ticksPerReader)
    (hholds : (churnOutline checks churn hfits).Holds (start churn readers table)) {partition : Partition}
    (hpartition : s.shared.table[lastSymbol shape]? = some partition) :
    Filled shape.rowsPerPartition.toNat partition ∨ partition = ∅ ∨ Single shape partition := by
  have hsame : ∀ {P : Partition → Prop}, (∃ p, s.shared.table[lastSymbol shape]? = some p ∧ P p) → P partition := by
    rintro P ⟨p, hp, hP⟩
    rw [hpartition] at hp
    cases hp
    exact hP
  have hlast : LastOk shape s.shared → Filled shape.rowsPerPartition.toNat partition ∨ partition = ∅ ∨
      Single shape partition := by
    intro hok
    unfold LastOk at hok
    split_ifs at hok
    · exact Or.inl (hsame hok)
    · exact Or.inr (Or.inr (hsame hok))
  obtain ⟨⟨pc, rng⟩, -, hwriter⟩ := h.writer hfits hholds
  cases pc with
  | spin | check | remove | done => exact hlast hwriter.2
  | create =>
    have hnone := hwriter.2
    rw [hpartition] at hnone
    cases hnone
  | insert => exact Or.inr (Or.inl (Option.some_inj.1 (hpartition.symm.trans hwriter.2)))
  | count => exact Or.inr (Or.inr (hsame hwriter.2))
  | panicked => exact absurd hwriter id

/-- what has been drawn and missed when the main thread is done -/
theorem Reached.logs (h : Reached checks churn shape readers ticksPerReader table s)
    (hfits : Fits shape readers ticksPerReader)
    (hholds : (churnOutline checks churn hfits).Holds (start churn readers table))
    (hfinished : readers ≤ s.shared.finished) :
    ∃ (log : Fin readers → Log) (rng : Fin readers → Rng),
      (∀ i, Drawn checks shape churn (UInt64.ofNat i.val) ticksPerReader.toNat (rng i) (log i)) ∧
        s.shared.missed = ∑ i, (log i).missed := by
  choose r hr hreader using h.reader hfits hholds
  have hdone : ∀ i, (r i).pc = .done := fun i => h.all_done hfinished (hr i)
  refine ⟨fun i => (r i).log, fun i => (r i).rng, fun i => ?_, ?_⟩
  · have hdrawn := (hreader i).drawn
    have hposition := (hreader i).position
    rw [hdone i] at hposition
    rwa [show (r i).turn = ticksPerReader.toNat from hposition] at hdrawn
  · have hmissed := h.missed
    rw [Fintype.sum_option, Fintype.sum_option] at hmissed
    have howed : ∀ i : Fin readers, owed (some (some i)) (s.locals (some (some i))) = -((r i).log.missed : ℤ) := by
      intro i
      rw [hr i]
      simp [owed, hdone i, ReaderPc.isDone]
    rw [owed_main, owed_writer, Finset.sum_congr rfl fun i _ => howed i, Finset.sum_neg_distrib] at hmissed
    zify
    omega

end Run

/-- the readers of the hot symbol ask for nothing else -/
theorem hot_requests {checks : Bool} {shape : Shape} {reader : UInt64} (hhot : shape.spread = .hot) {n : ℕ}
    {rng rng' : Rng} {requests : List Request}
    (h : ((List.range n).mapM fun _ => nextTick checks shape reader).run rng = some (requests, rng')) :
    ∀ r ∈ requests, r.1 = 0 := by
  obtain ⟨hlen, hall⟩ := run_mapM_range n h
  intro r hr
  obtain ⟨i, hi, rfl⟩ := List.mem_iff_getElem.1 hr
  obtain ⟨-, t, b, t', -, htick, hb, -⟩ := hall i (by omega)
  rw [List.getElem?_eq_getElem hi, Option.some_inj] at hb
  rw [hb]
  unfold nextTick nextSymbol at htick
  rw [hhot] at htick
  obtain ⟨symbol, t₁, hsymbol, htick⟩ := run_bind_some htick
  cases hsymbol
  obtain ⟨id, t₂, -, htick⟩ := run_bind_some htick
  cases htick
  rfl

/-- **Every tick is accounted for.** At every moment of every interleaving all partitions but the last are full, and the
last one is as it was populated, or the writer is at work on it. Every run can end, and when it has, each reader has
requested the ticks it draws from its own generator; the misses reported are those of the readers, at most the requests
for the last symbol, and none without a writer or where the readers ask for the first of several symbols. -/
theorem run_accounts (checks churn : Bool) (shape : Shape) (readers : ℕ) (ticksPerReader : UInt64)
    (hpartitions : 1 ≤ shape.partitions) (hrows : 1 ≤ shape.rowsPerPartition)
    (hbatch : shape.routing = .pinned → 1 ≤ shape.batch) (hreaders : readers + shape.partitions.toNat ≤ 2 ^ 64)
    (hticks : ticksPerReader.toNat * readers < 2 ^ 64) :
    ∃ table, populate shape = some table ∧ (∀ symbol ∈ table, symbol < shape.partitions) ∧
      (∀ symbol < shape.partitions, Full shape table symbol) ∧ ∀ sched,
      let s := run (step checks shape readers ticksPerReader) (start churn readers table) sched
      (∀ symbol < shape.partitions, symbol ≠ lastSymbol shape → Full shape s.shared.table symbol) ∧
      (∀ partition, s.shared.table[lastSymbol shape]? = some partition →
        Filled shape.rowsPerPartition.toNat partition ∨ partition = ∅ ∨ Single shape partition) ∧
      (∃ more outcome, (run (step checks shape readers ticksPerReader) s more).locals none = .main (.done outcome)) ∧
      ∀ outcome, s.locals none = .main (.done outcome) →
        outcome.ticks.toNat = ticksPerReader.toNat * readers ∧ LastOk shape s.shared ∧
        outcome.churned = s.shared.churned ∧ (churn = false → outcome.churned = 0) ∧
        ∃ log : Fin readers → Log,
          (∀ i : Fin readers, ∃ rng, ((List.range ticksPerReader.toNat).mapM
            fun _ => nextTick checks shape (UInt64.ofNat i.val)).run (Rng.new (UInt64.ofNat i.val + 1)) =
              some ((log i).requests, rng)) ∧
          outcome.missed = ∑ i, (log i).missed ∧
          (∀ i, (log i).missed ≤ (log i).requests.countP fun r => r.1 = lastSymbol shape) ∧
          (churn = false ∨ shape.spread = .hot ∧ 2 ≤ shape.partitions → outcome.missed = 0) := by
  have hfits : Fits shape readers ticksPerReader := ⟨hpartitions, hrows, hbatch, hreaders, hticks⟩
  obtain ⟨table, htable, hwithin, hfull⟩ := populate_some shape
  refine ⟨table, htable, hwithin, hfull, fun sched => ?_⟩
  have hholds := start_holds checks churn hfits hwithin hfull
  intro s
  have hreached : Reached checks churn shape readers ticksPerReader table s := ⟨sched, rfl⟩
  have hshared : SharedInv shape churn s.shared := ((churnOutline checks churn hfits).run _ hholds sched).1
  refine ⟨hshared.others, fun partition => hreached.last hfits hholds, run_finishes_under_churn hreached hfits hholds,
    fun outcome hdone => ?_⟩
  obtain ⟨pc, hpc, hmain⟩ := hreached.main hfits hholds
  rw [hdone] at hpc
  cases hpc
  obtain ⟨-, hfinished, -, hwriterDone, hvalue⟩ := hmain
  obtain ⟨w, -, hwriter⟩ := hreached.writer hfits hholds
  obtain ⟨log, rng, hdrawn, hsum⟩ := hreached.logs hfits hholds hfinished
  obtain ⟨hmissed, hchurned⟩ := hreached.settled hfits hholds hdone
  refine ⟨hvalue, (hwriter.ended hwriterDone).2, hchurned, fun hchurn => hchurned.trans (hshared.still hchurn).1, log,
    fun i => ⟨rng i, (hdrawn i).draws⟩, hmissed.trans hsum, fun i => (hdrawn i).missed, fun hquiet => ?_⟩
  rw [hmissed, hsum]
  refine Finset.sum_eq_zero fun i _ => ?_
  rcases hquiet with hchurn | ⟨hhot, htwo⟩
  · exact (hdrawn i).still hchurn
  · -- the first symbol is not the last one
    have hne : lastSymbol shape ≠ 0 := by
      have htwo : 2 ≤ shape.partitions.toNat := UInt16.le_iff_toNat_le.1 htwo
      intro hzero
      have hlast := congrArg UInt16.toNat hzero
      rw [lastSymbol, UInt16.toNat_sub_of_le _ _ hpartitions, UInt16.toNat_one, UInt16.toNat_zero] at hlast
      omega
    have hnone : (log i).requests.countP (fun r => r.1 = lastSymbol shape) = 0 := by
      rw [List.countP_eq_zero]
      intro r hr hlast
      exact hne ((of_decide_eq_true hlast).symm.trans (hot_requests hhot (hdrawn i).draws r hr))
    have hle := (hdrawn i).missed
    rw [hnone] at hle
    exact Nat.le_zero.1 hle

/-- batches of two ticks of the hot symbol: with the writer running, no tick is missed -/
theorem run_accounts_hot : ∃ table, populate ⟨2, 3, .pinned, .hot, 2⟩ = some table ∧ ∀ sched,
    (∃ more outcome, (run (step true ⟨2, 3, .pinned, .hot, 2⟩ 4 5) (run (step true ⟨2, 3, .pinned, .hot, 2⟩ 4 5)
      (start true 4 table) sched) more).locals none = .main (.done outcome)) ∧
    ∀ outcome, (run (step true ⟨2, 3, .pinned, .hot, 2⟩ 4 5) (start true 4 table) sched).locals none =
      .main (.done outcome) → outcome.ticks.toNat = 20 ∧ outcome.missed = 0 := by
  obtain ⟨table, htable, -, -, hruns⟩ :=
    run_accounts true true ⟨2, 3, .pinned, .hot, 2⟩ 4 5 (by decide) (by decide) (by decide) (by decide) (by decide)
  refine ⟨table, htable, fun sched => ?_⟩
  obtain ⟨-, -, hfinish, hend⟩ := hruns sched
  refine ⟨hfinish, fun outcome hdone => ?_⟩
  obtain ⟨hticks, -, -, -, log, -, -, -, hmissed⟩ := hend outcome hdone
  exact ⟨hticks, hmissed (Or.inr ⟨rfl, by decide⟩)⟩

end WtBenchmarks.PartitionTicks
