/-
The `write_set` label of a contention cell (`Mode::write_set`, `campaigns/contention/src/bin/contention-paper.rs`).

A worker increments one field of its row; which ones depends on two remainders. The label is a constant of the mode.

- `rows_unchanged`: a step changes no other cells than those its worker increments.
- `writes_disjoint_iff`: for how many workers the increments stay apart.
- `writeSet_truthful_iff`: when a cell labelled `disjoint` is one.
-/
import WtBenchmarks.Contention.Paper

namespace WtBenchmarks.ContentionPaper

open Threads

/-- `Mode::write_set` -/
def Mode.writeSet : Mode → String
  | .fieldGranular => "disjoint"
  | .overlap => "overlapping"
  | .wholeRow => "overlapping"
  | .singleMutex => "disjoint"

/-- a field of a hot row -/
abbrev Place (args : Args) := Fin args.hotRows × Fin contentionFields

/-- what one operation of a worker increments -/
def writes (args : Args) (worker : ℕ) : Finset (Place args) :=
  (target args.mode worker).image fun f => (rowOf args worker, f)

theorem mem_writes {args : Args} {worker : ℕ} {p : Place args} :
    p ∈ writes args worker ↔ p.1 = rowOf args worker ∧ p.2 ∈ target args.mode worker := by
  unfold writes
  rw [Finset.mem_image]
  constructor
  · intro h
    obtain ⟨f, hf, rfl⟩ := h
    exact ⟨rfl, hf⟩
  · intro h
    exact ⟨p.2, h.2, Prod.ext h.1.symm rfl⟩

/-- the next step of the worker is an increment call -/
def Calling (args : Args) (w : Worker) : Prop :=
  w.pc = .locked ∨ w.pc = .next ∧ w.index < args.opsPerThread.toNat ∧ args.mode ≠ .singleMutex

section Cell

variable {args : Args} {table : Oracle args} {rows : Rows args}

/-! ## What a step changes -/

theorem incrementRow_unchanged {old new : Rows args} {row : Fin args.hotRows} {times : Fin contentionFields → ℕ}
    (h : incrementRow old row times = some new) {p : Place args} (hp : p.1 = row → times p.2 = 0) :
    new p.1 p.2 = old p.1 p.2 := by
  unfold incrementRow increment at h
  split_ifs at h
  · cases h
    by_cases hrow : p.1 = row
    · rw [hrow, Function.update_self, hp hrow]
      exact UInt64.add_zero _
    · rw [Function.update_of_ne hrow]
  · cases h

theorem operate_unchanged {t : Fin args.threads} {g : Shared args} {w : Worker} {p : Place args}
    (hp : p ∉ writes args t) : (operate table t g w).1.rows p.1 p.2 = g.rows p.1 p.2 := by
  unfold operate
  cases hrows : incrementRow g.rows (rowOf args t) (arriving (target args.mode t) (table t w.index)) with
  | none => rfl
  | some new =>
    have hcell : new p.1 p.2 = g.rows p.1 p.2 := by
      refine incrementRow_unchanged hrows fun hrow => if_neg fun hf => hp ?_
      exact mem_writes.2 ⟨hrow, hf⟩
    dsimp only
    split_ifs
    · exact hcell
    · exact hcell

/-- **A step changes what its worker increments**, and this only when it calls. -/
theorem rows_unchanged {t : Fin args.threads} {g g' : Shared args} {w w' : Worker}
    (hstep : workerStep table t g w = some (g', w')) {p : Place args} (hp : Calling args w → p ∉ writes args t) :
    g'.rows p.1 p.2 = g.rows p.1 p.2 := by
  cases hpc : w.pc with
  | next =>
    simp only [workerStep, hpc] at hstep
    split_ifs at hstep with hindex hmode hlock
    · cases hstep
      rfl
    · have hrows := congrArg (fun r => r.1.rows p.1 p.2) (Option.some.inj hstep)
      exact hrows.symm.trans (operate_unchanged (hp (Or.inr ⟨hpc, hindex, hmode⟩)))
    · cases hstep
      rfl
  | locked =>
    simp only [workerStep, hpc] at hstep
    have hrows := congrArg (fun r => r.1.rows p.1 p.2) (Option.some.inj hstep)
    exact hrows.symm.trans (operate_unchanged (hp (Or.inl hpc)))
  | finished => simp [workerStep, hpc] at hstep
  | panicked => simp [workerStep, hpc] at hstep

/-! ## Targets -/

/-- after how many workers the rows come round again -/
def rowPeriod (args : Args) : ℕ := if args.mode = .fieldGranular then args.hotRows else 1

/-- how many workers have different targets in a mode labelled `disjoint` -/
def separate (args : Args) : ℕ := Nat.lcm (rowPeriod args) contentionFields

theorem separate_pos (args : Args) : 0 < separate args := by
  refine Nat.lcm_pos ?_ (by decide)
  unfold rowPeriod
  split_ifs
  · exact args.hotRows_pos
  · exact Nat.zero_lt_one

theorem rowOf_eq_iff {i j : ℕ} : rowOf args i = rowOf args j ↔ i ≡ j [MOD rowPeriod args] := by
  unfold rowPeriod
  split_ifs with hmode
  · simp only [rowOf, hmode, Fin.mk.injEq]
    rfl
  · have hzero : ∀ k, rowOf args k = ⟨0, args.hotRows_pos⟩ := by
      intro k
      unfold rowOf
      split
      · exact absurd ‹_› hmode
      · rfl
    rw [hzero, hzero]
    exact iff_of_true rfl (Nat.modEq_one)

theorem disjointField_eq_iff {i j : ℕ} : disjointField i = disjointField j ↔ i ≡ j [MOD contentionFields] := by
  rw [disjointField, disjointField, Fin.mk.injEq]
  rfl

theorem writes_eq (hlabel : args.mode.writeSet = "disjoint") (worker : ℕ) :
    writes args worker = {(rowOf args worker, disjointField worker)} := by
  unfold writes target
  cases hmode : args.mode with
  | fieldGranular => exact Finset.image_singleton _ _
  | singleMutex => exact Finset.image_singleton _ _
  | overlap => simp [hmode, Mode.writeSet] at hlabel
  | wholeRow => simp [hmode, Mode.writeSet] at hlabel

/-- two workers share a target exactly if their numbers agree modulo `separate` -/
theorem writes_meet (hlabel : args.mode.writeSet = "disjoint") (i j : ℕ) :
    (∃ p, p ∈ writes args i ∧ p ∈ writes args j) ↔ i ≡ j [MOD separate args] := by
  have hsplit : i ≡ j [MOD separate args] ↔ i ≡ j [MOD rowPeriod args] ∧ i ≡ j [MOD contentionFields] := by
    constructor
    · intro h
      exact ⟨h.of_dvd (Nat.dvd_lcm_left _ _), h.of_dvd (Nat.dvd_lcm_right _ _)⟩
    · intro h
      exact Nat.mod_lcm h.1 h.2
  rw [hsplit, ← rowOf_eq_iff, ← disjointField_eq_iff, writes_eq hlabel, writes_eq hlabel]
  simp only [Finset.mem_singleton, exists_eq_left, Prod.mk.injEq]

/-- **For how many workers the targets stay apart.** -/
theorem writes_disjoint_iff (hlabel : args.mode.writeSet = "disjoint") :
    (∀ t u : Fin args.threads, t ≠ u → ∀ p ∈ writes args t, p ∉ writes args u) ↔ args.threads ≤ separate args := by
  constructor
  · intro h
    by_contra hlt
    have hpos := separate_pos args
    obtain ⟨p, h0, hsep⟩ := (writes_meet hlabel 0 (separate args)).2 (by simp [Nat.ModEq])
    refine h ⟨0, by omega⟩ ⟨separate args, by omega⟩ (fun heq => ?_) p h0 hsep
    have hval : 0 = separate args := congrArg Fin.val heq
    omega
  · intro h t u htu p ht hu
    have hmod := (writes_meet hlabel t u).1 ⟨p, ht, hu⟩
    exact htu (Fin.ext (hmod.eq_of_lt_of_lt (by omega) (by omega)))

/-! ## Runs -/

/-- at some moment of a run the worker is about to increment the field of the row -/
def Increments (table : Oracle args) (rows : Rows args) (sched : List (Fin args.threads)) (t : Fin args.threads)
    (p : Place args) : Prop :=
  ∃ pre post, sched = pre ++ t :: post ∧ Calling args ((runCell table rows pre).locals t) ∧ p ∈ writes args t

/-- no two distinct workers ever increment the same field of the same row -/
def StayApart (table : Oracle args) (rows : Rows args) : Prop :=
  ∀ sched t u p, t ≠ u → Increments table rows sched t p → ¬ Increments table rows sched u p

/-- a cell labelled `disjoint` is one -/
def LabelTruthful (table : Oracle args) (rows : Rows args) : Prop :=
  args.mode.writeSet = "disjoint" → StayApart table rows

/-- without operations nothing is incremented -/
theorem not_increments (hops : args.opsPerThread = 0) {sched : List (Fin args.threads)} {t : Fin args.threads}
    {p : Place args} : ¬ Increments table rows sched t p := by
  intro h
  obtain ⟨pre, post, -, hcalling, -⟩ := h
  have hpc : AllAtPc (runCell table rows pre) := run_inv AllAtPc allAtPc_step _ (allAtPc_start _) pre
  rcases hcalling with hlocked | ⟨-, hindex, -⟩
  · have hindex := (hpc t).locked hlocked
    rw [hops] at hindex
    exact Nat.not_lt_zero _ hindex
  · rw [hops] at hindex
    exact Nat.not_lt_zero _ hindex

/-- a worker with its operations still to make, whose mutex is free -/
structure Ready (s : State (Fin args.threads) (Shared args) Worker) (t : Fin args.threads) : Prop where
  start : s.locals t = ⟨0, 0, .next⟩
  free : s.shared.bigLock = none

/-- the turns of one operation -/
def opTurns (args : Args) (t : Fin args.threads) : List (Fin args.threads) :=
  if args.mode = .singleMutex then [t, t] else [t]

theorem operate_bigLock {t : Fin args.threads} {g : Shared args} {w : Worker} :
    (operate table t g w).1.bigLock = g.bigLock := by
  rcases operate_cases table t g w with hop | ⟨new, -, hop⟩
  · rw [hop]
  · rw [hop]
    split_ifs
    · rfl
    · rfl

/-- **One operation.** A ready worker comes to its call, and leaves the others ready. -/
theorem opTurns_calls (table : Oracle args) (hops : 0 < args.opsPerThread.toNat)
    {s : State (Fin args.threads) (Shared args) Worker} {t : Fin args.threads} (hs : Ready s t) :
    (∃ pre, opTurns args t = pre ++ [t] ∧ Calling args ((run (workerStep table) s pre).locals t)) ∧
      ∀ u, u ≠ t → Ready s u → Ready (run (workerStep table) s (opTurns args t)) u := by
  obtain ⟨hstart, hfree⟩ := hs
  have hothers : ∀ g w, g.bigLock = none → ∀ u, u ≠ t → Ready s u → Ready ⟨g, Function.update s.locals t w⟩ u :=
    fun g w hg u hu hready => ⟨(Function.update_of_ne hu w s.locals).trans hready.start, hg⟩
  by_cases hmode : args.mode = .singleMutex
  · have hlock : workerStep table t s.shared (s.locals t) =
        some ({ s.shared with bigLock := some t }, ⟨0, 0, .locked⟩) := by
      rw [hstart]
      simp [workerStep, hops, hmode, hfree]
    have hfirst := exec_some hlock
    set s' : State (Fin args.threads) (Shared args) Worker :=
      ⟨{ s.shared with bigLock := some t }, Function.update s.locals t ⟨0, 0, .locked⟩⟩ with hs'
    have hlocked : s'.locals t = ⟨0, 0, .locked⟩ := Function.update_self _ _ _
    rw [opTurns, if_pos hmode]
    refine ⟨⟨[t], rfl, ?_⟩, fun u hu hready => ?_⟩
    · rw [run_cons, hfirst, run_nil, hlocked]
      exact Or.inl rfl
    · have hop : workerStep table t s'.shared (s'.locals t) =
          some ({ (operate table t s'.shared ⟨0, 0, .locked⟩).1 with bigLock := none },
            (operate table t s'.shared ⟨0, 0, .locked⟩).2) := by
        rw [hlocked]
        rfl
      rw [run_cons, hfirst, run_cons, exec_some hop, run_nil, hs', Function.update_idem]
      exact hothers _ _ rfl u hu hready
  · have hop : workerStep table t s.shared (s.locals t) = some (operate table t s.shared ⟨0, 0, .next⟩) := by
      rw [hstart]
      simp [workerStep, hops, hmode]
    rw [opTurns, if_neg hmode]
    refine ⟨⟨[], rfl, ?_⟩, fun u hu hready => ?_⟩
    · rw [run_nil, hstart]
      exact Or.inr ⟨rfl, hops, hmode⟩
    · rw [run_cons, exec_some hop, run_nil]
      exact hothers _ _ (operate_bigLock.trans hfree) u hu hready

/-- two workers with a common target both reach it -/
theorem not_stayApart (hops : 0 < args.opsPerThread.toNat) {t u : Fin args.threads} (htu : t ≠ u) {p : Place args}
    (ht : p ∈ writes args t) (hu : p ∈ writes args u) : ¬ StayApart table rows := by
  intro h
  have hready : ∀ v, Ready (startCell rows) v := fun _ => ⟨rfl, rfl⟩
  obtain ⟨⟨pre, hpre, hcall⟩, hothers⟩ := opTurns_calls table hops (hready t)
  obtain ⟨⟨pre', hpre', hcall'⟩, -⟩ := opTurns_calls table hops (hothers u htu.symm (hready u))
  refine h (opTurns args t ++ opTurns args u) t u p htu ⟨pre, opTurns args u, ?_, hcall, ht⟩
    ⟨opTurns args t ++ pre', [], ?_, ?_, hu⟩
  · rw [hpre, List.append_assoc, List.singleton_append]
  · rw [hpre', List.append_assoc]
  · rw [runCell, run_append]
    exact hcall'

/-- **When the label is truthful.** A cell labelled `disjoint` has disjoint write sets exactly if it makes no
operations, or has no more workers than `separate`: the least common multiple of the number of hot rows and the number
of fields where workers have rows of their own, and the number of fields where they share one. -/
theorem writeSet_truthful_iff (args : Args) (table : Oracle args) (rows : Rows args) :
    LabelTruthful table rows ↔
      (args.mode.writeSet = "disjoint" → args.opsPerThread = 0 ∨ args.threads ≤ separate args) := by
  refine forall_congr' fun hlabel => ?_
  rw [← writes_disjoint_iff hlabel]
  constructor
  · intro h
    by_contra hnot
    push Not at hnot
    obtain ⟨hops, t, u, htu, p, ht, hu⟩ := hnot
    exact not_stayApart (toNat_pos_of_ne hops) htu ht hu h
  · intro h sched t u p htu ht hu
    rcases h with hops | hdisjoint
    · exact not_increments hops ht
    · obtain ⟨_, _, _, _, ht⟩ := ht
      obtain ⟨_, _, _, _, hu⟩ := hu
      exact hdisjoint t u htu p ht hu

end Cell

/-- sixteen workers behind one mutex, as in the default matrix, with two operations each -/
def sixteenBehindMutex : Args := ⟨.singleMutex, 16, 2, 0, none⟩

/-- workers 0 and 8 increment the same field of the shared row -/
theorem sixteenBehindMutex_collide :
    ¬ ∀ (args : Args) (table : Oracle args) (rows : Rows args), LabelTruthful table rows := by
  intro h
  have hmeet : ((⟨0, by decide⟩, ⟨0, by decide⟩) : Place sixteenBehindMutex) ∈ writes sixteenBehindMutex 0 ∧
      ((⟨0, by decide⟩, ⟨0, by decide⟩) : Place sixteenBehindMutex) ∈ writes sixteenBehindMutex 8 := by decide
  have hapart := h sixteenBehindMutex (fun _ _ => ⟨true, fun _ => 1⟩) (fun _ _ => 0) rfl
  exact not_stayApart (t := ⟨0, by decide⟩) (u := ⟨8, by decide⟩) (by decide) (by decide) hmeet.1 hmeet.2 hapart

end WtBenchmarks.ContentionPaper
