/-
Threads over one shared state, interleaved step by step.

A program gives each thread `t : T` one deterministic atomic step: from the shared state `g` and its own local state
`l` it moves to `(g', l')`, or it cannot move (`none`: finished, or blocked on a lock). `run` executes a schedule, any
list of thread names; a thread that cannot move loses its turn. A property of every schedule is a property of every
moment of every interleaving.

Rules:
- `run_inv`: what every step keeps, every run keeps;
- `Outline`: a thread-modular proof (rely and guarantee). A global assertion, one assertion per thread, and a
  guarantee per thread: a step establishes the first two again and stays within the guarantee, and no thread's
  assertion is disturbed by another thread's guarantee. `Outline.run` lifts it to all schedules;
- `GhostOutline.run`: the same with a ghost state beside the shared one;
- `Outline.run_rel`: a preorder on the shared state that every guarantee respects orders the moments of a run;
- `run_finishes_each`, `run_finishes`: if every step lowers its thread's measure and unfinished threads never block each
  other forever, then some continuation finishes every thread;
- `run_restrict`: holding threads back gives runs of the same system;
- `run_replicate_of_ne`: a thread that runs alone leaves the others where they are;
- `run_alone_finishes`: a thread that can always move, and whose steps lower its measure, finishes when it runs alone;
- `run_conserves`, `run_conserves_nat`, `run_conserves_mod`: a quantity that each step only moves between its thread and
  the shared state is conserved; `run_conserves_done` at the end of a run.
-/
import Mathlib.Algebra.BigOperators.Fin
import Mathlib.Algebra.BigOperators.Group.Finset.Basic
import Mathlib.Algebra.Order.BigOperators.Group.Finset
import Mathlib.Data.Fintype.Basic
import Mathlib.Data.ZMod.Basic
import Mathlib.Logic.Function.Basic

namespace WtBenchmarks.Threads

variable {T G L : Type}

/-- the shared state and every thread's local state -/
structure State (T G L : Type) where
  shared : G
  locals : T → L

section Run

variable [DecidableEq T] (step : T → G → L → Option (G × L))

/-- thread `t` takes its turn -/
def exec (s : State T G L) (t : T) : State T G L :=
  match step t s.shared (s.locals t) with
  | none => s
  | some (g, l) => ⟨g, Function.update s.locals t l⟩

/-- the run of a schedule -/
def run (s : State T G L) (sched : List T) : State T G L := sched.foldl (exec step) s

@[simp] theorem run_nil (s : State T G L) : run step s [] = s := rfl

theorem run_cons (s : State T G L) (t : T) (sched : List T) :
    run step s (t :: sched) = run step (exec step s t) sched := rfl

theorem run_append (s : State T G L) (a b : List T) : run step s (a ++ b) = run step (run step s a) b := by
  simp [run, List.foldl_append]

variable {step}

theorem exec_none {s : State T G L} {t : T} (h : step t s.shared (s.locals t) = none) : exec step s t = s := by
  simp [exec, h]

theorem exec_some {s : State T G L} {t : T} {g : G} {l : L} (h : step t s.shared (s.locals t) = some (g, l)) :
    exec step s t = ⟨g, Function.update s.locals t l⟩ := by
  simp [exec, h]

/-- **Invariant rule.** What every step keeps, every run keeps. -/
theorem run_inv (I : State T G L → Prop)
    (hstep : ∀ s t g l, I s → step t s.shared (s.locals t) = some (g, l) → I ⟨g, Function.update s.locals t l⟩)
    (s : State T G L) (h : I s) (sched : List T) : I (run step s sched) := by
  induction sched generalizing s with
  | nil => exact h
  | cons t sched ih =>
    apply ih
    cases ht : step t s.shared (s.locals t) with
    | none => rwa [exec_none ht]
    | some r => rw [exec_some ht]; exact hstep s t r.1 r.2 h ht

/-- a thread that runs alone leaves the others where they are -/
theorem run_replicate_of_ne (s : State T G L) {t u : T} (hu : u ≠ t) (n : ℕ) :
    (run step s (List.replicate n t)).locals u = s.locals u := by
  induction n generalizing s with
  | zero => rfl
  | succ n ih =>
    rw [List.replicate_succ, run_cons, ih]
    cases ht : step t s.shared (s.locals t) with
    | none => rw [exec_none ht]
    | some r =>
      rw [exec_some ht]
      exact Function.update_of_ne hu _ _

/-- **Restriction.** A run in which some threads may be held back is a run. -/
theorem run_restrict {step' : T → G → L → Option (G × L)}
    (hstep : ∀ t g l r, step' t g l = some r → step t g l = some r) (s : State T G L) (sched : List T) :
    ∃ sched', run step s sched' = run step' s sched := by
  induction sched generalizing s with
  | nil => exact ⟨[], rfl⟩
  | cons t sched ih =>
    obtain ⟨sched', hrun⟩ := ih (exec step' s t)
    cases ht : step' t s.shared (s.locals t) with
    | none =>
      rw [exec_none ht] at hrun
      exact ⟨sched', by rw [run_cons, exec_none ht, hrun]⟩
    | some r =>
      refine ⟨t :: sched', ?_⟩
      rw [run_cons, run_cons, ← hrun, exec_some ht, exec_some (hstep t _ _ r ht)]

end Run

/-! ## Thread-modular proofs -/

/-- a proof outline: what always holds of the shared state, what thread `t` knows, and what thread `t`'s steps may
do to the shared state -/
structure Outline (step : T → G → L → Option (G × L)) where
  Glob : G → Prop
  Loc : T → G → L → Prop
  Guar : T → G → G → Prop
  step_ok : ∀ t g l g' l', Glob g → Loc t g l → step t g l = some (g', l') → Glob g' ∧ Loc t g' l' ∧ Guar t g g'
  stable : ∀ t u g g' l, u ≠ t → Glob g → Guar t g g' → Loc u g l → Loc u g' l

namespace Outline

variable [DecidableEq T] {step : T → G → L → Option (G × L)} (O : Outline step)

/-- the outline holds in a state -/
def Holds (s : State T G L) : Prop := O.Glob s.shared ∧ ∀ t, O.Loc t s.shared (s.locals t)

theorem exec_holds (s : State T G L) (t : T) (g : G) (l : L) (h : O.Holds s)
    (ht : step t s.shared (s.locals t) = some (g, l)) : O.Holds ⟨g, Function.update s.locals t l⟩ := by
  obtain ⟨hg, hl⟩ := h
  obtain ⟨hg', ht', hguar⟩ := O.step_ok t _ _ g l hg (hl t) ht
  refine ⟨hg', fun u => ?_⟩
  by_cases hu : u = t
  · subst hu; simpa using ht'
  · simpa [Function.update_of_ne hu] using O.stable t u _ g _ hu hg hguar (hl u)

/-- **Modular rule.** An outline that holds at the start holds at every moment of every schedule. -/
theorem run (s : State T G L) (h : O.Holds s) (sched : List T) : O.Holds (Threads.run step s sched) :=
  run_inv O.Holds (fun s t g l hs ht => O.exec_holds s t g l hs ht) s h sched

/-- a preorder respected by every guarantee orders the moments of a run -/
theorem run_rel (R : G → G → Prop) (hrefl : ∀ g, R g g) (htrans : ∀ a b c, R a b → R b c → R a c)
    (hguar : ∀ t g g', O.Glob g → O.Guar t g g' → R g g') (s : State T G L) (h : O.Holds s) (sched : List T) :
    R s.shared (Threads.run step s sched).shared := by
  induction sched generalizing s with
  | nil => exact hrefl _
  | cons t sched ih =>
    rw [run_cons]
    cases ht : step t s.shared (s.locals t) with
    | none => rw [exec_none ht]; exact ih s h
    | some r =>
      rw [exec_some ht]
      have hguar' := (O.step_ok t _ _ r.1 r.2 h.1 (h.2 t) ht).2.2
      exact htrans _ _ _ (hguar t _ _ h.1 hguar') (ih _ (O.exec_holds s t r.1 r.2 h ht))

end Outline

/-! ## Proofs with a ghost state -/

/-- a proof outline whose assertions also speak of a ghost state: the program does not have it, and each step may
choose it anew -/
structure GhostOutline (Γ : Type) (step : T → G → L → Option (G × L)) where
  Glob : G → Γ → Prop
  Loc : T → G → Γ → L → Prop
  Guar : T → G → Γ → G → Γ → Prop
  step_ok : ∀ t g γ l g' l', Glob g γ → Loc t g γ l → step t g l = some (g', l') →
    ∃ γ', Glob g' γ' ∧ Loc t g' γ' l' ∧ Guar t g γ g' γ'
  stable : ∀ t u g γ g' γ' l, u ≠ t → Glob g γ → Guar t g γ g' γ' → Loc u g γ l → Loc u g' γ' l

namespace GhostOutline

variable [DecidableEq T] {Γ : Type} {step : T → G → L → Option (G × L)} (O : GhostOutline Γ step)

/-- the outline holds in a state, for some ghost state -/
def Holds (s : State T G L) : Prop := ∃ γ, O.Glob s.shared γ ∧ ∀ t, O.Loc t s.shared γ (s.locals t)

/-- **Modular rule.** An outline that holds at the start holds at every moment of every schedule. -/
theorem run (s : State T G L) (h : O.Holds s) (sched : List T) : O.Holds (Threads.run step s sched) := by
  refine run_inv O.Holds (fun s t g l hs ht => ?_) s h sched
  obtain ⟨γ, hg, hl⟩ := hs
  obtain ⟨γ', hg', ht', hguar⟩ := O.step_ok t _ γ _ g l hg (hl t) ht
  refine ⟨γ', hg', fun u => ?_⟩
  by_cases hu : u = t
  · subst hu
    simpa using ht'
  · simpa [Function.update_of_ne hu] using O.stable t u _ γ g γ' _ hu hg hguar (hl u)

end GhostOutline

/-! ## Finishing a run -/

/-- **Completion.** If every step lowers the measure of its own thread, and in every invariant state with an
unfinished thread some thread can move, then some continuation finishes every thread. -/
theorem run_finishes_each [Fintype T] [DecidableEq T] {step : T → G → L → Option (G × L)} (I : State T G L → Prop)
    (fin : T → L → Prop) (μ : T → L → ℕ)
    (hstep : ∀ s t g l, I s → step t s.shared (s.locals t) = some (g, l) → I ⟨g, Function.update s.locals t l⟩)
    (hμ : ∀ s t g l, I s → step t s.shared (s.locals t) = some (g, l) → μ t l < μ t (s.locals t))
    (hmove : ∀ s, I s → (∃ t, ¬ fin t (s.locals t)) → ∃ t, step t s.shared (s.locals t) ≠ none)
    (s : State T G L) (h : I s) : ∃ sched, ∀ t, fin t ((run step s sched).locals t) := by
  induction hn : ∑ t, μ t (s.locals t) using Nat.strong_induction_on generalizing s with
  | _ n ih =>
    by_cases hf : ∃ t, ¬ fin t (s.locals t)
    · obtain ⟨t, ht⟩ := hmove s h hf
      obtain ⟨⟨g, l⟩, hgl⟩ := Option.ne_none_iff_exists'.1 ht
      have hlt : ∑ u, μ u (Function.update s.locals t l u) < n := by
        rw [← hn]
        refine Finset.sum_lt_sum (fun u _ => ?_) ⟨t, Finset.mem_univ t, ?_⟩
        · by_cases hu : u = t
          · subst hu; simpa using (hμ _ _ _ _ h hgl).le
          · simp [Function.update_of_ne hu]
        · simpa using hμ _ _ _ _ h hgl
      obtain ⟨sched, hs⟩ := ih _ hlt ⟨g, Function.update s.locals t l⟩ (hstep s t g l h hgl) rfl
      exact ⟨t :: sched, by rw [run_cons, exec_some hgl]; exact hs⟩
    · exact ⟨[], fun t => by by_contra ht; exact hf ⟨t, ht⟩⟩

/-- completion where the threads' local states say when they are finished -/
theorem run_finishes [Fintype T] [DecidableEq T] {step : T → G → L → Option (G × L)} (I : State T G L → Prop)
    (fin : L → Prop) (μ : L → ℕ)
    (hstep : ∀ s t g l, I s → step t s.shared (s.locals t) = some (g, l) → I ⟨g, Function.update s.locals t l⟩)
    (hμ : ∀ s t g l, I s → step t s.shared (s.locals t) = some (g, l) → μ l < μ (s.locals t))
    (hmove : ∀ s, I s → (∃ t, ¬ fin (s.locals t)) → ∃ t, step t s.shared (s.locals t) ≠ none)
    (s : State T G L) (h : I s) : ∃ sched, ∀ t, fin ((run step s sched).locals t) :=
  run_finishes_each I (fun _ => fin) (fun _ => μ) hstep hμ hmove s h

/-- **Completion of one thread.** A thread that can move until it finishes, and whose steps lower its measure, finishes
when it is scheduled often enough. -/
theorem run_alone_finishes [DecidableEq T] {step : T → G → L → Option (G × L)} (I : State T G L → Prop) (t : T)
    (fin : L → Prop) (μ : L → ℕ)
    (hstep : ∀ s t g l, I s → step t s.shared (s.locals t) = some (g, l) → I ⟨g, Function.update s.locals t l⟩)
    (hmove : ∀ s, I s → ¬ fin (s.locals t) →
      ∃ g l, step t s.shared (s.locals t) = some (g, l) ∧ μ l < μ (s.locals t))
    (s : State T G L) (h : I s) : ∃ n, fin ((run step s (List.replicate n t)).locals t) := by
  induction hn : μ (s.locals t) using Nat.strong_induction_on generalizing s with
  | _ n ih =>
    by_cases hf : fin (s.locals t)
    · exact ⟨0, hf⟩
    · obtain ⟨g, l, hgl, hlt⟩ := hmove s h hf
      obtain ⟨m, hm⟩ := ih (μ l) (hn ▸ hlt) ⟨g, Function.update s.locals t l⟩ (hstep s t g l h hgl) (by simp)
      exact ⟨m + 1, by rw [List.replicate_succ, run_cons, exec_some hgl]; exact hm⟩

/-! ## Conserved quantities -/

/-- **Conservation.** If each step moves a quantity between its thread and the shared state, its sum over the shared
state and all threads never changes. A step may use what the sum is. -/
theorem run_conserves {M : Type} [AddCommMonoid M] [Fintype T] [DecidableEq T] {step : T → G → L → Option (G × L)}
    (I : State T G L → Prop) (F : G → M) (f : T → L → M) (total : M)
    (hstep : ∀ s t g l, I s → step t s.shared (s.locals t) = some (g, l) → I ⟨g, Function.update s.locals t l⟩)
    (hmove : ∀ s t g l, I s → F s.shared + ∑ u, f u (s.locals u) = total →
      step t s.shared (s.locals t) = some (g, l) → F g + f t l = F s.shared + f t (s.locals t))
    (s : State T G L) (h : I s) (htotal : F s.shared + ∑ t, f t (s.locals t) = total) (sched : List T) :
    F (run step s sched).shared + ∑ t, f t ((run step s sched).locals t) = total := by
  refine (run_inv (fun s => I s ∧ F s.shared + ∑ t, f t (s.locals t) = total) (fun s t g l hs ht => ?_) s
    ⟨h, htotal⟩ sched).2
  obtain ⟨hI, hsum⟩ := hs
  refine ⟨hstep s t g l hI ht, ?_⟩
  have hrest : ∀ u ∈ Finset.univ.erase t, f u (Function.update s.locals t l u) = f u (s.locals u) := by
    intro u hu
    rw [Function.update_of_ne (Finset.ne_of_mem_erase hu)]
  have hlocal := hmove s t g l hI hsum ht
  calc F g + ∑ u, f u (Function.update s.locals t l u)
      = F g + (f t l + ∑ u ∈ Finset.univ.erase t, f u (s.locals u)) := by
        rw [← Finset.add_sum_erase _ _ (Finset.mem_univ t), Finset.sum_congr rfl hrest, Function.update_self]
    _ = F s.shared + (f t (s.locals t) + ∑ u ∈ Finset.univ.erase t, f u (s.locals u)) := by
        rw [← add_assoc, hlocal, add_assoc]
    _ = F s.shared + ∑ u, f u (s.locals u) := by
        rw [Finset.add_sum_erase Finset.univ (fun u => f u (s.locals u)) (Finset.mem_univ t)]
    _ = total := hsum

/-- conservation of a number: a step may use that its own two parts do not exceed the sum -/
theorem run_conserves_nat [Fintype T] [DecidableEq T] {step : T → G → L → Option (G × L)} (I : State T G L → Prop)
    (F : G → ℕ) (f : T → L → ℕ) (total : ℕ)
    (hstep : ∀ s t g l, I s → step t s.shared (s.locals t) = some (g, l) → I ⟨g, Function.update s.locals t l⟩)
    (hmove : ∀ s t g l, I s → F s.shared + f t (s.locals t) ≤ total →
      step t s.shared (s.locals t) = some (g, l) → F g + f t l = F s.shared + f t (s.locals t))
    (s : State T G L) (h : I s) (htotal : F s.shared + ∑ t, f t (s.locals t) = total) (sched : List T) :
    F (run step s sched).shared + ∑ t, f t ((run step s sched).locals t) = total := by
  refine run_conserves I F f total hstep (fun s t g l hI hsum ht => hmove s t g l hI ?_ ht) s h htotal sched
  have hle : f t (s.locals t) ≤ ∑ u, f u (s.locals u) :=
    Finset.single_le_sum (f := fun u => f u (s.locals u)) (fun _ _ => Nat.zero_le _) (Finset.mem_univ t)
  omega

/-- where no thread has a part left, all of the number is in the shared state -/
theorem run_conserves_done [Fintype T] [DecidableEq T] {step : T → G → L → Option (G × L)} (I : State T G L → Prop)
    (F : G → ℕ) (f : T → L → ℕ) (total : ℕ)
    (hstep : ∀ s t g l, I s → step t s.shared (s.locals t) = some (g, l) → I ⟨g, Function.update s.locals t l⟩)
    (hmove : ∀ s t g l, I s → F s.shared + f t (s.locals t) ≤ total →
      step t s.shared (s.locals t) = some (g, l) → F g + f t l = F s.shared + f t (s.locals t))
    (s : State T G L) (h : I s) (htotal : F s.shared + ∑ t, f t (s.locals t) = total) (sched : List T)
    (hdone : ∀ t, f t ((run step s sched).locals t) = 0) : F (run step s sched).shared = total := by
  have hsum := run_conserves_nat I F f total hstep hmove s h htotal sched
  rwa [Finset.sum_eq_zero fun t _ => hdone t, Nat.add_zero] at hsum

/-- conservation of a number that is kept modulo `m` -/
theorem run_conserves_mod (m : ℕ) [Fintype T] [DecidableEq T] {step : T → G → L → Option (G × L)}
    (I : State T G L → Prop) (F : G → ℕ) (f : T → L → ℕ)
    (hstep : ∀ s t g l, I s → step t s.shared (s.locals t) = some (g, l) → I ⟨g, Function.update s.locals t l⟩)
    (hmove : ∀ s t g l, I s → step t s.shared (s.locals t) = some (g, l) →
      F g + f t l ≡ F s.shared + f t (s.locals t) [MOD m])
    (s : State T G L) (h : I s) (sched : List T) :
    F (run step s sched).shared + ∑ t, f t ((run step s sched).locals t) ≡
      F s.shared + ∑ t, f t (s.locals t) [MOD m] := by
  have hcast := run_conserves I (fun g => (F g : ZMod m)) (fun t l => (f t l : ZMod m)) _ hstep
    (fun s t g l hI _ ht => by
      have hmod := (ZMod.natCast_eq_natCast_iff _ _ m).2 (hmove s t g l hI ht)
      rwa [Nat.cast_add, Nat.cast_add] at hmod) s h rfl sched
  rw [← ZMod.natCast_eq_natCast_iff]
  push_cast
  exact hcast

/-! ## Lists dealt to threads -/

theorem sum_countP_getD {α : Type} {m : ℕ} (p : α → Bool) (lists : List (List α)) (h : lists.length = m) :
    ∑ t : Fin m, (lists.getD t []).countP p = lists.flatten.countP p := by
  subst h
  induction lists with
  | nil => rfl
  | cons l lists ih =>
    rw [List.length_cons, Fin.sum_univ_succ, List.flatten_cons, List.countP_append, ← ih]
    rfl

end WtBenchmarks.Threads
