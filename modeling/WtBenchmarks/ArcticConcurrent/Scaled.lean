/-
The thread harness of the concurrent path benchmark (`scaled`, `benches/arctic_concurrent.rs`).

The workers and the main thread meet at a barrier, and the workers spin until the gate opens. The main thread reads the
clock, opens the gate, joins the workers in order, reads the clock again and then the sink. A worker adds up what its
operations return, and adds the sum to the sink when it has performed them all. An operation on the shared map is one
step, and may panic.

- `scaledOutline`, `start_holds`: what the barrier, the gate and the joins establish, in every interleaving;
- `held_finishes`: no interleaving is stuck, also if some workers are held back at the gate;
- `scaled_times_work`: the clock runs while the operations are performed, all of them and no others.
-/
import WtBenchmarks.Core.Threads
import WtBenchmarks.Core.Word

namespace WtBenchmarks.ArcticConcurrent

open Threads

/-! ## Model -/

/-- how a worker's thread ended -/
inductive Exit where
  | returned
  | panicked
deriving DecidableEq, Repr

structure Shared (M : Type) (n : ℕ) where
  map : M
  /-- threads that have reached the barrier -/
  arrived : ℕ
  startGate : Bool
  sink : UInt64
  exits : Fin n → Option Exit

inductive MainPc where
  | arriving
  | waiting
  /-- before the clock is read -/
  | starting
  | opening
  | joining (worker : ℕ)
  /-- before the clock is read again -/
  | stopping
  | loading
  | finished (sink : UInt64)
  | panicked
deriving DecidableEq, Repr

inductive WorkerPc where
  | arriving
  | waiting
  | spinning
  | working (operation total : UInt64)
  /-- the sum is in the sink -/
  | exiting
  | done
  | panicked
deriving DecidableEq, Repr

inductive Agent where
  | main (pc : MainPc)
  | worker (pc : WorkerPc)
deriving DecidableEq, Repr

/-- the main thread, or a worker -/
abbrev Party (n : ℕ) := Option (Fin n)

variable {M : Type} {n : ℕ}

def mainStep (g : Shared M n) : MainPc → Option (Shared M n × MainPc)
  | .arriving => some ({ g with arrived := g.arrived + 1 }, .waiting)
  | .waiting => if g.arrived = n + 1 then some (g, .starting) else none
  | .starting => some (g, .opening)
  | .opening => some ({ g with startGate := true }, .joining 0)
  | .joining worker =>
    if h : worker < n then
      match g.exits ⟨worker, h⟩ with
      | none => none
      | some .returned => some (g, .joining (worker + 1))
      | some .panicked => some (g, .panicked)
    else some (g, .stopping)
  | .stopping => some (g, .loading)
  | .loading => some (g, .finished g.sink)
  | .finished _ => none
  | .panicked => none

def workerStep (iters : UInt64) (body : Fin n → UInt64 → M → Option (UInt64 × M)) (t : Fin n) (g : Shared M n) :
    WorkerPc → Option (Shared M n × WorkerPc)
  | .arriving => some ({ g with arrived := g.arrived + 1 }, .waiting)
  | .waiting => if g.arrived = n + 1 then some (g, .spinning) else none
  | .spinning => if g.startGate then some (g, .working 0 0) else none
  | .working operation total =>
    if operation < iters then
      match body t operation g.map with
      | none => some ({ g with exits := Function.update g.exits t (some .panicked) }, .panicked)
      | some (value, map) => some ({ g with map }, .working (operation + 1) (total + value))
    else some ({ g with sink := g.sink + total }, .exiting)
  | .exiting => some ({ g with exits := Function.update g.exits t (some .returned) }, .done)
  | .done => none
  | .panicked => none

section Harness

variable (iters : UInt64) (body : Fin n → UInt64 → M → Option (UInt64 × M))

def step : Party n → Shared M n → Agent → Option (Shared M n × Agent)
  | none, g, .main pc => (mainStep g pc).map (Prod.map id .main)
  | some t, g, .worker pc => (workerStep iters body t g pc).map (Prod.map id .worker)
  | none, _, .worker _ => none
  | some _, _, .main _ => none

def start (map : M) : State (Party n) (Shared M n) Agent :=
  ⟨⟨map, 0, false, 0, fun _ => none⟩, fun t => if t = none then .main .arriving else .worker .arriving⟩

/-- the clock has been read -/
def MainPc.started : MainPc → Bool
  | .arriving => false
  | .waiting => false
  | .starting => false
  | _ => true

/-- the clock has been read again -/
def MainPc.stopped : MainPc → Bool
  | .loading => true
  | .finished _ => true
  | _ => false

def MainPc.over : MainPc → Bool
  | .finished _ => true
  | .panicked => true
  | _ => false

/-- an operation may have been performed -/
def WorkerPc.begun : WorkerPc → Bool
  | .arriving => false
  | .waiting => false
  | .spinning => false
  | _ => true

def WorkerPc.over : WorkerPc → Bool
  | .done => true
  | .panicked => true
  | _ => false

/-! ## What every moment satisfies -/

/-- the gate has been opened -/
def MainPc.opened : MainPc → Bool
  | .opening => false
  | pc => pc.started

def MainPc.pastBarrier : MainPc → Bool
  | .arriving => false
  | .waiting => false
  | _ => true

/-- how many workers have been joined -/
def MainPc.joined (n : ℕ) : MainPc → ℕ
  | .joining worker => worker
  | .stopping => n
  | .loading => n
  | .finished _ => n
  | _ => 0

def WorkerPc.pastBarrier : WorkerPc → Bool
  | .arriving => false
  | .waiting => false
  | _ => true

def WorkerPc.exit : WorkerPc → Option Exit
  | .done => some .returned
  | .panicked => some .panicked
  | _ => none

structure MainOk (g : Shared M n) (pc : MainPc) : Prop where
  barrier : pc.pastBarrier = true → n + 1 ≤ g.arrived
  gate : g.startGate = pc.opened
  joined : ∀ t : Fin n, t.val < pc.joined n → g.exits t = some .returned
  failed : pc = .panicked → ∃ t, g.exits t = some .panicked

structure WorkerOk (t : Fin n) (g : Shared M n) (pc : WorkerPc) : Prop where
  barrier : pc.pastBarrier = true → n + 1 ≤ g.arrived
  gate : pc.begun = true → g.startGate = true
  exits : g.exits t = pc.exit

def Loc : Party n → Shared M n → Agent → Prop
  | none, g, .main pc => MainOk g pc
  | some t, g, .worker pc => WorkerOk t g pc
  | none, _, .worker _ => False
  | some _, _, .main _ => False

/-- what a step of `t` leaves as it was -/
structure Guar (t : Party n) (g g' : Shared M n) : Prop where
  arrived : g.arrived ≤ g'.arrived
  opened : g.startGate = true → g'.startGate = true
  gate : t ≠ none → g'.startGate = g.startGate
  kept : ∀ u e, g.exits u = some e → g'.exits u = some e
  others : ∀ u, some u ≠ t → g'.exits u = g.exits u

theorem Guar.refl (t : Party n) (g : Shared M n) : Guar t g g :=
  ⟨le_rfl, id, fun _ => rfl, fun _ _ h => h, fun _ _ => rfl⟩

theorem mainStep_ok {g g' : Shared M n} {pc pc' : MainPc} (h : MainOk g pc) (hstep : mainStep g pc = some (g', pc')) :
    MainOk g' pc' ∧ Guar none g g' := by
  obtain ⟨hbarrier, hgate, hjoined, -⟩ := h
  cases pc with
  | arriving =>
    cases hstep
    exact ⟨⟨nofun, hgate, nofun, nofun⟩, ⟨Nat.le_succ _, id, fun h => absurd rfl h, fun _ _ h => h, fun _ _ => rfl⟩⟩
  | waiting =>
    simp only [mainStep] at hstep
    split_ifs at hstep with hall
    cases hstep
    exact ⟨⟨fun _ => hall.ge, hgate, nofun, nofun⟩, Guar.refl none g⟩
  | starting =>
    cases hstep
    exact ⟨⟨fun _ => hbarrier rfl, hgate, nofun, nofun⟩, Guar.refl none g⟩
  | opening =>
    cases hstep
    exact ⟨⟨fun _ => hbarrier rfl, rfl, nofun, nofun⟩,
      ⟨le_rfl, fun _ => rfl, fun h => absurd rfl h, fun _ _ h => h, fun _ _ => rfl⟩⟩
  | joining worker =>
    simp only [mainStep] at hstep
    split_ifs at hstep with hlt
    · cases hexit : g.exits ⟨worker, hlt⟩ with
      | none => simp [hexit] at hstep
      | some e =>
        cases e with
        | returned =>
          simp only [hexit] at hstep
          cases hstep
          refine ⟨⟨fun _ => hbarrier rfl, hgate, fun t ht => ?_, nofun⟩, Guar.refl none g⟩
          rcases Nat.lt_succ_iff_lt_or_eq.1 ht with hbefore | hlast
          · exact hjoined t hbefore
          · rw [← hexit]
            congr 1
            exact Fin.ext hlast
        | panicked =>
          simp only [hexit] at hstep
          cases hstep
          exact ⟨⟨fun _ => hbarrier rfl, hgate, nofun, fun _ => ⟨_, hexit⟩⟩, Guar.refl none g⟩
    · cases hstep
      exact ⟨⟨fun _ => hbarrier rfl, hgate, fun t _ => hjoined t (lt_of_lt_of_le t.isLt (Nat.le_of_not_lt hlt)), nofun⟩,
        Guar.refl none g⟩
  | stopping =>
    cases hstep
    exact ⟨⟨fun _ => hbarrier rfl, hgate, hjoined, nofun⟩, Guar.refl none g⟩
  | loading =>
    cases hstep
    exact ⟨⟨fun _ => hbarrier rfl, hgate, hjoined, nofun⟩, Guar.refl none g⟩
  | finished sink => cases hstep
  | panicked => cases hstep

/-- the main thread leaves the map and the sink alone -/
theorem mainStep_frame {g g' : Shared M n} {pc pc' : MainPc} (hstep : mainStep g pc = some (g', pc')) :
    g'.map = g.map ∧ g'.sink = g.sink := by
  cases pc with
  | joining worker =>
    simp only [mainStep] at hstep
    split at hstep
    · split at hstep <;> cases hstep <;> exact ⟨rfl, rfl⟩
    · cases hstep
      exact ⟨rfl, rfl⟩
  | waiting =>
    simp only [mainStep] at hstep
    split_ifs at hstep
    cases hstep
    exact ⟨rfl, rfl⟩
  | _ => cases hstep <;> exact ⟨rfl, rfl⟩

/-- a thread that ends records how -/
theorem exits_guar {t : Fin n} {g : Shared M n} (h : g.exits t = none) (e : Exit) :
    Guar (some t) g { g with exits := Function.update g.exits t (some e) } := by
  refine ⟨le_rfl, id, fun _ => rfl, fun u e' hu => ?_, fun u hu => ?_⟩
  · have hne : u ≠ t := by
      rintro rfl
      rw [h] at hu
      cases hu
    exact (Function.update_of_ne hne _ _).trans hu
  · exact Function.update_of_ne (fun heq => hu (congrArg some heq)) _ _

theorem workerStep_ok {t : Fin n} {g g' : Shared M n} {pc pc' : WorkerPc} (h : WorkerOk t g pc)
    (hstep : workerStep iters body t g pc = some (g', pc')) : WorkerOk t g' pc' ∧ Guar (some t) g g' := by
  obtain ⟨hbarrier, hgate, hexits⟩ := h
  cases pc with
  | arriving =>
    cases hstep
    exact ⟨⟨nofun, nofun, hexits⟩, ⟨Nat.le_succ _, id, fun _ => rfl, fun _ _ h => h, fun _ _ => rfl⟩⟩
  | waiting =>
    simp only [workerStep] at hstep
    split_ifs at hstep with hall
    cases hstep
    exact ⟨⟨fun _ => hall.ge, nofun, hexits⟩, Guar.refl _ g⟩
  | spinning =>
    simp only [workerStep] at hstep
    split_ifs at hstep with hopen
    cases hstep
    exact ⟨⟨fun _ => hbarrier rfl, fun _ => hopen, hexits⟩, Guar.refl _ g⟩
  | working operation total =>
    simp only [workerStep] at hstep
    split_ifs at hstep with hlt
    · cases hbody : body t operation g.map with
      | none =>
        simp only [hbody] at hstep
        cases hstep
        exact ⟨⟨fun _ => hbarrier rfl, fun _ => hgate rfl, Function.update_self ..⟩, exits_guar hexits _⟩
      | some r =>
        simp only [hbody] at hstep
        cases hstep
        exact ⟨⟨fun _ => hbarrier rfl, fun _ => hgate rfl, hexits⟩,
          ⟨le_rfl, id, fun _ => rfl, fun _ _ h => h, fun _ _ => rfl⟩⟩
    · cases hstep
      exact ⟨⟨fun _ => hbarrier rfl, fun _ => hgate rfl, hexits⟩,
        ⟨le_rfl, id, fun _ => rfl, fun _ _ h => h, fun _ _ => rfl⟩⟩
  | exiting =>
    cases hstep
    exact ⟨⟨fun _ => hbarrier rfl, fun _ => hgate rfl, Function.update_self ..⟩, exits_guar hexits _⟩
  | done => cases hstep
  | panicked => cases hstep

/-- a step of the system is one of the main thread or of a worker -/
theorem step_cases {t : Party n} {g g' : Shared M n} {l l' : Agent} (h : step iters body t g l = some (g', l')) :
    (∃ pc pc', t = none ∧ l = .main pc ∧ l' = .main pc' ∧ mainStep g pc = some (g', pc')) ∨
      ∃ u pc pc', t = some u ∧ l = .worker pc ∧ l' = .worker pc' ∧ workerStep iters body u g pc = some (g', pc') := by
  cases t with
  | none =>
    cases l with
    | main pc =>
      obtain ⟨⟨g'', pc'⟩, hstep, heq⟩ := Option.map_eq_some_iff.1 h
      cases heq
      exact Or.inl ⟨pc, pc', rfl, rfl, rfl, hstep⟩
    | worker pc => cases h
  | some u =>
    cases l with
    | main pc => cases h
    | worker pc =>
      obtain ⟨⟨g'', pc'⟩, hstep, heq⟩ := Option.map_eq_some_iff.1 h
      cases heq
      exact Or.inr ⟨u, pc, pc', rfl, rfl, rfl, hstep⟩

def scaledOutline : Outline (step iters body) where
  Glob _ := True
  Loc := Loc
  Guar := Guar
  step_ok t g l g' l' _ hloc hstep := by
    rcases step_cases iters body hstep with ⟨pc, pc', rfl, rfl, rfl, hmain⟩ | ⟨u, pc, pc', rfl, rfl, rfl, hworker⟩
    · exact ⟨trivial, mainStep_ok hloc hmain⟩
    · exact ⟨trivial, workerStep_ok iters body hloc hworker⟩
  stable t u g g' l hne _ hguar hloc := by
    cases u with
    | none =>
      cases l with
      | main pc =>
        obtain ⟨hbarrier, hgate, hjoined, hfailed⟩ := hloc
        refine ⟨fun h => (hbarrier h).trans hguar.arrived, by rw [hguar.gate (Ne.symm hne), hgate],
          fun v hv => hguar.kept v _ (hjoined v hv), fun h => ?_⟩
        obtain ⟨v, hv⟩ := hfailed h
        exact ⟨v, hguar.kept v _ hv⟩
      | worker pc => cases hloc
    | some v =>
      cases l with
      | main pc => cases hloc
      | worker pc =>
        obtain ⟨hbarrier, hgate, hexits⟩ := hloc
        exact ⟨fun h => (hbarrier h).trans hguar.arrived, fun h => hguar.opened (hgate h),
          (hguar.others v hne).trans hexits⟩

theorem start_holds (map : M) : (scaledOutline iters body).Holds (start map) := by
  refine ⟨trivial, fun t => ?_⟩
  cases t with
  | none => exact ⟨nofun, rfl, nofun, nofun⟩
  | some t => exact ⟨nofun, nofun, rfl⟩

theorem main_at (map : M) (sched : List (Party n)) :
    ∃ pc, (run (step iters body) (start map) sched).locals none = .main pc ∧
      MainOk (run (step iters body) (start map) sched).shared pc := by
  have hloc := ((scaledOutline iters body).run _ (start_holds iters body map) sched).2 none
  cases hl : (run (step iters body) (start map) sched).locals none with
  | main pc =>
    rw [hl] at hloc
    exact ⟨pc, rfl, hloc⟩
  | worker pc =>
    rw [hl] at hloc
    cases hloc

theorem worker_at (map : M) (sched : List (Party n)) (t : Fin n) :
    ∃ pc, (run (step iters body) (start map) sched).locals (some t) = .worker pc ∧
      WorkerOk t (run (step iters body) (start map) sched).shared pc := by
  have hloc := ((scaledOutline iters body).run _ (start_holds iters body map) sched).2 (some t)
  cases hl : (run (step iters body) (start map) sched).locals (some t) with
  | main pc =>
    rw [hl] at hloc
    cases hloc
  | worker pc =>
    rw [hl] at hloc
    exact ⟨pc, rfl, hloc⟩

/-- once the clock has been read again, the workers have returned -/
theorem done_of_stopped (map : M) (sched : List (Party n)) {pc : MainPc} (hstopped : pc.stopped = true)
    (hpc : (run (step iters body) (start map) sched).locals none = .main pc) (t : Fin n) :
    (run (step iters body) (start map) sched).locals (some t) = .worker .done := by
  obtain ⟨pc', hpc', hmain⟩ := main_at iters body map sched
  obtain rfl : pc = pc' := by
    rw [hpc] at hpc'
    injection hpc'
  have hjoined : pc.joined n = n := by
    cases pc with
    | loading => rfl
    | finished sink => rfl
    | _ => cases hstopped
  obtain ⟨w, hw, hok⟩ := worker_at iters body map sched t
  have hexit := hmain.joined t (by rw [hjoined]; exact t.isLt)
  rw [hok.exits] at hexit
  cases w with
  | done => exact hw
  | _ => cases hexit

/-! ## The barrier -/

/-- not at the barrier yet -/
def Agent.away : Agent → ℕ
  | .main .arriving => 1
  | .worker .arriving => 1
  | _ => 0

theorem mainStep_away {g g' : Shared M n} {pc pc' : MainPc} (hstep : mainStep g pc = some (g', pc')) :
    g'.arrived + (Agent.main pc').away = g.arrived + (Agent.main pc).away := by
  cases pc with
  | joining worker =>
    simp only [mainStep] at hstep
    split at hstep
    · split at hstep <;> cases hstep <;> rfl
    · cases hstep
      rfl
  | waiting =>
    simp only [mainStep] at hstep
    split_ifs at hstep
    cases hstep
    rfl
  | _ => cases hstep <;> rfl

theorem workerStep_away {t : Fin n} {g g' : Shared M n} {pc pc' : WorkerPc}
    (hstep : workerStep iters body t g pc = some (g', pc')) :
    g'.arrived + (Agent.worker pc').away = g.arrived + (Agent.worker pc).away := by
  cases pc with
  | working operation total =>
    simp only [workerStep] at hstep
    split at hstep
    · split at hstep <;> cases hstep <;> rfl
    · cases hstep
      rfl
  | waiting =>
    simp only [workerStep] at hstep
    split_ifs at hstep
    cases hstep
    rfl
  | spinning =>
    simp only [workerStep] at hstep
    split_ifs at hstep
    cases hstep
    rfl
  | _ => cases hstep <;> rfl

/-- **Everybody is at the barrier, or away.** -/
theorem arrived_eq (map : M) (sched : List (Party n)) :
    (run (step iters body) (start map) sched).shared.arrived +
      ∑ t, ((run (step iters body) (start map) sched).locals t).away = n + 1 := by
  refine run_conserves_nat (fun _ => True) (fun g => g.arrived) (fun _ l => l.away) (n + 1) (fun _ _ _ _ _ _ => trivial)
    (fun s t g l _ _ hstep => ?_) (start map) trivial ?_ sched
  · rcases step_cases iters body hstep with ⟨pc, pc', rfl, hl, rfl, hmain⟩ | ⟨u, pc, pc', rfl, hl, rfl, hworker⟩
    · rw [hl]
      exact mainStep_away hmain
    · rw [hl]
      exact workerStep_away iters body hworker
  · have haway : ∀ t : Party n, ((start map).locals t).away = 1 := by
      intro t
      cases t <;> rfl
    simp only [haway, Finset.sum_const, Finset.card_univ, Fintype.card_option, Fintype.card_fin, smul_eq_mul, mul_one]
    exact Nat.zero_add _

/-! ## Finishing -/

/-- workers that are held back do not go through the gate -/
def heldStep (hold : Fin n → Bool) : Party n → Shared M n → Agent → Option (Shared M n × Agent)
  | some t, g, l => if hold t ∧ l = .worker .spinning then none else step iters body (some t) g l
  | none, g, l => step iters body none g l

theorem heldStep_some {hold : Fin n → Bool} {t : Party n} {g : Shared M n} {l : Agent} {r : Shared M n × Agent}
    (h : heldStep iters body hold t g l = some r) : step iters body t g l = some r := by
  cases t with
  | none => exact h
  | some t =>
    simp only [heldStep] at h
    split_ifs at h
    exact h

/-- a thread has ended, or is held back, or waits for one that is -/
def Settled (hold : Fin n → Bool) : Party n → Agent → Prop
  | none, .main pc => pc.over = true ∨ (∃ t, hold t = true) ∧ pc.opened = true
  | some t, .worker pc => pc.over = true ∨ hold t = true ∧ pc = .spinning
  | none, .worker _ => False
  | some _, .main _ => False

/-- what is left to do -/
def MainPc.measure (n : ℕ) : MainPc → ℕ
  | .arriving => n + 9
  | .waiting => n + 8
  | .starting => n + 7
  | .opening => n + 6
  | .joining worker => n - worker + 5
  | .stopping => 4
  | .loading => 3
  | .finished _ => 0
  | .panicked => 0

def WorkerPc.measure (iters : ℕ) : WorkerPc → ℕ
  | .arriving => iters + 6
  | .waiting => iters + 5
  | .spinning => iters + 4
  | .working operation _ => iters - operation.toNat + 3
  | .exiting => 2
  | .done => 0
  | .panicked => 0

def Agent.measure (n : ℕ) (iters : UInt64) : Agent → ℕ
  | .main pc => pc.measure n
  | .worker pc => pc.measure iters.toNat

theorem mainStep_measure {g g' : Shared M n} {pc pc' : MainPc} (hstep : mainStep g pc = some (g', pc')) :
    pc'.measure n < pc.measure n := by
  cases pc with
  | joining worker =>
    simp only [mainStep] at hstep
    split at hstep
    · split at hstep
      · cases hstep
      · cases hstep
        simp only [MainPc.measure]
        omega
      · cases hstep
        exact Nat.succ_pos _
    · cases hstep
      simp only [MainPc.measure]
      omega
  | waiting =>
    simp only [mainStep] at hstep
    split_ifs at hstep
    cases hstep
    simp only [MainPc.measure]
    omega
  | _ => cases hstep <;> simp only [MainPc.measure] <;> omega

theorem operation_succ {operation iters : UInt64} (h : operation < iters) :
    (operation + 1).toNat = operation.toNat + 1 := by
  rw [UInt64.lt_iff_toNat_lt] at h
  have hiters := iters.toNat_lt
  exact toNat_add_of_lt (by rw [UInt64.toNat_one]; omega)

theorem workerStep_measure {t : Fin n} {g g' : Shared M n} {pc pc' : WorkerPc}
    (hstep : workerStep iters body t g pc = some (g', pc')) : pc'.measure iters.toNat < pc.measure iters.toNat := by
  cases pc with
  | working operation total =>
    simp only [workerStep] at hstep
    split at hstep
    · rename_i hlt
      split at hstep
      · cases hstep
        exact Nat.succ_pos _
      · cases hstep
        have hnext := operation_succ hlt
        rw [UInt64.lt_iff_toNat_lt] at hlt
        simp only [WorkerPc.measure]
        omega
    · cases hstep
      simp only [WorkerPc.measure]
      omega
  | waiting =>
    simp only [workerStep] at hstep
    split_ifs at hstep
    cases hstep
    exact Nat.lt_succ_self _
  | spinning =>
    simp only [workerStep] at hstep
    split_ifs at hstep
    cases hstep
    simp only [WorkerPc.measure, UInt64.toNat_zero]
    omega
  | _ => cases hstep <;> simp only [WorkerPc.measure] <;> omega

theorem step_measure {t : Party n} {g g' : Shared M n} {l l' : Agent} (h : step iters body t g l = some (g', l')) :
    l'.measure n iters < l.measure n iters := by
  rcases step_cases iters body h with ⟨pc, pc', rfl, rfl, rfl, hmain⟩ | ⟨u, pc, pc', rfl, rfl, rfl, hworker⟩
  · exact mainStep_measure hmain
  · exact workerStep_measure iters body hworker

/-- a main thread that cannot move is settled, if the workers are -/
theorem main_settled {hold : Fin n → Bool} {g : Shared M n} {pc : MainPc} (hall : g.arrived = n + 1)
    (haway : (Agent.main pc).away = 0) (hstuck : mainStep g pc = none)
    (hworkers : ∀ t, g.exits t = none → hold t = true) : Settled hold none (.main pc) := by
  cases pc with
  | arriving => cases haway
  | waiting =>
    simp only [mainStep, if_pos hall] at hstuck
    cases hstuck
  | joining worker =>
    simp only [mainStep] at hstuck
    split at hstuck
    · rename_i hlt
      cases hexit : g.exits ⟨worker, hlt⟩ with
      | none => exact Or.inr ⟨⟨_, hworkers _ hexit⟩, rfl⟩
      | some e => cases e <;> simp [hexit] at hstuck
    · cases hstuck
  | finished sink => exact Or.inl rfl
  | panicked => exact Or.inl rfl
  | _ => cases hstuck

/-- once everybody has arrived and the gate is open, a worker moves until it ends -/
theorem worker_moves (t : Fin n) {g : Shared M n} {pc : WorkerPc} (hall : g.arrived = n + 1)
    (hopen : g.startGate = true) (hover : pc.over = false) : workerStep iters body t g pc ≠ none := by
  intro hnone
  cases pc with
  | waiting =>
    simp only [workerStep, if_pos hall] at hnone
    cases hnone
  | spinning =>
    simp only [workerStep, if_pos hopen] at hnone
    cases hnone
  | working operation total =>
    simp only [workerStep] at hnone
    split at hnone
    · split at hnone <;> cases hnone
    · cases hnone
  | done => cases hover
  | panicked => cases hover
  | _ => cases hnone

/-- a worker that cannot move is settled -/
theorem worker_settled {hold : Fin n → Bool} {t : Fin n} {g : Shared M n} {pc : WorkerPc} (hall : g.arrived = n + 1)
    (hopen : g.startGate = true) (hstuck : heldStep iters body hold (some t) g (.worker pc) = none) :
    Settled hold (some t) (.worker pc) := by
  simp only [heldStep] at hstuck
  split at hstuck
  · rename_i hheld
    obtain ⟨hhold, hpc⟩ := hheld
    cases hpc
    exact Or.inr ⟨hhold, rfl⟩
  · refine Or.inl ?_
    by_contra hover
    exact worker_moves iters body t hall hopen (Bool.eq_false_iff.2 hover) (Option.map_eq_none_iff.1 hstuck)

/-- **No deadlock.** Where nobody can move, everybody is settled. -/
theorem settled_of_stuck {hold : Fin n → Bool} (map : M) (sched : List (Party n))
    (hstuck : ∀ t, heldStep iters body hold t (run (step iters body) (start map) sched).shared
      ((run (step iters body) (start map) sched).locals t) = none) (t : Party n) :
    Settled hold t ((run (step iters body) (start map) sched).locals t) := by
  have harrived := arrived_eq iters body map sched
  obtain ⟨pc, hmain, hmainok⟩ := main_at iters body map sched
  have hworkers := worker_at iters body map sched
  generalize run (step iters body) (start map) sched = s at hstuck harrived hmain hmainok hworkers ⊢
  -- nobody is away, since those who are can move
  have haway : ∀ u, (s.locals u).away = 0 := by
    intro u
    have hu := hstuck u
    cases u with
    | none =>
      rw [hmain] at hu ⊢
      cases pc with
      | arriving => cases hu
      | _ => rfl
    | some v =>
      obtain ⟨w, hw, -⟩ := hworkers v
      rw [hw] at hu ⊢
      cases w with
      | arriving => simp [heldStep, step, workerStep] at hu
      | _ => rfl
  have hall : s.shared.arrived = n + 1 := by
    rwa [Finset.sum_eq_zero fun u _ => haway u, Nat.add_zero] at harrived
  have hmainstuck : mainStep s.shared pc = none := by
    have hu := hstuck none
    rw [hmain] at hu
    exact Option.map_eq_none_iff.1 hu
  have hmainaway : (Agent.main pc).away = 0 := hmain ▸ haway none
  have hopen : s.shared.startGate = true := by
    rw [hmainok.gate]
    cases pc with
    | arriving => cases hmainaway
    | waiting =>
      simp only [mainStep, if_pos hall] at hmainstuck
      cases hmainstuck
    | starting => cases hmainstuck
    | opening => cases hmainstuck
    | _ => rfl
  have hsettled : ∀ u w, s.locals (some u) = .worker w → Settled hold (some u) (.worker w) := by
    intro u w hw
    have hu := hstuck (some u)
    rw [hw] at hu
    exact worker_settled iters body hall hopen hu
  cases t with
  | none =>
    rw [hmain]
    refine main_settled hall hmainaway hmainstuck fun u hu => ?_
    obtain ⟨w, hw, hok⟩ := hworkers u
    rw [hok.exits] at hu
    rcases hsettled u w hw with hover | ⟨hhold, -⟩
    · cases w with
      | done => cases hu
      | panicked => cases hu
      | _ => cases hover
    · exact hhold
  | some u =>
    obtain ⟨w, hw, -⟩ := hworkers u
    rw [hw]
    exact hsettled u w hw

/-- **Finishing.** From every moment of a run, some continuation settles everybody. -/
theorem held_finishes (hold : Fin n → Bool) (map : M) (sched : List (Party n)) :
    ∃ more, ∀ t, Settled hold t
      ((run (heldStep iters body hold) (run (step iters body) (start map) sched) more).locals t) := by
  refine run_finishes_each (fun s => ∃ sched, s = run (step iters body) (start map) sched) (Settled hold)
    (fun _ l => l.measure n iters) ?_ ?_ ?_ _ ⟨sched, rfl⟩
  · rintro s t g l ⟨before, rfl⟩ hstep
    refine ⟨before ++ [t], ?_⟩
    rw [run_append, run_cons, run_nil, exec_some (heldStep_some iters body hstep)]
  · exact fun s t g l _ hstep => step_measure iters body (heldStep_some iters body hstep)
  · rintro s ⟨before, rfl⟩ ⟨t, ht⟩
    by_contra hnone
    exact ht (settled_of_stuck iters body map before (fun u => by by_contra hu; exact hnone ⟨u, hu⟩) t)

theorem scaled_finishes (map : M) (sched : List (Party n)) :
    ∃ more, (∃ pc, (run (step iters body) (start map) (sched ++ more)).locals none = .main pc ∧ pc.over = true) ∧
      ∀ t, ∃ pc, (run (step iters body) (start map) (sched ++ more)).locals (some t) = .worker pc ∧ pc.over = true := by
  obtain ⟨held, hsettled⟩ := held_finishes iters body (fun _ => false) map sched
  have hstep : ∀ t g l r, heldStep iters body (fun _ => false) t g l = some r → step iters body t g l = some r :=
    fun _ _ _ _ => heldStep_some iters body
  obtain ⟨more, hmore⟩ := run_restrict hstep (run (step iters body) (start map) sched) held
  rw [← hmore, ← run_append] at hsettled
  refine ⟨more, ?_, fun t => ?_⟩
  · obtain ⟨pc, hpc, -⟩ := main_at iters body map (sched ++ more)
    have hnone := hsettled none
    rw [hpc] at hnone
    exact ⟨pc, hpc, hnone.resolve_right fun h => by simp at h⟩
  · obtain ⟨pc, hpc, -⟩ := worker_at iters body map (sched ++ more) t
    have hsome := hsettled (some t)
    rw [hpc] at hsome
    exact ⟨pc, hpc, hsome.resolve_right fun h => by simp at h⟩

/-! ## One worker last -/

/-- a worker that is held back does not begin -/
theorem held_not_begun (hold : Fin n → Bool) {t : Fin n} (ht : hold t = true) (map : M) (sched : List (Party n))
    (pc : WorkerPc) (hpc : (run (heldStep iters body hold) (start map) sched).locals (some t) = .worker pc) :
    pc.begun = false := by
  refine run_inv (fun s => ∀ pc, s.locals (some t) = .worker pc → pc.begun = false) (fun s p g l hs hstep => ?_)
    (start map) (fun pc h => ?_) sched pc hpc
  · intro pc hpc
    dsimp only at hpc
    by_cases hp : some t = p
    · subst hp
      rw [Function.update_self] at hpc
      subst hpc
      have hnot : ¬ (hold t = true ∧ s.locals (some t) = .worker .spinning) := by
        intro h
        simp only [heldStep, if_pos h] at hstep
        cases hstep
      simp only [heldStep, if_neg hnot] at hstep
      rcases step_cases iters body hstep with ⟨-, -, h, -⟩ | ⟨u, w, w', hu, hl, hw', hworker⟩
      · cases h
      · cases hw'
        cases hu
        have hidle := hs w hl
        cases w with
        | arriving =>
          cases hworker
          rfl
        | waiting =>
          simp only [workerStep] at hworker
          split_ifs at hworker
          cases hworker
          rfl
        | spinning => exact absurd ⟨ht, hl⟩ hnot
        | _ => cases hidle
    · rw [Function.update_of_ne hp] at hpc
      exact hs pc hpc
  · cases h
    rfl

/-- some interleaving has everybody finished but one worker, who is at the open gate -/
theorem gate_reached (map : M) (t : Fin n) :
    ∃ sched, (run (step iters body) (start map) sched).locals (some t) = .worker .spinning ∧
      (run (step iters body) (start map) sched).shared.startGate = true ∧
      ∀ u ≠ t, ∃ w, (run (step iters body) (start map) sched).locals (some u) = .worker w ∧ w.over = true := by
  obtain ⟨held, hsettled⟩ := held_finishes iters body (fun u => decide (u = t)) map []
  have hbegun := held_not_begun iters body (fun u => decide (u = t)) (decide_eq_true rfl) map held
  have hstep : ∀ p g l r, heldStep iters body (fun u => decide (u = t)) p g l = some r →
      step iters body p g l = some r := fun _ _ _ _ => heldStep_some iters body
  obtain ⟨sched, hsched⟩ := run_restrict hstep (start map) held
  rw [run_nil, ← hsched] at hsettled
  rw [← hsched] at hbegun
  refine ⟨sched, ?_, ?_, fun u hu => ?_⟩
  · obtain ⟨w, hw, -⟩ := worker_at iters body map sched t
    have hset := hsettled (some t)
    have hidle := hbegun w hw
    rw [hw] at hset ⊢
    rcases hset with hover | ⟨-, rfl⟩
    · cases w with
      | done => cases hidle
      | panicked => cases hidle
      | _ => cases hover
    · rfl
  · obtain ⟨pc, hpc, hmain⟩ := main_at iters body map sched
    have hset := hsettled none
    rw [hpc] at hset
    rw [hmain.gate]
    rcases hset with hover | ⟨-, hopened⟩
    · cases pc with
      | finished sink => rfl
      | panicked => rfl
      | _ => cases hover
    · exact hopened
  · obtain ⟨w, hw, -⟩ := worker_at iters body map sched u
    have hset := hsettled (some u)
    rw [hw] at hset
    exact ⟨w, hw, hset.resolve_right fun h => hu (of_decide_eq_true h.1)⟩

/-- an open gate means that everybody has arrived -/
theorem arrived_of_open (map : M) {sched : List (Party n)}
    (hopen : (run (step iters body) (start map) sched).shared.startGate = true) :
    (run (step iters body) (start map) sched).shared.arrived = n + 1 := by
  obtain ⟨pc, -, hmain⟩ := main_at iters body map sched
  have hpast : pc.pastBarrier = true := by
    have hopened := hmain.gate.symm.trans hopen
    cases pc with
    | arriving => cases hopened
    | waiting => cases hopened
    | _ => rfl
  have hle := hmain.barrier hpast
  have harrived := arrived_eq iters body map sched
  omega

/-- at the open gate a worker finishes on its own -/
theorem alone_finishes (map : M) {sched : List (Party n)} {t : Fin n}
    (hgate : (run (step iters body) (start map) sched).shared.startGate = true) :
    ∃ k w, (run (step iters body) (start map) (sched ++ List.replicate k (some t))).locals (some t) = .worker w ∧
      w.over = true := by
  have hkept : ∀ (s : State (Party n) (Shared M n) Agent) p g l,
      ((∃ before, s = run (step iters body) (start map) before) ∧ s.shared.startGate = true) →
      step iters body p s.shared (s.locals p) = some (g, l) →
      (∃ before, (⟨g, Function.update s.locals p l⟩ : State (Party n) (Shared M n) Agent) =
        run (step iters body) (start map) before) ∧ g.startGate = true := by
    rintro s p g l ⟨⟨before, rfl⟩, hopen⟩ hstep
    refine ⟨⟨before ++ [p], by rw [run_append, run_cons, run_nil, exec_some hstep]⟩, ?_⟩
    have hholds := (scaledOutline iters body).run _ (start_holds iters body map) before
    exact ((scaledOutline iters body).step_ok p _ _ g l trivial (hholds.2 p) hstep).2.2.opened hopen
  have hmoves : ∀ s : State (Party n) (Shared M n) Agent,
      ((∃ before, s = run (step iters body) (start map) before) ∧ s.shared.startGate = true) →
      (¬ ∃ w, s.locals (some t) = .worker w ∧ w.over = true) →
      ∃ g l, step iters body (some t) s.shared (s.locals (some t)) = some (g, l) ∧
        l.measure n iters < (s.locals (some t)).measure n iters := by
    rintro s ⟨⟨before, rfl⟩, hopen⟩ hfin
    obtain ⟨w, hw, -⟩ := worker_at iters body map before t
    have hover : w.over = false := Bool.eq_false_iff.2 fun h => hfin ⟨w, hw, h⟩
    have hall := arrived_of_open iters body map hopen
    obtain ⟨⟨g, w'⟩, hstep⟩ := Option.ne_none_iff_exists'.1 (worker_moves iters body t hall hopen hover)
    have hmove : step iters body (some t) (run (step iters body) (start map) before).shared
        ((run (step iters body) (start map) before).locals (some t)) = some (g, .worker w') := by
      rw [hw, step, hstep]
      rfl
    exact ⟨g, .worker w', hmove, step_measure iters body hmove⟩
  obtain ⟨k, w, hw, hover⟩ := run_alone_finishes
    (fun s => (∃ before, s = run (step iters body) (start map) before) ∧ s.shared.startGate = true) (some t)
    (fun l => ∃ w, l = .worker w ∧ w.over = true) (fun l => l.measure n iters) hkept hmoves
    (run (step iters body) (start map) sched) ⟨⟨sched, rfl⟩, hgate⟩
  exact ⟨k, w, by rw [run_append]; exact hw, hover⟩

/-- where all workers have ended, the map stays as it is -/
theorem map_kept {map : M} {sched : List (Party n)}
    (hover : ∀ u, ∃ w, (run (step iters body) (start map) sched).locals (some u) = .worker w ∧ w.over = true)
    (more : List (Party n)) :
    (run (step iters body) (start map) (sched ++ more)).shared.map =
      (run (step iters body) (start map) sched).shared.map := by
  rw [run_append]
  refine (run_inv (fun (s : State (Party n) (Shared M n) Agent) =>
    s.shared.map = (run (step iters body) (start map) sched).shared.map ∧
    ∀ u, ∃ w, s.locals (some u) = .worker w ∧ w.over = true) (fun s p g l hs hstep => ?_) _ ⟨rfl, hover⟩ more).1
  obtain ⟨hmap, hall⟩ := hs
  rcases step_cases iters body hstep with ⟨pc, pc', rfl, -, rfl, hmain⟩ | ⟨u, w, w', rfl, hl, rfl, hworker⟩
  · refine ⟨(mainStep_frame hmain).1.trans hmap, fun u => ?_⟩
    obtain ⟨w, hw, hover⟩ := hall u
    have hsame : Function.update s.locals none (.main pc') (some u) = s.locals (some u) :=
      Function.update_of_ne (Option.some_ne_none u) _ _
    exact ⟨w, hsame.trans hw, hover⟩
  · obtain ⟨w₀, hw₀, hover₀⟩ := hall u
    rw [hl] at hw₀
    cases hw₀
    cases w with
    | done => cases hworker
    | panicked => cases hworker
    | _ => cases hover₀

/-! ## The timed region -/

/-- the closure with an observer, who writes down which operation of which worker has been performed -/
def observed (t : Fin n) (operation : UInt64) (seen : M × List (Fin n × UInt64)) :
    Option (UInt64 × (M × List (Fin n × UInt64))) :=
  (body t operation seen.1).map fun r => (r.1, (r.2, seen.2 ++ [(t, operation)]))

/-- the operations of one worker, in order -/
def operationsOf (t : Fin n) (seen : List (Fin n × UInt64)) : List UInt64 :=
  (seen.filter fun e => e.1 = t).map Prod.snd

theorem operationsOf_append (t u : Fin n) (seen : List (Fin n × UInt64)) (operation : UInt64) :
    operationsOf t (seen ++ [(u, operation)]) = operationsOf t seen ++ if u = t then [operation] else [] := by
  rw [operationsOf, List.filter_append, List.map_append, operationsOf]
  split_ifs with h <;> simp [h]

/-- what a worker at `pc` has performed -/
def Performed (iters : UInt64) (operations : List UInt64) : WorkerPc → Prop
  | .working operation _ => operation ≤ iters ∧ operations = words operation.toNat
  | .exiting => operations = words iters.toNat
  | .done => operations = words iters.toNat
  | .panicked => ∃ k < iters.toNat, operations = words k
  | _ => operations = []

theorem workerStep_performed {t : Fin n} {g g' : Shared (M × List (Fin n × UInt64)) n} {pc pc' : WorkerPc}
    (h : Performed iters (operationsOf t g.map.2) pc)
    (hstep : workerStep iters (observed body) t g pc = some (g', pc')) :
    Performed iters (operationsOf t g'.map.2) pc' ∧ ∀ u ≠ t, operationsOf u g'.map.2 = operationsOf u g.map.2 := by
  cases pc with
  | working operation total =>
    obtain ⟨hle, hperformed⟩ := h
    simp only [workerStep] at hstep
    split_ifs at hstep with hlt
    · cases hbody : observed body t operation g.map with
      | none =>
        simp only [hbody] at hstep
        cases hstep
        exact ⟨⟨operation.toNat, UInt64.lt_iff_toNat_lt.1 hlt, hperformed⟩, fun _ _ => rfl⟩
      | some r =>
        simp only [hbody] at hstep
        cases hstep
        obtain ⟨r', -, rfl⟩ := Option.map_eq_some_iff.1 hbody
        have hnext := operation_succ hlt
        refine ⟨⟨?_, ?_⟩, fun u hu => ?_⟩
        · rw [UInt64.le_iff_toNat_le, hnext]
          exact UInt64.lt_iff_toNat_lt.1 hlt
        · rw [operationsOf_append, if_pos rfl, hperformed, hnext, words_succ, UInt64.ofNat_toNat]
        · rw [operationsOf_append, if_neg (Ne.symm hu), List.append_nil]
    · cases hstep
      have hall : operation = iters := UInt64.le_antisymm hle (UInt64.not_lt.1 hlt)
      exact ⟨hall ▸ hperformed, fun _ _ => rfl⟩
  | waiting =>
    simp only [workerStep] at hstep
    split_ifs at hstep
    cases hstep
    exact ⟨h, fun _ _ => rfl⟩
  | spinning =>
    simp only [workerStep] at hstep
    split_ifs at hstep
    cases hstep
    exact ⟨⟨UInt64.le_iff_toNat_le.2 (Nat.zero_le _), h⟩, fun _ _ => rfl⟩
  | arriving =>
    cases hstep
    exact ⟨h, fun _ _ => rfl⟩
  | exiting =>
    cases hstep
    exact ⟨h, fun _ _ => rfl⟩
  | done => cases hstep
  | panicked => cases hstep

/-- at every moment the observer has seen what the workers have performed -/
theorem performed_at (map : M) (sched : List (Party n)) (t : Fin n) (pc : WorkerPc)
    (hpc : (run (step iters (observed body)) (start (map, [])) sched).locals (some t) = .worker pc) :
    Performed iters (operationsOf t (run (step iters (observed body)) (start (map, [])) sched).shared.map.2) pc := by
  refine run_inv (fun s => ∀ t pc, s.locals (some t) = .worker pc → Performed iters (operationsOf t s.shared.map.2) pc)
    (fun s p g l hs hstep => ?_) (start (map, [])) (fun t pc h => ?_) sched t pc hpc
  · intro t pc hpc
    dsimp only at hpc ⊢
    rcases step_cases iters (observed body) hstep with
      ⟨mpc, mpc', rfl, -, rfl, hmain⟩ | ⟨u, w, w', rfl, hl, rfl, hworker⟩
    · rw [Function.update_of_ne (by simp)] at hpc
      rw [(mainStep_frame hmain).1]
      exact hs t pc hpc
    · obtain ⟨hown, hothers⟩ := workerStep_performed iters body (hs u w hl) hworker
      by_cases hu : t = u
      · subst hu
        rw [Function.update_self] at hpc
        cases hpc
        exact hown
      · rw [Function.update_of_ne (fun h => hu (Option.some.inj h))] at hpc
        rw [hothers t hu]
        exact hs t pc hpc
  · cases h
    rfl

/-- a moment of an interleaving, with the observer -/
abbrev moment (map : M) (sched : List (Party n)) : State (Party n) (Shared (M × List (Fin n × UInt64)) n) Agent :=
  run (step iters (observed body)) (start (map, [])) sched

/-- **The timed region.** -/
theorem scaled_times_work (map : M) (sched : List (Party n)) :
    ∃ pc, (moment iters body map sched).locals none = .main pc ∧
      (pc.started = false → (moment iters body map sched).shared.map.2 = []) ∧
      (pc.stopped = true → ∀ t, (moment iters body map sched).locals (some t) = .worker .done ∧
        operationsOf t (moment iters body map sched).shared.map.2 = words iters.toNat) ∧
      (pc = .panicked → ∃ t, (moment iters body map sched).locals (some t) = .worker .panicked) ∧
      ∃ more pc', (moment iters body map (sched ++ more)).locals none = .main pc' ∧ pc'.over = true := by
  obtain ⟨pc, hpc, hmain⟩ := main_at iters (observed body) (map, []) sched
  have hworkers := worker_at iters (observed body) (map, []) sched
  have hperformed := performed_at iters body map sched
  obtain ⟨more, ⟨pc', hpc', hover⟩, -⟩ := scaled_finishes iters (observed body) (map, []) sched
  refine ⟨pc, hpc, fun hstarted => ?_, fun hstopped t => ?_, fun hfailed => ?_, more, pc', hpc', hover⟩
  · -- the gate is closed, so nobody has begun
    have hclosed : pc.opened = false := by
      cases pc with
      | opening => cases hstarted
      | _ => exact hstarted
    have hnone : ∀ t, operationsOf t (moment iters body map sched).shared.map.2 = [] := by
      intro t
      obtain ⟨w, hw, hok⟩ := hworkers t
      have hidle : w.begun = false := by
        rw [← Bool.not_eq_true]
        intro hbegun
        have hopen := hok.gate hbegun
        rw [hmain.gate, hclosed] at hopen
        cases hopen
      have hdone := hperformed t w hw
      cases w with
      | arriving => exact hdone
      | waiting => exact hdone
      | spinning => exact hdone
      | _ => cases hidle
    refine List.eq_nil_iff_forall_not_mem.2 fun e he => ?_
    have hmem : e.2 ∈ operationsOf e.1 (moment iters body map sched).shared.map.2 :=
      List.mem_map_of_mem (List.mem_filter.2 ⟨he, by simp⟩)
    rw [hnone] at hmem
    cases hmem
  · have hdone := done_of_stopped iters (observed body) (map, []) sched hstopped hpc t
    exact ⟨hdone, hperformed t _ hdone⟩
  · obtain ⟨t, ht⟩ := hmain.failed hfailed
    obtain ⟨w, hw, hok⟩ := hworkers t
    rw [hok.exits] at ht
    cases w with
    | panicked => exact ⟨t, hw⟩
    | _ => cases ht

end Harness

end WtBenchmarks.ArcticConcurrent
