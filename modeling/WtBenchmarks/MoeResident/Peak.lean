/-
The allocator's counters of `src/bin/moe-resident-memory-ab.rs`: a lock-free maximum.

Threads run the hooks of `CountingAllocator`, one atomic step at a time. `record_alloc` adds to LIVE, ALLOCATED and
ALLOCATIONS and then raises PEAK to the value LIVE got, in a loop around `compare_exchange_weak`.

- `step_cases`: what one step can do to PEAK, to the values LIVE got and to the value its thread holds;
- `Inv`: every value LIVE got is covered by PEAK or still in the hands of its call, and PEAK is one of these values or
  the initial one;
- `run_peak_le`: PEAK never decreases;
- `peak_is_maximum`: between two moments of any interleaving PEAK does not decrease, and when no call is under way it is
  the maximum of its initial value and of every value LIVE got.

A spurious failure of the weak exchange is an answer of `spurious`, asked at every attempt of every thread. Counters are
64-bit words, `+ bytes` panics where it overflows in a build with `checks`.
-/
import WtBenchmarks.Core.Threads
import Mathlib.Order.Bounds.Defs

namespace WtBenchmarks.MoeResident

/-! ## Calls -/

/-- a call of the allocator: the sizes of its layouts, and whether the system allocator answers null -/
inductive Call
  | alloc (size : UInt64) (isNull : Bool)
  | allocZeroed (size : UInt64) (isNull : Bool)
  | dealloc (size : UInt64)
  | realloc (old newSize : UInt64) (isNull : Bool)
  deriving DecidableEq

/-- what a call does to the counters -/
inductive Effect
  | recordAlloc (bytes : UInt64)
  | fetchSub (bytes : UInt64)
  deriving DecidableEq

def Call.effect : Call → Option Effect
  | .alloc size isNull => if !isNull then some (.recordAlloc size) else none
  | .allocZeroed size isNull => if !isNull then some (.recordAlloc size) else none
  | .dealloc size => some (.fetchSub size)
  | .realloc old newSize isNull =>
    if !isNull then
      if old ≤ newSize then some (.recordAlloc (newSize - old)) else some (.fetchSub (old - newSize))
    else none

/-! ## Threads -/

/-- the atomics; the program does not have `lives`, the values LIVE got from a call of `record_alloc` -/
structure Shared where
  live : UInt64
  peak : UInt64
  allocated : UInt64
  allocations : UInt64
  lives : List UInt64
  deriving DecidableEq

/-- the next atomic step of a thread; an exchange is tried with a `live` above the `peak` seen last -/
inductive Pc
  | idle
  | addAllocated (bytes live : UInt64)
  | addAllocations (live : UInt64)
  | loadPeak (live : UInt64)
  | exchange (live peak : UInt64) (higher : peak < live)
  | panicked (live : UInt64)
  deriving DecidableEq

structure Thread where
  calls : List Call
  pc : Pc
  attempts : ℕ
  deriving DecidableEq

/-- `while live > peak` -/
def whileLive (live peak : UInt64) : Pc := if h : peak < live then .exchange live peak h else .idle

variable {T : Type} (checks : Bool) (spurious : T → ℕ → Bool)

/-- one atomic step of thread `t` -/
def step (t : T) (g : Shared) (l : Thread) : Option (Shared × Thread) :=
  match l.pc with
  | .idle =>
    match l.calls with
    | [] => none
    | call :: calls =>
      match call.effect with
      | none => some (g, { l with calls := calls })
      | some (.fetchSub bytes) => some ({ g with live := g.live - bytes }, { l with calls := calls })
      | some (.recordAlloc bytes) =>
        let live := g.live + bytes
        let pc := if checks && decide (2 ^ 64 ≤ g.live.toNat + bytes.toNat) then .panicked live
          else .addAllocated bytes live
        some ({ g with live := live, lives := g.lives ++ [live] }, { l with calls := calls, pc := pc })
  | .addAllocated bytes live =>
    some ({ g with allocated := g.allocated + bytes }, { l with pc := .addAllocations live })
  | .addAllocations live => some ({ g with allocations := g.allocations + 1 }, { l with pc := .loadPeak live })
  | .loadPeak live => some (g, { l with pc := whileLive live g.peak })
  | .exchange live peak _ =>
    if g.peak = peak ∧ spurious t l.attempts = false then
      some ({ g with peak := live }, { l with pc := .idle, attempts := l.attempts + 1 })
    else some (g, { l with pc := whileLive live g.peak, attempts := l.attempts + 1 })
  | .panicked _ => none

/-- every thread before its first call -/
def start (g : Shared) (calls : T → List Call) : Threads.State T Shared Thread :=
  ⟨{ g with lives := [] }, fun t => ⟨calls t, .idle, 0⟩⟩

/-! ## What a step can do -/

/-- the value of LIVE that a call under way has not yet compared with PEAK for the last time -/
def Pc.pending : Pc → Option UInt64
  | .idle => none
  | .addAllocated _ live => some live
  | .addAllocations live => some live
  | .loadPeak live => some live
  | .exchange live _ _ => some live
  | .panicked live => some live

theorem pending_whileLive (live peak : UInt64) :
    (whileLive live peak).pending = some live ∨ (whileLive live peak).pending = none ∧ live ≤ peak := by
  by_cases h : peak < live
  · exact Or.inl (by simp [whileLive, h, Pc.pending])
  · exact Or.inr ⟨by simp [whileLive, h, Pc.pending], UInt64.not_lt.1 h⟩

/-- the four things a step can do to PEAK, to the values LIVE got and to the value its thread holds -/
inductive Change (g g' : Shared) (held held' : Option UInt64) : Prop
  | rest (peak : g'.peak = g.peak) (lives : g'.lives = g.lives) (held : held' = held)
  | grow (live : UInt64) (peak : g'.peak = g.peak) (lives : g'.lives = g.lives ++ [live]) (none : held = none)
      (held : held' = some live)
  | covered (live : UInt64) (peak : g'.peak = g.peak) (lives : g'.lives = g.lives) (held : held = some live)
      (none : held' = none) (le : live ≤ g.peak)
  | raise (live : UInt64) (peak : g'.peak = live) (lives : g'.lives = g.lives) (held : held = some live)
      (none : held' = none) (lt : g.peak < live)

variable {checks spurious}

theorem whileLive_change {g : Shared} {live : UInt64} :
    Change g g (some live) (whileLive live g.peak).pending := by
  obtain h | ⟨h, hle⟩ := pending_whileLive live g.peak
  · exact .rest rfl rfl h
  · exact .covered live rfl rfl rfl h hle

theorem step_cases {t : T} {g g' : Shared} {l l' : Thread} (h : step checks spurious t g l = some (g', l')) :
    Change g g' l.pc.pending l'.pc.pending := by
  obtain ⟨calls, pc, attempts⟩ := l
  cases pc with
  | idle =>
    cases calls with
    | nil => cases h
    | cons call calls =>
      rcases heffect : call.effect with _ | ⟨bytes⟩ | ⟨bytes⟩ <;> simp only [step, heffect] at h <;> cases h
      · exact .rest rfl rfl rfl
      · refine .grow (g.live + bytes) rfl rfl rfl ?_
        dsimp only
        split_ifs <;> rfl
      · exact .rest rfl rfl rfl
  | addAllocated bytes live => cases h; exact .rest rfl rfl rfl
  | addAllocations live => cases h; exact .rest rfl rfl rfl
  | loadPeak live => cases h; exact whileLive_change
  | exchange live peak higher =>
    simp only [step] at h
    split_ifs at h with hok
    · cases h
      exact .raise live rfl rfl rfl rfl (hok.1 ▸ higher)
    · cases h
      exact whileLive_change
  | panicked live => cases h

theorem Change.peak_le {g g' : Shared} {held held' : Option UInt64} (h : Change g g' held held') :
    g.peak ≤ g'.peak := by
  cases h with
  | rest peak | grow _ peak | covered _ peak => rw [peak]; exact UInt64.le_refl _
  | raise live peak _ _ _ lt => rw [peak]; exact UInt64.le_of_lt lt

section Change

variable {g g' : Shared} {held held' : Option UInt64} (h : Change g g' held held') {v : UInt64}
include h

theorem Change.lives_subset (hv : v ∈ g.lives) : v ∈ g'.lives := by
  cases h with
  | rest _ lives | covered _ _ lives | raise _ _ lives => rwa [lives]
  | grow live _ lives => rw [lives]; exact List.mem_append_left _ hv

/-- a new value of LIVE is held by the call that got it -/
theorem Change.lives_mem (hv : v ∈ g'.lives) : v ∈ g.lives ∨ held' = some v := by
  cases h with
  | rest _ lives | covered _ _ lives | raise _ _ lives => rw [lives] at hv; exact Or.inl hv
  | grow live _ lives _ held =>
    rw [lives, List.mem_append, List.mem_singleton] at hv
    exact hv.imp_right fun hv => by rw [held, hv]

/-- a call lets go of its value when PEAK is at least as high -/
theorem Change.covers (hv : held = some v) : v ≤ g'.peak ∨ held' = some v := by
  cases h with
  | rest _ _ same => exact Or.inr (same.trans hv)
  | grow _ _ _ none => rw [none] at hv; cases hv
  | covered live peak _ held _ le =>
    cases held.symm.trans hv
    exact Or.inl (peak ▸ le)
  | raise live peak _ held =>
    cases held.symm.trans hv
    exact Or.inl (peak ▸ UInt64.le_refl _)

theorem Change.held_mem (hheld : ∀ v, held = some v → v ∈ g.lives) (hv : held' = some v) : v ∈ g'.lives := by
  cases h with
  | rest _ lives same => exact lives ▸ hheld v (same.symm.trans hv)
  | grow live _ lives _ held =>
    cases held.symm.trans hv
    rw [lives]
    exact List.mem_append_right _ (List.mem_singleton_self _)
  | covered _ _ _ _ none | raise _ _ _ _ none => rw [none] at hv; cases hv

theorem Change.peak_mem (hheld : ∀ v, held = some v → v ∈ g.lives) : g'.peak = g.peak ∨ g'.peak ∈ g'.lives := by
  cases h with
  | rest peak | grow _ peak | covered _ peak => exact Or.inl peak
  | raise live peak lives held => exact Or.inr (by rw [peak, lives]; exact hheld live held)

end Change

/-! ## Runs -/

/-- nothing that LIVE got is lost, and PEAK is not made up -/
structure Inv (initial : UInt64) (s : Threads.State T Shared Thread) : Prop where
  covered : ∀ v ∈ s.shared.lives, v ≤ s.shared.peak ∨ ∃ t, (s.locals t).pc.pending = some v
  held : ∀ t v, (s.locals t).pc.pending = some v → v ∈ s.shared.lives
  origin : s.shared.peak = initial ∨ s.shared.peak ∈ s.shared.lives

theorem start_inv (g : Shared) (calls : T → List Call) : Inv g.peak (start g calls) where
  covered _ hv := by cases hv
  held _ _ hv := by cases hv
  origin := Or.inl rfl

section Runs

variable [DecidableEq T] {initial : UInt64} {s : Threads.State T Shared Thread}

theorem inv_step {t : T} {g : Shared} {l : Thread} (hs : Inv initial s)
    (hstep : step checks spurious t s.shared (s.locals t) = some (g, l)) :
    Inv initial ⟨g, Function.update s.locals t l⟩ := by
  have hchange := step_cases hstep
  have hheld := hs.held t
  refine ⟨fun v hv => ?_, fun u v hu => ?_, ?_⟩
  · obtain hold | hnew := hchange.lives_mem hv
    · obtain hle | ⟨u, hu⟩ := hs.covered v hold
      · exact Or.inl (UInt64.le_trans hle hchange.peak_le)
      · by_cases hut : u = t
        · subst hut
          exact (hchange.covers hu).imp_right fun h => ⟨u, by simpa using h⟩
        · exact Or.inr ⟨u, by simpa [Function.update_of_ne hut] using hu⟩
    · exact Or.inr ⟨t, by simpa using hnew⟩
  · by_cases hut : u = t
    · subst hut
      exact hchange.held_mem hheld (by simpa using hu)
    · refine hchange.lives_subset (hs.held u v ?_)
      simpa [Function.update_of_ne hut] using hu
  · obtain hsame | hmem := hchange.peak_mem hheld
    · exact hs.origin.imp (fun h => hsame.trans h) fun h => by
        have hmem := hchange.lives_subset h
        rwa [← hsame] at hmem
    · exact Or.inr hmem

theorem inv_run (hs : Inv initial s) (sched : List T) : Inv initial (Threads.run (step checks spurious) s sched) :=
  Threads.run_inv (Inv initial) (fun _ _ _ _ hs hstep => inv_step hs hstep) s hs sched

/-- PEAK never decreases, whatever the threads hold -/
theorem run_peak_le (s : Threads.State T Shared Thread) (sched : List T) :
    s.shared.peak ≤ (Threads.run (step checks spurious) s sched).shared.peak :=
  Threads.run_inv (fun s' => s.shared.peak ≤ s'.shared.peak)
    (fun _ _ _ _ h hstep => UInt64.le_trans h (step_cases hstep).peak_le) s (UInt64.le_refl _) sched

/-- **The peak is a maximum.** PEAK does not decrease from one moment of an interleaving to a later one, and at a moment
when no call is under way it is the greatest of its initial value and the values LIVE got. -/
theorem peak_is_maximum (checks : Bool) (spurious : T → ℕ → Bool) (g : Shared) (calls : T → List Call)
    (sched later : List T) :
    (Threads.run (step checks spurious) (start g calls) sched).shared.peak ≤
      (Threads.run (step checks spurious) (start g calls) (sched ++ later)).shared.peak ∧
    ((∀ t, ((Threads.run (step checks spurious) (start g calls) sched).locals t).pc = .idle) →
      IsGreatest {v | v = g.peak ∨ v ∈ (Threads.run (step checks spurious) (start g calls) sched).shared.lives}
        (Threads.run (step checks spurious) (start g calls) sched).shared.peak) := by
  refine ⟨?_, fun hidle => ?_⟩
  · rw [Threads.run_append]
    exact run_peak_le _ later
  · have hinv : Inv g.peak (Threads.run (step checks spurious) (start g calls) sched) :=
      inv_run (start_inv g calls) sched
    refine ⟨hinv.origin, fun v hv => ?_⟩
    obtain rfl | hv := hv
    · exact run_peak_le (start g calls) sched
    · obtain hle | ⟨t, ht⟩ := hinv.covered v hv
      · exact hle
      · rw [hidle t] at ht
        cases ht

end Runs

/-- two calls race from a peak of 3: one exchange fails spuriously, one because the peak has moved -/
theorem peak_is_maximum_race : IsGreatest {v | v = 3 ∨ v ∈ [5, 12]} (12 : UInt64) :=
  (peak_is_maximum true (fun t n => t && n == 0) ⟨0, 3, 0, 0, []⟩
    (fun t => if t then [.alloc 7 false] else [.realloc 20 25 false, .dealloc 25])
    [false, true, true, false, true, false, true, false, true, false, true, true] []).2 (by decide)

end WtBenchmarks.MoeResident
