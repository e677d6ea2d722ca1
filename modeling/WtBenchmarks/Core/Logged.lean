/-
Computations that write a log, read what is in it, and may stop.

`Logged ε σ α` appends events of type `ε` to the log it runs on and ends with a value, or with the reason of type `σ`
for which it stopped; the log up to there is kept either way. `Appends log Q m` says what `m` appends to `log` and how
it ends. Its rules follow the shape of the program: `pure`, `stop`, what follows an `emit` or a `history`, and `bind`.
-/
import Mathlib.Data.List.Basic

namespace WtBenchmarks

/-- from a log to a result and a longer log -/
def Logged (ε σ α : Type) : Type := List ε → Except σ α × List ε

namespace Logged

variable {ε σ α β : Type}

instance : Monad (Logged ε σ) where
  pure a := fun log => (.ok a, log)
  bind m f := fun log =>
    match m log with
    | (.ok a, log) => f a log
    | (.error reason, log) => (.error reason, log)

def emit (event : ε) : Logged ε σ Unit := fun log => (.ok (), log ++ [event])

def history : Logged ε σ (List ε) := fun log => (.ok log, log)

def stop (reason : σ) : Logged ε σ α := fun log => (.error reason, log)

/-- from `log` on, `m` appends events and ends with a result that satisfy `Q` -/
def Appends (log : List ε) (Q : List ε → Except σ α → Prop) (m : Logged ε σ α) : Prop :=
  ∃ events result, m log = (result, log ++ events) ∧ Q events result

namespace Appends

variable {log : List ε} {Q : List ε → Except σ α → Prop} {R : List ε → Except σ β → Prop}

theorem pure {a : α} (h : Q [] (.ok a)) : Appends log Q (Pure.pure a) :=
  ⟨[], .ok a, by rw [List.append_nil]; rfl, h⟩

theorem stop {reason : σ} (h : Q [] (.error reason)) : Appends log Q (Logged.stop reason) :=
  ⟨[], .error reason, by rw [List.append_nil]; rfl, h⟩

theorem emitted {Q : List ε → Except σ Unit → Prop} {event : ε} (h : Q [event] (.ok ())) :
    Appends log Q (Logged.emit event) := ⟨[event], .ok (), rfl, h⟩

theorem emit {f : Unit → Logged ε σ β} {event : ε}
    (h : Appends (log ++ [event]) (fun events result => R (event :: events) result) (f ())) :
    Appends log R (Logged.emit event >>= f) := by
  obtain ⟨events, result, hrun, hR⟩ := h
  refine ⟨event :: events, result, ?_, hR⟩
  rw [← List.append_cons] at hrun
  exact hrun

theorem history {f : List ε → Logged ε σ β} (h : Appends log R (f log)) : Appends log R (Logged.history >>= f) := h

theorem mono {Q' : List ε → Except σ α → Prop} {m : Logged ε σ α} (hm : Appends log Q m)
    (h : ∀ events result, Q events result → Q' events result) : Appends log Q' m := by
  obtain ⟨events, result, hrun, hQ⟩ := hm
  exact ⟨events, result, hrun, h events result hQ⟩

/-- **Sequence.** The second computation continues the log of the first, unless the first one stopped. -/
theorem bind {m : Logged ε σ α} {f : α → Logged ε σ β} (hm : Appends log Q m)
    (hf : ∀ events a, Q events (.ok a) → Appends (log ++ events) (fun more result => R (events ++ more) result) (f a))
    (hstop : ∀ events reason, Q events (.error reason) → R events (.error reason)) : Appends log R (m >>= f) := by
  obtain ⟨events, result, hrun, hQ⟩ := hm
  cases result with
  | error reason =>
    refine ⟨events, .error reason, ?_, hstop events reason hQ⟩
    change (match m log with | (.ok a, log) => f a log | (.error reason, log) => (.error reason, log)) = _
    rw [hrun]
  | ok a =>
    obtain ⟨more, result', hrun', hR⟩ := hf events a hQ
    refine ⟨events ++ more, result', ?_, hR⟩
    change (match m log with | (.ok a, log) => f a log | (.error reason, log) => (.error reason, log)) = _
    rw [hrun, ← List.append_assoc]
    exact hrun'

end Appends

end Logged

end WtBenchmarks
