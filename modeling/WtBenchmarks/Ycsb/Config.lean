/-
The YCSB configuration (`src/config.rs`) and the workload and distribution names (`src/ycsb/mod.rs`).

The Zipf exponent is a number of an exact ordered field `K`. Command-line parsing is left out; `validate` is the check
every accepted configuration passed.
-/
import WtBenchmarks.Core.Total
import WtBenchmarks.Core.Word
import Mathlib.Algebra.Order.Field.Basic

namespace WtBenchmarks.Ycsb

inductive Workload where
  | A | B | C | D | E | F
deriving DecidableEq, Repr

inductive Distribution where
  | uniform | zipfian | latest
deriving DecidableEq, Repr

def Workload.defaultDistribution : Workload → Distribution
  | .D => .latest
  | .A | .B | .C | .E | .F => .zipfian

structure Config (K : Type) where
  workload : Workload
  records : UInt64
  operations : UInt64
  threads : ℕ
  repetitions : ℕ
  sampleEvery : UInt64
  seed : UInt64
  fieldBytes : ℕ
  scanMax : UInt64
  zipfTheta : K
  distributionOverride : Option Distribution

namespace Config

variable {K : Type} [Field K] [LinearOrder K]

def validate (config : Config K) : Except String Unit :=
  if config.records = 0 then .error "--records must be greater than zero"
  else if config.operations = 0 then .error "--operations must be greater than zero"
  else if config.threads = 0 then .error "--threads must be greater than zero"
  else if config.repetitions = 0 then .error "--repetitions must be greater than zero"
  else if config.sampleEvery = 0 then .error "--sample-every must be greater than zero"
  else if config.fieldBytes = 0 then .error "--field-bytes must be greater than zero"
  else if config.scanMax = 0 then .error "--scan-max must be greater than zero"
  else if ¬ (0 ≤ config.zipfTheta ∧ config.zipfTheta < 1) then .error "--zipf-theta must be in [0, 1)"
  else if checkedAdd config.records config.operations = none then
    .error "--records plus --operations must fit u64"
  else .ok ()

/-- `distribution_override.unwrap_or_else(default_distribution)` -/
def distribution (config : Config K) : Distribution :=
  config.distributionOverride.getD config.workload.defaultDistribution

/-- what an accepted configuration guarantees -/
structure Accepted (config : Config K) : Prop where
  records : 0 < config.records.toNat
  operations : 0 < config.operations.toNat
  threads : 0 < config.threads
  scanMax : 0 < config.scanMax
  fits : config.records.toNat + config.operations.toNat < 2 ^ 64

theorem accepted_of_validate {config : Config K} (h : config.validate = .ok ()) : config.Accepted := by
  unfold validate at h
  obtain ⟨hr, h⟩ := check_ok h
  obtain ⟨ho, h⟩ := check_ok h
  obtain ⟨ht, h⟩ := check_ok h
  obtain ⟨-, h⟩ := check_ok h
  obtain ⟨-, h⟩ := check_ok h
  obtain ⟨-, h⟩ := check_ok h
  obtain ⟨hs, h⟩ := check_ok h
  obtain ⟨-, h⟩ := check_ok h
  obtain ⟨hf, -⟩ := check_ok h
  refine ⟨toNat_pos_of_ne hr, toNat_pos_of_ne ho, Nat.pos_of_ne_zero ht, ?_, ?_⟩
  · rw [UInt64.lt_iff_toNat_lt]; exact toNat_pos_of_ne hs
  · by_contra hlt
    exact hf (if_neg hlt)

end Config

end WtBenchmarks.Ycsb
