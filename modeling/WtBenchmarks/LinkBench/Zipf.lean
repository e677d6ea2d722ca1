/-
The Zipf table of the LinkBench port (`ZipfCdf`, `src/bin/linkbench-worktable.rs`), in binary64 arithmetic.

Only `powf` is left open: its last bits are the platform's. What the table needs of it is the sign of its results.

- `unitF64_total`: a number of the unit interval is a fraction, rounding included;
- `new_spec`: a table of `items` entries, whose last one is not negative;
- `sample_total`: a sample is an index of the table, rounding included.
-/
import WtBenchmarks.Core.Binary64
import WtBenchmarks.Core.Word
import WtBenchmarks.Rng

namespace WtBenchmarks.LinkBench

open Binary64 (NotNegative)

/-- the number drawn is below one, and not negative -/
theorem unitF64_total : Total (fun u => Binary64.Fraction u.toModel.unpack) (Rng.unitF64 : Draw Float) := by
  refine Rng.nextU64_total.bind fun x _ => Total.pure (Binary64.fraction_mul ?_ (y := Rng.scale) (h := by decide) rfl)
  rw [UInt64.toNat_shiftRight, Nat.shiftRight_eq_div_pow]
  exact Nat.div_lt_of_lt_mul x.toNat_lt

/-- `f64::powf`: a power of a positive number is not negative -/
structure Powf where
  powf : Float → Float → Float
  not_neg : ∀ x y, 0 < x → ¬ powf x y < 0

structure ZipfCdf where
  cumulative : List Float

namespace ZipfCdf

/-- one turn of the loop in `new`: the sum so far and the table -/
def push (pow : Powf) (theta : Float) (s : Float × List Float) (rank : ℕ) : Float × List Float :=
  let sum := s.1 + 1.0 / pow.powf (UInt64.ofNat rank).toFloat theta
  (sum, s.2 ++ [sum])

def new (pow : Powf) (items : ℕ) (theta : Float) : ZipfCdf :=
  ⟨((List.range' 1 items).foldl (push pow theta) (0.0, [])).2⟩

/-- `slice::partition_point` -/
def partitionPoint (p : Float → Bool) (values : List Float) : ℕ := (values.takeWhile p).length

/-- an empty table is a panic -/
def sample (zipf : ZipfCdf) : Draw UInt64 := do
  let unit ← Rng.unitF64
  let last ← zipf.cumulative.getLast?
  let target := unit * last
  pure (UInt64.ofNat (partitionPoint (fun value => decide (value < target)) zipf.cumulative))

/-! ## The table -/

/-- the weight of a rank, whatever the power is rounded to -/
theorem weight_notNegative (pow : Powf) (theta : Float) {rank : ℕ} (h : 0 < rank) (hword : rank < 2 ^ 64) :
    NotNegative (1.0 / pow.powf (UInt64.ofNat rank).toFloat theta).toModel.unpack := by
  have hrank : 0 < (UInt64.ofNat rank).toNat := by rwa [ofNat_toNat_of_lt hword]
  exact Binary64.notNegative_one_div (NotNegative.of_not_lt (pow.not_neg _ theta (Binary64.toFloat_pos hrank)))

/-- **The table.** It has an entry for each item, and its last entry is not negative. -/
theorem new_spec (pow : Powf) (theta : Float) {items : ℕ} (h : 0 < items) (hword : items < 2 ^ 64) :
    ∃ last, (new pow items theta).cumulative.getLast? = some last ∧ NotNegative last.toModel.unpack ∧
      (new pow items theta).cumulative.length = items := by
  suffices hturns : ∀ n ≤ items, ((List.range' 1 n).foldl (push pow theta) (0.0, [])).2.length = n ∧
      NotNegative ((List.range' 1 n).foldl (push pow theta) (0.0, [])).1.toModel.unpack ∧
      (0 < n → ((List.range' 1 n).foldl (push pow theta) (0.0, [])).2.getLast? =
        some ((List.range' 1 n).foldl (push pow theta) (0.0, [])).1) by
    obtain ⟨hlen, hsum, hlast⟩ := hturns items le_rfl
    exact ⟨_, hlast h, hsum, hlen⟩
  intro n hn
  induction n with
  | zero =>
    have hzero : (0.0 : Float).toModel.unpack = .zero .positive := rfl
    refine ⟨rfl, fun m e hm heq => ?_, fun h0 => absurd h0 (lt_irrefl 0)⟩
    rw [List.range'_zero, List.foldl_nil, hzero] at heq
    cases heq
  | succ n ih =>
    obtain ⟨hlen, hsum, -⟩ := ih (by omega)
    have hweight := weight_notNegative pow theta (show 0 < 1 + n by omega) (by omega)
    rw [List.range'_concat, List.foldl_append, List.foldl_cons, List.foldl_nil, Nat.one_mul]
    refine ⟨by rw [push, List.length_append, hlen]; rfl, Binary64.notNegative_add hsum hweight, fun _ => ?_⟩
    rw [push]
    exact List.getLast?_concat

/-! ## Samples -/

/-- **Samples.** A sample is an index of the table. -/
theorem sample_total (pow : Powf) (theta : Float) {items : UInt64} (h : 0 < items.toNat) :
    Total (fun id => id < items) (sample (new pow items.toNat theta)) := by
  obtain ⟨last, hlast, hneg, hlen⟩ := new_spec pow theta h items.toNat_lt
  refine unitF64_total.bind fun unit hunit => ?_
  refine (Total.lift (P := fun v => v = last) ⟨last, hlast, rfl⟩).bind fun v hv => Total.pure ?_
  subst hv
  have hmem : v ∈ (new pow items.toNat theta).cumulative := List.mem_of_getLast? hlast
  generalize (new pow items.toNat theta).cumulative = values at *
  have hlt : partitionPoint (fun value => decide (value < unit * v)) values < items.toNat := by
    have htaken := List.takeWhile_prefix (l := values) fun value => decide (value < unit * v)
    rw [← hlen]
    refine lt_of_le_of_ne htaken.length_le fun hall => ?_
    have hself := List.takeWhile_eq_self_iff.1 (htaken.eq_of_length hall) v hmem
    exact Binary64.not_lt_mul hunit hneg (of_decide_eq_true hself)
  rw [UInt64.lt_iff_toNat_lt, ofNat_toNat_of_lt (hlt.trans items.toNat_lt)]
  exact hlt

end ZipfCdf

end WtBenchmarks.LinkBench
