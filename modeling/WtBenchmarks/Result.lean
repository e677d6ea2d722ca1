/-
The latency summary of the suite (`src/result.rs`): the samples sorted, and the samples at the ranks of four fractions.

The rank of a fraction is the source's `((len - 1) as f64 * fraction).ceil() as usize`, computed without rounding.

- `percentile_isQuantile`: the sample at the rank of any fraction between zero and one is a quantile of the samples;
- `fromSamples_quantiles`: the summary.
-/
import WtBenchmarks.Core.OrderStatistics

namespace WtBenchmarks.Result

open OrderStatistics

/-! ## Model -/

structure LatencySummary where
  samples : ℕ
  p50Ns : Option UInt64
  p95Ns : Option UInt64
  p99Ns : Option UInt64
  p999Ns : Option UInt64
  maxNs : Option UInt64
deriving DecidableEq, Repr

/-- the rank of a fraction among `len` samples -/
def rank (len : ℕ) (fraction : ℚ) : ℕ := ⌈((len - 1 : ℕ) : ℚ) * fraction⌉₊

def percentile (samples : List UInt64) (fraction : ℚ) : Option UInt64 :=
  if samples.isEmpty then none else samples[rank samples.length fraction]?

def LatencySummary.fromSamples (samples : List UInt64) : LatencySummary :=
  let samples := ascending samples
  { samples := samples.length
    p50Ns := percentile samples (50 / 100)
    p95Ns := percentile samples (95 / 100)
    p99Ns := percentile samples (99 / 100)
    p999Ns := percentile samples (999 / 1000)
    maxNs := samples.getLast? }

/-! ## Quantiles -/

/-- at least a fraction of the samples are at most the value, and at least the rest of them, but for one, at least it -/
structure IsQuantile (samples : List UInt64) (fraction : ℚ) (value : UInt64) : Prop where
  mem : value ∈ samples
  below : fraction * samples.length ≤ samples.countP fun s => decide (s ≤ value)
  above : (1 - fraction) * samples.length < (samples.countP fun s => decide (value ≤ s)) + 1

section Rank

variable {len : ℕ} {fraction fraction' : ℚ}

/-- the rank of a fraction is in range -/
theorem rank_lt (hlen : 0 < len) (h : fraction ≤ 1) : rank len fraction < len := by
  have hle : ((len - 1 : ℕ) : ℚ) * fraction ≤ (len - 1 : ℕ) := mul_le_of_le_one_right (Nat.cast_nonneg _) h
  have hrank : rank len fraction ≤ len - 1 := Nat.ceil_le.2 hle
  omega

theorem rank_mono (h : fraction ≤ fraction') : rank len fraction ≤ rank len fraction' :=
  Nat.ceil_mono (mul_le_mul_of_nonneg_left h (Nat.cast_nonneg _))

/-- with its own place, the rank covers the fraction -/
theorem rank_below (hlen : 0 < len) (h : fraction ≤ 1) : fraction * len ≤ (rank len fraction : ℚ) + 1 := by
  have hceil : ((len - 1 : ℕ) : ℚ) * fraction ≤ rank len fraction := Nat.le_ceil _
  rw [Nat.cast_pred hlen] at hceil
  linarith

/-- the places from the rank on cover what is left, but for one -/
theorem rank_above (hlen : 0 < len) (h : 0 ≤ fraction) : (1 - fraction) * len < (len - rank len fraction : ℚ) + 1 := by
  have hceil : (rank len fraction : ℚ) < ((len - 1 : ℕ) : ℚ) * fraction + 1 :=
    Nat.ceil_lt_add_one (mul_nonneg (Nat.cast_nonneg _) h)
  rw [Nat.cast_pred hlen] at hceil
  linarith

end Rank

variable {samples : List UInt64}

theorem percentile_ascending (h : samples ≠ []) (fraction : ℚ) :
    percentile (ascending samples) fraction = (ascending samples)[rank samples.length fraction]? := by
  have hne : ascending samples ≠ [] := fun hnil => h (List.length_eq_zero_iff.1 (by rw [← ascending_length, hnil]; rfl))
  rw [percentile, if_neg (by simpa using hne), ascending_length]

/-- **Any fraction.** The sample at its rank is a quantile. -/
theorem percentile_isQuantile (h : samples ≠ []) (fraction : ℚ) (h0 : 0 ≤ fraction) (h1 : fraction ≤ 1) :
    ∃ value, percentile (ascending samples) fraction = some value ∧ IsQuantile samples fraction value := by
  have hlen : 0 < samples.length := List.length_pos_iff.2 h
  have hrank := rank_lt hlen h1
  obtain ⟨value, hmem, hvalue⟩ := exists_at_rank (l := samples) hrank
  obtain ⟨hbelow, habove⟩ := counts_at_rank hvalue
  refine ⟨value, by rw [percentile_ascending h, hvalue], hmem, ?_, ?_⟩
  · calc fraction * samples.length ≤ (rank samples.length fraction : ℚ) + 1 := rank_below hlen h1
      _ ≤ samples.countP fun s => decide (s ≤ value) := by exact_mod_cast hbelow
  · calc (1 - fraction) * samples.length < (samples.length - rank samples.length fraction : ℚ) + 1 :=
          rank_above hlen h0
      _ = ((samples.length - rank samples.length fraction : ℕ) : ℚ) + 1 := by rw [Nat.cast_sub hrank.le]
      _ ≤ (samples.countP fun s => decide (value ≤ s)) + 1 := by exact_mod_cast Nat.succ_le_succ habove

/-- a larger fraction has a larger percentile -/
theorem percentile_mono (h : samples ≠ []) {fraction fraction' : ℚ} (hle : fraction ≤ fraction') {a b : UInt64}
    (ha : percentile (ascending samples) fraction = some a) (hb : percentile (ascending samples) fraction' = some b) :
    a ≤ b := by
  rw [percentile_ascending h] at ha hb
  exact ascending_le (rank_mono hle) ha hb

/-- the quantile for everything bounds all samples -/
theorem IsQuantile.le_of_all {value : UInt64} (h : IsQuantile samples 1 value) : ∀ s ∈ samples, s ≤ value := by
  have hbelow := h.below
  rw [one_mul, Nat.cast_le] at hbelow
  have hall : samples.countP (fun s => decide (s ≤ value)) = samples.length := le_antisymm List.countP_le_length hbelow
  intro s hs
  exact of_decide_eq_true (List.countP_eq_length.1 hall s hs)

/-- the last of the sorted samples is the percentile of everything -/
theorem getLast?_eq_percentile (h : samples ≠ []) :
    (ascending samples).getLast? = percentile (ascending samples) 1 := by
  have hrank : rank samples.length 1 = samples.length - 1 := by rw [rank, mul_one, Nat.ceil_natCast]
  rw [percentile_ascending h, hrank, List.getLast?_eq_getElem?, ascending_length]

/-- **Latency percentiles are order statistics.** The summary of any samples has all its values; they are ascending, all
of them samples; each is a quantile for its fraction, read at a rank in range, and the largest bounds all samples. The
order of the samples does not matter. -/
theorem fromSamples_quantiles (samples : List UInt64) (h : samples ≠ []) :
    (∀ samples', samples.Perm samples' → LatencySummary.fromSamples samples' = LatencySummary.fromSamples samples) ∧
    ∃ p50 p95 p99 p999 max,
      LatencySummary.fromSamples samples =
        ⟨samples.length, some p50, some p95, some p99, some p999, some max⟩ ∧
      p50 ≤ p95 ∧ p95 ≤ p99 ∧ p99 ≤ p999 ∧ p999 ≤ max ∧ max ∈ samples ∧ (∀ s ∈ samples, s ≤ max) ∧
      (∀ fraction ∈ [(50 / 100 : ℚ), 95 / 100, 99 / 100, 999 / 1000], rank samples.length fraction < samples.length) ∧
      IsQuantile samples (50 / 100) p50 ∧ IsQuantile samples (95 / 100) p95 ∧ IsQuantile samples (99 / 100) p99 ∧
      IsQuantile samples (999 / 1000) p999 := by
  have hlen : 0 < samples.length := List.length_pos_iff.2 h
  obtain ⟨p50, hp50, hq50⟩ := percentile_isQuantile h (50 / 100) (by norm_num) (by norm_num)
  obtain ⟨p95, hp95, hq95⟩ := percentile_isQuantile h (95 / 100) (by norm_num) (by norm_num)
  obtain ⟨p99, hp99, hq99⟩ := percentile_isQuantile h (99 / 100) (by norm_num) (by norm_num)
  obtain ⟨p999, hp999, hq999⟩ := percentile_isQuantile h (999 / 1000) (by norm_num) (by norm_num)
  obtain ⟨max, hmax, hqmax⟩ := percentile_isQuantile h 1 zero_le_one le_rfl
  refine ⟨fun samples' hperm => ?_, p50, p95, p99, p999, max, ?_, percentile_mono h (by norm_num) hp50 hp95,
    percentile_mono h (by norm_num) hp95 hp99, percentile_mono h (by norm_num) hp99 hp999,
    percentile_mono h (by norm_num) hp999 hmax, hqmax.mem, fun s hs => ?_, fun fraction hfraction => ?_, hq50, hq95,
    hq99, hq999⟩
  · unfold LatencySummary.fromSamples
    rw [ascending_eq_of_perm hperm]
  · unfold LatencySummary.fromSamples
    dsimp only
    rw [hp50, hp95, hp99, hp999, getLast?_eq_percentile h, hmax, ascending_length]
  · exact hqmax.le_of_all s hs
  · refine rank_lt hlen ?_
    simp only [List.mem_cons, List.not_mem_nil, or_false] at hfraction
    rcases hfraction with rfl | rfl | rfl | rfl <;> norm_num

theorem fromSamples_quantiles_two :
    ∃ p50 p95 p99 p999 max,
      LatencySummary.fromSamples [7, 5] = ⟨2, some p50, some p95, some p99, some p999, some max⟩ ∧ p50 ≤ max ∧
      IsQuantile [7, 5] (50 / 100) p50 := by
  obtain ⟨-, p50, p95, p99, p999, max, heq, h1, h2, h3, h4, -, -, -, hq, -⟩ := fromSamples_quantiles [7, 5] (by decide)
  exact ⟨p50, p95, p99, p999, max, heq, UInt64.le_trans h1 (UInt64.le_trans h2 (UInt64.le_trans h3 h4)), hq⟩

end WtBenchmarks.Result
