/-
The Zipf CDF shared by the generators (`ZipfCdf`, `src/ycsb/generator.rs`), in exact arithmetic.

The numbers live in any ordered field `K` with a power function that is positive on positive bases (`ExactPow`); the
reals with `x ^ y` are one (`realPow`). The cumulative table is positive and strictly rising by construction.

- `ensure_length`: `ensure items` grows the table to at least `items` entries and never shrinks it.
- `sampleToken_lt`: with a positive bound inside the table, the sampled rank exists and is below the bound.
-/
import Mathlib.Analysis.SpecialFunctions.Pow.Real
import Mathlib.Tactic

namespace WtBenchmarks.Ycsb

variable {K : Type} [Field K] [LinearOrder K] [IsStrictOrderedRing K]

/-- `powf` in exact arithmetic -/
structure ExactPow (K : Type) [Field K] [LinearOrder K] where
  powf : K → K → K
  powf_pos : ∀ {x y : K}, 0 < x → 0 < powf x y

noncomputable def realPow : ExactPow ℝ := ⟨fun x y => x ^ y, fun hx => Real.rpow_pos_of_pos hx _⟩

/-- the cumulative weights of the ranks seen so far -/
structure ZipfCdf (pow : ExactPow K) where
  cumulative : List K
  theta : K
  positive : ∀ v ∈ cumulative, 0 < v
  rising : cumulative.Pairwise (· < ·)

namespace ZipfCdf

variable {pow : ExactPow K}

/-- the running sum the table ends with -/
def last (zipf : ZipfCdf pow) : K := zipf.cumulative.getLastD 0

/-- the weight of a rank counted from one -/
def weight (pow : ExactPow K) (theta : K) (rank : ℕ) : K := 1 / pow.powf rank theta

theorem weight_pos (theta : K) {rank : ℕ} (h : 0 < rank) : 0 < weight pow theta rank :=
  one_div_pos.2 (pow.powf_pos (Nat.cast_pos.2 h))

omit [IsStrictOrderedRing K] in
theorem le_last (zipf : ZipfCdf pow) (v : K) (hv : v ∈ zipf.cumulative) : v ≤ zipf.last := by
  have hr := zipf.rising
  unfold last
  rcases List.eq_nil_or_concat zipf.cumulative with h | ⟨init, x, h⟩
  · simp [h] at hv
  · rw [h, List.concat_eq_append] at hv hr ⊢
    rw [List.getLastD_concat]
    rcases List.mem_append.1 hv with hv | hv
    · exact ((List.pairwise_append.1 hr).2.2 v hv x (List.mem_singleton.2 rfl)).le
    · exact (List.mem_singleton.1 hv).le

omit [IsStrictOrderedRing K] in
theorem last_nonneg (zipf : ZipfCdf pow) : 0 ≤ zipf.last := by
  unfold last
  rcases List.eq_nil_or_concat zipf.cumulative with h | ⟨init, x, h⟩
  · simp [h]
  · have := zipf.positive x (by simp [h])
    simpa [h] using this.le

/-- one turn of the loop in `ensure`: its rank is one more than the entries already there -/
def push (zipf : ZipfCdf pow) : ZipfCdf pow where
  cumulative := zipf.cumulative ++ [zipf.last + weight pow zipf.theta (zipf.cumulative.length + 1)]
  theta := zipf.theta
  positive v hv := by
    rcases List.mem_append.1 hv with hv | hv
    · exact zipf.positive v hv
    · rw [List.mem_singleton.1 hv]
      exact add_pos_of_nonneg_of_pos zipf.last_nonneg (weight_pos _ (Nat.succ_pos _))
  rising := by
    refine List.pairwise_append.2 ⟨zipf.rising, List.pairwise_singleton _ _, fun v hv w hw => ?_⟩
    rw [List.mem_singleton.1 hw]
    exact lt_add_of_le_of_pos (zipf.le_last v hv) (weight_pos _ (Nat.succ_pos _))

/-- `for rank in self.cumulative.len() + 1..=items` -/
def ensure (zipf : ZipfCdf pow) (items : ℕ) : ZipfCdf pow := push^[items - zipf.cumulative.length] zipf

def new (pow : ExactPow K) (items : ℕ) (theta : K) : ZipfCdf pow :=
  ensure ⟨[], theta, by simp, List.Pairwise.nil⟩ items

/-- the top 53 bits of a token, as a number in the unit interval -/
def unit (sample : UInt64) : K := ((sample >>> 11).toNat : K) / 2 ^ 53

/-- `slice::partition_point` -/
def partitionPoint (p : K → Bool) (values : List K) : ℕ := (values.takeWhile p).length

/-- `sample_token`; a bound of zero or past the table is a panic -/
def sampleToken (zipf : ZipfCdf pow) (sample : UInt64) (bound : ℕ) : Option ℕ :=
  if bound = 0 then none
  else
    match zipf.cumulative[bound - 1]? with
    | none => none
    | some top =>
      let target := unit sample * top
      some (partitionPoint (fun value => decide (value < target)) (zipf.cumulative.take bound))

theorem push_iterate_length (zipf : ZipfCdf pow) (n : ℕ) :
    (push^[n] zipf).cumulative.length = zipf.cumulative.length + n := by
  induction n generalizing zipf with
  | zero => rfl
  | succ n ih =>
    rw [Function.iterate_succ_apply, ih]
    simp only [push, List.length_append, List.length_singleton]; omega

theorem ensure_length (zipf : ZipfCdf pow) (items : ℕ) :
    (zipf.ensure items).cumulative.length = max zipf.cumulative.length items := by
  rw [ensure, push_iterate_length]; omega

/-- the unit interval of a 64-bit token excludes one -/
theorem unit_lt_one (sample : UInt64) : (unit sample : K) < 1 := by
  have h : (sample >>> 11).toNat < 2 ^ 53 := by
    rw [UInt64.toNat_shiftRight]
    have := sample.toNat_lt
    rw [Nat.shiftRight_eq_div_pow]
    exact Nat.div_lt_of_lt_mul this
  rw [unit, div_lt_one (by positivity)]
  exact_mod_cast h

/-- **Sampling stays inside the table.** The target lies strictly below the last entry of the bounded table, so the
partition point is one of its indices. -/
theorem sampleToken_lt (zipf : ZipfCdf pow) (sample : UInt64) (bound : ℕ) (h0 : 0 < bound)
    (hb : bound ≤ zipf.cumulative.length) : ∃ rank, zipf.sampleToken sample bound = some rank ∧ rank < bound := by
  have hlt : bound - 1 < zipf.cumulative.length := by omega
  set top := zipf.cumulative[bound - 1] with htop
  have hpos : 0 < top := zipf.positive top (List.getElem_mem _)
  have hget : zipf.cumulative[bound - 1]? = some top := List.getElem?_eq_getElem hlt
  set target := unit sample * top
  refine ⟨partitionPoint (fun value => decide (value < target)) (zipf.cumulative.take bound), ?_, ?_⟩
  · rw [sampleToken, if_neg (Nat.ne_of_gt h0), hget]
  have hbelow : ¬ top < target := not_lt.2 (mul_le_of_le_one_left hpos.le (unit_lt_one sample).le)
  have hsplit : zipf.cumulative.take bound = zipf.cumulative.take (bound - 1) ++ [top] := by
    rw [htop, List.take_append_getElem hlt, Nat.sub_add_cancel h0]
  have hnil : [top].takeWhile (fun value => decide (value < target)) = [] := by simp [hbelow]
  calc partitionPoint (fun value => decide (value < target)) (zipf.cumulative.take bound)
      ≤ (zipf.cumulative.take (bound - 1)).length := by
        rw [partitionPoint, hsplit, List.takeWhile_append, hnil]
        split_ifs
        · simp
        · exact (List.takeWhile_sublist _).length_le
    _ ≤ bound - 1 := List.length_take_le _ _
    _ < bound := by omega

end ZipfCdf

end WtBenchmarks.Ycsb
