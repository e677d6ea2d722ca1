/-
Zipf sampling as an inverse CDF (`ZipfCdf`, `AcknowledgedKeyspace::resolve`, `src/ycsb/generator.rs`).

The weights are any positive numbers of an exact ordered field (`ExactPow`): the weight of a rank is the inverse of its
power. The table grows by single entries, so it depends on its final size only, and its entries are the partial sums of
the weights.

- `foldl_ensure`: a sequence of `ensure` calls is one call with the largest size;
- `sampleToken_isLeast`: the sampled rank is the least one whose cumulative weight reaches the target;
- `sampleToken_mono`: it rises with the token;
- `zipf_sampling`: the above, and that a read of Workload D resolves at or below the frontier at every moment of a run.
-/
import WtBenchmarks.Ycsb.Run

namespace WtBenchmarks.Ycsb

open Threads

variable {K : Type} [Field K] [LinearOrder K] [IsStrictOrderedRing K]

namespace ZipfCdf

variable {pow : ExactPow K} {theta : K}

/-! ## The table -/

/-- the weight of the first `n` ranks -/
def total (pow : ExactPow K) (theta : K) (n : ℕ) : K := ∑ rank ∈ Finset.range n, weight pow theta (rank + 1)

omit [IsStrictOrderedRing K] in
theorem total_succ (n : ℕ) : total pow theta (n + 1) = total pow theta n + weight pow theta (n + 1) :=
  Finset.sum_range_succ _ _

theorem new_succ (n : ℕ) : new pow (n + 1) theta = (new pow n theta).push := by
  simp only [new, ensure, List.length_nil, Nat.sub_zero]
  exact Function.iterate_succ_apply' _ _ _

theorem new_theta (n : ℕ) : (new pow n theta).theta = theta := by
  induction n with
  | zero => rfl
  | succ n ih =>
    rw [new_succ]
    exact ih

theorem new_length (n : ℕ) : (new pow n theta).cumulative.length = n := by
  unfold new
  rw [ensure_length, List.length_nil, Nat.max_eq_right (Nat.zero_le n)]

theorem new_last (n : ℕ) (h : (new pow n theta).cumulative = (List.range n).map fun i => total pow theta (i + 1)) :
    (new pow n theta).last = total pow theta n := by
  unfold last
  rw [h]
  cases n with
  | zero => rfl
  | succ n => rw [List.range_succ, List.map_append, List.map_singleton, List.getLastD_concat]

/-- **The entries are the partial sums of the weights.** -/
theorem new_cumulative (n : ℕ) :
    (new pow n theta).cumulative = (List.range n).map fun i => total pow theta (i + 1) := by
  induction n with
  | zero => rfl
  | succ n ih =>
    have hlast := new_last n ih
    rw [new_succ, List.range_succ, List.map_append, List.map_singleton, total_succ]
    simp only [push]
    rw [hlast, new_theta, new_length, ih]

theorem ensure_new (n m : ℕ) : (new pow n theta).ensure m = new pow (max n m) theta := by
  have hsum : m - n + n = max n m := by omega
  calc (new pow n theta).ensure m
      = push^[m - n] (new pow n theta) := by rw [ensure, new_length]
    _ = push^[m - n + n] ⟨[], theta, by simp, List.Pairwise.nil⟩ := (Function.iterate_add_apply _ _ _ _).symm
    _ = new pow (max n m) theta := by rw [hsum]; rfl

/-- **Growing in steps.** A sequence of calls leaves the table of one call with the largest size. -/
theorem foldl_ensure (sizes : List ℕ) (items : ℕ) :
    sizes.foldl ensure (new pow items theta) = new pow (sizes.foldl max items) theta := by
  induction sizes generalizing items with
  | nil => rfl
  | cons size sizes ih =>
    rw [List.foldl_cons, List.foldl_cons, ensure_new]
    exact ih (max items size)

/-! ## The partition point -/

omit [Field K] [LinearOrder K] [IsStrictOrderedRing K] in
/-- the predicate holds before the partition point, and fails at it -/
theorem partitionPoint_spec (p : K → Bool) (values : List K) :
    (∀ i < partitionPoint p values, ∃ v, values[i]? = some v ∧ p v = true) ∧
      ∀ v, values[partitionPoint p values]? = some v → p v = false := by
  unfold partitionPoint
  induction values with
  | nil => simp
  | cons x values ih =>
    obtain ⟨hbefore, hat⟩ := ih
    cases hx : p x with
    | false => simp [hx]
    | true =>
      simp only [List.takeWhile_cons, hx, if_true, List.length_cons, List.getElem?_cons_succ]
      refine ⟨fun i hi => ?_, hat⟩
      cases i with
      | zero => exact ⟨x, rfl, hx⟩
      | succ i => exact hbefore i (Nat.lt_of_succ_lt_succ hi)

theorem take_cumulative {items bound : ℕ} (hbound : bound ≤ items) :
    (new pow items theta).cumulative.take bound = (List.range bound).map fun i => total pow theta (i + 1) := by
  rw [new_cumulative, ← List.map_take, List.take_range, Nat.min_eq_left hbound]

/-- what is sampled: a partition point of the partial sums -/
theorem sampleToken_eq (pow : ExactPow K) (theta : K) {items bound : ℕ} (hpos : 0 < bound) (hbound : bound ≤ items)
    (token : UInt64) :
    (new pow items theta).sampleToken token bound =
      some (partitionPoint (fun value => decide (value < unit token * total pow theta bound))
        ((List.range bound).map fun i => total pow theta (i + 1))) := by
  have htop : (new pow items theta).cumulative[bound - 1]? = some (total pow theta bound) := by
    rw [new_cumulative, List.getElem?_map, List.getElem?_range (by omega), Option.map_some, Nat.sub_add_cancel hpos]
  unfold sampleToken
  rw [if_neg (Nat.ne_of_gt hpos), htop, take_cumulative hbound]

/-- **Inverse CDF.** The sampled rank is below the bound, and the least whose cumulative weight reaches the target. -/
theorem sampleToken_isLeast (pow : ExactPow K) (theta : K) {items bound : ℕ} (hpos : 0 < bound) (hbound : bound ≤ items)
    (token : UInt64) :
    ∃ rank, (new pow items theta).sampleToken token bound = some rank ∧ rank < bound ∧
      IsLeast {r | unit token * total pow theta bound ≤ total pow theta (r + 1)} rank := by
  obtain ⟨rank, hrank, hlt⟩ := sampleToken_lt (new pow items theta) token bound hpos (by rwa [new_length])
  have hpoint := sampleToken_eq pow theta hpos hbound token
  rw [hrank] at hpoint
  obtain ⟨hbefore, hat⟩ := partitionPoint_spec (fun value => decide (value < unit token * total pow theta bound))
    ((List.range bound).map fun i => total pow theta (i + 1))
  rw [← Option.some.inj hpoint] at hbefore hat
  have hget : ∀ i < bound,
      ((List.range bound).map fun i => total pow theta (i + 1))[i]? = some (total pow theta (i + 1)) := by
    intro i hi
    rw [List.getElem?_map, List.getElem?_range hi, Option.map_some]
  refine ⟨rank, hrank, hlt, ?_, fun r hr => ?_⟩
  · exact not_lt.1 (of_decide_eq_false (hat _ (hget rank hlt)))
  · by_contra hless
    obtain ⟨v, hv, hp⟩ := hbefore r (not_le.1 hless)
    rw [hget r (by omega)] at hv
    cases hv
    exact absurd hr (not_le.2 (of_decide_eq_true hp))

/-! ## Tokens -/

theorem unit_mono {token token' : UInt64} (h : token ≤ token') : (unit token : K) ≤ unit token' := by
  unfold unit
  have hshift : (token >>> 11).toNat ≤ (token' >>> 11).toNat := by
    rw [UInt64.toNat_shiftRight, UInt64.toNat_shiftRight, Nat.shiftRight_eq_div_pow, Nat.shiftRight_eq_div_pow]
    exact Nat.div_le_div_right (UInt64.le_iff_toNat_le.1 h)
  gcongr

/-- **A larger token samples no smaller rank.** -/
theorem sampleToken_mono {items bound : ℕ} (hpos : 0 < bound) (hbound : bound ≤ items) {token token' : UInt64}
    (h : token ≤ token') {rank rank' : ℕ} (hrank : (new pow items theta).sampleToken token bound = some rank)
    (hrank' : (new pow items theta).sampleToken token' bound = some rank') : rank ≤ rank' := by
  obtain ⟨r, hr, -, hleast⟩ := sampleToken_isLeast pow theta hpos hbound token
  obtain ⟨r', hr', -, hleast'⟩ := sampleToken_isLeast pow theta hpos hbound token'
  rw [hr] at hrank
  rw [hr'] at hrank'
  cases hrank
  cases hrank'
  have hpositive : 0 ≤ total pow theta bound :=
    Finset.sum_nonneg fun rank _ => (weight_pos theta (Nat.succ_pos rank)).le
  refine hleast'.mono hleast fun i hi => ?_
  calc unit token * total pow theta bound
      ≤ unit token' * total pow theta bound := mul_le_mul_of_nonneg_right (unit_mono h) hpositive
    _ ≤ total pow theta (i + 1) := hi

end ZipfCdf

/-! ## Reads of a run -/

/-- at every moment of a run, whatever token a read carries, it resolves at or below the frontier -/
theorem resolve_in_run (pow : ExactPow K) (config : Config K) (hv : config.validate = .ok ())
    (hD : config.workload = .D) :
    ∃ table gen, load config = some table ∧
      (generateStreams (Fin config.threads) pow config).run' (Rng.new config.seed) = some gen ∧
      ∀ sched, ∃ ak, (run workerStep (startRun config table gen) sched).shared.acknowledged = some ak ∧
        ∀ sample distribution, ∃ key, resolve ak sample distribution = some key ∧ key ≤ ak.ks.frontier := by
  have hacc := Config.accepted_of_validate hv
  obtain ⟨table, hload, htable⟩ := load_some config
  obtain ⟨gen, rng, hrun, n, hgen⟩ := generateStreams_total (Fin config.threads) pow hacc (Rng.new config.seed)
  refine ⟨table, gen, hload, by rw [StateT.run'_eq, hrun]; rfl, fun sched => ?_⟩
  have hown := (insertKeys_streams hgen.fresh).2
  let O := ycsbOutline pow config n (fun t : Fin config.threads => gen.streams.getD t []) hgen.base
    fun t u hu => hown u t fun h => hu (Fin.ext h)
  obtain ⟨hg, -⟩ := O.run _ (startRun_holds htable hacc.records hgen) sched
  obtain ⟨ak, hak⟩ := Option.isSome_iff_exists.1 (hg.isSome hD)
  have hlt := frontier_lt hgen.base hg hak
  rw [UInt64.lt_iff_toNat_lt] at hlt
  have hz := (hg.keyspace ak hak).2
  have hn := n.toNat_lt
  exact ⟨ak, hak, fun sample distribution => resolve_le ak sample distribution (by omega) (by omega)⟩

open ZipfCdf in
/-- **Zipf sampling.** Tables depend on their largest size only; the sampled rank is below the bound, is the least one
whose cumulative weight reaches the target, and rises with the token. Hence a read resolves at or below any frontier
that the table covers, as it does in every run of Workload D, at every moment. -/
theorem zipf_sampling (pow : ExactPow K) (theta : K) :
    (∀ (items : ℕ) (sizes : List ℕ),
      sizes.foldl ensure (ZipfCdf.new pow items theta) = ZipfCdf.new pow (sizes.foldl max items) theta) ∧
    (∀ items bound token, 0 < bound → bound ≤ items →
      ∃ rank, (ZipfCdf.new pow items theta).sampleToken token bound = some rank ∧ rank < bound ∧
        IsLeast {r | unit token * total pow theta bound ≤ total pow theta (r + 1)} rank) ∧
    (∀ items bound token token' rank rank', 0 < bound → bound ≤ items → token ≤ token' →
      (ZipfCdf.new pow items theta).sampleToken token bound = some rank →
      (ZipfCdf.new pow items theta).sampleToken token' bound = some rank' → rank ≤ rank') ∧
    (∀ (T : Type) (ak : AcknowledgedKeyspace T pow),
      ak.ks.frontier.toNat + 1 < 2 ^ 64 → ak.ks.frontier.toNat + 1 ≤ ak.zipf.cumulative.length →
      ∀ sample distribution, ∃ key, resolve ak sample distribution = some key ∧ key ≤ ak.ks.frontier) ∧
    ∀ config : Config K, config.validate = .ok () → config.workload = .D →
      ∃ table gen, load config = some table ∧
        (generateStreams (Fin config.threads) pow config).run' (Rng.new config.seed) = some gen ∧
        ∀ sched, ∃ ak, (run workerStep (startRun config table gen) sched).shared.acknowledged = some ak ∧
          ∀ sample distribution, ∃ key, resolve ak sample distribution = some key ∧ key ≤ ak.ks.frontier := by
  refine ⟨?_, ?_, ?_, ?_, ?_⟩
  · intro items sizes
    exact foldl_ensure sizes items
  · intro items bound token hpos hbound
    exact sampleToken_isLeast pow theta hpos hbound token
  · intro items bound token token' rank rank' hpos hbound htoken hrank hrank'
    exact sampleToken_mono hpos hbound htoken hrank hrank'
  · intro T ak hmax hcovers sample distribution
    exact resolve_le ak sample distribution hmax hcovers
  · intro config hv hD
    exact resolve_in_run pow config hv hD

theorem zipf_sampling_small :
    (∃ rank, (ZipfCdf.new realPow 3 0).sampleToken 5 2 = some rank ∧ rank < 2) ∧
      ∃ table, load smallRun = some table := by
  have hv : smallRun.validate = .ok () := by
    simp [Config.validate, smallRun, checkedAdd]
  obtain ⟨-, hleast, -, -, hreads⟩ := zipf_sampling realPow 0
  obtain ⟨rank, hrank, hlt, -⟩ := hleast 3 2 5 (by decide) (by decide)
  obtain ⟨table, -, hload, -⟩ := hreads smallRun hv rfl
  exact ⟨⟨rank, hrank, hlt⟩, table, hload⟩

end WtBenchmarks.Ycsb
