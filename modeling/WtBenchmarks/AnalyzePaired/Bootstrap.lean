/-
Medians and the bootstrap interval of the paired analyzer (`src/bin/analyze-paired-ycsb-retry.rs`), over rationals.

`median` sorts its argument in place, so it returns the sorted list too. A resample overwrites every place of the
scratch buffer, which the median of the resample before has left sorted.

- `median_spec`: the median of a list that is not empty;
- `resample_total`: a resample is drawn from the values, never out of range;
- `bootstrapMedianInterval_bounds`: the interval.
-/
import WtBenchmarks.Core.OrderStatistics
import WtBenchmarks.Rng

namespace WtBenchmarks.AnalyzePaired

open OrderStatistics
open Rng (below)

/-! ## Model -/

def bootstrapSamples : ℕ := 20000

structure Interval where
  lower : ℚ
  upper : ℚ
deriving DecidableEq, Repr

/-- the list after the sort in place, and the median -/
def median (values : List ℚ) : Option (List ℚ × ℚ) :=
  let values := ascending values
  let middle := values.length / 2
  if values.length % 2 = 0 then do
    -- of no values at all, `middle - 1` underflows: there is no such element here either
    let left ← values[middle - 1]?
    let right ← values[middle]?
    some (values, (left + right) / 2)
  else do
    let value ← values[middle]?
    some (values, value)

/-- `for value in &mut sample` -/
def resample (values sample : List ℚ) : Draw (List ℚ) :=
  (List.range sample.length).foldlM (fun (sample : List ℚ) i => do
    let k ← below (UInt64.ofNat values.length)
    let value ← liftM values[k.toNat]?
    pure (sample.set i value)) sample

/-- the scratch buffer after some resamples, and their medians -/
def resampleMedians (values : List ℚ) (samples : ℕ) : Draw (List ℚ × List ℚ) :=
  (List.range samples).foldlM (fun (p : List ℚ × List ℚ) _ => do
    let sample ← resample values p.1
    let sorted ← liftM (median sample)
    pure (sorted.1, p.2 ++ [sorted.2])) (List.replicate values.length 0, [])

/-- `((last as f64) * fraction).round() as usize` -/
def roundedRank (last : ℕ) (fraction : ℚ) : ℕ := (round ((last : ℚ) * fraction)).toNat

def bootstrapMedianInterval (values : List ℚ) (seed : UInt64) : Option Interval := do
  let drawn ← (resampleMedians values bootstrapSamples).run (Rng.new seed)
  let medians := ascending drawn.1.2
  let last := medians.length - 1
  let lower ← medians[roundedRank last (25 / 1000)]?
  let upper ← medians[roundedRank last (975 / 1000)]?
  some ⟨lower, upper⟩

/-! ## Medians -/

/-- **The median** of values that are not empty. -/
theorem median_spec {values : List ℚ} (h : values ≠ []) :
    ∃ m, median values = some (ascending values, m) ∧ IsMedian values m := by
  have hlen : 0 < (ascending values).length := by
    rw [ascending_length]
    exact List.length_pos_iff.2 h
  have hget : ∀ i, i < (ascending values).length → ∃ a, (ascending values)[i]? = some a :=
    fun i hi => ⟨_, List.getElem?_eq_getElem hi⟩
  set s := ascending values with hs
  by_cases heven : s.length % 2 = 0
  · obtain ⟨a, ha⟩ := hget (s.length / 2 - 1) (by omega)
    obtain ⟨b, hb⟩ := hget (s.length / 2) (by omega)
    refine ⟨(a + b) / 2, ?_, s, ascending_perm values, ascending_pairwise values, s.length / 2 - 1, Or.inr ⟨by omega,
      a, b, ha, ?_, add_halves _⟩⟩
    · simp only [median, ← hs, if_pos heven, ha, hb]
      rfl
    · rw [Nat.sub_add_cancel (by omega)]
      exact hb
  · obtain ⟨m, hm⟩ := hget (s.length / 2) (by omega)
    refine ⟨m, ?_, s, ascending_perm values, ascending_pairwise values, s.length / 2, Or.inl ⟨by omega, hm⟩⟩
    simp only [median, ← hs, if_neg heven, hm]
    rfl

/-! ## Resamples -/

/-- values drawn from a list, as many as it has -/
structure Drawn (values sample : List ℚ) : Prop where
  length : sample.length = values.length
  mem : ∀ x ∈ sample, x ∈ values

variable {values : List ℚ}

/-- an index below the length; of a length that does not fit in 64 bits, `below` sees what is left -/
theorem below_index (h : values ≠ []) :
    Total (fun k => k.toNat < values.length) (below (UInt64.ofNat values.length) : Draw UInt64) := by
  have hlen : 0 < values.length := List.length_pos_iff.2 h
  by_cases hzero : UInt64.ofNat values.length = 0
  · rw [below, if_pos hzero]
    exact Total.pure hlen
  · refine (Rng.below_total _ (UInt64.pos_iff_ne_zero.2 hzero)).mono fun k hk => ?_
    have hmod : (UInt64.ofNat values.length).toNat ≤ values.length := by
      rw [UInt64.toNat_ofNat']
      exact Nat.mod_le _ _
    exact (UInt64.lt_iff_toNat_lt.1 hk).trans_le hmod

/-- **A resample** is drawn from the values, whatever the buffer held. -/
theorem resample_total (h : values ≠ []) {sample : List ℚ} (hlen : sample.length = values.length) :
    Total (Drawn values) (resample values sample) := by
  have hloop : Total (fun drawn : List ℚ => drawn.length = sample.length ∧
      ∀ i < sample.length, ∃ x ∈ values, drawn[i]? = some x) (resample values sample) := by
    refine Total.range (I := fun n (drawn : List ℚ) => drawn.length = sample.length ∧
      ∀ i < n, ∃ x ∈ values, drawn[i]? = some x) _ (fun i drawn hi hI => ?_) _ ⟨rfl, nofun⟩
    obtain ⟨hsame, hfilled⟩ := hI
    refine (below_index h).bind fun k hk => ?_
    have hvalue : values[k.toNat]? = some values[k.toNat] := List.getElem?_eq_getElem hk
    refine (Total.lift ⟨_, hvalue, rfl⟩).bind fun value hvalue => Total.pure ⟨by rw [List.length_set, hsame], ?_⟩
    intro j hj
    rw [List.getElem?_set]
    split_ifs with hij hin
    · exact ⟨value, hvalue ▸ List.getElem_mem hk, rfl⟩
    · exact absurd (hsame ▸ hi) hin
    · exact hfilled j (by omega)
  refine hloop.mono fun drawn hdrawn => ⟨hdrawn.1.trans hlen, fun x hx => ?_⟩
  obtain ⟨i, hi, rfl⟩ := List.getElem_of_mem hx
  obtain ⟨y, hy, hget⟩ := hdrawn.2 i (hdrawn.1 ▸ hi)
  rw [List.getElem?_eq_getElem hi] at hget
  exact Option.some.inj hget ▸ hy

/-- the medians of some resamples -/
structure Medians (values : List ℚ) (samples : ℕ) (medians : List ℚ) : Prop where
  length : medians.length = samples
  drawn : ∀ m ∈ medians, ∃ sample, Drawn values sample ∧ IsMedian sample m

/-- **The resampling loop** reuses its buffer; every median is one of values drawn from the list. -/
theorem resampleMedians_total (h : values ≠ []) (samples : ℕ) :
    Total (fun p => Medians values samples p.2) (resampleMedians values samples) := by
  have hloop : Total (fun p : List ℚ × List ℚ => p.1.length = values.length ∧ Medians values samples p.2)
      (resampleMedians values samples) := by
    refine Total.range (I := fun n (p : List ℚ × List ℚ) => p.1.length = values.length ∧ Medians values n p.2) _
      (fun n p _ hI => ?_) _ ⟨List.length_replicate, rfl, nofun⟩
    obtain ⟨hbuffer, hmedians⟩ := hI
    refine (resample_total h hbuffer).bind fun sample hsample => ?_
    have hne : sample ≠ [] := by
      rintro rfl
      exact h (List.length_eq_zero_iff.1 hsample.length.symm)
    obtain ⟨m, hm, hmedian⟩ := median_spec hne
    refine (Total.lift ⟨_, hm, rfl⟩).bind fun sorted hsorted => Total.pure ?_
    subst hsorted
    refine ⟨(ascending_length sample).trans hsample.length, ?_, fun m' hm' => ?_⟩
    · rw [List.length_append, hmedians.length, List.length_singleton]
    · rcases List.mem_append.1 hm' with hold | hnew
      · exact hmedians.drawn m' hold
      · rw [List.mem_singleton.1 hnew]
        exact ⟨sample, hsample, hmedian⟩
  exact hloop.mono fun p hp => hp.2

theorem Medians.between {samples : ℕ} {medians : List ℚ} (hmedians : Medians values samples medians) {lo hi : ℚ}
    (hbounds : ∀ x ∈ values, lo ≤ x ∧ x ≤ hi) : ∀ m ∈ medians, lo ≤ m ∧ m ≤ hi := by
  intro m hm
  obtain ⟨sample, hsample, hmedian⟩ := hmedians.drawn m hm
  exact hmedian.between (fun x hx => (hbounds x (hsample.mem x hx)).1) fun x hx => (hbounds x (hsample.mem x hx)).2

/-! ## The interval -/

theorem roundedRank_le {fraction : ℚ} (h : fraction ≤ 1) (last : ℕ) : roundedRank last fraction ≤ last := by
  have hle : (last : ℚ) * fraction ≤ last := mul_le_of_le_one_right (Nat.cast_nonneg _) h
  have hround : round ((last : ℚ) * fraction) ≤ last := by
    rw [round_eq, ← Int.lt_add_one_iff, Int.floor_lt]
    push_cast
    linarith
  exact Int.toNat_le.2 hround

theorem roundedRank_mono {fraction fraction' : ℚ} (h : fraction ≤ fraction') (last : ℕ) :
    roundedRank last fraction ≤ roundedRank last fraction' := by
  refine Int.toNat_le_toNat ?_
  rw [round_eq, round_eq]
  gcongr

/-- the interval is two of the medians, in order -/
theorem exists_interval (h : values ≠ []) (seed : UInt64) :
    ∃ buffer medians rng interval,
      (resampleMedians values bootstrapSamples).run (Rng.new seed) = some ((buffer, medians), rng) ∧
      Medians values bootstrapSamples medians ∧ bootstrapMedianInterval values seed = some interval ∧
      interval.lower ∈ medians ∧ interval.upper ∈ medians ∧ interval.lower ≤ interval.upper := by
  obtain ⟨⟨buffer, medians⟩, rng, hrun, hmedians⟩ := resampleMedians_total h bootstrapSamples (Rng.new seed)
  have hpos : 0 < bootstrapSamples := by decide
  have hrank : ∀ fraction : ℚ, fraction ≤ 1 → ∃ m ∈ medians,
      (ascending medians)[roundedRank ((ascending medians).length - 1) fraction]? = some m := by
    intro fraction hfraction
    refine exists_at_rank ?_
    have hle := roundedRank_le hfraction ((ascending medians).length - 1)
    have hlength : (ascending medians).length = bootstrapSamples := (ascending_length _).trans hmedians.length
    rw [hmedians.length]
    omega
  obtain ⟨lower, hlower, hlo⟩ := hrank (25 / 1000) (by norm_num)
  obtain ⟨upper, hupper, hhi⟩ := hrank (975 / 1000) (by norm_num)
  refine ⟨buffer, medians, rng, ⟨lower, upper⟩, hrun, hmedians, ?_, hlower, hupper,
    ascending_le (roundedRank_mono (by norm_num) _) hlo hhi⟩
  simp only [bootstrapMedianInterval, hrun, Option.bind_eq_bind, Option.bind_some, hlo, hhi]

/-- **The bootstrap interval.** Of any values that are not empty, under any seed, all draws are in range; each of the
20,000 medians is the middle element, or the mean of the two middle elements, of as many values drawn from the list; the
interval is two of these medians, its ends are in order, and it lies between the least and the greatest value. If all
values are equal, so are its ends. -/
theorem bootstrapMedianInterval_bounds (values : List ℚ) (h : values ≠ []) (seed : UInt64) :
    ∃ buffer medians rng interval,
      (resampleMedians values bootstrapSamples).run (Rng.new seed) = some ((buffer, medians), rng) ∧
      Medians values bootstrapSamples medians ∧
      bootstrapMedianInterval values seed = some interval ∧ interval.lower ∈ medians ∧ interval.upper ∈ medians ∧
      interval.lower ≤ interval.upper ∧
      (∃ lo ∈ values, ∃ hi ∈ values, (∀ x ∈ values, lo ≤ x ∧ x ≤ hi) ∧ lo ≤ interval.lower ∧ interval.upper ≤ hi) ∧
      ∀ c, (∀ x ∈ values, x = c) → interval.lower = c ∧ interval.upper = c := by
  obtain ⟨buffer, medians, rng, interval, hrun, hmedians, heq, hlower, hupper, hle⟩ := exists_interval h seed
  refine ⟨buffer, medians, rng, interval, hrun, hmedians, heq, hlower, hupper, hle, ?_, fun c hc => ?_⟩
  · obtain ⟨least, hleast, greatest, hgreatest, hbounds⟩ := exists_bounds h
    exact ⟨least, hleast, greatest, hgreatest, hbounds, (hmedians.between hbounds _ hlower).1,
      (hmedians.between hbounds _ hupper).2⟩
  · have hconstant := hmedians.between fun x hx => ⟨(hc x hx).ge, (hc x hx).le⟩
    exact ⟨le_antisymm (hconstant _ hlower).2 (hconstant _ hlower).1,
      le_antisymm (hconstant _ hupper).2 (hconstant _ hupper).1⟩

/-- fifteen equal values, as in the source's test -/
theorem bootstrapMedianInterval_bounds_fifteen :
    ∃ interval, bootstrapMedianInterval (List.replicate 15 (5 / 4)) 42 = some interval ∧
      interval.lower = 5 / 4 ∧ interval.upper = 5 / 4 := by
  obtain ⟨-, -, -, interval, -, -, heq, -, -, -, -, hconstant⟩ :=
    bootstrapMedianInterval_bounds (List.replicate 15 (5 / 4)) (List.cons_ne_nil _ _) 42
  exact ⟨interval, heq, hconstant (5 / 4) fun x hx => List.eq_of_mem_replicate hx⟩

end WtBenchmarks.AnalyzePaired
