/-
How even the draws of the generator are (`Rng::below` of `src/rng.rs`, the uniform reads of `src/ycsb/generator.rs`).

`below upper` scales one raw draw down by a 128-bit product. Not every bound divides `2 ^ 64`, so the values cannot all
be hit by equally many raw draws, but the numbers differ by at most one. A uniform read resolves by the same product.

- `drawsTo_even`: the raw draws that are mapped to one value;
- `uniform_eq`: a uniform read resolves by `below`'s product, with one more than the frontier as the bound;
- `below_even`: both, for every bound and every frontier.
-/
import WtBenchmarks.Core.MultiplyShift
import WtBenchmarks.Ycsb.Generator

namespace WtBenchmarks.Ycsb

open Rng (below mulHigh xorshift)

/-- the raw draws that `below upper` maps to `v` -/
def drawsTo (upper v : UInt64) : Set UInt64 := {x | mulHigh x upper = v}

/-- a set of raw draws is as large as its share of all raw draws, rounded down or up -/
def EvenShare (upper : ℕ) (draws : Set UInt64) : Prop := draws.ncard = 2 ^ 64 / upper ∨ draws.ncard = 2 ^ 64 / upper + 1

theorem drawsTo_even {upper v : UInt64} (hv : v < upper) : EvenShare upper.toNat (drawsTo upper v) := by
  rw [UInt64.lt_iff_toNat_lt] at hv
  have himage : UInt64.toNat '' drawsTo upper v =
      ((Finset.range (2 ^ 64)).filter fun x => x * upper.toNat / 2 ^ 64 = v.toNat : Finset ℕ) := by
    ext n
    simp only [Set.mem_image, Finset.coe_filter, Finset.mem_range, Set.mem_ofPred_eq]
    constructor
    · intro h
      obtain ⟨x, hx, rfl⟩ := h
      exact ⟨x.toNat_lt, by rw [← Rng.mulHigh_toNat, show mulHigh x upper = v from hx]⟩
    · intro h
      obtain ⟨hlt, heq⟩ := h
      have hn : (UInt64.ofNat n).toNat = n := ofNat_toNat_of_lt hlt
      exact ⟨UInt64.ofNat n, UInt64.toNat_inj.1 (by rw [Rng.mulHigh_toNat, hn, heq]), hn⟩
  have hcard : (drawsTo upper v).ncard =
      ((Finset.range (2 ^ 64)).filter fun x => x * upper.toNat / 2 ^ 64 = v.toNat).card := by
    rw [← Set.ncard_image_of_injective (drawsTo upper v) fun _ _ h => UInt64.toNat_inj.1 h, himage,
      Set.ncard_coe_finset]
  rw [EvenShare, hcard]
  exact MultiplyShift.card_mulDiv (by decide) (Nat.zero_lt_of_lt hv) hv

theorem mulHigh_mono {x y : UInt64} (h : x ≤ y) (upper : UInt64) : mulHigh x upper ≤ mulHigh y upper := by
  rw [UInt64.le_iff_toNat_le] at h ⊢
  rw [Rng.mulHigh_toNat, Rng.mulHigh_toNat]
  exact MultiplyShift.mulDiv_mono h

theorem mulHigh_surjective {upper v : UInt64} (hv : v < upper) : ∃ x, mulHigh x upper = v := by
  rw [UInt64.lt_iff_toNat_lt] at hv
  obtain ⟨x, hx, heq⟩ := MultiplyShift.mulDiv_surjective upper.toNat_lt.le hv
  exact ⟨UInt64.ofNat x, UInt64.toNat_inj.1 (by rw [Rng.mulHigh_toNat, ofNat_toNat_of_lt hx, heq])⟩

/-- `below` draws once, and maps the draw -/
theorem below_run {upper : UInt64} (hupper : 0 < upper) (rng : Rng) : (below upper : Draw UInt64).run rng =
    some (mulHigh (xorshift rng.state) upper, ⟨xorshift rng.state⟩) := by
  have hne : upper ≠ 0 := by
    rintro rfl
    exact absurd hupper (by decide)
  rw [below, if_neg hne]
  rfl

section Reads

variable {K : Type} [Field K] [LinearOrder K] {pow : ExactPow K} {T : Type}

/-- a uniform read of a keyspace whose key count does not overflow -/
theorem uniform_eq {acknowledged : AcknowledgedKeyspace T pow} (h : acknowledged.ks.frontier < u64Max)
    (sample : UInt64) :
    resolve acknowledged sample .uniform = some (mulHigh sample (acknowledged.ks.frontier + 1)) := by
  have hfit : acknowledged.ks.frontier.toNat + (1 : UInt64).toNat < 2 ^ 64 := by
    rw [UInt64.lt_iff_toNat_lt, u64Max_toNat] at h
    rw [UInt64.toNat_one]
    omega
  rw [resolve, checkedAdd, if_pos hfit]
  rfl

/-- **Evenness of draws.** For every positive bound, `below` maps one raw draw; the map is monotone, stays below the
bound and hits every value, and as many raw draws are mapped to each value as to any other, up to one. Uniform reads are
distributed in the same way from zero to the frontier; only a key count that overflows stops them. -/
theorem below_even :
    (∀ upper : UInt64, 0 < upper →
      (∀ rng : Rng, (below upper : Draw UInt64).run rng =
        some (mulHigh (xorshift rng.state) upper, ⟨xorshift rng.state⟩)) ∧
      (∀ v < upper, EvenShare upper.toNat (drawsTo upper v)) ∧
      (∀ x y, x ≤ y → mulHigh x upper ≤ mulHigh y upper) ∧ (∀ x, mulHigh x upper < upper) ∧
      ∀ v < upper, ∃ x, mulHigh x upper = v) ∧
    ∀ acknowledged : AcknowledgedKeyspace T pow,
      (acknowledged.ks.frontier < u64Max →
        (∀ v, {sample | resolve acknowledged sample .uniform = some v} = drawsTo (acknowledged.ks.frontier + 1) v) ∧
        (∀ v ≤ acknowledged.ks.frontier, EvenShare (acknowledged.ks.frontier.toNat + 1)
          {sample | resolve acknowledged sample .uniform = some v}) ∧
        ∀ sample, ∃ v ≤ acknowledged.ks.frontier, resolve acknowledged sample .uniform = some v) ∧
      (acknowledged.ks.frontier = u64Max → ∀ sample, resolve acknowledged sample .uniform = none) := by
  refine ⟨fun upper hupper => ⟨below_run hupper, fun v => drawsTo_even, fun x y h => mulHigh_mono h upper,
    fun x => Rng.mulHigh_lt x upper hupper, fun v => mulHigh_surjective⟩, fun acknowledged => ⟨fun h => ?_, ?_⟩⟩
  · have hcount := succ_toNat h
    have hsets : ∀ v, {sample | resolve acknowledged sample .uniform = some v} =
        drawsTo (acknowledged.ks.frontier + 1) v := by
      intro v
      ext sample
      rw [Set.mem_ofPred_eq, uniform_eq h, Option.some.injEq]
      rfl
    refine ⟨hsets, fun v hv => ?_, fun sample => ⟨_, ?_, uniform_eq h sample⟩⟩
    · rw [hsets, ← hcount]
      refine drawsTo_even ?_
      rw [UInt64.le_iff_toNat_le] at hv
      rw [UInt64.lt_iff_toNat_lt]
      omega
    · have hlt := Rng.mulHigh_lt sample (acknowledged.ks.frontier + 1) (by
        rw [UInt64.lt_iff_toNat_lt, hcount]
        exact Nat.succ_pos _)
      rw [UInt64.lt_iff_toNat_lt] at hlt
      rw [UInt64.le_iff_toNat_le]
      omega
  · intro h sample
    rw [resolve, h]
    rfl

end Reads

theorem below_even_three : EvenShare 3 (drawsTo 3 2) ∧ ∃ x, mulHigh x 3 = 1 := by
  obtain ⟨-, heven, -, -, hhit⟩ := (@below_even ℝ _ _ realPow Unit).1 3 (by decide)
  exact ⟨heven 2 (by decide), hhit 1 (by decide)⟩

end WtBenchmarks.Ycsb
