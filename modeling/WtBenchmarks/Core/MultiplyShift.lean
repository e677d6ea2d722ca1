/-
Scaling a draw down by a multiplication and a division.

A draw `x` from `m` values is sent to `x * u / m`, one of `u` values. The draws sent to one value are an interval whose
ends are quotients rounded up, so its length is `m / u` or one more.

- `mulDiv_eq_iff`: the interval of draws sent to a value;
- `card_mulDiv`: how many they are;
- `mulDiv_surjective`: if there are not more values than draws, every value is hit.
-/
import Mathlib.Data.Finset.Card
import Mathlib.Order.Interval.Finset.Nat

namespace WtBenchmarks.MultiplyShift

variable {m u v x : ℕ}

/-- the first draw that is sent to `v` or above -/
def first (m u v : ℕ) : ℕ := (v * m + (u - 1)) / u

theorem first_le_iff (hu : 0 < u) : first m u v ≤ x ↔ v * m ≤ x * u := by
  have hlt : first m u v < x + 1 ↔ v * m + (u - 1) < (x + 1) * u := Nat.div_lt_iff_lt_mul hu
  rw [Nat.add_mul, Nat.one_mul] at hlt
  omega

theorem mulDiv_eq_iff (hm : 0 < m) (hu : 0 < u) : x * u / m = v ↔ first m u v ≤ x ∧ x < first m u (v + 1) := by
  rw [first_le_iff hu, ← Nat.not_le, first_le_iff hu, Nat.not_le, Nat.div_eq_iff hm, Nat.add_mul, Nat.one_mul]
  omega

/-- the first draws of consecutive values are `m / u` apart, or one more -/
theorem first_succ (hu : 0 < u) :
    first m u (v + 1) = first m u v + m / u ∨ first m u (v + 1) = first m u v + (m / u + 1) := by
  have hsplit : (v + 1) * m + (u - 1) = v * m + (u - 1) + m := by rw [Nat.add_mul, Nat.one_mul]; omega
  rw [first, first, hsplit, Nat.add_div hu]
  split_ifs
  · exact Or.inr (Nat.add_assoc _ _ _)
  · exact Or.inl rfl

theorem first_le (hu : 0 < u) (hv : v ≤ u) : first m u v ≤ m :=
  (first_le_iff hu).2 (by rw [Nat.mul_comm m u]; exact Nat.mul_le_mul_right m hv)

/-- **Evenness.** -/
theorem card_mulDiv (hm : 0 < m) (hu : 0 < u) (hv : v < u) :
    ((Finset.range m).filter fun x => x * u / m = v).card = m / u ∨
      ((Finset.range m).filter fun x => x * u / m = v).card = m / u + 1 := by
  have hinterval : ((Finset.range m).filter fun x => x * u / m = v) = Finset.Ico (first m u v) (first m u (v + 1)) := by
    ext x
    have hle : first m u (v + 1) ≤ m := first_le hu hv
    rw [Finset.mem_filter, Finset.mem_range, mulDiv_eq_iff hm hu, Finset.mem_Ico]
    omega
  rw [hinterval, Nat.card_Ico]
  rcases first_succ (m := m) (v := v) hu with hsucc | hsucc
  · exact Or.inl (by rw [hsucc, Nat.add_sub_cancel_left])
  · exact Or.inr (by rw [hsucc, Nat.add_sub_cancel_left])

theorem mulDiv_mono {x' : ℕ} (h : x ≤ x') : x * u / m ≤ x' * u / m := Nat.div_le_div_right (Nat.mul_le_mul_right u h)

/-- every value is hit, by its first draw -/
theorem mulDiv_surjective (hum : u ≤ m) (hv : v < u) : ∃ x < m, x * u / m = v := by
  have hu : 0 < u := Nat.zero_lt_of_lt hv
  have hm : 0 < m := hu.trans_le hum
  have hpos : 0 < m / u := Nat.div_pos hum hu
  have hlast : first m u (v + 1) ≤ m := first_le hu hv
  have hlt : first m u v < first m u (v + 1) := by
    rcases first_succ (m := m) (v := v) hu with hsucc | hsucc
    · exact hsucc ▸ Nat.lt_add_of_pos_right hpos
    · exact hsucc ▸ Nat.lt_add_of_pos_right (Nat.succ_pos _)
  exact ⟨first m u v, hlt.trans_le hlast, (mulDiv_eq_iff hm hu).2 ⟨le_rfl, hlt⟩⟩

end WtBenchmarks.MultiplyShift
