/-
The first elements of a list against the elements within a bound.

Where the elements that satisfy a predicate come first:
- `takeWhile_eq_filter`: stopping at the first one that does not finds them all;
- `take_eq_filter`: taking `n` elements finds them exactly if `n` of them satisfy it, or all of them do and they are at
  most `n`.

Numbers within bounds:
- `length_le_window`, `length_eq_window`: different numbers of `a..a+n` are at most `n`, and `n` exactly if none of
  `a..a+n` is missing.
-/
import Mathlib.Data.List.Basic
import Mathlib.Data.List.Dedup
import Mathlib.Order.Interval.Finset.Nat

namespace WtBenchmarks

variable {α : Type} {l : List α} {p : α → Bool}

/-- what satisfies the predicate comes first -/
theorem filter_append_filter_not (h : l.Pairwise fun a b => p b = true → p a = true) :
    l.filter p ++ l.filter (fun a => !p a) = l := by
  induction l with
  | nil => rfl
  | cons a l ih =>
    obtain ⟨hfirst, hrest⟩ := List.pairwise_cons.1 h
    cases ha : p a with
    | true => simp [ha, ih hrest]
    | false =>
      have hnone : ∀ b ∈ l, p b = false := by
        intro b hb
        rw [← Bool.not_eq_true]
        intro hpb
        rw [hfirst b hb hpb] at ha
        cases ha
      have hkept : l.filter p = [] := List.filter_eq_nil_iff.2 fun b hb => by simp [hnone b hb]
      have hdropped : l.filter (fun a => !p a) = l := List.filter_eq_self.2 fun b hb => by simp [hnone b hb]
      simp [ha, hkept, hdropped]

/-- **Stopping early.** Going through a list until the predicate fails finds all that satisfy it. -/
theorem takeWhile_eq_filter (h : l.Pairwise fun a b => p b = true → p a = true) : l.takeWhile p = l.filter p := by
  have hsplit := filter_append_filter_not h
  have hkept : ∀ a ∈ l.filter p, p a = true := fun a ha => (List.mem_filter.1 ha).2
  have hdropped : (l.filter fun a => !p a).takeWhile p = [] := by
    cases hrest : l.filter fun a => !p a with
    | nil => rfl
    | cons a rest =>
      have ha : a ∈ l.filter fun a => !p a := by rw [hrest]; exact List.mem_cons_self
      have hfails : (!p a) = true := (List.mem_filter.1 ha).2
      rw [List.takeWhile_cons_of_neg (by simpa using hfails)]
  calc l.takeWhile p = (l.filter p ++ l.filter fun a => !p a).takeWhile p := by rw [hsplit]
    _ = l.filter p ++ (l.filter fun a => !p a).takeWhile p := List.takeWhile_append_of_pos hkept
    _ = l.filter p := by rw [hdropped, List.append_nil]

/-- **Limit and bound.** -/
theorem take_eq_filter (h : l.Pairwise fun a b => p b = true → p a = true) (n : ℕ) :
    l.take n = l.filter p ↔ (l.filter p).length = n ∨ (l.filter p).length ≤ n ∧ ∀ a ∈ l, p a = true := by
  have hsplit := filter_append_filter_not h
  constructor
  · intro htake
    by_cases hn : n ≤ l.length
    · refine Or.inl ?_
      rw [← htake, List.length_take, Nat.min_eq_left hn]
    · have hall : l.filter p = l := by rw [← htake, List.take_of_length_le (by omega)]
      exact Or.inr ⟨by rw [hall]; omega, List.filter_eq_self.1 hall⟩
  · rintro (hlen | ⟨hlen, hall⟩)
    · calc l.take n = (l.filter p ++ l.filter fun a => !p a).take n := by rw [hsplit]
        _ = l.filter p := List.take_left' hlen
    · have hself : l.filter p = l := List.filter_eq_self.2 hall
      rw [hself] at hlen ⊢
      exact List.take_of_length_le hlen

/-! ## Numbers within bounds -/

variable {l : List ℕ} {a n : ℕ}

theorem toFinset_subset_window (h : ∀ x ∈ l, a ≤ x ∧ x < a + n) : l.toFinset ⊆ Finset.Ico a (a + n) := by
  intro x hx
  exact Finset.mem_Ico.2 (h x (List.mem_toFinset.1 hx))

theorem length_le_window (hnodup : l.Nodup) (h : ∀ x ∈ l, a ≤ x ∧ x < a + n) : l.length ≤ n := by
  have hcard := Finset.card_le_card (toFinset_subset_window h)
  rwa [List.toFinset_card_of_nodup hnodup, Nat.card_Ico, Nat.add_sub_cancel_left] at hcard

theorem length_eq_window (hnodup : l.Nodup) (h : ∀ x ∈ l, a ≤ x ∧ x < a + n) :
    l.length = n ↔ ∀ i < n, a + i ∈ l := by
  have hsub := toFinset_subset_window h
  have hcard := List.toFinset_card_of_nodup hnodup
  constructor
  · intro hlen i hi
    have heq := Finset.eq_of_subset_of_card_le hsub (by simp [hcard, hlen])
    rw [← List.mem_toFinset, heq, Finset.mem_Ico]
    omega
  · intro hall
    have heq : l.toFinset = Finset.Ico a (a + n) := by
      apply hsub.antisymm
      intro x hx
      obtain ⟨hle, hlt⟩ := Finset.mem_Ico.1 hx
      have hmem := hall (x - a) (by omega)
      rw [Nat.add_sub_cancel' hle] at hmem
      exact List.mem_toFinset.2 hmem
    rw [← hcard, heq, Nat.card_Ico, Nat.add_sub_cancel_left]

end WtBenchmarks
