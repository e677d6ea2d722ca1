/-
Order statistics: what stands at a rank of a list once it is sorted.

`ascending l` is the list sorted; elements that are equal cannot be told apart, so it does not matter whether the sort
is stable.

- `ascending_eq_of_perm`: the order in which the elements come is forgotten;
- `exists_at_rank`, `ascending_le`: every rank below the length has an element, and ranks are ordered as these are;
- `counts_at_rank`: how many elements are at most, and at least, the one at a rank;
- `IsMedian.between`: a median lies between any bounds of the list.
-/
import Mathlib.Tactic

namespace WtBenchmarks.OrderStatistics

variable {α : Type} [LE α] [DecidableLE α] [Std.IsLinearOrder α]

/-! ## Sorting -/

def ascending (l : List α) : List α := l.mergeSort fun a b => decide (a ≤ b)

omit [Std.IsLinearOrder α] in
theorem ascending_perm (l : List α) : (ascending l).Perm l := List.mergeSort_perm l _

omit [Std.IsLinearOrder α] in
@[simp] theorem ascending_length (l : List α) : (ascending l).length = l.length := (ascending_perm l).length_eq

omit [Std.IsLinearOrder α] in
@[simp] theorem mem_ascending {l : List α} {a : α} : a ∈ ascending l ↔ a ∈ l := (ascending_perm l).mem_iff

theorem ascending_pairwise (l : List α) : (ascending l).Pairwise (· ≤ ·) := by
  have htrans : ∀ a b c : α, decide (a ≤ b) = true → decide (b ≤ c) = true → decide (a ≤ c) = true := by
    intro a b c hab hbc
    exact decide_eq_true (Std.le_trans (of_decide_eq_true hab) (of_decide_eq_true hbc))
  have htotal : ∀ a b : α, (decide (a ≤ b) || decide (b ≤ a)) = true := by
    intro a b
    rw [Bool.or_eq_true, decide_eq_true_eq, decide_eq_true_eq]
    exact Std.le_total
  exact (List.pairwise_mergeSort htrans htotal l).imp of_decide_eq_true

/-- **Sorting forgets the order** in which the elements came. -/
theorem ascending_eq_of_perm {l l' : List α} (h : l.Perm l') : ascending l = ascending l' := by
  have hperm : (ascending l).Perm (ascending l') := ((ascending_perm l).trans h).trans (ascending_perm l').symm
  exact hperm.eq_of_pairwise (fun a b _ _ => Std.le_antisymm) (ascending_pairwise l) (ascending_pairwise l')

/-! ## Ranks -/

section Ranks

variable {l : List α} (h : l.Pairwise (· ≤ ·)) {i j : ℕ}

include h

omit [DecidableLE α] in
theorem getElem_le (hij : i ≤ j) (hi : i < l.length) (hj : j < l.length) : l[i] ≤ l[j] := by
  rcases Nat.eq_or_lt_of_le hij with rfl | hlt
  · exact Std.le_refl _
  · exact List.pairwise_iff_getElem.1 h i j hi hj hlt

/-- the element at a rank, and those before it, are at most as large as it is -/
theorem countP_le_getElem (hi : i < l.length) : i + 1 ≤ l.countP fun a => decide (a ≤ l[i]) := by
  have hall : ∀ a ∈ l.take (i + 1), decide (a ≤ l[i]) = true := by
    intro a ha
    obtain ⟨j, hj, rfl⟩ := List.mem_take_iff_getElem.1 ha
    exact decide_eq_true (getElem_le h (by omega) (by omega) hi)
  calc i + 1 = (l.take (i + 1)).length := by rw [List.length_take, Nat.min_eq_left hi]
    _ = (l.take (i + 1)).countP fun a => decide (a ≤ l[i]) := (List.countP_eq_length.2 hall).symm
    _ ≤ l.countP fun a => decide (a ≤ l[i]) := (List.take_sublist _ _).countP_le

/-- the element at a rank, and those after it, are at least as large as it is -/
theorem countP_getElem_le (hi : i < l.length) : l.length - i ≤ l.countP fun a => decide (l[i] ≤ a) := by
  have hall : ∀ a ∈ l.drop i, decide (l[i] ≤ a) = true := by
    intro a ha
    obtain ⟨j, hj, rfl⟩ := List.mem_drop_iff_getElem.1 ha
    exact decide_eq_true (getElem_le h (by omega) hi (by omega))
  calc l.length - i = (l.drop i).length := List.length_drop.symm
    _ = (l.drop i).countP fun a => decide (l[i] ≤ a) := (List.countP_eq_length.2 hall).symm
    _ ≤ l.countP fun a => decide (l[i] ≤ a) := (List.drop_sublist _ _).countP_le

end Ranks

/-- **The counts at a rank** of a list that has been sorted. -/
theorem counts_at_rank {l : List α} {i : ℕ} {a : α} (ha : (ascending l)[i]? = some a) :
    i + 1 ≤ l.countP (fun b => decide (b ≤ a)) ∧ l.length - i ≤ l.countP fun b => decide (a ≤ b) := by
  obtain ⟨hi, rfl⟩ := List.getElem?_eq_some_iff.1 ha
  have hsorted := ascending_pairwise l
  constructor
  · rw [← (ascending_perm l).countP_eq]
    exact countP_le_getElem hsorted hi
  · rw [← (ascending_perm l).countP_eq, ← ascending_length l]
    exact countP_getElem_le hsorted hi

/-- ranks are ordered as the elements at them -/
theorem ascending_le {l : List α} {i j : ℕ} {a b : α} (hij : i ≤ j) (ha : (ascending l)[i]? = some a)
    (hb : (ascending l)[j]? = some b) : a ≤ b := by
  obtain ⟨hi, rfl⟩ := List.getElem?_eq_some_iff.1 ha
  obtain ⟨hj, rfl⟩ := List.getElem?_eq_some_iff.1 hb
  exact getElem_le (ascending_pairwise l) hij hi hj

omit [Std.IsLinearOrder α] in
/-- a rank below the length has an element, and it is one of the list -/
theorem exists_at_rank {l : List α} {i : ℕ} (hi : i < l.length) : ∃ a ∈ l, (ascending l)[i]? = some a := by
  have hi' : i < (ascending l).length := by rwa [ascending_length]
  exact ⟨(ascending l)[i], mem_ascending.1 (List.getElem_mem hi'), List.getElem?_eq_getElem hi'⟩

/-- a list that is not empty has a least and a greatest element -/
theorem exists_bounds {l : List α} (h : l ≠ []) : ∃ lo ∈ l, ∃ hi ∈ l, ∀ a ∈ l, lo ≤ a ∧ a ≤ hi := by
  have hlen : 0 < l.length := List.length_pos_iff.2 h
  obtain ⟨lo, hlo, hfirst⟩ := exists_at_rank hlen
  obtain ⟨hi, hhi, hlast⟩ := exists_at_rank (Nat.sub_lt hlen Nat.one_pos)
  refine ⟨lo, hlo, hi, hhi, fun a ha => ?_⟩
  obtain ⟨i, hi, hget⟩ := List.getElem_of_mem (mem_ascending.2 ha)
  have hrank : (ascending l)[i]? = some a := hget ▸ List.getElem?_eq_getElem hi
  rw [ascending_length] at hi
  exact ⟨ascending_le (Nat.zero_le i) hfirst hrank, ascending_le (by omega) hrank hlast⟩

/-! ## Medians -/

section Medians

variable {K : Type} [CommRing K] [LinearOrder K] [IsStrictOrderedRing K]

/-- the middle element of the list in ascending order, or the mean of its two middle elements -/
def IsMedian (l : List K) (m : K) : Prop :=
  ∃ s : List K, s.Perm l ∧ s.Pairwise (· ≤ ·) ∧ ∃ k,
    s.length = 2 * k + 1 ∧ s[k]? = some m ∨
      s.length = 2 * k + 2 ∧ ∃ a b, s[k]? = some a ∧ s[k + 1]? = some b ∧ m + m = a + b

/-- **A median is between the bounds** of the list. -/
theorem IsMedian.between {l : List K} {m lo hi : K} (h : IsMedian l m) (hlo : ∀ a ∈ l, lo ≤ a)
    (hhi : ∀ a ∈ l, a ≤ hi) : lo ≤ m ∧ m ≤ hi := by
  obtain ⟨s, hperm, -, k, hmiddle⟩ := h
  have hmem : ∀ {i a}, s[i]? = some a → a ∈ l := fun hget => hperm.mem_iff.1 (List.mem_of_getElem? hget)
  rcases hmiddle with ⟨-, hm⟩ | ⟨-, a, b, ha, hb, hmean⟩
  · exact ⟨hlo m (hmem hm), hhi m (hmem hm)⟩
  · have hla := hlo a (hmem ha)
    have hlb := hlo b (hmem hb)
    have hha := hhi a (hmem ha)
    have hhb := hhi b (hmem hb)
    constructor
    · linarith
    · linarith

end Medians

end WtBenchmarks.OrderStatistics
