/-
Hashes folded over a list.

A hash that absorbs one element after another loses nothing when its step is injective in the state; if the step is
injective in the element as well, a change at a single position cannot be undone by the elements after it.

- `foldl_injective`: an injective step makes an injective fold;
- `foldl_ne_of_differOnce`: two lists that differ at one position have different hashes;
- `fnv_state`, `fnv_word`: exclusive or, then multiplication by an odd word, is such a step.
-/
import WtBenchmarks.Core.Mixer

namespace WtBenchmarks.FoldHash

variable {α σ : Type*}

/-- two lists of one length that differ at one position and at no other -/
def DifferOnce (xs ys : List α) : Prop :=
  xs.length = ys.length ∧ ∃ i < xs.length, xs[i]? ≠ ys[i]? ∧ ∀ j < xs.length, j ≠ i → xs[j]? = ys[j]?

instance [DecidableEq α] (xs ys : List α) : Decidable (DifferOnce xs ys) := by
  unfold DifferOnce
  infer_instance

theorem not_differOnce_nil {ys : List α} : ¬ DifferOnce [] ys := by
  intro h
  rcases h with ⟨-, i, hi, -, -⟩
  exact absurd hi (Nat.not_lt_zero i)

/-- the position is the first one, or it lies in the tails -/
theorem differOnce_cons {x y : α} {xs ys : List α} (h : DifferOnce (x :: xs) (y :: ys)) :
    x ≠ y ∧ xs = ys ∨ x = y ∧ DifferOnce xs ys := by
  rcases h with ⟨hlen, i, hi, hne, hsame⟩
  have hlen' : xs.length = ys.length := by simpa using hlen
  have htail : ∀ j < xs.length, j + 1 ≠ i → xs[j]? = ys[j]? := by
    intro j hj hji
    simpa using hsame (j + 1) (by simpa using hj) hji
  cases i with
  | zero =>
    left
    refine ⟨by simpa using hne, List.ext_getElem? fun j => ?_⟩
    rcases Nat.lt_or_ge j xs.length with hj | hj
    · exact htail j hj (Nat.succ_ne_zero j)
    · rw [List.getElem?_eq_none hj, List.getElem?_eq_none (hlen' ▸ hj)]
  | succ i =>
    right
    refine ⟨by simpa using hsame 0 (by simp) (Nat.succ_ne_zero i).symm, hlen', i, by simpa using hi, by simpa using hne,
      fun j hj hji => htail j hj (by simpa using hji)⟩

variable {step : σ → α → σ}

theorem foldl_injective (hstate : ∀ a, Function.Injective fun s => step s a) (xs : List α) :
    Function.Injective fun s => xs.foldl step s := by
  induction xs with
  | nil => exact Function.injective_id
  | cons x xs ih =>
    intro s t h
    simp only [List.foldl_cons] at h
    exact hstate x (ih h)

/-- **A single change is detected**, whatever follows it. -/
theorem foldl_ne_of_differOnce (hstate : ∀ a, Function.Injective fun s => step s a)
    (helem : ∀ s, Function.Injective (step s)) {xs ys : List α} (h : DifferOnce xs ys) (s : σ) :
    xs.foldl step s ≠ ys.foldl step s := by
  induction xs generalizing ys s with
  | nil => exact absurd h not_differOnce_nil
  | cons x xs ih =>
    cases ys with
    | nil => exact absurd h.1 (by simp)
    | cons y ys =>
      simp only [List.foldl_cons]
      rcases differOnce_cons h with ⟨hne, hrest⟩ | ⟨hhead, hrest⟩
      · rw [hrest]
        intro heq
        exact hne (helem s (foldl_injective hstate ys heq))
      · rw [hhead]
        exact ih hrest (step s y)

/-! ## Exclusive or, then a multiplication by an odd word -/

section Fnv

variable {word : α → UInt64} {c : UInt64}

theorem fnv_state (hc : c.toNat % 2 = 1) (a : α) : Function.Injective fun hash => (hash ^^^ word a) * c := by
  intro s t h
  exact (UInt64.xor_left_inj (word a)).1 (Mixer.mul_odd_injective hc h)

theorem fnv_word (hc : c.toNat % 2 = 1) (hword : Function.Injective word) (hash : UInt64) :
    Function.Injective fun a => (hash ^^^ word a) * c := by
  intro a b h
  exact hword ((UInt64.xor_right_inj hash).1 (Mixer.mul_odd_injective hc h))

end Fnv

end WtBenchmarks.FoldHash
