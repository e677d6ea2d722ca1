/-
Residues of consecutive machine words.

The words `b, b + 1, …` of a machine with `M` values are taken modulo `n`. While they do not pass `M` this is the
residue of a consecutive run; past it they start again from zero, in general out of step with the run before.

- `wrapped_injOn`: when the first `c` residues differ;
- `wrapped_repeats`: when the residue of the word after the first `q` is one of theirs.
-/
import Mathlib.Tactic

namespace WtBenchmarks.Residues

/-- the residue of a word that has wrapped -/
def wrapped (M n x : ℕ) : ℕ := x % M % n

variable {M n b : ℕ}

theorem wrapped_of_lt {x : ℕ} (h : x < M) : wrapped M n x = x % n := by rw [wrapped, Nat.mod_eq_of_lt h]

/-- past the last word the residues start from zero -/
theorem wrapped_add {y : ℕ} (h : y < M) : wrapped M n (M + y) = y % n := by
  rw [wrapped, Nat.add_mod_left, Nat.mod_eq_of_lt h]

theorem mod_eq_of_run {k r x : ℕ} (hx : x = n * k + r) (hr : r < n) : x % n = r := by
  rw [hx, Nat.mul_add_mod, Nat.mod_eq_of_lt hr]

/-! ## Different residues -/

theorem consecutive_injOn (lo : ℕ) {c : ℕ} (hn : 0 < n) : Set.InjOn (fun s => (lo + s) % n) (Set.Iio c) ↔ c ≤ n := by
  constructor
  · intro h
    by_contra hlt
    have h0 : 0 = n := h (show 0 < c by omega) (show n < c by omega) (by simp)
    omega
  · intro h i hi j hj hij
    have hi' : i < c := hi
    have hj' : j < c := hj
    have hmod : i ≡ j [MOD n] := Nat.ModEq.add_left_cancel' lo hij
    exact hmod.eq_of_lt_of_lt (by omega) (by omega)

/-- a run that does not pass the last word -/
theorem wrapped_injOn_of_le {c : ℕ} (hn : 0 < n) (h : b + c ≤ M) :
    Set.InjOn (fun s => wrapped M n (b + s)) (Set.Iio c) ↔ c ≤ n := by
  rw [← consecutive_injOn b hn]
  refine Set.EqOn.injOn_iff fun s hs => ?_
  have hs' : s < c := hs
  exact wrapped_of_lt (by omega)

/-- a run that passes it -/
theorem wrapped_injOn_of_lt {c : ℕ} (hn : 0 < n) (hb : b < M) (hc : c < M) (h : M < b + c) :
    Set.InjOn (fun s => wrapped M n (b + s)) (Set.Iio c) ↔ c ≤ (M - 1) % n + 1 := by
  obtain ⟨k, e, hke⟩ : ∃ k e, M - 1 = n * k + e ∧ e < n ∧ (M - 1) % n = e :=
    ⟨(M - 1) / n, (M - 1) % n, (Nat.div_add_mod _ _).symm, Nat.mod_lt _ hn, rfl⟩
  obtain ⟨hM, he, hmod⟩ := hke
  obtain ⟨p, hp⟩ : ∃ p, M = b + p := ⟨M - b, by omega⟩
  rw [hmod]
  constructor
  · intro hinj
    by_contra hlong
    -- the run from `b` up to the last word either contains a multiple of `n`, or its first residue comes again
    by_cases hpe : e < p
    · have hzero : wrapped M n (b + (p - 1 - e)) = wrapped M n (b + p) := by
        rw [← hp, wrapped_of_lt (by omega), mod_eq_of_run (k := k) (r := 0) (by omega) hn]
        exact (wrapped_add (y := 0) (by omega)).symm
      have := hinj (show p - 1 - e < c by omega) (show p < c by omega) hzero
      omega
    · have hagain : wrapped M n (b + 0) = wrapped M n (b + (p + (e - p + 1))) := by
        rw [← Nat.add_assoc, ← hp, wrapped_add (by omega), wrapped_of_lt (by omega),
          mod_eq_of_run (k := k) (r := e - p + 1) (by omega) (by omega), Nat.mod_eq_of_lt (by omega)]
      have := hinj (show 0 < c by omega) (show p + (e - p + 1) < c by omega) hagain
      omega
  · intro hc' i hi j hj hij
    have hi' : i < c := hi
    have hj' : j < c := hj
    -- before the last word the residues lie above those after it
    have hlow : ∀ s < p, wrapped M n (b + s) = e - p + 1 + s := by
      intro s hs
      rw [wrapped_of_lt (by omega)]
      exact mod_eq_of_run (k := k) (by omega) (by omega)
    have hhigh : ∀ s, p ≤ s → s < c → wrapped M n (b + s) = s - p := by
      intro s hs hsc
      rw [show b + s = M + (s - p) by omega, wrapped_add (by omega), Nat.mod_eq_of_lt (by omega)]
    rcases Nat.lt_or_ge i p with hip | hip
    · rcases Nat.lt_or_ge j p with hjp | hjp
      · have := (hlow i hip).symm.trans (hij.trans (hlow j hjp))
        omega
      · have := (hlow i hip).symm.trans (hij.trans (hhigh j hjp hj'))
        omega
    · rcases Nat.lt_or_ge j p with hjp | hjp
      · have := (hhigh i hip hi').symm.trans (hij.trans (hlow j hjp))
        omega
      · have := (hhigh i hip hi').symm.trans (hij.trans (hhigh j hjp hj'))
        omega

/-- the first `c` residues from `b` on can differ -/
def RunFits (M n b c : ℕ) : Prop := if b + c ≤ M then c ≤ n else c ≤ (M - 1) % n + 1

instance (M n b c : ℕ) : Decidable (RunFits M n b c) := inferInstanceAs (Decidable (ite _ _ _))

/-- **When the residues of a run differ.** -/
theorem wrapped_injOn {c : ℕ} (hn : 0 < n) (hb : b < M) (hc : c < M) :
    Set.InjOn (fun s => wrapped M n (b + s)) (Set.Iio c) ↔ RunFits M n b c := by
  unfold RunFits
  split_ifs with h
  · exact wrapped_injOn_of_le hn h
  · exact wrapped_injOn_of_lt hn hb hc (Nat.not_le.1 h)

/-! ## Repeated residues -/

/-- the residue of the word after the first `q` from `b` on repeats one of theirs -/
def Repeats (M n b q : ℕ) : Prop :=
  if b + q < M then n ≤ q else n ≤ b + q - M ∨ (M - 1 - (b + q - M)) % n < M - b

instance (M n b q : ℕ) : Decidable (Repeats M n b q) := inferInstanceAs (Decidable (ite _ _ _))

/-- a residue is met in a run exactly if the last number of the run that has it is in the run -/
theorem exists_residue {lo hi y : ℕ} (hy : y < hi) (hlo : lo < hi) :
    (∃ x, lo ≤ x ∧ x < hi ∧ x % n = y % n) ↔ (hi - 1 - y) % n < hi - lo := by
  constructor
  · intro h
    obtain ⟨x, hx, hxhi, hmod⟩ := h
    have hsub : hi - 1 - y ≡ hi - 1 - x [MOD n] := by
      have hcancel : hi - 1 - y + y ≡ hi - 1 - x + y [MOD n] := by
        have hxy : hi - 1 - x + x ≡ hi - 1 - x + y [MOD n] := Nat.ModEq.add_left _ hmod
        have he : hi - 1 - y + y = hi - 1 - x + x := by omega
        rw [he]
        exact hxy
      exact Nat.ModEq.add_right_cancel' y hcancel
    calc (hi - 1 - y) % n = (hi - 1 - x) % n := hsub
      _ ≤ hi - 1 - x := Nat.mod_le _ _
      _ < hi - lo := by omega
  · intro h
    have hle := Nat.mod_le (hi - 1 - y) n
    refine ⟨hi - 1 - (hi - 1 - y) % n, by omega, by omega, ?_⟩
    have hdiv := Nat.div_add_mod (hi - 1 - y) n
    have hx : hi - 1 - (hi - 1 - y) % n = y + n * ((hi - 1 - y) / n) := by omega
    rw [hx, Nat.add_mul_mod_self_left]

/-- **When a residue repeats.** -/
theorem wrapped_repeats {q : ℕ} (hn : 0 < n) (hb : b < M) (hq : q < M) :
    (∃ s < q, wrapped M n (b + s) = wrapped M n (b + q)) ↔ Repeats M n b q := by
  unfold Repeats
  split_ifs with h
  · constructor
    · intro hex
      obtain ⟨s, hs, heq⟩ := hex
      rw [wrapped_of_lt (by omega), wrapped_of_lt h] at heq
      have hdvd := (Nat.modEq_iff_dvd' (by omega)).1 heq
      have := Nat.le_of_dvd (by omega) hdvd
      omega
    · intro hle
      refine ⟨q - n, by omega, ?_⟩
      rw [wrapped_of_lt (by omega), wrapped_of_lt h, show b + q = b + (q - n) + n by omega, Nat.add_mod_right]
  · obtain ⟨p, hp⟩ : ∃ p, M = b + p := ⟨M - b, by omega⟩
    obtain ⟨y, hy⟩ : ∃ y, q = p + y := ⟨q - p, by omega⟩
    have hyM : y < M := by omega
    have hval : wrapped M n (b + q) = y % n := by
      rw [show b + q = M + y by omega, wrapped_add hyM]
    rw [hval, show b + q - M = y by omega, ← exists_residue hyM hb]
    constructor
    · intro hex
      obtain ⟨s, hs, heq⟩ := hex
      rcases Nat.lt_or_ge s p with hsp | hsp
      · rw [wrapped_of_lt (by omega)] at heq
        exact Or.inr ⟨b + s, by omega, by omega, heq⟩
      · rw [show b + s = M + (s - p) by omega, wrapped_add (by omega)] at heq
        have hdvd := (Nat.modEq_iff_dvd' (by omega)).1 heq
        have := Nat.le_of_dvd (by omega) hdvd
        exact Or.inl (by omega)
    · intro hor
      rcases hor with hle | hex
      · refine ⟨p + (y - n), by omega, ?_⟩
        rw [show b + (p + (y - n)) = M + (y - n) by omega, wrapped_add (by omega)]
        conv_rhs => rw [show y = y - n + n by omega, Nat.add_mod_right]
      · obtain ⟨x, hbx, hxM, hmod⟩ := hex
        refine ⟨x - b, by omega, ?_⟩
        rw [show b + (x - b) = x by omega, wrapped_of_lt hxM]
        exact hmod

end WtBenchmarks.Residues
