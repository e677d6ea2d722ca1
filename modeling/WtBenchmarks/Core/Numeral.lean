/-
Numerals in a base up to sixteen, padded with zeros to a fixed width.

As long as the width suffices, a padded numeral is one digit longer than that of the quotient by the base, so comparing
two of them digit by digit compares the numbers.

- `padded_succ`: the last digit of a padded numeral, and the ones before it;
- `padded_lt_iff`: padded numerals are ordered as the numbers are;
- `paddedString_compare`: so are the strings.
-/
import Mathlib.Data.List.Basic
import Mathlib.Tactic

namespace WtBenchmarks.Numeral

/-- `format!("{n:0width$x}")` for base sixteen -/
def padded (base width n : ℕ) : List Char := List.leftpad width '0' (Nat.toDigits base n)

/-! ## Digits -/

theorem digitChar_lt_iff {d e : ℕ} (hd : d < 16) (he : e < 16) : d.digitChar < e.digitChar ↔ d < e := by
  have hall : ∀ d e : Fin 16, d.val.digitChar < e.val.digitChar ↔ d.val < e.val := by decide
  exact hall ⟨d, hd⟩ ⟨e, he⟩

theorem padded_one {base n : ℕ} (hn : n < base) : padded base 1 n = [n.digitChar] := by
  rw [padded, Nat.toDigits_of_lt_base hn]
  rfl

/-- **The last digit.** -/
theorem padded_succ {base width n : ℕ} (hbase : 1 < base) (hwidth : 0 < width) :
    padded base (width + 1) n = padded base width (n / base) ++ [(n % base).digitChar] := by
  rcases Nat.lt_or_ge n base with hn | hn
  · obtain ⟨w, rfl⟩ : ∃ w, width = w + 1 := ⟨width - 1, by omega⟩
    rw [padded, padded, Nat.div_eq_of_lt hn, Nat.mod_eq_of_lt hn, Nat.toDigits_zero, Nat.toDigits_of_lt_base hn]
    simp only [List.leftpad, List.length_singleton, Nat.add_sub_cancel, ← List.replicate_succ']
  · rw [padded, padded, Nat.toDigits_of_base_le hbase hn, List.leftpad, List.leftpad, List.length_append,
      List.length_singleton, Nat.add_sub_add_right, List.append_assoc]

theorem padded_length {base width n : ℕ} (hbase : 1 < base) (hwidth : 0 < width) (hn : n < base ^ width) :
    (padded base width n).length = width := by
  rw [padded, List.length_leftpad]
  exact max_eq_left ((Nat.length_toDigits_le_iff hbase hwidth).2 hn)

/-! ## Order -/

/-- lists of one length are compared before their last elements are -/
theorem append_singleton_lt_iff {as bs : List Char} (hlength : as.length = bs.length) (x y : Char) :
    as ++ [x] < bs ++ [y] ↔ as < bs ∨ as = bs ∧ x < y := by
  induction as generalizing bs with
  | nil =>
    obtain rfl := List.eq_nil_of_length_eq_zero hlength.symm
    simp [List.cons_lt_cons_iff]
  | cons a as ih =>
    cases bs with
    | nil => cases hlength
    | cons b bs =>
      rw [List.cons_append, List.cons_append, List.cons_lt_cons_iff, List.cons_lt_cons_iff,
        ih (Nat.succ.inj hlength), List.cons.injEq]
      tauto

/-- the order of numbers, by quotient and remainder -/
theorem lt_iff_div_mod {base : ℕ} (m n : ℕ) :
    m < n ↔ m / base < n / base ∨ m / base = n / base ∧ m % base < n % base := by
  have hm := Nat.div_add_mod m base
  have hn := Nat.div_add_mod n base
  constructor
  · intro h
    rcases Nat.lt_or_ge (m / base) (n / base) with hlt | hge
    · exact Or.inl hlt
    · have heq := Nat.le_antisymm (Nat.div_le_div_right h.le) hge
      rw [heq] at hm
      exact Or.inr ⟨heq, by omega⟩
  · intro h
    rcases h with hlt | ⟨heq, hlt⟩
    · by_contra hge
      exact absurd (Nat.div_le_div_right (c := base) (Nat.le_of_not_lt hge)) (Nat.not_le.2 hlt)
    · rw [heq] at hm
      omega

/-- **Order.** Induction on the width; two numerals with the same last digit removed are compared by that digit. -/
theorem padded_lt_iff {base width m n : ℕ} (hbase : 1 < base) (hsmall : base ≤ 16) (hm : m < base ^ (width + 1))
    (hn : n < base ^ (width + 1)) : padded base (width + 1) m < padded base (width + 1) n ↔ m < n := by
  induction width generalizing m n with
  | zero =>
    rw [Nat.zero_add, Nat.pow_one] at hm hn
    rw [padded_one hm, padded_one hn, ← digitChar_lt_iff (hm.trans_le hsmall) (hn.trans_le hsmall)]
    simp [List.cons_lt_cons_iff]
  | succ width ih =>
    have hquotient : ∀ k < base ^ (width + 1 + 1), k / base < base ^ (width + 1) := by
      intro k hk
      rwa [Nat.div_lt_iff_lt_mul (by omega), ← Nat.pow_succ]
    have hdigit : ∀ k, k % base < 16 := fun k => (Nat.mod_lt k (by omega)).trans_le hsmall
    have hprefix : padded base (width + 1) (m / base) = padded base (width + 1) (n / base) ↔ m / base = n / base := by
      refine ⟨fun h => ?_, fun h => by rw [h]⟩
      have hlt := ih (hquotient m hm) (hquotient n hn)
      have hgt := ih (hquotient n hn) (hquotient m hm)
      rw [h] at hlt hgt
      have hirrefl := List.lt_irrefl (padded base (width + 1) (n / base))
      exact Nat.le_antisymm (Nat.not_lt.1 fun hc => hirrefl (hgt.2 hc)) (Nat.not_lt.1 fun hc => hirrefl (hlt.2 hc))
    have hlengths : (padded base (width + 1) (m / base)).length = (padded base (width + 1) (n / base)).length := by
      rw [padded_length hbase (Nat.succ_pos _) (hquotient m hm), padded_length hbase (Nat.succ_pos _) (hquotient n hn)]
    rw [padded_succ hbase (Nat.succ_pos _), padded_succ hbase (Nat.succ_pos _), append_singleton_lt_iff hlengths,
      ih (hquotient m hm) (hquotient n hn), hprefix, digitChar_lt_iff (hdigit m) (hdigit n), ← lt_iff_div_mod]

/-- **Comparison.** The strings compare as the numbers do. -/
theorem paddedString_compare {base width m n : ℕ} (hbase : 1 < base) (hsmall : base ≤ 16)
    (hm : m < base ^ (width + 1)) (hn : n < base ^ (width + 1)) :
    compare (String.ofList (padded base (width + 1) m)) (String.ofList (padded base (width + 1) n)) = compare m n := by
  have hlt : ∀ {a b : ℕ}, a < base ^ (width + 1) → b < base ^ (width + 1) → a < b →
      compare (String.ofList (padded base (width + 1) a)) (String.ofList (padded base (width + 1) b)) = .lt := by
    intro a b ha hb hab
    have hchars := (padded_lt_iff hbase hsmall ha hb).2 hab
    refine if_pos ?_
    show (String.ofList (padded base (width + 1) a)).toList < (String.ofList (padded base (width + 1) b)).toList
    rwa [String.toList_ofList, String.toList_ofList]
  rcases Nat.lt_trichotomy m n with h | rfl | h
  · rw [hlt hm hn h, Nat.compare_eq_lt.2 h]
  · rw [Std.compare_self, Std.compare_self]
  · rw [Std.OrientedOrd.eq_swap (a := String.ofList (padded base (width + 1) m)), hlt hn hm h, Nat.compare_eq_gt.2 h]
    rfl

end WtBenchmarks.Numeral
