/-
Decimal numbers padded with zeros to a fixed width.

- `zeroPadded_injective`: the padding loses nothing, whatever the width.
-/
import Mathlib.Data.List.Basic
import Mathlib.Logic.Function.Basic

namespace WtBenchmarks

/-- `format!("{n:0width$}")` -/
def zeroPadded (width n : ℕ) : String := String.ofList (List.leftpad width '0' (Nat.toDigits 10 n))

theorem zeroPadded_value (width n : ℕ) : Nat.ofDigitChars 10 (zeroPadded width n).toList 0 = n := by
  unfold zeroPadded List.leftpad
  rw [String.toList_ofList, Nat.ofDigitChars_append, Nat.ofDigitChars_replicate_zero, Nat.mul_zero]
  exact Nat.ofDigitChars_ten_toDigits

/-- **Injectivity.** The number is read back from its digits. -/
theorem zeroPadded_injective (width : ℕ) : Function.Injective (zeroPadded width) := by
  intro a b h
  have hvalue := congrArg (fun s : String => Nat.ofDigitChars 10 s.toList 0) h
  simp only [zeroPadded_value] at hvalue
  exact hvalue

end WtBenchmarks
