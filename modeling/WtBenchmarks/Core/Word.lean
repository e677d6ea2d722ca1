/-
Arithmetic on 64-bit words that stops at an overflow.

`checkedAdd`, `checkedSub`, `checkedMul` and `checkedMod` return `none` where the machine operation would overflow,
borrow or divide by zero. Each has one equation for the case in which it succeeds, in terms of `toNat`.
-/
import Mathlib.Tactic

namespace WtBenchmarks

def u64Max : UInt64 := 0xffffffffffffffff

theorem u64Max_toNat : u64Max.toNat = 2 ^ 64 - 1 := rfl

def checkedAdd (a b : UInt64) : Option UInt64 := if a.toNat + b.toNat < 2 ^ 64 then some (a + b) else none

def checkedSub (a b : UInt64) : Option UInt64 := if b ≤ a then some (a - b) else none

def checkedMul (a b : UInt64) : Option UInt64 := if a.toNat * b.toNat < 2 ^ 64 then some (a * b) else none

def checkedMod (a b : UInt64) : Option UInt64 := if b = 0 then none else some (a % b)

def saturatingSub (a b : UInt64) : UInt64 := (checkedSub a b).getD 0

theorem saturatingSub_eq_zero {a b : UInt64} : saturatingSub a b = 0 ↔ a.toNat ≤ b.toNat := by
  unfold saturatingSub checkedSub
  split_ifs with h
  · rw [UInt64.le_iff_toNat_le] at h
    rw [Option.getD_some, ← UInt64.toNat_inj, UInt64.toNat_sub_of_le _ _ (UInt64.le_iff_toNat_le.2 h),
      UInt64.toNat_zero]
    omega
  · rw [UInt64.le_iff_toNat_le] at h
    exact ⟨fun _ => by omega, fun _ => rfl⟩

theorem toNat_pos_of_ne {x : UInt64} (h : x ≠ 0) : 0 < x.toNat :=
  Nat.pos_of_ne_zero fun he => h (UInt64.toNat_inj.1 he)

theorem toNat_add_of_lt {a b : UInt64} (h : a.toNat + b.toNat < 2 ^ 64) : (a + b).toNat = a.toNat + b.toNat := by
  rw [UInt64.toNat_add, Nat.mod_eq_of_lt h]

theorem toNat_mul_of_lt {a b : UInt64} (h : a.toNat * b.toNat < 2 ^ 64) : (a * b).toNat = a.toNat * b.toNat := by
  rw [UInt64.toNat_mul, Nat.mod_eq_of_lt h]

theorem checkedAdd_some {a b : UInt64} (h : a.toNat + b.toNat < 2 ^ 64) :
    ∃ c, checkedAdd a b = some c ∧ c.toNat = a.toNat + b.toNat :=
  ⟨a + b, if_pos h, toNat_add_of_lt h⟩

theorem checkedSub_some {a b : UInt64} (h : b.toNat ≤ a.toNat) :
    ∃ c, checkedSub a b = some c ∧ c.toNat = a.toNat - b.toNat :=
  have hle : b ≤ a := UInt64.le_iff_toNat_le.2 h
  ⟨a - b, if_pos hle, UInt64.toNat_sub_of_le a b hle⟩

theorem checkedMul_some {a b : UInt64} (h : a.toNat * b.toNat < 2 ^ 64) :
    ∃ c, checkedMul a b = some c ∧ c.toNat = a.toNat * b.toNat :=
  ⟨a * b, if_pos h, toNat_mul_of_lt h⟩

theorem checkedAdd_toNat {a b c : UInt64} (h : checkedAdd a b = some c) : c.toNat = a.toNat + b.toNat := by
  unfold checkedAdd at h
  split_ifs at h with hlt
  cases h
  exact toNat_add_of_lt hlt

theorem checkedAdd_eq {a b c : UInt64} (h : checkedAdd a b = some c) : c = a + b := by
  unfold checkedAdd at h
  split_ifs at h
  exact (Option.some.inj h).symm

theorem checkedMul_toNat {a b c : UInt64} (h : checkedMul a b = some c) : c.toNat = a.toNat * b.toNat := by
  unfold checkedMul at h
  split_ifs at h with hlt
  cases h
  exact toNat_mul_of_lt hlt

theorem checkedMod_some {a b : UInt64} (h : 0 < b.toNat) : ∃ c, checkedMod a b = some c ∧ c.toNat = a.toNat % b.toNat :=
  have hne : b ≠ 0 := by rintro rfl; exact absurd h (by decide)
  ⟨a % b, if_neg hne, UInt64.toNat_mod a b⟩

theorem checkedMod_eq {a b c : UInt64} (h : checkedMod a b = some c) : c = a % b := by
  unfold checkedMod at h
  split_ifs at h
  exact (Option.some.inj h).symm

theorem succ_toNat {f : UInt64} (h : f < u64Max) : (f + 1).toNat = f.toNat + 1 := by
  rw [UInt64.lt_iff_toNat_lt, u64Max_toNat] at h
  exact toNat_add_of_lt (by rw [UInt64.toNat_one]; omega)

theorem ofNat_toNat_of_lt {n : ℕ} (h : n < 2 ^ 64) : (UInt64.ofNat n).toNat = n := by
  rw [UInt64.toNat_ofNat', Nat.mod_eq_of_lt h]

/-- `a.div_ceil(b)` -/
def divCeil (a b : UInt64) : UInt64 := if 0 < a % b then a / b + 1 else a / b

theorem divCeil_toNat {a b : UInt64} (hb : 0 < b.toNat) :
    (divCeil a b).toNat = (a.toNat + (b.toNat - 1)) / b.toNat := by
  have ha := a.toNat_lt
  have hmod := Nat.mod_lt a.toNat hb
  have hdiv := Nat.div_add_mod a.toNat b.toNat
  have hle : a.toNat / b.toNat ≤ a.toNat := Nat.div_le_self _ _
  have hsplit : (a.toNat + (b.toNat - 1)) / b.toNat =
      a.toNat / b.toNat + (a.toNat % b.toNat + (b.toNat - 1)) / b.toNat := by
    rw [← Nat.mul_add_div hb]
    congr 1
    omega
  rw [hsplit, divCeil]
  split_ifs with h
  · rw [UInt64.lt_iff_toNat_lt, UInt64.toNat_zero, UInt64.toNat_mod] at h
    have hone : (a.toNat % b.toNat + (b.toNat - 1)) / b.toNat = 1 := by
      rw [Nat.div_eq_iff hb]
      omega
    have hlt : a.toNat / b.toNat + 1 < 2 ^ 64 := by
      rcases Nat.eq_or_lt_of_le hle with heq | hlt
      · have hmul : a.toNat / b.toNat ≤ b.toNat * (a.toNat / b.toNat) := Nat.le_mul_of_pos_left _ hb
        omega
      · omega
    rw [hone, toNat_add_of_lt (by rw [UInt64.toNat_div, UInt64.toNat_one]; exact hlt), UInt64.toNat_div,
      UInt64.toNat_one]
  · rw [UInt64.lt_iff_toNat_lt, UInt64.toNat_zero, UInt64.toNat_mod] at h
    have hzero : (a.toNat % b.toNat + (b.toNat - 1)) / b.toNat = 0 := Nat.div_eq_of_lt (by omega)
    rw [hzero, UInt64.toNat_div, Nat.add_zero]

/-- `x.max(1)` -/
theorem max_one_toNat (x : UInt64) : (max x 1).toNat = max x.toNat 1 := by
  show (if x ≤ 1 then 1 else x).toNat = _
  by_cases h : x ≤ 1
  · rw [if_pos h]
    rw [UInt64.le_iff_toNat_le, UInt64.toNat_one] at h
    exact (max_eq_right h).symm
  · rw [if_neg h]
    rw [UInt64.le_iff_toNat_le, UInt64.toNat_one] at h
    exact (max_eq_left (by omega)).symm

/-! ## The first words -/

/-- the words below `n` -/
def words (n : ℕ) : List UInt64 := (List.range n).map UInt64.ofNat

@[simp] theorem words_length (n : ℕ) : (words n).length = n := by rw [words, List.length_map, List.length_range]

theorem words_succ (n : ℕ) : words (n + 1) = words n ++ [UInt64.ofNat n] := by
  rw [words, List.range_succ, List.map_append]
  rfl

theorem words_nodup {n : ℕ} (hn : n ≤ 2 ^ 64) : (words n).Nodup := by
  refine List.nodup_range.map_on fun i hi j hj h => ?_
  rw [← ofNat_toNat_of_lt ((List.mem_range.1 hi).trans_le hn), h, ofNat_toNat_of_lt ((List.mem_range.1 hj).trans_le hn)]

theorem mem_words {n : ℕ} (hn : n ≤ 2 ^ 64) {w : UInt64} : w ∈ words n ↔ w.toNat < n := by
  rw [words, List.mem_map]
  constructor
  · intro h
    obtain ⟨i, hi, rfl⟩ := h
    have hi := List.mem_range.1 hi
    rwa [ofNat_toNat_of_lt (hi.trans_le hn)]
  · intro h
    exact ⟨w.toNat, List.mem_range.2 h, UInt64.ofNat_toNat⟩

/-! ## Casts to `i64` -/

/-- the order of the casts: the upper half of the words comes first -/
theorem toInt64_le {a b : UInt64} : a.toInt64 ≤ b.toInt64 ↔
    2 ^ 63 ≤ a.toNat ∧ b.toNat < 2 ^ 63 ∨ (2 ^ 63 ≤ a.toNat ↔ 2 ^ 63 ≤ b.toNat) ∧ a.toNat ≤ b.toNat := by
  have hcast : ∀ x : UInt64, x.toInt64.toInt = if x.toNat < 2 ^ 63 then (x.toNat : ℤ) else x.toNat - 2 ^ 64 := by
    intro x
    show x.toBitVec.toInt = _
    rw [BitVec.toInt_eq_toNat_cond]
    simp only [UInt64.toNat_toBitVec]
    split_ifs <;> omega
  have ha := a.toNat_lt
  have hb := b.toNat_lt
  rw [Int64.le_iff_toInt_le, hcast, hcast]
  split_ifs <;> omega

theorem toInt64_neg {a : UInt64} : a.toInt64 < 0 ↔ 2 ^ 63 ≤ a.toNat := by
  have hzero : (0 : Int64) = (0 : UInt64).toInt64 := rfl
  rw [← Int64.not_le, hzero, toInt64_le]
  simp

end WtBenchmarks
