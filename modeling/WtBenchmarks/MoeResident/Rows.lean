/-
The provenance rows of the resident lookup benchmarks (`src/moe_resident.rs`).

Row `index` is filed under its source, one of 122, and its ordinal there; both go into one word, the key. A lookup
returns the other fields, and the benchmarks add up a digest of them.

- `logicalRow_key_inj`: the keys of the first `122 * 2 ^ 32` rows differ;
- `keys_nodup_iff`: a fixture has different keys exactly if it has no more rows than that;
- `checksum_low`: the low bits of a digest are the source and the ordinal, where these are small;
- `counts_eq`: up to `122 * 1024` rows, the difference of two digests weighs the same only if counted equally often.
-/
import WtBenchmarks.Core.Aggregate
import WtBenchmarks.Core.Word

namespace WtBenchmarks.MoeResident

/-! ## Model -/

structure OriginValue where
  source : UInt32
  ordinal : UInt32
  /-- the field `example` -/
  exampleIndex : UInt32
  pathCount : UInt16
  originCount : UInt16
deriving DecidableEq, Repr

def originKey (source ordinal : UInt32) : UInt64 := (source.toUInt64 <<< 32) ||| ordinal.toUInt64

/-- the product wraps, as it does without overflow checks -/
def logicalRow (index rowCount : ℕ) : UInt64 × OriginValue :=
  let source := UInt32.ofNat (index % 122)
  let ordinal := UInt32.ofNat (index / 122)
  let value : OriginValue :=
    { source, ordinal
      exampleIndex := UInt32.ofNat (index * 1103 % 2 ^ 64 % max rowCount 1)
      pathCount := UInt16.ofNat (1 + index % 17)
      originCount := UInt16.ofNat (1 + if index % 97 = 0 then 1 else 0) }
  (originKey source ordinal, value)

def logicalRows (rowCount : ℕ) : List (UInt64 × OriginValue) :=
  (List.range rowCount).map fun index => logicalRow index rowCount

def rotateLeft (x : UInt64) (n : ℕ) : UInt64 := ⟨x.toBitVec.rotateLeft n⟩

def checksum (value : OriginValue) : UInt64 :=
  value.source.toUInt64 ^^^ rotateLeft value.ordinal.toUInt64 7 ^^^ rotateLeft value.exampleIndex.toUInt64 17 ^^^
    rotateLeft value.pathCount.toUInt64 31 ^^^ rotateLeft value.originCount.toUInt64 43

/-! ## Keys -/

theorem originKey_toNat (source ordinal : UInt32) :
    (originKey source ordinal).toNat = 2 ^ 32 * source.toNat + ordinal.toNat := by
  have hsource := source.toNat_lt
  have hordinal := ordinal.toNat_lt
  have hshift : source.toNat <<< 32 < 2 ^ 64 := by
    rw [Nat.shiftLeft_eq]
    omega
  rw [originKey, UInt64.toNat_or, UInt64.toNat_shiftLeft, UInt32.toNat_toUInt64, UInt32.toNat_toUInt64,
    show (32 : UInt64).toNat % 64 = 32 from rfl, Nat.mod_eq_of_lt hshift, ← Nat.shiftLeft_add_eq_or_of_lt hordinal,
    Nat.shiftLeft_eq, Nat.mul_comm]

theorem originKey_inj {source ordinal source' ordinal' : UInt32}
    (h : originKey source ordinal = originKey source' ordinal') : source = source' ∧ ordinal = ordinal' := by
  have hval := congrArg UInt64.toNat h
  rw [originKey_toNat, originKey_toNat] at hval
  have hordinal := ordinal.toNat_lt
  have hordinal' := ordinal'.toNat_lt
  exact ⟨UInt32.toNat_inj.1 (by omega), UInt32.toNat_inj.1 (by omega)⟩

/-- a key is the source and the ordinal -/
theorem logicalRow_key_eq_iff {i j n m : ℕ} :
    (logicalRow i n).1 = (logicalRow j m).1 ↔ i % 122 = j % 122 ∧ i / 122 % 2 ^ 32 = j / 122 % 2 ^ 32 := by
  have hi : i % 122 < 122 := Nat.mod_lt _ (by decide)
  have hj : j % 122 < 122 := Nat.mod_lt _ (by decide)
  constructor
  · intro h
    obtain ⟨hsource, hordinal⟩ := originKey_inj h
    have hs := congrArg UInt32.toNat hsource
    have ho := congrArg UInt32.toNat hordinal
    rw [UInt32.toNat_ofNat', UInt32.toNat_ofNat'] at hs ho
    exact ⟨by omega, ho⟩
  · rintro ⟨hs, ho⟩
    have hordinal : UInt32.ofNat (i / 122) = UInt32.ofNat (j / 122) :=
      UInt32.toNat_inj.1 (by rw [UInt32.toNat_ofNat', UInt32.toNat_ofNat', ho])
    simp only [logicalRow, hs, hordinal]

theorem logicalRow_key_inj {i j n m : ℕ} (hi : i < 122 * 2 ^ 32) (hj : j < 122 * 2 ^ 32)
    (h : (logicalRow i n).1 = (logicalRow j m).1) : i = j := by
  obtain ⟨hs, ho⟩ := logicalRow_key_eq_iff.1 h
  rw [Nat.mod_eq_of_lt (by omega), Nat.mod_eq_of_lt (by omega)] at ho
  omega

@[simp] theorem length_logicalRows (rowCount : ℕ) : (logicalRows rowCount).length = rowCount := by
  rw [logicalRows, List.length_map, List.length_range]

theorem mem_logicalRows {rowCount : ℕ} {r : UInt64 × OriginValue} :
    r ∈ logicalRows rowCount ↔ ∃ i < rowCount, logicalRow i rowCount = r := by
  simp [logicalRows]

/-- **When the keys differ.** -/
theorem keys_nodup_iff (rowCount : ℕ) : ((logicalRows rowCount).map Prod.fst).Nodup ↔ rowCount ≤ 122 * 2 ^ 32 := by
  rw [logicalRows, List.map_map, List.nodup_map_iff_inj_on List.nodup_range]
  constructor
  · intro hinj
    by_contra hlt
    have hfirst := hinj 0 (List.mem_range.2 (by omega)) (122 * 2 ^ 32) (List.mem_range.2 (by omega))
      (logicalRow_key_eq_iff.2 (by decide))
    omega
  · intro hle i hi j hj h
    rw [List.mem_range] at hi hj
    exact logicalRow_key_inj (by omega) (by omega) h

/-! ## Digests -/

/-- a rotation that loses no bits is a product -/
theorem rotateLeft_toNat {x : UInt64} {n : ℕ} (hn : n < 64) (hx : x.toNat * 2 ^ n < 2 ^ 64) :
    (rotateLeft x n).toNat = x.toNat * 2 ^ n := by
  have hsplit : 2 ^ 64 = 2 ^ (64 - n) * 2 ^ n := by rw [← Nat.pow_add, Nat.sub_add_cancel hn.le]
  have hhigh : x.toNat < 2 ^ (64 - n) := by
    rw [hsplit] at hx
    exact Nat.lt_of_mul_lt_mul_right hx
  have hlow : x.toNat >>> (64 - n) = 0 := by rw [Nat.shiftRight_eq_div_pow, Nat.div_eq_of_lt hhigh]
  show (x.toBitVec.rotateLeft n).toNat = _
  rw [BitVec.toNat_rotateLeft, Nat.mod_eq_of_lt hn, UInt64.toNat_toBitVec, hlow, Nat.or_zero, Nat.shiftLeft_eq,
    Nat.mod_eq_of_lt hx]

theorem toUInt64_mul_lt {x : UInt32} {n : ℕ} (hn : n ≤ 32) : x.toUInt64.toNat * 2 ^ n < 2 ^ 64 := by
  have hx := x.toNat_lt
  have hpow : 2 ^ n ≤ 2 ^ 32 := Nat.pow_le_pow_right (by decide) hn
  rw [UInt32.toNat_toUInt64]
  exact (Nat.mul_lt_mul_of_lt_of_le hx hpow (by positivity)).trans_eq (by norm_num)

theorem toUInt64_mul_lt' {x : UInt16} {n : ℕ} (hn : n ≤ 48) : x.toUInt64.toNat * 2 ^ n < 2 ^ 64 := by
  have hx := x.toNat_lt
  have hpow : 2 ^ n ≤ 2 ^ 48 := Nat.pow_le_pow_right (by decide) hn
  rw [UInt16.toNat_toUInt64]
  exact (Nat.mul_lt_mul_of_lt_of_le hx hpow (by positivity)).trans_eq (by norm_num)

/-- a field rotated by at least 17 does not reach the low bits -/
theorem mul_low {x n : ℕ} (hn : 17 ≤ n) : x * 2 ^ n % 2 ^ 17 = 0 :=
  Nat.mod_eq_zero_of_dvd ((Nat.pow_dvd_pow 2 hn).trans (Nat.dvd_mul_left _ _))

/-- **The low bits of a digest.** -/
theorem checksum_low {value : OriginValue} (hsource : value.source.toNat < 2 ^ 7)
    (hordinal : value.ordinal.toNat < 2 ^ 10) :
    (checksum value).toNat % 2 ^ 17 = 2 ^ 7 * value.ordinal.toNat + value.source.toNat := by
  have hlow : (checksum value).toNat % 2 ^ 17 = value.source.toNat ^^^ value.ordinal.toNat * 2 ^ 7 := by
    have hexample : value.exampleIndex.toNat * 2 ^ 17 % 2 ^ 17 = 0 := mul_low (by decide)
    have hpaths : value.pathCount.toNat * 2 ^ 31 % 2 ^ 17 = 0 := mul_low (by decide)
    have horigins : value.originCount.toNat * 2 ^ 43 % 2 ^ 17 = 0 := mul_low (by decide)
    simp only [checksum, UInt64.toNat_xor, rotateLeft_toNat (by decide) (toUInt64_mul_lt (show 7 ≤ 32 by decide)),
      rotateLeft_toNat (by decide) (toUInt64_mul_lt (show 17 ≤ 32 by decide)),
      rotateLeft_toNat (by decide) (toUInt64_mul_lt' (show 31 ≤ 48 by decide)),
      rotateLeft_toNat (by decide) (toUInt64_mul_lt' (show 43 ≤ 48 by decide)), UInt32.toNat_toUInt64,
      UInt16.toNat_toUInt64, Nat.xor_mod_two_pow, hexample, hpaths, horigins, Nat.xor_zero]
    rw [Nat.mod_eq_of_lt (by omega), Nat.mod_eq_of_lt (by omega)]
  have hmod : (value.source.toNat ^^^ value.ordinal.toNat * 2 ^ 7) % 2 ^ 7 = value.source.toNat := by
    rw [Nat.xor_mod_two_pow, Nat.mul_mod_left, Nat.xor_zero, Nat.mod_eq_of_lt hsource]
  have hdiv : (value.source.toNat ^^^ value.ordinal.toNat * 2 ^ 7) / 2 ^ 7 = value.ordinal.toNat := by
    rw [Nat.xor_div_two_pow, Nat.div_eq_of_lt hsource, Nat.zero_xor, Nat.mul_div_cancel _ (by decide)]
  rw [hlow]
  calc value.source.toNat ^^^ value.ordinal.toNat * 2 ^ 7
      = 2 ^ 7 * ((value.source.toNat ^^^ value.ordinal.toNat * 2 ^ 7) / 2 ^ 7) +
          (value.source.toNat ^^^ value.ordinal.toNat * 2 ^ 7) % 2 ^ 7 := (Nat.div_add_mod _ _).symm
    _ = 2 ^ 7 * value.ordinal.toNat + value.source.toNat := by rw [hmod, hdiv]

theorem logicalRow_source (index rowCount : ℕ) : (logicalRow index rowCount).2.source.toNat = index % 122 := by
  have hmod : index % 122 < 122 := Nat.mod_lt _ (by decide)
  exact (UInt32.toNat_ofNat' ..).trans (Nat.mod_eq_of_lt (by omega))

theorem logicalRow_ordinal {index : ℕ} (rowCount : ℕ) (h : index < 122 * 2 ^ 32) :
    (logicalRow index rowCount).2.ordinal.toNat = index / 122 :=
  (UInt32.toNat_ofNat' ..).trans (Nat.mod_eq_of_lt (by omega))

/-- the digests of two rows differ in a low bit -/
theorem checksum_sub_low {i j rowCount : ℕ} (hi : i < 122 * 2 ^ 10) (hj : j < 122 * 2 ^ 10) (hne : i ≠ j) :
    ¬ 2 ^ 17 ∣ (checksum (logicalRow i rowCount).2 - checksum (logicalRow j rowCount).2).toNat := by
  have hrow : ∀ k < 122 * 2 ^ 10,
      (checksum (logicalRow k rowCount).2).toNat % 2 ^ 17 = 2 ^ 7 * (k / 122) + k % 122 := by
    intro k hk
    have hsource := logicalRow_source k rowCount
    have hordinal := logicalRow_ordinal rowCount (show k < 122 * 2 ^ 32 by omega)
    rw [checksum_low (by omega) (by omega), hsource, hordinal]
  intro hdvd
  have hlowi := hrow i hi
  have hlowj := hrow j hj
  have hxi := (checksum (logicalRow i rowCount).2).toNat_lt
  have hxj := (checksum (logicalRow j rowCount).2).toNat_lt
  have hzero := Nat.mod_eq_zero_of_dvd hdvd
  rw [UInt64.toNat_sub] at hzero
  omega

/-- **Weights.** The difference of two digests weighs the same only if it is counted equally often. -/
theorem counts_eq {i j rowCount : ℕ} (hi : i < 122 * 2 ^ 10) (hj : j < 122 * 2 ^ 10) (hne : i ≠ j) {a b : ℕ}
    (ha : a < 2 ^ 48) (hb : b < 2 ^ 48)
    (h : a • (checksum (logicalRow i rowCount).2 - checksum (logicalRow j rowCount).2) =
      b • (checksum (logicalRow i rowCount).2 - checksum (logicalRow j rowCount).2)) : a = b :=
  Aggregate.nsmul_inj_of_low (k := 16) rfl (checksum_sub_low hi hj hne) ha hb h

end WtBenchmarks.MoeResident
