/-
Facts about binary64 numbers, over the logical model of Lean's `Float`.

A float is unpacked into a sign, a mantissa and an exponent; an operation works on the unpacked numbers, rounds to the
nearest number, ties to even, and packs the result.

- `lt_trans`: the order of the numbers that are numbers;
- `unpack_pack`, `canonical_of_unpack`: packing keeps a canonical number, and only those are unpacked;
- `round_le`: rounding does not pass a canonical number;
- `unpack_toFloat`, `fraction_mul`: words as numbers, and scaled down to the unit interval;
- `not_lt_mul`: a fraction of a number is not above it.
-/
import Mathlib

namespace WtBenchmarks.Binary64

open Float.Model
open Float.Model.UnpackedFloat

/-! ## Order -/

theorem lt_iff {x y : Float} : x < y ↔ x.toModel.unpack.compare y.toModel.unpack = some .lt := by
  show Float.lt x y = true ↔ _
  rw [Float.lt]
  show decide (Float.Model.lt x.toModel y.toModel = true) = true ↔ _
  rw [decide_eq_true_iff, Float.Model.lt, UnpackedFloat.lt, beq_iff_eq]

/-- where a number stands among the others -/
def rank : UnpackedFloat → Option (ℤ ×ₗ ℤ ×ₗ ℤ)
  | .notANumber => none
  | .infinity .negative => some (toLex (-2, toLex (0, 0)))
  | .finite .negative m e _ => some (toLex (-1, toLex (-e, -m)))
  | .zero _ => some (toLex (0, toLex (0, 0)))
  | .finite .positive m e _ => some (toLex (1, toLex (e, m)))
  | .infinity .positive => some (toLex (2, toLex (0, 0)))

theorem compare_eq_lt {a b : UnpackedFloat} :
    a.compare b = some .lt ↔ ∃ p q, rank a = some p ∧ rank b = some q ∧ p < q := by
  have hsigns : compare Sign.negative Sign.positive = .lt := rfl
  rcases a with (_ | _) | _ | _ | ⟨_ | _, m, e, h⟩ <;> rcases b with (_ | _) | _ | _ | ⟨_ | _, m', e', h'⟩ <;>
    simp [UnpackedFloat.compare, rank, Prod.Lex.toLex_lt_toLex, Ordering.then_eq_lt, Ordering.then_eq_gt,
      compare_gt_iff_gt, compare_lt_iff_lt, hsigns]

theorem lt_trans {x y z : Float} (hxy : x < y) (hyz : y < z) : x < z := by
  rw [lt_iff, compare_eq_lt] at hxy hyz ⊢
  obtain ⟨p, q, hp, hq, hpq⟩ := hxy
  obtain ⟨q', r, hq', hr, hqr⟩ := hyz
  rw [hq] at hq'
  cases hq'
  exact ⟨p, r, hp, hr, hpq.trans hqr⟩

/-! ## Packing -/

/-- the mantissa and the exponent a number is packed with -/
structure Canonical (m : ℕ) (e : ℤ) : Prop where
  mantissa : m < 2 ^ 53
  lower : -1074 ≤ e
  upper : e ≤ 971
  normal : 2 ^ 52 ≤ m ∨ e = -1074

theorem append_toNat (m : BitVec 52) : (1#1 ++ m).toNat = 2 ^ 52 + m.toNat := by
  rw [BitVec.toNat_append, ← Nat.shiftLeft_add_eq_or_of_lt m.isLt]
  rfl

/-- what a word with given fields stands for -/
theorem unpack_packComponents (s : Sign) (e : BitVec 11) (m : BitVec 52) :
    UnpackedFloat.unpack Format.binary64 (packComponents Format.binary64 s e m) =
      if e = -1#11 then if m = 0#52 then .infinity s else .notANumber
      else if e = 0#11 then
        if h : m = 0#52 then .zero s
        else .finite s m.toNat (-1074) (Nat.pos_of_ne_zero fun hm => h (BitVec.eq_of_toNat_eq hm))
      else .finite s (2 ^ 52 + m.toNat) (e.toNat - 1075) (Nat.add_pos_left (Nat.two_pow_pos 52) _) := by
  simp only [UnpackedFloat.unpack, unpackMantissa_packComponents, unpackExponent_packComponents,
    unpackSign_packComponents, Sign.ofBitVec_toBitVec, append_toNat]
  split_ifs with h1 h2 h3 h4
  · rfl
  · rfl
  · rfl
  · subst h3
    rfl
  · rfl

/-- a mantissa with the implicit bit is packed without it, any other one under the exponent zero -/
theorem pack_finite (s : Sign) {m : ℕ} {e : ℤ} (h : 0 < m) (hlo : -1074 ≤ e) (hhi : e ≤ 971) :
    UnpackedFloat.pack Format.binary64 (.finite s m e h) =
      if m.log2 + 1 = 53 then packComponents Format.binary64 s (BitVec.ofNat 11 (e + 1075).toNat) (BitVec.ofNat 52 m)
      else packComponents Format.binary64 s 0#11 (BitVec.ofNat 52 m) := by
  have hbias : (e + Format.binary64.exponentBias + Format.binary64.mantissaBitsWithoutImplicit).toNat =
      (e + 1075).toNat := by
    rw [show (Format.binary64.exponentBias : ℤ) = 1023 from rfl]
    congr 1
    show e + 1023 + 52 = e + 1075
    omega
  have hroom : ¬ 2 ^ Format.binary64.exponentBits ≤ (e + 1075).toNat + 1 := by
    show ¬ 2 ^ 11 ≤ (e + 1075).toNat + 1
    omega
  simp only [UnpackedFloat.pack, hbias, if_neg hroom]
  rfl

theorem unpack_normal (s : Sign) {m : ℕ} {e : ℤ} (h : 0 < m) (hm : m < 2 ^ 53) (hbits : 2 ^ 52 ≤ m) (hlo : -1074 ≤ e)
    (hhi : e ≤ 971) : UnpackedFloat.unpack Format.binary64
      (packComponents Format.binary64 s (BitVec.ofNat 11 (e + 1075).toNat) (BitVec.ofNat 52 m)) = .finite s m e h := by
  have hexp : (BitVec.ofNat 11 (e + 1075).toNat).toNat = (e + 1075).toNat := by
    rw [BitVec.toNat_ofNat, Nat.mod_eq_of_lt (by omega)]
  have hmant : (BitVec.ofNat 52 m).toNat = m - 2 ^ 52 := by
    rw [BitVec.toNat_ofNat]
    omega
  have hlast : BitVec.ofNat 11 (e + 1075).toNat ≠ -1#11 := by
    intro heq
    have hval : (e + 1075).toNat = 2047 := hexp.symm.trans (congrArg BitVec.toNat heq)
    omega
  have hfirst : BitVec.ofNat 11 (e + 1075).toNat ≠ 0#11 := by
    intro heq
    have hval : (e + 1075).toNat = 0 := hexp.symm.trans (congrArg BitVec.toNat heq)
    omega
  rw [unpack_packComponents, if_neg hlast, if_neg hfirst]
  congr 1
  · rw [hmant]
    omega
  · rw [hexp]
    omega

theorem unpack_subnormal (s : Sign) {m : ℕ} (h : 0 < m) (hm : m < 2 ^ 52) : UnpackedFloat.unpack Format.binary64
    (packComponents Format.binary64 s 0#11 (BitVec.ofNat 52 m)) = .finite s m (-1074) h := by
  have hmant : (BitVec.ofNat 52 m).toNat = m := by rw [BitVec.toNat_ofNat, Nat.mod_eq_of_lt hm]
  have hpos : BitVec.ofNat 52 m ≠ 0#52 := by
    intro heq
    exact h.ne' (hmant.symm.trans (congrArg BitVec.toNat heq))
  rw [unpack_packComponents, if_neg (by decide), if_pos rfl, dif_neg hpos]
  congr 1

theorem unpack_pack {s : Sign} {m : ℕ} {e : ℤ} {h : 0 < m} (hc : Canonical m e) :
    (Float.Model.pack (.finite s m e h)).unpack = .finite s m e h := by
  obtain ⟨hm, hlo, hhi, hn⟩ := hc
  show UnpackedFloat.unpack Format.binary64 (UnpackedFloat.pack Format.binary64 (.finite s m e h)) = _
  rw [pack_finite s h hlo hhi]
  by_cases hbits : 2 ^ 52 ≤ m
  · rw [if_pos (congrArg (· + 1) ((Nat.log2_eq_iff h.ne').2 ⟨hbits, hm⟩)), unpack_normal s h hm hbits hlo hhi]
  · obtain rfl : e = -1074 := hn.resolve_left hbits
    have hlog := (Nat.log2_lt h.ne').2 (Nat.lt_of_not_le hbits)
    rw [if_neg (by omega), unpack_subnormal s h (Nat.lt_of_not_le hbits)]

/-- the fields of a word give a canonical number -/
theorem canonical_of_unpack {x : Float.Model} {s : Sign} {m : ℕ} {e : ℤ} {h : 0 < m}
    (hx : x.unpack = .finite s m e h) : Canonical m e := by
  unfold Float.Model.unpack UnpackedFloat.unpack at hx
  dsimp only at hx
  have hmant := append_toNat (@unpackMantissa Format.binary64 x.toBits.toBitVec)
  have hfield : (@unpackMantissa Format.binary64 x.toBits.toBitVec).toNat < 2 ^ 52 := BitVec.isLt _
  have hbiased : (@unpackExponent Format.binary64 x.toBits.toBitVec).toNat < 2 ^ 11 := BitVec.isLt _
  split_ifs at hx with hlast hinf hzero hfrac
  · cases hx
    rw [hzero]
    exact ⟨hfield.trans (by decide), by decide, by decide, Or.inr (by decide)⟩
  · cases hx
    have hzero : (@unpackExponent Format.binary64 x.toBits.toBitVec).toNat ≠ 0 := fun h0 =>
      hzero (BitVec.eq_of_toNat_eq h0)
    have hlast : (@unpackExponent Format.binary64 x.toBits.toBitVec).toNat ≠ 2047 := fun h0 =>
      hlast (BitVec.eq_of_toNat_eq h0)
    rw [hmant]
    generalize (@unpackExponent Format.binary64 x.toBits.toBitVec).toNat = b at *
    show Canonical _ ((b : ℤ) - 1075)
    exact ⟨by omega, by omega, by omega, Or.inl (by omega)⟩

/-! ## Rounding -/

theorem shift_mantissa (em : ExtendedMantissa) (k : ℕ) : (em >>> k).mantissa = em.mantissa / 2 ^ k := by
  induction k with
  | zero => exact (Nat.div_one _).symm
  | succ k ih =>
    show (em >>> k).mantissa / 2 = _
    rw [ih, Nat.div_div_eq_div_mul, pow_succ]

/-- no bit is lost of a multiple -/
theorem shift_exact (b k : ℕ) : (⟨b * 2 ^ k, false, false⟩ : ExtendedMantissa) >>> k = ⟨b, false, false⟩ := by
  induction k generalizing b with
  | zero => rw [pow_zero, Nat.mul_one]; rfl
  | succ k ih =>
    show ((⟨b * 2 ^ (k + 1), false, false⟩ : ExtendedMantissa) >>> k).shiftRightOne = _
    rw [pow_succ', ← Nat.mul_assoc, ih, ExtendedMantissa.shiftRightOne]
    simp

theorem le_roundedMantissa (em : ExtendedMantissa) : em.mantissa ≤ em.roundedMantissa := by
  obtain ⟨m, _ | _, _ | _⟩ := em <;>
    simp [ExtendedMantissa.roundedMantissa, ExtendedMantissa.accuracy, Accuracy.roundToNearestEven]

theorem roundedMantissa_le (em : ExtendedMantissa) : em.roundedMantissa ≤ em.mantissa + 1 := by
  obtain ⟨m, _ | _, _ | _⟩ := em <;>
    simp [ExtendedMantissa.roundedMantissa, ExtendedMantissa.accuracy, Accuracy.roundToNearestEven]
  omega

/-- rounding does not pass a bound that survives the shift -/
theorem roundedMantissa_shift_le {m b k : ℕ} (h : m ≤ b * 2 ^ k) :
    ((⟨m, false, false⟩ : ExtendedMantissa) >>> k).roundedMantissa ≤ b := by
  rcases h.eq_or_lt with rfl | hlt
  · rw [shift_exact]
    rfl
  · refine (roundedMantissa_le _).trans ?_
    rw [shift_mantissa]
    exact Nat.div_lt_of_lt_mul (by rwa [Nat.mul_comm])

/-- the exponent a number is rounded to -/
def target (m : ℕ) (e : ℤ) : ℤ := max (m.log2 + e - 52) (-1074)

theorem targetExponent_eq (m : ℕ) (e : ℤ) :
    Format.binary64.targetExponent (totalExponent m e) = target m e := by
  show max ((m.log2 : ℤ) + 1 + e - 53) (-1074) = max ((m.log2 : ℤ) + e - 52) (-1074)
  congr 1
  omega

/-- the mantissa a number is rounded to, before it overflows -/
def rounded (m : ℕ) (e : ℤ) : ℕ := ((⟨m, false, false⟩ : ExtendedMantissa) >>> (target m e - e).toNat).roundedMantissa

theorem le_target {m : ℕ} {e : ℤ} (hm : 2 ^ 52 ≤ m) : e ≤ target m e := by
  have hlog : 52 ≤ m.log2 := (Nat.le_log2 (by omega)).2 hm
  exact le_max_of_le_left (by omega)

theorem lt_two_pow_target (m : ℕ) (e : ℤ) : m < 2 ^ 53 * 2 ^ (target m e - e).toNat := by
  rw [← pow_add]
  refine Nat.lt_log2_self.trans_le (Nat.pow_le_pow_right (by decide) ?_)
  have : (m.log2 : ℤ) + e - 52 ≤ target m e := le_max_left _ _
  omega

theorem rounded_le_two_pow (m : ℕ) (e : ℤ) : rounded m e ≤ 2 ^ 53 := roundedMantissa_shift_le (lt_two_pow_target m e).le

/-- rounding, with the one bit an overflow of the mantissa takes -/
theorem roundWithAccuracy_eq (s : Sign) {m : ℕ} {e : ℤ} (hm : 2 ^ 52 ≤ m) :
    roundWithAccuracy Format.binary64 s m e .exact =
      if rounded m e = 2 ^ 53 then .finite s (2 ^ 52) (target m e + 1) (Nat.two_pow_pos 52)
      else if h : rounded m e = 0 then .zero s
      else .finite s (rounded m e) (target m e) (Nat.pos_of_ne_zero h) := by
  have hfirst : shiftToTargetExponent Format.binary64 m e .exact =
      ((⟨m, false, false⟩ : ExtendedMantissa) >>> (target m e - e).toNat, target m e) := by
    rw [shiftToTargetExponent, targetExponent_eq, shiftToExponent]
    have := le_target (e := e) hm
    refine Prod.ext rfl ?_
    show e + ((target m e - e).toNat : ℤ) = _
    omega
  have hlow : -1074 ≤ target m e := le_max_right _ _
  rw [roundWithAccuracy, hfirst]
  dsimp only
  rw [show ((⟨m, false, false⟩ : ExtendedMantissa) >>> (target m e - e).toNat).roundedMantissa = rounded m e from rfl,
    shiftToTargetExponent, targetExponent_eq, shiftToExponent]
  have hle := rounded_le_two_pow m e
  generalize rounded m e = r at *
  generalize target m e = t at *
  by_cases hover : r = 2 ^ 53
  · subst hover
    have hnext : target (2 ^ 53) t = t + 1 := by
      rw [target, Nat.log2_two_pow]
      omega
    rw [if_pos rfl, hnext, show (t + 1 - t).toNat = 1 by omega]
    rfl
  · have hsame : (target r t - t).toNat = 0 := by
      have hlog : r.log2 ≤ 52 := by
        by_cases h0 : r = 0
        · subst h0
          decide
        · have := (Nat.log2_lt h0).2 (show r < 2 ^ 53 by omega)
          omega
      rw [target]
      omega
    rw [if_neg hover, hsame, show t + ((0 : ℕ) : ℤ) = t by omega]
    rfl

/-- a number that is not too small keeps all the bits of its mantissa -/
theorem le_rounded {m : ℕ} {e : ℤ} (hm : 2 ^ 52 ≤ m) (hmin : -1022 ≤ m.log2 + e) : 2 ^ 52 ≤ rounded m e := by
  have hbits : 52 ≤ m.log2 := (Nat.le_log2 (by omega)).2 hm
  have htarget : (target m e - e).toNat = m.log2 - 52 := by
    rw [target]
    omega
  refine le_trans ?_ (le_roundedMantissa _)
  rw [shift_mantissa, htarget, Nat.le_div_iff_mul_le (by positivity), ← pow_add, Nat.add_sub_cancel' hbits]
  exact Nat.log2_self_le (by omega)

/-- **Rounding.** A number with enough bits that is at most a canonical one is rounded to a canonical one that is at
most it, or, if it is too small, possibly to zero. -/
theorem round_le (s : Sign) {m m' : ℕ} {e e' : ℤ} (hm : 2 ^ 52 ≤ m) (hc : Canonical m' e') (he : e ≤ e')
    (hle : m ≤ m' * 2 ^ (e' - e).toNat) :
    (roundWithAccuracy Format.binary64 s m e .exact = .zero s ∧ m.log2 + e < -1022) ∨
      ∃ r t h, roundWithAccuracy Format.binary64 s m e .exact = .finite s r t h ∧ Canonical r t ∧
        m.log2 + e - 52 ≤ t ∧ (t < e' ∨ t = e' ∧ r ≤ m') := by
  have hlow : -1074 ≤ target m e := le_max_right _ _
  have hlog : (m.log2 : ℤ) + e - 52 ≤ target m e := le_max_left _ _
  have hnear : target m e ≤ e' := by
    have hlt : m < 2 ^ (53 + (e' - e).toNat) := by
      rw [pow_add]
      exact hle.trans_lt (Nat.mul_lt_mul_of_pos_right hc.mantissa (by positivity))
    have := (Nat.log2_lt (by omega)).2 hlt
    have := hc.lower
    rw [target]
    omega
  have hbound : target m e = e' → rounded m e ≤ m' := by
    intro heq
    rw [rounded, heq]
    exact roundedMantissa_shift_le hle
  have hup := hc.upper
  rw [roundWithAccuracy_eq s hm]
  split_ifs with hover hzero
  · have hlt : target m e < e' := by
      refine lt_of_le_of_ne hnear fun heq => ?_
      have := hbound heq
      have := hc.mantissa
      omega
    have hbits := hc.normal
    exact Or.inr ⟨_, _, Nat.two_pow_pos 52, rfl, ⟨by decide, by omega, by omega, Or.inl le_rfl⟩, by omega, by omega⟩
  · refine Or.inl ⟨rfl, ?_⟩
    by_contra hsmall
    have := le_rounded hm (show -1022 ≤ m.log2 + e by omega)
    omega
  · have hlt : rounded m e < 2 ^ 53 := lt_of_le_of_ne (rounded_le_two_pow m e) hover
    refine Or.inr ⟨_, _, Nat.pos_of_ne_zero hzero, rfl, ⟨hlt, hlow, by omega, ?_⟩, hlog, ?_⟩
    · by_cases hmin : -1022 ≤ m.log2 + e
      · exact Or.inl (le_rounded hm hmin)
      · refine Or.inr ?_
        rw [target]
        omega
    · rcases hnear.lt_or_eq with hlt | heq
      · exact Or.inl hlt
      · exact Or.inr ⟨heq, hbound heq⟩

/-! ## Whole numbers -/

theorem log2_mul_two_pow {n : ℕ} (h : 0 < n) (k : ℕ) : (n * 2 ^ k).log2 = n.log2 + k := by
  rw [Nat.log2_eq_iff (by positivity)]
  constructor
  · rw [pow_add]
    exact Nat.mul_le_mul_right _ (Nat.log2_self_le h.ne')
  · rw [show n.log2 + k + 1 = n.log2 + 1 + k by omega, pow_add]
    exact Nat.mul_lt_mul_of_pos_right Nat.lt_log2_self (by positivity)

/-- a positive word is rounded as it is, with bits added to reach 53 of them -/
theorem ofUInt64_eq {n : UInt64} (h : 0 < n.toNat) : UnpackedFloat.ofUInt64 Format.binary64 n =
    roundWithAccuracy Format.binary64 .positive (n.toNat * 2 ^ (52 - n.toNat.log2)) (-((52 - n.toNat.log2 : ℕ) : ℤ))
      .exact := by
  have hgt : compare (n.toNat : ℤ) 0 = .gt := by
    rw [compare_gt_iff_gt]
    omega
  have htarget : Format.binary64.targetExponent (totalExponent n.toNat 0) = n.toNat.log2 - 52 := by
    rw [targetExponent_eq, target]
    omega
  rw [UnpackedFloat.ofUInt64, UnpackedFloat.ofNat, UnpackedFloat.ofInt, UnpackedFloat.normalize, hgt]
  dsimp only
  rw [Int.toNat_natCast, UnpackedFloat.round, htarget, decreaseExponent, Nat.shiftLeft_eq,
    show (0 - ((n.toNat.log2 : ℤ) - 52)).toNat = 52 - n.toNat.log2 by omega]
  dsimp only
  rw [zero_sub]

/-- a positive word as a number; one of at most 53 bits is below `2 ^ 53` -/
theorem unpack_toFloat {n : UInt64} (h : 0 < n.toNat) : ∃ r t h, n.toFloat.toModel.unpack = .finite .positive r t h ∧
    Canonical r t ∧ -52 ≤ t ∧ (n.toNat < 2 ^ 53 → t ≤ 0) := by
  have hword := n.toNat_lt
  have hlog := log2_mul_two_pow h (52 - n.toNat.log2)
  have hself := Nat.log2_self_le h.ne'
  set k := 52 - n.toNat.log2 with hk
  have hbits : 2 ^ 52 ≤ n.toNat * 2 ^ k := by
    rw [← Nat.le_log2 (by positivity), hlog]
    omega
  have hbound : ∃ m' e', Canonical m' e' ∧ -(k : ℤ) ≤ e' ∧ n.toNat * 2 ^ k ≤ m' * 2 ^ (e' - -(k : ℤ)).toNat ∧
      (n.toNat < 2 ^ 53 → e' ≤ 0) := by
    by_cases hsmall : n.toNat < 2 ^ 53
    · refine ⟨2 ^ 53 - 1, 0, ⟨by decide, by decide, by decide, Or.inl (by decide)⟩, by omega, ?_, fun _ => le_rfl⟩
      rw [show (0 - -(k : ℤ)).toNat = k by omega]
      exact Nat.mul_le_mul_right _ (by omega)
    · refine ⟨2 ^ 52, 12, ⟨by decide, by decide, by decide, Or.inl le_rfl⟩, by omega, ?_, fun hlt => absurd hlt hsmall⟩
      rw [show (12 - -(k : ℤ)).toNat = 12 + k by omega, ← pow_add, ← Nat.add_assoc, pow_add]
      exact Nat.mul_le_mul_right _ hword.le
  obtain ⟨m', e', hc, he, hle, hsmall⟩ := hbound
  rcases round_le .positive hbits hc he hle with ⟨-, htiny⟩ | ⟨r, t, hr, hround, hrt, hlow, hnear⟩
  · omega
  · refine ⟨r, t, hr, ?_, hrt, by omega, fun hlt => ?_⟩
    · show (Float.Model.pack (UnpackedFloat.ofUInt64 Format.binary64 n)).unpack = _
      rw [ofUInt64_eq h, hround, unpack_pack hrt]
    · have := hsmall hlt
      omega

theorem toFloat_pos {n : UInt64} (h : 0 < n.toNat) : 0 < n.toFloat := by
  obtain ⟨r, t, hr, hunpack, -⟩ := unpack_toFloat h
  rw [lt_iff, hunpack]
  rfl

/-! ## Numbers that are not negative -/

/-- not a number below zero that is finite -/
def NotNegative (u : UnpackedFloat) : Prop := ∀ m e h, u ≠ .finite .negative m e h

theorem notNegative_round (m : ℕ) (e : ℤ) (acc : Accuracy) :
    NotNegative (roundWithAccuracy Format.binary64 .positive m e acc) := by
  intro m' e' h' heq
  rw [roundWithAccuracy] at heq
  dsimp only at heq
  split_ifs at heq
  cases heq

/-- packing does not change the sign of a finite number -/
theorem NotNegative.pack {u : UnpackedFloat} (hu : NotNegative u) : NotNegative (Float.Model.pack u).unpack := by
  intro m e h heq
  have hcomp : ∃ s b f, UnpackedFloat.pack Format.binary64 u = packComponents Format.binary64 s b f ∧
      (s = .negative → (b = -1#11 ∧ f = 0#52) ∨ b = 0#11 ∧ f = 0#52) := by
    cases u with
    | notANumber => exact ⟨.positive, _, _, rfl, fun h => by cases h⟩
    | infinity s => exact ⟨s, _, _, rfl, fun _ => Or.inl ⟨rfl, rfl⟩⟩
    | zero s => exact ⟨s, _, _, rfl, fun _ => Or.inr ⟨rfl, rfl⟩⟩
    | finite s m e h =>
      cases s with
      | negative => exact absurd rfl (hu m e h)
      | positive =>
        rw [UnpackedFloat.pack]
        dsimp only
        split_ifs
        · exact ⟨.positive, _, _, rfl, fun h => by cases h⟩
        · exact ⟨.positive, _, _, rfl, fun h => by cases h⟩
        · exact ⟨.positive, _, _, rfl, fun h => by cases h⟩
  obtain ⟨s, b, f, hpack, hneg⟩ := hcomp
  have hunpack : (Float.Model.pack u).unpack =
      UnpackedFloat.unpack Format.binary64 (packComponents Format.binary64 s b f) := by
    rw [← hpack]
    rfl
  rw [hunpack, unpack_packComponents] at heq
  split_ifs at heq with h1 h2 h3 h4
  · cases heq
    rcases hneg rfl with ⟨hb, -⟩ | ⟨-, hf⟩
    · exact h1 hb
    · exact h4 hf
  · cases heq
    rcases hneg rfl with ⟨hb, -⟩ | ⟨hb, -⟩
    · exact h1 hb
    · exact h3 hb

theorem NotNegative.add {u v : UnpackedFloat} (hu : NotNegative u) (hv : NotNegative v) :
    NotNegative (UnpackedFloat.add Format.binary64 u v) := by
  cases u with
  | notANumber => cases v <;> exact fun _ _ _ h => by cases h
  | infinity s =>
    cases v with
    | infinity s' =>
      rw [UnpackedFloat.add]
      split_ifs <;> exact fun _ _ _ h => by cases h
    | _ => exact fun _ _ _ h => by cases h
  | zero s =>
    cases v with
    | zero s' =>
      rw [UnpackedFloat.add]
      split_ifs <;> exact fun _ _ _ h => by cases h
    | finite => exact hv
    | _ => exact fun _ _ _ h => by cases h
  | finite s m e h =>
    cases v with
    | zero s' => exact hu
    | finite s' m' e' h' =>
      cases s with
      | negative => exact absurd rfl (hu m e h)
      | positive =>
        cases s' with
        | negative => exact absurd rfl (hv m' e' h')
        | positive =>
          rw [UnpackedFloat.add]
          dsimp only [decreaseExponent, Sign.apply]
          rw [← Int.natCast_add, UnpackedFloat.normalize]
          split
          · next hlt =>
            rw [compare_lt_iff_lt] at hlt
            exact absurd hlt (Int.natCast_nonneg _).not_gt
          · exact fun _ _ _ h => by cases h
          · exact notNegative_round _ _ _
    | _ => exact fun _ _ _ h => by cases h

/-- the inverse of a number that is not negative is not -/
theorem NotNegative.inv {v : UnpackedFloat} (hv : NotNegative v) (m : ℕ) (e : ℤ) (h : 0 < m) :
    NotNegative (UnpackedFloat.div Format.binary64 (.finite .positive m e h) v) := by
  cases v with
  | finite s m' e' h' =>
    cases s with
    | negative => exact absurd rfl (hv m' e' h')
    | positive => exact notNegative_round _ _ _
  | _ => exact fun _ _ _ h => by cases h

theorem NotNegative.of_not_lt {x : Float} (h : ¬ x < 0) : NotNegative x.toModel.unpack := by
  intro m e hm heq
  refine h (lt_iff.2 ?_)
  rw [heq]
  rfl

theorem notNegative_add {x y : Float} (hx : NotNegative x.toModel.unpack) (hy : NotNegative y.toModel.unpack) :
    NotNegative (x + y).toModel.unpack := (hx.add hy).pack

theorem notNegative_one_div {x : Float} (hx : NotNegative x.toModel.unpack) :
    NotNegative (1.0 / x).toModel.unpack := by
  have hone : (1.0 : Float).toModel.unpack = .finite .positive (2 ^ 52) (-52) (by decide) := rfl
  show NotNegative (Float.Model.pack (UnpackedFloat.div Format.binary64 (1.0 : Float).toModel.unpack
    x.toModel.unpack)).unpack
  rw [hone]
  exact (hx.inv _ _ _).pack

/-! ## Fractions of a number -/

/-- at least zero and less than one, and not so small that bits are lost -/
def Fraction (u : UnpackedFloat) : Prop :=
  u = .zero .positive ∨ ∃ m e h, u = .finite .positive m e h ∧ m < 2 ^ 53 ∧ 2 ^ 52 ≤ m ∧ e ≤ -53

theorem unpack_pack_zero (s : Sign) : (Float.Model.pack (.zero s)).unpack = .zero s := by cases s <;> rfl

theorem unpack_pack_nan : (Float.Model.pack .notANumber).unpack = .notANumber := rfl

theorem unpack_pack_infinity (s : Sign) : (Float.Model.pack (.infinity s)).unpack = .infinity s := by cases s <;> rfl

/-- zero times a number is zero, or no number -/
theorem not_lt_zero_mul {v : UnpackedFloat} (hv : NotNegative v) : v.compare
    (Float.Model.pack (UnpackedFloat.mul Format.binary64 (.zero .positive) v)).unpack ≠ some .lt := by
  cases v with
  | notANumber => exact fun h => by cases h
  | infinity s =>
    show (UnpackedFloat.infinity s).compare (Float.Model.pack .notANumber).unpack ≠ _
    rw [unpack_pack_nan]
    exact fun h => by cases h
  | zero s =>
    show (UnpackedFloat.zero s).compare (Float.Model.pack (.zero (.positive * s))).unpack ≠ _
    rw [unpack_pack_zero]
    exact fun h => by cases h
  | finite s m e h =>
    cases s with
    | negative => exact absurd rfl (hv m e h)
    | positive =>
      show (UnpackedFloat.finite .positive m e h).compare (Float.Model.pack (.zero (.positive * .positive))).unpack ≠ _
      rw [unpack_pack_zero]
      exact fun h => by cases h

/-- a canonical number is not less than its product with a number below one -/
theorem not_lt_finite_mul {m m' : ℕ} {e e' : ℤ} {h : 0 < m} {h' : 0 < m'} (hlt : m < 2 ^ 53) (hbits : 2 ^ 52 ≤ m)
    (he : e ≤ -53) (hc : Canonical m' e') :
    (UnpackedFloat.finite .positive m' e' h').compare (Float.Model.pack (UnpackedFloat.mul Format.binary64
      (.finite .positive m e h) (.finite .positive m' e' h'))).unpack ≠ some .lt := by
  show (UnpackedFloat.finite .positive m' e' h').compare (Float.Model.pack
    (roundWithAccuracy Format.binary64 .positive (m * m') (e + e') .exact)).unpack ≠ some .lt
  have hle : m * m' ≤ m' * 2 ^ (e' - (e + e')).toNat := by
    rw [Nat.mul_comm]
    refine Nat.mul_le_mul_left _ (hlt.le.trans (Nat.pow_le_pow_right (by decide) ?_))
    omega
  rcases round_le .positive (hbits.trans (Nat.le_mul_of_pos_right _ h')) hc (by omega) hle with
    ⟨hround, -⟩ | ⟨r, t, hr, hround, hrt, -, hnear⟩
  · rw [hround, unpack_pack_zero]
    exact fun h => by cases h
  · rw [hround, unpack_pack hrt]
    intro hcmp
    have hfar : e' < t ∨ e' = t ∧ m' < r := by
      have hthen := Option.some.inj hcmp
      rwa [Ordering.then_eq_lt, compare_lt_iff_lt, compare_eq_iff_eq, compare_lt_iff_lt] at hthen
    omega

/-- **A fraction of a number.** A number that is not negative is not less than a fraction of it. -/
theorem not_lt_mul {u l : Float} (hu : Fraction u.toModel.unpack) (hl : NotNegative l.toModel.unpack) :
    ¬ l < u * l := by
  rw [lt_iff]
  show l.toModel.unpack.compare (Float.Model.pack (UnpackedFloat.mul Format.binary64 u.toModel.unpack
    l.toModel.unpack)).unpack ≠ some .lt
  rcases hu with hu | ⟨m, e, h, hu, hlt, hbits, he⟩
  · rw [hu]
    exact not_lt_zero_mul hl
  · rw [hu]
    cases hv : l.toModel.unpack with
    | notANumber => exact fun h => by cases h
    | infinity s =>
      show (UnpackedFloat.infinity s).compare (Float.Model.pack (.infinity (.positive * s))).unpack ≠ _
      rw [unpack_pack_infinity]
      cases s <;> exact fun h => by cases h
    | zero s =>
      show (UnpackedFloat.zero s).compare (Float.Model.pack (.zero (.positive * s))).unpack ≠ _
      rw [unpack_pack_zero]
      exact fun h => by cases h
    | finite s m' e' h' =>
      cases s with
      | negative => exact absurd hv (hl m' e' h')
      | positive => exact not_lt_finite_mul hlt hbits he (canonical_of_unpack hv)

/-- a word of at most 53 bits, scaled down by as many, is a fraction -/
theorem fraction_mul {n : UInt64} (hn : n.toNat < 2 ^ 53) {y : Float} {h : 0 < 2 ^ 52}
    (hy : y.toModel.unpack = .finite .positive (2 ^ 52) (-105) h) : Fraction (n.toFloat * y).toModel.unpack := by
  show Fraction (Float.Model.pack (UnpackedFloat.mul Format.binary64 n.toFloat.toModel.unpack y.toModel.unpack)).unpack
  rw [hy]
  by_cases h0 : n = 0
  · subst h0
    have hzero : (0 : UInt64).toFloat.toModel.unpack = .zero .positive := rfl
    rw [hzero]
    exact Or.inl (unpack_pack_zero _)
  · have hpos : 0 < n.toNat := Nat.pos_of_ne_zero fun h => h0 (UInt64.toNat_inj.1 h)
    obtain ⟨r, t, hr, hunpack, hrt, hlow, hup⟩ := unpack_toFloat hpos
    have ht := hup hn
    rw [hunpack]
    show Fraction (Float.Model.pack (roundWithAccuracy Format.binary64 .positive (r * 2 ^ 52) (t + -105) .exact)).unpack
    have hc : Canonical (2 ^ 53 - 1) (-53) := ⟨by decide, by decide, by decide, Or.inl (by decide)⟩
    have hle : r * 2 ^ 52 ≤ (2 ^ 53 - 1) * 2 ^ (-53 - (t + -105)).toNat := by
      refine Nat.mul_le_mul (by have := hrt.mantissa; omega) (Nat.pow_le_pow_right (by decide) ?_)
      omega
    have hlog : (r * 2 ^ 52).log2 = r.log2 + 52 := log2_mul_two_pow hr 52
    rcases round_le .positive (Nat.le_mul_of_pos_left _ hr) hc (by omega) hle with
      ⟨hround, -⟩ | ⟨m, e, hm, hround, hme, hmin, hnear⟩
    · rw [hround]
      exact Or.inl (unpack_pack_zero _)
    · rw [hround, unpack_pack hme]
      refine Or.inr ⟨m, e, hm, rfl, hme.mantissa, hme.normal.resolve_right ?_, by omega⟩
      omega

end WtBenchmarks.Binary64
