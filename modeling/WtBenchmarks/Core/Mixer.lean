/-
Mixers of 64-bit words.

A mixer is built of steps that lose nothing (a multiplication by an odd word, an exclusive or with the word's own
shift) and of steps that do. Setting the lowest bit does: after a multiplication it identifies words whose distance is
the inverse of the factor.

- `mul_odd_injective`, `mul_even_injective`, `xor_shiftRight_injective`, `xorShift_injective`, `xorShiftLeft_injective`,
  `xorShifts_injective`, `xorShiftMuls_injective`, `join_injective`: steps that lose nothing;
- `iterate_eq_fixed`, `iterate_periodic`: what such a step does when it is repeated;
- `orOne_eq_iff`, `mulOrOne_collide`: which words a set lowest bit identifies, and a multiplication before it;
- `mulOrOne_preimages`: at most two at a time;
- `mulOrOne_inj_close`, `mulOrOne_inj_near`: none that are close to each other, if the inverse is neither short nor
  almost a whole turn, and so none of one block of words.
-/
import Mathlib.Tactic

namespace WtBenchmarks.Mixer

variable {x y : UInt64}

/-! ## Steps that lose nothing -/

theorem mul_odd_injective {c : UInt64} (hc : c.toNat % 2 = 1) : Function.Injective fun x : UInt64 => x * c := by
  intro x y h
  have hval : x.toNat * c.toNat ≡ y.toNat * c.toNat [MOD 2 ^ 64] := by
    have hmul := congrArg UInt64.toNat h
    simp only [UInt64.toNat_mul] at hmul
    exact hmul
  have hcoprime : Nat.gcd (2 ^ 64) c.toNat = 1 := by
    rw [Nat.gcd_comm]
    exact Nat.Coprime.pow_right 64 (Nat.coprime_two_right.2 (Nat.odd_iff.2 hc))
  have hmod := Nat.ModEq.cancel_right_of_coprime hcoprime hval
  exact UInt64.toNat_inj.1 (hmod.eq_of_lt_of_lt x.toNat_lt y.toNat_lt)

/-- short numbers survive an even factor as well: what it shifts out of `n` bits is zero -/
theorem mul_even_injective {n l j k x y : ℕ} (hk : k % 2 = 1) (hn : l + j ≤ n) (hx : x < 2 ^ l) (hy : y < 2 ^ l)
    (h : x * (2 ^ j * k) ≡ y * (2 ^ j * k) [MOD 2 ^ n]) : x = y := by
  have hcoprime : Nat.gcd (2 ^ n) k = 1 := by
    rw [Nat.gcd_comm]
    exact Nat.Coprime.pow_right n (Nat.coprime_two_right.2 (Nat.odd_iff.2 hk))
  rw [← Nat.mul_assoc, ← Nat.mul_assoc] at h
  have hmod := Nat.ModEq.cancel_right_of_coprime hcoprime h
  have hshort : ∀ z < 2 ^ l, z * 2 ^ j < 2 ^ n := by
    intro z hz
    calc z * 2 ^ j < 2 ^ l * 2 ^ j := Nat.mul_lt_mul_of_pos_right hz (Nat.two_pow_pos j)
      _ = 2 ^ (l + j) := (Nat.pow_add 2 l j).symm
      _ ≤ 2 ^ n := Nat.pow_le_pow_right (by decide) hn
  exact Nat.eq_of_mul_eq_mul_right (Nat.two_pow_pos j) (hmod.eq_of_lt_of_lt (hshort x hx) (hshort y hy))

/-- the difference of two numbers that collide is its own image -/
theorem xor_fixed (f : ℕ → ℕ) (hf : ∀ a b, f (a ^^^ b) = f a ^^^ f b) {x y : ℕ} (h : x ^^^ f x = y ^^^ f y) :
    x ^^^ y = f (x ^^^ y) := by
  rw [hf]
  calc x ^^^ y
      = x ^^^ f x ^^^ (f x ^^^ y) := by rw [Nat.xor_assoc, ← Nat.xor_assoc (f x), Nat.xor_self, Nat.zero_xor]
    _ = y ^^^ f y ^^^ (f x ^^^ y) := by rw [h]
    _ = f x ^^^ f y := by
        rw [Nat.xor_comm y, Nat.xor_comm (f x), Nat.xor_assoc, ← Nat.xor_assoc y, Nat.xor_self, Nat.zero_xor,
          Nat.xor_comm]

/-- only zero is its own right shift -/
theorem xor_shiftRight_injective {n : ℕ} (hn : 0 < n) : Function.Injective fun x : ℕ => x ^^^ (x >>> n) := by
  intro x y hval
  have hself := xor_fixed (· >>> n) (fun _ _ => Nat.shiftRight_xor_distrib) hval
  set d := x ^^^ y with hd
  have hzero : d = 0 := by
    by_contra hne
    have hlt : d >>> n < d := by
      rw [Nat.shiftRight_eq_div_pow]
      exact Nat.div_lt_self (Nat.pos_of_ne_zero hne) (Nat.one_lt_two_pow (Nat.pos_iff_ne_zero.1 hn))
    omega
  calc x = d ^^^ y := by rw [hd, Nat.xor_assoc, Nat.xor_self, Nat.xor_zero]
    _ = y := by rw [hzero, Nat.zero_xor]

theorem xorShift_injective {k : UInt64} (hk : 0 < k.toNat % 64) :
    Function.Injective fun x : UInt64 => x ^^^ (x >>> k) := by
  intro x y h
  have hval := congrArg UInt64.toNat h
  simp only [UInt64.toNat_xor, UInt64.toNat_shiftRight] at hval
  exact UInt64.toNat_inj.1 (xor_shiftRight_injective hk hval)

/-- a word that is its own left shift is zero: the shift multiplies it by an even number -/
theorem eq_zero_of_shiftLeft {k d : UInt64} (hk : 0 < k.toNat % 64) (h : d = d <<< k) : d = 0 := by
  have hval := congrArg UInt64.toNat h
  rw [UInt64.toNat_shiftLeft, Nat.shiftLeft_eq] at hval
  obtain ⟨m, hm⟩ : ∃ m, k.toNat % 64 = m + 1 := ⟨k.toNat % 64 - 1, by omega⟩
  have hpow : 2 ^ (k.toNat % 64) = 2 * 2 ^ m := by rw [hm, Nat.pow_succ, Nat.mul_comm]
  have hone : 1 ≤ 2 ^ m := Nat.one_le_two_pow
  have hcoprime : Nat.gcd (2 ^ 64) (2 ^ (k.toNat % 64) - 1) = 1 := by
    rw [Nat.gcd_comm, hpow]
    refine Nat.Coprime.pow_right 64 (Nat.coprime_two_right.2 (Nat.odd_iff.2 ?_))
    omega
  have hmul : d.toNat * (2 ^ (k.toNat % 64) - 1) + d.toNat = d.toNat * 2 ^ (k.toNat % 64) := by
    rw [Nat.mul_sub_one, Nat.sub_add_cancel (Nat.le_mul_of_pos_right _ (Nat.two_pow_pos _))]
  have hmod : d.toNat * (2 ^ (k.toNat % 64) - 1) + d.toNat ≡ 0 * (2 ^ (k.toNat % 64) - 1) + d.toNat [MOD 2 ^ 64] := by
    rw [hmul, Nat.zero_mul, Nat.zero_add]
    unfold Nat.ModEq
    rw [← hval]
    exact (Nat.mod_eq_of_lt d.toNat_lt).symm
  have hzero := Nat.ModEq.cancel_right_of_coprime hcoprime (Nat.ModEq.add_right_cancel' _ hmod)
  exact UInt64.toNat_inj.1 (hzero.eq_of_lt_of_lt d.toNat_lt (by decide))

theorem xorShiftLeft_injective {k : UInt64} (hk : 0 < k.toNat % 64) :
    Function.Injective fun x : UInt64 => x ^^^ (x <<< k) := by
  intro x y h
  have hval := congrArg UInt64.toNat h
  simp only [UInt64.toNat_xor, UInt64.toNat_shiftLeft] at hval
  have hadd : ∀ a b : ℕ, (a ^^^ b) <<< (k.toNat % 64) % 2 ^ 64 =
      a <<< (k.toNat % 64) % 2 ^ 64 ^^^ b <<< (k.toNat % 64) % 2 ^ 64 := by
    intro a b
    rw [Nat.shiftLeft_xor_distrib, Nat.xor_mod_two_pow]
  have hself : x ^^^ y = (x ^^^ y) <<< k := by
    apply UInt64.toNat_inj.1
    rw [UInt64.toNat_shiftLeft, UInt64.toNat_xor]
    exact xor_fixed (fun a => a <<< (k.toNat % 64) % 2 ^ 64) hadd hval
  exact UInt64.xor_eq_zero_iff.1 (eq_zero_of_shiftLeft hk hself)

/-- three rounds, to the left, to the right and to the left again -/
theorem xorShifts_injective {a b c : UInt64} (ha : 0 < a.toNat % 64) (hb : 0 < b.toNat % 64) (hc : 0 < c.toNat % 64) :
    Function.Injective fun x : UInt64 =>
      let x := x ^^^ (x <<< a)
      let x := x ^^^ (x >>> b)
      x ^^^ (x <<< c) :=
  (xorShiftLeft_injective hc).comp ((xorShift_injective hb).comp (xorShiftLeft_injective ha))

/-- shifts to the right with odd factors between them -/
theorem xorShiftMuls_injective {a b c m n : UInt64} (ha : 0 < a.toNat % 64) (hb : 0 < b.toNat % 64)
    (hc : 0 < c.toNat % 64) (hm : m.toNat % 2 = 1) (hn : n.toNat % 2 = 1) :
    Function.Injective fun x : UInt64 =>
      let x := x ^^^ (x >>> a)
      let x := x * m
      let x := x ^^^ (x >>> b)
      let x := x * n
      x ^^^ (x >>> c) := by
  have hfirst := (mul_odd_injective hm).comp (xorShift_injective ha)
  have hsecond := (mul_odd_injective hn).comp (xorShift_injective hb)
  exact (xorShift_injective hc).comp (hsecond.comp hfirst)

/-- two words side by side -/
def join (hi lo : UInt64) : BitVec 128 := (hi.toBitVec.setWidth 128 <<< 64) ||| lo.toBitVec.setWidth 128

theorem join_injective {lo lo' : UInt64} (h : join x lo = join y lo') : x = y := by
  have hhigh : ∀ hi lo : UInt64, (join hi lo).toNat / 2 ^ 64 = hi.toNat := by
    intro hi lo
    have hhi := hi.toNat_lt
    have hlo := lo.toNat_lt
    have hval : (join hi lo).toNat = hi.toNat * 2 ^ 64 + lo.toNat := by
      unfold join
      rw [BitVec.toNat_or, BitVec.toNat_shiftLeft, BitVec.toNat_setWidth, BitVec.toNat_setWidth,
        UInt64.toNat_toBitVec, UInt64.toNat_toBitVec, Nat.mod_eq_of_lt (by omega), Nat.mod_eq_of_lt (by omega),
        Nat.shiftLeft_eq, Nat.mod_eq_of_lt (by omega), ← Nat.shiftLeft_eq, ← Nat.shiftLeft_add_eq_or_of_lt hlo]
    rw [hval]
    omega
  have hx := hhigh x lo
  rw [h, hhigh] at hx
  exact UInt64.toNat_inj.1 hx.symm

/-! ## Repeated steps -/

instance finite_uint64 : Finite UInt64 := Finite.of_injective UInt64.toFin fun _ _ => UInt64.toFin_inj.1

section Repeated

variable {α : Type} {f : α → α}

/-- a fixed point is reached from itself only -/
theorem iterate_eq_fixed (hf : Function.Injective f) {a z : α} (hz : f z = z) (n : ℕ) : f^[n] a = z ↔ a = z :=
  (hf.iterate n).eq_iff' (Function.iterate_fixed hz n)

/-- with finitely many values, every value comes back: there is nothing before the cycle -/
theorem iterate_periodic [Finite α] (hf : Function.Injective f) (a : α) :
    ∃ p, 0 < p ∧ ∀ n, f^[n + p] a = f^[n] a := by
  obtain ⟨p, hp, hback⟩ := Function.mem_periodicPts.1 (hf.mem_periodicPts a)
  refine ⟨p, hp, fun n => ?_⟩
  rw [Function.iterate_add_apply, hback.eq]

end Repeated

/-! ## The lowest bit -/

theorem orOne_eq_iff : x ||| 1 = y ||| 1 ↔ x = y ∨ x ^^^ y = 1 := by
  constructor
  · intro h
    have hval := congrArg (fun w => w.toNat / 2) h
    simp only [UInt64.toNat_or, Nat.or_div_two, UInt64.toNat_one, Nat.or_zero, Nat.reduceDiv] at hval
    have hhigh : (x ^^^ y).toNat / 2 = 0 := by
      rw [UInt64.toNat_xor, Nat.xor_div_two, hval, Nat.xor_self]
    rcases Nat.le_one_iff_eq_zero_or_eq_one.1 (show (x ^^^ y).toNat ≤ 1 by omega) with hzero | hone
    · exact Or.inl (UInt64.xor_eq_zero_iff.1 (UInt64.toNat_inj.1 hzero))
    · exact Or.inr (UInt64.toNat_inj.1 hone)
  · intro h
    rcases h with rfl | h
    · rfl
    · have hx : x = 1 ^^^ y := by rw [← h, UInt64.xor_assoc, UInt64.xor_self, UInt64.xor_zero]
      have hone : ∀ n : ℕ, (1 ^^^ n) ||| 1 = n ||| 1 := by
        intro n
        refine Nat.eq_of_testBit_eq fun i => ?_
        rw [Nat.testBit_or, Nat.testBit_or, Nat.testBit_xor]
        cases Nat.testBit 1 i <;> simp
      rw [hx, ← UInt64.toNat_inj, UInt64.toNat_or, UInt64.toNat_or, UInt64.toNat_xor]
      exact hone _

theorem orOne_collide (h : x ||| 1 = y ||| 1) : x = y ∨ x = y + 1 ∨ y = x + 1 := by
  have hval := congrArg (fun w => w.toNat / 2) h
  simp only [UInt64.toNat_or, Nat.or_div_two, UInt64.toNat_one, Nat.or_zero, Nat.reduceDiv] at hval
  have hx := x.toNat_lt
  have hy := y.toNat_lt
  have hcases : x.toNat = y.toNat ∨ x.toNat = y.toNat + 1 ∨ y.toNat = x.toNat + 1 := by omega
  rcases hcases with heq | heq | heq
  · exact Or.inl (UInt64.toNat_inj.1 heq)
  · refine Or.inr (Or.inl (UInt64.toNat_inj.1 ?_))
    rw [UInt64.toNat_add, UInt64.toNat_one, Nat.mod_eq_of_lt (by omega), heq]
  · refine Or.inr (Or.inr (UInt64.toNat_inj.1 ?_))
    rw [UInt64.toNat_add, UInt64.toNat_one, Nat.mod_eq_of_lt (by omega), heq]

/-- **Collisions** of a multiplication whose lowest bit is then set: the words differ by the inverse of the factor. -/
theorem mulOrOne_collide {c inv : UInt64} (hinv : c * inv = 1) (h : x * c ||| 1 = y * c ||| 1) :
    x = y ∨ x = y + inv ∨ y = x + inv := by
  have hback : ∀ w : UInt64, w * c * inv = w := fun w => by rw [UInt64.mul_assoc, hinv, UInt64.mul_one]
  have hnext : ∀ v w : UInt64, v * c = w * c + 1 → v = w + inv := by
    intro v w hvw
    rw [← hback v, hvw, UInt64.add_mul, hback, UInt64.one_mul]
  rcases orOne_collide h with heq | heq | heq
  · left
    rw [← hback x, heq, hback]
  · exact Or.inr (Or.inl (hnext x y heq))
  · exact Or.inr (Or.inr (hnext y x heq))

/-- **Preimages.** At most two words are identified with each other. -/
theorem mulOrOne_preimages {c inv : UInt64} (hinv : c * inv = 1) (w : UInt64) :
    {x : UInt64 | x * c ||| 1 = w}.encard ≤ 2 := by
  by_cases hany : ∃ x : UInt64, x * c ||| 1 = w
  · obtain ⟨x, hx⟩ := hany
    have hback : ∀ v : UInt64, v * c * inv = v := fun v => by rw [UInt64.mul_assoc, hinv, UInt64.mul_one]
    have hsub : {v : UInt64 | v * c ||| 1 = w} ⊆ {x, (x * c ^^^ 1) * inv} := by
      intro v hv
      rcases orOne_eq_iff.1 (hv.trans hx.symm) with heq | hbit
      · left
        rw [← hback v, heq, hback]
      · right
        have hv' : v * c = x * c ^^^ 1 := by
          rw [← hbit, UInt64.xor_comm (v * c), ← UInt64.xor_assoc, UInt64.xor_self, UInt64.zero_xor]
        rw [Set.mem_singleton_iff, ← hback v, hv']
    exact (Set.encard_le_encard hsub).trans ((Set.encard_insert_le _ _).trans_eq (by rw [Set.encard_singleton]; rfl))
  · have hempty : {x : UInt64 | x * c ||| 1 = w} = ∅ := Set.eq_empty_of_forall_notMem fun x hx => hany ⟨x, hx⟩
    rw [hempty, Set.encard_empty]
    exact bot_le

/-! ## Blocks of words -/

/-- a mask below the block size leaves a word in its block -/
theorem xor_block {k : ℕ} {key w : UInt64} (hw : w.toNat < 2 ^ k) :
    (key ^^^ w).toNat / 2 ^ k = key.toNat / 2 ^ k := by
  rw [UInt64.toNat_xor, ← Nat.shiftRight_eq_div_pow, ← Nat.shiftRight_eq_div_pow, Nat.shiftRight_xor_distrib,
    Nat.shiftRight_eq_div_pow w.toNat, Nat.div_eq_of_lt hw, Nat.xor_zero]

/-- **No collisions** between words less than `d` apart. -/
theorem mulOrOne_inj_close {c inv : UInt64} {d : ℕ} (hinv : c * inv = 1) (hlow : d ≤ inv.toNat)
    (hhigh : inv.toNat + d ≤ 2 ^ 64) (hxy : x.toNat < y.toNat + d) (hyx : y.toNat < x.toNat + d)
    (h : x * c ||| 1 = y * c ||| 1) : x = y := by
  have hfar : ∀ v w : UInt64, v.toNat < w.toNat + d → w.toNat < v.toNat + d → v ≠ w + inv := by
    intro v w hv hw heq
    have hlt := w.toNat_lt
    rw [heq, UInt64.toNat_add] at hv hw
    rcases Nat.lt_or_ge (w.toNat + inv.toNat) (2 ^ 64) with hsum | hsum
    · rw [Nat.mod_eq_of_lt hsum] at hv
      omega
    · rw [Nat.mod_eq_sub_mod hsum, Nat.mod_eq_of_lt (by omega)] at hw
      omega
  rcases mulOrOne_collide hinv h with heq | heq | heq
  · exact heq
  · exact absurd heq (hfar x y hxy hyx)
  · exact absurd heq (hfar y x hyx hxy)

/-- **No collisions in a block** of `2 ^ k` words. -/
theorem mulOrOne_inj_near {c inv : UInt64} {k : ℕ} (hinv : c * inv = 1) (hlow : 2 ^ k ≤ inv.toNat)
    (hhigh : inv.toNat + 2 ^ k ≤ 2 ^ 64) (hblock : x.toNat / 2 ^ k = y.toNat / 2 ^ k)
    (h : x * c ||| 1 = y * c ||| 1) : x = y := by
  have hclose : ∀ a b : ℕ, a / 2 ^ k = b / 2 ^ k → a < b + 2 ^ k := by
    intro a b hab
    have ha := Nat.div_add_mod a (2 ^ k)
    have hb := Nat.div_add_mod b (2 ^ k)
    have hmod := Nat.mod_lt a (Nat.two_pow_pos k)
    rw [hab] at ha
    omega
  exact mulOrOne_inj_close hinv hlow hhigh (hclose _ _ hblock) (hclose _ _ hblock.symm) h

end WtBenchmarks.Mixer
