/-
The shared random number generator (`src/rng.rs`).

A 64-bit xorshift state that is never seeded with zero, the multiply-and-shift map into `0..upper` (`below`), the
binary64 numbers of the unit interval (`unit_f64`), and the `mix64` finalizer. Draws are threaded through a state monad
over any other, so that the generators built on them read as the source does; `Draw` is the one that can also panic.

- `below_total`: `below upper` with a positive bound never panics and stays under it;
- `Counted`: a computation never panics, and advances the generator by a number of draws that its value determines.
-/
import WtBenchmarks.Core.Total
import Mathlib.Tactic

namespace WtBenchmarks

/-- the generator's 64-bit state -/
structure Rng where
  state : UInt64
deriving DecidableEq, Repr

/-- a computation that draws from the generator and may panic -/
abbrev Draw (α : Type) := StateT Rng Option α

variable {m : Type → Type} [Monad m]

namespace Rng

/-- zero is the fixed point of the xorshift step, so a zero seed is replaced by one -/
def new (seed : UInt64) : Rng := ⟨max seed 1⟩

/-- the three shift-and-xor rounds of `next_u64` -/
def xorshift (x : UInt64) : UInt64 :=
  let x := x ^^^ (x <<< 13)
  let x := x ^^^ (x >>> 7)
  x ^^^ (x <<< 17)

def nextU64 : StateT Rng m UInt64 := fun rng => pure (xorshift rng.state, ⟨xorshift rng.state⟩)

/-- the high word of the 128-bit product -/
def mulHigh (x upper : UInt64) : UInt64 := UInt64.ofNat ((x.toNat * upper.toNat) >>> 64)

def below (upper : UInt64) : StateT Rng m UInt64 :=
  if upper = 0 then pure 0
  else do
    let x ← nextU64
    pure (mulHigh x upper)

/-- `SCALE` of `unit_f64` -/
def scale : Float := 1.0 / ((1 : UInt64) <<< 53).toFloat

def unitF64 : StateT Rng m Float := do
  let x ← nextU64
  pure ((x >>> 11).toFloat * scale)

theorem mulHigh_toNat (x upper : UInt64) : (mulHigh x upper).toNat = x.toNat * upper.toNat / 2 ^ 64 := by
  have hx := x.toNat_lt
  have hu := upper.toNat_lt
  have hlt : x.toNat * upper.toNat / 2 ^ 64 < 2 ^ 64 := by
    rw [Nat.div_lt_iff_lt_mul (by positivity)]
    exact Nat.mul_lt_mul'' hx hu
  simp only [mulHigh, Nat.shiftRight_eq_div_pow, UInt64.toNat_ofNat']
  exact Nat.mod_eq_of_lt hlt

theorem mulHigh_lt (x upper : UInt64) (h : 0 < upper) : mulHigh x upper < upper := by
  have hx := x.toNat_lt
  rw [UInt64.lt_iff_toNat_lt] at h ⊢
  rw [mulHigh_toNat, Nat.div_lt_iff_lt_mul (by positivity), Nat.mul_comm]
  exact Nat.mul_lt_mul_of_pos_left hx h

theorem nextU64_total : Total (fun _ => True) (nextU64 : Draw UInt64) := fun _ => ⟨_, _, rfl, trivial⟩

/-- `below` panics never, and with a positive bound it stays under it -/
theorem below_total (upper : UInt64) (h : 0 < upper) : Total (fun x => x < upper) (below upper : Draw UInt64) := by
  have hne : upper ≠ 0 := by rintro rfl; exact absurd h (by decide)
  rw [below, if_neg hne]
  exact nextU64_total.bind fun x _ => Total.pure (mulHigh_lt x upper h)

/-! ## Counting draws -/

/-- the generator after `n` more draws -/
def advance (rng : Rng) (n : ℕ) : Rng := ⟨xorshift^[n] rng.state⟩

theorem advance_advance (rng : Rng) (n k : ℕ) : (rng.advance n).advance k = rng.advance (n + k) := by
  rw [advance, advance, advance, Nat.add_comm, Function.iterate_add_apply]

/-- from every generator `m` returns, with a value and a number of draws in `P` -/
def Counted {α : Type} (P : α → ℕ → Prop) (m : Draw α) : Prop :=
  ∀ rng : Rng, ∃ a n, m.run rng = some (a, rng.advance n) ∧ P a n

namespace Counted

variable {α β : Type} {P : α → ℕ → Prop} {Q : β → ℕ → Prop} {m : Draw α}

theorem pure {a : α} (h : P a 0) : Counted P (Pure.pure a) := fun _ => ⟨a, 0, rfl, h⟩

/-- a step that may panic but does not draw -/
theorem lift {o : Option α} (h : ∃ a, o = some a ∧ P a 0) : Counted P (liftM o) := by
  obtain ⟨a, rfl, ha⟩ := h
  exact fun _ => ⟨a, 0, rfl, ha⟩

theorem bind {f : α → Draw β} (hm : Counted P m) (hf : ∀ a n, P a n → Counted (fun b k => Q b (n + k)) (f a)) :
    Counted Q (m >>= f) := by
  intro rng
  obtain ⟨a, n, hrun, ha⟩ := hm rng
  obtain ⟨b, k, hrun', hb⟩ := hf a n ha (rng.advance n)
  exact ⟨b, n + k, by simp [StateT.run_bind, hrun, hrun', advance_advance], hb⟩

theorem mono {P' : α → ℕ → Prop} (h : ∀ a n, P a n → P' a n) (hm : Counted P m) : Counted P' m := by
  intro rng
  obtain ⟨a, n, hrun, ha⟩ := hm rng
  exact ⟨a, n, hrun, h a n ha⟩

theorem nextU64 : Counted (fun _ n => n = 1) (nextU64 : Draw UInt64) := fun _ => ⟨_, 1, rfl, rfl⟩

theorem below {upper : UInt64} (h : 0 < upper) :
    Counted (fun x n => x < upper ∧ n = 1) (below upper : Draw UInt64) := by
  have hne : upper ≠ 0 := by
    rintro rfl
    exact absurd h (by decide)
  rw [Rng.below, if_neg hne]
  exact nextU64.bind fun x n hn => Counted.pure ⟨mulHigh_lt x upper h, hn⟩

/-- **Counted loop.** An invariant indexed by the turns made so far, each of which draws `k` times. -/
theorem range {I : ℕ → β → Prop} {f : β → ℕ → Draw β} (k n : ℕ)
    (hf : ∀ i b, i < n → I i b → Counted (fun b' d => I (i + 1) b' ∧ d = k) (f b i)) (b : β) (hb : I 0 b) :
    Counted (fun b' d => I n b' ∧ d = n * k) ((List.range n).foldlM f b) := by
  induction n with
  | zero => exact Counted.pure ⟨hb, (Nat.zero_mul k).symm⟩
  | succ n ih =>
    rw [List.range_succ, List.foldlM_append]
    refine (ih fun i b hi => hf i b (Nat.lt_succ_of_lt hi)).bind fun b' d hb' => ?_
    obtain ⟨hb', rfl⟩ := hb'
    rw [List.foldlM_cons]
    refine (hf n b' (Nat.lt_succ_self n) hb').bind fun b'' d hb'' => Counted.pure ?_
    obtain ⟨hb'', rfl⟩ := hb''
    exact ⟨hb'', by rw [Nat.add_zero, Nat.succ_mul]⟩

theorem total {R : α → Prop} (h : ∀ a n, P a n → R a) (hm : Counted P m) : Total R m := by
  intro rng
  obtain ⟨a, n, hrun, ha⟩ := hm rng
  exact ⟨a, _, hrun, h a n ha⟩

end Counted

/-! ## Printable payloads -/

/-- `count` draws under one bound from a fresh generator -/
def draws (count : ℕ) (upper seed : UInt64) : List UInt64 :=
  (Id.run (((List.replicate count ()).mapM fun _ => below upper).run (new seed))).1

/-- the loop that fills a payload with bytes between `!` and `~` -/
def printable (seed : UInt64) (length : ℕ) : List UInt8 := (draws length 94 seed).map fun b => 33 + b.toUInt8

/-- a property of every draw holds of all of them -/
theorem draws_forall {P : UInt64 → Prop} {upper : UInt64}
    (h : ∀ rng : Rng, P (Id.run ((below upper : StateT Rng Id UInt64).run rng)).1) (count : ℕ) (seed : UInt64) :
    (draws count upper seed).length = count ∧ ∀ k ∈ draws count upper seed, P k := by
  suffices hall : ∀ (n : ℕ) (rng : Rng),
      let r := (Id.run (((List.replicate n ()).mapM fun _ => (below upper : StateT Rng Id UInt64)).run rng)).1
      r.length = n ∧ ∀ k ∈ r, P k from hall count (new seed)
  intro n
  induction n with
  | zero => intro rng; simp
  | succ n ih =>
    intro rng
    simp only [List.replicate_succ, List.mapM_cons, StateT.run_bind]
    obtain ⟨hlen, hmem⟩ := ih (Id.run ((below upper : StateT Rng Id UInt64).run rng)).2
    refine ⟨congrArg Nat.succ hlen, fun k hk => ?_⟩
    rcases List.mem_cons.1 hk with rfl | hk
    · exact h rng
    · exact hmem k hk

theorem draws_lt {count : ℕ} {upper seed : UInt64} (h : 0 < upper) : ∀ k ∈ draws count upper seed, k < upper := by
  have hne : upper ≠ 0 := by
    rintro rfl
    exact absurd h (by decide)
  refine (draws_forall (fun rng => ?_) count seed).2
  rw [below, if_neg hne]
  exact mulHigh_lt _ upper h

/-- the payload bytes are printable ASCII -/
theorem printable_ascii (seed : UInt64) (length : ℕ) : ∀ b ∈ printable seed length, b < 128 := by
  intro b hb
  obtain ⟨k, hk, rfl⟩ := List.mem_map.1 hb
  have hlt := draws_lt (by decide) k hk
  rw [UInt64.lt_iff_toNat_lt] at hlt
  rw [UInt8.lt_iff_toNat_lt, UInt8.toNat_add, UInt64.toNat_toUInt8]
  have h94 : (94 : UInt64).toNat = 94 := rfl
  have h33 : (33 : UInt8).toNat = 33 := rfl
  have h128 : (128 : UInt8).toNat = 128 := rfl
  omega

end Rng

/-- the 64-bit finalizer that scatters Zipf ranks over the key space -/
def mix64 (value : UInt64) : UInt64 :=
  let value := value ^^^ (value >>> 30)
  let value := value * 0xbf58476d1ce4e5b9
  let value := value ^^^ (value >>> 27)
  let value := value * 0x94d049bb133111eb
  value ^^^ (value >>> 31)

end WtBenchmarks
