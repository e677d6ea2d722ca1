/-
What the shared generator (`Rng`, `src/rng.rs`) draws over a whole run.

A caller draws through `next_u64`, `below` and `unit_f64`, in any order. Each call maps one raw word, except that
`below` of zero draws nothing. So every run of calls reads a prefix of one stream: the orbit of the xorshift step from
the seed. The step loses nothing and only zero steps to zero, so the orbit of a seed is a cycle without zero.

- `Call.run_eq`: which raw word a call maps, and how;
- `afterAll_eq`, `rawDraws_eq`: a run of calls against the stream;
- `stream_ne_zero`, `stream_periodic`: the stream of a seed;
- `mix64_bijective`, `scatter_injOn`: the finalizer, on words and on Zipf ranks;
- `sampleKey_scattered`, `resolve_scattered`: a Zipf key against the rank it was sampled as;
- `generator_never_collapses`: all of it.
-/
import WtBenchmarks.Core.Mixer
import WtBenchmarks.Core.Word
import WtBenchmarks.Rng
import WtBenchmarks.Ycsb.Generator
import Mathlib.Tactic

namespace WtBenchmarks

open Ycsb

variable {m : Type → Type} [Monad m]

namespace Rng

/-! ## Model -/

/-- the ways to draw -/
inductive Call where
  | nextU64
  | below (upper : UInt64)
  | unitF64
deriving DecidableEq

namespace Call

/-- what a call returns -/
abbrev Answer : Call → Type
  | .nextU64 | .below _ => UInt64
  | .unitF64 => Float

def run : (call : Call) → StateT Rng m call.Answer
  | .nextU64 => Rng.nextU64
  | .below upper => Rng.below upper
  | .unitF64 => Rng.unitF64

/-- the generator a call leaves behind -/
def after (call : Call) (rng : Rng) : Rng := (Id.run (call.run.run rng)).2

/-- `below` returns early for an empty range -/
def draws : Call → Bool
  | .below upper => upper != 0
  | .nextU64 | .unitF64 => true

/-- what a call makes of a raw word -/
def answer : (call : Call) → UInt64 → call.Answer
  | .nextU64, x => x
  | .below upper, x => mulHigh x upper
  | .unitF64, x => (x >>> 11).toFloat * scale

/-- the raw word of a call, if it draws one -/
def raw (call : Call) (rng : Rng) : Option UInt64 :=
  if call.draws then some (Id.run (Rng.nextU64.run rng)).1 else none

end Call

/-- the generator after a run of calls -/
def afterAll (rng : Rng) (calls : List Call) : Rng := calls.foldl (fun rng call => call.after rng) rng

/-- the raw words of a run of calls -/
def rawDraws (rng : Rng) : List Call → List UInt64
  | [] => []
  | call :: calls => (call.raw rng).toList ++ rawDraws (call.after rng) calls

/-- the raw word that is drawn after `n` others -/
def stream (rng : Rng) (n : ℕ) : UInt64 := (Id.run (nextU64.run (rng.advance n))).1

end Rng

/-- a Zipf rank before the modulus -/
def scatter (rank : ℕ) : UInt64 := mix64 (UInt64.ofNat rank)

section Model

variable {K : Type} [Field K] [LinearOrder K] (pow : ExactPow K)

/-- the ranks that any table returns for any token and key count -/
def sampledRanks : Set ℕ :=
  {rank | ∃ (zipf : ZipfCdf pow) (token keyCount : UInt64), zipf.sampleToken token keyCount.toNat = some rank}

/-- a key that stands for a sampled rank -/
def Scattered (keyCount key : UInt64) : Prop := ∃ rank ∈ sampledRanks pow, key = scatter rank % keyCount

end Model

namespace Rng

/-! ## Calls -/

/-- **Every call maps one raw word** or draws nothing. -/
theorem Call.run_eq [LawfulMonad m] (call : Call) : (call.run : StateT Rng m call.Answer) =
    if call.draws then call.answer <$> Rng.nextU64 else pure (call.answer 0) := by
  cases call with
  | nextU64 =>
    have hid : Call.nextU64.answer = id := rfl
    rw [hid, id_map]
    rfl
  | unitF64 =>
    rw [map_eq_pure_bind]
    rfl
  | below upper =>
    by_cases hupper : upper = 0
    · -- the early return: an empty range maps every word to zero, so no word is needed
      rw [hupper]
      rfl
    · have hdraws : (Call.below upper).draws = true := by simp [draws, hupper]
      rw [if_pos hdraws, map_eq_pure_bind, run, Rng.below, if_neg hupper]
      rfl

/-- the step of a call, in raw words -/
theorem Call.after_eq (call : Call) (rng : Rng) : call.after rng = rng.advance (if call.draws then 1 else 0) := by
  unfold after
  rw [run_eq]
  split_ifs <;> rfl

theorem Call.raw_eq (call : Call) (rng : Rng) : call.raw rng = if call.draws then some (stream rng 0) else none := rfl

/-! ## Runs of calls -/

theorem stream_advance (rng : Rng) (n k : ℕ) : stream (rng.advance n) k = stream rng (n + k) := by
  rw [stream, advance_advance]
  rfl

/-- **A run of calls** leaves the generator behind its raw words. -/
theorem afterAll_eq (rng : Rng) (calls : List Call) : afterAll rng calls = rng.advance (calls.countP Call.draws) := by
  induction calls generalizing rng with
  | nil => rfl
  | cons call calls ih =>
    have hrest : afterAll rng (call :: calls) = afterAll (call.after rng) calls := rfl
    rw [hrest, ih, Call.after_eq, advance_advance, List.countP_cons, Nat.add_comm]

/-- **A run of calls** draws the first words of the stream, in order. -/
theorem rawDraws_eq (rng : Rng) (calls : List Call) :
    rawDraws rng calls = (List.range (calls.countP Call.draws)).map (stream rng) := by
  induction calls generalizing rng with
  | nil => rfl
  | cons call calls ih =>
    rw [rawDraws, ih, Call.raw_eq, Call.after_eq, List.countP_cons]
    cases call.draws with
    | false => rfl
    | true =>
      have hshift : stream (rng.advance 1) = fun n => stream rng (n + 1) := by
        funext n
        rw [stream_advance, Nat.add_comm]
      simp only [if_true, Option.toList_some, List.singleton_append]
      rw [hshift, List.range_succ_eq_map, List.map_cons, List.map_map]
      rfl

/-! ## The cycle -/

theorem xorshift_injective : Function.Injective xorshift :=
  Mixer.xorShifts_injective (by decide) (by decide) (by decide)

theorem xorshift_zero : xorshift 0 = 0 := by decide

/-- **The state step is a bijection.** -/
theorem xorshift_bijective : Function.Bijective xorshift := xorshift_injective.bijective_of_finite

/-- zero is reached from zero only, in any number of draws -/
theorem advance_eq_zero {rng : Rng} (n : ℕ) : (rng.advance n).state = 0 ↔ rng.state = 0 :=
  Mixer.iterate_eq_fixed xorshift_injective xorshift_zero n

/-- a seed is never zero -/
theorem new_ne_zero (seed : UInt64) : (new seed).state ≠ 0 := by
  have hmax : (new seed).state.toNat = max seed.toNat 1 := max_one_toNat seed
  intro hzero
  rw [hzero, UInt64.toNat_zero] at hmax
  omega

/-- a raw word is the state it leaves behind -/
theorem stream_eq (rng : Rng) (n : ℕ) : stream rng n = (rng.advance (n + 1)).state :=
  (Function.iterate_succ_apply' xorshift n rng.state).symm

theorem stream_ne_zero {rng : Rng} (h : rng.state ≠ 0) (n : ℕ) : stream rng n ≠ 0 := by
  rw [stream_eq]
  exact mt (advance_eq_zero (n + 1)).1 h

/-- **Pure periodicity.** The states and the raw words repeat from the first one on. -/
theorem stream_periodic (rng : Rng) :
    ∃ p, 0 < p ∧ (∀ n, rng.advance (n + p) = rng.advance n) ∧ Function.Periodic (stream rng) p := by
  obtain ⟨p, hp, hback⟩ := Mixer.iterate_periodic xorshift_injective rng.state
  have hstate : ∀ n, rng.advance (n + p) = rng.advance n := fun n => congrArg Rng.mk (hback n)
  refine ⟨p, hp, hstate, fun n => ?_⟩
  rw [stream, hstate]
  rfl

end Rng

/-! ## The finalizer -/

theorem mix64_injective : Function.Injective mix64 :=
  Mixer.xorShiftMuls_injective (by decide) (by decide) (by decide) (by decide) (by decide)

/-- **The finalizer is a bijection.** -/
theorem mix64_bijective : Function.Bijective mix64 := mix64_injective.bijective_of_finite

theorem scatter_injOn : Set.InjOn scatter {rank | rank < 2 ^ 64} := by
  intro rank hrank rank' hrank' h
  rw [Set.mem_ofPred_eq] at hrank hrank'
  have hword := congrArg UInt64.toNat (mix64_injective h)
  rwa [ofNat_toNat_of_lt hrank, ofNat_toNat_of_lt hrank'] at hword

section Ranks

variable {K : Type} [Field K] [LinearOrder K] {pow : ExactPow K} {keyCount key sample : UInt64}

/-- a rank fits into a word, like the bound of the table it is sampled from -/
theorem sampledRanks_lt : sampledRanks pow ⊆ {rank | rank < 2 ^ 64} := by
  rintro rank ⟨zipf, token, keyCount, h⟩
  unfold ZipfCdf.sampleToken at h
  split_ifs at h
  split at h
  · cases h
  · cases h
    refine lt_of_le_of_lt ?_ keyCount.toNat_lt
    exact ((List.takeWhile_sublist _).length_le).trans (List.length_take_le _ _)

theorem Scattered.of_rank {zipf : ZipfCdf pow} {rank : ℕ} (hrank : zipf.sampleToken sample keyCount.toNat = some rank)
    (hkey : checkedMod (mix64 (UInt64.ofNat rank)) keyCount = some key) : Scattered pow keyCount key :=
  ⟨rank, ⟨zipf, sample, keyCount, hrank⟩, checkedMod_eq hkey⟩

/-- a Zipf key of a generated operation -/
theorem sampleKey_scattered {zipf : ZipfCdf pow} {rng rng' : Rng}
    (h : (sampleKey zipf .zipfian keyCount).run rng = some (key, rng')) : Scattered pow keyCount key := by
  obtain ⟨token, rng, -, h⟩ := run_bind_some h
  obtain ⟨rank, rng, hrank, hkey⟩ := run_bind_some h
  exact Scattered.of_rank (run_lift_some hrank) (run_lift_some hkey)

/-- the key a Zipf read resolves to -/
theorem resolve_scattered {T : Type} {acknowledged : AcknowledgedKeyspace T pow}
    (h : resolve acknowledged sample .zipfian = some key) : Scattered pow (acknowledged.ks.frontier + 1) key := by
  simp only [resolve, Option.bind_eq_bind] at h
  obtain ⟨keyCount, hcount, h⟩ := Option.bind_eq_some_iff.1 h
  obtain ⟨rank, hrank, hkey⟩ := Option.bind_eq_some_iff.1 h
  rw [← checkedAdd_eq hcount]
  exact Scattered.of_rank hrank hkey

end Ranks

/-- **The generator never collapses.** The state step of `next_u64` is a bijection on words that maps only zero to
zero. Whatever calls follow a seed, the state and the raw words are not zero; they are a prefix of the seed's stream,
which repeats from its first word on. The finalizer is a bijection on words and keeps all sampled ranks apart: a Zipf
key is a scattered rank up to the modulus. -/
theorem generator_never_collapses {K : Type} [Field K] [LinearOrder K] (pow : ExactPow K) (T : Type) :
    (Function.Bijective fun x : UInt64 => (Rng.Call.nextU64.after ⟨x⟩).state) ∧
      (∀ x : UInt64, (Rng.Call.nextU64.after ⟨x⟩).state = 0 ↔ x = 0) ∧
      (∀ seed : UInt64,
        (∀ calls : List Rng.Call,
          (Rng.afterAll (Rng.new seed) calls).state ≠ 0 ∧ (∀ x ∈ Rng.rawDraws (Rng.new seed) calls, x ≠ 0) ∧
            ∃ n, Rng.afterAll (Rng.new seed) calls = (Rng.new seed).advance n ∧
              Rng.rawDraws (Rng.new seed) calls = (List.range n).map (Rng.stream (Rng.new seed))) ∧
        ∃ p, 0 < p ∧ (∀ n, (Rng.new seed).advance (n + p) = (Rng.new seed).advance n) ∧
          Function.Periodic (Rng.stream (Rng.new seed)) p) ∧
      Function.Bijective mix64 ∧ Set.InjOn scatter (sampledRanks pow) ∧
      (∀ (zipf : ZipfCdf pow) keyCount rng key rng',
        (sampleKey zipf .zipfian keyCount).run rng = some (key, rng') → Scattered pow keyCount key) ∧
      ∀ (acknowledged : AcknowledgedKeyspace T pow) sample key,
        resolve acknowledged sample .zipfian = some key → Scattered pow (acknowledged.ks.frontier + 1) key := by
  refine ⟨Rng.xorshift_bijective, fun x => Rng.advance_eq_zero 1, fun seed => ⟨fun calls => ⟨?_, ?_, ?_⟩, ?_⟩,
    mix64_bijective, scatter_injOn.mono sampledRanks_lt, fun _ _ _ _ _ => sampleKey_scattered,
    fun _ _ _ => resolve_scattered⟩
  · rw [Rng.afterAll_eq]
    exact mt (Rng.advance_eq_zero _).1 (Rng.new_ne_zero seed)
  · rw [Rng.rawDraws_eq]
    intro x hx
    obtain ⟨n, -, rfl⟩ := List.mem_map.1 hx
    exact Rng.stream_ne_zero (Rng.new_ne_zero seed) n
  · exact ⟨calls.countP Rng.Call.draws, Rng.afterAll_eq _ calls, Rng.rawDraws_eq _ calls⟩
  · exact Rng.stream_periodic (Rng.new seed)

/-- from seed zero, and for the first two ranks -/
theorem generator_never_collapses_zero :
    (Rng.afterAll (Rng.new 0) [.nextU64, .below 0, .unitF64]).state ≠ 0 ∧ mix64 0 ≠ mix64 1 := by
  obtain ⟨-, -, hseed, hmix, -⟩ := generator_never_collapses realPow Unit
  exact ⟨((hseed 0).1 _).1, hmix.injective.ne (by decide)⟩

end WtBenchmarks
