/-
The seeded shuffles: `shuffle_seeded` (`src/rng.rs`), `Rng::shuffle` of the point-get reproducer
(`crates/wti-point-get-case`) and the loop inside `shuffled_keys` (`src/delete_cost.rs`).

All three are one Fisher-Yates loop over an xorshift state. They differ in how the state is kept and seeded: the first
two replace a zero seed by one, the third has its state in a local variable and takes it as it is.

- `wtiShuffle_eq`, `shuffleFrom_eq`: the two copies against `shuffle_seeded`;
- `shuffles_one_permutation`: all three permute every list of one length in the same way.
-/
import WtBenchmarks.Core.FisherYates
import WtBenchmarks.Core.Word
import WtBenchmarks.Rng

namespace WtBenchmarks

variable {α β : Type}

/-! ## The three shuffles -/

def shuffleSeeded (items : Array α) (seed : UInt64) : Option (Array α) :=
  (FisherYates.shuffle Rng.nextU64 items).run' (Rng.new seed)

namespace WtiPointGetCase

/-- the generator that the reproducer has its own copy of -/
structure Rng where
  state : UInt64

def Rng.new (seed : UInt64) : Rng := ⟨max seed 1⟩

def Rng.nextU64 : StateT Rng Option UInt64 := fun rng =>
  let x := rng.state
  let x := x ^^^ (x <<< 13)
  let x := x ^^^ (x >>> 7)
  let x := x ^^^ (x <<< 17)
  some (x, ⟨x⟩)

def Rng.shuffle (items : Array α) : StateT Rng Option (Array α) := FisherYates.shuffle Rng.nextU64 items

end WtiPointGetCase

namespace DeleteCost

/-- the three lines of the loop that change its local state -/
def nextState : StateT UInt64 Option UInt64 := fun state =>
  let state := state ^^^ (state <<< 13)
  let state := state ^^^ (state >>> 7)
  let state := state ^^^ (state <<< 17)
  some (state, state)

def keys (rows : UInt64) : Array UInt64 := (words rows.toNat).toArray

/-- the loop of `shuffled_keys`, from any state -/
def shuffleFrom (state : UInt64) (items : Array α) : Option (Array α) :=
  (FisherYates.shuffle nextState items).run' state

def shuffledKeys (rows : UInt64) : Option (Array UInt64) := shuffleFrom 0x2545F4914F6CDD1D (keys rows)

end DeleteCost

/-! ## The copies -/

theorem wtiShuffle_eq (items : Array α) (seed : UInt64) :
    (WtiPointGetCase.Rng.shuffle items).run' (WtiPointGetCase.Rng.new seed) = shuffleSeeded items seed :=
  FisherYates.shuffle_hom (φ := fun rng : Rng => WtiPointGetCase.Rng.mk rng.state) (fun _ => rfl) items (Rng.new seed)

/-- a seed that is not zero is kept by `Rng::new` -/
theorem new_state {seed : UInt64} (h : seed ≠ 0) : (Rng.new seed).state = seed := by
  have hpos := toNat_pos_of_ne h
  exact UInt64.toNat_inj.1 ((max_one_toNat seed).trans (max_eq_left hpos))

theorem shuffleFrom_eq (items : Array α) {seed : UInt64} (h : seed ≠ 0) :
    DeleteCost.shuffleFrom seed items = shuffleSeeded items seed := by
  have hhom : DeleteCost.shuffleFrom (Rng.new seed).state items = shuffleSeeded items seed :=
    FisherYates.shuffle_hom (φ := Rng.state) (fun _ => rfl) items (Rng.new seed)
  rwa [new_state h] at hhom

/-! ## One permutation -/

theorem shuffleSeeded_perm (items : Array α) (seed : UInt64) :
    ∃ out, shuffleSeeded items seed = some out ∧ out.Perm items := by
  obtain ⟨out, rng, hrun, hperm⟩ := FisherYates.shuffle_perm Rng.nextU64_total items (Rng.new seed)
  exact ⟨out, by rw [shuffleSeeded, StateT.run'_eq, hrun]; rfl, hperm⟩

theorem shuffleSeeded_map (f : α → β) (items : Array α) (seed : UInt64) :
    shuffleSeeded (items.map f) seed = (shuffleSeeded items seed).map (Array.map f) := by
  rw [shuffleSeeded, shuffleSeeded, StateT.run'_eq, StateT.run'_eq, FisherYates.shuffle_map]
  cases (FisherYates.shuffle Rng.nextU64 items).run (Rng.new seed) with
  | none => rfl
  | some r => rfl

/-- **One permutation.** `shuffle_seeded` permutes every list by a permutation that only depends on the length and the
seed, so that it commutes with every map; the reproducer's shuffle does the same from every seed, and the loop of
`shuffled_keys` from every seed but zero. -/
theorem shuffles_one_permutation :
    (∀ (n : ℕ) (seed : UInt64), ∃ π : Equiv.Perm (Fin n), ∀ (α : Type) (items : Array α) (h : items.size = n),
      shuffleSeeded items seed = some (Array.ofFn fun i => items[Fin.cast h.symm (π i)])) ∧
    (∀ (α : Type) (items : Array α) (seed : UInt64), ∃ out, shuffleSeeded items seed = some out ∧ out.Perm items) ∧
    (∀ (α β : Type) (f : α → β) (items : Array α) (seed : UInt64),
      shuffleSeeded (items.map f) seed = (shuffleSeeded items seed).map (Array.map f)) ∧
    (∀ (α : Type) (items : Array α) (seed : UInt64),
      (WtiPointGetCase.Rng.shuffle items).run' (WtiPointGetCase.Rng.new seed) = shuffleSeeded items seed) ∧
    (∀ (α : Type) (items : Array α) (seed : UInt64), seed ≠ 0 →
      DeleteCost.shuffleFrom seed items = shuffleSeeded items seed) ∧
    ∀ rows, DeleteCost.shuffledKeys rows = shuffleSeeded (DeleteCost.keys rows) 0x2545F4914F6CDD1D := by
  refine ⟨fun n seed => ?_, fun _ => shuffleSeeded_perm, fun _ _ => shuffleSeeded_map, fun _ => wtiShuffle_eq,
    fun _ items seed h => shuffleFrom_eq items h, fun rows => shuffleFrom_eq _ (by decide)⟩
  exact FisherYates.shuffle_eq_perm Rng.nextU64_total n (Rng.new seed)

theorem shuffles_one_permutation_three :
    (∃ π : Equiv.Perm (Fin 3), shuffleSeeded #[10, 20, 30] 7 = some (Array.ofFn fun i => #[10, 20, 30][π i])) ∧
      DeleteCost.shuffleFrom 7 #[10, 20, 30] = shuffleSeeded #[10, 20, 30] 7 := by
  obtain ⟨hone, -, -, -, hinline, -⟩ := shuffles_one_permutation
  obtain ⟨π, hπ⟩ := hone 3 7
  exact ⟨⟨π, hπ ℕ #[10, 20, 30] rfl⟩, hinline ℕ #[10, 20, 30] 7 (by decide)⟩

end WtBenchmarks
