/-
Collisions of the agentcode digests (`src/codegraph.rs`, `spread` and `Generation::new`).

The only step of `spread` that loses something is the one that sets the lowest bit of a product. Two inputs collide
exactly if their products differ in that bit alone, and then they are an inverse of the factor apart; so collisions
come in pairs, and the keys of generations with small ordinals are all different.

- `spread_collides_iff`, `spread_preimages`, `spread_inj_close`: which inputs collide, how many, and how far apart;
- `generation_keys`: the keys of generations;
- `spread_collisions`: all of this, and what it means for the snapshot index.
-/
import WtBenchmarks.Codegraph.Publish

namespace WtBenchmarks.Codegraph

/-- two inputs collide exactly if their products differ only in the lowest bit -/
theorem spread_collides_iff {a b : UInt64} (hne : a ≠ b) :
    spread a = spread b ↔ (a * 0x9E3779B97F4A7C15) ^^^ (b * 0x9E3779B97F4A7C15) = 1 := by
  rw [spread_eq_iff, Mixer.orOne_eq_iff, or_iff_right]
  intro heq
  exact hne (Mixer.mul_odd_injective (c := 0x9E3779B97F4A7C15) (by decide) heq)

theorem spread_preimages (digest : U128) : {a : UInt64 | spread a = digest}.encard ≤ 2 := by
  by_cases hany : ∃ b, spread b = digest
  · obtain ⟨b, rfl⟩ := hany
    simp only [spread_eq_iff]
    exact Mixer.mulOrOne_preimages spread_factor _
  · have hempty : {a : UInt64 | spread a = digest} = ∅ := Set.eq_empty_of_forall_notMem fun a ha => hany ⟨a, ha⟩
    rw [hempty, Set.encard_empty]
    exact bot_le

/-- inputs less than `2 ^ 59` apart do not collide -/
theorem spread_inj_close {a b : UInt64} (hab : a.toNat < b.toNat + 2 ^ 59) (hba : b.toNat < a.toNat + 2 ^ 59)
    (h : spread a = spread b) : a = b :=
  Mixer.mulOrOne_inj_close spread_factor (by decide) (by decide) hab hba (spread_eq_iff.1 h)

/-- **Generation keys.** The mask of `Generation::new` keeps small ordinals small. -/
theorem generation_keys {ordinal ordinal' : UInt64} (files files' : UInt64) (h : ordinal.toNat < 2 ^ 59)
    (h' : ordinal'.toNat < 2 ^ 59) (hkey : (Generation.new ordinal files).key = (Generation.new ordinal' files').key) :
    ordinal = ordinal' := by
  have hsmall : ∀ w : UInt64, w.toNat < 2 ^ 59 → (0xC0DE0000 ^^^ w).toNat < 2 ^ 59 := by
    intro w hw
    rw [UInt64.toNat_xor]
    exact Nat.xor_lt_two_pow (by decide) hw
  have hx := hsmall ordinal h
  have hy := hsmall ordinal' h'
  exact (UInt64.xor_right_inj _).1 (spread_inj_close (by omega) (by omega) hkey)

/-- **Collisions of digests.** Inputs collide exactly if their products differ in the lowest bit alone; so at most two
share a digest, and none that are less than `2 ^ 59` apart. Generations with different ordinals below `2 ^ 59` have
different keys, and no row is in the scans of both. -/
theorem spread_collisions :
    (∀ a b : UInt64, a ≠ b →
      (spread a = spread b ↔ (a * 0x9E3779B97F4A7C15) ^^^ (b * 0x9E3779B97F4A7C15) = 1)) ∧
    (∀ digest, {a : UInt64 | spread a = digest}.encard ≤ 2) ∧
    (∀ a b : UInt64, a.toNat < b.toNat + 2 ^ 59 → b.toNat < a.toNat + 2 ^ 59 → spread a = spread b → a = b) ∧
    ∀ ordinal ordinal' files files' : UInt64, ordinal.toNat < 2 ^ 59 → ordinal'.toNat < 2 ^ 59 → ordinal ≠ ordinal' →
      (Generation.new ordinal files).key ≠ (Generation.new ordinal' files').key ∧
      ∀ store : Store, ∀ row ∈ store.selectBySnapshotKey (Generation.new ordinal files).key,
        row ∉ store.selectBySnapshotKey (Generation.new ordinal' files').key := by
  refine ⟨fun a b hne => spread_collides_iff hne, spread_preimages, fun a b hab hba => spread_inj_close hab hba, ?_⟩
  intro ordinal ordinal' files files' h h' hne
  have hkeys : (Generation.new ordinal files).key ≠ (Generation.new ordinal' files').key :=
    fun hkey => hne (generation_keys files files' h h' hkey)
  refine ⟨hkeys, fun store row hrow hrow' => ?_⟩
  have hkey := of_decide_eq_true (List.mem_filter.1 hrow).2
  have hkey' := of_decide_eq_true (List.mem_filter.1 hrow').2
  exact hkeys (hkey.symm.trans hkey')

theorem spread_collisions_small :
    (Generation.new 3 800).key ≠ (Generation.new 4 50).key ∧ spread 5 ≠ spread 9 := by
  obtain ⟨-, -, hclose, hkeys⟩ := spread_collisions
  exact ⟨(hkeys 3 4 800 50 (by decide) (by decide) (by decide)).1,
    fun h => absurd (hclose 5 9 (by decide) (by decide) h) (by decide)⟩

/-- two inputs that do collide -/
example : spread 0 = spread 0xF1DE83E19937733D := by decide +kernel

end WtBenchmarks.Codegraph
