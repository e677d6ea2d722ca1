/-
The checksums of the suite, all folds of the 64-bit FNV-1a step: `value_checksum` and `text_checksum` of the key-value
workload (`src/kv.rs`), `row_checksum` of the shadow oracle
(`campaigns/ycsb-index-backends/src/bin/shadow-concurrency.rs`).

- `checksums_detect_change`: each tells apart any two inputs that differ at a single position.
-/
import WtBenchmarks.Core.FoldHash
import WtBenchmarks.IndexBackends.Shadow.Rows
import WtBenchmarks.Kv.Config

namespace WtBenchmarks.Checksums

open FoldHash IndexBackends.Shadow Kv

theorem prime_odd : (0x100000001b3 : UInt64).toNat % 2 = 1 := by decide

theorem byteWord_injective : Function.Injective UInt8.toUInt64 := by
  intro a b h
  have hval := congrArg UInt64.toNat h
  simp only [UInt8.toNat_toUInt64] at hval
  exact UInt8.toNat_inj.1 hval

theorem fnv1a_ne {value value' : List UInt8} (h : DifferOnce value value') : fnv1a value ≠ fnv1a value' :=
  foldl_ne_of_differOnce (fnv_state prime_odd) (fnv_word prime_odd byteWord_injective) h _

theorem textChecksum_ne {key : UInt64} {value value' : List UInt8} (h : DifferOnce value value') :
    textChecksum key value ≠ textChecksum key value' := by
  unfold textChecksum
  intro heq
  exact fnv1a_ne h ((UInt64.add_left_inj key).1 heq)

/-- the words are absorbed before the payload, so a change among them reaches the payload as a different state -/
theorem rowChecksum_ne_of_words {id uniqueKey bucket generation id' uniqueKey' bucket' generation' : UInt64}
    (payload : List UInt8)
    (h : DifferOnce [id, uniqueKey, bucket, generation] [id', uniqueKey', bucket', generation']) :
    rowChecksum id uniqueKey bucket generation payload ≠ rowChecksum id' uniqueKey' bucket' generation' payload := by
  have hwords := foldl_ne_of_differOnce (fnv_state prime_odd) (fnv_word prime_odd Function.injective_id) h
    0xcbf29ce484222325
  intro heq
  exact hwords (foldl_injective (fnv_state prime_odd) payload heq)

theorem rowChecksum_ne_of_payload (id uniqueKey bucket generation : UInt64) {payload payload' : List UInt8}
    (h : DifferOnce payload payload') :
    rowChecksum id uniqueKey bucket generation payload ≠ rowChecksum id uniqueKey bucket generation payload' :=
  foldl_ne_of_differOnce (fnv_state prime_odd) (fnv_word prime_odd byteWord_injective) h _

/-- **Single changes are detected** by the three checksums: of one byte of a value or of a text under one key, of one of
the four words of a row, of one byte of its payload. -/
theorem checksums_detect_change :
    (∀ value value' : List UInt8, DifferOnce value value' → valueChecksum value ≠ valueChecksum value') ∧
    (∀ (key : UInt64) (value value' : List UInt8), DifferOnce value value' →
      textChecksum key value ≠ textChecksum key value') ∧
    (∀ (id uniqueKey bucket generation id' uniqueKey' bucket' generation' : UInt64) (payload : List UInt8),
      DifferOnce [id, uniqueKey, bucket, generation] [id', uniqueKey', bucket', generation'] →
      rowChecksum id uniqueKey bucket generation payload ≠
        rowChecksum id' uniqueKey' bucket' generation' payload) ∧
    (∀ (id uniqueKey bucket generation : UInt64) (payload payload' : List UInt8), DifferOnce payload payload' →
      rowChecksum id uniqueKey bucket generation payload ≠ rowChecksum id uniqueKey bucket generation payload') := by
  refine ⟨?_, ?_, ?_, ?_⟩
  · intro value value' h
    exact fnv1a_ne h
  · intro key value value' h
    exact textChecksum_ne h
  · intro id uniqueKey bucket generation id' uniqueKey' bucket' generation' payload h
    exact rowChecksum_ne_of_words payload h
  · intro id uniqueKey bucket generation payload payload' h
    exact rowChecksum_ne_of_payload id uniqueKey bucket generation h

theorem checksums_detect_change_sample :
    valueChecksum [1, 2, 3] ≠ valueChecksum [1, 255, 3] ∧ textChecksum 7 [1, 2, 3] ≠ textChecksum 7 [1, 2, 4] ∧
      rowChecksum 1 2 3 4 [5, 6] ≠ rowChecksum 1 9 3 4 [5, 6] ∧
      rowChecksum 1 2 3 4 [5, 6] ≠ rowChecksum 1 2 3 4 [0, 6] :=
  ⟨checksums_detect_change.1 _ _ (by decide), checksums_detect_change.2.1 _ _ _ (by decide),
    checksums_detect_change.2.2.1 _ _ _ _ _ _ _ _ _ (by decide), checksums_detect_change.2.2.2 _ _ _ _ _ _ (by decide)⟩

end WtBenchmarks.Checksums
