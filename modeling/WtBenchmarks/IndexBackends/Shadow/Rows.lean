/-
Rows and markers of the shadow-concurrency oracle (`campaigns/ycsb-index-backends/src/bin/shadow-concurrency.rs`).

A row is a function of its id and its generation (`makeRow`); arithmetic that would overflow stops with `none`. A shadow
marker is a generation with the `WRITING` bit beside it. Payload strings are their bytes.

- `makeRow_some`, `validRow_makeRow`: below the bounds of an accepted configuration rows are built without overflow, and
  are valid;
- `rowKey_inj`: their unique keys tell apart all pairs of id and generation;
- `rank_inj`: markers are ordered by generation first, by the bit second.
-/
import WtBenchmarks.Core.Bytes
import WtBenchmarks.Core.Word
import Mathlib.Data.Nat.Bitwise

namespace WtBenchmarks.IndexBackends.Shadow

/-! ## Configurations -/

structure Config where
  records : UInt64
  operations : UInt64
  threads : ℕ
  repetitions : ℕ
  payloadBytes : ℕ
  buckets : UInt64
  seed : UInt64
  vacuum : Bool
  deleteEvery : UInt64

/-- the checks of `Config::from_args` -/
def Config.check (config : Config) : Except String Unit :=
  if config.records = 0 ∨ config.operations = 0 ∨ config.threads = 0 ∨ config.repetitions = 0 ∨
      config.payloadBytes = 0 ∨ config.buckets = 0 then
    .error "records, operations, threads, repetitions, payload, and buckets must be non-zero"
  else
    let stride := config.records + 1
    let maximumGeneration := config.operations + 1
    if (checkedMul stride maximumGeneration).isNone then .error "records times operations must fit u64"
    else .ok ()

def Config.readerThreads (config : Config) : ℕ := config.threads / 2

def Config.writerThreads (config : Config) : ℕ := config.threads - config.readerThreads

/-- what an accepted configuration guarantees -/
structure Config.Accepted (config : Config) : Prop where
  records : 0 < config.records.toNat
  operations : 0 < config.operations.toNat
  threads : 0 < config.threads
  buckets : 0 < config.buckets.toNat
  product : (config.records.toNat + 1) * (config.operations.toNat + 1) < 2 ^ 64
  owners : config.writerThreads ≤ config.records.toNat

theorem Config.accepted_of_check {config : Config} (hrecords : config.records < u64Max)
    (hoperations : config.operations < u64Max) (howners : config.writerThreads ≤ config.records.toNat)
    (h : config.check = .ok ()) : config.Accepted := by
  unfold check at h
  dsimp only at h
  split_ifs at h with hzero hmul
  simp only [not_or] at hzero
  rcases hzero with ⟨hr, ho, ht, -, -, hb⟩
  have hproduct : (config.records + 1).toNat * (config.operations + 1).toNat < 2 ^ 64 := by
    by_contra hge
    rw [checkedMul, if_neg hge] at hmul
    exact hmul rfl
  rw [succ_toNat hrecords, succ_toNat hoperations] at hproduct
  exact ⟨toNat_pos_of_ne hr, toNat_pos_of_ne ho, Nat.pos_of_ne_zero ht, toNat_pos_of_ne hb, hproduct, howners⟩

/-! ## Rows -/

structure Row where
  id : UInt64
  uniqueKey : UInt64
  bucket : UInt64
  generation : UInt64
  checksum : UInt64
  payload : List UInt8
deriving DecidableEq, Repr

def payloadByte (id generation : UInt64) : UInt8 := 97 + ((id * 17 ^^^ generation * 29) % 26).toUInt8

def makePayload (id generation : UInt64) (payloadBytes : ℕ) : List UInt8 :=
  List.replicate payloadBytes (payloadByte id generation)

def rowChecksum (id uniqueKey bucket generation : UInt64) (payload : List UInt8) : UInt64 :=
  let hash := [id, uniqueKey, bucket, generation].foldl (fun hash value => (hash ^^^ value) * 0x100000001b3)
    0xcbf29ce484222325
  payload.foldl (fun hash byte => (hash ^^^ byte.toUInt64) * 0x100000001b3) hash

def uniqueKey (id generation stride : UInt64) : Option UInt64 := do
  let product ← checkedMul generation stride
  checkedAdd product id

def bucket (id generation buckets : UInt64) : Option UInt64 := do
  let sum ← checkedAdd id generation
  checkedMod sum buckets

def makeRow (id generation : UInt64) (config : Config) (stride : UInt64) : Option Row := do
  let uniqueKey ← uniqueKey id generation stride
  let bucket ← bucket id generation config.buckets
  let payload := makePayload id generation config.payloadBytes
  some ⟨id, uniqueKey, bucket, generation, rowChecksum id uniqueKey bucket generation payload, payload⟩

def validRow (row : Row) (config : Config) (stride : UInt64) : Option Bool := do
  let uniqueKey ← uniqueKey row.id row.generation stride
  if row.uniqueKey ≠ uniqueKey then return false
  let bucket ← bucket row.id row.generation config.buckets
  return row.bucket = bucket ∧ row.payload.length = config.payloadBytes ∧
    (row.payload.all fun byte => byte == payloadByte row.id row.generation) ∧
    row.checksum = rowChecksum row.id row.uniqueKey row.bucket row.generation row.payload

/-- the payload is ASCII, so `String::from_utf8` accepts it -/
theorem makePayload_utf8 (id generation : UInt64) (payloadBytes : ℕ) :
    ∃ s, fromUtf8 (makePayload id generation payloadBytes) = some s := by
  apply fromUtf8_ascii
  intro b hb
  rw [List.eq_of_mem_replicate hb]
  unfold payloadByte
  generalize id * 17 ^^^ generation * 29 = x
  have h26 : (26 : UInt64).toNat = 26 := rfl
  have h97 : (97 : UInt8).toNat = 97 := rfl
  have h128 : (128 : UInt8).toNat = 128 := rfl
  rw [UInt8.lt_iff_toNat_lt, UInt8.toNat_add, UInt64.toNat_toUInt8, UInt64.toNat_mod, h26, h97, h128]
  omega

/-- the row of an id and a generation, where nothing overflows -/
def rowOf (config : Config) (id generation : UInt64) : Row :=
  let uniqueKey := generation * (config.records + 1) + id
  let bucket := (id + generation) % config.buckets
  let payload := makePayload id generation config.payloadBytes
  ⟨id, uniqueKey, bucket, generation, rowChecksum id uniqueKey bucket generation payload, payload⟩

section Bounds

variable {config : Config} {id generation : UInt64}

/-- the pairs of id and generation a run uses: loaded rows at any generation, fillers at the first -/
structure InRange (config : Config) (id generation : UInt64) : Prop where
  product : generation.toNat * (config.records.toNat + 1) + id.toNat < 2 ^ 64
  sum : id.toNat + generation.toNat < 2 ^ 64

theorem Config.Accepted.stride (hacc : config.Accepted) : (config.records + 1).toNat = config.records.toNat + 1 := by
  have hproduct := hacc.product
  have hle : config.records.toNat + 1 ≤ (config.records.toNat + 1) * (config.operations.toNat + 1) :=
    Nat.le_mul_of_pos_right _ (Nat.succ_pos _)
  have hone : (1 : UInt64).toNat = 1 := rfl
  rw [toNat_add_of_lt (by omega), hone]

theorem Config.Accepted.inRange (hacc : config.Accepted) (hid : id.toNat < config.records.toNat)
    (hgen : generation.toNat ≤ config.operations.toNat) : InRange config id generation := by
  have hproduct := hacc.product
  have hrow : generation.toNat * (config.records.toNat + 1) ≤
      config.operations.toNat * (config.records.toNat + 1) := Nat.mul_le_mul_right _ hgen
  have hsplit : (config.records.toNat + 1) * (config.operations.toNat + 1) =
      config.operations.toNat * (config.records.toNat + 1) + (config.records.toNat + 1) := by ring
  have hgen' : generation.toNat ≤ generation.toNat * (config.records.toNat + 1) :=
    Nat.le_mul_of_pos_right _ (Nat.succ_pos _)
  exact ⟨by omega, by omega⟩

variable (hacc : config.Accepted) (hrange : InRange config id generation)
include hacc hrange

theorem uniqueKey_some :
    uniqueKey id generation (config.records + 1) = some (rowOf config id generation).uniqueKey := by
  have hstride := hacc.stride
  have hproduct := hrange.product
  have hmul : generation.toNat * (config.records + 1).toNat < 2 ^ 64 := by
    rw [hstride]
    omega
  unfold uniqueKey checkedMul
  rw [if_pos hmul, Option.bind_eq_bind, Option.bind_some]
  refine if_pos ?_
  rw [toNat_mul_of_lt hmul, hstride]
  exact hproduct

theorem uniqueKey_toNat :
    (rowOf config id generation).uniqueKey.toNat = generation.toNat * (config.records.toNat + 1) + id.toNat := by
  have hstride := hacc.stride
  have hproduct := hrange.product
  have hmul : (generation * (config.records + 1)).toNat = generation.toNat * (config.records.toNat + 1) := by
    rw [toNat_mul_of_lt (by rw [hstride]; omega), hstride]
  have hadd := toNat_add_of_lt (a := generation * (config.records + 1)) (b := id) (by rw [hmul]; exact hproduct)
  rw [hmul] at hadd
  exact hadd

theorem bucket_some : bucket id generation config.buckets = some (rowOf config id generation).bucket := by
  have hbuckets := hacc.buckets
  unfold bucket checkedAdd checkedMod
  rw [if_pos hrange.sum, Option.bind_eq_bind, Option.bind_some]
  apply if_neg
  intro hzero
  rw [hzero] at hbuckets
  exact absurd hbuckets (by decide)

theorem makeRow_some : makeRow id generation config (config.records + 1) = some (rowOf config id generation) := by
  unfold makeRow
  rw [uniqueKey_some hacc hrange, Option.bind_eq_bind, Option.bind_some, bucket_some hacc hrange]
  rfl

/-- **A row that was made is valid.** -/
theorem validRow_rowOf : validRow (rowOf config id generation) config (config.records + 1) = some true := by
  have hkey := uniqueKey_some hacc hrange
  have hbucket := bucket_some hacc hrange
  unfold validRow
  change (uniqueKey id generation (config.records + 1) >>= _) = _
  rw [hkey, Option.bind_eq_bind, Option.bind_some, if_neg (not_not_intro rfl)]
  change (bucket id generation config.buckets >>= _) = _
  rw [hbucket]
  simp [rowOf, makePayload]

end Bounds

/-- **Unique keys never coincide** for distinct pairs of a loaded id and a generation. -/
theorem rowKey_inj {config : Config} (hacc : config.Accepted) {id id' g g' : UInt64}
    (hid : id.toNat < config.records.toNat) (hid' : id'.toNat < config.records.toNat)
    (hg : g.toNat ≤ config.operations.toNat) (hg' : g'.toNat ≤ config.operations.toNat)
    (h : (rowOf config id g).uniqueKey = (rowOf config id' g').uniqueKey) : id = id' ∧ g = g' := by
  have hnat := congrArg UInt64.toNat h
  rw [uniqueKey_toNat hacc (hacc.inRange hid hg), uniqueKey_toNat hacc (hacc.inRange hid' hg')] at hnat
  have hmod := congrArg (· % (config.records.toNat + 1)) hnat
  have hdiv := congrArg (· / (config.records.toNat + 1)) hnat
  simp only [Nat.mul_add_mod_self_right, Nat.mod_eq_of_lt (show id.toNat < config.records.toNat + 1 by omega),
    Nat.mod_eq_of_lt (show id'.toNat < config.records.toNat + 1 by omega)] at hmod
  rw [hmod] at hnat
  have hgen : g.toNat = g'.toNat := Nat.eq_of_mul_eq_mul_right (Nat.succ_pos _) (Nat.add_right_cancel hnat)
  exact ⟨UInt64.toNat_inj.1 hmod, UInt64.toNat_inj.1 hgen⟩

/-! ## Markers -/

def writing : UInt64 := (1 : UInt64) <<< 63

def generationMask : UInt64 := ~~~writing

/-- the marker of an id whose writer is at work -/
def mark (generation : UInt64) : UInt64 := writing ||| generation

def generationOf (marker : UInt64) : UInt64 := marker &&& generationMask

def isWriting (marker : UInt64) : Bool := marker &&& writing != 0

/-- markers in the order in which a writer stores them -/
def rank (marker : UInt64) : ℕ := 2 * (generationOf marker).toNat + if isWriting marker then 1 else 0

theorem writing_toNat : writing.toNat = 2 ^ 63 := by decide

theorem generationOf_toNat (marker : UInt64) : (generationOf marker).toNat = marker.toNat % 2 ^ 63 := by
  have hmask : generationMask.toNat = 2 ^ 63 - 1 := by decide
  unfold generationOf
  rw [UInt64.toNat_and, hmask, Nat.and_two_pow_sub_one_eq_mod]

theorem isWriting_iff (marker : UInt64) : isWriting marker = true ↔ 2 ^ 63 ≤ marker.toNat := by
  have hlt := marker.toNat_lt
  have hbit : (marker &&& writing).toNat = (marker.toNat.testBit 63).toNat * 2 ^ 63 := by
    rw [UInt64.toNat_and, writing_toNat, Nat.and_two_pow]
  have htest : marker.toNat.testBit 63 = true ↔ 2 ^ 63 ≤ marker.toNat := by
    rw [Nat.testBit_eq_decide_div_mod_eq, decide_eq_true_iff]
    omega
  unfold isWriting
  rw [bne_iff_ne, Ne, ← UInt64.toNat_inj, hbit, ← htest]
  cases marker.toNat.testBit 63 <;> decide

theorem isWriting_eq_false (marker : UInt64) : isWriting marker = false ↔ marker.toNat < 2 ^ 63 := by
  rw [← Bool.not_eq_true, isWriting_iff, Nat.not_le]

theorem generationOf_lt (marker : UInt64) : (generationOf marker).toNat < 2 ^ 63 := by
  rw [generationOf_toNat]
  exact Nat.mod_lt _ (by decide)

theorem rank_inj {a b : UInt64} (h : rank a = rank b) : a = b := by
  have ha := generationOf_toNat a
  have hb := generationOf_toNat b
  have hlta := a.toNat_lt
  have hltb := b.toNat_lt
  unfold rank at h
  apply UInt64.toNat_inj.1
  cases hwa : isWriting a <;> cases hwb : isWriting b <;> simp only [hwa, hwb, Bool.false_eq_true, ↓reduceIte] at h
  · rw [isWriting_eq_false] at hwa hwb
    omega
  · omega
  · omega
  · rw [isWriting_iff] at hwa hwb
    omega

section Small

variable {g : UInt64} (hg : g.toNat < 2 ^ 63)
include hg

theorem mark_toNat : (mark g).toNat = 2 ^ 63 + g.toNat := by
  unfold mark
  rw [UInt64.toNat_or, writing_toNat]
  have h := Nat.two_pow_add_eq_or_of_lt hg 1
  rw [Nat.mul_one] at h
  exact h.symm

theorem generationOf_self : generationOf g = g := by
  apply UInt64.toNat_inj.1
  rw [generationOf_toNat, Nat.mod_eq_of_lt hg]

theorem generationOf_mark : generationOf (mark g) = g := by
  apply UInt64.toNat_inj.1
  rw [generationOf_toNat, mark_toNat hg]
  omega

theorem isWriting_self : isWriting g = false := (isWriting_eq_false g).2 hg

theorem isWriting_mark : isWriting (mark g) = true := by
  rw [isWriting_iff, mark_toNat hg]
  omega

theorem rank_self : rank g = 2 * g.toNat := by
  unfold rank
  rw [generationOf_self hg, isWriting_self hg]
  rfl

theorem rank_mark : rank (mark g) = 2 * g.toNat + 1 := by
  unfold rank
  rw [generationOf_mark hg, isWriting_mark hg]
  rfl

end Small

theorem generation_mono {a b : UInt64} (h : rank a ≤ rank b) : (generationOf a).toNat ≤ (generationOf b).toNat := by
  unfold rank at h
  split_ifs at h <;> omega

end WtBenchmarks.IndexBackends.Shadow
