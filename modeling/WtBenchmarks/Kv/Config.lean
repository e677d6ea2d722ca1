/-
The embedded key-value workload (`src/kv.rs`): its configuration, its key streams, its payloads and their checksum.

A payload string is its bytes, which are printable ASCII (`textValue_utf8`). Command-line parsing and the timings of a
result line are left out; `validate` is the check every accepted configuration passed.

- `pointKeys_lt`, `scanStarts_le`: the streams stay inside the loaded rows.
-/
import WtBenchmarks.Core.Bytes
import WtBenchmarks.Core.Word
import WtBenchmarks.Rng

namespace WtBenchmarks.Kv

inductive DurabilityMode where
  | memory | relaxed | durable
deriving DecidableEq, Repr

inductive TransactionScope where
  | perOperation | batch
deriving DecidableEq, Repr

structure KvConfig where
  rows : UInt64
  operations : UInt64
  scanOperations : UInt64
  scanLength : UInt64
  repetitions : ℕ
  payloadBytes : ℕ
  seed : UInt64
  durability : DurabilityMode
  transactionScope : TransactionScope

namespace KvConfig

def validate (config : KvConfig) : Except String Unit :=
  if config.rows = 0 ∨ config.operations = 0 ∨ config.scanOperations = 0 ∨ config.scanLength = 0 ∨
      config.repetitions = 0 ∨ config.payloadBytes = 0 then
    .error "counts, repetitions, and payload size must be non-zero"
  else if config.scanLength > config.rows then .error "--scan-length cannot exceed --rows"
  else .ok ()

def pointKeys (config : KvConfig) : List UInt64 :=
  Rng.draws config.operations.toNat config.rows config.seed

def scanStarts (config : KvConfig) : List UInt64 :=
  Rng.draws config.scanOperations.toNat (config.rows - config.scanLength + 1) (config.seed ^^^ 0xa5a5a5a5)

/-- what an accepted configuration guarantees -/
structure Accepted (config : KvConfig) : Prop where
  rows : 0 < config.rows
  repetitions : 0 < config.repetitions
  scanLength : 0 < config.scanLength.toNat
  fits : config.scanLength.toNat ≤ config.rows.toNat

theorem accepted_of_validate {config : KvConfig} (h : config.validate = .ok ()) : config.Accepted := by
  unfold validate at h
  split_ifs at h with hzero hlen
  simp only [not_or] at hzero
  obtain ⟨hrows, -, -, hscan, hrep, -⟩ := hzero
  exact ⟨UInt64.lt_iff_toNat_lt.2 (toNat_pos_of_ne hrows), Nat.pos_of_ne_zero hrep, toNat_pos_of_ne hscan,
    UInt64.le_iff_toNat_le.1 (UInt64.not_lt.1 hlen)⟩

theorem pointKeys_lt {config : KvConfig} (h : config.Accepted) : ∀ k ∈ config.pointKeys, k < config.rows :=
  Rng.draws_lt h.rows

/-- one more than the last start that leaves room for a whole range -/
theorem startBound_toNat {rows len : UInt64} (hpos : 0 < len.toNat) (hfit : len.toNat ≤ rows.toNat) :
    (rows - len + 1).toNat = rows.toNat - len.toNat + 1 := by
  have hsub := UInt64.toNat_sub_of_le rows len (UInt64.le_iff_toNat_le.2 hfit)
  have hrows := rows.toNat_lt
  rw [toNat_add_of_lt, hsub, UInt64.toNat_one]
  rw [hsub, UInt64.toNat_one]
  omega

/-- ranges from drawn starts end inside the loaded rows -/
theorem draws_start_le {rows len seed : UInt64} {count : ℕ} (hpos : 0 < len.toNat) (hfit : len.toNat ≤ rows.toNat) :
    ∀ start ∈ Rng.draws count (rows - len + 1) seed, start.toNat + len.toNat ≤ rows.toNat := by
  intro start hstart
  have hbound := startBound_toNat hpos hfit
  have hzero : 0 < rows - len + 1 := by
    rw [UInt64.lt_iff_toNat_lt, hbound]
    exact Nat.succ_pos _
  have hlt := Rng.draws_lt hzero start hstart
  rw [UInt64.lt_iff_toNat_lt, hbound] at hlt
  omega

theorem scanStarts_le {config : KvConfig} (h : config.Accepted) :
    ∀ start ∈ config.scanStarts, start.toNat + config.scanLength.toNat ≤ config.rows.toNat :=
  draws_start_le h.scanLength h.fits

end KvConfig

/-! ## Payloads -/

def textValue (key : UInt64) (payloadBytes : ℕ) : List UInt8 := Rng.printable (key ^^^ 0x517cc1b727220a95) payloadBytes

/-- `String::from_utf8` of a generated payload does not fail -/
theorem textValue_utf8 (key : UInt64) (payloadBytes : ℕ) : ∃ s, fromUtf8 (textValue key payloadBytes) = some s :=
  fromUtf8_ascii (Rng.printable_ascii _ _)

def fnv1a (bytes : List UInt8) : UInt64 :=
  bytes.foldl (fun hash byte => (hash ^^^ byte.toUInt64) * 0x100000001b3) 0xcbf29ce484222325

def valueChecksum (value : List UInt8) : UInt64 := fnv1a value

def textChecksum (key : UInt64) (value : List UInt8) : UInt64 := fnv1a value + key

/-! ## Result lines -/

/-- the fields of a result line that the cross-engine check reads -/
structure Line where
  operation : String
  repetition : ℕ
  checksum : UInt64
deriving DecidableEq, Repr

end WtBenchmarks.Kv
