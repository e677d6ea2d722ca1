/-
The TATP tables (`src/bin/tatp-worktable.rs`): rows, packed keys, and the four tables with their indexes.

Rows have the source's columns; a fixed-size array of a column is the list of its values. A table is a map under its
primary key, the subscriber table with a unique index on `sub_nbr`, the call-forwarding table with an index on
`facility`. Keys are 128 bits wide.

- `facilityKey_inj`, `callForwardingKey_inj`: the packed keys determine what is packed;
- `subscriberNumber_injective`: so does the 15-digit number.
-/
import WtBenchmarks.Core.Decimal
import WtBenchmarks.Core.GroupTable
import WtBenchmarks.Core.UniqueTable
import WtBenchmarks.Core.Word

namespace WtBenchmarks.Tatp

/-! ## Keys -/

abbrev Key := BitVec 128

instance : Std.TransOrd Key := inferInstanceAs (Std.TransOrd (BitVec 128))

instance : Std.LawfulEqOrd Key := inferInstanceAs (Std.LawfulEqOrd (BitVec 128))

def facilityKey (sId : UInt64) (sfType : UInt8) : Key :=
  (BitVec.ofNat 128 sId.toNat <<< 8) ||| BitVec.ofNat 128 sfType.toNat

def callForwardingKey (sId : UInt64) (sfType startTime : UInt8) : Key :=
  (facilityKey sId sfType <<< 8) ||| BitVec.ofNat 128 startTime.toNat

/-- `format!("{s_id:015}")` -/
def subscriberNumber (sId : UInt64) : String := zeroPadded 15 sId.toNat

/-- a byte shifted in below a number that leaves room for it -/
theorem shift_or_toNat (k : Key) (b : UInt8) (hk : k.toNat < 2 ^ 120) :
    ((k <<< 8) ||| BitVec.ofNat 128 b.toNat).toNat = k.toNat * 256 + b.toNat := by
  have hb := b.toNat_lt
  rw [BitVec.toNat_or, BitVec.toNat_shiftLeft, BitVec.toNat_ofNat, Nat.mod_eq_of_lt (a := b.toNat) (by omega),
    Nat.shiftLeft_eq, Nat.mod_eq_of_lt (by omega), ← Nat.shiftLeft_eq, ← Nat.shiftLeft_add_eq_or_of_lt (by omega),
    Nat.shiftLeft_eq]

theorem facilityKey_toNat (sId : UInt64) (sfType : UInt8) :
    (facilityKey sId sfType).toNat = sId.toNat * 256 + sfType.toNat := by
  have hs := sId.toNat_lt
  have hk : (BitVec.ofNat 128 sId.toNat).toNat = sId.toNat := by
    rw [BitVec.toNat_ofNat, Nat.mod_eq_of_lt (by omega)]
  unfold facilityKey
  rw [shift_or_toNat _ _ (by omega), hk]

theorem callForwardingKey_toNat (sId : UInt64) (sfType startTime : UInt8) :
    (callForwardingKey sId sfType startTime).toNat = (sId.toNat * 256 + sfType.toNat) * 256 + startTime.toNat := by
  have hs := sId.toNat_lt
  have ht := sfType.toNat_lt
  have hk := facilityKey_toNat sId sfType
  unfold callForwardingKey
  rw [shift_or_toNat _ _ (by omega), hk]

/-- **Facility keys are packed without loss.** -/
theorem facilityKey_inj {s s' : UInt64} {t t' : UInt8} (h : facilityKey s t = facilityKey s' t') : s = s' ∧ t = t' := by
  have hnat := congrArg BitVec.toNat h
  have ht := t.toNat_lt
  have ht' := t'.toNat_lt
  rw [facilityKey_toNat, facilityKey_toNat] at hnat
  exact ⟨UInt64.toNat_inj.1 (by omega), UInt8.toNat_inj.1 (by omega)⟩

/-- **Call-forwarding keys are packed without loss.** -/
theorem callForwardingKey_inj {s s' : UInt64} {t t' u u' : UInt8}
    (h : callForwardingKey s t u = callForwardingKey s' t' u') : s = s' ∧ t = t' ∧ u = u' := by
  have hnat := congrArg BitVec.toNat h
  have ht := t.toNat_lt
  have ht' := t'.toNat_lt
  have hu := u.toNat_lt
  have hu' := u'.toNat_lt
  rw [callForwardingKey_toNat, callForwardingKey_toNat] at hnat
  exact ⟨UInt64.toNat_inj.1 (by omega), UInt8.toNat_inj.1 (by omega), UInt8.toNat_inj.1 (by omega)⟩

theorem subscriberNumber_injective : Function.Injective subscriberNumber := fun _ _ h =>
  UInt64.toNat_inj.1 (zeroPadded_injective 15 h)

/-! ## Rows -/

structure SubscriberRow where
  sId : UInt64
  subNbr : String
  bit1 : UInt8
  bitRest : List UInt8
  hexValues : List UInt8
  byte2Values : List UInt16
  mscLocation : UInt32
  vlrLocation : UInt32
deriving DecidableEq, Repr

structure AccessInfoRow where
  id : Key
  sId : UInt64
  aiType : UInt8
  data1 : UInt16
  data2 : UInt16
  data3 : String
  data4 : String
deriving DecidableEq, Repr

structure SpecialFacilityRow where
  id : Key
  sId : UInt64
  sfType : UInt8
  isActive : UInt8
  errorControl : UInt16
  dataA : UInt16
  dataB : String
deriving DecidableEq, Repr

structure CallForwardingRow where
  id : Key
  sId : UInt64
  sfType : UInt8
  startTime : UInt8
  facility : Key
  endTime : UInt8
  numberx : String
deriving DecidableEq, Repr

/-! ## Tables -/

structure Tables where
  subscribers : UniqueTable UInt64 String SubscriberRow SubscriberRow.subNbr
  accessInfo : Std.ExtTreeMap Key AccessInfoRow
  specialFacilities : Std.ExtTreeMap Key SpecialFacilityRow
  callForwarding : GroupTable Key Key CallForwardingRow CallForwardingRow.facility

def Tables.default : Tables := ⟨UniqueTable.empty _, ∅, ∅, GroupTable.empty _⟩

structure Config where
  subscribers : UInt64
  operations : UInt64
  threads : ℕ
  repetitions : ℕ
  sampleEvery : UInt64
  seed : UInt64

/-- the checks on parsed arguments -/
def Config.check (config : Config) : Except String Unit :=
  if config.subscribers = 0 ∨ config.operations = 0 ∨ config.threads = 0 ∨ config.repetitions = 0 ∨
      config.sampleEvery = 0 then
    .error "counts, threads, repetitions, and sampling interval must be non-zero"
  else if config.subscribers > 999999999999999 then
    .error "--subscribers must fit TATP's 15-digit subscriber number"
  else .ok ()

/-- what an accepted configuration guarantees -/
structure Config.Accepted (config : Config) : Prop where
  subscribers : 0 < config.subscribers
  threads : 0 < config.threads
  fits : config.subscribers.toNat < 10 ^ 15

theorem Config.accepted_of_check {config : Config} (h : config.check = .ok ()) : config.Accepted := by
  unfold check at h
  split_ifs at h with hzero hmax
  simp only [not_or] at hzero
  rcases hzero with ⟨hsubscribers, -, hthreads, -, -⟩
  have hbound := UInt64.le_iff_toNat_le.1 (UInt64.not_lt.1 hmax)
  have hvalue : (999999999999999 : UInt64).toNat = 999999999999999 := rfl
  refine ⟨UInt64.lt_iff_toNat_lt.2 (toNat_pos_of_ne hsubscribers), Nat.pos_of_ne_zero hthreads, by omega⟩

end WtBenchmarks.Tatp
