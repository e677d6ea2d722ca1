/-
The three engines of the embedded-JSON workload (`src/kv_json.rs`): typed rows in a WorkTable, and one JSON document per
key in redb and in LMDB.

A panic (`expect`, `unwrap`) is `none`. The stores are maps; transactions, durability settings and map sizes are left
out. `serde_json` is a parameter. So is the order in which a WorkTable index lists the rows, since the driver is
generated for three indexes; redb lists its documents in key order, LMDB in the order of the native-endian key bytes.

- `Account`: the record, the same in every engine;
- `WtDoc`, `RedbJson`, `LmdbJson`: the drivers;
- `Driver.run`: a load followed by calls.
-/
import WtBenchmarks.Core.Bytes
import WtBenchmarks.Core.Decimal
import Std.Data.ExtTreeMap

namespace WtBenchmarks.KvJson

/-! ## The record -/

structure Account where
  id : UInt64
  name : String
  email : String
  age : UInt32
  /-- the bits of an `f64` -/
  balance : UInt64
  active : Bool
deriving DecidableEq

namespace Account

/-- the record of key `k` -/
def make (k : UInt64) : Account where
  id := k
  name := "user-" ++ zeroPadded 8 k.toNat
  email := "user" ++ toString k.toNat ++ "@example.test"
  age := 18 + (k % 60).toUInt32
  balance := (k.toFloat * 1.5).toBits
  active := k % 2 = 0

def checksum (a : Account) : UInt64 :=
  let s := a.id
  let s := s + a.name.utf8ByteSize.toUInt64
  let s := s + a.email.utf8ByteSize.toUInt64
  let s := s + a.age.toUInt64
  let s := s + (Float.ofBits a.balance).toUInt64
  s + a.active.toUInt64

end Account

/-- the balance an update of key `k` writes -/
def newBalance (k : UInt64) : UInt64 := (k.toFloat * 2.25).toBits

/-! ## Drivers -/

/-- the operations of an engine over stores `S`, and the account it reads under a key -/
structure Driver (S : Type) where
  load : UInt64 → Option S
  insert : S → UInt64 → Option S
  select : S → UInt64 → Option Account
  pointGetChecksum : S → List UInt64 → Option UInt64
  updateBalance : S → List UInt64 → Option S
  queryActiveOverAgeChecksum : S → UInt32 → Option UInt64

/-! ## WorkTable -/

structure AccountDocRow where
  id : UInt64
  name : String
  email : String
  age : UInt32
  balance : UInt64
  active : Bool

def AccountDocRow.account (r : AccountDocRow) : Account :=
  ⟨r.id, r.name, r.email, r.age, r.balance, r.active⟩

abbrev AccountDocWorkTable := Std.ExtTreeMap UInt64 AccountDocRow

/-- the order of `select_all`: it lists each row once -/
structure SelectAll where
  rows : AccountDocWorkTable → List AccountDocRow
  perm : ∀ t, (rows t).Perm (t.toList.map Prod.snd)

namespace WtDoc

/-- an insert of a key in use is an error, which `expect` turns into a panic -/
def insert (t : AccountDocWorkTable) (k : UInt64) : Option AccountDocWorkTable :=
  let a := Account.make k
  if a.id ∈ t then none else some (t.insert a.id ⟨a.id, a.name, a.email, a.age, a.balance, a.active⟩)

def load (rows : UInt64) : Option AccountDocWorkTable :=
  (List.range rows.toNat).foldlM (fun t k => insert t (UInt64.ofNat k)) ∅

def select (t : AccountDocWorkTable) (k : UInt64) : Option Account := do
  let r ← t[k]?
  some r.account

def pointGetChecksum (t : AccountDocWorkTable) (keys : List UInt64) : Option UInt64 :=
  keys.foldlM (fun acc k => do
    let a ← select t k
    some (acc + a.checksum)) 0

/-- one typed column is written in place -/
def updateBalance (t : AccountDocWorkTable) (keys : List UInt64) : Option AccountDocWorkTable :=
  keys.foldlM (fun t k => do
    let r ← t[k]?
    some (t.insert k { r with balance := newBalance k })) t

def queryActiveOverAgeChecksum (all : SelectAll) (t : AccountDocWorkTable) (minAge : UInt32) : Option UInt64 :=
  some (((all.rows t).filter fun r => r.active && decide (minAge ≤ r.age)).foldl (fun acc r => acc + r.id) 0)

end WtDoc

def WtDoc (all : SelectAll) : Driver AccountDocWorkTable where
  load := WtDoc.load
  insert := WtDoc.insert
  select := WtDoc.select
  pointGetChecksum := WtDoc.pointGetChecksum
  updateBalance := WtDoc.updateBalance
  queryActiveOverAgeChecksum := WtDoc.queryActiveOverAgeChecksum all

/-! ## JSON documents -/

/-- `serde_json::to_vec` and `serde_json::from_slice` -/
structure SerdeJson (Blob : Type) where
  toVec : Account → Option Blob
  fromSlice : Blob → Option Account

/-- how a store writes a key, and how it reads one back while it iterates -/
structure KeyCodec (κ : Type) where
  encode : UInt64 → κ
  decode : κ → Option UInt64
  decode_encode : ∀ k, decode (encode k) = some k

theorem KeyCodec.encode_injective {κ : Type} (codec : KeyCodec κ) : Function.Injective codec.encode := by
  intro a b h
  have hdecode := congrArg codec.decode h
  rwa [codec.decode_encode, codec.decode_encode, Option.some_inj] at hdecode

namespace Document

variable {Blob κ : Type} [Ord κ] [Std.TransOrd κ] (serde : SerdeJson Blob) (codec : KeyCodec κ)

def put (t : Std.ExtTreeMap κ Blob) (k : UInt64) (a : Account) : Option (Std.ExtTreeMap κ Blob) := do
  let bytes ← serde.toVec a
  some (t.insert (codec.encode k) bytes)

/-- the whole document of a key is parsed -/
def get (t : Std.ExtTreeMap κ Blob) (k : UInt64) : Option Account := do
  let v ← t[codec.encode k]?
  serde.fromSlice v

def insert (t : Std.ExtTreeMap κ Blob) (k : UInt64) : Option (Std.ExtTreeMap κ Blob) :=
  put serde codec t k (Account.make k)

def load (rows : UInt64) : Option (Std.ExtTreeMap κ Blob) :=
  (List.range rows.toNat).foldlM (fun t k => insert serde codec t (UInt64.ofNat k)) ∅

def pointGetChecksum (t : Std.ExtTreeMap κ Blob) (keys : List UInt64) : Option UInt64 :=
  keys.foldlM (fun acc k => do
    let a ← get serde codec t k
    some (acc + a.checksum)) 0

/-- each update parses the document, changes one field and writes the whole document back -/
def updateBalance (t : Std.ExtTreeMap κ Blob) (keys : List UInt64) : Option (Std.ExtTreeMap κ Blob) :=
  keys.foldlM (fun t k => do
    let a ← get serde codec t k
    put serde codec t k { a with balance := newBalance k }) t

def queryActiveOverAgeChecksum (t : Std.ExtTreeMap κ Blob) (minAge : UInt32) : Option UInt64 :=
  t.toList.foldlM (fun acc row => do
    let _ ← codec.decode row.1
    let a ← serde.fromSlice row.2
    some (if a.active && decide (minAge ≤ a.age) then acc + a.id else acc)) 0

def driver : Driver (Std.ExtTreeMap κ Blob) where
  load := load serde codec
  insert := insert serde codec
  select := get serde codec
  pointGetChecksum := pointGetChecksum serde codec
  updateBalance := updateBalance serde codec
  queryActiveOverAgeChecksum := queryActiveOverAgeChecksum serde codec

end Document

/-! ## redb and LMDB -/

/-- `TableDefinition<u64, &[u8]>` -/
def redbKeys : KeyCodec UInt64 := ⟨id, some, fun _ => rfl⟩

def RedbJson {Blob : Type} (serde : SerdeJson Blob) : Driver (Std.ExtTreeMap UInt64 Blob) :=
  Document.driver serde redbKeys

inductive NativeEndian where
  | little
  | big

namespace NativeEndian

def encode : NativeEndian → UInt64 → List UInt8
  | little, k => leBytes 8 k.toNat
  | big, k => (leBytes 8 k.toNat).reverse

def decode (e : NativeEndian) (key : List UInt8) : Option UInt64 :=
  if key.length = 8 then
    match e with
    | little => some (UInt64.ofNat (leValue key))
    | big => some (UInt64.ofNat (leValue key.reverse))
  else none

theorem decode_encode (e : NativeEndian) (k : UInt64) : e.decode (e.encode k) = some k := by
  cases e with
  | little => simp [decode, encode, word_leBytes]
  | big => simp [decode, encode, word_leBytes]

end NativeEndian

/-- `Database<U64<NativeEndian>, Bytes>` -/
def lmdbKeys (e : NativeEndian) : KeyCodec (List UInt8) := ⟨e.encode, e.decode, e.decode_encode⟩

def LmdbJson {Blob : Type} (serde : SerdeJson Blob) (e : NativeEndian) : Driver (Std.ExtTreeMap (List UInt8) Blob) :=
  Document.driver serde (lmdbKeys e)

/-! ## Runs -/

inductive Call where
  | insert (k : UInt64)
  | updateBalance (keys : List UInt64)
  | pointGetChecksum (keys : List UInt64)
  | queryActiveOverAgeChecksum (minAge : UInt32)

namespace Driver

variable {S : Type} (d : Driver S)

/-- the store after a call, and the checksum it returns -/
def call (s : S) : Call → Option (S × Option UInt64)
  | .insert k => do
    let s ← d.insert s k
    some (s, none)
  | .updateBalance keys => do
    let s ← d.updateBalance s keys
    some (s, none)
  | .pointGetChecksum keys => do
    let c ← d.pointGetChecksum s keys
    some (s, some c)
  | .queryActiveOverAgeChecksum minAge => do
    let c ← d.queryActiveOverAgeChecksum s minAge
    some (s, some c)

def calls (s : S) : List Call → Option (S × List (Option UInt64))
  | [] => some (s, [])
  | c :: cs => do
    let (s, answer) ← d.call s c
    let (s, answers) ← calls s cs
    some (s, answer :: answers)

def run (rows : UInt64) (cs : List Call) : Option (S × List (Option UInt64)) := do
  let s ← d.load rows
  d.calls s cs

end Driver

end WtBenchmarks.KvJson
