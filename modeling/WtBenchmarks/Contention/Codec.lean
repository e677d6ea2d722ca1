/-
The row codec of the dynamic baseline (`encode`, `decode`, `campaigns/contention/src/dynamic.rs`).

A row is a list of tagged values; an `F64` is its 64-bit pattern. `encode` pushes tag, payload and, for a string, a
32-bit length that is truncated as the cast truncates it. `decode` is the source's loop, one turn of it `decodeTurn`;
every panic (an index past the end, invalid UTF-8, an unknown tag) is a `none`.

- `decodeTurn_encodeValue`: a turn undoes one encoded value.
- `decodeTurn_some`: a turn that does not panic consumed the encoding of the value it pushed.
- `codec_exact`: the round trips in both directions, and the termination of the loop.
-/
import WtBenchmarks.Core.Bytes

namespace WtBenchmarks.Contention

/-! ## Model -/

inductive Value where
  | u64 (x : UInt64)
  | f64 (bits : UInt64)
  | str (s : String)
deriving DecidableEq

/-- one turn of the loop of `encode` -/
def encodeValue (out : List UInt8) : Value → List UInt8
  | .u64 x => out ++ [0] ++ leBytes 8 x.toNat
  | .f64 x => out ++ [1] ++ leBytes 8 x.toNat
  | .str s => out ++ [2] ++ leBytes 4 (s.utf8ByteSize % 2 ^ 32) ++ asBytes s

def encode (row : List Value) : List UInt8 := row.foldl encodeValue []

/-- the variables of the loop of `decode` -/
structure Decoding where
  b : List UInt8
  row : List Value
deriving DecidableEq

/-- the arm of the two eight-byte tags -/
def decodeWord (make : UInt64 → Value) (d : Decoding) : Option Decoding := do
  let x ← slice d.b 1 9
  let b ← sliceFrom d.b 9
  some ⟨b, d.row ++ [make (UInt64.ofNat (leValue x))]⟩

/-- the arm of the string tag -/
def decodeStr (d : Decoding) : Option Decoding := do
  let x ← slice d.b 1 5
  let n := leValue x
  let bytes ← slice d.b 5 (5 + n)
  let s ← fromUtf8 bytes
  let b ← sliceFrom d.b (5 + n)
  some ⟨b, d.row ++ [.str s]⟩

/-- one turn of the loop; with no bytes left the loop has ended and the turn does nothing -/
def decodeTurn (d : Decoding) : Option Decoding :=
  match d.b with
  | [] => some d
  | tag :: _ =>
    if tag = 0 then decodeWord .u64 d
    else if tag = 1 then decodeWord .f64 d
    else if tag = 2 then decodeStr d
    else none

/-- `n` turns of the loop -/
def decodeTurns : ℕ → Decoding → Option Decoding
  | 0, d => some d
  | n + 1, d => (decodeTurn d).bind (decodeTurns n)

/-- as many turns as there are bytes are enough (`decodeTurns_ends`) -/
def decode (b : List UInt8) : Option (List Value) := (decodeTurns b.length ⟨b, []⟩).map Decoding.row

/-! ## One value -/

/-- the bytes of one value -/
def valueBytes (v : Value) : List UInt8 := encodeValue [] v

theorem encodeValue_eq (out : List UInt8) (v : Value) : encodeValue out v = out ++ valueBytes v := by
  cases v <;> simp [valueBytes, encodeValue]

theorem foldl_encodeValue (out : List UInt8) (row : List Value) :
    row.foldl encodeValue out = out ++ row.flatMap valueBytes := by
  induction row generalizing out with
  | nil => simp
  | cons v row ih => rw [List.foldl_cons, ih, encodeValue_eq, List.flatMap_cons, List.append_assoc]

theorem encode_eq (row : List Value) : encode row = row.flatMap valueBytes := by
  rw [encode, foldl_encodeValue, List.nil_append]

/-- the strings the 32-bit length can express -/
def Value.Short : Value → Prop
  | .str s => s.utf8ByteSize < 2 ^ 32
  | _ => True

theorem decodeWord_append (make : UInt64 → Value) (tag : UInt8) (x : UInt64) (rest : List UInt8) (row : List Value) :
    decodeWord make ⟨tag :: (leBytes 8 x.toNat ++ rest), row⟩ = some ⟨rest, row ++ [make x]⟩ := by
  have hx : slice (tag :: (leBytes 8 x.toNat ++ rest)) 1 9 = some (leBytes 8 x.toNat) :=
    slice_append [tag] _ rest rfl (by simp)
  have hr : sliceFrom (tag :: (leBytes 8 x.toNat ++ rest)) 9 = some rest :=
    sliceFrom_append (tag :: leBytes 8 x.toNat) rest (by simp)
  simp [decodeWord, hx, hr, word_leBytes]

theorem decodeStr_append (tag : UInt8) (s : String) (hs : s.utf8ByteSize < 2 ^ 32) (rest : List UInt8)
    (row : List Value) :
    decodeStr ⟨tag :: (leBytes 4 s.utf8ByteSize ++ (asBytes s ++ rest)), row⟩ = some ⟨rest, row ++ [.str s]⟩ := by
  have hx : slice (tag :: (leBytes 4 s.utf8ByteSize ++ (asBytes s ++ rest))) 1 5 = some (leBytes 4 s.utf8ByteSize) :=
    slice_append [tag] _ (asBytes s ++ rest) rfl (by simp)
  have hn : leValue (leBytes 4 s.utf8ByteSize) = s.utf8ByteSize := by
    rw [leValue_leBytes]
    exact Nat.mod_eq_of_lt hs
  have hbytes : slice (tag :: (leBytes 4 s.utf8ByteSize ++ (asBytes s ++ rest))) 5 (5 + s.utf8ByteSize) =
      some (asBytes s) := by
    rw [← List.append_assoc]
    exact slice_append (tag :: leBytes 4 s.utf8ByteSize) (asBytes s) rest (by simp) (by simp)
  have hr : sliceFrom (tag :: (leBytes 4 s.utf8ByteSize ++ (asBytes s ++ rest))) (5 + s.utf8ByteSize) = some rest := by
    rw [← List.append_assoc]
    exact sliceFrom_append (tag :: (leBytes 4 s.utf8ByteSize ++ asBytes s)) rest (by simp; omega)
  simp [decodeStr, hx, hn, hbytes, hr, fromUtf8_asBytes]

/-- **A turn undoes one encoded value.** -/
theorem decodeTurn_encodeValue (v : Value) (hv : v.Short) (rest : List UInt8) (row : List Value) :
    decodeTurn ⟨valueBytes v ++ rest, row⟩ = some ⟨rest, row ++ [v]⟩ := by
  cases v with
  | u64 x => exact decodeWord_append .u64 0 x rest row
  | f64 x => exact decodeWord_append .f64 1 x rest row
  | str s =>
    have hv' : s.utf8ByteSize < 2 ^ 32 := hv
    have hb : valueBytes (.str s) ++ rest = 2 :: (leBytes 4 s.utf8ByteSize ++ (asBytes s ++ rest)) := by
      rw [valueBytes, encodeValue, Nat.mod_eq_of_lt hv']
      simp
    rw [hb]
    exact decodeStr_append 2 s hv rest row

theorem decodeWord_some {make : UInt64 → Value} {tag : UInt8} {tail : List UInt8} {row : List Value} {d' : Decoding}
    (h : decodeWord make ⟨tag :: tail, row⟩ = some d') :
    ∃ x, tag :: tail = tag :: (leBytes 8 x.toNat ++ d'.b) ∧ d'.row = row ++ [make x] := by
  simp only [decodeWord, Option.bind_eq_bind, Option.bind_eq_some_iff, Option.some.injEq] at h
  obtain ⟨x, hx, b, hb, rfl⟩ := h
  obtain ⟨hsplit, hlen, -⟩ := slice_some hx
  refine ⟨UInt64.ofNat (leValue x), ?_, rfl⟩
  rw [leBytes_word (by omega), (sliceFrom_some hb).1]
  exact hsplit

theorem decodeStr_some {tag : UInt8} {tail : List UInt8} {row : List Value} {d' : Decoding}
    (h : decodeStr ⟨tag :: tail, row⟩ = some d') :
    ∃ s : String, s.utf8ByteSize < 2 ^ 32 ∧
      tag :: tail = tag :: (leBytes 4 s.utf8ByteSize ++ (asBytes s ++ d'.b)) ∧ d'.row = row ++ [.str s] := by
  simp only [decodeStr, Option.bind_eq_bind, Option.bind_eq_some_iff, Option.some.injEq] at h
  obtain ⟨x, hx, bytes, hbytes, s, hs, b, hb, rfl⟩ := h
  obtain ⟨hsplit, hlen, -⟩ := slice_some hx
  obtain ⟨hsplit', hlen', -⟩ := slice_some hbytes
  have hn : s.utf8ByteSize = leValue x := by rw [← asBytes_length, asBytes_fromUtf8 hs]; omega
  have hlt := leValue_lt x
  have hx4 : x.length = 4 := by omega
  rw [hx4] at hlt
  have hword : leBytes 4 (leValue x) = x := by rw [← hx4, leBytes_leValue]
  have htake : (tag :: tail).take 5 = tag :: x := by
    have hhead : tag :: tail = tag :: x ++ (tag :: tail).drop 5 := hsplit
    have := congrArg (List.take 5) hhead
    rwa [List.take_left' (by simp [hx4])] at this
  refine ⟨s, by omega, ?_, rfl⟩
  rw [hn, hword, asBytes_fromUtf8 hs, (sliceFrom_some hb).1]
  rw [htake, List.append_assoc] at hsplit'
  exact hsplit'

/-- **A turn that returns consumed exactly one encoded value**, and one that the encoder can express. -/
theorem decodeTurn_some {tag : UInt8} {tail : List UInt8} {row : List Value} {d' : Decoding}
    (h : decodeTurn ⟨tag :: tail, row⟩ = some d') :
    ∃ v, v.Short ∧ tag :: tail = valueBytes v ++ d'.b ∧ d'.row = row ++ [v] := by
  simp only [decodeTurn] at h
  split_ifs at h with h0 h1 h2
  · subst h0
    obtain ⟨x, hb, hrow⟩ := decodeWord_some h
    exact ⟨.u64 x, trivial, hb, hrow⟩
  · subst h1
    obtain ⟨x, hb, hrow⟩ := decodeWord_some h
    exact ⟨.f64 x, trivial, hb, hrow⟩
  · subst h2
    obtain ⟨s, hs, hb, hrow⟩ := decodeStr_some h
    refine ⟨.str s, hs, ?_, hrow⟩
    rw [hb, valueBytes, encodeValue, Nat.mod_eq_of_lt hs]
    simp

/-! ## The whole loop -/

theorem valueBytes_ne_nil (v : Value) : valueBytes v ≠ [] := by cases v <;> simp [valueBytes, encodeValue]

theorem decodeTurn_nil (row : List Value) : decodeTurn ⟨[], row⟩ = some ⟨[], row⟩ := rfl

/-- the loop over the encoding of a row, in at least as many turns as it has values -/
theorem decodeTurns_encode (row : List Value) (hrow : ∀ v ∈ row, v.Short) (n : ℕ) (hn : row.length ≤ n)
    (done : List Value) : decodeTurns n ⟨row.flatMap valueBytes, done⟩ = some ⟨[], done ++ row⟩ := by
  induction n generalizing row done with
  | zero =>
    rw [List.length_eq_zero_iff.1 (Nat.le_zero.1 hn)]
    simp [decodeTurns]
  | succ n ih =>
    cases row with
    | nil =>
      rw [List.flatMap_nil, decodeTurns, decodeTurn_nil, Option.bind_some]
      exact ih [] (by simp) (by simp) done
    | cons v row =>
      have hv : v.Short := hrow v List.mem_cons_self
      rw [List.flatMap_cons, decodeTurns, decodeTurn_encodeValue v hv, Option.bind_some]
      rw [ih row (fun w hw => hrow w (List.mem_cons_of_mem v hw)) (by simpa using hn)]
      simp

/-- as many turns as there are bytes: the loop has panicked, or it has ended with all bytes consumed, and they were
the encoding of the row -/
theorem decodeTurns_ends (n : ℕ) (b : List UInt8) (hn : b.length ≤ n) (done : List Value) :
    decodeTurns n ⟨b, done⟩ = none ∨
      ∃ row, b = row.flatMap valueBytes ∧ decodeTurns n ⟨b, done⟩ = some ⟨[], done ++ row⟩ := by
  induction n generalizing b done with
  | zero =>
    refine Or.inr ⟨[], ?_, ?_⟩
    · simpa using hn
    · simp [decodeTurns, List.length_eq_zero_iff.1 (Nat.le_zero.1 hn)]
  | succ n ih =>
    cases b with
    | nil =>
      rw [decodeTurns, decodeTurn_nil, Option.bind_some]
      exact ih [] (by simp) done
    | cons tag tail =>
      rw [decodeTurns]
      cases ht : decodeTurn ⟨tag :: tail, done⟩ with
      | none => exact Or.inl rfl
      | some d' =>
        obtain ⟨v, -, hb, hrow⟩ := decodeTurn_some ht
        have hlen : d'.b.length ≤ n := by
          have hpos : 0 < (valueBytes v).length := List.length_pos_iff.2 (valueBytes_ne_nil v)
          have := congrArg List.length hb
          rw [List.length_append] at this
          omega
        rw [Option.bind_some]
        rcases ih d'.b hlen d'.row with h | ⟨row, hrest, h⟩
        · exact Or.inl h
        · refine Or.inr ⟨v :: row, ?_, ?_⟩
          · rw [hb, List.flatMap_cons, hrest]
          · rw [h, hrow, List.append_assoc, List.singleton_append]

theorem length_le_encode (row : List Value) : row.length ≤ (row.flatMap valueBytes).length := by
  induction row with
  | nil => simp
  | cons v row ih =>
    have hpos : 0 < (valueBytes v).length := List.length_pos_iff.2 (valueBytes_ne_nil v)
    rw [List.flatMap_cons, List.length_append, List.length_cons]
    omega

/-- what `decode` returns was encoded in its input -/
theorem decode_some {bytes : List UInt8} {row : List Value} (h : decode bytes = some row) :
    bytes = row.flatMap valueBytes ∧ decodeTurns bytes.length ⟨bytes, []⟩ = some ⟨[], row⟩ := by
  rcases decodeTurns_ends bytes.length bytes le_rfl [] with hp | ⟨row', hb, hd⟩
  · rw [decode, hp] at h
    cases h
  · rw [decode, hd] at h
    cases h
    exact ⟨hb, hd⟩

/-- decoding undoes encoding -/
theorem decode_encode {row : List Value} (hrow : ∀ v ∈ row, v.Short) : decode (encode row) = some row := by
  rw [encode_eq, decode, decodeTurns_encode row hrow _ (length_le_encode row)]
  rfl

/-- **The row codec is exact.** Decoding undoes encoding for every row whose strings the length word can express; what
decodes was encoded, byte for byte; and the loop panics or ends with every byte consumed, within as many turns as there
are bytes. -/
theorem codec_exact :
    (∀ row : List Value, (∀ s, Value.str s ∈ row → s.utf8ByteSize < 2 ^ 32) → decode (encode row) = some row) ∧
    (∀ bytes row, decode bytes = some row → encode row = bytes) ∧
    ∀ bytes, (∃ n ≤ bytes.length, decodeTurns n ⟨bytes, []⟩ = none) ∨
      ∃ n ≤ bytes.length, ∃ row, decodeTurns n ⟨bytes, []⟩ = some ⟨[], row⟩ ∧ decode bytes = some row := by
  refine ⟨fun row hrow => ?_, fun bytes row h => ?_, fun bytes => ?_⟩
  · have hshort : ∀ v ∈ row, v.Short := by
      intro v hv
      cases v with
      | str s => exact hrow s hv
      | _ => trivial
    exact decode_encode hshort
  · rw [encode_eq]
    exact (decode_some h).1.symm
  · rcases decodeTurns_ends bytes.length bytes le_rfl [] with hp | ⟨row, -, hd⟩
    · exact Or.inl ⟨_, le_rfl, hp⟩
    · exact Or.inr ⟨_, le_rfl, row, hd, by rw [decode, hd]; rfl⟩

end WtBenchmarks.Contention
