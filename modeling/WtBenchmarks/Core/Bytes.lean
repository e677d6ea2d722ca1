/-
Byte strings: slices that stop where the index is out of range, little-endian words, and the bytes of a string.

- `leValue_leBytes`, `leBytes_leValue`: the little-endian words of a width are exactly its byte strings.
- `slice_append`, `slice_some`: a slice is the middle of a three-part split.
- `fromUtf8_asBytes`, `asBytes_fromUtf8`: strings are exactly the valid UTF-8 byte strings.
-/
import Mathlib.Tactic

namespace WtBenchmarks

/-! ## Slices -/

/-- `b[i..j]` -/
def slice (b : List UInt8) (i j : ℕ) : Option (List UInt8) :=
  if i ≤ j ∧ j ≤ b.length then some ((b.take j).drop i) else none

/-- `b[n..]` -/
def sliceFrom (b : List UInt8) (n : ℕ) : Option (List UInt8) := if n ≤ b.length then some (b.drop n) else none

theorem slice_append (pre mid post : List UInt8) {i j : ℕ} (hi : pre.length = i) (hj : i + mid.length = j) :
    slice (pre ++ mid ++ post) i j = some mid := by
  subst hi hj
  rw [slice, if_pos (by simp), List.take_append_of_le_length (by simp), List.take_of_length_le (by simp),
    List.drop_left]

theorem slice_some {b mid : List UInt8} {i j : ℕ} (h : slice b i j = some mid) :
    b = b.take i ++ mid ++ b.drop j ∧ i + mid.length = j ∧ j ≤ b.length := by
  unfold slice at h
  split_ifs at h with hle
  cases h
  have htake : b.take i = (b.take j).take i := by rw [List.take_take, Nat.min_eq_left hle.1]
  refine ⟨?_, ?_, hle.2⟩
  · rw [htake, List.take_append_drop, List.take_append_drop]
  · rw [List.length_drop, List.length_take]; omega

theorem sliceFrom_append (pre post : List UInt8) {n : ℕ} (h : pre.length = n) :
    sliceFrom (pre ++ post) n = some post := by
  subst h
  rw [sliceFrom, if_pos (by simp), List.drop_left]

theorem sliceFrom_some {b post : List UInt8} {n : ℕ} (h : sliceFrom b n = some post) :
    post = b.drop n ∧ n ≤ b.length := by
  unfold sliceFrom at h
  split_ifs at h with hle
  cases h
  exact ⟨rfl, hle⟩

/-! ## Little-endian words -/

/-- the `width` low bytes of `x`, lowest first -/
def leBytes : ℕ → ℕ → List UInt8
  | 0, _ => []
  | width + 1, x => UInt8.ofNat x :: leBytes width (x / 256)

def leValue : List UInt8 → ℕ
  | [] => 0
  | b :: bytes => b.toNat + 256 * leValue bytes

@[simp] theorem leBytes_length (width x : ℕ) : (leBytes width x).length = width := by
  induction width generalizing x with
  | zero => rfl
  | succ width ih => simp [leBytes, ih]

theorem leValue_lt (bytes : List UInt8) : leValue bytes < 256 ^ bytes.length := by
  induction bytes with
  | nil => simp [leValue]
  | cons b bytes ih =>
    have hb := b.toNat_lt
    simp only [leValue, List.length_cons, pow_succ]
    omega

theorem leValue_leBytes (width x : ℕ) : leValue (leBytes width x) = x % 256 ^ width := by
  induction width generalizing x with
  | zero => simp [leBytes, leValue, Nat.mod_one]
  | succ width ih =>
    have hpow : 256 ^ (width + 1) = 256 * 256 ^ width := pow_succ' 256 width
    rw [leBytes, leValue, ih, UInt8.toNat_ofNat', hpow, Nat.mod_mul]

theorem leBytes_leValue (bytes : List UInt8) : leBytes bytes.length (leValue bytes) = bytes := by
  induction bytes with
  | nil => rfl
  | cons b bytes ih =>
    have hb := b.toNat_lt
    have hdiv : (b.toNat + 256 * leValue bytes) / 256 = leValue bytes := by omega
    have hlow : UInt8.ofNat (b.toNat + 256 * leValue bytes) = b := by
      apply UInt8.toNat_inj.1
      rw [UInt8.toNat_ofNat']
      omega
    rw [List.length_cons, leValue, leBytes, hdiv, hlow, ih]

/-- a 64-bit word is its eight bytes -/
theorem word_leBytes (x : UInt64) : UInt64.ofNat (leValue (leBytes 8 x.toNat)) = x := by
  apply UInt64.toNat_inj.1
  rw [leValue_leBytes, UInt64.toNat_ofNat']
  have := x.toNat_lt
  omega

theorem leBytes_word {x : List UInt8} (h : x.length = 8) : leBytes 8 (UInt64.ofNat (leValue x)).toNat = x := by
  have hlt : leValue x < 2 ^ 64 := by
    have := leValue_lt x
    rwa [h] at this
  rw [UInt64.toNat_ofNat', Nat.mod_eq_of_lt hlt, ← h, leBytes_leValue]

/-! ## Strings -/

/-- `str::as_bytes` -/
def asBytes (s : String) : List UInt8 := s.toByteArray.data.toList

/-- `String::from_utf8` -/
def fromUtf8 (bytes : List UInt8) : Option String := String.fromUTF8? ⟨bytes.toArray⟩

@[simp] theorem asBytes_length (s : String) : (asBytes s).length = s.utf8ByteSize := by
  rw [asBytes, Array.length_toList]; rfl

theorem fromUtf8_asBytes (s : String) : fromUtf8 (asBytes s) = some s := by
  have hbytes : (⟨(asBytes s).toArray⟩ : ByteArray) = s.toByteArray := by simp [asBytes]
  rw [fromUtf8, hbytes, String.fromUTF8?, dif_pos s.isValidUTF8]
  rfl

theorem asBytes_fromUtf8 {bytes : List UInt8} {s : String} (h : fromUtf8 bytes = some s) : asBytes s = bytes := by
  simp only [fromUtf8, String.fromUTF8?] at h
  split_ifs at h with hvalid
  cases h
  rfl

theorem utf8EncodeChar_ascii {b : UInt8} (h : b < 128) : String.utf8EncodeChar (Char.ofNat b.toNat) = [b] := by
  have hlt : b.toNat < 128 := UInt8.lt_iff_toNat_lt.1 h
  have hvalid : b.toNat.isValidChar := Or.inl (by omega)
  have hval : (Char.ofNat b.toNat).val.toNat = b.toNat := by
    rw [Char.ofNat, dif_pos hvalid]
    rfl
  rw [String.utf8EncodeChar, hval, if_pos (by omega), UInt8.ofNat_toNat]

/-- the string of ASCII bytes -/
def asciiString (bytes : List UInt8) : String := String.ofList (bytes.map fun b => Char.ofNat b.toNat)

theorem utf8Encode_ascii {bytes : List UInt8} (h : ∀ b ∈ bytes, b < 128) :
    (bytes.map fun b => Char.ofNat b.toNat).flatMap String.utf8EncodeChar = bytes := by
  induction bytes with
  | nil => rfl
  | cons b l ih =>
    rw [List.map_cons, List.flatMap_cons, utf8EncodeChar_ascii (h b List.mem_cons_self),
      ih fun c hc => h c (List.mem_cons_of_mem b hc)]
    rfl

theorem asBytes_asciiString {bytes : List UInt8} (h : ∀ b ∈ bytes, b < 128) : asBytes (asciiString bytes) = bytes := by
  rw [asBytes, asciiString, String.toByteArray_ofList, List.utf8Encode, utf8Encode_ascii h, List.data_toByteArray]

/-- an ASCII byte string is the bytes of a string -/
theorem fromUtf8_ascii {bytes : List UInt8} (h : ∀ b ∈ bytes, b < 128) : ∃ s, fromUtf8 bytes = some s :=
  ⟨_, (congrArg fromUtf8 (asBytes_asciiString h)).symm.trans (fromUtf8_asBytes _)⟩

end WtBenchmarks
