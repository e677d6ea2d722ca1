/-
JSON values, and what derived serializers and deserializers make of them.

A number is an unsigned integer or a 64-bit float pattern. A float that is not finite serializes as `null`; which
float a printed one is read as depends on the parser, and is a parameter. A derived deserializer takes an object,
ignores the fields it does not know, refuses a field that occurs twice, and reads an absent field as `none` where its
type is an option and refuses it otherwise.

- `asU64_ofU64`, `asU32_ofU32`, `asF64_ofFloat`, `asOption_ofOption`: what a serializer writes, its deserializer reads.
- `required_missing`: an absent field that is not an option is refused.
-/
import Mathlib.Tactic

namespace WtBenchmarks

inductive Json where
  | null
  | bool (b : Bool)
  | nat (n : ℕ)
  | float (bits : UInt64)
  | str (s : String)
  | obj (fields : List (String × Json))

namespace Json

/-! ## Serializing -/

/-- the exponent of a float pattern is not all ones -/
def finite (bits : UInt64) : Bool := (bits >>> 52) &&& 0x7ff != 0x7ff

def ofFloat (bits : UInt64) : Json := if finite bits then .float bits else .null

def ofOption {α : Type} (f : α → Json) : Option α → Json
  | none => .null
  | some a => f a

def ofU64 (x : UInt64) : Json := .nat x.toNat

def ofU32 (x : UInt32) : Json := .nat x.toNat

/-! ## Deserializing -/

def asBool : Json → Option Bool
  | .bool b => some b
  | _ => none

def asString : Json → Option String
  | .str s => some s
  | _ => none

def asU64 : Json → Option UInt64
  | .nat n => if n < 2 ^ 64 then some (UInt64.ofNat n) else none
  | _ => none

def asU32 : Json → Option UInt32
  | .nat n => if n < 2 ^ 32 then some (UInt32.ofNat n) else none
  | _ => none

/-- an integer is read as the nearest float -/
def asF64 (parse : UInt64 → UInt64) : Json → Option UInt64
  | .float bits => some (parse bits)
  | .nat n => if n < 2 ^ 64 then some (UInt64.ofNat n).toFloat.toBits else none
  | _ => none

def asOption {α : Type} (f : Json → Option α) : Json → Option (Option α)
  | .null => some none
  | v => some <$> f v

/-- the values of a field, in order -/
def values (fields : List (String × Json)) (name : String) : List Json :=
  fields.filterMap fun field => if field.1 = name then some field.2 else none

/-- a field that is not an option -/
def requiredField {α : Type} (fields : List (String × Json)) (name : String) (f : Json → Option α) : Option α :=
  match values fields name with
  | [v] => f v
  | _ => none

/-- a field that is an option -/
def optionalField {α : Type} (fields : List (String × Json)) (name : String) (f : Json → Option α) :
    Option (Option α) :=
  match values fields name with
  | [] => some none
  | [v] => asOption f v
  | _ => none

variable {α : Type}

theorem required_missing {fields : List (String × Json)} {name : String} (f : Json → Option α)
    (h : values fields name = []) : requiredField fields name f = none := by
  rw [requiredField, h]

theorem asU64_ofU64 (x : UInt64) : asU64 (ofU64 x) = some x := by
  rw [ofU64, asU64, if_pos x.toNat_lt, UInt64.ofNat_toNat]

theorem asU32_ofU32 (x : UInt32) : asU32 (ofU32 x) = some x := by
  rw [ofU32, asU32, if_pos x.toNat_lt, UInt32.ofNat_toNat]

theorem asF64_ofFloat (parse : UInt64 → UInt64) {bits : UInt64} (h : finite bits = true) :
    asF64 parse (ofFloat bits) = some (parse bits) := by
  rw [ofFloat, if_pos h, asF64]

/-- an option round trips when its values do, and none of them serializes as `null` -/
theorem asOption_ofOption (f : Json → Option α) (g : α → Json) (hnull : ∀ a, g a ≠ .null) (hfg : ∀ a, f (g a) = some a)
    (o : Option α) : asOption f (ofOption g o) = some o := by
  cases o with
  | none => rfl
  | some a =>
    have h := hfg a
    rw [ofOption]
    cases hga : g a with
    | null => exact absurd hga (hnull a)
    | _ => rw [hga] at h; simp only [asOption, h]; rfl

end Json

end WtBenchmarks
