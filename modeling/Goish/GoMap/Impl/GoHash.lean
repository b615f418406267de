import Mathlib.Data.BitVec

/-! The hashing of `gomap` for the built-in key types. -/

namespace GoMap

class GoHash (K : Type u) where
  goHash : K → UInt64 → UInt64

def hashBytes (data : List UInt8) (seed : UInt64) : UInt64 :=
  data.foldl (fun h b => (h ^^^ b.toUInt64) * 0x010000000001b3) seed

def toLeBytes (n : Nat) (x : BitVec (8 * n)) : List UInt8 :=
  (List.range n).map fun i => UInt8.ofNat (x.toNat / 2 ^ (8 * i))

inductive Format where
  | f32
  | f64
  deriving DecidableEq

namespace Format

def bytes : Format → Nat
  | .f32 => 4
  | .f64 => 8

def mantissaBits : Format → Nat
  | .f32 => 23
  | .f64 => 52

end Format

structure Float (fmt : Format) where
  bits : BitVec (8 * fmt.bytes)
  deriving DecidableEq

namespace Float

variable {fmt : Format}

def magnitude (x : Float fmt) : Nat :=
  x.bits.toNat % 2 ^ (8 * fmt.bytes - 1)

def isZero (x : Float fmt) : Bool :=
  x.magnitude = 0

def isNan (x : Float fmt) : Bool :=
  x.magnitude > 2 ^ (8 * fmt.bytes - 1) - 2 ^ fmt.mantissaBits

instance : BEq (Float fmt) where
  beq x y := !x.isNan && !y.isNan && (x.bits == y.bits || x.isZero && y.isZero)

instance : GoHash (Float fmt) where
  goHash x := hashBytes (toLeBytes fmt.bytes x.bits)

end Float

instance : GoHash (List UInt8) where
  goHash s := hashBytes s

instance : GoHash (BitVec (8 * n)) where
  goHash x := hashBytes (toLeBytes n x)

instance : GoHash Bool where
  goHash x := hashBytes [if x then 1 else 0]

-- `string` and `String` are their bytes, `byte` is a `u8`, `rune` a `i32`, `int` and `isize` are `i64`, `usize` is a
-- `u64`.
inductive KeyType where
  | string
  | integer (bytes : Nat)
  | bool
  | float (fmt : Format)
  deriving DecidableEq

namespace KeyType

def Val : KeyType → Type
  | .string => List UInt8
  | .integer bytes => BitVec (8 * bytes)
  | .bool => Bool
  | .float fmt => Float fmt

instance : (t : KeyType) → DecidableEq t.Val
  | .string => inferInstanceAs (DecidableEq (List UInt8))
  | .integer bytes => inferInstanceAs (DecidableEq (BitVec (8 * bytes)))
  | .bool => inferInstanceAs (DecidableEq Bool)
  | .float fmt => inferInstanceAs (DecidableEq (Float fmt))

instance : (t : KeyType) → BEq t.Val
  | .string => inferInstanceAs (BEq (List UInt8))
  | .integer bytes => inferInstanceAs (BEq (BitVec (8 * bytes)))
  | .bool => inferInstanceAs (BEq Bool)
  | .float fmt => inferInstanceAs (BEq (Float fmt))

instance : (t : KeyType) → GoHash t.Val
  | .string => inferInstanceAs (GoHash (List UInt8))
  | .integer bytes => inferInstanceAs (GoHash (BitVec (8 * bytes)))
  | .bool => inferInstanceAs (GoHash Bool)
  | .float fmt => inferInstanceAs (GoHash (Float fmt))

end KeyType

end GoMap
