import Goish.Data.Word

/-! The functions of `math::bits` that the arithmetic on words is built from. -/

namespace Bits

def add64 (x y carry : BitVec 64) : BitVec 64 × BitVec 64 :=
  let sum := x + y + carry
  let carryOut := ((x &&& y) ||| ((x ||| y) &&& ~~~sum)) >>> 63
  (sum, carryOut)

def sub64 (x y borrow : BitVec 64) : BitVec 64 × BitVec 64 :=
  let diff := x - y - borrow
  let borrowOut := ((~~~x &&& y) ||| (~~~(x ^^^ y) &&& diff)) >>> 63
  (diff, borrowOut)

def mul64 (x y : BitVec 64) : BitVec 64 × BitVec 64 :=
  let mask32 : BitVec 64 := (1 <<< 32) - 1
  let x0 := x &&& mask32
  let x1 := x >>> 32
  let y0 := y &&& mask32
  let y1 := y >>> 32
  let w0 := x0 * y0
  let t := x1 * y0 + (w0 >>> 32)
  let w1 := (t &&& mask32) + x0 * y1
  let w2 := t >>> 32
  let hi := x1 * y1 + w2 + (w1 >>> 32)
  let lo := x * y
  (hi, lo)

def len64 (x : BitVec 64) : Nat :=
  64 - Word.leadingZeros x

end Bits
