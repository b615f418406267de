import Mathlib.Data.List.DropRight
import Mathlib.Algebra.Group.Nat.Defs

/-! `strconv::decimal`: `0.d₁d₂… * 10 ^ dp` with up to 800 digits. `nd` is the length of `d`. -/

namespace Strconv

def maxDigits : Nat := 800

def maxShift : Nat := 60

structure Decimal where
  d : List Nat
  dp : ℤ
  neg : Bool
  trunc : Bool
  deriving DecidableEq

def digitsOf (v : Nat) : List Nat :=
  go 64 v []
where
  go : Nat → Nat → List Nat → List Nat
    | 0, _, acc => acc
    | fuel + 1, v, acc => if v > 0 then go fuel (v / 10) (v % 10 :: acc) else acc

def leftcheats : List (Nat × Nat) :=
  [
    (0, 0), (1, 5), (1, 25), (1, 125), (2, 625), (2, 3125), (2, 15625), (3, 78125), (3, 390625), (3, 1953125),
    (4, 9765625), (4, 48828125), (4, 244140625), (4, 1220703125), (5, 6103515625), (5, 30517578125), (5,
    152587890625), (6, 762939453125), (6, 3814697265625), (6, 19073486328125), (7, 95367431640625), (7,
    476837158203125), (7, 2384185791015625), (7, 11920928955078125), (8, 59604644775390625), (8,
    298023223876953125), (8, 1490116119384765625), (9, 7450580596923828125), (9, 37252902984619140625), (9,
    186264514923095703125), (10, 931322574615478515625), (10, 4656612873077392578125), (10,
    23283064365386962890625), (10, 116415321826934814453125), (11, 582076609134674072265625), (11,
    2910383045673370361328125), (11, 14551915228366851806640625), (12, 72759576141834259033203125), (12,
    363797880709171295166015625), (12, 1818989403545856475830078125), (13, 9094947017729282379150390625), (13,
    45474735088646411895751953125), (13, 227373675443232059478759765625), (13, 1136868377216160297393798828125),
    (14, 5684341886080801486968994140625), (14, 28421709430404007434844970703125), (14,
    142108547152020037174224853515625), (15, 710542735760100185871124267578125), (15,
    3552713678800500929355621337890625), (15, 17763568394002504646778106689453125), (16,
    88817841970012523233890533447265625), (16, 444089209850062616169452667236328125), (16,
    2220446049250313080847263336181640625), (16, 11102230246251565404236316680908203125), (17,
    55511151231257827021181583404541015625), (17, 277555756156289135105907917022705078125), (17,
    1387778780781445675529539585113525390625), (18, 6938893903907228377647697925567626953125), (18,
    34694469519536141888238489627838134765625), (18, 173472347597680709441192448139190673828125), (19,
    867361737988403547205962240695953369140625)]

def prefixIsLessThan : List Nat → List Nat → Bool
  | _, [] => false
  | [], _ :: _ => true
  | b :: bs, s :: ss => if b ≠ s then b < s else prefixIsLessThan bs ss

namespace Decimal

def new : Decimal :=
  { d := [], dp := 0, neg := false, trunc := false }

def nd (a : Decimal) : ℤ :=
  a.d.length

def trim (a : Decimal) : Decimal :=
  let d := a.d.rdropWhile (· = 0)
  { a with d := d, dp := if d = [] then 0 else a.dp }

def assign (a : Decimal) (v : Nat) : Decimal :=
  let d := digitsOf v
  trim { a with d := d, dp := d.length }

def pick (k : Nat) : Nat → Nat → List Nat → Option (Nat × Nat × List Nat)
  | n, r, [] => if n = 0 then none else some (if n >>> k ≠ 0 then (n, r, []) else pad (k + 1) n r)
  | n, r, c :: d => if n >>> k ≠ 0 then some (n, r, c :: d) else pick k (n * 10 + c) (r + 1) d
where
  -- Ten is more than two, so that `k + 1` rounds are enough.
  pad : Nat → Nat → Nat → Nat × Nat × List Nat
    | 0, n, r => (n, r, [])
    | fuel + 1, n, r => if n >>> k = 0 then pad fuel (n * 10) (r + 1) else (n, r, [])

def putDown (k : Nat) : Nat → List Nat → Nat × List Nat
  | n, [] => (n, [])
  | n, c :: d =>
    let (n', out) := putDown k (n % 2 ^ k * 10 + c) d
    (n', n >>> k :: out)

def putExtra (k : Nat) : Nat → Nat → List Nat
  | 0, _ => []
  | fuel + 1, n => if n > 0 then n >>> k :: putExtra k fuel (n % 2 ^ k * 10) else []

def rightShift (a : Decimal) (k : Nat) : Decimal :=
  match pick k 0 0 a.d with
  | none => { a with d := [] }
  | some (n, r, d) =>
    let (n, out) := putDown k n d
    let extra := putExtra k (k + 2) n
    let fits := extra.take (maxDigits - out.length)
    let lost := extra.drop (maxDigits - out.length)
    trim { a with d := out ++ fits, dp := a.dp - (r - 1), trunc := a.trunc || lost.any (· > 0) }

def double (k : Nat) : List Nat → Nat → List Nat
  | [], n => (digitsOf n).reverse
  | c :: d, n => (n + c <<< k) % 10 :: double k d ((n + c <<< k) / 10)

def newDigits (d : List Nat) (k : Nat) : Nat :=
  let (delta, cutoff) := leftcheats.getD k (0, 0)
  if prefixIsLessThan d (digitsOf cutoff) then delta - 1 else delta

-- The digits of the product are put down from the last place to the first. There are just as many of them as places.
def leftShift (a : Decimal) (k : Nat) : Decimal :=
  let delta := newDigits a.d k
  let digits := (double k a.d.reverse 0).reverse
  let lost := digits.drop maxDigits
  trim { a with
    d := (digits.take maxDigits).take (a.d.length + delta), dp := a.dp + delta,
    trunc := a.trunc || lost.any (· ≠ 0) }

def leftShifts : Nat → Decimal → Nat → Decimal
  | 0, a, _ => a
  | fuel + 1, a, k => if k > maxShift then leftShifts fuel (a.leftShift maxShift) (k - maxShift) else a.leftShift k

def rightShifts : Nat → Decimal → Nat → Decimal
  | 0, a, _ => a
  | fuel + 1, a, k => if k > maxShift then rightShifts fuel (a.rightShift maxShift) (k - maxShift) else a.rightShift k

def shift (a : Decimal) (k : ℤ) : Decimal :=
  if a.d = [] then
    a
  else if k > 0 then
    leftShifts k.toNat a k.toNat
  else if k < 0 then
    rightShifts (-k).toNat a (-k).toNat
  else
    a

def shouldRoundUp (a : Decimal) (nd : ℤ) : Bool :=
  if nd < 0 ∨ nd ≥ a.nd then
    false
  else
    let i := nd.toNat
    if a.d.getD i 0 = 5 ∧ nd + 1 = a.nd then
      -- Exactly half way: to even.
      a.trunc || (nd > 0 && a.d.getD (i - 1) 0 % 2 ≠ 0)
    else
      a.d.getD i 0 ≥ 5

def roundDown (a : Decimal) (nd : ℤ) : Decimal :=
  if nd < 0 ∨ nd ≥ a.nd then a else trim { a with d := a.d.take nd.toNat }

def roundUp (a : Decimal) (nd : ℤ) : Decimal :=
  if nd < 0 ∨ nd ≥ a.nd then
    a
  else
    -- The nines at the end go.
    match ((a.d.take nd.toNat).rdropWhile (· ≥ 9)).reverse with
    | c :: d => { a with d := d.reverse ++ [c + 1] }
    | [] => { a with d := [1], dp := a.dp + 1 }

def round (a : Decimal) (nd : ℤ) : Decimal :=
  if nd < 0 ∨ nd ≥ a.nd then
    a
  else if a.shouldRoundUp nd then
    a.roundUp nd
  else
    a.roundDown nd

def roundedInteger (a : Decimal) : Nat :=
  if a.dp > 20 then
    2 ^ 64 - 1
  else
    let whole := a.d.take a.dp.toNat
    let n := whole.foldl (fun n c => n * 10 + c) 0 * 10 ^ (a.dp.toNat - whole.length)
    if a.shouldRoundUp a.dp then n + 1 else n

end Decimal

end Strconv
