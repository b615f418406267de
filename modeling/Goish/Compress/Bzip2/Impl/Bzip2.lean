import Mathlib.Data.List.Basic
import Mathlib.Algebra.GroupWithZero.Nat

/-! The inverse of the Burrows-Wheeler transform and the run-length stage of `compress::bzip2`. An access out of range
is `none`. -/

namespace Bzip2

/-- The first loop of `inverseBWT`, which leaves the sum of the counts before it in place of every count. -/
def sumCounts (sum : Nat) : List Nat → List Nat
  | [] => []
  | x :: c => (sum + x - x) :: sumCounts (sum + x) c

/-- A turn of the second loop. -/
def linkStep (s : List UInt32 × List Nat) (i : Nat) : Option (List UInt32 × List Nat) := do
  let (tt, c) := s
  let b := (← tt[i]?) &&& 0xff
  let cb ← (c)[b.toNat]?
  let word ← tt[cb]?
  return (tt.set cb (word ||| i.toUInt32 <<< 8), c.set b.toNat (cb + 1))

def inverseBWT (tt : List UInt32) (origPtr : Nat) (c : List Nat) : Option (List UInt32 × UInt32) := do
  let (tt, _) ← (List.range tt.length).foldlM linkStep (tt, sumCounts 0 c)
  let word ← tt[origPtr]?
  return (tt, word >>> 8)

structure Reader where
  preRLE : List UInt32
  preRLEUsed : Nat
  tPos : UInt32
  lastByte : Int
  byteRepeats : Nat
  repeats : Nat

/-- The state in which `readBlock` leaves the reader. -/
def Reader.start (preRLE : List UInt32) (tPos : UInt32) : Reader :=
  { preRLE, preRLEUsed := 0, tPos, lastByte := -1, byteRepeats := 0, repeats := 0 }

def Reader.more (s : Reader) : Bool :=
  0 < s.repeats || s.preRLEUsed < s.preRLE.length

def Reader.popRepeat (s : Reader) : Reader :=
  { s with repeats := s.repeats - 1, lastByte := if s.repeats = 1 then -1 else s.lastByte }

def Reader.advance (s : Reader) (link : UInt32) : Reader :=
  { s with tPos := link >>> 8, preRLEUsed := s.preRLEUsed + 1 }

def Reader.count (s : Reader) (b : UInt8) : Reader :=
  { s with repeats := b.toNat, byteRepeats := 0 }

def Reader.literal (s : Reader) (b : UInt8) : Reader :=
  { s with byteRepeats := if s.lastByte = b.toNat then s.byteRepeats + 1 else 0, lastByte := b.toNat }

def Reader.readFromBlock (s : Reader) (room : Nat) : Option (List UInt8 × Reader) :=
  go (s.preRLE.length - s.preRLEUsed + room) room s
where
  -- Every turn of the loop writes a byte or takes one from the block.
  go : Nat → Nat → Reader → Option (List UInt8 × Reader)
    | fuel + 1, room + 1, s =>
      if !s.more then
        some ([], s)
      else if 0 < s.repeats then
        (go fuel room s.popRepeat).map (Prod.map (UInt8.ofInt s.lastByte :: ·) id)
      else do
        let link ← s.preRLE[s.tPos.toNat]?
        let b := link.toUInt8
        if s.byteRepeats = 3 then
          go fuel (room + 1) ((s.advance link).count b)
        else
          (go fuel room ((s.advance link).literal b)).map (Prod.map (b :: ·) id)
    | _, _, s => some ([], s)

def Reader.reads (s : Reader) : List Nat → Option (List UInt8)
  | [] => some []
  | room :: sizes => do
    let (out, s) ← s.readFromBlock room
    let rest ← s.reads sizes
    return out ++ rest

end Bzip2
