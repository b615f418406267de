import Goish.Data.FreeRun
import Goish.Runtime.MHeap.Impl.Consts

/-! `runtime::mheap::palloc_sum`: the packed `(start, max, end)` summary of a region of pages. -/

open FreeRun

namespace MHeap

structure PallocSum where
  raw : BitVec 64
  deriving DecidableEq, Repr

def fieldMask : BitVec 64 :=
  BitVec.ofNat 64 ((1 <<< logMaxPackedValue) - 1)

def fullBit : BitVec 64 :=
  1#64 <<< 63

namespace PallocSum

def pack (start max_ end_ : Nat) : PallocSum :=
  if max_ = maxPackedValue then
    ⟨fullBit⟩
  else
    let s := BitVec.ofNat 64 start &&& fieldMask
    let m := (BitVec.ofNat 64 max_ &&& fieldMask) <<< logMaxPackedValue
    let e := (BitVec.ofNat 64 end_ &&& fieldMask) <<< (2 * logMaxPackedValue)
    ⟨s ||| m ||| e⟩

def empty : PallocSum :=
  ⟨0#64⟩

def start (sum : PallocSum) : Nat :=
  if sum.raw &&& fullBit ≠ 0#64 then
    maxPackedValue
  else
    (sum.raw &&& fieldMask).toNat

def max (sum : PallocSum) : Nat :=
  if sum.raw &&& fullBit ≠ 0#64 then
    maxPackedValue
  else
    ((sum.raw >>> logMaxPackedValue) &&& fieldMask).toNat

def «end» (sum : PallocSum) : Nat :=
  if sum.raw &&& fullBit ≠ 0#64 then
    maxPackedValue
  else
    ((sum.raw >>> (2 * logMaxPackedValue)) &&& fieldMask).toNat

def unpack (sum : PallocSum) : Summary :=
  if sum.raw &&& fullBit ≠ 0#64 then
    ⟨maxPackedValue, maxPackedValue, maxPackedValue⟩
  else
    let s := (sum.raw &&& fieldMask).toNat
    let m := ((sum.raw >>> logMaxPackedValue) &&& fieldMask).toNat
    let e := ((sum.raw >>> (2 * logMaxPackedValue)) &&& fieldMask).toNat
    ⟨s, m, e⟩

end PallocSum

def mergeSummaries (sums : List PallocSum) (logMaxPagesPerSum : Nat) : PallocSum :=
  match sums with
  -- `sums[0]` panics on an empty slice. Every caller passes a whole block of entries.
  | [] => PallocSum.empty
  | sum :: sums =>
    let run := go 1 sum.unpack sums
    PallocSum.pack run.start run.most run.last
where
  -- `run` is the running summary over `sums[0..i]`.
  go (i : Nat) (run : Summary) : List PallocSum → Summary
    | [] => run
    | sum :: sums =>
      let block := 1 <<< logMaxPagesPerSum
      let si := sum.unpack
      let start := if run.start = i * block then run.start + si.start else run.start
      let candidate := run.last + si.start
      let m := if run.most ≥ si.most then run.most else si.most
      let most := if candidate > m then candidate else m
      let last := if si.last = block then run.last + block else si.last
      go (i + 1) ⟨start, most, last⟩ sums

end MHeap
