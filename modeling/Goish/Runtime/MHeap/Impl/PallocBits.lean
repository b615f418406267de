import Goish.Data.Loop
import Goish.Data.Word
import Goish.Runtime.MHeap.Impl.PallocSum

/-! `runtime::mheap::palloc_bits`: the page bitmap of one chunk (0 is free), its summary and the searches in it. -/

open Word Loop FreeRun

namespace MHeap

def maskLowBits (n : Nat) : BitVec 64 :=
  if n ≥ 64 then
    BitVec.allOnes 64
  else
    (1#64 <<< n) - 1#64

def pageBitsWords : Nat := pallocChunkPages / 64

structure PageBits where
  words : Vector (BitVec 64) pageBitsWords
  deriving DecidableEq, Repr

namespace PageBits

def zero : PageBits :=
  ⟨Vector.replicate pageBitsWords 0#64⟩

def word (b : PageBits) (k : Nat) : BitVec 64 :=
  b.words.getD k 0#64

def setWord (b : PageBits) (k : Nat) (v : BitVec 64) : PageBits :=
  ⟨b.words.setIfInBounds k v⟩

def get (b : PageBits) (i : Nat) : Bool :=
  (b.word (i / 64)).getLsbD (i % 64)

def set (b : PageBits) (i : Nat) : PageBits :=
  b.setWord (i / 64) (b.word (i / 64) ||| 1#64 <<< (i % 64))

def setRange (b : PageBits) (i n : Nat) : PageBits :=
  if n = 1 then
    b.set i
  else
    let j := i + n - 1
    let iw := i / 64
    let jw := j / 64
    if iw = jw then
      b.setWord iw (b.word iw ||| maskLowBits n <<< (i % 64))
    else
      let b := b.setWord iw (b.word iw ||| BitVec.allOnes 64 <<< (i % 64))
      let b := forRange (iw + 1) jw b fun k b => b.setWord k (BitVec.allOnes 64)
      b.setWord jw (b.word jw ||| maskLowBits (j % 64 + 1))

def clear (b : PageBits) (i : Nat) : PageBits :=
  b.setWord (i / 64) (b.word (i / 64) &&& ~~~(1#64 <<< (i % 64)))

def clearRange (b : PageBits) (i n : Nat) : PageBits :=
  if n = 1 then
    b.clear i
  else
    let j := i + n - 1
    let iw := i / 64
    let jw := j / 64
    if iw = jw then
      b.setWord iw (b.word iw &&& ~~~(maskLowBits n <<< (i % 64)))
    else
      let b := b.setWord iw (b.word iw &&& ~~~(BitVec.allOnes 64 <<< (i % 64)))
      let b := forRange (iw + 1) jw b fun k b => b.setWord k 0#64
      b.setWord jw (b.word jw &&& ~~~maskLowBits (j % 64 + 1))

end PageBits

structure PallocBits where
  bits : PageBits
  deriving DecidableEq, Repr

namespace PallocBits

def zero : PallocBits :=
  ⟨PageBits.zero⟩

def allocRange (b : PallocBits) (i n : Nat) : PallocBits :=
  ⟨b.bits.setRange i n⟩

def free (b : PallocBits) (i n : Nat) : PallocBits :=
  ⟨b.bits.clearRange i n⟩

structure FirstPass where
  start : Option Nat
  most : Nat
  cur : Nat

namespace summarize

def firstPass (st : FirstPass) (x : BitVec 64) : FirstPass :=
  if x = 0#64 then
    { st with cur := st.cur + 64 }
  else
    let t := trailingZeros x
    let l := leadingZeros x
    let cur := st.cur + t
    {
      start := match st.start with
        | none => some cur
        | some s => some s
      most := if cur > st.most then cur else st.most
      cur := l
    }

-- The word is a run of ones at the bottom.
def noInnerZeros (x : BitVec 64) : Bool :=
  x &&& (x + 1#64) = 0#64

-- Shrink every run of zeros but the topmost one by `p`, which takes `k ≥ 1` from `p` in every round but the last.
def shrink (fuel : Nat) (x : BitVec 64) (p k : Nat) : Option (BitVec 64 × Nat) :=
  match fuel with
  | 0 => some (x, k)
  | fuel + 1 =>
    if p > 0 then
      if p ≤ k then
        let x := x ||| x >>> (p % 64)
        if noInnerZeros x then none else some (x, k)
      else
        let x := x ||| x >>> (k % 64)
        if noInnerZeros x then none else shrink fuel x (p - k) (k * 2)
    else
      some (x, k)

-- Every round drops the lowest run of zeros that survives the shrinking.
def innerRuns (fuel : Nat) (x : BitVec 64) (most p k : Nat) : Nat :=
  match fuel with
  | 0 => most
  | fuel + 1 =>
    match shrink p x p k with
    | none => most
    | some (x, k) =>
      let jOnes := trailingZeros (~~~x)
      let x := x >>> (jOnes % 64)
      let jZeros := trailingZeros x
      let x := x >>> (jZeros % 64)
      let most := most + jZeros
      if noInnerZeros x then most else innerRuns fuel x most jZeros k

def secondPass (most : Nat) (x : BitVec 64) : Nat :=
  let x := x >>> (trailingZeros x % 64)
  if noInnerZeros x then most else innerRuns 64 x most most 1

end summarize

def summarize (b : PallocBits) : PallocSum :=
  let bits := b.bits.words.toList
  let nWords := bits.length
  let st := bits.foldl summarize.firstPass ⟨none, 0, 0⟩
  match st.start with
  | none =>
    let n := 64 * nWords
    PallocSum.pack n n n
  | some start =>
    let most := if st.cur > st.most then st.cur else st.most
    if most ≥ 64 - 2 then
      PallocSum.pack start most st.cur
    else
      let most := bits.foldl summarize.secondPass most
      PallocSum.pack start most st.cur

end PallocBits

-- The index of the first run of `n` ones in `c`, or 64 if there is none.
def findBitRange64 (c : BitVec 64) (n : Nat) : Nat :=
  go (n - 1) c (n - 1) 1
where
  go (fuel : Nat) (c : BitVec 64) (p k : Nat) : Nat :=
    match fuel with
    | 0 => finish c
    | fuel + 1 =>
      if p > 0 then
        if p ≤ k then
          finish (c &&& c >>> (p % 64))
        else
          let c := c &&& c >>> (k % 64)
          if c = 0#64 then 64 else go fuel c (p - k) (k * 2)
      else
        finish c
  finish (c : BitVec 64) : Nat :=
    if c = 0#64 then 64 else trailingZeros c

namespace PallocBits

def find1 (b : PallocBits) (searchIdx : Nat) : Option Nat :=
  go (pageBitsWords - searchIdx / 64) (searchIdx / 64)
where
  go (fuel i : Nat) : Option Nat :=
    match fuel with
    | 0 => none
    | fuel + 1 =>
      let x := b.bits.word i
      if ~~~x = 0#64 then
        go fuel (i + 1)
      else
        some (i * 64 + trailingZeros (~~~x))

def findSmallN (b : PallocBits) (npages searchIdx : Nat) : Option Nat × Option Nat :=
  go (pageBitsWords - searchIdx / 64) (searchIdx / 64) 0 none
where
  go (fuel i end_ : Nat) (newSearchIdx : Option Nat) : Option Nat × Option Nat :=
    match fuel with
    | 0 => (none, newSearchIdx)
    | fuel + 1 =>
      let bi := b.bits.word i
      if ~~~bi = 0#64 then
        go fuel (i + 1) 0 newSearchIdx
      else
        let newSearchIdx := newSearchIdx.getD (i * 64 + trailingZeros (~~~bi))
        let start := trailingZeros bi
        if end_ + start ≥ npages then
          (some (i * 64 - end_), some newSearchIdx)
        else
          let j := findBitRange64 (~~~bi) npages
          if j < 64 then
            (some (i * 64 + j), some newSearchIdx)
          else
            go fuel (i + 1) (leadingZeros bi) (some newSearchIdx)

def findLargeN (b : PallocBits) (npages searchIdx : Nat) : Option Nat × Option Nat :=
  go (pageBitsWords - searchIdx / 64) (searchIdx / 64) 0 0 none
where
  go (fuel i start size : Nat) (newSearchIdx : Option Nat) : Option Nat × Option Nat :=
    match fuel with
    | 0 => if size < npages then (none, newSearchIdx) else (some start, newSearchIdx)
    | fuel + 1 =>
      let x := b.bits.word i
      if x = BitVec.allOnes 64 then
        go fuel (i + 1) start 0 newSearchIdx
      else
        let newSearchIdx := newSearchIdx.getD (i * 64 + trailingZeros (~~~x))
        if size = 0 then
          let size := leadingZeros x
          go fuel (i + 1) (i * 64 + 64 - size) size (some newSearchIdx)
        else
          let s := trailingZeros x
          if s + size ≥ npages then
            (some start, some newSearchIdx)
          else if s < 64 then
            let size := leadingZeros x
            go fuel (i + 1) (i * 64 + 64 - size) size (some newSearchIdx)
          else
            go fuel (i + 1) start (size + 64) (some newSearchIdx)

def find (b : PallocBits) (npages searchIdx : Nat) : Option Nat × Option Nat :=
  if npages = 1 then
    let addr := b.find1 searchIdx
    (addr, addr)
  else if npages ≤ 64 then
    b.findSmallN npages searchIdx
  else
    b.findLargeN npages searchIdx

end PallocBits

end MHeap
