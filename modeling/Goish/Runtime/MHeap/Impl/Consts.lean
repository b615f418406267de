import Mathlib.Algebra.Group.Nat.Defs

namespace MHeap

def pageShift : Nat := 13

def pageSize : Nat := 1 <<< pageShift

def logPallocChunkPages : Nat := 9

def pallocChunkPages : Nat := 1 <<< logPallocChunkPages

def logPallocChunkBytes : Nat := logPallocChunkPages + pageShift

def pallocChunkBytes : Nat := 1 <<< logPallocChunkBytes

def heapAddrBits : Nat := 48

def summaryLevels : Nat := 5

def summaryLevelBits : Nat := 3

def summaryL0Bits : Nat :=
  heapAddrBits - logPallocChunkBytes - (summaryLevels - 1) * summaryLevelBits

def levelBits (l : Nat) : Nat :=
  [
    summaryL0Bits,
    summaryLevelBits,
    summaryLevelBits,
    summaryLevelBits,
    summaryLevelBits
  ].getD l 0

def levelShift (l : Nat) : Nat :=
  [
    heapAddrBits - summaryL0Bits,
    heapAddrBits - summaryL0Bits - summaryLevelBits,
    heapAddrBits - summaryL0Bits - 2 * summaryLevelBits,
    heapAddrBits - summaryL0Bits - 3 * summaryLevelBits,
    heapAddrBits - summaryL0Bits - 4 * summaryLevelBits
  ].getD l 0

def levelLogPages (l : Nat) : Nat :=
  [
    logPallocChunkPages + 4 * summaryLevelBits,
    logPallocChunkPages + 3 * summaryLevelBits,
    logPallocChunkPages + 2 * summaryLevelBits,
    logPallocChunkPages + 1 * summaryLevelBits,
    logPallocChunkPages
  ].getD l 0

def logMaxPackedValue : Nat :=
  logPallocChunkPages + (summaryLevels - 1) * summaryLevelBits

def maxPackedValue : Nat := 1 <<< logMaxPackedValue

theorem pageSize_eq : pageSize = 8192 := rfl

theorem pallocChunkPages_eq : pallocChunkPages = 512 := rfl

theorem pallocChunkBytes_eq : pallocChunkBytes = 512 * 8192 := rfl

theorem maxPackedValue_eq : maxPackedValue = 2 ^ 21 := rfl

end MHeap
