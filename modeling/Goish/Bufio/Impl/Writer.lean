import Goish.Unicode.Utf8.Impl.Utf8

/-! `bufio::Writer` over a sink that takes everything: `out` are the bytes of the sink. -/

open Utf8

namespace Bufio

structure Writer where
  size : Nat
  buf : List UInt8
  out : List UInt8
  deriving DecidableEq

def newWriter : Writer :=
  { size := 4096, buf := [], out := [] }

namespace Writer

def available (b : Writer) : Nat :=
  b.size - b.buf.length

def flush (b : Writer) : Writer :=
  { b with buf := [], out := b.out ++ b.buf }

def write (b : Writer) (p : List UInt8) : Writer :=
  go (p.length + 1) b p
where
  go : Nat → Writer → List UInt8 → Writer
    | 0, b, p => { b with buf := b.buf ++ p }
    | fuel + 1, b, p =>
      if p.length > b.available then
        if b.buf = [] then
          go fuel { b with out := b.out ++ p } []
        else
          go fuel { b with buf := b.buf ++ p.take b.available }.flush (p.drop b.available)
      else
        { b with buf := b.buf ++ p }

def writeString (b : Writer) (s : List UInt8) : Writer :=
  go (s.length + 1) b s
where
  go : Nat → Writer → List UInt8 → Writer
    | 0, b, s => { b with buf := b.buf ++ s }
    | fuel + 1, b, s =>
      if s.length > b.available then
        go fuel { b with buf := b.buf ++ s.take b.available }.flush (s.drop b.available)
      else
        { b with buf := b.buf ++ s }

def writeByte (b : Writer) (c : UInt8) : Writer :=
  let b := if b.available = 0 then b.flush else b
  { b with buf := b.buf ++ [c] }

def writeRune (b : Writer) (r : ℤ) : Writer :=
  if touint32 r < runeSelf then
    b.writeByte (tobyte r)
  else
    let b := if b.available < 4 then b.flush else b
    if b.available < 4 then
      b.writeString (encodeRune r)
    else
      { b with buf := b.buf ++ encodeRune r }

end Writer

end Bufio
