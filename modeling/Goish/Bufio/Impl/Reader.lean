import Goish.Io.Impl.Source

open Io

namespace Bufio

def defaultBufSize : Nat := 4096

def maxConsecutiveEmptyReads : Nat := 100

structure Reader where
  size : Nat
  buf : List UInt8
  rd : Source
  err : Option Error
  deriving DecidableEq

def newReader (rd : Source) : Reader :=
  { size := defaultBufSize, buf := [], rd := rd, err := none }

namespace Reader

def buffered (b : Reader) : Nat :=
  b.buf.length

def fill (b : Reader) : Reader :=
  go maxConsecutiveEmptyReads b
where
  go : Nat → Reader → Reader
    | 0, b => { b with err := some .noProgress }
    | tries + 1, b =>
      let (rd, p, err) := b.rd.read (b.size - b.buf.length)
      let b := { b with buf := b.buf ++ p, rd := rd }
      match err with
      | some e => { b with err := some e }
      | none => if p.length > 0 then b else go tries b

def read (b : Reader) (want : Nat) : Reader × List UInt8 × Option Error :=
  if want = 0 then
    if b.buffered > 0 then
      (b, [], none)
    else
      ({ b with err := none }, [], b.err)
  else if b.buf = [] then
    match b.err with
    | some e => ({ b with err := none }, [], some e)
    | none =>
      if want ≥ b.size then
        -- The bytes go to the caller's buffer directly.
        let (rd, p, err) := b.rd.read want
        ({ b with rd := rd }, p, err)
      else
        let (rd, p, err) := b.rd.read b.size
        if p = [] then
          ({ b with rd := rd }, [], err)
        else
          ({ b with buf := p.drop want, rd := rd, err := err }, p.take want, none)
  else
    ({ b with buf := b.buf.drop want }, b.buf.take want, none)

-- `s` bytes are known to have no delimiter. Every `fill` adds a byte or leaves an error, so `none` is never reached.
def readSlice (b : Reader) (delim : UInt8) : Option (Reader × List UInt8 × Option Error) :=
  go (b.size + 2) b 0
where
  go : Nat → Reader → Nat → Option (Reader × List UInt8 × Option Error)
    | 0, _, _ => none
    | fuel + 1, b, s =>
      match (b.buf.drop s).idxOf? delim with
      | some i =>
        let i := i + s
        some ({ b with buf := b.buf.drop (i + 1) }, b.buf.take (i + 1), none)
      | none =>
        match b.err with
        | some e => some ({ b with buf := [], err := none }, b.buf, some e)
        | none =>
          if b.buf.length ≥ b.size then
            some ({ b with buf := [] }, b.buf, some .bufferFull)
          else
            go fuel b.fill b.buf.length

end Reader

end Bufio
