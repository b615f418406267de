import Goish.Bufio.Impl.Reader
import Mathlib.Data.List.DropRight
import Mathlib.Algebra.Group.Int.Defs
import Mathlib.Algebra.Group.Nat.Defs

open Io

namespace Http

def maxLineLength : Nat := 4096

def cr : UInt8 := '\r'.toUInt8

def lf : UInt8 := '\n'.toUInt8

structure ChunkedReader where
  r : Bufio.Reader
  n : Nat
  err : Option Error
  checkEnd : Bool
  excess : ℤ
  charged : List (ℤ × Nat)
  overflowed : Bool
  deriving DecidableEq

def newChunkedReader (r : Source) : ChunkedReader :=
  { r := Bufio.newReader r, n := 0, err := none, checkEnd := false, excess := 0, charged := [],
    overflowed := false }

def errLineTooLong : Error := .other "header line too long"

def errMalformed : Error := .other "malformed chunked encoding"

def errBareLF : Error := .other "chunked line ends with bare LF"

def errInvalidCR : Error := .other "invalid CR in chunked line"

def errTooMuchOverhead : Error := .other "chunked encoding contains too much non-data"

def errEmptyHex : Error := .other "empty hex number for chunk length"

def errBadHex : Error := .other "invalid byte in chunk length"

def errChunkTooLarge : Error := .other "http chunk length too large"

def readChunkLine (b : Bufio.Reader) : Option (Bufio.Reader × Except Error (List UInt8)) :=
  (b.readSlice lf).map fun (b, p, err) =>
    match err with
    | some e =>
      if e = .eof then
        (b, .error .unexpectedEOF)
      else if e = .bufferFull then
        (b, .error errLineTooLong)
      else
        (b, .error e)
    | none =>
      match p.idxOf? cr with
      | none => (b, .error errBareLF)
      | some idx =>
        if idx + 2 ≠ p.length then
          (b, .error errInvalidCR)
        else
          let p := p.take (p.length - 2)
          if p.length ≥ maxLineLength then
            (b, .error errLineTooLong)
          else
            (b, .ok p)

def isOWS (b : UInt8) : Bool :=
  b == ' '.toUInt8 || b == '\t'.toUInt8

def trimTrailingWhitespace (b : List UInt8) : List UInt8 :=
  b.rdropWhile isOWS

def removeChunkExtension (p : List UInt8) : List UInt8 :=
  p.takeWhile (· != ';'.toUInt8)

def hexDigit (b : UInt8) : Option UInt8 :=
  if b ≥ '0'.toUInt8 ∧ b ≤ '9'.toUInt8 then
    some (b - '0'.toUInt8)
  else if b ≥ 'a'.toUInt8 ∧ b ≤ 'f'.toUInt8 then
    some (b - 'a'.toUInt8 + 10)
  else if b ≥ 'A'.toUInt8 ∧ b ≤ 'F'.toUInt8 then
    some (b - 'A'.toUInt8 + 10)
  else
    none

def parseHexUint (v : List UInt8) : Except Error Nat :=
  if v.length = 0 then
    .error errEmptyHex
  else
    go v 0 0
where
  go : List UInt8 → Nat → Nat → Except Error Nat
    | [], _, n => .ok n
    | b :: v, i, n =>
      if i = 16 then
        .error errChunkTooLarge
      else
        match hexDigit b with
        | none => .error errBadHex
        | some d => go v (i + 1) ((n <<< 4) % 2 ^ 64 ||| d.toNat)

def wrapI64 (x : ℤ) : ℤ :=
  Int.bmod x (2 ^ 64)

def charge (excess : ℤ) (n : Nat) : ℤ × Bool :=
  let data := wrapI64 n
  let twice := wrapI64 (2 * data)
  let cost := wrapI64 (16 + twice)
  let rest := wrapI64 (excess - cost)
  (rest, twice != 2 * data || cost != 16 + twice || rest != excess - cost)

namespace ChunkedReader

def beginChunk (c : ChunkedReader) : Option ChunkedReader :=
  (readChunkLine c.r).map fun (r, line) =>
    match line with
    | .error e => { c with r := r, err := some e }
    | .ok line =>
      let excess := min (c.excess + (line.length + 2)) (2 ^ 63 - 1)
      match parseHexUint (removeChunkExtension (trimTrailingWhitespace line)) with
      | .error e => { c with r := r, excess := excess, err := some e }
      | .ok n =>
        let (rest, wrapped) := charge excess n
        let c := { c with r := r, n := n, excess := max rest 0, charged := (excess, n) :: c.charged,
                          overflowed := c.overflowed || wrapped }
        if c.excess > 16 * 1024 then
          { c with err := some errTooMuchOverhead }
        else if n = 0 then
          { c with err := some .eof }
        else
          c

def chunkHeaderAvailable (c : ChunkedReader) : Bool :=
  c.r.buf.contains lf

def readFull (r : Bufio.Reader) (min : Nat) : Bufio.Reader × List UInt8 × Option Error :=
  go min r []
where
  go : Nat → Bufio.Reader → List UInt8 → Bufio.Reader × List UInt8 × Option Error
    | 0, r, buf => (r, buf, none)
    | fuel + 1, r, buf =>
      if buf.length < min then
        match r.read (min - buf.length) with
        | (r, p, some e) => (r, buf ++ p, some e)
        | (r, p, none) => if p.length = 0 then (r, buf ++ p, some .eof) else go fuel r (buf ++ p)
      else
        (r, buf, none)

def atEOF (e : Error) : Error :=
  if e = .eof then .unexpectedEOF else e

def finishChunk (c : ChunkedReader) (out : List UInt8) : ChunkedReader × Bool :=
  if c.checkEnd then
    if out.length > 0 ∧ c.r.buffered < 2 then
      (c, true)
    else
      match readFull c.r 2 with
      | (r, _, some e) => ({ c with r := r, err := some (atEOF e) }, true)
      | (r, buf, none) =>
        if buf = [cr, lf] then
          ({ c with r := r, checkEnd := false }, false)
        else
          ({ c with r := r, err := some errMalformed }, true)
  else
    (c, false)

-- A call with a buffer of `len` bytes; `out` are those that it has filled. `none` is that the fuel is used up.
def readLoop (len : Nat) : Nat → ChunkedReader → List UInt8 → Option (ChunkedReader × List UInt8)
  | 0, _, _ => none
  | fuel + 1, c, out =>
    if c.err.isSome then
      some (c, out)
    else
      match c.finishChunk out with
      | (c, true) => some (c, out)
      | (c, false) =>
        if c.n = 0 then
          if out.length > 0 ∧ c.chunkHeaderAvailable = false then
            some (c, out)
          else
            match c.beginChunk with
            | none => none
            | some c => readLoop len fuel c out
        else if len - out.length = 0 then
          some (c, out)
        else
          match c.r.read (min (len - out.length) c.n) with
          | (r, p, some e) => some ({ c with r := r, n := c.n - p.length, err := some (atEOF e) }, out ++ p)
          | (r, p, none) =>
            readLoop len fuel { c with r := r, n := c.n - p.length, checkEnd := c.checkEnd || c.n - p.length == 0 } (out ++ p)

def fuel (c : ChunkedReader) : Nat :=
  c.r.buf.length + c.r.rd.bytes.length + c.r.rd.pieces.length + 3

def read (c : ChunkedReader) (len : Nat) : Option (ChunkedReader × List UInt8) :=
  readLoop len c.fuel c []

end ChunkedReader

structure Wire where
  out : List UInt8
  room : Nat
  deriving DecidableEq

def Wire.write (w : Wire) (p : List UInt8) : Wire × Nat × Option Error :=
  if p.length ≤ w.room then
    ({ out := w.out ++ p, room := w.room - p.length }, p.length, none)
  else
    ({ out := w.out ++ p.take w.room, room := 0 }, w.room, some (.other "wire closed"))

def hexByte (d : Nat) : UInt8 :=
  if d < 10 then '0'.toUInt8 + UInt8.ofNat d else 'a'.toUInt8 + UInt8.ofNat (d - 10)

def formatHex (n : Nat) : List UInt8 :=
  if n < 16 then [hexByte n] else formatHex (n / 16) ++ [hexByte (n % 16)]

structure ChunkedWriter where
  wire : Wire
  deriving DecidableEq

namespace ChunkedWriter

def write (c : ChunkedWriter) (data : List UInt8) : ChunkedWriter × Nat × Option Error :=
  if data.length = 0 then
    (c, 0, none)
  else
    match c.wire.write (formatHex data.length ++ [cr, lf]) with
    | (wire, _, some e) => ({ wire := wire }, 0, some e)
    | (wire, _, none) =>
      match wire.write data with
      | (wire, n, some e) => ({ wire := wire }, n, some e)
      | (wire, n, none) =>
        if n ≠ data.length then
          ({ wire := wire }, n, some .shortWrite)
        else
          match wire.write [cr, lf] with
          | (wire, _, err) => ({ wire := wire }, n, err)

def close (c : ChunkedWriter) : ChunkedWriter × Option Error :=
  match c.wire.write ['0'.toUInt8, cr, lf] with
  | (wire, _, err) => ({ wire := wire }, err)

end ChunkedWriter

end Http
