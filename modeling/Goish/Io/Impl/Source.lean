import Mathlib.Data.List.Basic

/-! A byte stream as an `io::Reader` hands it out: in pieces, the last of them with the error at the end. -/

namespace Io

inductive Error where
  | eof
  | unexpectedEOF
  | shortWrite
  | noProgress
  | bufferFull
  | other (msg : String)
  deriving DecidableEq

structure Source where
  pieces : List (List UInt8)
  last : List UInt8
  err : Error
  deriving DecidableEq

namespace Source

def bytes (s : Source) : List UInt8 :=
  s.pieces.flatten ++ s.last

def read (s : Source) (k : Nat) : Source × List UInt8 × Option Error :=
  match s.pieces with
  | p :: pieces =>
    if p.length ≤ k then
      ({ s with pieces := pieces }, p, none)
    else
      ({ s with pieces := p.drop k :: pieces }, p.take k, none)
  | [] =>
    if s.last.length ≤ k then
      ({ s with last := [] }, s.last, some s.err)
    else
      ({ s with last := s.last.drop k }, s.last.take k, none)

end Source

end Io
