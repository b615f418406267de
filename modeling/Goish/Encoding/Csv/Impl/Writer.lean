import Goish.Bufio.Impl.Writer
import Goish.Bytes.Impl.Index
import Goish.Unicode.Impl.Graphic

open Utf8

namespace Csv

def quote : UInt8 := 0x22

def cr : UInt8 := 0x0D

def lf : UInt8 := 0x0A

def validDelim (r : ℤ) : Bool :=
  r ≠ 0 && r ≠ quote.toNat && r ≠ cr.toNat && r ≠ lf.toNat && validRune r && r ≠ runeError

structure Writer where
  comma : ℤ
  useCRLF : Bool
  w : Bufio.Writer
  deriving DecidableEq

def newWriter : Writer :=
  { comma := 0x2C, useCRLF := false, w := Bufio.newWriter }

namespace Writer

def fieldNeedsQuotes (self : Writer) (field : List UInt8) : Bool :=
  if field = [] then
    false
  else if field = [0x5C, 0x2E] then
    true
  else
    let special :=
      if touint32 self.comma < runeSelf then
        field.any fun c => c = lf || c = cr || c = quote || c = tobyte self.comma
      else
        Bytes.containsRune field self.comma || Bytes.containsAny field [quote, cr, lf]
    special || Unicode.isSpace (decodeRune field).1

def writeQuoted (useCRLF : Bool) : Nat → Bufio.Writer → List UInt8 → Bufio.Writer
  | 0, w, _ => w
  | fuel + 1, w, field =>
    if field = [] then
      w
    else
      let i := (Bytes.indexAny field [quote, cr, lf]).getD field.length
      let w := w.writeString (field.take i)
      match field.drop i with
      | [] => w
      | c :: field =>
        let w :=
          if c = quote then
            w.writeString [quote, quote]
          else if c = cr then
            if !useCRLF then w.writeByte cr else w
          else if c = lf then
            if useCRLF then w.writeString [cr, lf] else w.writeByte lf
          else
            w
        writeQuoted useCRLF fuel w field

def writeField (self : Writer) (w : Bufio.Writer) (field : List UInt8) : Bufio.Writer :=
  if !self.fieldNeedsQuotes field then
    w.writeString field
  else
    (writeQuoted self.useCRLF field.length (w.writeByte quote) field).writeByte quote

def writeFields (self : Writer) (w : Bufio.Writer) : List (List UInt8) → Bufio.Writer
  | [] => w
  | [field] => self.writeField w field
  | field :: record => writeFields self ((self.writeField w field).writeRune self.comma) record

def write (self : Writer) (record : List (List UInt8)) : Except String Writer :=
  if !validDelim self.comma then
    .error "csv: invalid field or comment delimiter"
  else
    let w := self.writeFields self.w record
    let w := if self.useCRLF then w.writeString [cr, lf] else w.writeByte lf
    .ok { self with w := w }

def writeAll (self : Writer) (records : List (List (List UInt8))) : Except String Writer := do
  let self ← records.foldlM write self
  return { self with w := (self.w.write []).flush }

end Writer

end Csv
