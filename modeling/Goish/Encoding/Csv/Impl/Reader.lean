import Goish.Bufio.Impl.Reader
import Goish.Encoding.Csv.Impl.Writer

open Utf8

namespace Csv

inductive ParseKind where
  | bareQuote
  | quote
  | fieldCount
  deriving DecidableEq

structure ParseError where
  startLine : ℤ
  line : ℤ
  column : ℤ
  err : ParseKind
  deriving DecidableEq

inductive Error where
  | invalidDelim
  | parse (e : ParseError)
  | io (e : Io.Error)
  deriving DecidableEq

structure Position where
  line : ℤ
  col : ℤ
  deriving DecidableEq

structure Reader where
  comma : ℤ
  comment : ℤ
  fieldsPerRecord : ℤ
  lazyQuotes : Bool
  trimLeadingSpace : Bool
  r : Bufio.Reader
  numLine : ℤ
  offset : ℤ
  fieldPositions : List Position
  deriving DecidableEq

def newReader (rd : Io.Source) : Reader where
  comma := 0x2C
  comment := 0
  fieldsPerRecord := 0
  lazyQuotes := false
  trimLeadingSpace := false
  r := Bufio.newReader rd
  numLine := 0
  offset := 0
  fieldPositions := []

def lengthNL (b : List UInt8) : Nat :=
  if b.getLast? = some lf then 1 else 0

def nextRune (b : List UInt8) : ℤ :=
  (decodeRune b).1

def splitAt (buf : List UInt8) : Nat → List Nat → List (List UInt8)
  | _, [] => []
  | pre, idx :: indexes => (buf.take idx).drop pre :: splitAt buf idx indexes

namespace Reader

def left (self : Reader) : Nat :=
  self.r.buf.length + self.r.rd.bytes.length

def readMore : Nat → Bufio.Reader → List UInt8 → Option (Bufio.Reader × List UInt8 × Option Io.Error)
  | 0, _, _ => none
  | fuel + 1, r, rawBuffer => do
    let (r, chunk, err) ← r.readSlice lf
    if err = some .bufferFull then
      readMore fuel r (rawBuffer ++ chunk)
    else
      some (r, rawBuffer ++ chunk, err)

def readLine (self : Reader) : Option (Reader × List UInt8 × Option Io.Error) := do
  let (r, line, err) ← readMore (self.left + 1) self.r []
  let readSize := line.length
  let (line, err) :=
    if readSize > 0 ∧ err = some .eof then
      (if line.getLast? = some cr then line.dropLast else line, none)
    else
      (line, err)
  let self := { self with r := r, numLine := self.numLine + 1, offset := self.offset + readSize }
  let line := if line.drop (line.length - 2) = [cr, lf] then line.take (line.length - 2) ++ [lf] else line
  return (self, line, err)

def skipLines : Nat → Reader → Option (Reader × List UInt8 × Option Io.Error)
  | 0, _ => none
  | fuel + 1, self => do
    let (self, line, errRead) ← self.readLine
    if self.comment ≠ 0 ∧ nextRune line = self.comment then
      if errRead = none then skipLines fuel self else some (self, [], errRead)
    else if errRead = none ∧ line.length = lengthNL line then
      skipLines fuel self
    else
      some (self, line, errRead)

structure Parse where
  self : Reader
  line : List UInt8
  errRead : Option Io.Error
  recordBuffer : List UInt8
  fieldIndexes : List Nat
  fieldPositions : List Position
  pos : Position

namespace Parse

def advance (st : Parse) (n : Nat) : Parse :=
  { st with line := st.line.drop n, pos := { st.pos with col := st.pos.col + n } }

def push (st : Parse) (bytes : List UInt8) : Parse :=
  { st with recordBuffer := st.recordBuffer ++ bytes }

def endField (st : Parse) (p : Position) : Parse :=
  { st with
    fieldIndexes := st.fieldIndexes ++ [st.recordBuffer.length], fieldPositions := st.fieldPositions ++ [p] }

def fail (st : Parse) (recLine line column : ℤ) (kind : ParseKind) : Option (Parse × Option Error) :=
  some (st, some (.parse { startLine := recLine, line := line, column := column, err := kind }))

def trim (st : Parse) : Parse :=
  match Bytes.indexFunc (fun r => !Unicode.isSpace r) st.line with
  | some i => st.advance i
  | none =>
    { st with
      line := [], pos := { st.pos with col := st.pos.col - lengthNL st.line + st.line.length } }

end Parse

def parse (recLine : ℤ) : Nat → Option Position → Parse → Option (Parse × Option Error)
  | 0, _, _ => none
  | fuel + 1, none, st =>
    let st := if st.self.trimLeadingSpace then st.trim else st
    if st.line.head? ≠ some quote then
      let i := Bytes.indexRune st.line st.self.comma
      let field := st.line.take (i.getD (st.line.length - lengthNL st.line))
      match if st.self.lazyQuotes then none else Bytes.indexByte field quote with
      | some j => st.fail recLine st.self.numLine (st.pos.col + j) .bareQuote
      | none =>
        let st' := (st.push field).endField st.pos
        match i with
        | some i => parse recLine fuel none (st'.advance (i + (runeLen st.self.comma).toNat))
        | none => some (st', none)
    else
      parse recLine fuel (some st.pos) (st.advance 1)
  | fuel + 1, some fieldPos, st =>
    match Bytes.indexByte st.line quote with
    | some i =>
      let st := (st.push (st.line.take i)).advance (i + 1)
      let rn := nextRune st.line
      if rn = quote.toNat then
        parse recLine fuel (some fieldPos) ((st.push [quote]).advance 1)
      else if rn = st.self.comma then
        parse recLine fuel none ((st.advance (runeLen st.self.comma).toNat).endField fieldPos)
      else if lengthNL st.line = st.line.length then
        some (st.endField fieldPos, none)
      else if st.self.lazyQuotes then
        parse recLine fuel (some fieldPos) (st.push [quote])
      else
        st.fail recLine st.self.numLine (st.pos.col - 1) .quote
    | none =>
      if st.line ≠ [] then
        let st := st.push st.line
        if st.errRead ≠ none then
          some (st, none)
        else do
          let (self, line, errRead) ← st.self.readLine
          let pos :=
            if line ≠ [] then
              { line := st.pos.line + 1, col := 1 }
            else
              { st.pos with col := st.pos.col + st.line.length }
          parse recLine fuel (some fieldPos)
            { st with
              self := self, line := line, errRead := if errRead = some .eof then none else errRead, pos := pos }
      else if !st.self.lazyQuotes && st.errRead = none then
        st.fail recLine st.pos.line st.pos.col .quote
      else
        some (st.endField fieldPos, none)

def readRecord (self : Reader) : Option (Reader × List (List UInt8) × Option Error) :=
  if self.comma = self.comment ∨ !validDelim self.comma ∨ (self.comment ≠ 0 ∧ !validDelim self.comment) then
    some (self, [], some .invalidDelim)
  else do
    let (self, line, errRead) ← skipLines (self.left + 2) self
    if errRead = some .eof then
      return (self, [], some (.io .eof))
    let recLine := self.numLine
    let (st, err) ← parse recLine (line.length + self.left + 3) none
      { self := self, line := line, errRead := errRead, recordBuffer := [], fieldIndexes := [], fieldPositions := [],
        pos := { line := self.numLine, col := 1 } }
    let err := if err = none then st.errRead.map .io else err
    let dst := splitAt st.recordBuffer 0 st.fieldIndexes
    let self : Reader := { st.self with fieldPositions := st.fieldPositions }
    if self.fieldsPerRecord > 0 then
      if (dst.length : ℤ) ≠ self.fieldsPerRecord ∧ err = none then
        return (self, dst,
          some (.parse { startLine := recLine, line := recLine, column := 1, err := .fieldCount }))
      else
        return (self, dst, err)
    else if self.fieldsPerRecord = 0 then
      return ({ self with fieldsPerRecord := dst.length }, dst, err)
    else
      return (self, dst, err)

def readAll (self : Reader) : Option (Reader × List (List (List UInt8)) × Option Error) :=
  go (self.left + 2) self []
where
  go : Nat → Reader → List (List (List UInt8)) → Option (Reader × List (List (List UInt8)) × Option Error)
    | 0, _, _ => none
    | fuel + 1, self, records => do
      let (self, record, err) ← self.readRecord
      match err with
      | some (.io .eof) => return (self, records, none)
      | some e => return (self, [], some e)
      | none => go fuel self (records ++ [record])

end Reader

end Csv
