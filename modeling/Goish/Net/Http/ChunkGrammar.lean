import Goish.Net.Http.Impl.Chunked

/-! The grammar of the chunked transfer coding, with the data that a chunked body carries. -/

namespace Http

def crlf : List UInt8 :=
  [cr, lf]

def hexNumber (v : List UInt8) : Option Nat :=
  v.foldlM (fun n b => (hexDigit b).map (fun d => 16 * n + d.toNat)) 0

def Extension (ext : List UInt8) : Prop :=
  (∀ b ∈ ext, isOWS b = true) ∨ ext.head? = some ';'.toUInt8

structure SizeLine (line : List UInt8) (n : Nat) : Prop where
  short : line.length < maxLineLength
  noCR : cr ∉ line
  noLF : lf ∉ line
  size : ∃ digits ext, line = digits ++ ext ∧ digits ≠ [] ∧ digits.length ≤ 16 ∧ hexNumber digits = some n ∧
    Extension ext

inductive Chunks : List UInt8 → List UInt8 → Prop where
  | nil : Chunks [] []
  | chunk {wire data line payload : List UInt8} (h : Chunks wire data) (hline : SizeLine line payload.length)
      (hpos : payload ≠ []) : Chunks (wire ++ (line ++ crlf ++ payload ++ crlf)) (data ++ payload)

def Body (wire data : List UInt8) : Prop :=
  ∃ chunks line, Chunks chunks data ∧ SizeLine line 0 ∧ wire = chunks ++ (line ++ crlf)

end Http
