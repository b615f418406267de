import Mathlib.Data.List.Basic

/-! The paths of `net::url`. The loop of `resolvePath` runs over the elements between the slashes. -/

namespace Url

abbrev slash : UInt8 := 47

abbrev dot : List UInt8 := [46]

abbrev dotdot : List UInt8 := [46, 46]

def lastIndexByte : List UInt8 → UInt8 → Option Nat
  | [], _ => none
  | x :: s, c =>
    match lastIndexByte s c with
    | some i => some (i + 1)
    | none => if x = c then some 0 else none

def fullPath (base ref : List UInt8) : List UInt8 :=
  if ref = [] then
    base
  else if ref.head? ≠ some slash then
    (match lastIndexByte base slash with
      | none => []
      | some i => base.take (i + 1)) ++ ref
  else
    ref

def resolveElem (dst : List UInt8 × Bool) (elem : List UInt8) : List UInt8 × Bool :=
  if elem = dot then
    (dst.1, false)
  else if elem = dotdot then
    match lastIndexByte (dst.1.drop 1) slash with
    | none => ([slash], true)
    | some index => (slash :: (dst.1.drop 1).take index, dst.2)
  else
    ((if !dst.2 then dst.1 ++ [slash] else dst.1) ++ elem, false)

def resolvePath (base ref : List UInt8) : List UInt8 :=
  let full := fullPath base ref
  if full = [] then
    []
  else
    let elems := full.splitOn slash
    let (dst, _) := elems.foldl resolveElem ([slash], true)
    let elem := elems.getLastD []
    let r := if elem = dot ∨ elem = dotdot then dst ++ [slash] else dst
    if r[1]? = some slash then r.drop 1 else r

end Url
