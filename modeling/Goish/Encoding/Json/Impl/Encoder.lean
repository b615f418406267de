import Goish.Encoding.Json.Impl.Number
import Goish.Encoding.Json.Impl.Parser
import Mathlib.Data.List.Sort
import Mathlib.Algebra.GroupWithZero.Nat

/-! The encoder of `encoding::json`, a stack of tasks. The functions give the bytes that the source appends to `out`. -/

open Utf8

namespace Json

structure IndentCfg where
  linePrefix : List UInt8
  indent : List UInt8

def writeNewlineIndent (cfg : IndentCfg) (depth : Nat) : List UInt8 :=
  0x0A :: (cfg.linePrefix ++ (List.replicate depth cfg.indent).flatten)

def hexDigit (n : UInt8) : UInt8 :=
  if n < 10 then 0x30 + n else 0x61 + n - 10

def htmlSafe (b : UInt8) : Bool :=
  b ≥ 0x20 && b ≠ 0x22 && b ≠ 0x5C && b ≠ 0x3C && b ≠ 0x3E && b ≠ 0x26

def escape (b : UInt8) : List UInt8 :=
  if b = 0x5C ∨ b = 0x22 then
    [0x5C, b]
  else if b = 0x0A then
    [0x5C, 0x6E]
  else if b = 0x0D then
    [0x5C, 0x72]
  else if b = 0x09 then
    [0x5C, 0x74]
  else if b = 0x08 then
    [0x5C, 0x62]
  else if b = 0x0C then
    [0x5C, 0x66]
  else
    [0x5C, 0x75, 0x30, 0x30, hexDigit (b >>> 4), hexDigit (b &&& 0xF)]

def replacement : List UInt8 :=
  [0x5C, 0x75, 0x66, 0x66, 0x66, 0x64]

def lineSeparator (c : ℤ) : List UInt8 :=
  [0x5C, 0x75, 0x32, 0x30, 0x32, hexDigit (.ofNat (c.toNat % 16))]

def encodeString.go : Nat → List UInt8 → List UInt8 → List UInt8 → List UInt8
  | 0, out, start, _ => out ++ start
  | _ + 1, out, start, [] => out ++ start
  | fuel + 1, out, start, b :: s =>
    if b.toNat < runeSelf then
      if htmlSafe b then
        go fuel out (start ++ [b]) s
      else
        go fuel (out ++ start ++ escape b) [] s
    else
      let (c, size) := decodeRune (b :: s)
      if c = runeError ∧ size = 1 then
        go fuel (out ++ start ++ replacement) [] ((b :: s).drop size)
      else if c = 0x2028 ∨ c = 0x2029 then
        go fuel (out ++ start ++ lineSeparator c) [] ((b :: s).drop size)
      else
        go fuel out (start ++ (b :: s).take size) ((b :: s).drop size)

def encodeString (s : List UInt8) : List UInt8 :=
  0x22 :: (encodeString.go (s.length + 1) [] [] s ++ [0x22])

inductive Task where
  | val (v : Value) (depth : Nat)
  | lit (b : List UInt8)
  | indent (depth : Nat)
  | key (k : List UInt8)

def elementTasks (d : Nat) : Bool → List Value → List Task
  | _, [] => [.indent d, .lit [0x5D]]
  | more, v :: items =>
    (if more then [.lit [0x2C]] else []) ++ .indent (d + 1) :: .val v (d + 1) :: elementTasks d true items

def memberTasks (d : Nat) : Bool → List (List UInt8 × Value) → List Task
  | _, [] => [.indent d, .lit [0x7D]]
  | more, (k, v) :: m =>
    (if more then [.lit [0x2C]] else []) ++ .indent (d + 1) :: .key k :: .val v (d + 1) :: memberTasks d true m

def sortEntries (m : List (List UInt8 × α)) : List (List UInt8 × α) :=
  m.insertionSort fun a b => ¬b.1 < a.1

def runTask (cfg : Option IndentCfg) : Task → List UInt8 × List Task
  | .lit b => (b, [])
  | .indent d => (cfg.elim [] fun c => writeNewlineIndent c d, [])
  | .key k => (encodeString k ++ if cfg.isSome then [0x3A, 0x20] else [0x3A], [])
  | .val .null _ => ([0x6E, 0x75, 0x6C, 0x6C], [])
  | .val (.bool true) _ => ([0x74, 0x72, 0x75, 0x65], [])
  | .val (.bool false) _ => ([0x66, 0x61, 0x6C, 0x73, 0x65], [])
  | .val (.number n) _ => (encodeNumber n, [])
  | .val (.string s) _ => (encodeString s, [])
  | .val (.array []) _ => ([0x5B, 0x5D], [])
  | .val (.array items) d => ([0x5B], elementTasks d false items)
  | .val (.object []) _ => ([0x7B, 0x7D], [])
  | .val (.object m) d => ([0x7B], memberTasks d false (sortEntries m))

def runTasks (cfg : Option IndentCfg) : Nat → List Task → List UInt8 → Option (List UInt8)
  | 0, _, _ => none
  | _ + 1, [], out => some out
  | fuel + 1, t :: stack, out =>
    let (bytes, tasks) := runTask cfg t
    runTasks cfg fuel (tasks ++ stack) (out ++ bytes)

def Value.work : Value → Nat :=
  fold {
    null := 1
    bool := fun _ => 1
    number := fun _ => 1
    string := fun _ => 1
    array := fun ns => ns.sum + 2 * ns.length + 3
    object := fun m => (m.map (·.2)).sum + 3 * m.length + 3 }

def encodeValue (cfg : Option IndentCfg) (v : Value) (depth : Nat) : Option (List UInt8) :=
  runTasks cfg (v.work + 1) [.val v depth] []

end Json
