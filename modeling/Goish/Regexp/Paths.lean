import Goish.Regexp.Impl.Match

/-! What a pattern means: the ways to match it at a position, in the order of their priority. -/

namespace Regexp

/-- The matcher, the matcher with exact offsets in its captures, and the rule that an iteration beyond the minimum which
consumes nothing is not taken. -/
inductive Mode where
  | code
  | exact
  | doc
deriving DecidableEq

def Mode.offset : Mode → Nat → ℤ
  | .code, pos => asI32 pos
  | _, pos => pos

abbrev Paths := Nat → Caps → List (Nat × Caps)

def Mode.stop : Mode → Paths
  | .doc, _, _ => []
  | _, pos, caps => [(pos, caps)]

def iterate (mode : Mode) (greedy : Bool) (body : Paths) : Nat → Nat → Nat → Paths
  | 0, _, _, _, _ => []
  | fuel + 1, min, max, pos, caps =>
    if max = 0 then
      [(pos, caps)]
    else
      let again := (body pos caps).flatMap fun (q, caps') =>
        if q = pos ∧ (mode ≠ .doc ∨ min = 0) then
          mode.stop pos caps
        else
          iterate mode greedy body fuel (min - 1) (nextMax max) q caps'
      if min ≠ 0 then again else if greedy then again ++ [(pos, caps)] else (pos, caps) :: again

section Paths

variable (mode : Mode) (text : List UInt8)

mutual
@[simp]
def Node.paths : Node → Paths
  | .leaf l, pos, caps => (l.step text pos).toList.map fun q => (q, caps)
  | .group idx inner, pos, caps =>
    (inner.paths pos (caps.set idx (mode.offset pos, -1))).map fun (q, caps) =>
      (q, caps.set idx ((slot caps idx).1, mode.offset q))
  | .nonCap inner, pos, caps => inner.paths pos caps
  | .concat items, pos, caps => seqPaths items pos caps
  | .alt branches, pos, caps => altPaths branches pos caps
  | .repeats node min max _ greedy, pos, caps =>
    iterate mode greedy node.paths (text.length + 1 - pos + min) min max pos caps
@[simp]
def seqPaths : List Node → Paths
  | [], pos, caps => [(pos, caps)]
  | node :: nodes, pos, caps => (node.paths pos caps).flatMap fun (q, caps) => seqPaths nodes q caps
@[simp]
def altPaths : List Node → Paths
  | [], _, _ => []
  | node :: nodes, pos, caps => node.paths pos caps ++ altPaths nodes pos caps
end

end Paths

/-- The matches from `pos` with all their captures, in the order of their priority. -/
def spans (mode : Mode) (re : Regexp) (text : List UInt8) (pos : Nat) : List (Nat × Caps) :=
  (re.root.paths mode text pos ((unset re).set 0 (mode.offset pos, -1))).map fun (q, caps) =>
    (q, caps.set 0 (mode.offset pos, mode.offset q))

/-- The captures as the matcher stores them. -/
def stored (caps : Caps) : Caps :=
  caps.map fun c => (c.1.bmod (2 ^ 32), c.2.bmod (2 ^ 32))

end Regexp
