import MemoTree.Node.Scan
import MemoTree.Tree.Basic

/-! # Validation

The check of a tree, whatever state it is in. A tree has a root if and only if it has a height. Every node
that can be reached is not deleted and not empty; its used slots are packed to the left and the others are
zero; its keys descend strictly and lie between its separator and the separator of its neighbour with larger
keys. The entries are as many as the tree counts, and the nodes not more than the blocks that are out. The
first violation is reported; within a node the checks come in the order given here. -/

namespace MemoTree

/-- A check that may find a violation. -/
abbrev Check := ExceptT Violation (Except Fault)

/-- What a check has counted. -/
structure Tally where
  entries : Nat
  nodes : Nat

namespace Tree

variable {w : Width}

/-- The slots from `fill` on are zero. -/
def checkUnused (g : Geometry) (node : Handle) (block : Node) (fill : Nat) : Check Unit :=
  (List.range' fill (g.pairs - fill)).forM fun i => do
    if !(← block.clearAt g i) then throw (.unclearedSlot node i fill)

/-- The keys of the used slots descend strictly from slot to slot and lie within the bounds. -/
def checkKeys (g : Geometry) (node : Handle) (block : Node) (fill : Nat) (lower upper : Option Words) :
    Check Unit :=
  (List.range fill).forM fun i => do
    let key ← block.key g i
    if i > 0 then
      if (← block.compareKey g (i - 1) key) != .gt then throw (.notDescending node i)
    if let some lower := lower then
      if Words.compare key lower == .lt then throw (.belowSeparator node i)
    if let some upper := upper then
      if Words.compare key upper != .lt then throw (.reachesNeighbour node i)

/-- The checks of a node that is `depth` levels above the leaves, apart from its children; answers the number
of its used slots. -/
def checkNode (g : Geometry) (node : Handle) (block : Node) (depth : Nat) (lower upper : Option Words) :
    Check Nat := do
  if block.deleted then throw (.deletedNode node)
  let fill ← block.fill g
  if fill = 0 then throw (.emptyNode node (depth + 1))
  checkUnused g node block fill
  checkKeys g node block fill lower upper
  return fill

/-- Checks the nodes under `node`, which is `depth` levels above the leaves, itself included. Keys must be at
least `lower` and below `upper`. -/
def checkUnder (t : Tree w) :
    (depth : Nat) → Handle → (lower upper : Option Words) → Tally → Check Tally
  | 0, node, lower, upper, tally => do
    let block ← t.pool.block node
    let fill ← checkNode t.geometry node block 0 lower upper
    return ⟨tally.entries + fill, tally.nodes + 1⟩
  | depth + 1, node, lower, upper, tally => do
    let g := t.geometry
    let block ← t.pool.block node
    let fill ← checkNode g node block (depth + 1) lower upper
    (List.range fill).foldlM (fun tally i => do
      match ← block.child g i with
      | none => throw (.noChild node i)
      | some child =>
        let lower ← block.key g i
        let upper ← if i = 0 then pure upper else do pure (some (← block.key g (i - 1)))
        checkUnder t depth child (some lower) upper tally) ⟨tally.entries, tally.nodes + 1⟩

/-- Checks a tree. -/
def check (t : Tree w) : Check Unit := do
  match t.root with
  | none => if t.height ≠ 0 ∨ t.len ≠ 0 then throw (.rootless t.height t.len)
  | some root =>
    if t.height = 0 then throw .flat
    let tally ← t.checkUnder (t.height - 1) root none none ⟨0, 0⟩
    if tally.entries ≠ t.len then throw (.wrongLen t.len tally.entries)
    let out ← t.pool.outstanding
    if tally.nodes > out then throw (.tooManyNodes tally.nodes out)

/-- The first violation of a tree, if it has one. -/
def validate (t : Tree w) : Except Fault (Except Error Unit) := do
  return (← t.check.run).mapError Error.violated

end Tree
end MemoTree
