import MemoTree.Node.Scan
import MemoTree.Tree.Basic

/-! # The path of a change

A change descends to a node of a given level without the memo rings. Where all separators of a node are above
the key, it lowers the last one to the key, so that later searches for the key and for what lies between take
the same child. -/

namespace MemoTree
namespace Tree

variable {w : Width}

/-- The child of `node` on the path of `key`. If every separator is above `key`, the last one becomes `key`. -/
def stepDown (g : Geometry) (key : Words) (node : Handle) : NodeM Handle := do
  let block ← Pool.read node
  let i ← block.position g key
  let past ← if i = g.pairs then pure true else do pure ((← block.value g i) == 0)
  let child ←
    if past then
      if i = 0 then throw .noChildren
      let block ← block.writeKey g (i - 1) key
      Pool.write node block
      block.child g (i - 1)
    else block.child g i
  match child with
  | some child => return child
  | none => throw .missingChild

/-- The node `steps` levels below `node` on the path of `key`. -/
def descend (g : Geometry) (key : Words) : (steps : Nat) → Handle → NodeM Handle
  | 0, node => return node
  | steps + 1, node => do
    let child ← stepDown g key node
    descend g key steps child

/-- The node of a level on the path of `key`. -/
def nodeAt (key : Words) (level : Nat) : TreeM w Handle := do
  let some root := (← get).root | throw .emptyTree
  let g := (← get).geometry
  let steps := (← get).height - level
  onNodes (descend g key steps root)

end Tree
end MemoTree
