import MemoTree.Node.Shift
import MemoTree.Tree.Path

/-! # Removal

A pair is taken out of the node of its level on the path of its key. A node other than the root that is left
with fewer than `minFill` pairs is joined with a neighbour under the same parent if both fit into one node,
the one with larger keys first; an empty one is unlinked. Either takes a slot out of the parent, so the repair
may climb. A root without entries goes, and the only child of an internal root becomes the root.

To join two neighbours, the right one's pairs are appended to the left one, and the parent's two child words
are exchanged before the left one's separator is removed: the slot that goes then names the right node, and
the left one stays under the smaller separator. -/

namespace MemoTree
namespace Tree

variable {w : Width}

/-- How a repair unlinks a node: takes the pair on the path of a key out of a level and answers its value. -/
abbrev Unlinker (w : Width) := Words → (level : Nat) → TreeM w (Option Word)

/-- Drops the root's level: its only child becomes the root. -/
def dropLevel : TreeM w Unit := do
  let some old := (← get).root | return ()
  let g := (← get).geometry
  let child ← onNodes do (← Pool.read old).child g 0
  modify fun t => { t with root := child, height := t.height - 1 }
  let _ ← onNodes (NodePool.unlink old)
  emit (.shrank (← get).height)

/-- Drops a root without entries. -/
def dropRoot : TreeM w Unit := do
  let root := (← get).root
  modify fun t => { t with root := none }
  if let some root := root then
    let _ ← onNodes (NodePool.unlink root)
  modify fun t => { t with height := 0 }
  emit .emptied

/-- Appends the pairs of `right` to `left`, its neighbour in slot `slot` of `parent`, and unlinks `right`. -/
def join (unlinkSlot : Unlinker w) (level : Nat) (left : Handle) (leftFill : Nat) (right : Handle)
    (rightFill : Nat) (parent : Handle) (slot : Nat) : TreeM w Unit := do
  let g := (← get).geometry
  let separator ← onNodes do
    let moved ← (← Pool.read right).pairsFrom g rightFill 0
    Pool.update left (Node.writePairs g leftFill moved)
    if level > 1 then NodePool.invalidate left
    Pool.update parent fun block => do
      let block ← block.writeValue g slot right.word
      block.writeValue g (slot + 1) left.word
    (← Pool.read parent).key g slot
  let unlinked ← unlinkSlot separator (level + 1)
  if unlinked ≠ some right.word then throw .wrongUnlink
  let released ← onNodes (NodePool.unlink right)
  emit (.joined level left right released)

/-- The neighbours of `child` in its parent: its slot, the node before it and the node after it. -/
def neighbours (g : Geometry) (key : Words) (parent child : Handle) :
    NodeM (Nat × Option Handle × Option Handle) := do
  let block ← Pool.read parent
  let i ← block.position g key
  if (← block.child g i) ≠ some child then throw .strayChild
  let left ← if i = 0 then pure none else block.child g (i - 1)
  let right ← if i + 1 < g.pairs then block.child g (i + 1) else pure none
  return (i, left, right)

/-- The number of used slots of a neighbour that fits into one node with `fill` pairs. -/
def fitting (g : Geometry) (fill : Nat) : Option Handle → NodeM (Option (Handle × Nat))
  | none => return none
  | some node => do
    let other ← (← Pool.read node).fill g
    if fill + other ≤ g.pairs then return some (node, other) else return none

/-- Repairs `child`, which is not the root and has only `fill` pairs. `key` is a key on its path. -/
def repair (unlinkSlot : Unlinker w) (key : Words) (level : Nat) (child : Handle) (fill : Nat) :
    TreeM w Unit := do
  if fill = 0 then
    let _ ← unlinkSlot key (level + 1)
    let _ ← onNodes (NodePool.unlink child)
    return ()
  let parent ← nodeAt key (level + 1)
  let g := (← get).geometry
  let (i, left, right) ← onNodes (neighbours g key parent child)
  if let some (left, leftFill) ← onNodes (fitting g fill left) then
    join unlinkSlot level left leftFill child fill parent (i - 1)
  else if let some (right, rightFill) ← onNodes (fitting g fill right) then
    join unlinkSlot level child fill right rightFill parent i

/-- Takes a pair out of the node of its level and answers the node, the value and the number of pairs left. At
level 1 the key must be present. -/
def takePair (key : Words) (level : Nat) : TreeM w (Option (Handle × Word × Nat)) := do
  let node ← nodeAt key level
  let g := (← get).geometry
  onNodes do
    let block ← Pool.read node
    let pos ← block.position g key
    let fill ← block.fillFrom g pos
    let present ← if level = 1 then block.holdsAt g pos fill key else pure (decide (pos < fill))
    if !present then return none
    let value ← block.value g pos
    Pool.write node (← block.erasePair g pos fill)
    return some (node, value, fill - 1)

/-- Takes a pair out of a level, repairs what falls short, and answers the value word that went. At most
`rungs` levels are touched. -/
def deleteAt : (rungs : Nat) → Words → (level : Nat) → TreeM w (Option Word)
  | 0, _, _ => throw .levelOutOfRange
  | rungs + 1, key, level => do
    let some (node, value, fill) ← takePair key level | return none
    if level = (← get).height then
      if fill = 0 then dropRoot
      else if fill = 1 ∧ level > 1 then dropLevel
    else if fill < (← get).geometry.minFill then
      repair (fun k l => deleteAt rungs k l) key level node fill
    return some value

/-- Removes a key and answers its value, if it was present. -/
def remove (key : Key w) : TreeM w (Option Value) := do
  if (← get).root.isNone then return none
  let rungs := (← get).height
  let some word ← deleteAt rungs key.toWords 1 | return none
  if (← get).len = 0 then throw .lengthBelowZero
  modify fun t => { t with len := t.len - 1 }
  return Value.ofWord? word

end Tree
end MemoTree
