import MemoTree.Node.Basic

/-! # Moving slots

How slots move within a node and between nodes: to make room for a pair, to close the gap that a pair leaves,
to hand the pairs with the largest keys to a new sibling, and to append the pairs of a sibling. Slots are
moved one at a time in the order in which no slot is overwritten before it is copied. -/

namespace MemoTree.Node

variable (g : Geometry)

/-- The pairs in the `count` slots from `start` on. -/
def pairsFrom (node : Node) : (count start : Nat) → Except Fault (List (Words × Word))
  | 0, _ => return []
  | count + 1, start => do
    let pair ← node.pair g start
    let rest ← pairsFrom node count (start + 1)
    return pair :: rest

/-- Moves the `count` slots from `start` on one slot up, the last one first. -/
def raise (start : Nat) : (count : Nat) → Node → Except Fault Node
  | 0, node => return node
  | count + 1, node => do
    let node ← node.copySlot g (start + count) (start + count + 1)
    raise start count node

/-- Moves the `count` slots from `start + by` on down by `shift` slots, the first one first. -/
def lower (shift : Nat) : (count start : Nat) → Node → Except Fault Node
  | 0, _, node => return node
  | count + 1, start, node => do
    let node ← node.copySlot g (start + shift) start
    lower shift count (start + 1) node

/-- Empties the `count` slots from `start` on. -/
def clearFrom : (count start : Nat) → Node → Except Fault Node
  | 0, _, node => return node
  | count + 1, start, node => do
    let node ← node.clearSlot g start
    clearFrom count (start + 1) node

/-- Writes pairs into the slots from `start` on. -/
def writePairs : (start : Nat) → List (Words × Word) → Node → Except Fault Node
  | _, [], node => return node
  | start, (key, value) :: rest, node => do
    let node ← node.writePair g start key value
    writePairs (start + 1) rest node

/-- Puts a pair into slot `pos` of a node with `fill` used slots; the slots from `pos` on move up. -/
def insertPair (node : Node) (pos fill : Nat) (key : Words) (value : Word) : Except Fault Node := do
  let node ← raise g pos (fill - pos) node
  node.writePair g pos key value

/-- Takes the pair in slot `pos` out of a node with `fill` used slots; the slots after it move down. -/
def erasePair (node : Node) (pos fill : Nat) : Except Fault Node := do
  let node ← lower g 1 (fill - 1 - pos) pos node
  node.clearSlot g (fill - 1)

/-- Takes the first `count` of `fill` used slots out; the others move down. -/
def dropPairs (node : Node) (count fill : Nat) : Except Fault Node := do
  let node ← lower g count (fill - count) 0 node
  clearFrom g count (fill - count) node

end MemoTree.Node
