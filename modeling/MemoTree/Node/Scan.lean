import MemoTree.Node.Basic

/-! # Searching a node

The used slots of a node are packed to the left, their keys descending; the empty slots hold the zero key. So
the first slot whose key is not above a search key is the place of that key, and the first slot without a
value ends the used ones. Both scans answer the number of slots if no slot fits. -/

namespace MemoTree.Node

/-- The first of the `left` slots from `i` on that passes `holds`, or the slot behind them. -/
def firstSlot (holds : Nat → Except Fault Bool) : (left i : Nat) → Except Fault Nat
  | 0, i => return i
  | left + 1, i => do
    if ← holds i then return i
    firstSlot holds left (i + 1)

variable (node : Node) (g : Geometry)

/-- The order of the key in slot `n` against `key`. -/
def compareKey (n : Nat) (key : Words) : Except Fault Ordering := do
  Words.order (← node.key g n) key

/-- The first slot whose key is at most `key`. -/
def position (key : Words) : Except Fault Nat :=
  firstSlot (fun i => return (← node.compareKey g i key) != .gt) g.pairs 0

/-- The first empty slot at `start` or after it. -/
def fillFrom (start : Nat) : Except Fault Nat :=
  firstSlot (fun i => return (← node.value g i) == 0) (g.pairs - start) (min start g.pairs)

/-- The number of used slots. -/
def fill : Except Fault Nat := node.fillFrom g 0

/-- Whether slot `pos` is before `fill` and holds exactly `key`. -/
def holdsAt (pos fill : Nat) (key : Words) : Except Fault Bool :=
  if pos < fill then return (← node.compareKey g pos key) == .eq else return false

/-- The used slot that holds exactly `key`, looked for among the `left` slots from `i` on up to the first
empty one. -/
def findFrom (key : Words) : (left i : Nat) → Except Fault (Option Nat)
  | 0, _ => return none
  | left + 1, i => do
    if (← node.value g i) == 0 then return none
    if (← node.compareKey g i key) == .eq then return some i
    findFrom key left (i + 1)

/-- The used slot that holds exactly `key`. -/
def find? (key : Words) : Except Fault (Option Nat) := node.findFrom g key g.pairs 0

/-- Whether slot `n` is all zero. -/
def clearAt (n : Nat) : Except Fault Bool := do
  if Words.isZero (← node.key g n) then return (← node.value g n) == 0 else return false

/-- The children that the given slots name. -/
def children : (slots : List Nat) → Except Fault (List Handle)
  | [] => return []
  | n :: rest => do
    match ← node.child g n with
    | none => children rest
    | some child => return child :: (← children rest)

end MemoTree.Node
