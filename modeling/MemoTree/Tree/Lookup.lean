import MemoTree.Node.Scan
import MemoTree.Tree.Basic

/-! # Lookups

A lookup descends from the root to a leaf. At each internal node it first asks the memo ring, if rings are
in use, and otherwise scans for the first separator at most the key and remembers the child it finds. At the
leaf only a slot with exactly the key counts. -/

namespace MemoTree
namespace Tree

variable {w : Width}

/-- The child of an internal node that a scan for `key` selects. -/
def scanChild (g : Geometry) (block : Node) (key : Words) : Except Fault (Option Handle) := do
  let i ← block.position g key
  if i = g.pairs then return none else block.child g i

/-- The child of `node` on the path of `key`, remembered or found by a scan. -/
def childFor (g : Geometry) (cached : Bool) (key : Words) (node : Handle) : NodeM (Option Handle) := do
  if cached then
    if let some child ← NodePool.remembered node key then return some child
  match ← scanChild g (← Pool.read node) key with
  | none => return none
  | some child =>
    if cached then NodePool.remember node key child
    return some child

/-- The leaf `steps` levels below `node` on the path of `key`. -/
def leafFor (g : Geometry) (cached : Bool) (key : Words) : (steps : Nat) → Handle → NodeM (Option Handle)
  | 0, node => return some node
  | steps + 1, node => do
    match ← childFor g cached key node with
    | none => return none
    | some child => leafFor g cached key steps child

/-- The leaf and the slot that hold exactly `key`. -/
def findSlot (key : Words) : TreeM w (Option (Handle × Nat)) := do
  let some root := (← get).root | return none
  let g := (← get).geometry
  let cached := (← get).memoize
  let steps := (← get).height - 1
  onNodes do
    let some leaf ← leafFor g cached key steps root | return none
    let some slot ← (← Pool.read leaf).find? g key | return none
    return some (leaf, slot)

/-- The value of a key. -/
def lookup (key : Key w) : TreeM w (Option Value) := do
  let found ← findSlot key.toWords
  let word ← match found with
    | none => pure 0
    | some (leaf, slot) =>
      let g := (← get).geometry
      let block ← onNodes (Pool.read leaf)
      block.value g slot
  (← get).hooks.tellTimer .lookup
  match Value.ofWord? word with
  | none => return none
  | some value =>
    (← get).hooks.tellMonitor value
    return some value

/-- Replaces the value of a key that is present. -/
def update (key : Key w) (value : Value) : TreeM w (Except Error Unit) := do
  let some (leaf, slot) ← findSlot key.toWords | return .error .notFound
  let g := (← get).geometry
  onNodes (Pool.update leaf fun block => block.writeValue g slot value.val)
  return .ok ()

end Tree
end MemoTree
