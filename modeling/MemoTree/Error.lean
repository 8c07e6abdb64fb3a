import MemoTree.Geometry
import MemoTree.Handle

/-! # Errors

What an operation returns when it cannot do what it was asked to. The state it leaves behind is whole. The
wording is in `Error.message`. -/

namespace MemoTree

/-- What is wrong with a tree, with a configuration, or with two trees to be merged. -/
inductive Violation where
  /-- A geometry with fewer than two slots, which a split could not halve. -/
  | tooFewPairs (geometry : Geometry)
  /-- Both trees of a merge hold this key. -/
  | sharedKey (key : Nat)
  /-- A tree without a root that has a height or counts entries. -/
  | rootless (height len : Nat)
  /-- A tree with a root and no height. -/
  | flat
  | deletedNode (node : Handle)
  | emptyNode (node : Handle) (height : Nat)
  | unclearedSlot (node : Handle) (slot fill : Nat)
  | notDescending (node : Handle) (slot : Nat)
  | belowSeparator (node : Handle) (slot : Nat)
  | reachesNeighbour (node : Handle) (slot : Nat)
  | noChild (node : Handle) (slot : Nat)
  /-- The tree counts `len` entries and holds `entries`. -/
  | wrongLen (len entries : Nat)
  /-- More nodes are reachable than blocks are handed out. -/
  | tooManyNodes (nodes outstanding : Nat)
  deriving DecidableEq

namespace Violation

/-- The wording of a violation. -/
def text : Violation → String
  | tooFewPairs geometry =>
    let g := geometry.text
    s!"geometry {g} holds fewer than two pairs per node"
  | sharedKey key => s!"key {key} present in both merged trees"
  | rootless height len => s!"empty tree with height {height} and len {len}"
  | flat => "non-empty tree with height 0"
  | deletedNode node => node.text ++ " is reachable but marked deleted"
  | emptyNode node height => node.text ++ s!" at height {height} is empty"
  | unclearedSlot node slot fill => node.text ++ s!" slot {slot} is past the fill of {fill} but not zero"
  | notDescending node slot => node.text ++ s!" keys not strictly descending at slot {slot}"
  | belowSeparator node slot => node.text ++ s!" slot {slot} is below its separator"
  | reachesNeighbour node slot => node.text ++ s!" slot {slot} reaches its neighbour's separator"
  | noChild node slot => node.text ++ s!" slot {slot} holds no child"
  | wrongLen len entries => s!"len {len} but {entries} entries reachable"
  | tooManyNodes nodes outstanding =>
    s!"{nodes} nodes reachable but only {outstanding} blocks outstanding"

end Violation

/-- Why an operation did not do what it was asked to. -/
inductive Error where
  /-- No block can be handed out while `inUse` blocks are. -/
  | outOfMemory (inUse : Nat)
  /-- The key to insert is present. -/
  | duplicateKey
  /-- The key to update is absent. -/
  | notFound
  | violated (violation : Violation)
  deriving DecidableEq

namespace Error

/-- The wording of an error. -/
def message : Error → String
  | outOfMemory inUse => s!"block pool exhausted ({inUse} blocks in use)"
  | duplicateKey => "key already present in tree"
  | notFound => "key not found"
  | violated violation => "invariant violated: " ++ violation.text

end Error
end MemoTree
