import MemoTree.Node.Scan
import MemoTree.Node.Shift
import MemoTree.Tree.Basic

/-! # Walks through the nodes

A walk visits the entries under a node in the order of their keys, descending or ascending, and numbers them.
Draining a tree walks through it and unlinks every node after the entries under it. -/

namespace MemoTree

/-- The order of a walk. -/
inductive Order where
  | descending
  | ascending
  deriving DecidableEq

/-- A walk starts with the largest key unless it is told otherwise. -/
def Order.standard : Order := .descending

/-- The used slots of a node in the order of a walk. -/
def Order.slots (order : Order) (fill : Nat) : List Nat :=
  match order with
  | .descending => List.range fill
  | .ascending => (List.range fill).reverse

namespace Tree

variable {w : Width}

/-- An entry that was visited, and how many were before it. -/
structure Visit (w : Width) where
  value : Value
  key : Key w
  index : Nat

/-- Visits the given slots of a leaf. -/
def visitLeaf (g : Geometry) (block : Node) : List Nat → Array (Visit w) → Except Fault (Array (Visit w))
  | [], seen => return seen
  | i :: rest, seen => do
    match Value.ofWord? (← block.value g i) with
    | none => visitLeaf g block rest seen
    | some value => visitLeaf g block rest (seen.push ⟨value, ← Key.ofWords w (← block.key g i), seen.size⟩)

/-- Visits the entries under `node`, which is `depth` levels above the leaves. With `reap`, each node is
unlinked after the entries under it. -/
def walk (g : Geometry) (order : Order) (reap : Bool) :
    (depth : Nat) → Handle → Array (Visit w) → NodeM (Array (Visit w))
  | 0, node, seen => do
    let block ← Pool.read node
    let seen ← visitLeaf g block (order.slots (← block.fill g)) seen
    if reap then
      let _ ← NodePool.unlink node
    return seen
  | depth + 1, node, seen => do
    let block ← Pool.read node
    let children ← block.children g (order.slots (← block.fill g))
    let seen ← children.foldlM (fun seen child => walk g order reap depth child seen) seen
    if reap then
      let _ ← NodePool.unlink node
    return seen

/-- Visits every entry. -/
def visit (order : Order) : TreeM w (Array (Visit w)) := do
  let some root := (← get).root | return #[]
  let g := (← get).geometry
  let depth := (← get).height - 1
  onNodes (walk g order false depth root #[])

/-- Visits every entry and unlinks every node. -/
def drain (order : Order) : TreeM w (Array (Visit w)) := do
  let seen ← match (← get).root with
    | none => pure #[]
    | some root =>
      let g := (← get).geometry
      let depth := (← get).height - 1
      onNodes (walk g order true depth root #[])
  modify fun t => { t with root := none, height := 0, len := 0 }
  emit (.drained seen.size (← (← get).pool.outstanding))
  return seen

/-- Unlinks every node and answers how many entries there were. -/
def destroy : TreeM w Nat := do
  return (← drain .descending).size

/-- The number of nodes under `node`, which is `depth` levels above the leaves, itself included. -/
def sizeUnder (t : Tree w) : (depth : Nat) → Handle → Except Fault Nat
  | 0, _ => return 1
  | depth + 1, node => do
    let block ← t.pool.block node
    let children ← block.children t.geometry (List.range (← block.fill t.geometry))
    children.foldlM (fun count child => return count + (← sizeUnder t depth child)) 1

/-- The number of nodes that can be reached from the root. -/
def nodeCount (t : Tree w) : Except Fault Nat :=
  match t.root with
  | none => return 0
  | some root => t.sizeUnder (t.height - 1) root

/-- A node as it stands in its tree. -/
structure NodeView where
  node : Handle
  level : Nat
  refs : Nat
  /-- The used slots. -/
  pairs : List (Words × Word)
  ring : Ring

/-- The nodes under `node`, which is `depth` levels above the leaves: each before its children. -/
def viewNodes (t : Tree w) : (depth : Nat) → Handle → Array NodeView → Except Fault (Array NodeView)
  | 0, node, views => do
    let block ← t.pool.block node
    let pairs ← block.pairsFrom t.geometry (← block.fill t.geometry) 0
    return views.push ⟨node, 1, block.refs, pairs, block.ring⟩
  | depth + 1, node, views => do
    let block ← t.pool.block node
    let fill ← block.fill t.geometry
    let pairs ← block.pairsFrom t.geometry fill 0
    let children ← block.children t.geometry (List.range fill)
    children.foldlM (fun views child => viewNodes t depth child views)
      (views.push ⟨node, depth + 2, block.refs, pairs, block.ring⟩)

/-- The nodes that can be reached from the root, each before its children. -/
def nodes (t : Tree w) : Except Fault (Array NodeView) :=
  match t.root with
  | none => return #[]
  | some root => t.viewNodes (t.height - 1) root #[]

end Tree
end MemoTree
