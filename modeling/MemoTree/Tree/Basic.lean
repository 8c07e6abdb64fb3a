import MemoTree.Config.Basic
import MemoTree.Hooks
import MemoTree.Memo.Protocol

/-! # Trees

A tree maps keys of one width to values. Its nodes are the blocks of a pool. All leaves are at one depth: they
are on level 1, and the root is on level `height`. In a node the keys descend from slot to slot; in an
internal node the key of a slot, its separator, is a lower bound of the keys in the child under it. -/

namespace MemoTree

/-- A map from keys of width `w` to values. -/
structure Tree (w : Width) where
  pool : NodePool
  /-- The top node; a tree without entries has none. -/
  root : Option Handle
  height : Nat
  /-- The number of entries. -/
  len : Nat
  /-- Slots of a node. -/
  pairs : Nat
  /-- Whether lookups use the memo rings. -/
  memoize : Bool
  hooks : Hooks

/-- An entry of a tree. -/
abbrev Entry (w : Width) := Key w × Value

/-- A computation on a tree. -/
abbrev TreeM (w : Width) := StateT (Tree w) Journaled

namespace Tree

variable {w : Width}

/-- The layout of the tree's nodes. -/
def geometry (t : Tree w) : Geometry := ⟨w.words, t.pairs⟩

/-- The tree without entries on a pool without blocks, with nodes of `pairs` slots. -/
def onPool (pool : NodePool) (pairs : Nat) (memoize : Bool) : Tree w where
  pool := pool
  root := none
  height := 0
  len := 0
  pairs := pairs
  memoize := memoize
  hooks := {}

/-- The tree without entries of the standard geometry. -/
def empty : Tree w :=
  let g := Geometry.standard w
  onPool (Pool.empty g.blockWords none) g.pairs true

/-- The tree without entries that a configuration describes. -/
def ofConfig (c : Config) : Except Fault (Except Error (Tree w)) := do
  match ← c.geometry w with
  | .error e => return .error e
  | .ok g =>
    let g ← g.checked
    let pool ← Pool.create g.blockWords c.reserve.toNat (c.blockLimit.map UInt64.toNat)
    return .ok (onPool pool g.pairs c.memoize)

/-- Whether the tree has no entries. -/
def isEmpty (t : Tree w) : Bool := t.root.isNone

/-- Runs a computation on the nodes of the tree. -/
def onNodes {α : Type} (action : NodeM α) : TreeM w α := fun t =>
  match t with
  | ⟨pool, root, height, len, pairs, memoize, hooks⟩ => do
    let (a, pool) ← action pool
    return (a, ⟨pool, root, height, len, pairs, memoize, hooks⟩)

/-- The entry in a slot of a node, if the slot is used. -/
def entryIn (t : Tree w) (node : Handle) (slot : Nat) : Except Fault (Option (Entry w)) := do
  let block ← t.pool.block node
  match Value.ofWord? (← block.value t.geometry slot) with
  | none => return none
  | some value => return some (← Key.ofWords w (← block.key t.geometry slot), value)

/-- The tree as it is written in messages. -/
def text (t : Tree w) : Except Fault String := do
  let g := t.geometry.text
  let pool := (← t.pool.stats).text
  let h := t.height
  let n := t.len
  let c := toString t.memoize
  return s!"CbTree \x7b height: {h}, len: {n}, geo: {g}, cache_enabled: {c}, pool: {pool} \x7d"

end Tree
end MemoTree
