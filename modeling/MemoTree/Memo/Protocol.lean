import MemoTree.Memo.Ring
import MemoTree.Node.Basic
import MemoTree.Pool

/-! # Memos and the nodes they name

A memo names a node, so a node may go back to the pool only when it is unlinked from the tree and no memo
names it any more. A node counts the memos that name it, in whatever ring they are. Unlinking a node marks it
deleted and returns it at once if the count is zero; otherwise the return is deferred to the moment the last
memo is dropped. A memo is dropped when a store takes its slot, when its owner's entries change
(`invalidate`), or when its owner is unlinked. -/

namespace MemoTree

/-- Nodes are the blocks of a tree's pool. -/
instance : Block Node where
  bytes := 208
  fresh := Node.fresh
  renew := Node.renew

/-- The nodes of a tree. -/
abbrev NodePool := Pool Node

/-- A computation on the nodes of a tree. -/
abbrev NodeM := PoolM Node

namespace NodePool
open Pool

/-- Drops a reference to a node; a deleted node goes back with its last one. -/
def releaseRef (h : Handle) : NodeM Unit := do
  let node ← read h
  if node.refs = 0 then throw .referencesBelowZero
  write h { node with refs := node.refs - 1 }
  if node.refs = 1 ∧ node.deleted then
    emit (.releasing h)
    release h

/-- Drops the references of memos, one after the other. -/
def releaseRefs : List Memo → NodeM Unit
  | [] => return ()
  | m :: rest => do
    releaseRef m.child
    releaseRefs rest

/-- Empties a node's ring and answers how many memos it held. -/
def dropMemos (h : Handle) : NodeM Nat := do
  let node ← read h
  write h { node with ring := Ring.empty }
  releaseRefs node.ring.memos
  return node.ring.memos.length

/-- Empties the ring of a node whose entries have changed. -/
def invalidate (h : Handle) : NodeM Unit := do
  let dropped ← dropMemos h
  if dropped > 0 then emit (.invalidated h dropped)

/-- Remembers that a search of `parent` for `key` led to `child`. -/
def remember (parent : Handle) (key : Words) (child : Handle) : NodeM Unit := do
  let evicted := (← read parent).ring.evicted
  update child fun node => return { node with refs := node.refs + 1 }
  update parent fun node => return { node with ring := node.ring.store ⟨key, child⟩ }
  if let some old := evicted then releaseRef old.child

/-- The child of the first memo for `key` whose node is not deleted. -/
def firstServing (p : NodePool) (key : Words) : List Memo → Except Fault (Option Handle)
  | [] => return none
  | m :: rest =>
    if m.key = key then do
      if (← p.block m.child).deleted then firstServing p key rest else return some m.child
    else firstServing p key rest

/-- The child that a search of `parent` for `key` led to before, if it is remembered. -/
def remembered (parent : Handle) (key : Words) : NodeM (Option Handle) := do
  match ← firstServing (← get) key (← read parent).ring.fromProbe with
  | some child => return some child
  | none =>
    update parent fun node => return { node with ring := node.ring.advance }
    return none

/-- Unlinks a node from the tree and answers whether it went back to the pool at once. -/
def unlink (h : Handle) : NodeM Bool := do
  let _ ← dropMemos h
  update h fun node => return { node with deleted := true }
  let refs := (← read h).refs
  if refs = 0 then
    release h
    return true
  else
    emit (.deferred h refs)
    return false

end NodePool
end MemoTree
