import MemoTree.Fault
import MemoTree.Geometry
import MemoTree.Memo.Ring
import MemoTree.Memory

/-! # Nodes

A node keeps its slots in one array of words, laid out as its geometry says: the keys of all slots, then
their values. A slot is a key and a value word; it is empty if the value word is zero. At a leaf the value
word is the caller's value, above it is the handle of a child. Beside the words stand the number of memos that
name the node, the mark of a node that is unlinked from the tree, and the node's own memo ring.

Reading or writing beyond the array is a fault. -/

namespace MemoTree

/-- A node of a tree. -/
structure Node where
  words : Array Word
  /-- Memos, anywhere in the tree, that name this node. -/
  refs : Nat
  /-- The node is unlinked from its parent. -/
  deleted : Bool
  ring : Ring
  deriving DecidableEq

namespace Node

/-- A node in a block of `blockWords` words with every slot empty. -/
def fresh (blockWords : Nat) : Except Fault Node := do
  return ⟨← zeroWords (blockWords - reservedWords), 0, false, Ring.empty⟩

/-- A node can be made if its slots can be had in one piece. -/
theorem fresh_eq {blockWords : Nat} (h : 8 * (blockWords - reservedWords) ≤ addressable) :
    fresh blockWords = .ok ⟨Array.replicate (blockWords - reservedWords) 0, 0, false, Ring.empty⟩ := by
  rw [fresh, zeroWords, if_pos h]
  rfl

theorem fresh_eq_tooLarge {blockWords : Nat} (h : ¬8 * (blockWords - reservedWords) ≤ addressable) :
    fresh blockWords = .error .tooLarge := by
  rw [fresh, zeroWords, if_neg h]
  rfl

theorem of_fresh {blockWords : Nat} {b : Node} (h : fresh blockWords = .ok b) :
    b = ⟨Array.replicate (blockWords - reservedWords) 0, 0, false, Ring.empty⟩ := by
  by_cases hfits : 8 * (blockWords - reservedWords) ≤ addressable
  · rw [fresh_eq hfits] at h
    exact (Except.ok.inj h).symm
  · rw [fresh_eq_tooLarge hfits] at h
    cases h

/-- Makes a node that was used before as good as new. No memo may name it. -/
def renew (node : Node) : Except Fault Node :=
  if node.refs = 0 then .ok ⟨Array.replicate node.words.size 0, 0, false, Ring.empty⟩
  else .error .recycledReferenced

variable (node : Node) (g : Geometry)

/-- The key in slot `n`. -/
def key (n : Nat) : Except Fault Words :=
  let start := n * g.keyLength
  if start + g.keyLength ≤ node.words.size then .ok (node.words.extract start (start + g.keyLength)).toList
  else .error .wordOutOfRange

/-- The value word in slot `n`. -/
def value (n : Nat) : Except Fault Word :=
  match node.words[g.keyRegion + n]? with
  | some word => .ok word
  | none => .error .wordOutOfRange

/-- The child that slot `n` names. -/
def child (n : Nat) : Except Fault (Option Handle) := do
  return Handle.ofWord? (← node.value g n)

/-- The key and the value word in slot `n`. -/
def pair (n : Nat) : Except Fault (Words × Word) := do
  let key ← node.key g n
  let value ← node.value g n
  return (key, value)

/-- Writes `ws` into an array, from place `i` on. -/
def writeFrom (words : Array Word) : (i : Nat) → Words → Array Word
  | _, [] => words
  | i, w :: ws => writeFrom (words.setIfInBounds i w) (i + 1) ws

/-- Overwrites the key in slot `n`. -/
def writeKey (n : Nat) (key : Words) : Except Fault Node :=
  let start := n * g.keyLength
  if start + g.keyLength ≤ node.words.size then
    if key.length = g.keyLength then .ok { node with words := writeFrom node.words start key }
    else .error .keyLength
  else .error .wordOutOfRange

/-- Overwrites the value word in slot `n`. -/
def writeValue (n : Nat) (value : Word) : Except Fault Node :=
  if g.keyRegion + n < node.words.size then
    .ok { node with words := node.words.setIfInBounds (g.keyRegion + n) value }
  else .error .wordOutOfRange

/-- Overwrites slot `n`. -/
def writePair (n : Nat) (key : Words) (value : Word) : Except Fault Node := do
  let node ← node.writeKey g n key
  node.writeValue g n value

/-- Copies slot `source` over slot `target`. -/
def copySlot (source target : Nat) : Except Fault Node := do
  let key ← node.key g source
  let node ← node.writeKey g target key
  let value ← node.value g source
  node.writeValue g target value

/-- Empties slot `n`. -/
def clearSlot (n : Nat) : Except Fault Node := node.writePair g n (List.replicate g.keyLength 0) 0

end Node
end MemoTree
