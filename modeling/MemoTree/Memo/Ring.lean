import MemoTree.Handle

/-! # Memo rings

An internal node remembers where the last few searches through it went: four slots, each empty or holding a
memo, a search key with the child it led to. A store takes the slot `next` and moves it on; a search looks at
the slots from `probe` on, and a search that finds nothing moves `probe` on. -/

namespace MemoTree

/-- A search key and the child it led to. -/
structure Memo where
  key : Words
  child : Handle
  deriving DecidableEq

/-- The memos of a node. -/
structure Ring where
  slots : Vector (Option Memo) 4
  /-- The slot a search looks at first. -/
  probe : Fin 4
  /-- The slot the next store takes. -/
  next : Fin 4
  deriving DecidableEq

namespace Ring

/-- The ring of a new node. -/
def empty : Ring := ⟨Vector.replicate 4 none, 0, 0⟩

/-- The memos held, in slot order. -/
def memos (r : Ring) : List Memo := r.slots.toList.filterMap id

/-- The memos held, in the order in which a search looks at them. -/
def fromProbe (r : Ring) : List Memo :=
  [r.slots[r.probe], r.slots[r.probe + 1], r.slots[r.probe + 2], r.slots[r.probe + 3]].filterMap id

/-- Stores a memo. -/
def store (r : Ring) (m : Memo) : Ring := { r with slots := r.slots.set r.next (some m), next := r.next + 1 }

/-- The memo that the next store takes the slot of. -/
def evicted (r : Ring) : Option Memo := r.slots[r.next]

/-- Starts the next search one slot further on. -/
def advance (r : Ring) : Ring := { r with probe := r.probe + 1 }

end Ring
end MemoTree
