/-! # Faults

What an operation does when something it takes for granted does not hold: a slot or a block that is not
there, a count that would fall below zero, a link that leads nowhere. A fault ends the operation and leaves
no state behind. It is kept apart from the errors an operation may return (`MemoTree/Error.lean`), after
which the tree goes on. -/

namespace MemoTree

/-- The ways in which something an operation takes for granted can fail. -/
inductive Fault where
  /-- A slot reaches past the words of its block. -/
  | wordOutOfRange
  /-- A key with more or fewer words than the one it is compared with or written over. -/
  | keyLength
  /-- A handle whose block was never made. -/
  | blockOutOfRange
  /-- A block is returned to the pool while it is on the free list. -/
  | releasedTwice
  /-- A block is handed out again while a memo still names it. -/
  | recycledReferenced
  /-- A reference is dropped from a node that has none. -/
  | referencesBelowZero
  /-- More blocks were returned than handed out. -/
  | outstandingBelowZero
  /-- A slot before the first one is asked for. -/
  | slotBelowZero
  /-- An entry is removed from a tree that counts none. -/
  | lengthBelowZero
  /-- A descent starts in a tree without a root. -/
  | emptyTree
  /-- An internal node has no child to descend to. -/
  | noChildren
  /-- A used slot of an internal node holds no handle. -/
  | missingChild
  /-- A node is not where the path of its key leads. -/
  | strayChild
  /-- The separator of a new node is already in use. -/
  | separatorPresent
  /-- Unlinking a node took another node's slot. -/
  | wrongUnlink
  /-- A node is full right after it was split. -/
  | stillFull
  /-- An operation climbs past the level above the root. -/
  | levelOutOfRange
  /-- A restarted search does not start lower than the one before. -/
  | noProgress
  /-- A tree holds more entries than it counts. -/
  | uncountedEntry
  /-- Fewer words than a key takes. -/
  | tooFewWords
  /-- More memory is asked for than can be had in one piece. -/
  | tooLarge
  /-- A number of words is too great for a word. -/
  | overflow
  deriving DecidableEq

/-- A computation that ends has come to the end of its first step. -/
theorem Fault.of_bind {α β : Type} {m : Except Fault α} {f : α → Except Fault β} {b : β} (h : m >>= f = .ok b) :
    ∃ a, m = .ok a ∧ f a = .ok b := by
  cases m with
  | error fault => cases h
  | ok a => exact ⟨a, rfl, h⟩

end MemoTree
