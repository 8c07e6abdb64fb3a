import MemoTree.Fault
import MemoTree.Key.Words

/-! # Memory

What is asked for in one piece must be addressable: a piece of memory has at most `2 ^ 63 - 1` bytes, and a
word takes eight. -/

namespace MemoTree

/-- The most bytes that one piece of memory can have. -/
def addressable : Nat := 2 ^ (63 : Nat) - 1

/-- An array of zero words, if it can be had in one piece. -/
def zeroWords (words : Nat) : Except Fault (Array Word) :=
  if 8 * words ≤ addressable then .ok (Array.replicate words 0) else .error .tooLarge

end MemoTree
