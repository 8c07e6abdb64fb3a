/-! # Machine words

Keys, values and the numbers that lay out a node are kept in words of 64 bits. How much a word can count is
written as a power, and powers of natural numbers are those of the standard library throughout, whatever else
is imported. -/

namespace MemoTree

attribute [scoped instance (1100)] instPowNat

/-- A machine word. -/
abbrev Word := UInt64

end MemoTree
