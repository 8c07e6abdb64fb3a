import MemoTree.Fault
import MemoTree.Key.Basic

/-! # Node geometry

How many pairs of a key and a value fit in one block, and where they lie in it. A block holds the keys of all
its slots, then their values, then the words reserved for what the memo ring needs. A node can be laid out
only if the number of words of its block is a word itself. -/

namespace MemoTree

/-- Words of each block kept for the memo ring, the reference count and the deleted mark. -/
def reservedWords : Nat := 3

/-- Bytes of a block unless a configuration says otherwise. -/
def standardBytes : Nat := 128

/-- The layout of a node. -/
structure Geometry where
  /-- Words of a key. -/
  keyLength : Nat
  /-- Slots of a node. -/
  pairs : Nat
  deriving DecidableEq

namespace Geometry

/-- The word at which the values begin. -/
def keyRegion (g : Geometry) : Nat := g.keyLength * g.pairs

/-- Words for keys and values in a node. -/
def slotWords (g : Geometry) : Nat := g.keyRegion + g.pairs

/-- Words of a block. -/
def blockWords (g : Geometry) : Nat := g.slotWords + reservedWords

/-- The geometry, if the words of a node's keys can be counted in a word. -/
def keysChecked (g : Geometry) : Except Fault Geometry :=
  if g.keyRegion < 2 ^ (64 : Nat) then .ok g else .error .overflow

/-- The geometry, if the words of its block can be counted in a word. -/
def checked (g : Geometry) : Except Fault Geometry :=
  if g.blockWords < 2 ^ (64 : Nat) then .ok g else .error .overflow

theorem of_keysChecked {g g' : Geometry} (h : g.keysChecked = .ok g') : g' = g := by
  unfold keysChecked at h
  split at h
  · exact (Except.ok.inj h).symm
  · cases h

theorem of_checked {g g' : Geometry} (h : g.checked = .ok g') : g' = g := by
  unfold checked at h
  split at h
  · exact (Except.ok.inj h).symm
  · cases h

/-- The geometry with as many slots as fit in a block of `bytes` bytes. -/
def ofBytes (keyLength bytes : Nat) : Geometry := ⟨keyLength, (bytes / 8 - reservedWords) / (keyLength + 1)⟩

/-- `ofBytes` for a key length that may be any word: the words of a slot must be a word too. -/
def ofBytesChecked (keyLength bytes : Nat) : Except Fault Geometry :=
  if keyLength + 1 < 2 ^ (64 : Nat) then .ok (ofBytes keyLength bytes) else .error .overflow

/-- The geometry for keys of width `w` in blocks of `bytes` bytes. -/
def ofWidth (w : Width) (bytes : Nat) : Geometry := ofBytes w.words bytes

/-- The geometry for keys of width `w` in blocks of the standard size. -/
def standard (w : Width) : Geometry := ofWidth w standardBytes

/-- A node other than the root with fewer used slots than this is repaired. -/
def minFill (g : Geometry) : Nat := g.pairs / 2

/-- The geometry as it is written in messages. -/
def text (g : Geometry) : String :=
  let k := g.keyLength
  let p := g.pairs
  let r := g.keyRegion
  s!"Geo \x7b key_length: {k}, pairs_per_node: {p}, key_region_words: {r} \x7d"

end Geometry
end MemoTree
