import MemoTree.Error

/-! # Configurations

The settings a tree is made with. The number of slots of a node follows from the size of a block unless it is
given. A configuration is usable if its nodes have at least two slots, since a node with fewer cannot be
split. -/

namespace MemoTree

/-- The settings of a tree. -/
structure Config where
  /-- Bytes of a block. -/
  blockBytes : Word := UInt64.ofNat standardBytes
  /-- Slots of a node, if they do not follow from the size of a block. -/
  pairs : Option Word := none
  /-- Blocks to reserve when the tree is made. -/
  reserve : Word := 0
  /-- The greatest number of blocks that may be out at one time. -/
  blockLimit : Option Word := none
  /-- Whether lookups use the memo rings. -/
  memoize : Bool := true
  deriving DecidableEq

namespace Config

/-- The layout of nodes with keys of width `w`, usable or not. -/
def layout (c : Config) (w : Width) : Geometry :=
  match c.pairs with
  | some pairs => ⟨w.words, pairs.toNat⟩
  | none => Geometry.ofWidth w c.blockBytes.toNat

/-- The geometry of nodes with keys of width `w`, if it has two slots or more. Only the words of a node's keys
are counted for it: that the words of a block are too many for a word shows when a tree is made. -/
def geometry (c : Config) (w : Width) : Except Fault (Except Error Geometry) := do
  let g ← (c.layout w).keysChecked
  return if g.pairs < 2 then .error (.violated (.tooFewPairs g)) else .ok g

theorem keyLength_layout (c : Config) (w : Width) : (c.layout w).keyLength = w.words := by
  unfold layout
  split <;> rfl

/-- A geometry that is accepted has keys of the words of their width, and two slots or more. -/
theorem of_geometry {c : Config} {w : Width} {g : Geometry} (h : c.geometry w = .ok (.ok g)) :
    g.keyLength = w.words ∧ 2 ≤ g.pairs := by
  obtain ⟨g', hg', h⟩ := Fault.of_bind h
  obtain rfl := Geometry.of_keysChecked hg'
  simp only [pure, Except.pure, Except.ok.injEq] at h
  split at h
  · cases h
  · cases h
    exact ⟨keyLength_layout c w, by omega⟩

end Config
end MemoTree
