import MemoTree.Key.Words

/-! # Handles

A block of a pool is named by its index. In a value word it is written as the index plus one, so that a zero
word never names a block; a word above `2 ^ 32 - 1` names none either. -/

namespace MemoTree

/-- The handle of a block. -/
structure Handle where
  /-- The block's place in its pool. -/
  index : Nat
  /-- Its word fits in 32 bits. -/
  small : index + 1 < 2 ^ (32 : Nat)
  deriving DecidableEq

namespace Handle

/-- The handle of the block at `index`. -/
def ofIndex? (index : Nat) : Option Handle :=
  if h : index + 1 < 2 ^ (32 : Nat) then some ⟨index, h⟩ else none

/-- The number that stands for the handle. -/
def number (h : Handle) : Nat := h.index + 1

/-- The value word that names the block. -/
def word (h : Handle) : Word := UInt64.ofNat h.number

/-- The block that a value word names. -/
def ofWord? (word : Word) : Option Handle :=
  if word = 0 then none else ofIndex? (word.toNat - 1)

/-- The handle as it is written in messages and events. -/
def text (h : Handle) : String :=
  let n := h.number
  s!"NodeId({n})"

theorem ofWord?_word (h : Handle) : ofWord? h.word = some h := by
  have hs := h.small
  have hw : h.word.toNat = h.index + 1 := by
    simp only [word, number, UInt64.toNat_ofNat']
    omega
  have hz : h.word ≠ 0 := by
    intro h0
    rw [h0] at hw
    simp at hw
  have hi : h.word.toNat - 1 = h.index := by omega
  rw [ofWord?, if_neg hz, hi, ofIndex?, dif_pos hs]

end Handle
end MemoTree
