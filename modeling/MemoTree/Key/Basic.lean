import MemoTree.Fault
import MemoTree.Key.Words

/-! # Keys

The keys of a tree are the natural numbers below `2 ^ bits`, for one of four widths. A key fills as many
words as its bits need; reading a key back from words keeps the low bits of the number the words denote. -/

namespace MemoTree

/-- The width of the keys of a tree. -/
inductive Width where
  /-- As wide as a machine word. -/
  | native
  | bits32
  | bits64
  | bits128
  deriving DecidableEq

namespace Width

/-- Bits of a key. -/
def bits : Width → Nat
  | native => 64
  | bits32 => 32
  | bits64 => 64
  | bits128 => 128

/-- Words that a key fills. -/
def words (w : Width) : Nat := (w.bits + 63) / 64

end Width

/-- A key of width `w`. -/
abbrev Key (w : Width) := Fin (2 ^ w.bits)

namespace Key

variable {w : Width}

/-- The key in word form. -/
def toWords (k : Key w) : Words := Words.ofNat w.words k.val

/-- The low bits of the number that `ws` denotes. -/
def ofNat (w : Width) (n : Nat) : Key w := ⟨n % 2 ^ w.bits, Nat.mod_lt n (Nat.two_pow_pos w.bits)⟩

/-- The number `n` as a key, if it is small enough. -/
def ofNat? (w : Width) (n : Nat) : Option (Key w) :=
  if h : n < 2 ^ w.bits then some ⟨n, h⟩ else none

/-- Reads a key from the first words of `ws`; the words after them do not count. -/
def ofWords (w : Width) (ws : Words) : Except Fault (Key w) :=
  if w.words ≤ ws.length then .ok (ofNat w (Words.toNat (ws.take w.words))) else .error .tooFewWords

end Key

/-- A value: a word that is not zero, since a zero word marks an empty slot. -/
abbrev Value := { word : Word // word ≠ 0 }

/-- The value a word holds, if it is not zero. -/
def Value.ofWord? (word : Word) : Option Value :=
  if h : word ≠ 0 then some ⟨word, h⟩ else none

end MemoTree
