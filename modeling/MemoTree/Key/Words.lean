import MemoTree.Fault
import MemoTree.Word

/-! # Keys in word form

A key is kept as a list of 64-bit words, most significant word first, so that comparing two keys of one
length word by word compares the numbers they denote (`Words.toNat`). The predecessor of a key subtracts one
from the last word and borrows to the left; it wraps around on the zero key. -/

namespace MemoTree

/-- A key in word form, most significant word first. -/
abbrev Words := List Word

namespace Words

/-- The number that `ws` denotes in base `2 ^ 64`. -/
def toNat : Words → Nat
  | [] => 0
  | w :: ws => w.toNat * 2 ^ (64 * ws.length) + toNat ws

/-- The lowest `n` words of a number. -/
def ofNat : (n : Nat) → Nat → Words
  | 0, _ => []
  | n + 1, v => UInt64.ofNat (v / 2 ^ (64 * n)) :: ofNat n v

/-- The order of two keys of one length: the first word in which they differ decides. -/
def compare : Words → Words → Ordering
  | a :: as, b :: bs => (Ord.compare a b).then (compare as bs)
  | _, _ => .eq

/-- The order of two keys, which must have one length. -/
def order (a b : Words) : Except Fault Ordering :=
  if a.length = b.length then .ok (compare a b) else .error .keyLength

/-- Whether every word is zero. -/
def isZero (ws : Words) : Bool := ws.all (· == 0)

/-- `ws` less one, and whether a borrow leaves its first word. -/
def borrow : Words → Words × Bool
  | [] => ([], true)
  | w :: ws =>
    match borrow ws with
    | (ws', true) => ((w - 1) :: ws', w == 0)
    | (ws', false) => (w :: ws', false)

/-- The key before `ws`; the key before zero has every bit set. -/
def pred (ws : Words) : Words := (borrow ws).1

@[simp] theorem length_ofNat (n v : Nat) : (ofNat n v).length = n := by
  induction n with
  | zero => rfl
  | succ n ih => simp [ofNat, ih]

theorem length_borrow (ws : Words) : (borrow ws).1.length = ws.length := by
  induction ws with
  | nil => rfl
  | cons w ws ih =>
    rw [borrow]
    split <;> next h => rw [h] at ih; simpa using ih

theorem length_pred (ws : Words) : (pred ws).length = ws.length := length_borrow ws

end Words
end MemoTree
