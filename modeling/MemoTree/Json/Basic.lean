import MemoTree.Word

/-! # JSON values

A value of a JSON text. A number written with digits only is told apart from one with a sign, a fraction or an
exponent, even if they have one value. A string is kept as it is written, since it may spell half of a
surrogate pair, which is no text but does no harm where it is not read. -/

namespace MemoTree

/-- A part of a string: a character, or a UTF-16 unit given by its number. -/
inductive Piece where
  | char (c : Char)
  | unit (n : Nat)
  deriving DecidableEq

/-- The characters that a string spells. A pair of surrogates is one character, a lone one is none. -/
def Piece.decode? : List Piece → Option (List Char)
  | [] => some []
  | .char c :: rest => (decode? rest).map (c :: ·)
  | .unit high :: .unit low :: rest =>
    if 0xD800 ≤ high ∧ high < 0xDC00 then
      if 0xDC00 ≤ low ∧ low < 0xE000 then
        (decode? rest).map (Char.ofNat (0x10000 + (high - 0xD800) * 0x400 + (low - 0xDC00)) :: ·)
      else none
    else if 0xDC00 ≤ high ∧ high < 0xE000 then none
    else (decode? (.unit low :: rest)).map (Char.ofNat high :: ·)
  | .unit n :: rest =>
    if 0xD800 ≤ n ∧ n < 0xE000 then none else (decode? rest).map (Char.ofNat n :: ·)

/-- A JSON value. -/
inductive Json where
  | null
  | bool (b : Bool)
  /-- A number written with digits only. -/
  | natural (n : Nat)
  /-- Any other number: digits with a sign, times a power of ten. -/
  | number (negative : Bool) (digits : Nat) (exponent : Int)
  | string (pieces : List Piece)
  | array (items : List Json)
  /-- Members in the order in which they are written, repeated names included. -/
  | object (members : List (List Piece × Json))

namespace Json

/-- The text of a string. -/
def text? : Json → Option String
  | string pieces => (Piece.decode? pieces).map String.ofList
  | _ => none

/-- A natural number of at most 64 bits. -/
def word? : Json → Option UInt64
  | natural n => if n < 2 ^ (64 : Nat) then some (UInt64.ofNat n) else none
  | _ => none

/-- A truth value. -/
def bool? : Json → Option Bool
  | bool b => some b
  | _ => none

/-- The items of an array. -/
def items? : Json → Option (List Json)
  | array items => some items
  | _ => none

/-- The value of the last member of a name. -/
def member? (name : String) : Json → Option Json
  | object members =>
    (members.reverse.find? fun m => Piece.decode? m.1 = some name.toList).map (·.2)
  | _ => none

end Json
end MemoTree
