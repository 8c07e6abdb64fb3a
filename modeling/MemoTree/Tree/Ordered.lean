import MemoTree.Node.Scan
import MemoTree.Tree.Basic

/-! # Ordered reads

The entry with the largest key, the entry before a key, and the sequence of all entries in descending order,
which asks for the entry before the last one it gave. These reads use no memo rings.

The entry before a key is searched for below the key's predecessor. If the leaf so found has no key that small,
the search starts again below the last separator it passed, a lower bound of that leaf. Each restart is below
the one before, so the search ends. -/

namespace MemoTree
namespace Tree

variable {w : Width}

/-- The node `steps` levels below `node` in the first slots. -/
def firstLeaf (t : Tree w) : (steps : Nat) → Handle → Except Fault (Option Handle)
  | 0, node => return some node
  | steps + 1, node => do
    match ← (← t.pool.block node).child t.geometry 0 with
    | none => return none
    | some child => firstLeaf t steps child

/-- The entry with the largest key. -/
def last (t : Tree w) : Except Fault (Option (Entry w)) := do
  let some root := t.root | return none
  let some leaf ← t.firstLeaf (t.height - 1) root | return none
  t.entryIn leaf 0

/-- Where a descent by separators ends. -/
structure Descent where
  /-- The leaf reached, unless a node had no separator low enough. -/
  leaf : Option Handle
  /-- The last separator passed. -/
  separator : Option Words

/-- Descends `steps` levels from `node` to the leaf whose range holds `target`. -/
def descent (t : Tree w) (target : Words) :
    (steps : Nat) → Handle → (separator : Option Words) → Except Fault Descent
  | 0, node, separator => return ⟨some node, separator⟩
  | steps + 1, node, separator => do
    let g := t.geometry
    let block ← t.pool.block node
    let i ← block.position g target
    let child ← if i < g.pairs then block.child g i else pure none
    match child with
    | none => return ⟨none, separator⟩
    | some child => descent t target steps child (some (← block.key g i))

/-- What a search for the entry at or below a key comes to. -/
inductive Probe (w : Width) where
  | found (entry : Option (Entry w))
  /-- There is none in the leaf; search below this separator. -/
  | below (separator : Words)
  | nothing

/-- Searches for the last entry at or below `target` in the leaf on its path. -/
def probe (t : Tree w) (root : Handle) (target : Words) : Except Fault (Probe w) := do
  let g := t.geometry
  let ⟨leaf, separator⟩ ← t.descent target (t.height - 1) root none
  let slot ← match leaf with
    | none => pure none
    | some leaf => do
      let block ← t.pool.block leaf
      let slot ← block.position g target
      if slot < g.pairs then
        if (← block.value g slot) ≠ 0 then pure (some (leaf, slot)) else pure none
      else pure none
  match slot, separator with
  | some (leaf, slot), _ => return .found (← t.entryIn leaf slot)
  | none, some separator => return .below separator
  | none, none => return .nothing

/-- Searches for the last entry below `target`, starting again below a separator where a leaf has none. -/
def searchBelow (t : Tree w) (root : Handle) (target : Words) : Except Fault (Option (Entry w)) := do
  if target.isZero then return none
  match ← t.probe root target.pred with
  | .found entry => return entry
  | .nothing => return none
  | .below separator =>
    if Words.toNat separator < Words.toNat target then t.searchBelow root separator
    else throw .noProgress
termination_by Words.toNat target

/-- The entry with the largest key below `key`. -/
def prev (t : Tree w) (key : Key w) : Except Fault (Option (Entry w)) := do
  let some root := t.root | return none
  t.searchBelow root key.toWords

/-- Where a walk through the entries in descending order stands. -/
inductive Cursor (w : Width) where
  | start
  /-- Behind the entry with this key. -/
  | after (key : Key w)
  | done

/-- The next entry of a walk and where the walk stands then. -/
def next (t : Tree w) (cursor : Cursor w) : Except Fault (Option (Entry w) × Cursor w) := do
  let entry ← match cursor with
    | .start => t.last
    | .after key => t.prev key
    | .done => pure none
  match entry with
  | some (key, value) => return (some (key, value), .after key)
  | none => return (none, .done)

/-- The next `n` entries of a walk, or fewer if it ends before. -/
def take (t : Tree w) : (n : Nat) → Cursor w → Except Fault (List (Entry w))
  | 0, _ => return []
  | n + 1, cursor => do
    match ← t.next cursor with
    | (none, _) => return []
    | (some entry, cursor) => return entry :: (← take t n cursor)

end Tree
end MemoTree
