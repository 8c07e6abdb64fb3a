import MemoTree.Tree.Insert
import MemoTree.Tree.Ordered
import MemoTree.Tree.Remove

/-! # Merging two trees

An empty tree takes over the nodes of the other one: they change pools, with the pools' limits, roots,
heights, counts and numbers of slots, but keep their own switch for the memo rings and their own hooks. Otherwise the
entries of the victim are moved one by one from its largest key down. A key that both trees hold stops the
merge, and so does a lack of blocks; what was moved before stays moved. -/

namespace MemoTree
namespace Tree

variable {w : Width}

/-- Exchanges the nodes of two trees. -/
def swapNodes (a b : Tree w) : Tree w × Tree w :=
  ({ a with pool := b.pool, root := b.root, height := b.height, len := b.len, pairs := b.pairs },
    { b with pool := a.pool, root := a.root, height := a.height, len := a.len, pairs := a.pairs })

/-- Moves the entries of `victim`, of which at most `left` are left, to `t`. -/
def moveEntries : (left moved : Nat) → (t victim : Tree w) → Journaled (Except Error Unit × Tree w × Tree w)
  | left, moved, t, victim => do
    match ← victim.last with
    | none =>
      emit (.merged moved)
      return (.ok (), t, victim)
    | some (key, value) =>
      let (result, t) ← (insert key value).run t
      match result with
      | .error .duplicateKey => return (.error (.violated (.sharedKey key.val)), t, victim)
      | .error e => return (.error e, t, victim)
      | .ok () =>
        let (_, victim) ← (remove key).run victim
        match left with
        | 0 => throw .uncountedEntry
        | left + 1 => moveEntries left (moved + 1) t victim

/-- Moves every entry of `victim` to `t`. -/
def merge (t victim : Tree w) : Journaled (Except Error Unit × Tree w × Tree w) := do
  if t.isEmpty then
    let (t, victim) := swapNodes t victim
    emit (.adopted t.len)
    return (.ok (), t, victim)
  else moveEntries victim.len 0 t victim

end Tree
end MemoTree
