import MemoTree.Node.Shift
import MemoTree.Tree.Path

/-! # Insertion

A pair goes into the node of its level on the path of its key: an entry into a leaf, the separator of a new
node into the level above it. A full node is split first, and the separator of its new sibling is linked one
level up before any entry moves, so that an insertion that runs out of memory has moved nothing. Above the
root a new root is made. After a split both halves have room, so a second attempt settles. -/

namespace MemoTree
namespace Tree

variable {w : Width}

/-- How an attempt to put a pair into its node ends. -/
inductive Attempt where
  | placed
  /-- The key is present. -/
  | taken
  | full (node : Handle)

/-- Adds a level: the old root is the only child of the new one, under its smallest key. -/
def addLevel : TreeM w (Except Error Unit) := do
  match ← onNodes Pool.allocate with
  | .error e => return .error e
  | .ok top =>
    if let some old := (← get).root then
      let g := (← get).geometry
      onNodes do
        let block ← Pool.read old
        let fill ← block.fill g
        if fill = 0 then throw .slotBelowZero
        let smallest ← block.key g (fill - 1)
        Pool.update top fun block => block.writePair g 0 smallest old.word
    modify fun t => { t with root := some top, height := t.height + 1 }
    emit (.grew (← get).height)
    return .ok ()

/-- Puts a pair into the node of its level, if the key is absent and the node has room. -/
def tryPlace (key : Words) (value : Word) (level : Nat) : TreeM w Attempt := do
  let node ← nodeAt key level
  let g := (← get).geometry
  onNodes do
    let block ← Pool.read node
    let pos ← block.position g key
    let fill ← block.fillFrom g pos
    if ← block.holdsAt g pos fill key then
      if level ≠ 1 then throw .separatorPresent
      return .taken
    if fill = g.pairs then return .full node
    Pool.write node (← block.insertPair g pos fill key value)
    if level > 1 then NodePool.invalidate node
    return .placed

/-- Moves the `half` largest entries of the full `node` to the new node `sibling`. -/
def moveHalf (g : Geometry) (node sibling : Handle) (half level : Nat) : NodeM Unit := do
  let block ← Pool.read node
  let moved ← block.pairsFrom g half 0
  Pool.update sibling (Node.writePairs g 0 moved)
  Pool.write node (← block.dropPairs g half g.pairs)
  if level > 1 then NodePool.invalidate node
  emit (.split level node sibling half)

/-- Splits the full `node`. `link` puts the separator of the new sibling into a level. -/
def split (link : Words → Word → Nat → TreeM w (Except Error Unit)) (node : Handle) (level : Nat) :
    TreeM w (Except Error Unit) := do
  let g := (← get).geometry
  let half := g.pairs / 2
  match ← onNodes Pool.allocate with
  | .error e => return .error e
  | .ok sibling =>
    if half = 0 then throw .slotBelowZero
    let separator ← onNodes do (← Pool.read node).key g (half - 1)
    match ← link separator sibling.word (level + 1) with
    | .error e =>
      onNodes (Pool.release sibling)
      return .error e
    | .ok () =>
      onNodes (moveHalf g node sibling half level)
      return .ok ()

/-- Puts a pair into a level, splitting where there is no room. At most `rungs` levels are touched. -/
def addAt : (rungs : Nat) → Words → Word → (level : Nat) → TreeM w (Except Error Unit)
  | 0, _, _, _ => throw .levelOutOfRange
  | rungs + 1, key, value, level => do
    if (← get).height < level then
      if let .error e ← addLevel then return .error e
    match ← tryPlace key value level with
    | .placed => return .ok ()
    | .taken => return .error .duplicateKey
    | .full node =>
      if let .error e ← split (fun k v l => addAt rungs k v l) node level then return .error e
      match ← tryPlace key value level with
      | .placed => return .ok ()
      | .taken => return .error .duplicateKey
      | .full _ => throw .stillFull

/-- Adds an entry whose key is absent. -/
def insert (key : Key w) (value : Value) : TreeM w (Except Error Unit) := do
  let rungs := (← get).height + 1
  let result ← addAt rungs key.toWords value.val 1
  (← get).hooks.tellTimer .insert
  if let .ok () := result then modify fun t => { t with len := t.len + 1 }
  return result

end Tree
end MemoTree
