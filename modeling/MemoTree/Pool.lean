import MemoTree.Error
import MemoTree.Journal
import MemoTree.Memory

/-! # Block pools

A pool owns blocks of one size and hands them out by handle. A block that comes back goes on a free list, and
the block that came back last is handed out first; a new block is made only when the free list is empty. A
returned block keeps what was written to it until it is handed out again. A pool may have a limit on the
number of blocks handed out at one time. -/

namespace MemoTree

/-- A kind of block that a pool can make and hand out again. -/
class Block (β : Type) where
  /-- Bytes that a pool sets aside for a block, its words not counted. -/
  bytes : Nat
  /-- A new block of a number of words. -/
  fresh : Nat → Except Fault β
  /-- Makes a block that was used before as good as new. -/
  renew : β → Except Fault β

/-- A plain block of words. -/
instance : Block (Array Word) where
  bytes := 24
  fresh := zeroWords
  renew block := .ok (Array.replicate block.size 0)

/-- Blocks with their free list and the counts of what was handed out and came back. -/
structure Pool (β : Type) where
  /-- Every block ever made. -/
  blocks : Array β
  /-- Blocks that came back, the last one first. -/
  free : List Handle
  /-- Words of a new block. -/
  blockWords : Nat
  /-- The greatest number of blocks that may be out. -/
  limit : Option Nat
  allocated : Nat
  released : Nat
  /-- The greatest number of blocks that were out at one time. -/
  peak : Nat

/-- What a pool tells about itself. -/
structure PoolStats where
  allocated : Nat
  released : Nat
  outstanding : Nat
  peak : Nat
  capacity : Nat
  deriving DecidableEq

/-- The counts as they are written in messages. -/
def PoolStats.text (stats : PoolStats) : String :=
  let ⟨a, r, o, p, c⟩ := stats
  s!"PoolStats \x7b allocated: {a}, released: {r}, outstanding: {o}, peak: {p}, capacity: {c} \x7d"

/-- A computation on a pool. -/
abbrev PoolM (β : Type) := StateT (Pool β) Journaled

namespace Pool

variable {β : Type}

/-- A pool without blocks. -/
def empty (blockWords : Nat) (limit : Option Nat) : Pool β := ⟨#[], [], blockWords, limit, 0, 0, 0⟩

/-- A pool without blocks that sets memory aside for `reserve` of them. -/
def create [Block β] (blockWords reserve : Nat) (limit : Option Nat) : Except Fault (Pool β) :=
  if reserve * Block.bytes β ≤ addressable then .ok (empty blockWords limit) else .error .tooLarge

/-- What is set aside shows in no count. -/
theorem of_create [Block β] {blockWords reserve : Nat} {limit : Option Nat} {p : Pool β}
    (h : create blockWords reserve limit = .ok p) : p = empty blockWords limit := by
  unfold create at h
  split at h
  · exact (Except.ok.inj h).symm
  · cases h

/-- The number of blocks that are out. -/
def outstanding (p : Pool β) : Except Fault Nat :=
  if p.released ≤ p.allocated then .ok (p.allocated - p.released) else .error .outstandingBelowZero

/-- What the pool tells about itself. -/
def stats (p : Pool β) : Except Fault PoolStats := do
  let out ← p.outstanding
  return ⟨p.allocated, p.released, out, p.peak, p.blocks.size⟩

/-- The block that `h` names. -/
def block (p : Pool β) (h : Handle) : Except Fault β :=
  match p.blocks[h.index]? with
  | some b => .ok b
  | none => .error .blockOutOfRange

/-- Whether as many blocks are out as may be. -/
def atLimit (p : Pool β) (out : Nat) : Bool :=
  match p.limit with
  | some limit => limit ≤ out
  | none => false

/-- Replaces the block that `h` names. -/
def put (p : Pool β) (h : Handle) (b : β) : Pool β := { p with blocks := p.blocks.setIfInBounds h.index b }

/-- Counts a block that is handed out while `out` blocks are. -/
def countOut (p : Pool β) (out : Nat) : Pool β :=
  { p with allocated := p.allocated + 1, peak := max p.peak (out + 1) }

/-- Hands out a block. It fails if the limit is reached or no handle is left. -/
def allocate [Block β] : PoolM β (Except Error Handle) := do
  let out ← (← get).outstanding
  if (← get).atLimit out then
    emit (.exhausted out)
    return .error (.outOfMemory out)
  match (← get).free with
  | h :: rest =>
    let b ← Block.renew (← (← get).block h)
    modify fun p => { p.put h b with free := rest }
    modify (·.countOut out)
    return .ok h
  | [] =>
    match Handle.ofIndex? (← get).blocks.size with
    | none => return .error (.outOfMemory out)
    | some h =>
      let b ← Block.fresh (← get).blockWords
      modify fun p => { p with blocks := p.blocks.push b }
      modify (·.countOut out)
      return .ok h

/-- Takes a block back. -/
def release (h : Handle) : PoolM β Unit := do
  if (← get).free.contains h then throw .releasedTwice
  modify fun p => { p with free := h :: p.free, released := p.released + 1 }

/-- Reads the block that `h` names. -/
def read (h : Handle) : PoolM β β := do (← get).block h

/-- Overwrites the block that `h` names. -/
def write (h : Handle) (b : β) : PoolM β Unit := modify (·.put h b)

/-- Changes the block that `h` names. -/
def update (h : Handle) (f : β → Except Fault β) : PoolM β Unit := do
  let b ← f (← read h)
  write h b

end Pool
end MemoTree
