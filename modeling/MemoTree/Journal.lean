import MemoTree.Handle
import MemoTree.Key.Basic

/-! # The journal

What an operation reports while it runs: the events of the structure (a split, a join, a deferred release)
and what the installed hooks are told. An operation of this library is a function on the journal that may
end in a fault. -/

namespace MemoTree

/-- The operations that a timer is told of. -/
inductive Operation where
  | lookup
  | insert
  deriving DecidableEq

/-- The name under which an operation is recorded. -/
def Operation.name : Operation → String
  | lookup => "lookup"
  | insert => "insert"

/-- A change of the structure that is reported. -/
inductive Event where
  /-- A level was added; the height after it. -/
  | grew (height : Nat)
  /-- The root's only child became the root; the height after it. -/
  | shrank (height : Nat)
  /-- The last entry went, and the root with it. -/
  | emptied
  /-- The `moved` entries of `node` with the largest keys went to the new node `sibling`. -/
  | split (level : Nat) (node sibling : Handle) (moved : Nat)
  /-- The entries of `right` were appended to `left`; `released` says if `right` went back at once. -/
  | joined (level : Nat) (left right : Handle) (released : Bool)
  /-- An empty tree took over the nodes of another one. -/
  | adopted (len : Nat)
  /-- Entries were moved one by one from another tree. -/
  | merged (moved : Nat)
  | drained (count outstanding : Nat)
  /-- A node forgot all its memos. -/
  | invalidated (node : Handle) (dropped : Nat)
  /-- The last memo that named a deleted node is gone, and the node goes back. -/
  | releasing (node : Handle)
  /-- A deleted node is still named by memos. -/
  | deferred (node : Handle) (refs : Nat)
  | exhausted (outstanding : Nat)
  deriving DecidableEq

namespace Event

/-- An event as one line: its level, its message and its fields. -/
def text : Event → String
  | grew height => s!"DEBUG tree grew height={height}"
  | shrank height => s!"DEBUG tree shrank height={height}"
  | emptied => "DEBUG tree emptied"
  | split level node sibling moved =>
    s!"DEBUG node split level={level} node=" ++ node.text ++ " sibling=" ++ sibling.text ++ s!" moved={moved}"
  | joined level left right released =>
    s!"DEBUG merged siblings level={level} left=" ++ left.text ++ " right=" ++ right.text
      ++ s!" released={released}"
  | adopted len => s!"DEBUG merge adopted victim tree len={len}"
  | merged moved => s!"DEBUG merged trees moved={moved}"
  | drained count outstanding => s!"DEBUG tree drained count={count} outstanding={outstanding}"
  | invalidated node dropped => "TRACE cache invalidated node=" ++ node.text ++ s!" dropped={dropped}"
  | releasing node => "TRACE releasing deferred node node=" ++ node.text
  | deferred node refs => "TRACE node release deferred node=" ++ node.text ++ s!" refs={refs}"
  | exhausted outstanding => s!"WARN block pool exhausted outstanding={outstanding}"

end Event

/-- An entry of the journal. -/
inductive Signal where
  | event (event : Event)
  /-- A timer is told that an operation ended. -/
  | timed (operation : Operation)
  /-- A monitor is told which value a lookup found. -/
  | visited (value : Value)
  deriving DecidableEq

/-- What was reported, oldest first. -/
abbrev Journal := Array Signal

/-- A computation that may report and may end in a fault. -/
abbrev Journaled := StateT Journal (Except Fault)

/-- Reports an event. -/
def emit (event : Event) : Journaled Unit := modify (·.push (.event event))

end MemoTree
