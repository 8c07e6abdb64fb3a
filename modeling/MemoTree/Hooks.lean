import MemoTree.Journal

/-! # Hooks

A tree may have a timer, which is told of every lookup and insert when it ends, and a monitor, which is told
the value of every entry that a lookup finds. What they are told is in the journal; the tree does not depend
on it. -/

namespace MemoTree

/-- Which hooks are installed. -/
structure Hooks where
  timer : Bool := false
  monitor : Bool := false
  deriving DecidableEq

namespace Hooks

/-- Tells the timer that an operation ended. -/
def tellTimer (hooks : Hooks) (operation : Operation) : Journaled Unit :=
  if hooks.timer then modify (·.push (.timed operation)) else return ()

/-- Tells the monitor which value a lookup found. -/
def tellMonitor (hooks : Hooks) (value : Value) : Journaled Unit :=
  if hooks.monitor then modify (·.push (.visited value)) else return ()

/-- The hooks as they are written in messages. -/
def text (hooks : Hooks) : String :=
  let t := toString hooks.timer
  let m := toString hooks.monitor
  s!"Hooks \x7b timer: {t}, monitor: {m} \x7d"

end Hooks
end MemoTree
