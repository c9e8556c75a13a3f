/-
The life of a node over several starts of its program.

Between two starts a node is what `Node.step` makes of it.  When the program starts again,
everything but the archive is gone: the state is what the archive gives back, as it is for
the commands, and no attempt is under way.  A start is refused when the archive cannot be
read, and then there is no node.
-/
import AttestedLedger.Command.Run
import AttestedLedger.Node.Step

namespace AttestedLedger

/-- One thing that happens in the life of a node. -/
inductive LifeEvent where
  /-- Something happens to the running node. -/
  | run (event : NodeEvent)
  /-- The program stops and starts again, perhaps with other settings. -/
  | restart (identity : Identity) (peers : List Address) (params : Params)

namespace Node

/-- The node after a new start on its archive.  Without an archive it starts with genesis only. -/
def restart (node : Node) (identity : Identity) (peers : List Address) (params : Params) :
    Except CommandError Node :=
  let dir : DataDir := { DataDir.fresh with archive := node.archive.getD .empty }
  (dir.storedState params).map fun state => ofState identity peers params state node.archive

/-- The node after one thing that happens to it. -/
def live (node : Node) : LifeEvent → Except CommandError Node
  | .run event => .ok (node.step event)
  | .restart identity peers params => node.restart identity peers params

/-- The node after all that happens to it, unless a start is refused. -/
def life (node : Node) (events : List LifeEvent) : Except CommandError Node :=
  events.foldlM live node

end Node

end AttestedLedger
