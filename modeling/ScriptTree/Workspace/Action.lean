import ScriptTree.Workspace

/-!
# Actions on a workspace

Everything that can be done to a workspace, as data.  An action on an arena that does not exist does nothing; a failed
action keeps what it changed.
-/

namespace ScriptTree

namespace Workspace

inductive Action
  | command (arena : Nat) (command : Command)
  | drawId (arena : Nat)
  | addArena (policy : IdPolicy)
  | addSharing (arena : Nat)
  | duplicate (arena : Nat)
  | copyInto (source : Nat) (node : Handle) (dest : Nat)
  | cloneIntoNewArena (source : Nat) (node : Handle)
deriving DecidableEq, Repr

def perform (w : Workspace) : Action → Workspace
  | .command i c => after (w.edit? i c.run)
  | .drawId i => after (w.drawId? i)
  | .addArena policy => w.addArena policy
  | .addSharing i => (w.addSharing? i).getD w
  | .duplicate i => (w.duplicate? i).getD w
  | .copyInto i node j => after (w.copyInto? i node j)
  | .cloneIntoNewArena i node => after (w.cloneIntoNewArena? i node)
where
  after {α : Type} (result : Option (Except TreeError α × Workspace)) : Workspace := (result.map (·.2)).getD w

def performAll (w : Workspace) (actions : List Action) : Workspace := actions.foldl perform w

/-- The action leaves payloads and links in agreement. -/
def Action.isChecked : Action → Bool
  | command _ c => c.isChecked
  | _ => true

end Workspace

end ScriptTree
