import ScriptTree.Clone
import ScriptTree.Edit.Construct

/-!
# Commands

The edits of an arena as data: a run of an editor is a list of commands.  All commands but `overwritePayload` keep the
parent links and the slots of payloads in agreement.
-/

namespace ScriptTree

inductive Command
  | alloc (payload : Payload) (span : Span)
  | construct (construction : Construction)
  | setChild (owner : Handle) (slot : Slot) (child : Option Handle)
  | pushChild (owner : Handle) (slot : Slot) (child : Handle)
  | setChildList (owner : Handle) (slot : Slot) (children : List Handle)
  | detach (node : Handle)
  | recomputeBounds (node : Handle)
  | cloneSubtree (node : Handle) (target : Option (Handle × Slot))
  | mark (node : Handle) (mark : Mark)
  | setSpan (node : Handle) (span : Span)
  | refine (node : Handle) (refinement : Refinement)
  /-- Writes a payload as it is: children are neither checked nor linked. -/
  | overwritePayload (node : Handle) (payload : Payload)
deriving DecidableEq, Repr

inductive Reply
  | done
  | node (handle : Handle)
  | displaced (previous : Option Handle)
  | place (former : Option (Handle × Slot))
  | clone (map : CloneMap)
deriving DecidableEq, Repr

namespace Command

def run : Command → Edit Reply
  | alloc payload span => .node <$> Edit.alloc payload span
  | construct c => .node <$> Edit.construct c
  | setChild owner slot child => .displaced <$> Edit.setChild owner slot child
  | pushChild owner slot child => (fun _ => .done) <$> Edit.pushChild owner slot child
  | setChildList owner slot children => (fun _ => .done) <$> Edit.setChildList owner slot children
  | detach node => .place <$> Edit.detach node
  | recomputeBounds node => (fun _ => .done) <$> Edit.recomputeBounds node
  | cloneSubtree node target => .clone <$> Edit.cloneSubtree node target
  | mark node m => (fun _ => .done) <$> Edit.mark node m
  | setSpan node span => (fun _ => .done) <$> Edit.setSpan node span
  | refine node r => (fun _ => .done) <$> Edit.refine node r
  | overwritePayload node payload => (fun _ => .done) <$> Edit.modifyPayload node fun _ => payload

/-- The command leaves payloads and links in agreement. -/
def isChecked : Command → Bool
  | overwritePayload .. => false
  | _ => true

/-- Executes a command and forgets what it answered; a failed one keeps what it changed. -/
def after (a : Arena) (c : Command) : Arena :=
  match c.run.run a with
  | .ok _ a => a
  | .error _ a => a

def runAll (a : Arena) (cs : List Command) : Arena := cs.foldl after a

end Command

end ScriptTree
