import ScriptTree.Json.Reader
import ScriptTree.Json.Interchange
import ScriptTree.Walk.Recursion
import ScriptTree.External.Render
import ScriptTree.Workspace.Action
import ScriptTree.Proofs.Identity
import ScriptTree.Proofs.Identity.Calls
import ScriptTree.Proofs.Links
import ScriptTree.Proofs.Payload.Slots
import ScriptTree.Proofs.Payload.Opening
import ScriptTree.Proofs.Ownership
import ScriptTree.Proofs.Subtrees
import ScriptTree.Proofs.Edit.Run
import ScriptTree.Proofs.Edit.Recompute
import ScriptTree.Proofs.Edit.Moves
import ScriptTree.Proofs.Edit.Allocation
import ScriptTree.Proofs.Edit.Filling
import ScriptTree.Proofs.Edit.Relisting
import ScriptTree.Proofs.Edit.TopDown
import ScriptTree.Proofs.Edit.Places
import ScriptTree.Proofs.Edit.Bounds
import ScriptTree.Proofs.Edit.Punctuation
import ScriptTree.Proofs.Edit.Passes
import ScriptTree.Proofs.Edit.Lengths
import ScriptTree.Proofs.Edit.Undo
import ScriptTree.Proofs.Edit.Detaching
import ScriptTree.Proofs.Edit.Readings
import ScriptTree.Proofs.Edit.Enclosing
import ScriptTree.Proofs.Edit.Isolation
import ScriptTree.Proofs.Edit.Rooting
import ScriptTree.Proofs.Traversal
import ScriptTree.Proofs.Traversal.Coverage
import ScriptTree.Proofs.Traversal.Holes
import ScriptTree.Proofs.Traversal.Visitors
import ScriptTree.Proofs.Clone.Copies
import ScriptTree.Proofs.Payload.Views
import ScriptTree.Proofs.Clone.Isomorphism
import ScriptTree.Proofs.Clone.Outcome
import ScriptTree.Proofs.Clone.Rooting
import ScriptTree.Proofs.Clone.Bounds
import ScriptTree.Proofs.Clone.Attachment
import ScriptTree.Proofs.Command
import ScriptTree.Proofs.Command.Effect
import ScriptTree.Proofs.Command.Isolation
import ScriptTree.Proofs.Command.Identities
import ScriptTree.Proofs.Command.Operators
import ScriptTree.Proofs.Workspace
import ScriptTree.Proofs.Workspace.Clones
import ScriptTree.Proofs.Workspace.Places
import ScriptTree.Proofs.Workspace.Step
import ScriptTree.Proofs.Workspace.Isolation
import ScriptTree.Proofs.Workspace.Lineage
import ScriptTree.Proofs.External.Assembly
import ScriptTree.Proofs.External.Export
import ScriptTree.Proofs.External.Content
import ScriptTree.Proofs.External.CarryOver
import ScriptTree.Proofs.External.CarryAcross
import ScriptTree.Proofs.External.DocumentOrder
import ScriptTree.Proofs.External.Parentheses
import ScriptTree.Proofs.External.Operators
