import ScriptTree.Analysis
import ScriptTree.External.Shape

/-!
# Assembling external objects

An external object is assembled from the forms of the children, which `form` supplies one at a time in the order of the
fields.  Where the forms come from is left open: a table of finished forms, or a recursive call.
-/

namespace ScriptTree

namespace Arena

/-- What is known of a node while its object is assembled. -/
structure Subject where
  arena : Arena
  provider : AnalysisProvider
  handle : Handle
  node : Node

variable {m : Type → Type} [Monad m] [MonadExceptOf TreeError m]

def Subject.requiredChild (s : Subject) (slot : Slot) : m Handle :=
  match s.node.payload.single? slot with
  | some (some c) => return c
  | _ => throw (.malformed s.node.payload.variant s.handle slot)

/-- The form of a function's name, given the node that is the name. -/
def Subject.nameForm (s : Subject) (name : Handle) : m Json :=
  match s.arena.payload name with
  | .ok (.name identifier) =>
    if identifier.isEmpty then
      return .null
    else
      return .object
        [("type", .string "Identifier"), ("name", .string identifier),
          ("change", .string s.node.change.change.label),
          ("change-noprop", .string s.node.change.ownChange.label)]
  | .ok _ => return .null
  | .error e => throw e

def Subject.fieldEntries (s : Subject) (form : Handle → m Json) : ExternalField → m (List (String × Json))
  | .constant key value => return [(key, value)]
  | .required key slot => do
    let v ← form (← s.requiredChild slot)
    return [(key, v)]
  | .optional key slot =>
    match s.node.payload.single? slot with
    | some (some c) => do
      let v ← form c
      return [(key, v)]
    | _ => return [(key, .null)]
  | .list key slot => do
    let vs ← ((s.node.payload.list? slot).getD []).mapM form
    return [(key, .array vs)]
  | .functionName key slot =>
    match s.node.payload.single? slot with
    | some (some c) => do
      -- the form of the name itself is not used
      let _ ← form c
      let v ← s.nameForm c
      return [(key, v)]
    | _ => return [(key, .null)]
  | .omitted slot =>
    match s.node.payload.single? slot with
    | some (some c) => do
      let _ ← form c
      return []
    | _ => return []
  | .analysis =>
    return [("criteria", (s.provider.criteria s.arena s.handle).orEmptyArray),
      ("dependencies", (s.provider.dependencies s.arena s.handle).orEmptyArray)]

/-- The marks at the end of an object. -/
def Subject.trailerEntries (s : Subject) : Trailer → List (String × Json)
  | .moved =>
    [("change", .string s.node.change.change.label),
      ("moved", .string (if s.node.change.moved then "true" else "false"))]
  | .ownChange =>
    [("change", .string s.node.change.change.label), ("change-noprop", .string s.node.change.ownChange.label)]

/-- The external form of a node from the forms of its children. -/
def Subject.assemble (s : Subject) (form : Handle → m Json) : m Json :=
  match s.node.payload.shape with
  | .transparent slot => do
    form (← s.requiredChild slot)
  | .object fields trailer => do
    let entries ← fields.mapM (s.fieldEntries form)
    return .object (entries.flatten ++ s.trailerEntries trailer)

end Arena

end ScriptTree
