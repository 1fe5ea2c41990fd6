/-!
# Change labels

A differencing pass writes on every node how it differs between two versions of a tree.
-/

namespace ScriptTree

inductive Change
  | inserted | removed | updated | moved | unchanged | unknown
deriving DecidableEq, Repr

namespace Change

def all : List Change := [inserted, removed, updated, moved, unchanged, unknown]

def label : Change → String
  | inserted => "INSERTED"
  | removed => "REMOVED"
  | updated => "UPDATED"
  | moved => "MOVED"
  | unchanged => "UNCHANGED"
  | unknown => "UNKNOWN"

end Change

/-- The record on one node: its label, the label it has by itself (nothing inherited from the nodes above or below), and
whether it was moved, which is independent of both. -/
structure ChangeRecord where
  change : Change := .unknown
  ownChange : Change := .unknown
  moved : Bool := false
deriving DecidableEq, Repr

end ScriptTree
