/-!
# Handles

A handle addresses a node inside an arena by its place in allocation order.  Handles are plain values: one may outlive
its arena or be used on another, so every operation checks the handle it is given.
-/

namespace ScriptTree

/-- The address of a node: its index in the order of allocation. -/
structure Handle where
  index : Nat
deriving DecidableEq, Hashable, Repr

namespace Handle

def text (h : Handle) : String := "#" ++ toString h.index

theorem index_injective {a b : Handle} (h : a.index = b.index) : a = b := by
  cases a; cases b; simp_all

end Handle

end ScriptTree
