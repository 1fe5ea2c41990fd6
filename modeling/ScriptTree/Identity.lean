/-!
# Node identities

Every allocated node gets an identity from a generator; clones keep it.  The generator hands out the identities of a
range in order and starts again when the range is exhausted.  Its counter is wider than an identity, so that "one past
the largest identity" can be told apart from every identity.
-/

namespace ScriptTree

/-- The range of identities: from `start` up to and including `max`. -/
structure IdPolicy where
  start : UInt32 := 1
  max : UInt32 := 0xffffffff
deriving DecidableEq, Repr

/-- The policy as a generator uses it: a range with `max` below `start` holds `start` alone. -/
def IdPolicy.effective (p : IdPolicy) : IdPolicy :=
  { p with max := if p.max < p.start then p.start else p.max }

/-- A source of identities.  `counter` is the next identity, or a value above `policy.max` when the range is
exhausted. -/
structure IdGenerator where
  policy : IdPolicy
  counter : UInt64
deriving DecidableEq, Repr

namespace IdGenerator

def ofPolicy (p : IdPolicy) : IdGenerator :=
  { policy := p.effective, counter := p.start.toUInt64 }

/-- The range is used up and the next identity is the first one again. -/
def isExhausted (g : IdGenerator) : Bool := g.policy.max.toUInt64 < g.counter

def peek (g : IdGenerator) : UInt32 :=
  if g.isExhausted then g.policy.start else g.counter.toUInt32

def draw (g : IdGenerator) : UInt32 × IdGenerator :=
  if g.isExhausted then
    (g.policy.start, { g with counter := g.policy.start.toUInt64 + 1 })
  else
    (g.counter.toUInt32, { g with counter := g.counter + 1 })

theorem fst_draw (g : IdGenerator) : g.draw.1 = g.peek := by
  unfold draw peek; split <;> rfl

@[simp] theorem policy_draw (g : IdGenerator) : g.draw.2.policy = g.policy := by
  unfold draw; split <;> rfl

end IdGenerator

end ScriptTree
