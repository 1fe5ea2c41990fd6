/-!
# Source extents

A span is a position and a length.  The position of a node that hangs below another is relative to that node; the
position of a root is absolute.  Positions are exact integers.
-/

namespace ScriptTree

/-- The extent of a node in the source text. -/
structure Span where
  position : Int := 0
  length : Int := 0
deriving DecidableEq, Repr

namespace Span

/-- The span from `start` up to `stop`, empty when `stop` lies before `start`. -/
def between (start stop : Int) : Span := { position := start, length := max 0 (stop - start) }

def stop (s : Span) : Int := s.position + s.length

/-- The text of a span: position, a plus sign, length. -/
def text (s : Span) : String := toString s.position ++ "+" ++ toString s.length

def shift (s : Span) (distance : Int) : Span := { s with position := s.position + distance }

@[simp] theorem position_between (start stop : Int) : (between start stop).position = start := rfl

theorem stop_between (start stop : Int) : (between start stop).stop = max start stop := by
  simp only [between, Span.stop]; omega

@[simp] theorem position_shift (s : Span) (d : Int) : (s.shift d).position = s.position + d := rfl

@[simp] theorem length_shift (s : Span) (d : Int) : (s.shift d).length = s.length := rfl

end Span

end ScriptTree
