/-!
# Source spans

A span is a half-open range of byte positions.  Positions are 32-bit words, so the length of a
range that runs backwards wraps around.
-/

namespace RowML

structure Span where
  start : UInt32
  stop : UInt32
deriving DecidableEq, Repr, Inhabited

namespace Span

/-- The span of everything that no source text stands for. -/
def nowhere : Span := ⟨0, 0⟩

def length (span : Span) : UInt32 := span.stop - span.start

def isEmpty (span : Span) : Bool := span.start == span.stop

/-- The smallest span that covers both. -/
def merge (left right : Span) : Span := ⟨min left.start right.start, max left.stop right.stop⟩

def contains (outer inner : Span) : Bool := outer.start ≤ inner.start && inner.stop ≤ outer.stop

def render (span : Span) : String :=
  toString span.start.toNat ++ ".." ++ toString span.stop.toNat

end Span

end RowML
