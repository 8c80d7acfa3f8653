/-!
# Spans

A span is a stretch of the source, from its first byte up to the byte after its last.
-/
namespace TermOutline

structure Span where
  start : Nat
  stop : Nat
  deriving DecidableEq, Repr

namespace Span

/-- The span of no bytes at an offset. -/
def emptyAt (offset : Nat) : Span := ⟨offset, offset⟩

def length (span : Span) : Nat := span.stop - span.start

/-- The least span that holds both. -/
def cover (span other : Span) : Span :=
  ⟨min span.start other.start, max span.stop other.stop⟩

/-- The span moved towards the end of the source by `offset` bytes. -/
def shift (span : Span) (offset : Nat) : Span :=
  ⟨span.start + offset, span.stop + offset⟩

end Span

end TermOutline
