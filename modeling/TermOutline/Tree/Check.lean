import TermOutline.Line.Basic

/-!
# Faults of nesting

A line may not be deeper than its limit, values may not have children, calls and slots may not be
empty, and a line's head may not be followed by a comma. A value has a child when an item follows it
in its chain; at the head of a line, also when any item follows on the line or a deeper line comes
next.
-/
namespace TermOutline

/-- A line with the deepest level it may have where it stands, and the level it is taken to have. -/
structure ClampedLine where
  line : Line
  limit : Nat
  depth : Nat

/-- The levels of lines of which the first may be as deep as `limit`. Every other line may be one
level deeper than the line before it, up to the deepest level. -/
def clampDepths (maxDepth limit : Nat) : List Line → List ClampedLine
  | [] => []
  | line :: rest =>
    let depth := min line.depth limit
    ⟨line, limit, depth⟩ :: clampDepths maxDepth (min (depth + 1) maxDepth) rest

/-- What the source says over a span. -/
def sourceText (source : Source) (span : Span) : Source :=
  (source.slice? span.start span.stop).getD []

def valueFinding (source : Source) (value : Item) : Finding :=
  ⟨.valueChildren (sourceText source value.span), value.span⟩

/-- Whether a chain goes on with the given items. -/
def continuesChain : List Item → Bool
  | [] => false
  | item :: _ => !item.isComma

mutual

def Item.findings (source : Source) : Item → List Finding
  | .token _ => []
  | .call _ opening items closing =>
    (if items.isEmpty then [⟨.emptyCall, opening.span.cover closing.span⟩] else [])
      ++ itemFindings source items
  | .text _ pieces _ => pieceFindings source pieces

def Piece.findings (source : Source) : Piece → List Finding
  | .cut _ => []
  | .slot opening items closing =>
    (if items.isEmpty then [⟨.emptySlot, opening.span.cover closing.span⟩] else [])
      ++ itemFindings source items

def pieceFindings (source : Source) : List Piece → List Finding
  | [] => []
  | piece :: rest => piece.findings source ++ pieceFindings source rest

def itemFindings (source : Source) : List Item → List Finding
  | [] => []
  | item :: rest =>
    item.findings source
      ++ (if item.isValue && continuesChain rest then [valueFinding source item] else [])
      ++ itemFindings source rest

end

def headCommaFindings (source : Source) (head : Item) : List Item → List Finding
  | [] => []
  | next :: _ =>
    match next.comma? with
    | some comma => [⟨.headComma (sourceText source head.span), comma.span⟩]
    | none => []

def depthFindings (clamped : ClampedLine) : List Finding :=
  if clamped.line.depth ≤ clamped.limit then []
  else [⟨.deepIndent clamped.line.depth clamped.limit, clamped.line.indent⟩]

/-- The findings in a line's own items; `followed` tells whether a deeper line comes next. -/
def lineFindings (source : Source) (followed : Bool) : List Item → List Finding
  | [] => []
  | head :: rest =>
    head.findings source
      ++ headCommaFindings source head rest
      ++ (if head.isValue && (followed || rest.any fun item => !item.isComma) then
          [valueFinding source head] else [])
      ++ itemFindings source rest

/-- Whether the first of the lines is deeper than `depth`. -/
def startsDeeper (depth : Nat) : List ClampedLine → Bool
  | [] => false
  | next :: _ => decide (depth < next.depth)

def treeFindings (source : Source) : List ClampedLine → List Finding
  | [] => []
  | clamped :: rest =>
    depthFindings clamped
      ++ lineFindings source (startsDeeper clamped.depth rest) clamped.line.items
      ++ treeFindings source rest

end TermOutline
