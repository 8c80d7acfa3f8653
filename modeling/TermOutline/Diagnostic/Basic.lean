import TermOutline.LineTable
import TermOutline.Span

/-!
# Diagnostics

A diagnostic says what is wrong with a stretch of a file. It is made with a span alone; placing it
against the text of the file adds what a reader needs to find it. A placement, once there, stays.
-/
namespace TermOutline

inductive Category where
  | lexical
  | structural
  deriving DecidableEq, Repr

def Category.name : Category → String
  | .lexical => "lexical"
  | .structural => "structural"

/-- Where a diagnostic stands: line and column counted from one, the column and the width of the
underlined stretch in characters, and the text of the line. The numbers have no upper bound here.
Cut off at 32 bits they are the same for every text of fewer than `2 ^ 32 - 1` bytes, as
`Diagnostic.placeBy_fits` shows. -/
structure Placement where
  line : Nat
  column : Nat
  lineText : Source
  width : Nat
  deriving DecidableEq, Repr

structure Diagnostic where
  category : Category
  code : String
  note : String
  file : String
  span : Span
  placement : Option Placement
  deriving DecidableEq, Repr

namespace Diagnostic

/-- The placement by a given line table. The stretch is cut off at the end of its first line and is
at least one character wide. A start inside a character, or past the end of the line's text, is put
in column one. -/
def placeBy (diagnostic : Diagnostic) (table : LineTable) (text : Source) : Placement :=
  let position := table.locate diagnostic.span.start
  let lineText := (table.lineText? text position.line).getD []
  let before := (lineText.takeBytes? position.column).getD []
  let after := (lineText.dropBytes? position.column).getD []
  { line := position.line + 1
    column := before.length + 1
    lineText := lineText
    width := max 1 (after.charsBegun diagnostic.span.length) }

/-- The placement in a text, by the table of that text. -/
def place (diagnostic : Diagnostic) (text : Source) : Placement :=
  diagnostic.placeBy (LineTable.ofSource text) text

def fillBy (diagnostic : Diagnostic) (table : LineTable) (text : Source) : Diagnostic :=
  match diagnostic.placement with
  | some _ => diagnostic
  | none => { diagnostic with placement := some (diagnostic.placeBy table text) }

/-- Stores the placement, unless one is there already. -/
def fill (diagnostic : Diagnostic) (text : Source) : Diagnostic :=
  diagnostic.fillBy (LineTable.ofSource text) text

end Diagnostic

end TermOutline
