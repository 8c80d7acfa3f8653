import TermOutline.Token.Check
import TermOutline.Tree.Build

/-!
# Reading a document

Tokens, lines and tree in sequence. A document is refused by the first stage that finds a fault,
with everything that stage finds.
-/
namespace TermOutline

namespace Document

/-- The tokens of a document and its lines. -/
def lines (document : Document) (settings : Settings) :
    Except Failure (List Token × List Line) := do
  let tokens ← document.tokenize.mapError Failure.rejected
  document.arrange settings tokens

/-- The tree of a document. -/
def parse (document : Document) (settings : Settings) : Except Failure Tree := do
  let (tokens, lines) ← document.lines settings
  document.build settings tokens lines

end Document

end TermOutline
