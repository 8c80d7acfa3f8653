import TermOutline.Tree.Check
import TermOutline.Tree.Sink

/-!
# Building the tree

The last stage of reading: lines become the tree of the document, or the document is refused with
every fault of nesting.
-/
namespace TermOutline

/-- The tree of a document, from its tokens and its lines. -/
def Document.build (document : Document) (settings : Settings) (tokens : List Token)
    (lines : List Line) : Except Failure Tree :=
  match Builder.build settings.maxDepth lines with
  | .error breach => .error (.broken breach)
  | .ok events =>
    let clamped := clampDepths settings.maxDepth 0 lines
    match document.accept (treeFindings document.text clamped) events with
    | .error report => .error (.rejected report)
    | .ok events => (Sink.replay events tokens).mapError Failure.broken

end TermOutline
