import TermOutline.Fault
import TermOutline.Token.Basic

/-!
# Documents and failures

A document is a text and the name of the file it is attributed to. Reading a document goes through
three stages, each of which passes its result on or refuses the document with a report of all it
found. A stage may also be handed what no earlier stage would have passed on: that is a breach of
the agreement between the stages and not a fault of the document.
-/
namespace TermOutline

structure Document where
  file : String
  text : Source
  deriving DecidableEq, Repr

/-- The ways in which the input of a stage can break the agreement. `tokensOutOfStep` alone stands
for a debug assertion, which a build without debug assertions leaves out. -/
inductive Breach where
  | codeInsideText
  | termDisplaced
  | cutOutsideText
  | slotOutsideText
  | closeOutsideText
  | slotVanished
  | slotUnattached
  | faultToken (kind : TokenKind)
  | textLeftOpen
  | headlessLine
  | markerMisplaced
  | placeholderLeft
  | tokensMissing
  | tokensOutOfStep
  | tokensLeft
  | branchesUnbalanced
  deriving DecidableEq, Repr

namespace Breach

def message : Breach → String
  | .tokensOutOfStep => unequal "token event out of step"
  | .tokensLeft => unequal "sink left leaves behind"
  | .codeInsideText => unreachable "code leaf inside a text"
  | .termDisplaced => unreachable "term before `(` is not the last unit"
  | .cutOutsideText => unreachable "text cut outside a text"
  | .slotOutsideText => unreachable "slot opened outside a text"
  | .closeOutsideText => unreachable "text closed without an open text"
  | .slotVanished => unreachable "slot frame vanished"
  | .slotUnattached => unreachable "slot outside a text"
  | .faultToken kind => unreachable ("fault leaf `" ++ kind.name ++ "` reached the sift stage")
  | .textLeftOpen => unreachable "text left open at the end of a line"
  | .headlessLine => unreachable "sifted line without a head"
  | .markerMisplaced => unreachable "marker does not point at a placeholder"
  | .placeholderLeft => unreachable "uncompleted marker reached the sink"
  | .tokensMissing => unreachable "token event past the last leaf"
  | .branchesUnbalanced => "assertion `left == right` failed"
where
  unreachable (reason : String) : String :=
    "internal error: entered unreachable code: " ++ reason
  unequal (reason : String) : String :=
    "assertion `left == right` failed: " ++ reason

end Breach

inductive Failure where
  | rejected (report : Report)
  | broken (breach : Breach)
  deriving DecidableEq, Repr

/-- Passes a stage's result on when the stage found nothing. -/
def Document.accept {α : Type} (document : Document) (findings : List Finding) (result : α) :
    Except Report α :=
  match Report.ofFindings? document.file findings with
  | none => .ok result
  | some report => .error report

end TermOutline
