import TermOutline.Diagnostic.Basic

/-!
# Reports

A report is what a refused document gets: at least one diagnostic, in order. A collector gathers
diagnostics in the order in which they are found and hands them over ordered by where they start;
those that start together keep their order.
-/
namespace TermOutline

structure Report where
  first : Diagnostic
  others : List Diagnostic
  deriving DecidableEq, Repr

namespace Report

def single (diagnostic : Diagnostic) : Report := ⟨diagnostic, []⟩

def toList (report : Report) : List Diagnostic := report.first :: report.others

/-- There is no report without a diagnostic. -/
def ofList? : List Diagnostic → Option Report
  | [] => none
  | first :: others => some ⟨first, others⟩

def size (report : Report) : Nat := report.others.length + 1

def push (report : Report) (diagnostic : Diagnostic) : Report :=
  { report with others := report.others ++ [diagnostic] }

def map (f : Diagnostic → Diagnostic) (report : Report) : Report :=
  ⟨f report.first, report.others.map f⟩

/-- Places every diagnostic that has no placement yet. -/
def fill (report : Report) (text : Source) : Report :=
  let table := LineTable.ofSource text
  report.map fun diagnostic => diagnostic.fillBy table text

def notes (report : Report) : List String := report.toList.map Diagnostic.note

def noteText (report : Report) : String := "\n".intercalate report.notes

/-- The note of the only diagnostic, or how many there are. -/
def summary (report : Report) : String :=
  match report.others with
  | [] => report.first.note
  | _ => s!"found {report.size} kinks"

theorem ofList?_toList (report : Report) : ofList? report.toList = some report := rfl

end Report

/-- Puts a diagnostic before the first one that starts no earlier. -/
def insertByStart (diagnostic : Diagnostic) : List Diagnostic → List Diagnostic
  | [] => [diagnostic]
  | head :: rest =>
    if diagnostic.span.start ≤ head.span.start then diagnostic :: head :: rest
    else head :: insertByStart diagnostic rest

def sortByStart (diagnostics : List Diagnostic) : List Diagnostic :=
  diagnostics.foldr insertByStart []

structure Collector where
  found : List Diagnostic
  deriving DecidableEq, Repr

namespace Collector

def empty : Collector := ⟨[]⟩

def push (collector : Collector) (diagnostic : Diagnostic) : Collector :=
  ⟨collector.found ++ [diagnostic]⟩

def size (collector : Collector) : Nat := collector.found.length

def isEmpty (collector : Collector) : Bool := collector.found.isEmpty

/-- The report of everything collected; none when nothing was. -/
def finish (collector : Collector) : Option Report :=
  Report.ofList? (sortByStart collector.found)

end Collector

end TermOutline
