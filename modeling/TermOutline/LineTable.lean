import TermOutline.Source

/-!
# Line tables

The table of a text lists the offset at which each of its lines starts. It answers which line an
offset lies on and what a line says. Lines and columns are counted from zero here, columns in
bytes. A line may be looked up in a text other than the one the table was made from; the answer is
then the text between the recorded offsets, where there is such a text.
-/
namespace TermOutline

structure LineTable where
  starts : List Nat
  size : Nat
  deriving DecidableEq, Repr

/-- A place in a text: the line, and the bytes before it on that line. -/
structure Position where
  line : Nat
  column : Nat
  deriving DecidableEq, Repr

namespace LineTable

/-- The offsets after each line feed of a text that begins at `offset`. -/
def startsAfter (offset : Nat) : Source → List Nat
  | [] => []
  | c :: rest =>
    let next := offset + c.utf8Size
    if c = '\n' then next :: startsAfter next rest else startsAfter next rest

/-- A text has a first line even when it is empty, and one more line after each line feed. -/
def ofSource (text : Source) : LineTable :=
  ⟨0 :: startsAfter 0 text, text.byteLength⟩

def lineCount (table : LineTable) : Nat := table.starts.length

/-- The last line that starts at or before the offset. Offsets past the end count as the end. -/
def locate (table : LineTable) (offset : Nat) : Position :=
  let offset := min offset table.size
  let line := table.starts.countP (· ≤ offset) - 1
  ⟨line, offset - table.starts.getD line 0⟩

/-- What `text` says between the start of a line and the start of the next, terminator apart. -/
def lineText? (table : LineTable) (text : Source) (line : Nat) : Option Source := do
  let start ← table.starts[line]?
  let stop := table.starts[line + 1]?.getD text.byteLength
  let content ← text.slice? start stop
  return content.dropTerminator

end LineTable

end TermOutline
