/-!
# Source text

A text is a list of characters, and every position in it is counted in bytes of its UTF-8 form.
Cutting at a position that falls inside a character, or past the end, gives no text.
-/
namespace TermOutline

abbrev Source := List Char

namespace Source

/-- How many bytes the text takes in UTF-8. -/
def byteLength : Source → Nat
  | [] => 0
  | c :: rest => c.utf8Size + byteLength rest

/-- The text after its first `n` bytes. -/
def dropBytes? : Nat → Source → Option Source
  | 0, text => some text
  | _ + 1, [] => none
  | n + 1, c :: rest => if c.utf8Size ≤ n + 1 then dropBytes? (n + 1 - c.utf8Size) rest else none

/-- The first `n` bytes of the text. -/
def takeBytes? : Nat → Source → Option Source
  | 0, _ => some []
  | _ + 1, [] => none
  | n + 1, c :: rest =>
    if c.utf8Size ≤ n + 1 then (takeBytes? (n + 1 - c.utf8Size) rest).map (c :: ·) else none

/-- The bytes from `start` up to `stop`. -/
def slice? (text : Source) (start stop : Nat) : Option Source :=
  if start ≤ stop then (dropBytes? start text).bind (takeBytes? (stop - start)) else none

/-- How many characters begin within the first `n` bytes. -/
def charsBegun : Nat → Source → Nat
  | 0, _ => 0
  | _ + 1, [] => 0
  | n + 1, c :: rest => charsBegun (n + 1 - c.utf8Size) rest + 1

/-- The text without its last character, if that is `c`. -/
def dropFinal (c : Char) (text : Source) : Source :=
  if text.getLast? = some c then text.dropLast else text

/-- A line of text without the line feed, or carriage return and line feed, that ends it. -/
def dropTerminator (text : Source) : Source :=
  dropFinal '\r' (dropFinal '\n' text)

theorem byteLength_append (text more : Source) :
    byteLength (text ++ more) = byteLength text + byteLength more := by
  induction text with
  | nil => simp [byteLength]
  | cons c rest ih => simp [byteLength, ih, Nat.add_assoc]

end Source

end TermOutline
