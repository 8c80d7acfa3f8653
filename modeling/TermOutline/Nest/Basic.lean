import TermOutline.Tree.Basic

/-!
# Nests

What a document means, apart from where it is written: nests with a head and children. A text head
is a list of parts, and a slot in it holds nests of its own. Reading a tree as nests forgets
trivia, commas and parentheses.
-/
namespace TermOutline

inductive WordKind where
  | term
  | size
  | decimal
  | code
  deriving DecidableEq, Repr

def WordKind.ofToken? : TokenKind → Option WordKind
  | .term => some .term
  | .size => some .size
  | .decimal => some .decimal
  | .code => some .code
  | _ => none

def WordKind.name : WordKind → String
  | .term => "term"
  | .size => "size"
  | .decimal => "decimal"
  | .code => "code"

mutual

inductive Nest where
  | mk (head : Head) (children : List Nest)

inductive Head where
  | word (kind : WordKind) (text : Source)
  | text (parts : List Part)

inductive Part where
  | cut (text : Source)
  | slot (nests : List Nest)

end

namespace Nest

def head : Nest → Head
  | .mk head _ => head

def children : Nest → List Nest
  | .mk _ children => children

end Nest

/-- Only terms take children. -/
def Head.isValue : Head → Bool
  | .word .term _ => false
  | _ => true

/-- What an element of a tree stands for in the nest, text or slot around it. -/
inductive Reading where
  | nest (nest : Nest)
  | head (head : Head)
  | part (part : Part)

namespace Reading

def nest? : Reading → Option Nest
  | .nest n => some n
  | _ => none

def head? : Reading → Option Head
  | .head h => some h
  | _ => none

def part? : Reading → Option Part
  | .part p => some p
  | _ => none

def ofToken? (token : Token) : Option Reading :=
  match WordKind.ofToken? token.kind with
  | some kind => some (.head (.word kind token.text))
  | none => if token.kind = .textCut then some (.part (.cut token.text)) else none

/-- The reading of a node from those of its children. The head of a nest is the first of them that
can be a head. -/
def ofNode? (kind : NodeKind) (readings : List Reading) : Option Reading :=
  match kind with
  | .nest => (readings.findSome? head?).map fun head => .nest ⟨head, readings.filterMap nest?⟩
  | .text => some (.head (.text (readings.filterMap part?)))
  | .slot => some (.part (.slot (readings.filterMap nest?)))

end Reading

mutual

def Element.reading? : Element → Option Reading
  | .token token => Reading.ofToken? token
  | .node kind children => Reading.ofNode? kind (readings children)

/-- The readings of the elements that have one. -/
def readings : List Element → List Reading
  | [] => []
  | element :: rest => element.reading?.toList ++ readings rest

end

def Element.nest? (element : Element) : Option Nest := element.reading?.bind Reading.nest?

/-- The nests a tree stands for. -/
def Tree.outline (tree : Tree) : List Nest := (readings tree.children).filterMap Reading.nest?

end TermOutline
