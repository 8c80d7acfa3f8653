import TermOutline.Document

/-!
# Trees

A tree keeps every token of a document. A nest is a head with its children, a text and a slot are
what they are in the source, and the root holds the nests of the outermost lines. Trivia stands
among the children of the node it falls in.
-/
namespace TermOutline

inductive NodeKind where
  | nest
  | text
  | slot
  deriving DecidableEq, Repr

inductive Element where
  | token (token : Token)
  | node (kind : NodeKind) (children : List Element)

structure Tree where
  children : List Element

mutual

/-- The tokens under an element, in order, put in front of others. -/
def Element.tokensOnto : Element → List Token → List Token
  | .token token, after => token :: after
  | .node _ children, after => elementTokensOnto children after

def elementTokensOnto : List Element → List Token → List Token
  | [], after => after
  | element :: rest, after => element.tokensOnto (elementTokensOnto rest after)

end

/-- The tokens under an element, in order. -/
def Element.tokens (element : Element) : List Token := element.tokensOnto []

def elementTokens (elements : List Element) : List Token := elementTokensOnto elements []

mutual

theorem Element.tokensOnto_eq (element : Element) (after : List Token) :
    element.tokensOnto after = element.tokens ++ after := by
  cases element with
  | token token => rfl
  | node kind children => exact elementTokensOnto_eq children after

theorem elementTokensOnto_eq (elements : List Element) (after : List Token) :
    elementTokensOnto elements after = elementTokens elements ++ after := by
  cases elements with
  | nil => rfl
  | cons element rest =>
    simp only [elementTokens, elementTokensOnto]
    rw [element.tokensOnto_eq, element.tokensOnto_eq (elementTokensOnto rest []),
      elementTokensOnto_eq rest after, elementTokens, List.append_assoc]

end

theorem elementTokens_cons (element : Element) (rest : List Element) :
    elementTokens (element :: rest) = element.tokens ++ elementTokens rest :=
  element.tokensOnto_eq _

mutual

/-- The first token under an element. -/
def Element.first? : Element → Option Token
  | .token token => some token
  | .node _ children => firstToken? children

def firstToken? : List Element → Option Token
  | [] => none
  | element :: rest =>
    match element.first? with
    | some token => some token
    | none => firstToken? rest

end

mutual

/-- The last token under an element. -/
def Element.last? : Element → Option Token
  | .token token => some token
  | .node _ children => lastToken? children

def lastToken? : List Element → Option Token
  | [] => none
  | element :: rest =>
    match lastToken? rest with
    | some token => some token
    | none => element.last?

end

/-- The stretch from the first token under the elements to the last. -/
def elementSpan (elements : List Element) : Span :=
  match firstToken? elements, lastToken? elements with
  | some first, some last => first.span.cover last.span
  | _, _ => Span.emptyAt 0

mutual

def Element.decEq : (a b : Element) → Decidable (a = b)
  | .token a, .token b =>
    if h : a = b then isTrue (by rw [h]) else isFalse (by intro k; cases k; exact h rfl)
  | .token _, .node _ _ => isFalse (by intro k; cases k)
  | .node _ _, .token _ => isFalse (by intro k; cases k)
  | .node kind children, .node other others =>
    if h : kind = other then
      match elementsDecEq children others with
      | isTrue k => isTrue (by rw [h, k])
      | isFalse k => isFalse (by intro j; cases j; exact k rfl)
    else isFalse (by intro j; cases j; exact h rfl)

def elementsDecEq : (a b : List Element) → Decidable (a = b)
  | [], [] => isTrue rfl
  | [], _ :: _ => isFalse (by intro k; cases k)
  | _ :: _, [] => isFalse (by intro k; cases k)
  | a :: as, b :: bs =>
    match a.decEq b with
    | isTrue h =>
      match elementsDecEq as bs with
      | isTrue k => isTrue (by rw [h, k])
      | isFalse k => isFalse (by intro j; cases j; exact k rfl)
    | isFalse h => isFalse (by intro j; cases j; exact h rfl)

end

instance : DecidableEq Element := Element.decEq

namespace Element

def span (element : Element) : Span := elementSpan [element]

/-- The source text of an element. -/
def text (element : Element) : Source := element.tokens.flatMap Token.text

def children : Element → List Element
  | .token _ => []
  | .node _ children => children

def isNest : Element → Bool
  | .node .nest _ => true
  | _ => false

/-- The nests directly under an element. -/
def nests (element : Element) : List Element := element.children.filter isNest

/-- Terms, values and texts can be the head of a nest. -/
def isHead : Element → Bool
  | .token t => t.kind == .term || t.kind.isValue
  | .node kind _ => kind == .text

/-- The first element of a nest that can be its head. -/
def head? (element : Element) : Option Element := element.children.find? isHead

end Element

namespace Tree

instance : DecidableEq Tree := fun a b =>
  if h : a.children = b.children then isTrue (by cases a; cases b; cases h; rfl)
  else isFalse (by intro k; cases k; exact h rfl)

def tokens (tree : Tree) : List Token := elementTokens tree.children

def span (tree : Tree) : Span := elementSpan tree.children

/-- The whole text of the document. -/
def text (tree : Tree) : Source := tree.tokens.flatMap Token.text

/-- The nests of the lines that are not indented. -/
def nests (tree : Tree) : List Element := tree.children.filter Element.isNest

end Tree

/-- What stands at a place in a tree: a token of some kind, the root, or a node of some kind. -/
inductive Label where
  | token (kind : TokenKind)
  | root
  | node (kind : NodeKind)
  deriving DecidableEq, Repr

namespace Label

/-- All labels in the order of their numbers. -/
def all : List Label :=
  [ .token .space, .token .tab, .token .line, .token .term, .token .size, .token .decimal,
    .token .code, .token .comma, .token .parenOpen, .token .parenClose, .token .textOpen,
    .token .textCut, .token .textClose, .token .slotOpen, .token .slotClose, .token .badEscape,
    .token .textBrace, .token .unknown, .root, .node .nest, .node .text, .node .slot ]

/-- Numbers that no label has stand for unknown tokens. -/
def ofNumber (number : Nat) : Label := all.getD number (.token .unknown)

def number (label : Label) : Nat := all.idxOf label

def isToken : Label → Bool
  | .token _ => true
  | _ => false

def isTrivia : Label → Bool
  | .token kind => kind.isTrivia
  | _ => false

def name : Label → String
  | .token .space => "Space"
  | .token .tab => "Tab"
  | .token .line => "Line"
  | .token .term => "Term"
  | .token .size => "Size"
  | .token .decimal => "Decimal"
  | .token .code => "Code"
  | .token .comma => "Comma"
  | .token .parenOpen => "ParenOpen"
  | .token .parenClose => "ParenClose"
  | .token .textOpen => "TextOpen"
  | .token .textCut => "TextCut"
  | .token .textClose => "TextClose"
  | .token .slotOpen => "SlotOpen"
  | .token .slotClose => "SlotClose"
  | .token .badEscape => "BadEscape"
  | .token .textBrace => "TextBrace"
  | .token .unknown => "Unknown"
  | .root => "Tree"
  | .node .nest => "Nest"
  | .node .text => "Text"
  | .node .slot => "Slot"

end Label

def Element.label : Element → Label
  | .token t => .token t.kind
  | .node kind _ => .node kind

end TermOutline
