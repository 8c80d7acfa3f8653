import TermOutline.Diagnostic.Render
import TermOutline.Nest.Basic
import TermOutline.Settings.Basic

/-!
# Canonical text

In block form every nest has a line of its own, and its children are on the lines below it, one
level deeper. In a slot there are no lines, so the nests there are written inline: a head, followed
by its children in parentheses when it has any.
-/
namespace TermOutline

def separated (texts : List Source) : Source := [',', ' '].intercalate texts

mutual

def Nest.inline : Nest → Source
  | .mk head [] => head.render
  | .mk head (child :: rest) =>
    head.render ++ '(' :: (separated (child.inline :: inlineAll rest) ++ [')'])

def Head.render : Head → Source
  | .word _ text => text
  | .text parts => '<' :: (renderParts parts ++ ['>'])

def Part.render : Part → Source
  | .cut text => text
  | .slot nests => '\x7b' :: (separated (inlineAll nests) ++ ['\x7d'])

def inlineAll : List Nest → List Source
  | [] => []
  | nest :: rest => nest.inline :: inlineAll rest

def renderParts : List Part → Source
  | [] => []
  | part :: rest => part.render ++ renderParts rest

end

mutual

/-- The heads of a nest and of everything below it, each with its level. -/
def Nest.rows (level : Nat) : Nest → List (Nat × Source)
  | .mk head children => (level, head.render) :: nestRows (level + 1) children

def nestRows (level : Nat) : List Nest → List (Nat × Source)
  | [] => []
  | nest :: rest => nest.rows level ++ nestRows level rest

end

/-- The block form of nests, with no line break at the end. -/
def renderNests (settings : Settings) (nests : List Nest) : Source :=
  ['\n'].intercalate
    ((nestRows 0 nests).map fun (level, text) => blanks (level * settings.indentWidth) ++ text)

def Tree.render (tree : Tree) (settings : Settings) : Source :=
  renderNests settings tree.outline

end TermOutline
