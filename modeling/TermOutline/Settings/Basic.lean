/-!
# Settings

How many spaces indent a line by one level, and the deepest level a line may have. An indent of
no spaces would put every line at every level and is refused.
-/
namespace TermOutline

structure Settings where
  indentWidth : Nat
  maxDepth : Nat
  indentWidth_pos : 0 < indentWidth
  deriving DecidableEq, Repr

inductive SettingsError where
  | zeroIndent
  | malformed
  | missingFile
  | invalidEncoding
  deriving DecidableEq, Repr

namespace SettingsError

/-- The message of an error. What is wrong with a malformed file is not said. -/
def message? : SettingsError → Option String
  | .zeroIndent => some "indent width must be at least 1"
  | .malformed => none
  | .missingFile => some "link.toml: No such file or directory (os error 2)"
  | .invalidEncoding => some "link.toml: stream did not contain valid UTF-8"

end SettingsError

namespace Settings

def default : Settings := ⟨2, 64, by decide⟩

instance : Inhabited Settings := ⟨default⟩

def make (indentWidth maxDepth : Nat) : Except SettingsError Settings :=
  if h : 0 < indentWidth then .ok ⟨indentWidth, maxDepth, h⟩ else .error .zeroIndent

end Settings

end TermOutline
