import TermOutline.Settings.Basic
import TermOutline.Source

/-!
# Settings files

A settings file has one setting to a line, `indent_width = 4` or `max_depth = 16`, in any order and
each at most once. Blank lines and comments are skipped, names may be quoted, and integers may be
written in base two, eight, ten or sixteen. The format knows tables, dotted names and other values
as well; none of them can be a setting, so a file that has any is malformed.
-/
namespace TermOutline

inductive Setting where
  | indentWidth
  | maxDepth
  deriving DecidableEq, Repr

/-- The settings a file gives. -/
structure Entries where
  indentWidth : Option Nat
  maxDepth : Option Nat
  deriving DecidableEq, Repr

namespace SettingsFile

def settingOfName? (name : Source) : Option Setting :=
  if name = "indent_width".toList then some .indentWidth
  else if name = "max_depth".toList then some .maxDepth
  else none

def isBlank (c : Char) : Bool := c == ' ' || c == '\t'

def skipBlanks (line : Source) : Source := line.dropWhile isBlank

/-- Comments have no control characters but the tab. -/
def isCommentChar (c : Char) : Bool := c == '\t' || (' ' ≤ c && c != '\x7f')

/-- Whether nothing but blanks and a comment is left. -/
def isRemark (line : Source) : Bool :=
  match skipBlanks line with
  | [] => true
  | c :: comment => c == '#' && comment.all isCommentChar

def hexDigit? (c : Char) : Option Nat :=
  if '0' ≤ c && c ≤ '9' then some (c.toNat - '0'.toNat)
  else if 'a' ≤ c && c ≤ 'f' then some (c.toNat - 'a'.toNat + 10)
  else if 'A' ≤ c && c ≤ 'F' then some (c.toNat - 'A'.toNat + 10)
  else none

/-- Digits of a base, with single underscores between digits allowed. `afterDigit` tells whether a
digit came just before, and `value` what the digits so far amount to. -/
def digitsValue? (base value : Nat) (afterDigit : Bool) : Source → Option Nat
  | [] => if afterDigit then some value else none
  | c :: rest =>
    if c = '_' then
      if afterDigit then digitsValue? base value false rest else none
    else match hexDigit? c with
      | none => none
      | some digit =>
        if digit < base then digitsValue? base (value * base + digit) true rest else none

/-- Decimal integers do not start with a zero, zero itself apart. -/
def decimalValue? (word : Source) : Option Nat :=
  match word with
  | ['0'] => some 0
  | '0' :: _ => none
  | _ => digitsValue? 10 0 false word

/-- The integer a word stands for, if it is not negative. A sign goes with decimals only. -/
def integerValue? : Source → Option Nat
  | '+' :: rest => decimalValue? rest
  | '-' :: rest => (decimalValue? rest).filter (· == 0)
  | '0' :: 'x' :: rest => digitsValue? 16 0 false rest
  | '0' :: 'o' :: rest => digitsValue? 8 0 false rest
  | '0' :: 'b' :: rest => digitsValue? 2 0 false rest
  | word => decimalValue? word

/-- The greatest value of a setting. -/
def maxValue : Nat := UInt64.size - 1

/-- Where the reading of a quoted name stands: between characters, after a backslash, or with hex
digits of a code point to come. -/
inductive NameState where
  | plain
  | escape
  | hex (more value : Nat)
  deriving DecidableEq, Repr

/-- A name up to its closing quote, and what follows. Of the escapes only code points are read: the
others stand for characters that no setting's name has. -/
def quotedName? : NameState → Source → Option (Source × Source)
  | _, [] => none
  | .plain, c :: rest =>
    if c = '\x22' then some ([], rest)
    else if c = '\\' then quotedName? .escape rest
    else (quotedName? .plain rest).map fun (name, after) => (c :: name, after)
  | .escape, c :: rest =>
    match c with
    | 'x' => quotedName? (.hex 1 0) rest
    | 'u' => quotedName? (.hex 3 0) rest
    | 'U' => quotedName? (.hex 7 0) rest
    | _ => none
  | .hex more value, c :: rest =>
    match hexDigit? c, more with
    | none, _ => none
    | some digit, 0 =>
      let escaped := Char.ofNat (value * 16 + digit)
      (quotedName? .plain rest).map fun (name, after) => (escaped :: name, after)
    | some digit, more + 1 => quotedName? (.hex more (value * 16 + digit)) rest

def isBareNameChar (c : Char) : Bool := c.isAlphanum || c == '_' || c == '-'

/-- A name: bare, between single quotes as it stands, or between double quotes with escapes. -/
def name? : Source → Option (Source × Source)
  | [] => none
  | c :: rest =>
    if c = '\x22' then quotedName? .plain rest
    else if c = '\x27' then
      match rest.dropWhile (· != '\x27') with
      | [] => none
      | _ :: after => some (rest.takeWhile (· != '\x27'), after)
    else some ((c :: rest).takeWhile isBareNameChar, (c :: rest).dropWhile isBareNameChar)

/-- The setting and its value that a line gives. -/
def entry? (line : Source) : Option (Setting × Nat) := do
  let (name, after) ← name? (skipBlanks line)
  let setting ← settingOfName? name
  match skipBlanks after with
  | '=' :: after =>
    let after := skipBlanks after
    let isWordChar (c : Char) : Bool := !(isBlank c || c == '#')
    let value ← integerValue? (after.takeWhile isWordChar)
    let rest := after.dropWhile isWordChar
    if value ≤ maxValue && isRemark rest then some (setting, value) else none
  | _ => none

/-- The lines of a file. A line ends with a line feed, which a carriage return may precede. -/
def lines : Source → List Source
  | [] => [[]]
  | '\r' :: '\n' :: rest => [] :: lines rest
  | c :: rest =>
    if c = '\n' then [] :: lines rest
    else match lines rest with
      | [] => [[c]]
      | line :: others => (c :: line) :: others

/-- Adds a setting that is not there yet. -/
def add? (entries : Entries) : Setting → Nat → Option Entries
  | .indentWidth, value =>
    if entries.indentWidth.isSome then none else some { entries with indentWidth := some value }
  | .maxDepth, value =>
    if entries.maxDepth.isSome then none else some { entries with maxDepth := some value }

def addLine? (entries : Entries) (line : Source) : Option Entries :=
  if isRemark line then some entries
  else do
    let (setting, value) ← entry? line
    add? entries setting value

/-- The settings a file gives. A byte order mark may come first. -/
def read? (text : Source) : Option Entries :=
  let content := match text with
    | '\ufeff' :: rest => rest
    | _ => text
  (lines content).foldlM addLine? ⟨none, none⟩

end SettingsFile

namespace Settings

/-- The settings of a file, with defaults for those it does not give. -/
def ofText (text : Source) : Except SettingsError Settings :=
  match SettingsFile.read? text with
  | none => .error .malformed
  | some entries =>
    make (entries.indentWidth.getD default.indentWidth) (entries.maxDepth.getD default.maxDepth)

/-- The settings of a file with the given bytes, or of a file that is not there. -/
def ofFile : Option ByteArray → Except SettingsError Settings
  | none => .error .missingFile
  | some bytes =>
    match String.fromUTF8? bytes with
    | none => .error .invalidEncoding
    | some text => ofText text.toList

end Settings

end TermOutline
