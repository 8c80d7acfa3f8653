import Mathlib.Computability.Language
import Mathlib.Data.Char
import Mathlib.Order.Interval.Set.Defs
import TermOutline.Proofs.Brackets
import TermOutline.Proofs.Spacing

/-! # The longest match

Each mode has a table of patterns, every one with the kind of the tokens it gives. A token is the
longest front of the remaining text that a pattern of the mode matches, and a single character of no
known kind where none matches anything. The mode is that of texts exactly when, of the texts and
slots opened on the line, the innermost that is still open is a text.
-/
namespace TermOutline

open Computability

/-! ## Patterns -/

/-- One character of a class. -/
def oneOf (letters : Set Char) : Language Char := {text | ∃ c ∈ letters, text = [c]}

def optional (language : Language Char) : Language Char := 1 + language

def repeated (language : Language Char) : Language Char := language * language∗

def lowercase : Set Char := Set.Icc 'a' 'z'

def uppercase : Set Char := Set.Icc 'A' 'Z'

def decimalDigits : Set Char := Set.Icc '0' '9'

/-- What tokens of a kind look like. -/
structure Pattern where
  kind : TokenKind
  language : Language Char

namespace Pattern

def space : Pattern := ⟨.space, repeated (oneOf {' '})⟩

def tab : Pattern := ⟨.tab, repeated (oneOf {'\t'})⟩

def line : Pattern := ⟨.line, optional (oneOf {'\r'}) * oneOf {'\n'}⟩

def term : Pattern :=
  ⟨.term, oneOf lowercase * (oneOf (lowercase ∪ decimalDigits ∪ {'-'}))∗⟩

def size : Pattern := ⟨.size, optional (oneOf {'-'}) * repeated (oneOf decimalDigits)⟩

/-- The digits behind the point may be missing. -/
def decimal : Pattern :=
  ⟨.decimal, size.language * (oneOf {'.'} * (oneOf decimalDigits)∗)⟩

def code : Pattern :=
  ⟨.code, oneOf {'#'} * (oneOf (decimalDigits ∪ uppercase ∪ lowercase))∗⟩

def cut : Pattern := ⟨.textCut, repeated (oneOf {'>', '\x7b', '\x7d', '\\', '\r', '\n'}ᶜ)⟩

def escape : Pattern := ⟨.textCut, oneOf {'\\'} * oneOf {'<', '>', '\x7b', '\x7d', '\\'}⟩

def badEscape : Pattern :=
  ⟨.badEscape, oneOf {'\\'} * oneOf {'<', '>', '\x7b', '\x7d', '\\', '\r', '\n'}ᶜ⟩

/-- A kind that is always written the same way. -/
def mark (kind : TokenKind) (c : Char) : Pattern := ⟨kind, oneOf {c}⟩

end Pattern

def Mode.patterns : Mode → List Pattern
  | .code => [.space, .tab, .line, .term, .size, .decimal, .code, .mark .comma ',',
    .mark .parenOpen '(', .mark .parenClose ')', .mark .textOpen '<', .mark .slotClose '\x7d']
  | .text => [.cut, .escape, .badEscape, .mark .slotOpen '\x7b', .mark .textClose '>',
    .mark .textBrace '\x7d', .line]

/-- A pattern of the mode for tokens of a kind matches something at the front of a text. -/
def Mode.Matches (mode : Mode) (remaining : Source) (kind : TokenKind) (taken : Source) : Prop :=
  taken ≠ [] ∧ taken <+: remaining ∧
    ∃ pattern ∈ mode.patterns, pattern.kind = kind ∧ taken ∈ pattern.language

/-- The token at the front of a text by the longest match. No two patterns for different kinds
match equally much. -/
structure LongestMatch (mode : Mode) (remaining : Source) (token : Token) : Prop where
  first : token.text <+: remaining
  matched : token.kind ≠ .unknown → mode.Matches remaining token.kind token.text
  longest : ∀ kind taken, mode.Matches remaining kind taken → taken.length ≤ token.text.length
  decided : ∀ kind, mode.Matches remaining kind token.text → kind = token.kind
  unknown : token.kind = .unknown ↔ ∀ kind taken, ¬mode.Matches remaining kind taken
  single : token.kind = .unknown → ∃ c, token.text = [c]

theorem mem_star_oneOf {letters : Set Char} {text : Source} :
    text ∈ (oneOf letters)∗ ↔ ∀ c ∈ text, c ∈ letters := by
  constructor
  · rintro ⟨parts, rfl, each⟩ c member
    obtain ⟨part, among, inside⟩ := List.mem_flatten.1 member
    obtain ⟨d, letter, rfl⟩ := each part among
    rw [List.mem_singleton.1 inside]
    exact letter
  · intro letter
    refine ⟨text.map fun c => [c], (List.flatMap_singleton' text).symm, ?_⟩
    intro part member
    obtain ⟨c, inside, rfl⟩ := List.mem_map.1 member
    exact ⟨c, letter c inside, rfl⟩

theorem mem_oneOf_star {first more : Set Char} {text : Source} :
    text ∈ oneOf first * (oneOf more)∗ ↔
      ∃ c rest, text = c :: rest ∧ c ∈ first ∧ ∀ d ∈ rest, d ∈ more := by
  constructor
  · intro h
    obtain ⟨front, ⟨c, letter, rfl⟩, rest, letters, rfl⟩ := Language.mem_mul.1 h
    exact ⟨c, rest, rfl, letter, mem_star_oneOf.1 letters⟩
  · rintro ⟨c, rest, rfl, letter, letters⟩
    exact Language.mem_mul.2 ⟨[c], ⟨c, letter, rfl⟩, rest, mem_star_oneOf.2 letters, rfl⟩

theorem mem_oneOf_oneOf {first second : Set Char} {text : Source} :
    text ∈ oneOf first * oneOf second ↔ ∃ c ∈ first, ∃ d ∈ second, text = [c, d] := by
  constructor
  · intro h
    obtain ⟨front, ⟨c, hc, rfl⟩, back, ⟨d, hd, rfl⟩, rfl⟩ := Language.mem_mul.1 h
    exact ⟨c, hc, d, hd, rfl⟩
  · rintro ⟨c, hc, d, hd, rfl⟩
    exact Language.mem_mul.2 ⟨[c], ⟨c, hc, rfl⟩, [d], ⟨d, hd, rfl⟩, rfl⟩

theorem mem_line {text : Source} :
    text ∈ Pattern.line.language ↔ text = ['\n'] ∨ text = ['\r', '\n'] := by
  constructor
  · intro h
    obtain ⟨front, rfl | ⟨c, rfl, rfl⟩, back, ⟨d, rfl, rfl⟩, rfl⟩ := Language.mem_mul.1 h
    · exact Or.inl rfl
    · exact Or.inr rfl
  · rintro (rfl | rfl)
    · exact Language.mem_mul.2 ⟨[], Or.inl rfl, _, ⟨'\n', rfl, rfl⟩, rfl⟩
    · exact Language.mem_mul.2 ⟨_, Or.inr ⟨'\r', rfl, rfl⟩, _, ⟨'\n', rfl, rfl⟩, rfl⟩

theorem mem_lowercase (c : Char) : c ∈ lowercase ↔ c.isLower = true := by
  unfold Char.isLower
  simp [lowercase, Set.mem_Icc, Char.le_def]

theorem mem_decimalDigits (c : Char) : c ∈ decimalDigits ↔ c.isDigit = true := by
  simp [decimalDigits, Char.isDigit, Set.mem_Icc, Char.le_def]

theorem mem_alphanumerics (c : Char) :
    c ∈ decimalDigits ∪ uppercase ∪ lowercase ↔ c.isAlphanum = true := by
  unfold Char.isAlphanum Char.isAlpha Char.isUpper Char.isLower Char.isDigit
  simp only [decimalDigits, uppercase, lowercase, Set.mem_union, Set.mem_Icc, Char.le_def,
    Bool.or_eq_true, Bool.and_eq_true, decide_eq_true_eq, ge_iff_le]
  tauto

theorem mem_termLetters (c : Char) :
    c ∈ lowercase ∪ decimalDigits ∪ {'-'} ↔ Mode.continuesTerm c = true := by
  simp only [Mode.continuesTerm, Set.mem_union, mem_lowercase, mem_decimalDigits,
    Set.mem_singleton_iff, Bool.or_eq_true, beq_iff_eq]

theorem mem_cutLetters (c : Char) :
    c ∈ ({'>', '\x7b', '\x7d', '\\', '\r', '\n'}ᶜ : Set Char) ↔ Mode.continuesCut c = true := by
  simp [Mode.continuesCut, and_assoc]

theorem mem_escapable (c : Char) :
    c ∈ ({'<', '>', '\x7b', '\x7d', '\\'} : Set Char) ↔ Mode.isEscapable c = true := by
  simp [Mode.isEscapable, or_assoc]

theorem mem_size {text : Source} : text ∈ Pattern.size.language ↔ IsSize text := by
  constructor
  · intro h
    obtain ⟨sign, signed, digits, numeral, rfl⟩ := Language.mem_mul.1 h
    obtain ⟨c, rest, rfl, first, more⟩ := mem_oneOf_star.1 numeral
    refine ⟨sign, c :: rest, ?_, ⟨List.cons_ne_nil _ _, ?_⟩, rfl⟩
    · rcases signed with rfl | ⟨c, rfl, rfl⟩
      · exact Or.inl rfl
      · exact Or.inr rfl
    · exact List.forall_mem_cons.2 ⟨(mem_decimalDigits c).1 first,
        fun d member => (mem_decimalDigits d).1 (more d member)⟩
  · rintro ⟨sign, digits, signed, ⟨ne, numeral⟩, rfl⟩
    obtain ⟨c, rest, rfl⟩ := List.exists_cons_of_ne_nil ne
    obtain ⟨first, more⟩ := List.forall_mem_cons.1 numeral
    refine Language.mem_mul.2 ⟨sign, ?_, c :: rest, mem_oneOf_star.2 ⟨c, rest, rfl, ?_, ?_⟩, rfl⟩
    · rcases signed with rfl | rfl
      · exact Or.inl rfl
      · exact Or.inr ⟨'-', rfl, rfl⟩
    · exact (mem_decimalDigits c).2 first
    · exact fun d member => (mem_decimalDigits d).2 (more d member)

theorem mem_decimal {text : Source} :
    text ∈ Pattern.decimal.language ↔ Spelled .decimal text := by
  constructor
  · intro h
    obtain ⟨whole, number, back, pointed, rfl⟩ := Language.mem_mul.1 h
    obtain ⟨sign, digits, signed, numeral, rfl⟩ := mem_size.1 number
    obtain ⟨c, fraction, rfl, rfl, more⟩ := mem_oneOf_star.1 pointed
    exact ⟨sign, digits, fraction, signed, numeral,
      fun d member => (mem_decimalDigits d).1 (more d member), rfl⟩
  · rintro ⟨sign, digits, fraction, signed, numeral, more, rfl⟩
    refine Language.mem_mul.2 ⟨sign ++ digits, mem_size.2 ⟨sign, digits, signed, numeral, rfl⟩,
      '.' :: fraction, mem_oneOf_star.2 ⟨'.', fraction, rfl, rfl, ?_⟩, rfl⟩
    exact fun d member => (mem_decimalDigits d).2 (more d member)

/-! ## What the rules take -/

theorem run_le {p : Char → Bool} {front rest : Source} (h : ∀ c ∈ front, p c = true)
    (first : front <+: rest) : front.length ≤ Mode.run p rest := by
  obtain ⟨back, rfl⟩ := first
  rw [Mode.run, List.takeWhile_append_of_pos h, List.length_append]
  exact Nat.le_add_right _ _

namespace Mode

/-- A rule takes more than so many characters, or as many for a kind. -/
def Takes (rule : TokenKind × Nat) (kind : TokenKind) (count : Nat) : Prop :=
  count < rule.2 ∨ kind = rule.1 ∧ count ≤ rule.2

theorem takes_run {p : Char → Bool} {front rest : Source} {kind : TokenKind}
    (h : ∀ c ∈ front, p c = true) (first : front <+: rest) :
    Takes (kind, run p rest) kind front.length := Or.inr ⟨rfl, run_le h first⟩

theorem numberRule_takes_whole {digits rest : Source} (h : ∀ c ∈ digits, c.isDigit = true)
    (first : digits <+: rest) : Takes (numberRule rest) .size digits.length := by
  have all := run_le h first
  unfold numberRule
  dsimp only
  split
  · exact Or.inl (by dsimp only; omega)
  · exact Or.inr ⟨rfl, all⟩

theorem numberRule_takes_point {digits fraction rest : Source} (h : ∀ c ∈ digits, c.isDigit = true)
    (more : ∀ c ∈ fraction, c.isDigit = true) (first : digits ++ '.' :: fraction <+: rest) :
    Takes (numberRule rest) .decimal (digits ++ '.' :: fraction).length := by
  obtain ⟨back, rfl⟩ := first
  have whole : run Char.isDigit (digits ++ '.' :: (fraction ++ back)) = digits.length := by
    refine run_append h ?_
    rintro c ⟨⟩
    rfl
  have all := run_le more (List.prefix_append fraction back)
  rw [List.append_assoc, List.cons_append]
  simp only [numberRule, whole, List.drop_left', Takes, List.length_append, List.length_cons]
  refine Or.inr ⟨trivial, ?_⟩
  omega

theorem signRule_takes {d : Char} {rest : Source} {kind : TokenKind} {count : Nat}
    (digit : d.isDigit = true) (h : Takes (numberRule rest) kind count) :
    Takes (signRule (d :: rest)) kind (count + 1) := by
  rw [signRule, if_pos digit]
  rcases h with less | ⟨same, le⟩
  · exact Or.inl (Nat.succ_lt_succ less)
  · exact Or.inr ⟨same, Nat.succ_le_succ le⟩

theorem codeRule_takes_number {c d : Char} {front rest sign tail : Source} {kind : TokenKind}
    (signed : IsSign sign) (digit : d.isDigit = true) (split : c :: front = sign ++ d :: tail)
    (first : front <+: rest)
    (number : ∀ following, tail <+: following → Takes (numberRule following) kind tail.length) :
    Takes (codeRule c rest) kind front.length := by
  rcases signed with rfl | rfl
  · cases split
    rw [codeRule_digit digit]
    exact number rest first
  · cases split
    obtain ⟨back, rfl⟩ := first
    exact signRule_takes digit (number (tail ++ back) (List.prefix_append _ _))

theorem takes_line {rule : Char → Source → TokenKind × Nat}
    (feed : ∀ rest, rule '\n' rest = (.line, 0))
    (pair : ∀ rest, rule '\r' ('\n' :: rest) = (.line, 1)) {c : Char} {front rest : Source}
    (h : c :: front ∈ Pattern.line.language) (first : front <+: rest) :
    Takes (rule c rest) .line front.length := by
  rcases mem_line.1 h with ⟨⟨⟩⟩ | ⟨⟨⟩⟩
  · rw [feed]
    exact Or.inr ⟨rfl, Nat.le_refl _⟩
  · obtain ⟨back, rfl⟩ := first
    rw [List.singleton_append, pair]
    exact Or.inr ⟨rfl, Nat.le_refl _⟩

theorem textRule_escapable {d : Char} (h : isEscapable d = true) (rest : Source) :
    textRule '\\' (d :: rest) = (.textCut, 1) := by
  change escapeRule (d :: rest) = _
  rw [escapeRule, if_pos h]

theorem textRule_other {d : Char}
    (h : d ∈ ({'<', '>', '\x7b', '\x7d', '\\', '\r', '\n'}ᶜ : Set Char)) (rest : Source) :
    textRule '\\' (d :: rest) = (.badEscape, 1) := by
  change escapeRule (d :: rest) = _
  simp only [Set.mem_compl_iff, Set.mem_insert_iff, Set.mem_singleton_iff, not_or] at h
  simp [escapeRule, isEscapable, h]

/-- No pattern matches more than the rule takes, and none for another kind matches as much. -/
theorem rule_takes {mode : Mode} {c : Char} {front rest : Source} {pattern : Pattern}
    (member : pattern ∈ mode.patterns) (h : c :: front ∈ pattern.language)
    (first : front <+: rest) : Takes (mode.rule c rest) pattern.kind front.length := by
  cases mode with
  | code =>
    simp only [patterns, List.mem_cons, List.not_mem_nil, or_false] at member
    rcases member with rfl | rfl | rfl | rfl | rfl | rfl | rfl | rfl | rfl | rfl | rfl | rfl
    · obtain ⟨_, _, ⟨⟩, rfl, more⟩ := mem_oneOf_star.1 h
      exact takes_run (fun d inside => beq_iff_eq.2 (more d inside)) first
    · obtain ⟨_, _, ⟨⟩, rfl, more⟩ := mem_oneOf_star.1 h
      exact takes_run (fun d inside => beq_iff_eq.2 (more d inside)) first
    · exact takes_line (fun _ => rfl) (fun _ => rfl) h first
    · obtain ⟨_, _, ⟨⟩, letter, more⟩ := mem_oneOf_star.1 h
      rw [rule, codeRule_lower ((mem_lowercase c).1 letter)]
      exact takes_run (fun d inside => (mem_termLetters d).1 (more d inside)) first
    · obtain ⟨sign, digits, signed, ⟨ne, numeral⟩, split⟩ := mem_size.1 h
      obtain ⟨d, tail, rfl⟩ := List.exists_cons_of_ne_nil ne
      obtain ⟨digit, numeral⟩ := List.forall_mem_cons.1 numeral
      exact codeRule_takes_number signed digit split first
        fun following begun => numberRule_takes_whole numeral begun
    · obtain ⟨sign, digits, fraction, signed, ⟨ne, numeral⟩, more, split⟩ := mem_decimal.1 h
      obtain ⟨d, tail, rfl⟩ := List.exists_cons_of_ne_nil ne
      obtain ⟨digit, numeral⟩ := List.forall_mem_cons.1 numeral
      rw [List.append_assoc, List.cons_append] at split
      exact codeRule_takes_number signed digit split first
        fun following begun => numberRule_takes_point numeral more begun
    · obtain ⟨_, _, ⟨⟩, rfl, more⟩ := mem_oneOf_star.1 h
      exact takes_run (fun d inside => (mem_alphanumerics d).1 (more d inside)) first
    all_goals
      obtain ⟨_, rfl, ⟨⟩⟩ := h
      exact Or.inr ⟨rfl, Nat.zero_le _⟩
  | text =>
    simp only [patterns, List.mem_cons, List.not_mem_nil, or_false] at member
    rcases member with rfl | rfl | rfl | rfl | rfl | rfl | rfl
    · obtain ⟨_, _, ⟨⟩, letter, more⟩ := mem_oneOf_star.1 h
      rw [rule, textRule_plain ((mem_cutLetters c).1 letter)]
      exact takes_run (fun d inside => (mem_cutLetters d).1 (more d inside)) first
    · obtain ⟨_, rfl, d, escapable, ⟨⟩⟩ := mem_oneOf_oneOf.1 h
      obtain ⟨back, rfl⟩ := first
      rw [List.singleton_append, rule, textRule_escapable ((mem_escapable d).1 escapable)]
      exact Or.inr ⟨rfl, Nat.le_refl _⟩
    · obtain ⟨_, rfl, d, other, ⟨⟩⟩ := mem_oneOf_oneOf.1 h
      obtain ⟨back, rfl⟩ := first
      rw [List.singleton_append, rule, textRule_other other]
      exact Or.inr ⟨rfl, Nat.le_refl _⟩
    iterate 3
      · obtain ⟨_, rfl, ⟨⟩⟩ := h
        exact Or.inr ⟨rfl, Nat.zero_le _⟩
    · exact takes_line (fun _ => rfl) (fun _ => rfl) h first

/-- A pattern of the mode for the kind of a rule matches what the rule takes. -/
def Matched (mode : Mode) (c : Char) (rest : Source) (rule : TokenKind × Nat) : Prop :=
  ∃ pattern ∈ mode.patterns, pattern.kind = rule.1 ∧ c :: rest.take rule.2 ∈ pattern.language

theorem mark_matched {mode : Mode} {kind : TokenKind} {c : Char}
    (member : Pattern.mark kind c ∈ mode.patterns) (rest : Source) :
    Matched mode c rest (kind, 0) := ⟨_, member, rfl, c, rfl, rfl⟩

theorem numberRule_matched {c : Char} {rest sign : Source} (signed : IsSign sign)
    (digit : c.isDigit = true) :
    ∃ pattern ∈ Mode.code.patterns, pattern.kind = (numberRule rest).1 ∧
      sign ++ c :: rest.take (numberRule rest).2 ∈ pattern.language := by
  have spelled := @numberRule_spelled sign c rest signed digit
  rcases numberRule_kind rest with kind | kind
  · rw [kind] at spelled
    exact ⟨.decimal, by simp [patterns], kind.symm, mem_decimal.2 spelled⟩
  · rw [kind] at spelled
    exact ⟨.size, by simp [patterns], kind.symm, mem_size.2 spelled⟩

theorem returnRule_matched {mode : Mode} (member : Pattern.line ∈ mode.patterns) (rest : Source) :
    returnRule rest = (.unknown, 0) ∨ Matched mode '\r' rest (returnRule rest) := by
  unfold returnRule
  split
  · exact Or.inr ⟨.line, member, rfl, mem_line.2 (Or.inr rfl)⟩
  · exact Or.inl rfl

theorem signRule_matched (rest : Source) :
    signRule rest = (.unknown, 0) ∨ Matched .code '-' rest (signRule rest) := by
  cases rest with
  | nil => exact Or.inl rfl
  | cons d rest =>
    rw [signRule]
    split
    · next digit => exact Or.inr (numberRule_matched (Or.inr rfl) digit)
    · exact Or.inl rfl

theorem escapeRule_matched (rest : Source) :
    escapeRule rest = (.unknown, 0) ∨ Matched .text '\\' rest (escapeRule rest) := by
  cases rest with
  | nil => exact Or.inl rfl
  | cons d rest =>
    rw [escapeRule]
    split
    · next escapable =>
      exact Or.inr ⟨.escape, by simp [patterns], rfl,
        mem_oneOf_oneOf.2 ⟨'\\', rfl, d, (mem_escapable d).2 escapable, rfl⟩⟩
    split
    · exact Or.inl rfl
    · next escapable broken =>
      refine Or.inr ⟨.badEscape, by simp [patterns], rfl, mem_oneOf_oneOf.2 ⟨'\\', rfl, d, ?_, rfl⟩⟩
      simp only [isEscapable, Bool.or_eq_true, beq_iff_eq, not_or] at escapable broken
      simp [escapable, broken]

/-- A rule takes a single character of no known kind, or what a pattern matches. -/
theorem rule_matched (mode : Mode) (c : Char) (rest : Source) :
    mode.rule c rest = (.unknown, 0) ∨ Matched mode c rest (mode.rule c rest) := by
  cases mode with
  | code =>
    simp only [rule, codeRule]
    split
    · next lower =>
      refine Or.inr ⟨.term, by simp [patterns], rfl, mem_oneOf_star.2 ⟨c, _, rfl, ?_, ?_⟩⟩
      · exact (mem_lowercase c).2 lower
      · exact fun d inside => (mem_termLetters d).2 (mem_take_run inside)
    split
    · next digit => exact Or.inr (numberRule_matched (Or.inl rfl) digit)
    split
    · refine Or.inr ⟨.space, by simp [patterns], rfl, mem_oneOf_star.2 ⟨' ', _, rfl, rfl, ?_⟩⟩
      exact fun d inside => eq_of_beq (mem_take_run (p := (· == ' ')) inside)
    · refine Or.inr ⟨.tab, by simp [patterns], rfl, mem_oneOf_star.2 ⟨'\t', _, rfl, rfl, ?_⟩⟩
      exact fun d inside => eq_of_beq (mem_take_run (p := (· == '\t')) inside)
    · exact Or.inr ⟨.line, by simp [patterns], rfl, mem_line.2 (Or.inl rfl)⟩
    · exact returnRule_matched (by simp [patterns]) rest
    · exact signRule_matched rest
    · refine Or.inr ⟨.code, by simp [patterns], rfl, mem_oneOf_star.2 ⟨'#', _, rfl, rfl, ?_⟩⟩
      exact fun d inside => (mem_alphanumerics d).2 (mem_take_run inside)
    iterate 5
      · exact Or.inr (mark_matched (by simp [patterns]) rest)
    · exact Or.inl rfl
  | text =>
    simp only [rule, textRule]
    split
    iterate 3
      · exact Or.inr (mark_matched (by simp [patterns]) rest)
    · exact escapeRule_matched rest
    · exact returnRule_matched (by simp [patterns]) rest
    · exact Or.inr ⟨.line, by simp [patterns], rfl, mem_line.2 (Or.inl rfl)⟩
    · next h₁ h₂ h₃ h₄ h₅ h₆ =>
      refine Or.inr ⟨.cut, by simp [patterns], rfl, mem_oneOf_star.2 ⟨c, _, rfl, ?_, ?_⟩⟩
      · simp only [Set.mem_compl_iff, Set.mem_insert_iff, Set.mem_singleton_iff, not_or]
        exact ⟨h₁, h₂, h₃, h₄, h₅, h₆⟩
      · exact fun d inside => (mem_cutLetters d).2 (mem_take_run inside)

theorem patterns_known {mode : Mode} : ∀ pattern ∈ mode.patterns, pattern.kind ≠ .unknown := by
  cases mode <;> simp [patterns, Pattern.space, Pattern.tab, Pattern.line, Pattern.term,
    Pattern.size, Pattern.decimal, Pattern.code, Pattern.cut, Pattern.escape, Pattern.badEscape,
    Pattern.mark]

theorem Matches.takes {mode : Mode} {c : Char} {rest taken : Source} {kind : TokenKind}
    (h : mode.Matches (c :: rest) kind taken) :
    kind ≠ .unknown ∧ ∃ count, taken.length = count + 1 ∧ Takes (mode.rule c rest) kind count := by
  obtain ⟨ne, first, pattern, member, rfl, language⟩ := h
  refine ⟨patterns_known pattern member, ?_⟩
  obtain ⟨d, front, rfl⟩ := List.exists_cons_of_ne_nil ne
  obtain ⟨rfl, begins⟩ := List.cons_prefix_cons.1 first
  exact ⟨front.length, rfl, rule_takes member language begins⟩

end Mode

theorem longestMatch_of_rule {mode : Mode} {c : Char} {rest : Source} {token : Token} {more : Nat}
    (rule : mode.rule c rest = (token.kind, more)) (text : token.text = c :: rest.take more) :
    LongestMatch mode (c :: rest) token := by
  have bound := Mode.rule_le mode c rest
  have matched := Mode.rule_matched mode c rest
  rw [rule] at bound matched
  have size : token.text.length = more + 1 := by
    rw [text, List.length_cons, List.length_take_of_le bound]
  have first : token.text <+: c :: rest := by
    rw [text]
    exact List.cons_prefix_cons.2 ⟨rfl, List.take_prefix more rest⟩
  have takes : ∀ {kind taken}, mode.Matches (c :: rest) kind taken → kind ≠ .unknown ∧
      ∃ count, taken.length = count + 1 ∧ (count < more ∨ kind = token.kind ∧ count ≤ more) := by
    intro kind taken h
    have taken := h.takes
    rwa [rule] at taken
  have known : token.kind ≠ .unknown → mode.Matches (c :: rest) token.kind token.text := by
    intro known
    obtain ⟨pattern, member, kind, language⟩ := matched.resolve_left (by simp [known])
    rw [← text] at language
    exact ⟨by simp [text], first, pattern, member, kind, language⟩
  have alone : token.kind = .unknown → more = 0 := by
    intro unknown
    rcases matched with none | ⟨pattern, member, kind, _⟩
    · exact congrArg Prod.snd none
    · exact absurd (kind.trans unknown) (Mode.patterns_known pattern member)
  refine ⟨first, known, ?_, ?_, ⟨?_, ?_⟩, ?_⟩
  · intro kind taken h
    obtain ⟨_, count, length, upTo⟩ := takes h
    omega
  · intro kind h
    obtain ⟨_, count, length, upTo⟩ := takes h
    rcases upTo with less | ⟨same, _⟩
    · omega
    · exact same
  · intro unknown kind taken h
    obtain ⟨other, count, length, less | ⟨same, _⟩⟩ := takes h
    · have none := alone unknown
      omega
    · exact other (same.trans unknown)
  · intro none
    by_contra other
    exact none _ _ (known other)
  · intro unknown
    rw [text, alone unknown]
    exact ⟨c, rfl⟩

/-! ## The mode -/

/-- What the scanner keeps of an opening bracket. -/
def Opening.ofToken (token : Token) : Opening :=
  if token.kind = .textOpen then .text token.span else .slot

theorem lastLine_concat (tokens : List Token) (token : Token) :
    lastLine (tokens ++ [token]) =
      if token.kind = .line then [] else lastLine tokens ++ [token] := by
  by_cases ends : token.kind = .line
  · rw [if_pos ends, lastLine, List.rtakeWhile_concat_neg]
    simp [ends]
  · rw [if_neg ends, lastLine, List.rtakeWhile_concat_pos]
    · rfl
    · simp [ends]

/-- The scanner keeps the brackets that are open on the line. -/
structure Keeps (scanner : Scanner) (line : List Token) : Prop where
  proper : Brackets.texts.Proper line
  openings : scanner.openings = (Brackets.texts.pending line).map Opening.ofToken

theorem Keeps.mode_eq_text_iff {scanner : Scanner} {line : List Token} (h : Keeps scanner line) :
    scanner.mode = .text ↔
      ∃ opening, Brackets.texts.Innermost line opening ∧ opening.kind = .textOpen := by
  have top : scanner.mode = .text ↔
      ∃ opening, (Brackets.texts.pending line).head? = some opening ∧ opening.kind = .textOpen := by
    rw [Scanner.mode, h.openings]
    cases Brackets.texts.pending line with
    | nil => simp
    | cons opening outer =>
      by_cases text : opening.kind = .textOpen
      · simp [Opening.ofToken, text]
      · simp [Opening.ofToken, text]
  rw [top]
  refine exists_congr fun opening => and_congr_left fun _ => ?_
  exact (Brackets.innermost_iff h.proper opening).symm

/-- A bracket that closes what the scanner has innermost is the last on the stack no more. -/
theorem Keeps.close {scanner : Scanner} {line outer : List Token} {opening token : Token}
    (h : Keeps scanner line) (stack : Brackets.texts.pending line = opening :: outer)
    (pair : (opening.kind, token.kind) ∈ Brackets.texts.pairs) :
    Keeps { scanner with openings := scanner.openings.tail } (line ++ [token]) := by
  constructor
  · refine h.proper.concat fun _ innermost first => ?_
    rw [stack] at first
    cases first
    exact pair
  · rw [Brackets.pending_concat, stack, Brackets.step_pair pair]
    change scanner.openings.tail = _
    rw [h.openings, stack]
    rfl

theorem Keeps.opened {scanner : Scanner} {line : List Token} {token : Token}
    (h : Keeps scanner line) (opens : Brackets.texts.Opens token.kind) :
    Keeps { scanner with openings := Opening.ofToken token :: scanner.openings }
      (line ++ [token]) := by
  constructor
  · refine h.proper.concat fun closes => ?_
    exact absurd opens (Brackets.not_opens_of_closes closes)
  · rw [Brackets.pending_concat, Brackets.step_opens opens, List.map_cons]
    change _ :: scanner.openings = _
    rw [h.openings]

theorem Keeps.passed {scanner : Scanner} {line : List Token} {token : Token}
    (h : Keeps scanner line) (opens : ¬Brackets.texts.Opens token.kind)
    (closes : Brackets.texts.Closes token.kind → Brackets.texts.pending line = []) :
    Keeps scanner (line ++ [token]) := by
  constructor
  · refine h.proper.concat fun closing innermost first => ?_
    rw [closes closing] at first
    cases first
  · have same : Brackets.texts.step (Brackets.texts.pending line) token =
        Brackets.texts.pending line := by
      by_cases closing : Brackets.texts.Closes token.kind
      · rw [closes closing, Brackets.step_nil opens]
      · exact Brackets.step_other opens closing _
    rw [Brackets.pending_concat, same]
    exact h.openings

theorem Keeps.step {scanner : Scanner} {line : List Token} {token : Token} (h : Keeps scanner line)
    (admitted : scanner.mode.admits token.kind = true) (inside : token.kind ≠ .line) :
    Keeps (scanner.step token) (line ++ [token]) := by
  have other (opens : ¬Brackets.texts.Opens token.kind)
      (closes : ¬Brackets.texts.Closes token.kind) := h.passed opens (absurd · closes)
  cases kind : token.kind <;> simp only [Scanner.step, kind] <;> rw [kind] at admitted other
  case line => exact absurd kind inside
  case textOpen =>
    have opened : Keeps _ (line ++ [token]) := h.opened (by rw [kind]; decide)
    rwa [Opening.ofToken, if_pos kind] at opened
  case slotOpen =>
    have opened : Keeps _ (line ++ [token]) := h.opened (by rw [kind]; decide)
    rwa [Opening.ofToken, if_neg (by rw [kind]; decide)] at opened
  case textClose =>
    have mode : scanner.mode = .text := by
      cases mode : scanner.mode with
      | code =>
        rw [mode] at admitted
        cases admitted
      | text => rfl
    obtain ⟨opening, innermost, text⟩ := h.mode_eq_text_iff.1 mode
    have top := (Brackets.innermost_iff h.proper opening).1 innermost
    obtain ⟨outer, stack⟩ := List.head?_eq_some_iff.1 top
    exact h.close stack (by rw [text, kind]; decide)
  case slotClose =>
    have mode : scanner.mode ≠ .text := by
      intro mode
      rw [mode] at admitted
      cases admitted
    cases stack : Brackets.texts.pending line with
    | nil =>
      rw [h.openings, stack]
      exact h.passed (by rw [kind]; decide) fun _ => stack
    | cons opening outer =>
      have slot : opening.kind = .slotOpen := by
        have opens := Brackets.pending_opens opening (by rw [stack]; exact List.mem_cons_self)
        simp only [Brackets.Opens, Brackets.texts, List.map_cons, List.map_nil, List.mem_cons,
          List.not_mem_nil, or_false] at opens
        refine opens.resolve_left fun text => mode ?_
        simp [Scanner.mode, h.openings, stack, Opening.ofToken, text]
      have closed : Keeps _ (line ++ [token]) := h.close stack (by rw [slot, kind]; decide)
      rw [h.openings, stack, List.map_cons, Opening.ofToken, if_neg (by rw [slot]; decide)]
        at closed ⊢
      exact closed
  all_goals exact other (by decide) (by decide)

theorem keeps_lastLine {tokens : List Token} (admitted : Admitted .initial tokens) :
    Keeps (tokens.foldl Scanner.step .initial) (lastLine tokens) := by
  induction tokens using List.reverseRecOn with
  | nil => exact ⟨Brackets.proper_nil, rfl⟩
  | append_singleton before token ih =>
    obtain ⟨earlier, last, _⟩ := admitted_append.1 admitted
    rw [List.foldl_append, List.foldl_cons, List.foldl_nil, lastLine_concat]
    by_cases ends : token.kind = .line
    · rw [if_pos ends, Scanner.step, ends]
      exact ⟨Brackets.proper_nil, rfl⟩
    · rw [if_neg ends]
      exact (ih earlier).step last ends

/-- Every token of a text is the longest match in the mode that the brackets before it on its line
call for. -/
theorem tokens_longestMatch {text : Source} {before after : List Token} {token : Token}
    (split : text.tokens = before ++ token :: after) :
    ((before.foldl Scanner.step .initial).mode = .text ↔
      ∃ opening, Brackets.texts.Innermost (lastLine before) opening ∧ opening.kind = .textOpen) ∧
    ∃ remaining, text.dropBytes? token.start = some remaining ∧
      LongestMatch (before.foldl Scanner.step .initial).mode remaining token := by
  have scans := scans_tokens text
  rw [split] at scans
  have admitted := (admitted_append.1 (scans_admitted scans)).1
  refine ⟨(keeps_lastLine admitted).mode_eq_text_iff, (token :: after).flatMap Token.text, ?_, ?_⟩
  · have start := (contiguous_append_iff.1 (scans_contiguous scans)).2.1
    rw [start, Nat.zero_add, ← scans_text scans, List.flatMap_append]
    exact Source.dropBytes?_append _ _
  · have rest := scans_drop scans
    generalize remaining : (token :: after).flatMap Token.text = following at rest
    cases rest with
    | cons rule spelled _ _ => exact longestMatch_of_rule rule spelled

theorem tokens_longestMatch_at :
    LongestMatch .code ['-', '1', '.', ' '] ⟨.decimal, ['-', '1', '.'], 2⟩ ∧
    ¬∃ opening, Brackets.texts.Innermost [⟨.textOpen, ['<'], 0⟩, ⟨.slotOpen, ['\x7b'], 1⟩] opening ∧
      opening.kind = .textOpen := by
  have split : Source.tokens ['<', '\x7b', '-', '1', '.', ' '] =
      [⟨.textOpen, ['<'], 0⟩, ⟨.slotOpen, ['\x7b'], 1⟩] ++ ⟨.decimal, ['-', '1', '.'], 2⟩ ::
        [⟨.space, [' '], 5⟩] := by decide
  obtain ⟨mode, remaining, rest, longest⟩ := tokens_longestMatch split
  cases rest
  exact ⟨longest, mode.not.1 (by decide)⟩

end TermOutline
