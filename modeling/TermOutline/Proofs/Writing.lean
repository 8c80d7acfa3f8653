import TermOutline.Nest.Render
import TermOutline.Proofs.Grammar

/-! # Written nests

Nests that can be written, and what the scanner makes of them: the text of a nest scans to tokens
from which the grammar reads the nest back, whatever comes before it and behind it.
-/
namespace TermOutline

def WordKind.Spells : WordKind → Source → Prop
  | .term => IsTerm
  | .size => IsSize
  | .decimal => IsDecimal
  | .code => IsCode

/-- Parts that a run of plain characters before them would take in. -/
def Part.IsPlain : Part → Prop
  | .cut text => TermOutline.IsPlain text
  | .slot _ => False

mutual

/-- Nests that can be written: words as their kinds say, only terms with children, cuts that are
plain or an escape with no two plain ones side by side, and no empty slot. -/
def Nest.Writable : Nest → Prop
  | .mk head children => head.Writable ∧ (head.isValue = true → children = []) ∧
      nestsWritable children

def Head.Writable : Head → Prop
  | .word kind text => kind.Spells text
  | .text parts => partsWritable parts

def Part.Writable : Part → Prop
  | .cut text => TermOutline.IsPlain text ∨ IsEscape text
  | .slot nests => nests ≠ [] ∧ nestsWritable nests

def partsWritable : List Part → Prop
  | [] => True
  | part :: rest => part.Writable ∧ (part.IsPlain → ∀ next ∈ rest.head?, ¬next.IsPlain) ∧
      partsWritable rest

def nestsWritable : List Nest → Prop
  | [] => True
  | nest :: rest => nest.Writable ∧ nestsWritable rest

end

/-- The scanner cuts `front` into tokens when `back` comes behind it, and then stands at `back`. -/
structure Emits (scanner : Scanner) (offset : Nat) (front back : Source) (tokens : List Token)
    (next : Scanner) : Prop where
  cut : scanner.tokensFrom offset 0 (front ++ back) =
    tokens ++ next.tokensFrom (offset + front.byteLength) 0 back
  steps : tokens.foldl Scanner.step scanner = next
  faultless : Faultless tokens
  kinds : ∀ token ∈ tokens, token.kind ≠ .line

theorem Faultless.append {front back : List Token} (hf : Faultless front) (hb : Faultless back) :
    Faultless (front ++ back) := by
  refine ⟨?_, ?_, ?_⟩ <;> intro token member <;>
    rcases List.mem_append.1 member with member | member
  · exact hf.kinds token member
  · exact hb.kinds token member
  · exact hf.codes token member
  · exact hb.codes token member
  · exact hf.decimals token member
  · exact hb.decimals token member

theorem Emits.append {scanner middle next : Scanner} {offset : Nat} {front second back : Source}
    {tokens others : List Token} (hf : Emits scanner offset front (second ++ back) tokens middle)
    (hb : Emits middle (offset + front.byteLength) second back others next) :
    Emits scanner offset (front ++ second) back (tokens ++ others) next := by
  refine ⟨?_, ?_, hf.faultless.append hb.faultless, ?_⟩
  · rw [List.append_assoc, hf.cut, hb.cut, List.append_assoc, Source.byteLength_append,
      Nat.add_assoc]
  · rw [List.foldl_append, hf.steps, hb.steps]
  · intro token member
    rcases List.mem_append.1 member with member | member
    · exact hf.kinds token member
    · exact hb.kinds token member

theorem Emits.nil (scanner : Scanner) (offset : Nat) (back : Source) :
    Emits scanner offset [] back [] scanner :=
  ⟨rfl, rfl, ⟨by simp, by simp, by simp⟩, by simp⟩

theorem Emits.token {scanner : Scanner} {offset : Nat} {c : Char} {text back : Source}
    {kind : TokenKind} (rule : scanner.mode.rule c (text ++ back) = (kind, text.length))
    (fault : kind.isFault = false) (line : kind ≠ .line) (code : kind = .code → IsCode (c :: text))
    (decimal : kind = .decimal → IsDecimal (c :: text)) :
    Emits scanner offset (c :: text) back [⟨kind, c :: text, offset⟩]
      (scanner.step ⟨kind, c :: text, offset⟩) := by
  refine ⟨?_, rfl, ⟨by simpa using fault, by simpa using code, by simpa using decimal⟩,
    by simpa using line⟩
  rw [List.cons_append, Scanner.tokensFrom]
  simp only [rule, List.take_left', Scanner.tokensFrom_claimed _ _ text.length, List.drop_left']
  rfl

/-- Only lines, codes and decimals have more to show than that their kind is no fault. -/
theorem Emits.usual {scanner : Scanner} {offset : Nat} {c : Char} {text back : Source}
    {kind : TokenKind} (rule : scanner.mode.rule c (text ++ back) = (kind, text.length))
    (fault : kind.isFault = false) (usual : kind ∉ [.line, .code, .decimal]) :
    Emits scanner offset (c :: text) back [⟨kind, c :: text, offset⟩]
      (scanner.step ⟨kind, c :: text, offset⟩) := by
  simp only [List.mem_cons, List.not_mem_nil, or_false, not_or] at usual
  obtain ⟨line, code, decimal⟩ := usual
  exact .token rule fault line (fun h => absurd h code) (fun h => absurd h decimal)

/-- A character that is a token of its own. -/
theorem mark_emits (c : Char) (kind : TokenKind) {scanner : Scanner} {back : Source}
    (rule : scanner.mode.rule c back = (kind, 0)) (fault : kind.isFault = false)
    (usual : kind ∉ [.line, .code, .decimal]) (offset : Nat) :
    Emits scanner offset [c] back [⟨kind, [c], offset⟩] (scanner.step ⟨kind, [c], offset⟩) :=
  .usual rule fault usual

/-- What may stand directly behind a word. -/
def Stops (back : Source) : Prop := ∀ c ∈ back.head?, c ∈ ['(', ',', ')', '\x7d', '\n']

theorem Stops.run {p : Char → Bool} {front back : Source} (hb : Stops back)
    (hp : ['(', ',', ')', '\x7d', '\n'].all (fun c => !p c) = true)
    (hf : ∀ c ∈ front, p c = true) : Mode.run p (front ++ back) = front.length := by
  refine run_append hf ?_
  intro c hc
  simpa using List.all_eq_true.1 hp c (hb c hc)

theorem codeRule_digit {c : Char} (h : c.isDigit = true) (rest : Source) :
    Mode.codeRule c rest = Mode.numberRule rest := by
  have lower : ¬c.isLower = true := by
    unfold Char.isDigit at h
    unfold Char.isLower
    simp only [Bool.and_eq_true, decide_eq_true_eq, ge_iff_le, UInt32.le_iff_toNat_le,
      Char.reduceVal, UInt32.reduceToNat] at h ⊢
    omega
  unfold Mode.codeRule
  rw [if_neg lower, if_pos h]

theorem codeRule_lower {c : Char} (h : c.isLower = true) (rest : Source) :
    Mode.codeRule c rest = (.term, Mode.run Mode.continuesTerm rest) := by
  unfold Mode.codeRule
  rw [if_pos h]

theorem isAlphanum_iff (c : Char) : c.isAlphanum = true ↔
    (65 ≤ c.val.toNat ∧ c.val.toNat ≤ 90) ∨ (97 ≤ c.val.toNat ∧ c.val.toNat ≤ 122) ∨
      (48 ≤ c.val.toNat ∧ c.val.toNat ≤ 57) := by
  unfold Char.isAlphanum Char.isAlpha Char.isUpper Char.isLower Char.isDigit
  simp only [Bool.or_eq_true, Bool.and_eq_true, decide_eq_true_eq, ge_iff_le,
    UInt32.le_iff_toNat_le, Char.reduceVal, UInt32.reduceToNat, or_assoc]

theorem isAlphanum_of_hasDigit {base : CodeBase} {c : Char} (h : base.hasDigit c = true) :
    c.isAlphanum = true := by
  cases base with
  | binary =>
    simp only [CodeBase.hasDigit, Bool.or_eq_true, beq_iff_eq] at h
    rcases h with rfl | rfl <;> rfl
  | octal =>
    simp only [CodeBase.hasDigit, Bool.and_eq_true, decide_eq_true_eq, Char.le_def,
      UInt32.le_iff_toNat_le, Char.reduceVal, UInt32.reduceToNat] at h
    rw [isAlphanum_iff]
    omega
  | hexadecimal =>
    simp only [CodeBase.hasDigit, Char.isDigit, Bool.and_eq_true, Bool.or_eq_true,
      decide_eq_true_eq, ge_iff_le, Char.le_def, UInt32.le_iff_toNat_le, Char.reduceVal,
      UInt32.reduceToNat] at h
    rw [isAlphanum_iff]
    omega

theorem isAlphanum_of_ofLetter? {base : CodeBase} {c : Char}
    (h : CodeBase.ofLetter? c = some base) : c.isAlphanum = true := by
  unfold CodeBase.ofLetter? at h
  split at h
  · rfl
  · rfl
  · rfl
  · cases h

theorem numberRule_size {digits back : Source} (hd : ∀ c ∈ digits, c.isDigit = true)
    (hb : Stops back) : Mode.numberRule (digits ++ back) = (.size, digits.length) := by
  refine numberRule_whole hd ?_
  intro c first
  have stops := hb c first
  simp only [List.mem_cons, List.not_mem_nil, or_false] at stops
  rcases stops with rfl | rfl | rfl | rfl | rfl <;> decide

theorem numberRule_decimal {digits fraction back : Source} (hd : ∀ c ∈ digits, c.isDigit = true)
    (hf : ∀ c ∈ fraction, c.isDigit = true) (hb : Stops back) :
    Mode.numberRule (digits ++ '.' :: fraction ++ back) =
      (.decimal, (digits ++ '.' :: fraction).length) := by
  refine numberRule_point hd hf ?_
  intro c first
  have stops := hb c first
  simp only [List.mem_cons, List.not_mem_nil, or_false] at stops
  rcases stops with rfl | rfl | rfl | rfl | rfl <;> rfl

/-- In code one rule takes all of `text` when `back` comes behind it. -/
def Ruled (text back : Source) (kind : TokenKind) : Prop :=
  ∃ c rest, text = c :: rest ∧ Mode.codeRule c (rest ++ back) = (kind, rest.length)

theorem codeRule_number {sign digits : Source} {kind : TokenKind} (hs : IsSign sign)
    (hd : IsDigits digits) (tail back : Source) (number : ∀ d rest, digits = d :: rest →
      Mode.numberRule (rest ++ tail ++ back) = (kind, (rest ++ tail).length)) :
    Ruled (sign ++ digits ++ tail) back kind := by
  obtain ⟨d, rest, rfl⟩ := List.exists_cons_of_ne_nil hd.1
  have digit := hd.2 d List.mem_cons_self
  have rule := number d rest rfl
  rcases hs with rfl | rfl
  · refine ⟨d, rest ++ tail, by simp, ?_⟩
    rw [codeRule_digit digit, rule]
  · refine ⟨'-', d :: (rest ++ tail), by simp, ?_⟩
    have signed : Mode.codeRule '-' (d :: (rest ++ tail) ++ back) =
        Mode.signRule (d :: (rest ++ tail ++ back)) := rfl
    rw [signed, Mode.signRule, if_pos digit, rule]
    rfl

theorem IsTerm.ruled {text back : Source} (h : IsTerm text) (hb : Stops back) :
    Ruled text back .term := by
  obtain ⟨c, rest, rfl, lower, letters⟩ := h
  refine ⟨c, rest, rfl, ?_⟩
  rw [codeRule_lower lower, hb.run (by decide) letters]

theorem IsSize.ruled {text back : Source} (h : IsSize text) (hb : Stops back) :
    Ruled text back .size := by
  obtain ⟨sign, digits, hs, hd, rfl⟩ := h
  rw [← List.append_nil (sign ++ digits)]
  refine codeRule_number hs hd [] back ?_
  intro d rest split
  rw [List.append_nil]
  exact numberRule_size (fun c hc => hd.2 c (split ▸ List.mem_cons_of_mem _ hc)) hb

theorem IsDecimal.ruled {text back : Source} (h : IsDecimal text) (hb : Stops back) :
    Ruled text back .decimal := by
  obtain ⟨sign, digits, fraction, hs, hd, hf, rfl⟩ := h
  refine codeRule_number hs hd ('.' :: fraction) back ?_
  intro d rest split
  exact numberRule_decimal (fun c hc => hd.2 c (split ▸ List.mem_cons_of_mem _ hc)) hf.2 hb

theorem IsCode.ruled {text back : Source} (h : IsCode text) (hb : Stops back) :
    Ruled text back .code := by
  obtain ⟨letter, base, digits, rfl, hl, _, hd⟩ := h
  refine ⟨'#', letter :: digits, rfl, ?_⟩
  have run : Mode.run Char.isAlphanum (letter :: digits ++ back) = (letter :: digits).length := by
    refine hb.run (by decide) ?_
    intro c member
    rcases List.mem_cons.1 member with rfl | member
    · exact isAlphanum_of_ofLetter? hl
    · exact isAlphanum_of_hasDigit (hd c member)
  rw [← run]
  rfl

theorem Ruled.emits {text back : Source} {kind : TokenKind} (h : Ruled text back kind)
    {scanner : Scanner} (code : scanner.mode = .code) (offset : Nat) {word : WordKind}
    (hw : WordKind.ofToken? kind = some word) (same : scanner.step ⟨kind, text, offset⟩ = scanner)
    (fault : kind.isFault = false) (line : kind ≠ .line) (isCode : kind = .code → IsCode text)
    (isDecimal : kind = .decimal → IsDecimal text) :
    ∃ token : Token, token.text = text ∧ token.start = offset ∧
      WordKind.ofToken? token.kind = some word ∧
      Emits scanner offset text back [token] scanner := by
  obtain ⟨c, rest, rfl, rule⟩ := h
  rw [show Mode.codeRule = Mode.code.rule from rfl, ← code] at rule
  have emits : Emits scanner offset (c :: rest) back _ _ :=
    .token rule fault line isCode isDecimal
  rw [same] at emits
  exact ⟨⟨kind, c :: rest, offset⟩, rfl, rfl, hw, emits⟩

theorem word_emits {kind : WordKind} {text : Source} (h : kind.Spells text) {scanner : Scanner}
    (code : scanner.mode = .code) (offset : Nat) {back : Source} (hb : Stops back) :
    ∃ token : Token, token.text = text ∧ token.start = offset ∧
      WordKind.ofToken? token.kind = some kind ∧
      Emits scanner offset text back [token] scanner := by
  cases kind with
  | term => exact (IsTerm.ruled h hb).emits code offset rfl rfl rfl (by decide) (by simp) (by simp)
  | size => exact (IsSize.ruled h hb).emits code offset rfl rfl rfl (by decide) (by simp) (by simp)
  | decimal =>
    exact (IsDecimal.ruled h hb).emits code offset rfl rfl rfl (by decide) (by simp) (fun _ => h)
  | code =>
    exact (IsCode.ruled h hb).emits code offset rfl rfl rfl (by decide) (fun _ => h) (by simp)

/-- Texts that scan, in code, to tokens of which `P` holds when trivia is left out. -/
def Written (text : Source) (P : List Token → Prop) : Prop :=
  ∀ (scanner : Scanner), scanner.mode = .code → ∀ (offset : Nat) (back : Source), Stops back →
    ∃ tokens, Emits scanner offset text back tokens scanner ∧ P (content tokens)

theorem spells_first {kind : WordKind} {text : Source} (h : kind.Spells text) :
    ∃ c rest, text = c :: rest ∧ c ≠ ' ' := by
  have number : ∀ {sign digits : Source} (tail : Source), IsSign sign → IsDigits digits →
      ∃ c rest, sign ++ digits ++ tail = c :: rest ∧ c ≠ ' ' := by
    intro sign digits tail hs hd
    obtain ⟨d, rest, rfl⟩ := List.exists_cons_of_ne_nil hd.1
    rcases hs with rfl | rfl
    · refine ⟨d, rest ++ tail, rfl, ?_⟩
      rintro rfl
      have digit := hd.2 ' ' List.mem_cons_self
      simp at digit
    · exact ⟨'-', d :: (rest ++ tail), rfl, by decide⟩
  cases kind with
  | term =>
    obtain ⟨c, rest, rfl, lower, _⟩ := h
    refine ⟨c, rest, rfl, ?_⟩
    rintro rfl
    simp at lower
  | size =>
    obtain ⟨sign, digits, hs, hd, rfl⟩ := h
    have first := number [] hs hd
    rwa [List.append_nil] at first
  | decimal =>
    obtain ⟨sign, digits, fraction, hs, hd, _, rfl⟩ := h
    exact number _ hs hd
  | code =>
    obtain ⟨letter, base, digits, rfl, _⟩ := h
    exact ⟨'#', _, rfl, by decide⟩

theorem render_first {head : Head} (h : head.Writable) :
    ∃ c rest, head.render = c :: rest ∧ c ≠ ' ' := by
  cases head with
  | word kind text => exact spells_first h
  | text parts => exact ⟨'<', _, rfl, by decide⟩

theorem inline_first {nest : Nest} (h : nest.Writable) :
    ∃ c rest, nest.inline = c :: rest ∧ c ≠ ' ' := by
  obtain ⟨head, children⟩ := nest
  obtain ⟨c, rest, first, ne⟩ := render_first h.1
  cases children with
  | nil => exact ⟨c, rest, first, ne⟩
  | cons child others =>
    rw [Nest.inline, first]
    exact ⟨c, _, rfl, ne⟩

theorem separated_cons (text next : Source) (rest : List Source) :
    separated (text :: next :: rest) = text ++ ([','] ++ ([' '] ++ separated (next :: rest))) := by
  simp [separated, List.intercalate_cons_cons]

theorem separated_first {text : Source} (h : ∃ c more, text = c :: more ∧ c ≠ ' ')
    (rest : List Source) : ∃ c more, separated (text :: rest) = c :: more ∧ c ≠ ' ' := by
  obtain ⟨c, more, rfl, ne⟩ := h
  cases rest with
  | nil => exact ⟨c, more, by simp [separated], ne⟩
  | cons next others => exact ⟨c, _, separated_cons _ _ _, ne⟩

/-- Items follow each other with a comma and a space between them. -/
theorem Written.more {text others : Source} {nest : Nest} {nests : List Nest}
    (first : ∃ c rest, others = c :: rest ∧ c ≠ ' ')
    (hn : Written text fun tokens => ReadsChain tokens nest)
    (ho : Written others fun tokens => ReadsList tokens nests) :
    Written (text ++ ([','] ++ ([' '] ++ others))) fun tokens =>
      ReadsList tokens (nest :: nests) := by
  intro scanner code offset back hb
  obtain ⟨c, rest, rfl, ne⟩ := first
  obtain ⟨tokens, emits, reads⟩ := hn scanner code offset
    ([','] ++ ([' '] ++ (c :: rest)) ++ back) (by rintro c ⟨⟩; decide)
  have comma : Emits scanner (offset + text.byteLength) [','] ([' '] ++ (c :: rest) ++ back)
      [⟨.comma, [','], offset + text.byteLength⟩] scanner :=
    mark_emits ',' .comma (by rw [code]; rfl) rfl (by decide) _
  have spaces : Mode.run (· == ' ') (c :: rest ++ back) = 0 := by
    simp [Mode.run, ne]
  have space : Emits scanner (offset + text.byteLength + 1) [' '] (c :: rest ++ back)
      [⟨.space, [' '], offset + text.byteLength + 1⟩] scanner :=
    mark_emits ' ' .space (by rw [code, ← spaces]; rfl) rfl (by decide) _
  obtain ⟨later, emits', reads'⟩ := ho scanner code (offset + text.byteLength + 1 + 1) back hb
  refine ⟨_, emits.append (comma.append (space.append emits')), ?_⟩
  rw [content_append, content_append, content_append, content_significant rfl]
  exact .more reads rfl reads'

/-- A call is written with its list in parentheses. -/
theorem Written.call {text body : Source} {nests : List Nest} (hw : WordKind.term.Spells text)
    (hb : Written body fun tokens => ReadsList tokens nests) :
    Written (text ++ (['('] ++ (body ++ [')'])))
      fun tokens => ReadsItem tokens (.word .term text) nests := by
  intro scanner code offset back _
  obtain ⟨word, same, start, kind, emits⟩ := word_emits hw code offset
    (show Stops (['('] ++ (body ++ [')']) ++ back) by rintro c ⟨⟩; decide)
  have isTerm : word.kind = .term := by
    cases hk : word.kind <;> rw [hk] at kind <;> cases kind
  have opening : Emits scanner (offset + text.byteLength) ['('] (body ++ [')'] ++ back)
      [⟨.parenOpen, ['('], offset + text.byteLength⟩] scanner :=
    mark_emits '(' .parenOpen (by rw [code]; rfl) rfl (by decide) _
  obtain ⟨tokens, inner, reads⟩ := hb scanner code (offset + text.byteLength + 1) ([')'] ++ back)
    (by rintro c ⟨⟩; decide)
  have closing : Emits scanner (offset + text.byteLength + 1 + body.byteLength) [')'] back
      [⟨.parenClose, [')'], offset + text.byteLength + 1 + body.byteLength⟩] scanner :=
    mark_emits ')' .parenClose (by rw [code]; rfl) rfl (by decide) _
  refine ⟨_, emits.append (opening.append (inner.append closing)), ?_⟩
  have significant : word.isTrivia = false := by
    simp [Token.isTrivia, isTerm, TokenKind.isTrivia]
  rw [content_append, content_append, content_append, content_significant significant,
    content_significant rfl, content_significant rfl, ← same]
  refine .call isTerm rfl rfl ?_ reads
  rw [Token.span, start, same]

theorem textRule_plain {c : Char} (h : Mode.continuesCut c = true) (rest : Source) :
    Mode.textRule c rest = (.textCut, Mode.run Mode.continuesCut rest) := by
  unfold Mode.textRule
  split
  · cases h
  · cases h
  · cases h
  · cases h
  · cases h
  · cases h
  · rfl

/-- The parts of a text, up to its closing bracket. -/
def WrittenParts (text : Source) (parts : List Part) : Prop :=
  ∀ (scanner : Scanner), scanner.mode = .text → ∀ (offset : Nat) (back : Source),
    ∃ tokens, Emits scanner offset text ('>' :: back) tokens scanner ∧
      ReadsParts (content tokens) parts

theorem WrittenParts.cut {text more : Source} {parts : List Part} (hm : WrittenParts more parts)
    (emits : ∀ (scanner : Scanner), scanner.mode = .text → ∀ (offset : Nat) (back : Source),
      Emits scanner offset text (more ++ '>' :: back) [⟨.textCut, text, offset⟩] scanner) :
    WrittenParts (text ++ more) (.cut text :: parts) := by
  intro scanner mode offset back
  obtain ⟨tokens, rest, reads⟩ := hm scanner mode (offset + text.byteLength) back
  refine ⟨_, (emits scanner mode offset back).append rest, ?_⟩
  rw [content_append, content_significant rfl]
  exact .cut rfl reads

theorem WrittenParts.escape {text more : Source} {parts : List Part} (h : IsEscape text)
    (hm : WrittenParts more parts) : WrittenParts (text ++ more) (.cut text :: parts) := by
  refine hm.cut ?_
  intro scanner mode offset back
  obtain ⟨c, rfl, escapable⟩ := h
  have rule : scanner.mode.rule '\\' ([c] ++ (more ++ '>' :: back)) = (.textCut, [c].length) := by
    rw [mode]
    change Mode.escapeRule (c :: (more ++ '>' :: back)) = _
    rw [Mode.escapeRule, if_pos escapable]
    rfl
  exact .usual rule rfl (by decide)

theorem WrittenParts.plain {text more : Source} {parts : List Part} (h : IsPlain text)
    (stops : ∀ back, ∀ c ∈ (more ++ '>' :: back).head?, Mode.continuesCut c = false)
    (hm : WrittenParts more parts) : WrittenParts (text ++ more) (.cut text :: parts) := by
  refine hm.cut ?_
  intro scanner mode offset back
  obtain ⟨c, rest, rfl⟩ := List.exists_cons_of_ne_nil h.1
  obtain ⟨first, others⟩ := List.forall_mem_cons.1 h.2
  have rule : scanner.mode.rule c (rest ++ (more ++ '>' :: back)) = (.textCut, rest.length) := by
    rw [mode, Mode.rule, textRule_plain first, run_append others (stops back)]
  exact .usual rule rfl (by decide)

theorem WrittenParts.slot {body more : Source} {nests : List Nest} {parts : List Part}
    (hb : Written body fun tokens => ReadsList tokens nests) (hm : WrittenParts more parts) :
    WrittenParts (['\x7b'] ++ (body ++ (['\x7d'] ++ more))) (.slot nests :: parts) := by
  intro scanner mode offset back
  let inside : Scanner := { scanner with openings := .slot :: scanner.openings }
  have opening : Emits scanner offset ['\x7b'] (body ++ (['\x7d'] ++ more) ++ '>' :: back)
      [⟨.slotOpen, ['\x7b'], offset⟩] inside :=
    mark_emits '\x7b' .slotOpen (by rw [mode]; rfl) rfl (by decide) _
  obtain ⟨tokens, inner, reads⟩ := hb inside rfl (offset + 1) (['\x7d'] ++ more ++ '>' :: back)
    (by rintro c ⟨⟩; decide)
  have closing : Emits inside (offset + 1 + body.byteLength) ['\x7d'] (more ++ '>' :: back)
      [⟨.slotClose, ['\x7d'], offset + 1 + body.byteLength⟩] scanner :=
    mark_emits '\x7d' .slotClose rfl rfl (by decide) _
  obtain ⟨later, rest, reads'⟩ := hm scanner mode (offset + 1 + body.byteLength + 1) back
  refine ⟨_, opening.append (inner.append (closing.append rest)), ?_⟩
  rw [content_append, content_append, content_append, content_significant rfl,
    content_significant rfl]
  exact .slot rfl rfl reads reads'

theorem Written.text {body : Source} {parts : List Part} (hb : WrittenParts body parts) :
    Written (['<'] ++ (body ++ ['>'])) fun tokens => ReadsItem tokens (.text parts) [] := by
  intro scanner code offset back _
  let inside : Scanner :=
    { scanner with openings := .text ⟨offset, offset + 1⟩ :: scanner.openings }
  have opening : Emits scanner offset ['<'] (body ++ ['>'] ++ back)
      [⟨.textOpen, ['<'], offset⟩] inside :=
    mark_emits '<' .textOpen (by rw [code]; rfl) rfl (by decide) _
  obtain ⟨tokens, inner, reads⟩ := hb inside rfl (offset + 1) back
  have closing : Emits inside (offset + 1 + body.byteLength) ['>'] back
      [⟨.textClose, ['>'], offset + 1 + body.byteLength⟩] scanner :=
    mark_emits '>' .textClose rfl rfl (by decide) _
  refine ⟨_, opening.append (inner.append closing), ?_⟩
  rw [content_append, content_append, content_significant rfl, content_significant rfl]
  exact .text rfl rfl reads

/-- A run of plain characters ends where the next part begins, or the text. -/
theorem renderParts_stops {parts : List Part} (h : partsWritable parts)
    (next : ∀ part ∈ parts.head?, ¬part.IsPlain) (back : Source) :
    ∀ c ∈ (renderParts parts ++ '>' :: back).head?, Mode.continuesCut c = false := by
  cases parts with
  | nil =>
    rintro c ⟨⟩
    rfl
  | cons part rest =>
    cases part with
    | slot nests =>
      rintro c ⟨⟩
      rfl
    | cut text =>
      rcases h.1 with plain | ⟨c, rfl, _⟩
      · exact absurd plain (next _ rfl)
      · rintro c ⟨⟩
        rfl

mutual

/-- An inline nest scans to tokens from which it is read back. -/
theorem nest_written : ∀ (nest : Nest), nest.Writable →
    Written nest.inline fun tokens => ReadsChain tokens nest
  | .mk head [], h => by
    intro scanner code offset back hb
    obtain ⟨tokens, emits, reads⟩ := head_written head h.1 scanner code offset back hb
    exact ⟨tokens, emits, .last reads⟩
  | .mk head (child :: rest), h => by
    obtain ⟨word, value, children⟩ := h
    have list := list_written (child :: rest) children (by simp)
    cases head with
    | text parts => cases value rfl
    | word kind text =>
      cases kind with
      | term =>
        intro scanner code offset back hb
        obtain ⟨tokens, emits, reads⟩ := Written.call word list scanner code offset back hb
        exact ⟨tokens, emits, .last reads⟩
      | size => cases value rfl
      | decimal => cases value rfl
      | code => cases value rfl

theorem head_written : ∀ (head : Head), head.Writable →
    Written head.render fun tokens => ReadsItem tokens head []
  | .word kind text, h => by
    intro scanner code offset back hb
    obtain ⟨token, rfl, _, same, emits⟩ := word_emits h code offset hb
    have significant : token.isTrivia = false := by
      cases hk : token.kind <;> rw [hk] at same <;> cases same <;>
        simp [Token.isTrivia, hk, TokenKind.isTrivia]
    refine ⟨[token], emits, ?_⟩
    rw [content_significant significant]
    exact .word same
  | .text parts, h => Written.text (parts_written parts h)

theorem parts_written : ∀ (parts : List Part), partsWritable parts →
    WrittenParts (renderParts parts) parts
  | [], _ => fun scanner _ offset back => ⟨[], .nil scanner offset _, .nil⟩
  | .cut text :: rest, ⟨own, next, others⟩ => by
    have more := parts_written rest others
    rcases own with plain | escape
    · exact .plain plain (renderParts_stops others (next plain)) more
    · exact .escape escape more
  | .slot nests :: rest, ⟨⟨ne, inner⟩, _, others⟩ => by
    have list := list_written nests inner ne
    have more := parts_written rest others
    have text : renderParts (.slot nests :: rest) =
        ['\x7b'] ++ (separated (inlineAll nests) ++ (['\x7d'] ++ renderParts rest)) := by
      simp [renderParts, Part.render]
    rw [text]
    exact .slot list more

theorem list_written : ∀ (nests : List Nest), nestsWritable nests → nests ≠ [] →
    Written (separated (inlineAll nests)) fun tokens => ReadsList tokens nests
  | [], _, ne => absurd rfl ne
  | [nest], h, _ => by
    have alone : separated (inlineAll [nest]) = nest.inline := by
      simp [separated, inlineAll]
    rw [alone]
    intro scanner code offset back hb
    obtain ⟨tokens, emits, reads⟩ := nest_written nest h.1 scanner code offset back hb
    exact ⟨tokens, emits, .one reads⟩
  | nest :: next :: rest, h, _ => by
    have one := nest_written nest h.1
    have others := list_written (next :: rest) h.2 (by simp)
    rw [inlineAll, inlineAll, separated_cons]
    exact .more (separated_first (inline_first h.2.1) _) one others

end

end TermOutline
