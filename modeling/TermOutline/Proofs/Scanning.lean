import Mathlib.Data.List.Basic
import Mathlib.Data.List.TakeWhile
import Mathlib.Data.Nat.Init
import TermOutline.Token.Check

/-! # Scanned tokens

What every scan of a text gives: tokens without gaps, each admitted by the mode it is found in and
spelled as its kind says, and openings that alternate. A document has no lexical finding exactly
when its tokens are faultless and nothing is open at the end of a line.
-/
namespace TermOutline

theorem Scanner.tokensFrom_claimed (scanner : Scanner) (offset claimed : Nat) (text : Source) :
    scanner.tokensFrom offset claimed text = scanner.tokensFrom offset 0 (text.drop claimed) := by
  induction text generalizing claimed with
  | nil => cases claimed <;> simp [tokensFrom]
  | cons c rest ih =>
    cases claimed with
    | zero => rfl
    | succ claimed => simpa [tokensFrom] using ih claimed

/-- The tokens that a scanner cuts from a text, one rule after the other. -/
inductive Scans : Scanner → Nat → Source → List Token → Prop where
  | nil (scanner : Scanner) (offset : Nat) : Scans scanner offset [] []
  | cons {scanner : Scanner} {offset : Nat} {c : Char} {rest : Source} {token : Token}
      {more : Nat} {tokens : List Token}
      (rule : scanner.mode.rule c rest = (token.kind, more))
      (text : token.text = c :: rest.take more) (start : token.start = offset)
      (tail : Scans (scanner.step token) token.span.stop (rest.drop more) tokens) :
      Scans scanner offset (c :: rest) (token :: tokens)

theorem scans_tokensFrom (scanner : Scanner) (offset : Nat) (text : Source) :
    Scans scanner offset text (scanner.tokensFrom offset 0 text) := by
  induction h : text.length using Nat.strong_induction_on generalizing scanner offset text with
  | h n ih =>
    cases text with
    | nil => exact .nil _ _
    | cons c rest =>
      rw [Scanner.tokensFrom]
      simp only [Scanner.tokensFrom_claimed _ _ (scanner.mode.rule c rest).2]
      refine .cons rfl rfl rfl (ih _ ?_ _ _ _ rfl)
      simp only [List.length_drop, List.length_cons] at h ⊢
      omega

theorem scans_tokens (text : Source) : Scans .initial 0 text text.tokens :=
  scans_tokensFrom _ _ _

/-- Tokens that follow one another from `offset` on without a gap, none of them empty. -/
def Contiguous : Nat → List Token → Prop
  | _, [] => True
  | offset, token :: rest =>
    token.start = offset ∧ token.text ≠ [] ∧ Contiguous token.span.stop rest

theorem contiguous_append_iff {offset : Nat} {front back : List Token} :
    Contiguous offset (front ++ back) ↔ Contiguous offset front ∧
      Contiguous (offset + Source.byteLength (front.flatMap Token.text)) back := by
  induction front generalizing offset with
  | nil => simp [Contiguous, Source.byteLength]
  | cons token rest ih =>
    simp only [List.cons_append, Contiguous, ih, List.flatMap_cons, Source.byteLength_append,
      and_assoc, Token.span]
    constructor
    · rintro ⟨start, text, rest, back⟩
      exact ⟨start, text, rest, by rwa [start, Nat.add_assoc] at back⟩
    · rintro ⟨start, text, rest, back⟩
      exact ⟨start, text, rest, by rwa [start, Nat.add_assoc]⟩

theorem scans_contiguous {scanner : Scanner} {offset : Nat} {text : Source} {tokens : List Token}
    (h : Scans scanner offset text tokens) : Contiguous offset tokens := by
  induction h with
  | nil => trivial
  | cons _ text start _ ih => exact ⟨start, by simp [text], ih⟩

theorem byteLength_pos {text : Source} (h : text ≠ []) : 0 < text.byteLength := by
  cases text with
  | nil => exact absurd rfl h
  | cons c rest =>
    have := c.utf8Size_pos
    simp only [Source.byteLength]
    omega

/-- The kinds of token that the rules of a mode can give. -/
def Mode.admits : Mode → TokenKind → Bool
  | .code, .textCut | .code, .textClose | .code, .slotOpen => false
  | .code, .badEscape | .code, .textBrace => false
  | .code, _ => true
  | .text, .textCut | .text, .textClose | .text, .slotOpen => true
  | .text, .badEscape | .text, .textBrace | .text, .line | .text, .unknown => true
  | .text, _ => false

theorem numberRule_kind (rest : Source) :
    (Mode.numberRule rest).1 = .decimal ∨ (Mode.numberRule rest).1 = .size := by
  unfold Mode.numberRule
  dsimp only
  split <;> simp

theorem rule_admitted (mode : Mode) (c : Char) (rest : Source) :
    mode.admits (mode.rule c rest).1 = true := by
  have number : ∀ rest, Mode.admits .code (Mode.numberRule rest).1 = true := by
    intro rest
    rcases numberRule_kind rest with h | h <;> rw [h] <;> rfl
  have crlf : ∀ mode rest, Mode.admits mode (Mode.returnRule rest).1 = true := by
    intro mode rest
    cases mode <;> unfold Mode.returnRule <;> split <;> rfl
  cases mode with
  | code =>
    simp only [Mode.rule, Mode.codeRule]
    split
    · rfl
    split
    · exact number rest
    split <;> try rfl
    · exact crlf .code rest
    · cases rest with
      | nil => rfl
      | cons digit rest =>
        simp only [Mode.signRule]
        split
        · exact number rest
        · rfl
  | text =>
    simp only [Mode.rule, Mode.textRule]
    split <;> try rfl
    · cases rest with
      | nil => rfl
      | cons c rest =>
        simp only [Mode.escapeRule]
        split
        · rfl
        split <;> rfl
    · exact crlf .text rest

/-- Tokens each of which the scanner, where it stands, can come upon. -/
def Admitted : Scanner → List Token → Prop
  | _, [] => True
  | scanner, token :: rest =>
    scanner.mode.admits token.kind = true ∧ Admitted (scanner.step token) rest

theorem scans_admitted {scanner : Scanner} {offset : Nat} {text : Source} {tokens : List Token}
    (h : Scans scanner offset text tokens) : Admitted scanner tokens := by
  induction h with
  | nil => trivial
  | @cons scanner offset c rest token more tokens rule _ _ _ ih =>
    have := rule_admitted scanner.mode c rest
    rw [rule] at this
    exact ⟨this, ih⟩

/-- Openings as they lie around a place, innermost first: a text opens in code, a slot in a text. -/
def Alternating : List Opening → Prop
  | [] => True
  | .text _ :: outer => Scanner.mode ⟨outer, []⟩ = .code ∧ Alternating outer
  | .slot :: outer => Scanner.mode ⟨outer, []⟩ = .text ∧ Alternating outer

theorem mode_text_cases {scanner : Scanner} (h : scanner.mode = .text) :
    ∃ span outer, scanner.openings = .text span :: outer := by
  unfold Scanner.mode at h
  split at h
  · exact ⟨_, _, ‹_›⟩
  · cases h

theorem step_alternating {scanner : Scanner} {token : Token} (h : Alternating scanner.openings)
    (admitted : scanner.mode.admits token.kind = true) :
    Alternating (scanner.step token).openings := by
  cases hk : token.kind <;> simp only [Scanner.step, hk] <;> try exact h
  case line => trivial
  case textOpen =>
    cases hm : scanner.mode with
    | code => exact ⟨hm, h⟩
    | text => simp [hm, hk, Mode.admits] at admitted
  case slotOpen =>
    cases hm : scanner.mode with
    | code => simp [hm, hk, Mode.admits] at admitted
    | text => exact ⟨hm, h⟩
  case textClose =>
    cases hm : scanner.mode with
    | code => simp [hm, hk, Mode.admits] at admitted
    | text =>
      obtain ⟨span, outer, ho⟩ := mode_text_cases hm
      rw [ho] at h ⊢
      exact h.2
  case slotClose =>
    split
    · next outer ho => rw [ho] at h; exact h.2
    · exact h

theorem alternating_last {openings : List Opening} (h : Alternating openings)
    (ne : openings ≠ []) : ∃ span, openings.getLast? = some (.text span) := by
  induction openings with
  | nil => exact absurd rfl ne
  | cons opening outer ih =>
    cases outer with
    | nil =>
      cases opening with
      | text span => exact ⟨span, rfl⟩
      | slot => simp [Alternating, Scanner.mode] at h
    | cons next outer =>
      have inner : Alternating (next :: outer) := by cases opening <;> exact h.2
      obtain ⟨span, hs⟩ := ih inner (by simp)
      exact ⟨span, by rw [List.getLast?_cons_cons]; exact hs⟩

theorem outermost_eq_nil {scanner : Scanner} (h : Alternating scanner.openings) :
    scanner.outermost = [] ↔ scanner.openings = [] := by
  constructor
  · intro ho
    by_contra ne
    obtain ⟨span, hs⟩ := alternating_last h ne
    simp [Scanner.outermost, hs] at ho
  · intro ho
    simp [Scanner.outermost, ho]

/-- Nothing is open at a line break among the tokens, nor at their end. -/
def Closed (scanner : Scanner) : List Token → Prop
  | [] => scanner.openings = []
  | token :: rest =>
    (token.kind = .line → scanner.openings = []) ∧ Closed (scanner.step token) rest

theorem step_abandoned_of_ne_line {scanner : Scanner} {token : Token} (h : token.kind ≠ .line) :
    (scanner.step token).abandoned = scanner.abandoned := by
  cases hk : token.kind <;> simp only [Scanner.step, hk]
  case line => exact absurd hk h
  case slotClose => split <;> rfl

theorem abandoned_eq_nil_iff {scanner : Scanner} {tokens : List Token}
    (h : Alternating scanner.openings) (admitted : Admitted scanner tokens) :
    (tokens.foldl Scanner.step scanner).abandon.abandoned = [] ↔
      scanner.abandoned = [] ∧ Closed scanner tokens := by
  induction tokens generalizing scanner with
  | nil => simp [Scanner.abandon, Closed, outermost_eq_nil h]
  | cons token rest ih =>
    rw [List.foldl_cons, ih (step_alternating h admitted.1) admitted.2]
    by_cases hk : token.kind = .line
    · simp [Closed, hk, Scanner.step, Scanner.abandon, outermost_eq_nil h, and_assoc]
    · simp [Closed, hk, step_abandoned_of_ne_line hk]

theorem unclosedTexts_eq_nil_iff (text : Source) :
    unclosedTexts text.tokens = [] ↔ Closed .initial text.tokens := by
  have start : Alternating Scanner.initial.openings := trivial
  rw [unclosedTexts, abandoned_eq_nil_iff start (scans_admitted (scans_tokens text))]
  simp [Scanner.initial]

/-- A lowercase letter, then lowercase letters, digits and hyphens. -/
def IsTerm (text : Source) : Prop :=
  ∃ c rest, text = c :: rest ∧ c.isLower = true ∧ ∀ d ∈ rest, Mode.continuesTerm d = true

def IsSign (text : Source) : Prop := text = [] ∨ text = ['-']

def IsDigits (text : Source) : Prop := text ≠ [] ∧ ∀ c ∈ text, c.isDigit = true

def IsSize (text : Source) : Prop :=
  ∃ sign digits, IsSign sign ∧ IsDigits digits ∧ text = sign ++ digits

/-- Digits on both sides of a point. -/
def IsDecimal (text : Source) : Prop :=
  ∃ sign whole fraction, IsSign sign ∧ IsDigits whole ∧ IsDigits fraction ∧
    text = sign ++ whole ++ '.' :: fraction

/-- A number sign, the letter of a base and at least one digit of that base. -/
def IsCode (text : Source) : Prop :=
  ∃ letter base digits, text = '#' :: letter :: digits ∧ CodeBase.ofLetter? letter = some base ∧
    digits ≠ [] ∧ ∀ d ∈ digits, base.hasDigit d = true

def IsPlain (text : Source) : Prop := text ≠ [] ∧ ∀ c ∈ text, Mode.continuesCut c = true

def IsEscape (text : Source) : Prop := ∃ c, text = ['\\', c] ∧ Mode.isEscapable c = true

/-- What the rules say about the characters of a token. Numbers and codes may lack digits. -/
def Spelled : TokenKind → Source → Prop
  | .term, text => IsTerm text
  | .size, text => IsSize text
  | .decimal, text => ∃ sign whole fraction, IsSign sign ∧ IsDigits whole ∧
      (∀ c ∈ fraction, c.isDigit = true) ∧ text = sign ++ whole ++ '.' :: fraction
  | .code, text => ∃ rest, text = '#' :: rest
  | .textCut, text => IsPlain text ∨ IsEscape text
  | .badEscape, text => ∃ c, text = ['\\', c]
  | _, _ => True

theorem take_run (p : Char → Bool) (rest : Source) :
    rest.take (Mode.run p rest) = rest.takeWhile p :=
  (List.prefix_iff_eq_take.1 (List.takeWhile_prefix p)).symm

theorem mem_take_run {p : Char → Bool} {rest : Source} {c : Char}
    (h : c ∈ rest.take (Mode.run p rest)) : p c = true := by
  rw [take_run] at h
  exact List.mem_takeWhile_imp h

theorem run_append {p : Char → Bool} {front back : Source} (hf : ∀ c ∈ front, p c = true)
    (hb : ∀ c ∈ back.head?, p c = false) : Mode.run p (front ++ back) = front.length := by
  have none : back.takeWhile p = [] := by
    cases back with
    | nil => rfl
    | cons c rest =>
      have stops := hb c rfl
      simp [stops]
  rw [Mode.run, List.takeWhile_append_of_pos hf, none, List.append_nil]

/-- Digits that neither a digit nor a point follows. -/
theorem numberRule_whole {digits back : Source} (hd : ∀ c ∈ digits, c.isDigit = true)
    (hb : ∀ c ∈ back.head?, c.isDigit = false ∧ c ≠ '.') :
    Mode.numberRule (digits ++ back) = (.size, digits.length) := by
  have run : Mode.run Char.isDigit (digits ++ back) = digits.length :=
    run_append hd fun c first => (hb c first).1
  simp only [Mode.numberRule, run, List.drop_left']
  split
  · exact absurd rfl (hb '.' rfl).2
  · rfl

/-- Digits around a point, up to what is no digit. -/
theorem numberRule_point {digits fraction back : Source} (hd : ∀ c ∈ digits, c.isDigit = true)
    (hf : ∀ c ∈ fraction, c.isDigit = true) (hb : ∀ c ∈ back.head?, c.isDigit = false) :
    Mode.numberRule (digits ++ '.' :: fraction ++ back) =
      (.decimal, (digits ++ '.' :: fraction).length) := by
  have whole : Mode.run Char.isDigit (digits ++ '.' :: (fraction ++ back)) = digits.length := by
    refine run_append hd ?_
    rintro c ⟨⟩
    rfl
  rw [List.append_assoc, List.cons_append]
  simp only [Mode.numberRule, whole, List.drop_left', run_append hf hb, List.length_append,
    List.length_cons]
  rw [Nat.add_assoc, Nat.add_comm 1]

/-- A number is spelled as its kind says, also with a sign in front. -/
theorem numberRule_spelled {sign : Source} {c : Char} {rest : Source} (hs : IsSign sign)
    (hc : c.isDigit = true) :
    Spelled (Mode.numberRule rest).1 (sign ++ c :: rest.take (Mode.numberRule rest).2) := by
  have whole : IsDigits (c :: rest.take (Mode.run Char.isDigit rest)) :=
    ⟨by simp, List.forall_mem_cons.2 ⟨hc, fun _ h => mem_take_run h⟩⟩
  unfold Mode.numberRule
  dsimp only
  split
  · next fraction h =>
    refine ⟨sign, _, fraction.take (Mode.run Char.isDigit fraction), hs, whole,
      fun _ h => mem_take_run h, ?_⟩
    rw [Nat.add_assoc, List.take_add, h]
    simp [Nat.add_comm 1]
  · exact ⟨sign, _, hs, whole, rfl⟩

theorem rule_spelled (mode : Mode) (c : Char) (rest : Source) :
    Spelled (mode.rule c rest).1 (c :: rest.take (mode.rule c rest).2) := by
  have crlf : ∀ text rest, Spelled (Mode.returnRule rest).1 text := by
    intro text rest
    unfold Mode.returnRule
    split <;> trivial
  cases mode with
  | code =>
    simp only [Mode.rule, Mode.codeRule]
    split
    · next hc => exact ⟨c, _, rfl, hc, fun _ h => mem_take_run h⟩
    split
    · next hc => exact numberRule_spelled (Or.inl rfl) hc
    split <;> try trivial
    · exact crlf _ _
    · cases rest with
      | nil => trivial
      | cons digit rest =>
        simp only [Mode.signRule]
        split
        · next hd => exact numberRule_spelled (Or.inr rfl) hd
        · trivial
    · exact ⟨_, rfl⟩
  | text =>
    simp only [Mode.rule, Mode.textRule]
    split <;> try trivial
    · cases rest with
      | nil => trivial
      | cons c rest =>
        simp only [Mode.escapeRule]
        split
        · next hc => exact Or.inr ⟨c, rfl, hc⟩
        split
        · trivial
        · exact ⟨c, rfl⟩
    · exact crlf _ _
    · next h₁ h₂ h₃ h₄ h₅ h₆ =>
      refine Or.inl ⟨by simp, List.forall_mem_cons.2 ⟨?_, fun _ h => mem_take_run h⟩⟩
      simp only [Mode.continuesCut, Bool.not_eq_true', Bool.or_eq_false_iff, beq_eq_false_iff_ne]
      exact ⟨⟨⟨⟨⟨h₁, h₂⟩, h₃⟩, h₄⟩, h₅⟩, h₆⟩

theorem scans_spelled {scanner : Scanner} {offset : Nat} {text : Source} {tokens : List Token}
    (h : Scans scanner offset text tokens) : ∀ token ∈ tokens, Spelled token.kind token.text := by
  induction h with
  | nil => simp
  | @cons scanner offset c rest token more tokens rule text _ _ ih =>
    have first := rule_spelled scanner.mode c rest
    rw [rule, ← text] at first
    exact List.forall_mem_cons.2 ⟨first, ih⟩

theorem codeFault?_eq_none_iff (rest : Source) :
    codeFault? ('#' :: rest) = none ↔ IsCode ('#' :: rest) := by
  cases rest with
  | nil => simp [codeFault?, IsCode]
  | cons letter digits =>
    simp only [codeFault?, IsCode, List.drop_succ_cons, List.drop_zero, List.cons.injEq, true_and]
    cases hb : CodeBase.ofLetter? letter with
    | none =>
      simp only [reduceCtorEq, false_iff]
      rintro ⟨l, base, ds, ⟨rfl, rfl⟩, h, _⟩
      rw [hb] at h
      cases h
    | some base =>
      cases digits with
      | nil => simp
      | cons d ds =>
        simp only [List.isEmpty_cons, Bool.false_eq_true, if_false, Option.map_eq_none_iff,
          List.find?_eq_none, Bool.not_eq_true', Bool.not_eq_false]
        constructor
        · exact fun h => ⟨letter, base, d :: ds, ⟨rfl, rfl⟩, hb, by simp, h⟩
        · rintro ⟨l, b, ds', ⟨rfl, rfl⟩, h, _, hd⟩
          rw [hb] at h
          cases h
          exact hd

theorem decimal_ends_with_point (sign whole : Source) {fraction : Source}
    (digits : ∀ c ∈ fraction, c.isDigit = true) :
    (sign ++ whole ++ '.' :: fraction).getLast? = some '.' ↔ fraction = [] := by
  constructor
  · intro h
    by_contra ne
    rw [List.getLast?_append_cons, List.getLast?_cons, List.getLast?_eq_some_getLast ne] at h
    have last := digits _ (List.getLast_mem ne)
    simp only [Option.getD_some, Option.some.injEq] at h
    rw [h] at last
    exact absurd last (by decide)
  · rintro rfl
    simp

/-- Tokens none of which is a fault, a malformed code or a malformed decimal. -/
structure Faultless (tokens : List Token) : Prop where
  kinds : ∀ token ∈ tokens, token.kind.isFault = false
  codes : ∀ token ∈ tokens, token.kind = .code → IsCode token.text
  decimals : ∀ token ∈ tokens, token.kind = .decimal → IsDecimal token.text

theorem fault?_eq_none_iff {token : Token} (h : Spelled token.kind token.text) :
    token.fault? = none ↔ token.kind.isFault = false ∧ (token.kind = .code → IsCode token.text) ∧
      (token.kind = .decimal → IsDecimal token.text) := by
  cases hk : token.kind <;> simp only [Token.fault?, hk, TokenKind.isFault] <;> try simp
  case code =>
    rw [hk] at h
    obtain ⟨rest, hr⟩ := h
    rw [hr]
    exact codeFault?_eq_none_iff rest
  case badEscape =>
    rw [hk] at h
    obtain ⟨c, hc⟩ := h
    simp [hc]
  case decimal =>
    rw [hk] at h
    obtain ⟨sign, whole, fraction, hs, hw, hf, ht⟩ := h
    rw [ht, decimal_ends_with_point sign whole hf]
    constructor
    · exact fun ne => ⟨sign, whole, fraction, hs, hw, ⟨ne, hf⟩, rfl⟩
    · rintro ⟨sign', whole', fraction', _, _, hf', eq⟩ rfl
      have last := (decimal_ends_with_point sign' whole' hf'.2).1 (by rw [← eq]; simp)
      exact hf'.1 last

theorem joinUnknown_faultless (token : Token) (tokens : List Token) :
    (∀ t ∈ joinUnknown token tokens, t.fault? = none) ↔
      token.fault? = none ∧ ∀ t ∈ tokens, t.fault? = none := by
  cases tokens with
  | nil => simp [joinUnknown]
  | cons next rest =>
    simp only [joinUnknown]
    split
    · next h =>
      simp [Token.fault?, h.1]
    · simp

theorem lexicalFindings_eq_nil_iff (text : Source) :
    lexicalFindings text.tokens = [] ↔ Faultless text.tokens ∧ Closed .initial text.tokens := by
  have joined : ∀ tokens : List Token, (∀ t ∈ tokens.foldr joinUnknown [], t.fault? = none) ↔
      ∀ t ∈ tokens, t.fault? = none := by
    intro tokens
    induction tokens with
    | nil => simp
    | cons token rest ih => simp [joinUnknown_faultless, ih]
  have spelled := scans_spelled (scans_tokens text)
  have each : (∀ t ∈ text.tokens, t.fault? = none) ↔ Faultless text.tokens := by
    constructor
    · intro h
      have parts := fun t ht => (fault?_eq_none_iff (spelled t ht)).1 (h t ht)
      exact ⟨fun t ht => (parts t ht).1, fun t ht => (parts t ht).2.1, fun t ht => (parts t ht).2.2⟩
    · intro h t ht
      exact (fault?_eq_none_iff (spelled t ht)).2 ⟨h.kinds t ht, h.codes t ht, h.decimals t ht⟩
  simp only [lexicalFindings, List.append_eq_nil_iff, List.map_eq_nil_iff,
    unclosedTexts_eq_nil_iff, List.filterMap_eq_nil_iff, Token.finding?, Option.map_eq_none_iff,
    joined, each]

end TermOutline
