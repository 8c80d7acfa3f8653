import TermOutline.Proofs.Partition

/-! # Looking ahead

A rule looks at the characters of its token and at the one behind it. So tokens stay as they are
when something else comes behind them that begins with the same character, or with a space where the
last of them could not go on with one. What comes behind a line break does not matter at all.
-/
namespace TermOutline

/-- Another text can stand behind a token: the token is a line break, or the text begins with the
same character, or with a space that ends the token. -/
def Swaps (kind : TokenKind) (back other : Source) : Prop :=
  kind = .line ∨ other.head? = back.head? ∨
    other.head? = some ' ' ∧ kind ∉ [.space, .textCut, .unknown]

theorem run_eq_length_iff {p : Char → Bool} {front back : Source} :
    Mode.run p (front ++ back) = front.length ↔
      (∀ c ∈ front, p c = true) ∧ ∀ c ∈ back.head?, p c = false := by
  constructor
  · intro h
    have taken : (front ++ back).takeWhile p = front := by
      rw [← take_run, h, List.take_left' rfl]
    refine ⟨fun c member => List.mem_takeWhile_imp (taken.symm ▸ member), ?_⟩
    intro c first
    have rest := List.takeWhile_append_dropWhile (p := p) (l := front ++ back)
    rw [taken] at rest
    have stops := List.head?_dropWhile_not p (front ++ back)
    rw [List.append_cancel_left rest, first] at stops
    simpa using stops
  · rintro ⟨hf, hb⟩
    exact run_append hf hb

theorem Swaps.head {kind : TokenKind} {back other : Source} {P : Char → Prop}
    (swaps : Swaps kind back other) (ne : kind ≠ .line) (h : ∀ c ∈ back.head?, P c)
    (space : P ' ' ∨ kind ∈ [.space, .textCut, .unknown]) : ∀ c ∈ other.head?, P c := by
  rcases swaps with line | same | ⟨first, kinds⟩
  · exact absurd line ne
  · rw [same]
    exact h
  · rw [first]
    rintro c ⟨⟩
    exact space.resolve_right kinds

theorem Swaps.head_append {kind : TokenKind} {front back other : Source}
    (swaps : Swaps kind back other) (unknown : front = [] → kind = .unknown) :
    (front ++ other).head? = (front ++ back).head? := by
  cases front with
  | nil =>
    rw [unknown rfl] at swaps
    exact (swaps.resolve_left (by decide)).resolve_right fun space => space.2 (by decide)
  | cons => rfl

theorem Swaps.run {p : Char → Bool} {kind : TokenKind} {front back other : Source}
    (swaps : Swaps kind back other) (ne : kind ≠ .line)
    (space : p ' ' = false ∨ kind ∈ [.space, .textCut, .unknown])
    (h : Mode.run p (front ++ back) = front.length) :
    Mode.run p (front ++ other) = front.length := by
  obtain ⟨hf, hb⟩ := run_eq_length_iff.1 h
  exact run_append hf (swaps.head ne hb space)

namespace Mode

/-- A number is digits, and more digits behind a point; what comes next cannot go on with it. -/
theorem numberRule_cases (rest : Source) :
    (∃ digits fraction after : Source, rest = digits ++ '.' :: fraction ++ after ∧
      (∀ c ∈ digits, c.isDigit = true) ∧ (∀ c ∈ fraction, c.isDigit = true) ∧
      ∀ c ∈ after.head?, c.isDigit = false) ∨
    ∃ digits after : Source, rest = digits ++ after ∧ (∀ c ∈ digits, c.isDigit = true) ∧
      ∀ c ∈ after.head?, c.isDigit = false ∧ c ≠ '.' := by
  have digits : ∀ text : Source, ∀ c ∈ text.takeWhile Char.isDigit, c.isDigit = true :=
    fun _ _ member => List.mem_takeWhile_imp member
  have stops : ∀ text : Source, ∀ c ∈ (text.dropWhile Char.isDigit).head?, c.isDigit = false := by
    intro text c first
    have none := List.head?_dropWhile_not Char.isDigit text
    rw [first] at none
    simpa using none
  have split := @List.takeWhile_append_dropWhile _ Char.isDigit rest
  have next := stops rest
  cases after : rest.dropWhile Char.isDigit with
  | nil => exact Or.inr ⟨_, [], by rw [← after, split], digits rest, by simp⟩
  | cons c fraction =>
    rw [after] at split next
    by_cases point : c = '.'
    · subst point
      refine Or.inl ⟨_, _, _, ?_, digits rest, digits fraction, stops fraction⟩
      rw [List.append_assoc, List.cons_append, List.takeWhile_append_dropWhile, split]
    · refine Or.inr ⟨_, _, split.symm, digits rest, ?_⟩
      rintro d ⟨⟩
      exact ⟨next c rfl, point⟩

theorem numberRule_le (rest : Source) : (numberRule rest).2 ≤ rest.length := by
  rcases numberRule_cases rest with ⟨digits, fraction, after, rfl, hd, hf, ha⟩ |
    ⟨digits, after, rfl, hd, ha⟩
  · rw [numberRule_point hd hf ha]
    exact (List.prefix_append _ after).length_le
  · rw [numberRule_whole hd ha]
    exact (List.prefix_append _ after).length_le

theorem numberRule_swap {kind : TokenKind} {front back other : Source}
    (h : numberRule (front ++ back) = (kind, front.length)) (swaps : Swaps kind back other) :
    numberRule (front ++ other) = (kind, front.length) := by
  rcases numberRule_cases (front ++ back) with ⟨digits, fraction, after, split, hd, hf, ha⟩ |
    ⟨digits, after, split, hd, ha⟩
  · rw [split, numberRule_point hd hf ha, Prod.mk.injEq] at h
    obtain ⟨rfl, size⟩ := h
    obtain ⟨rfl, rfl⟩ := List.append_inj split size.symm
    exact numberRule_point hd hf (swaps.head (by decide) ha (Or.inl rfl))
  · rw [split, numberRule_whole hd ha, Prod.mk.injEq] at h
    obtain ⟨rfl, size⟩ := h
    obtain ⟨rfl, rfl⟩ := List.append_inj split size.symm
    exact numberRule_whole hd (swaps.head (by decide) ha (Or.inl (by decide)))

theorem rule_le (mode : Mode) (c : Char) (rest : Source) :
    (mode.rule c rest).2 ≤ rest.length := by
  have run : ∀ p : Char → Bool, Mode.run p rest ≤ rest.length :=
    fun p => (List.takeWhile_prefix p).length_le
  have returns : (returnRule rest).2 ≤ rest.length := by
    rw [returnRule.eq_def]
    split <;> simp
  cases mode with
  | code =>
    simp only [rule, codeRule]
    split
    · exact run _
    split
    · exact numberRule_le rest
    split <;> first | exact Nat.zero_le _ | exact run _ | exact returns | skip
    cases rest with
    | nil => exact Nat.zero_le _
    | cons digit rest =>
      rw [signRule]
      split
      · exact Nat.succ_le_succ (numberRule_le rest)
      · exact Nat.zero_le _
  | text =>
    simp only [rule, textRule]
    split <;> first | exact Nat.zero_le _ | exact run _ | exact returns | skip
    cases rest with
    | nil => exact Nat.zero_le _
    | cons c rest =>
      rw [escapeRule]
      split
      · simp
      split <;> simp

theorem returnRule_head {rest other : Source} (h : other.head? = rest.head?) :
    returnRule other = returnRule rest := by
  rcases rest with _ | ⟨c, rest⟩ <;> rcases other with _ | ⟨d, other⟩ <;> cases h
  · rfl
  · by_cases feed : c = '\n'
    · subst feed
      rfl
    · simp [returnRule, feed]

theorem escapeRule_head {rest other : Source} (h : other.head? = rest.head?) :
    escapeRule other = escapeRule rest := by
  rcases rest with _ | ⟨c, rest⟩ <;> rcases other with _ | ⟨d, other⟩ <;> cases h <;> rfl

theorem returnRule_swap {kind : TokenKind} {front back other : Source}
    (h : returnRule (front ++ back) = (kind, front.length)) (swaps : Swaps kind back other) :
    returnRule (front ++ other) = (kind, front.length) := by
  rw [← h]
  refine returnRule_head (swaps.head_append ?_)
  rintro rfl
  rw [List.nil_append, returnRule.eq_def] at h
  split at h <;> cases h
  rfl

theorem escapeRule_swap {kind : TokenKind} {front back other : Source}
    (h : escapeRule (front ++ back) = (kind, front.length)) (swaps : Swaps kind back other) :
    escapeRule (front ++ other) = (kind, front.length) := by
  rw [← h]
  refine escapeRule_head (swaps.head_append ?_)
  rintro rfl
  cases back with
  | nil =>
    cases h
    rfl
  | cons c back =>
    rw [List.nil_append, escapeRule] at h
    split at h
    · cases h
    split at h <;> cases h
    rfl

theorem signRule_swap {kind : TokenKind} {front back other : Source}
    (h : signRule (front ++ back) = (kind, front.length)) (swaps : Swaps kind back other) :
    signRule (front ++ other) = (kind, front.length) := by
  cases front with
  | nil =>
    have unsigned : kind = .unknown ∧ ∀ c ∈ back.head?, c.isDigit = false := by
      cases back with
      | nil =>
        cases h
        simp
      | cons c back =>
        rw [List.nil_append, signRule] at h
        split at h <;> cases h
        next digit => simpa using digit
    obtain ⟨rfl, hb⟩ := unsigned
    have ho := swaps.head (by decide) hb (Or.inl rfl)
    cases other with
    | nil => rfl
    | cons c other =>
      rw [List.nil_append, signRule, if_neg (by simp [ho c rfl])]
      rfl
  | cons digit front =>
    rw [List.cons_append, signRule] at h ⊢
    split at h
    · next hd =>
      rw [if_pos hd]
      simp only [List.length_cons, Prod.mk.injEq, Nat.add_right_cancel_iff] at h ⊢
      have number := @numberRule_swap kind front back other (Prod.ext h.1 h.2) swaps
      simp [number]
    · cases h

/-- A rule hangs on the characters of its token and on the one behind it. -/
theorem rule_swap {mode : Mode} {c : Char} {kind : TokenKind} {front back other : Source}
    (h : mode.rule c (front ++ back) = (kind, front.length)) (swaps : Swaps kind back other) :
    mode.rule c (front ++ other) = (kind, front.length) := by
  have run : ∀ {p : Char → Bool} {kind' : TokenKind},
      (kind', Mode.run p (front ++ back)) = (kind, front.length) → kind' ≠ .line →
      p ' ' = false ∨ kind' ∈ [.space, .textCut, .unknown] →
        (kind', Mode.run p (front ++ other)) = (kind, front.length) := by
    intro p kind' same ne space
    rw [Prod.mk.injEq] at same ⊢
    obtain ⟨rfl, length⟩ := same
    exact ⟨rfl, swaps.run ne space length⟩
  cases mode with
  | code =>
    simp only [rule, codeRule] at h ⊢
    split
    · next lower =>
      rw [if_pos lower] at h
      exact run h (by decide) (Or.inl rfl)
    next lower =>
    rw [if_neg lower] at h
    split
    · next digit =>
      rw [if_pos digit] at h
      exact numberRule_swap h swaps
    next digit =>
    rw [if_neg digit] at h
    split at h <;> first
      | exact h
      | exact run h (by decide) (Or.inl rfl)
      | exact run h (by decide) (Or.inr (by decide))
      | exact returnRule_swap h swaps
      | exact signRule_swap h swaps
  | text =>
    simp only [rule, textRule] at h ⊢
    split at h <;> first
      | exact h
      | exact run h (by decide) (Or.inr (by decide))
      | exact returnRule_swap h swaps
      | exact escapeRule_swap h swaps

end Mode

theorem scans_drop {scanner : Scanner} {offset : Nat} {text : Source} {front back : List Token}
    (h : Scans scanner offset text (front ++ back)) :
    Scans (front.foldl Scanner.step scanner)
      (offset + Source.byteLength (front.flatMap Token.text)) (back.flatMap Token.text) back := by
  induction front generalizing scanner offset text with
  | nil =>
    rw [List.nil_append] at h
    rw [scans_text h]
    exact h
  | cons token rest ih =>
    cases h with
    | cons _ _ start tail =>
      have next := ih tail
      rw [Token.span, start, Nat.add_assoc, ← Source.byteLength_append] at next
      exact next

/-- Tokens stay when something else is put behind them that does not go on with the last. -/
theorem scans_swap {scanner : Scanner} {offset : Nat} {text other : Source}
    {front back others : List Token} (h : Scans scanner offset text (front ++ back))
    (swaps : ∀ last ∈ front.getLast?, Swaps last.kind (back.flatMap Token.text) other)
    (next : Scans (front.foldl Scanner.step scanner)
      (offset + Source.byteLength (front.flatMap Token.text)) other others) :
    Scans scanner offset (front.flatMap Token.text ++ other) (front ++ others) := by
  induction front generalizing scanner offset text with
  | nil => exact next
  | cons token rest ih =>
    cases h with
    | @cons _ _ c following _ more _ rule spelled start tail =>
      have size : (following.take more).length = more := by
        refine List.length_take_of_le ?_
        have bound := Mode.rule_le scanner.mode c following
        rwa [rule] at bound
      have behind : Swaps token.kind (following.drop more)
          (rest.flatMap Token.text ++ other) := by
        -- only the last token has something else behind it, the others keep their next character
        rw [← scans_text tail]
        cases rest with
        | nil => exact swaps token rfl
        | cons token' rest =>
          obtain ⟨d, spelling, first⟩ := List.exists_cons_of_ne_nil (scans_contiguous tail).2.1
          exact Or.inr (Or.inl (by simp [first]))
      have cut : scanner.mode.rule c (following.take more ++ following.drop more) =
          (token.kind, (following.take more).length) := by
        rw [List.take_append_drop, rule, size]
      rw [List.flatMap_cons, List.append_assoc, spelled, List.cons_append, List.cons_append]
      refine .cons (Mode.rule_swap cut behind) ?_ start ?_
      · rw [List.take_left, spelled]
      · rw [List.drop_left]
        refine ih tail ?_ ?_
        · intro last final
          refine swaps last ?_
          rw [List.getLast?_cons, final]
          rfl
        · rw [List.flatMap_cons, Source.byteLength_append, ← Nat.add_assoc, ← start] at next
          exact next

end TermOutline
