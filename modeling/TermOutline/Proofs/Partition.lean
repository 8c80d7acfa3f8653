import TermOutline.Proofs.Scanning

/-! # Tokens partition the text

Every character of a text belongs to one token, tokens begin and end between characters, and lines
break where the text has its line feeds.
-/
namespace TermOutline

namespace Source

theorem dropBytes?_cons (c : Char) (n : Nat) (rest : Source) :
    dropBytes? (c.utf8Size + n) (c :: rest) = dropBytes? n rest := by
  obtain ⟨size, hs⟩ := Nat.exists_eq_add_one_of_ne_zero (Nat.ne_of_gt c.utf8Size_pos)
  rw [hs, Nat.add_right_comm, dropBytes?, hs, if_pos (by omega), Nat.add_right_comm,
    Nat.add_sub_cancel_left]

theorem takeBytes?_cons (c : Char) (n : Nat) (rest : Source) :
    takeBytes? (c.utf8Size + n) (c :: rest) = (takeBytes? n rest).map (c :: ·) := by
  obtain ⟨size, hs⟩ := Nat.exists_eq_add_one_of_ne_zero (Nat.ne_of_gt c.utf8Size_pos)
  rw [hs, Nat.add_right_comm, takeBytes?, hs, if_pos (by omega), Nat.add_right_comm,
    Nat.add_sub_cancel_left]

theorem dropBytes?_append (text more : Source) :
    dropBytes? text.byteLength (text ++ more) = some more := by
  induction text with
  | nil => cases more <;> rfl
  | cons c rest ih => rw [byteLength, List.cons_append, dropBytes?_cons, ih]

theorem takeBytes?_append (text more : Source) :
    takeBytes? text.byteLength (text ++ more) = some text := by
  induction text with
  | nil => cases more <;> rfl
  | cons c rest ih => rw [byteLength, List.cons_append, takeBytes?_cons, ih, Option.map_some]

theorem slice?_append (before text after : Source) :
    slice? (before ++ text ++ after) before.byteLength (before.byteLength + text.byteLength) =
      some text := by
  rw [slice?, if_pos (Nat.le_add_right _ _), List.append_assoc, dropBytes?_append,
    Nat.add_sub_cancel_left, Option.bind_some, takeBytes?_append]

end Source

/-- A line break is a line feed, which may have a carriage return before it. No other token holds a
line feed. -/
def EndsLine : TokenKind → Source → Prop
  | .line, text => text = ['\n'] ∨ text = ['\r', '\n']
  | _, text => '\n' ∉ text

theorem endsLine_of_ne_line {kind : TokenKind} {text : Source} (ne : kind ≠ .line)
    (h : '\n' ∉ text) : EndsLine kind text := by
  cases kind <;> first | exact h | exact absurd rfl ne

theorem not_mem_take_run {p : Char → Bool} (hp : p '\n' = false) (rest : Source) :
    '\n' ∉ rest.take (Mode.run p rest) := by
  intro member
  rw [mem_take_run member] at hp
  cases hp

theorem returnRule_endsLine (rest : Source) :
    EndsLine (Mode.returnRule rest).1 ('\r' :: rest.take (Mode.returnRule rest).2) := by
  unfold Mode.returnRule
  split
  · exact Or.inr rfl
  · intro member
    simp at member

theorem numberRule_lineFeed (rest : Source) :
    (Mode.numberRule rest).1 ≠ .line ∧ '\n' ∉ rest.take (Mode.numberRule rest).2 := by
  have digits := not_mem_take_run (p := Char.isDigit) rfl
  unfold Mode.numberRule
  dsimp only
  split
  · next fraction h =>
    refine ⟨by simp, ?_⟩
    rw [Nat.add_assoc, List.take_add, h, Nat.add_comm 1, List.take_succ_cons]
    intro member
    rcases List.mem_append.1 member with whole | point
    · exact digits rest whole
    · rcases List.mem_cons.1 point with point | part
      · exact absurd point (by decide)
      · exact digits fraction part
  · exact ⟨by simp, digits rest⟩

theorem signRule_endsLine (rest : Source) :
    EndsLine (Mode.signRule rest).1 ('-' :: rest.take (Mode.signRule rest).2) := by
  cases rest with
  | nil => exact endsLine_of_ne_line (by simp [Mode.signRule]) (by simp)
  | cons digit rest =>
    simp only [Mode.signRule]
    split
    · next hd =>
      obtain ⟨kind, digits⟩ := numberRule_lineFeed rest
      have ne : '\n' ≠ digit := by
        rintro rfl
        cases hd
      exact endsLine_of_ne_line kind (by simp [ne, digits])
    · exact endsLine_of_ne_line (by simp) (by simp)

theorem escapeRule_endsLine (rest : Source) :
    EndsLine (Mode.escapeRule rest).1 ('\\' :: rest.take (Mode.escapeRule rest).2) := by
  cases rest with
  | nil => exact endsLine_of_ne_line (by simp [Mode.escapeRule]) (by simp)
  | cons c rest =>
    simp only [Mode.escapeRule]
    split
    · next hc =>
      have ne : '\n' ≠ c := by
        rintro rfl
        cases hc
      exact endsLine_of_ne_line (by simp) (by simp [ne])
    split
    · exact endsLine_of_ne_line (by simp) (by simp)
    · next hc =>
      have ne : '\n' ≠ c := by
        rintro rfl
        exact hc rfl
      exact endsLine_of_ne_line (by simp) (by simp [ne])

theorem rule_endsLine (mode : Mode) (c : Char) (rest : Source) :
    EndsLine (mode.rule c rest).1 (c :: rest.take (mode.rule c rest).2) := by
  have mark : ∀ {c : Char} {kind : TokenKind}, kind ≠ .line → c ≠ '\n' →
      EndsLine kind (c :: rest.take 0) := by
    intro c kind ne hc
    exact endsLine_of_ne_line ne (by simp [hc.symm])
  have word : ∀ {c : Char} {kind : TokenKind} {p : Char → Bool}, kind ≠ .line → c ≠ '\n' →
      p '\n' = false → EndsLine kind (c :: rest.take (Mode.run p rest)) := by
    intro c kind p ne hc hp
    exact endsLine_of_ne_line ne (by simp [hc.symm, not_mem_take_run hp rest])
  cases mode with
  | code =>
    simp only [Mode.rule, Mode.codeRule]
    split
    · next hc => exact word (by simp) (by rintro rfl; cases hc) rfl
    split
    · next hc =>
      obtain ⟨kind, digits⟩ := numberRule_lineFeed rest
      have ne : '\n' ≠ c := by
        rintro rfl
        cases hc
      exact endsLine_of_ne_line kind (by simp [ne, digits])
    split
    · exact word (by simp) (by decide) rfl
    · exact word (by simp) (by decide) rfl
    · exact Or.inl rfl
    · exact returnRule_endsLine rest
    · exact signRule_endsLine rest
    · exact word (by simp) (by decide) rfl
    · exact mark (by simp) (by decide)
    · exact mark (by simp) (by decide)
    · exact mark (by simp) (by decide)
    · exact mark (by simp) (by decide)
    · exact mark (by simp) (by decide)
    · next feed _ _ _ _ _ _ _ _ => exact mark (by simp) feed
  | text =>
    simp only [Mode.rule, Mode.textRule]
    split
    · exact mark (by simp) (by decide)
    · exact mark (by simp) (by decide)
    · exact mark (by simp) (by decide)
    · exact escapeRule_endsLine rest
    · exact returnRule_endsLine rest
    · exact Or.inl rfl
    · next feed => exact word (by simp) feed rfl

theorem scans_text {scanner : Scanner} {offset : Nat} {text : Source} {tokens : List Token}
    (h : Scans scanner offset text tokens) : tokens.flatMap Token.text = text := by
  induction h with
  | nil => rfl
  | cons _ text _ _ ih =>
    rw [List.flatMap_cons, ih, text, List.cons_append, List.take_append_drop]

theorem scans_endsLine {scanner : Scanner} {offset : Nat} {text : Source} {tokens : List Token}
    (h : Scans scanner offset text tokens) : ∀ token ∈ tokens, EndsLine token.kind token.text := by
  induction h with
  | nil => simp
  | @cons scanner offset c rest token more tokens rule text _ _ ih =>
    have first := rule_endsLine scanner.mode c rest
    rw [rule, ← text] at first
    exact List.forall_mem_cons.2 ⟨first, ih⟩

theorem EndsLine.of_mem {kind : TokenKind} {text : Source} (h : EndsLine kind text)
    (member : '\n' ∈ text) : kind = .line := by
  cases kind <;> first | rfl | exact absurd member h

theorem EndsLine.tail_eq_nil {before after : Source}
    (h : EndsLine .line (before ++ '\n' :: after)) : after = [] := by
  have alone : ∀ {front : Source}, front ++ '\n' :: after = ['\n'] → after = [] := by
    intro front feed
    rcases List.append_eq_singleton_iff.1 feed with ⟨_, feed⟩ | ⟨_, none⟩
    · exact (List.cons.inj feed).2
    · cases none
  rcases h with feed | feed
  · exact alone feed
  · cases before with
    | nil => simp at feed
    | cons c before => exact alone (List.cons.inj feed).2

theorem contiguous_mem {offset : Nat} {tokens : List Token} (h : Contiguous offset tokens)
    {token : Token} (member : token ∈ tokens) :
    ∃ before after : Source, tokens.flatMap Token.text = before ++ token.text ++ after ∧
      token.start = offset + before.byteLength := by
  obtain ⟨front, back, rfl⟩ := List.append_of_mem member
  refine ⟨front.flatMap Token.text, back.flatMap Token.text, by simp, ?_⟩
  exact (contiguous_append_iff.1 h).2.1

theorem contiguous_stop {offset : Nat} {front : List Token} {last : Token}
    (h : Contiguous offset (front ++ [last])) :
    last.span.stop = offset + Source.byteLength ((front ++ [last]).flatMap Token.text) := by
  rw [Token.span, (contiguous_append_iff.1 h).2.1]
  simp [Source.byteLength_append, Nat.add_assoc]

theorem contiguous_length {offset : Nat} {tokens : List Token} (h : Contiguous offset tokens) :
    tokens.length ≤ (tokens.flatMap Token.text).length := by
  induction tokens generalizing offset with
  | nil => exact Nat.le_refl 0
  | cons token rest ih =>
    have tail := ih h.2.2
    have size := List.length_pos_iff.2 h.2.1
    simp only [List.length_cons, List.flatMap_cons, List.length_append]
    omega

/-- The line feeds of contiguous tokens are the ends of their line breaks. -/
theorem contiguous_lineFeed {offset : Nat} {tokens : List Token} (h : Contiguous offset tokens)
    (ends : ∀ token ∈ tokens, EndsLine token.kind token.text) {before after : Source}
    (split : tokens.flatMap Token.text = before ++ '\n' :: after) :
    ∃ token ∈ tokens, token.kind = .line ∧
      token.span.stop = offset + Source.byteLength (before ++ ['\n']) := by
  induction tokens generalizing offset before with
  | nil => simp at split
  | cons token rest ih =>
    obtain ⟨start, _, contiguous⟩ := h
    have ⟨first, others⟩ := List.forall_mem_cons.1 ends
    rw [List.flatMap_cons] at split
    have later : ∀ {more : Source}, before = token.text ++ more →
        rest.flatMap Token.text = more ++ '\n' :: after →
        ∃ t ∈ token :: rest, t.kind = .line ∧
          t.span.stop = offset + Source.byteLength (before ++ ['\n']) := by
      intro more hb hr
      obtain ⟨t, member, line, stop⟩ := ih contiguous others hr
      refine ⟨t, List.mem_cons_of_mem _ member, line, ?_⟩
      rw [stop, hb, Token.span, start]
      simp [Source.byteLength_append, Nat.add_assoc]
    rcases List.append_eq_append_iff.1 split with ⟨more, hb, hr⟩ | ⟨inner, ht, hr⟩
    · exact later hb hr
    · cases inner with
      | nil => exact @later [] (by simpa using ht.symm) (by simpa using hr.symm)
      | cons c inner =>
        obtain ⟨rfl, hr⟩ := List.cons.inj hr
        have line := first.of_mem (by simp [ht])
        refine ⟨token, List.mem_cons_self, line, ?_⟩
        rw [line, ht] at first
        rw [Token.span, ht, start, first.tail_eq_nil]

/-- Tokens that cover a text from its first byte to its last, each of them once, and break its lines
where its line feeds are. -/
structure Partitions (tokens : List Token) (text : Source) : Prop where
  contiguous : Contiguous 0 tokens
  whole : tokens.flatMap Token.text = text
  reaches : ∀ last, tokens.getLast? = some last → last.span.stop = text.byteLength
  bounds : ∀ token ∈ tokens, ∃ before after : Source, text = before ++ token.text ++ after ∧
    token.span.start = before.byteLength ∧ token.span.stop = (before ++ token.text).byteLength
  slices : ∀ token ∈ tokens, text.slice? token.span.start token.span.stop = some token.text
  finite : tokens.length ≤ text.length
  breaks : ∀ token ∈ tokens, token.kind = .line → token.text = ['\n'] ∨ token.text = ['\r', '\n']
  lineFeeds : ∀ before after : Source, text = before ++ '\n' :: after →
    ∃ token ∈ tokens, token.kind = .line ∧ token.span.stop = (before ++ ['\n']).byteLength
  others : ∀ token ∈ tokens, token.kind ≠ .line → '\n' ∉ token.text

/-- The scanner cuts every text into tokens that partition it. -/
theorem tokens_partition (text : Source) : Partitions text.tokens text := by
  have scanned := scans_tokens text
  have contiguous := scans_contiguous scanned
  have whole := scans_text scanned
  have ends := scans_endsLine scanned
  have bounds : ∀ token ∈ text.tokens, ∃ before after : Source,
      text = before ++ token.text ++ after ∧ token.span.start = before.byteLength ∧
        token.span.stop = (before ++ token.text).byteLength := by
    intro token member
    obtain ⟨before, after, place, start⟩ := contiguous_mem contiguous member
    rw [Nat.zero_add] at start
    refine ⟨before, after, by rw [← whole, place], start, ?_⟩
    rw [Token.span, start, Source.byteLength_append]
  refine ⟨contiguous, whole, ?_, bounds, ?_, ?_, ?_, ?_, ?_⟩
  · intro last final
    obtain ⟨front, split⟩ := List.getLast?_eq_some_iff.1 final
    rw [split] at contiguous whole
    rw [contiguous_stop contiguous, whole, Nat.zero_add]
  · intro token member
    obtain ⟨before, after, place, start, stop⟩ := bounds token member
    rw [start, stop, Source.byteLength_append, place, Source.slice?_append]
  · have size := contiguous_length contiguous
    rwa [whole] at size
  · intro token member line
    have broken := ends token member
    rw [line] at broken
    exact broken
  · intro before after split
    rw [← whole] at split
    obtain ⟨token, member, line, stop⟩ := contiguous_lineFeed contiguous ends split
    exact ⟨token, member, line, by rw [stop, Nat.zero_add]⟩
  · intro token member ne feed
    exact ne ((ends token member).of_mem feed)

end TermOutline
