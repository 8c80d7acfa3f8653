import TermOutline.Proofs.Resuming

/-! # Where diagnostics are placed

A diagnostic that starts on a row of a text is placed by the rows above it, by the characters before
it on its row, and by what the row says from there on, terminator apart.
-/
namespace TermOutline

namespace Source

theorem dropFinal_of_not_mem {c : Char} {text : Source} (h : c ∉ text) :
    text.dropFinal c = text := by
  rw [dropFinal, if_neg]
  exact fun last => h (List.mem_of_getLast? last)

theorem dropFinal_concat (c : Char) (text : Source) : dropFinal c (text ++ [c]) = text := by
  rw [dropFinal, List.getLast?_concat, if_pos rfl, List.dropLast_concat]

end Source

namespace LineTable

theorem startsAfter_append (offset : Nat) (text more : Source) :
    startsAfter offset (text ++ more) =
      startsAfter offset text ++ startsAfter (offset + text.byteLength) more := by
  induction text generalizing offset with
  | nil => simp [startsAfter, Source.byteLength]
  | cons c rest ih =>
    simp only [List.cons_append, startsAfter, ih, Source.byteLength, Nat.add_assoc]
    split <;> rfl

theorem length_startsAfter (offset : Nat) (text : Source) :
    (startsAfter offset text).length = text.count '\n' := by
  induction text generalizing offset with
  | nil => rfl
  | cons c rest ih =>
    rw [startsAfter]
    by_cases feed : c = '\n' <;> simp [feed, ih]

theorem startsAfter_row {row : Source} (h : '\n' ∉ row) (offset : Nat) :
    startsAfter offset row = [] := by
  rw [← List.length_eq_zero_iff, length_startsAfter]
  exact List.count_eq_zero.2 h

theorem mem_startsAfter {offset start : Nat} {text : Source} (h : start ∈ startsAfter offset text) :
    offset < start ∧ start ≤ offset + text.byteLength := by
  induction text generalizing offset with
  | nil => cases h
  | cons c rest ih =>
    have size := c.utf8Size_pos
    rw [startsAfter] at h
    rw [Source.byteLength]
    split at h
    · rcases List.mem_cons.1 h with rfl | h
      · omega
      · have := ih h
        omega
    · have := ih h
      omega

/-- The lines that start up to an offset are those after the line feeds before it. -/
theorem countP_startsAfter {before after : Source} {offset : Nat}
    (inside : before.byteLength ≤ offset)
    (later : ∀ start ∈ startsAfter before.byteLength after, offset < start) :
    (startsAfter 0 (before ++ after)).countP (· ≤ offset) = before.count '\n' := by
  have early : (startsAfter 0 before).countP (· ≤ offset) = (startsAfter 0 before).length := by
    rw [List.countP_eq_length]
    intro start member
    have := (mem_startsAfter member).2
    exact decide_eq_true (by omega)
  have late : (startsAfter before.byteLength after).countP (· ≤ offset) = 0 := by
    rw [List.countP_eq_zero]
    intro start member
    have := later start member
    simpa using this
  rw [startsAfter_append, List.countP_append, early, Nat.zero_add, late, length_startsAfter]
  rfl

/-- The last line that whole lines leave starts where they end. -/
theorem getLast?_starts {above : Source} (whole : WholeText above) :
    (0 :: startsAfter 0 above).getLast? = some above.byteLength := by
  rcases whole with rfl | feed
  · rfl
  · obtain ⟨front, rfl⟩ := List.getLast?_eq_some_iff.1 feed
    rw [startsAfter_append, ← List.cons_append, List.getLast?_append, Source.byteLength_append]
    rw [Nat.zero_add]
    rfl

section Row

variable {above row rest : Source} (whole : WholeText above) (unbroken : '\n' ∉ row)
  (ending : ∀ c ∈ rest.head?, c = '\n')

include whole

theorem starts_row (after : Source) :
    (ofSource (above ++ after)).starts[above.count '\n']? = some above.byteLength ∧
      (ofSource (above ++ after)).starts[above.count '\n' + 1]? =
        (startsAfter above.byteLength after)[0]? := by
  have size : (0 :: startsAfter 0 above).length = above.count '\n' + 1 := by
    rw [List.length_cons, length_startsAfter]
  have last := getLast?_starts whole
  rw [List.getLast?_eq_getElem?, size, Nat.add_sub_cancel] at last
  rw [ofSource, startsAfter_append, Nat.zero_add, ← List.cons_append]
  constructor
  · rw [List.getElem?_append_left (by omega), last]
  · rw [List.getElem?_append_right (by omega), size, Nat.sub_self]

theorem locate_within {lead after : Source} {offset : Nat} (unbroken : '\n' ∉ lead)
    (behind : (above ++ lead).byteLength ≤ offset)
    (bound : offset ≤ (above ++ lead ++ after).byteLength)
    (later : ∀ start ∈ startsAfter (above ++ lead).byteLength after, offset < start) :
    (ofSource (above ++ lead ++ after)).locate offset =
      ⟨above.count '\n', offset - above.byteLength⟩ := by
  have count : (ofSource (above ++ lead ++ after)).starts.countP (· ≤ offset) - 1 =
      above.count '\n' := by
    rw [ofSource, List.countP_cons_of_pos (by simp), countP_startsAfter behind later,
      Nat.add_sub_cancel, List.count_append, List.count_eq_zero.2 unbroken, Nat.add_zero]
  have start := (starts_row whole (lead ++ after)).1
  rw [← List.append_assoc] at start
  have size : (ofSource (above ++ lead ++ after)).size = (above ++ lead ++ after).byteLength := rfl
  rw [locate, size, Nat.min_eq_left bound, count, List.getD_eq_getElem?_getD, start,
    Option.getD_some]

theorem locate_row {lead : Source} (unbroken : '\n' ∉ lead) (after : Source) :
    (ofSource (above ++ lead ++ after)).locate (above ++ lead).byteLength =
      ⟨above.count '\n', lead.byteLength⟩ := by
  have bound : (above ++ lead).byteLength ≤ (above ++ lead ++ after).byteLength := by
    rw [Source.byteLength_append (above ++ lead)]
    exact Nat.le_add_right _ _
  rw [locate_within whole unbroken (Nat.le_refl _) bound
    fun start member => (mem_startsAfter member).1, Source.byteLength_append,
    Nat.add_sub_cancel_left]

include unbroken ending

theorem lineText?_row : (ofSource (above ++ row ++ rest)).lineText? (above ++ row ++ rest)
    (above.count '\n') = some (row.dropFinal '\r') := by
  obtain ⟨start, next⟩ := starts_row whole (row ++ rest)
  rw [startsAfter_append, startsAfter_row unbroken, List.nil_append, ← List.append_assoc] at next
  rw [← List.append_assoc] at start
  rw [lineText?, start, next]
  cases rest with
  | nil =>
    have cut := Source.slice?_append above row []
    simp only [startsAfter, List.getElem?_nil, Option.getD_none, Option.bind_eq_bind,
      Option.bind_some]
    rw [List.append_nil, Source.byteLength_append, ← List.append_nil (above ++ row), cut]
    simp [Source.dropTerminator, Source.dropFinal_of_not_mem unbroken]
  | cons c below =>
    obtain rfl := ending c rfl
    have cut := Source.slice?_append above (row ++ ['\n']) below
    have stop : above.byteLength + Source.byteLength (row ++ ['\n']) =
        above.byteLength + row.byteLength + Char.utf8Size '\n' := by
      simp [Source.byteLength_append, Source.byteLength, Nat.add_assoc]
    rw [stop] at cut
    simp only [startsAfter, if_true, List.getElem?_cons_zero, Option.getD_some,
      Option.bind_eq_bind, Option.bind_some]
    rw [show above ++ row ++ '\n' :: below = above ++ (row ++ ['\n']) ++ below by simp, cut]
    simp [Source.dropTerminator, Source.dropFinal_concat]

end Row

end LineTable

theorem Diagnostic.fill_eq {diagnostic : Diagnostic} (h : diagnostic.placement = none)
    (text : Source) :
    diagnostic.fill text = { diagnostic with placement := some (diagnostic.place text) } := by
  rw [Diagnostic.fill, Diagnostic.fillBy, h]
  rfl

/-- The placement of a diagnostic that starts behind `lead` on a row which shows `lead ++ shown`. -/
theorem place_row {above lead tail rest shown : Source} (whole : WholeText above)
    (unbroken : '\n' ∉ lead ++ tail) (ending : ∀ c ∈ rest.head?, c = '\n')
    (shows : Source.dropFinal '\r' (lead ++ tail) = lead ++ shown) {diagnostic : Diagnostic}
    (start : diagnostic.span.start = (above ++ lead).byteLength) :
    diagnostic.place (above ++ (lead ++ tail) ++ rest) =
      { line := above.count '\n' + 1
        column := lead.length + 1
        lineText := lead ++ shown
        width := max 1 (shown.charsBegun diagnostic.span.length) } := by
  have lead_unbroken : '\n' ∉ lead := fun feed => unbroken (List.mem_append_left _ feed)
  have located := LineTable.locate_row whole lead_unbroken (tail ++ rest)
  rw [show above ++ lead ++ (tail ++ rest) = above ++ (lead ++ tail) ++ rest by simp, ← start]
    at located
  have text := LineTable.lineText?_row whole unbroken ending
  rw [Diagnostic.place, Diagnostic.placeBy, located]
  dsimp only
  rw [text, shows, Option.getD_some, Source.takeBytes?_append, Source.dropBytes?_append]
  rfl

end TermOutline
