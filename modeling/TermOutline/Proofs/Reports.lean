import Mathlib.Data.List.Sort
import TermOutline.Proofs.Stages

/-! # Reports in order

Diagnostics are put in order by where they start, and those that start together stay as they were
found. Those that start before some offset come first, in the order they have among themselves, so
the report on a text is made of reports on its parts.
-/
namespace TermOutline

/-- The diagnostic in a text that has `offset` more bytes before it. -/
def Diagnostic.shift (diagnostic : Diagnostic) (offset : Nat) : Diagnostic :=
  { diagnostic with span := diagnostic.span.shift offset }

/-- What a stage that passes its result on or refuses the document reports. -/
def reported {α : Type} : Except Report α → List Diagnostic
  | .ok _ => []
  | .error report => report.toList

/-- What a stage reports that may also break the agreement, unless it does. -/
def reported? {α : Type} : Except Failure α → Option (List Diagnostic)
  | .ok _ => some []
  | .error (.rejected report) => some report.toList
  | .error (.broken _) => none

theorem reported_accept {α : Type} (document : Document) (findings : List Finding) (result : α) :
    reported (document.accept findings result) =
      sortByStart (findings.map fun finding => finding.diagnostic document.file) := by
  rw [Document.accept, Report.ofFindings?, Collector.finish]
  cases sortByStart (findings.map fun finding => finding.diagnostic document.file) <;> rfl

theorem reported?_mapError {α : Type} (result : Except Report α) :
    reported? (result.mapError Failure.rejected) = some (reported result) := by
  cases result <;> rfl

/-! ## In order -/

/-- `listed` is `pushed` in order of where things start, and things that start together are listed
as they were pushed. -/
structure Ordered {α : Type} (start : α → Nat) (pushed listed : List α) : Prop where
  perm : listed.Perm pushed
  sorted : listed.Pairwise fun one next => start one ≤ start next
  stable : ∀ offset, listed.filter (fun one => start one = offset) =
    pushed.filter fun one => start one = offset

section

variable {α β : Type}

theorem ordered_insertionSort (start : α → Nat) (pushed : List α) :
    Ordered start pushed (pushed.insertionSort fun one next => start one ≤ start next) := by
  let before (one next : α) : Prop := start one ≤ start next
  have total : Std.Total before := ⟨fun one next => Nat.le_total (start one) (start next)⟩
  have trans : IsTrans α before := ⟨fun _ _ _ => Nat.le_trans⟩
  have perm := List.perm_insertionSort before pushed
  refine ⟨perm, List.pairwise_insertionSort before pushed, ?_⟩
  intro offset
  let here (one : α) : Bool := start one = offset
  have together : (pushed.filter here).Pairwise before := by
    refine List.pairwise_of_forall_mem_list ?_
    intro one member next member'
    have first := (List.mem_filter.1 member).2
    have second := (List.mem_filter.1 member').2
    simp only [here, decide_eq_true_eq] at first second
    exact Nat.le_of_eq (first.trans second.symm)
  have kept := (List.sublist_insertionSort together List.filter_sublist).filter here
  rw [List.filter_filter] at kept
  simp only [Bool.and_self] at kept
  exact (kept.eq_of_length (perm.filter here).length_eq.symm).symm

theorem sorted_unique (start : α → Nat) : ∀ {one other : List α},
    (one.Pairwise fun a b => start a ≤ start b) → (other.Pairwise fun a b => start a ≤ start b) →
    (∀ offset, one.filter (fun a => start a = offset) = other.filter fun a => start a = offset) →
    one = other
  | [], other, _, _, same => by
    cases other with
    | nil => rfl
    | cons b rest => simpa using same (start b)
  | a :: rest, [], _, _, same => by simpa using same (start a)
  | a :: rest, b :: more, ha, hb, same => by
    rw [List.pairwise_cons] at ha hb
    have below : start b ≤ start a := by
      have member : a ∈ (b :: more).filter fun c => start c = start a := by
        rw [← same]
        simp
      rcases List.mem_cons.1 (List.mem_filter.1 member).1 with rfl | later
      · exact Nat.le_refl _
      · exact hb.1 a later
    have above : start a ≤ start b := by
      have member : b ∈ (a :: rest).filter fun c => start c = start b := by
        rw [same]
        simp
      rcases List.mem_cons.1 (List.mem_filter.1 member).1 with rfl | later
      · exact Nat.le_refl _
      · exact ha.1 b later
    have level : start a = start b := Nat.le_antisymm above below
    have first : a = b := by
      have heads := same (start a)
      simp only [List.filter_cons, level, decide_true, if_true, List.cons.injEq] at heads
      exact heads.1
    subst first
    have tails : ∀ offset, rest.filter (fun c => start c = offset) =
        more.filter fun c => start c = offset := by
      intro offset
      have whole := same offset
      by_cases here : start a = offset
      · simpa [here] using whole
      · simpa [here] using whole
    rw [sorted_unique start ha.2 hb.2 tails]

theorem Ordered.unique {start : α → Nat} {pushed one other : List α}
    (h : Ordered start pushed one) (h' : Ordered start pushed other) : one = other :=
  sorted_unique start h.sorted h'.sorted fun offset =>
    (h.stable offset).trans (h'.stable offset).symm

theorem Ordered.map {start : β → Nat} {pushed listed : List α} (f : α → β)
    (h : Ordered (fun one => start (f one)) pushed listed) :
    Ordered start (pushed.map f) (listed.map f) := by
  refine ⟨h.perm.map f, List.pairwise_map.2 h.sorted, ?_⟩
  intro offset
  rw [List.filter_map, List.filter_map]
  exact congrArg (List.map f) (h.stable offset)

end

theorem insertByStart_eq (diagnostic : Diagnostic) (rest : List Diagnostic) :
    insertByStart diagnostic rest =
      rest.orderedInsert (fun one next => one.span.start ≤ next.span.start) diagnostic := by
  induction rest with
  | nil => rfl
  | cons head rest ih => rw [insertByStart, List.orderedInsert, ih]

theorem sortByStart_ordered (diagnostics : List Diagnostic) :
    Ordered (fun one => one.span.start) diagnostics (sortByStart diagnostics) := by
  have same : sortByStart diagnostics =
      diagnostics.insertionSort fun one next => one.span.start ≤ next.span.start := by
    rw [sortByStart, List.insertionSort]
    congr
    funext diagnostic rest
    exact insertByStart_eq diagnostic rest
  rw [same]
  exact ordered_insertionSort _ diagnostics

theorem mem_sortByStart {diagnostics : List Diagnostic} {diagnostic : Diagnostic} :
    diagnostic ∈ sortByStart diagnostics ↔ diagnostic ∈ diagnostics :=
  (sortByStart_ordered diagnostics).perm.mem_iff

theorem sortByStart_eq_nil {diagnostics : List Diagnostic} (h : sortByStart diagnostics = []) :
    diagnostics = [] := by
  apply List.eq_nil_iff_forall_not_mem.2
  intro diagnostic member
  rw [← mem_sortByStart, h] at member
  cases member

/-! ## In parts -/

def startsBefore (offset : Nat) (diagnostic : Diagnostic) : Bool :=
  decide (diagnostic.span.start < offset)

theorem insertByStart_before {offset : Nat} {diagnostic : Diagnostic}
    (h : diagnostic.span.start < offset) {low high : List Diagnostic}
    (hh : ∀ other ∈ high, offset ≤ other.span.start) :
    insertByStart diagnostic (low ++ high) = insertByStart diagnostic low ++ high := by
  induction low with
  | nil =>
    cases high with
    | nil => rfl
    | cons head rest =>
      have := hh head List.mem_cons_self
      rw [List.nil_append]
      exact if_pos (by omega)
  | cons head rest ih =>
    rw [List.cons_append, insertByStart, insertByStart]
    split
    · rfl
    · rw [ih, List.cons_append]

theorem insertByStart_after {offset : Nat} {diagnostic : Diagnostic}
    (h : offset ≤ diagnostic.span.start) {low high : List Diagnostic}
    (hl : ∀ other ∈ low, other.span.start < offset) :
    insertByStart diagnostic (low ++ high) = low ++ insertByStart diagnostic high := by
  induction low with
  | nil => rfl
  | cons head rest ih =>
    obtain ⟨first, others⟩ := List.forall_mem_cons.1 hl
    rw [List.cons_append, insertByStart, if_neg (by omega), ih others, List.cons_append]

/-- Sorting keeps the diagnostics before an offset apart from the others. -/
theorem sortByStart_split (offset : Nat) (diagnostics : List Diagnostic) :
    sortByStart diagnostics = sortByStart (diagnostics.filter (startsBefore offset)) ++
      sortByStart (diagnostics.filter fun diagnostic => !startsBefore offset diagnostic) := by
  induction diagnostics with
  | nil => rfl
  | cons diagnostic rest ih =>
    have low : ∀ other ∈ sortByStart (rest.filter (startsBefore offset)),
        other.span.start < offset := by
      intro other member
      simpa [startsBefore] using (List.mem_filter.1 (mem_sortByStart.1 member)).2
    have high : ∀ other ∈ sortByStart (rest.filter fun other => !startsBefore offset other),
        offset ≤ other.span.start := by
      intro other member
      simpa [startsBefore] using (List.mem_filter.1 (mem_sortByStart.1 member)).2
    rw [sortByStart, List.foldr_cons, ← sortByStart, ih]
    by_cases h : diagnostic.span.start < offset
    · rw [insertByStart_before h high, List.filter_cons_of_pos (by simpa [startsBefore] using h),
        List.filter_cons_of_neg (by simpa [startsBefore] using h), sortByStart, sortByStart,
        sortByStart, List.foldr_cons]
    · rw [insertByStart_after (Nat.le_of_not_lt h) low,
        List.filter_cons_of_neg (by simpa [startsBefore] using h),
        List.filter_cons_of_pos (by simpa [startsBefore] using h), sortByStart, sortByStart,
        sortByStart, List.foldr_cons]

section Moved

variable {f : Diagnostic → Diagnostic}
  (h : ∀ one other, (f one).span.start ≤ (f other).span.start ↔ one.span.start ≤ other.span.start)

include h

theorem insertByStart_map (diagnostic : Diagnostic) (rest : List Diagnostic) :
    insertByStart (f diagnostic) (rest.map f) = (insertByStart diagnostic rest).map f := by
  induction rest with
  | nil => rfl
  | cons head rest ih =>
    rw [List.map_cons, insertByStart, insertByStart, ih]
    simp only [h]
    split <;> rfl

/-- Diagnostics that keep their order when they are moved are sorted alike. -/
theorem sortByStart_map (diagnostics : List Diagnostic) :
    sortByStart (diagnostics.map f) = (sortByStart diagnostics).map f := by
  rw [sortByStart, sortByStart]
  induction diagnostics with
  | nil => rfl
  | cons diagnostic rest ih =>
    rw [List.map_cons, List.foldr_cons, List.foldr_cons, ih, insertByStart_map h]

end Moved

theorem sortByStart_shift (diagnostics : List Diagnostic) (offset : Nat) :
    sortByStart (diagnostics.map fun diagnostic => diagnostic.shift offset) =
      (sortByStart diagnostics).map fun diagnostic => diagnostic.shift offset :=
  sortByStart_map (fun _ _ => Nat.add_le_add_iff_right) diagnostics

section

variable {offset : Nat} {findings : List Finding}

theorem filter_before (h : ∀ finding ∈ findings, finding.span.start < offset) :
    findings.filter (fun finding => decide (finding.span.start < offset)) = findings := by
  simpa using h

theorem filter_after (h : ∀ finding ∈ findings, finding.span.start < offset) :
    findings.filter (fun finding => !decide (finding.span.start < offset)) = [] := by
  simpa using h

theorem filter_before_shift : (findings.map fun finding => finding.shift offset).filter
    (fun finding => decide (finding.span.start < offset)) = [] := by
  simp [Finding.shift, Span.shift]

theorem filter_after_shift : (findings.map fun finding => finding.shift offset).filter
    (fun finding => !decide (finding.span.start < offset)) =
      findings.map fun finding => finding.shift offset := by
  simp [Finding.shift, Span.shift]

end

/-- Findings in two parts of a text, however they are mixed, are reported one part after the
other. -/
theorem sortByStart_parts (file : String) (offset : Nat) {findings front back : List Finding}
    (low : findings.filter (fun finding => decide (finding.span.start < offset)) = front)
    (high : findings.filter (fun finding => !decide (finding.span.start < offset)) =
      back.map fun finding => finding.shift offset) :
    sortByStart (findings.map fun finding => finding.diagnostic file) =
      sortByStart (front.map fun finding => finding.diagnostic file) ++
        (sortByStart (back.map fun finding => finding.diagnostic file)).map
          fun diagnostic => diagnostic.shift offset := by
  rw [sortByStart_split offset, List.filter_map, List.filter_map]
  have before : startsBefore offset ∘ (fun finding : Finding => finding.diagnostic file) =
      fun finding => decide (finding.span.start < offset) := rfl
  have after : (fun diagnostic => !startsBefore offset diagnostic) ∘
      (fun finding : Finding => finding.diagnostic file) =
        fun finding => !decide (finding.span.start < offset) := rfl
  rw [before, after, low, high, ← sortByStart_shift, List.map_map, List.map_map]
  rfl

end TermOutline
