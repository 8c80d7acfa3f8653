import TermOutline.Proofs.Reports

/-! # Histories of diagnostics

Diagnostics are made, placed, collected, put in order and gathered in reports, in any order of
these acts. A ledger follows every diagnostic from when it was made and notes each text it was
placed against. What the ledger holds is all there is to know: a diagnostic is what it was made as,
with the placement of the first text that reached it.
-/
namespace TermOutline

/-- Diagnostics on their own, collectors and reports. -/
structure Desk where
  loose : List Diagnostic
  collectors : List Collector
  reports : List Report

/-- What can be done at a desk. Things are called by their places. What is handed over is also left
where it was, and nothing happens at a place where there is nothing. -/
inductive Act where
  | make (category : Category) (code note file : String) (span : Span)
  | fill (place : Nat) (text : Source)
  | fillBy (place : Nat) (table : LineTable) (text : Source)
  | start
  | collect (place collector : Nat)
  | finish (collector : Nat)
  | single (place : Nat)
  | list (places : List Nat)
  | push (place report : Nat)
  | fillAll (report : Nat) (text : Source)
  | release (report : Nat)

namespace Desk

def empty : Desk := ⟨[], [], []⟩

def step (desk : Desk) : Act → Desk
  | .make category code note file span =>
    { desk with loose := desk.loose ++ [⟨category, code, note, file, span, none⟩] }
  | .fill place text =>
    { desk with loose := desk.loose.modify place fun diagnostic => diagnostic.fill text }
  | .fillBy place table text =>
    { desk with loose := desk.loose.modify place fun diagnostic => diagnostic.fillBy table text }
  | .start => { desk with collectors := desk.collectors ++ [.empty] }
  | .collect place collector =>
    match desk.loose[place]? with
    | none => desk
    | some diagnostic =>
      { desk with collectors := desk.collectors.modify collector fun own => own.push diagnostic }
  | .finish collector =>
    match desk.collectors[collector]? with
    | none => desk
    | some own => { desk with reports := desk.reports ++ own.finish.toList }
  | .single place =>
    match desk.loose[place]? with
    | none => desk
    | some diagnostic => { desk with reports := desk.reports ++ [.single diagnostic] }
  | .list places =>
    let picked := places.filterMap fun place => desk.loose[place]?
    { desk with reports := desk.reports ++ (Report.ofList? picked).toList }
  | .push place report =>
    match desk.loose[place]? with
    | none => desk
    | some diagnostic =>
      { desk with reports := desk.reports.modify report fun own => own.push diagnostic }
  | .fillAll report text =>
    { desk with reports := desk.reports.modify report fun own => own.fill text }
  | .release report =>
    match desk.reports[report]? with
    | none => desk
    | some own => { desk with loose := desk.loose ++ own.toList }

def run (acts : List Act) : Desk := acts.foldl step empty

theorem run_append (acts : List Act) (act : Act) : run (acts ++ [act]) = (run acts).step act := by
  rw [run, run, List.foldl_append]
  rfl

end Desk

/-! ## What a collector reports -/

theorem Report.toList_of_ofList? {diagnostics : List Diagnostic} {report : Report}
    (h : ofList? diagnostics = some report) : report.toList = diagnostics := by
  cases diagnostics with
  | nil => cases h
  | cons first others =>
    cases h
    rfl

theorem Report.ofList?_eq_none_iff {diagnostics : List Diagnostic} :
    ofList? diagnostics = none ↔ diagnostics = [] := by
  cases diagnostics <;> simp [ofList?]

theorem Collector.finish_eq_none_iff (collector : Collector) :
    collector.finish = none ↔ collector.found = [] := by
  rw [finish, Report.ofList?_eq_none_iff]
  constructor
  · exact sortByStart_eq_nil
  · intro none
    rw [none]
    rfl

theorem Collector.finish_ordered {collector : Collector} {report : Report}
    (h : collector.finish = some report) :
    Ordered (fun one => one.span.start) collector.found report.toList := by
  rw [Report.toList_of_ofList? h]
  exact sortByStart_ordered collector.found

/-! ## What is known of a diagnostic -/

/-- A diagnostic as it was made, and what it has been placed against, the first first. -/
structure Trace where
  made : Diagnostic
  fills : List (LineTable × Source)

namespace Trace

def reach (trace : Trace) (table : LineTable) (text : Source) : Trace :=
  { trace with fills := trace.fills ++ [(table, text)] }

/-- The placement of the first text that reached a diagnostic, and all else as it was made. -/
def now (trace : Trace) : Diagnostic :=
  { trace.made with
    placement := trace.fills.head?.map fun fill => trace.made.placeBy fill.1 fill.2 }

def start (trace : Trace) : Nat := trace.made.span.start

theorem now_reach (trace : Trace) (table : LineTable) (text : Source) :
    (trace.reach table text).now = trace.now.fillBy table text := by
  obtain ⟨made, fills⟩ := trace
  cases fills with
  | nil => rfl
  | cons first rest => rfl

end Trace

/-- The traces of everything at a desk. -/
structure Ledger where
  loose : List Trace
  collectors : List (List Trace)
  reports : List (List Trace)

namespace Ledger

def empty : Ledger := ⟨[], [], []⟩

/-- How an act is noted. -/
inductive Step (ledger : Ledger) : Act → Ledger → Prop where
  | make {category : Category} {code note file : String} {span : Span} :
      Step ledger (.make category code note file span) { ledger with
        loose := ledger.loose ++ [⟨⟨category, code, note, file, span, none⟩, []⟩] }
  | fill {place : Nat} {text : Source} :
      Step ledger (.fill place text) { ledger with
        loose := ledger.loose.modify place fun trace => trace.reach (.ofSource text) text }
  | fillBy {place : Nat} {table : LineTable} {text : Source} :
      Step ledger (.fillBy place table text) { ledger with
        loose := ledger.loose.modify place fun trace => trace.reach table text }
  | start : Step ledger .start { ledger with collectors := ledger.collectors ++ [[]] }
  | collect {place collector : Nat} :
      Step ledger (.collect place collector) { ledger with
        collectors := ledger.collectors.modify collector (· ++ ledger.loose[place]?.toList) }
  | finish_empty {collector : Nat} (h : ledger.collectors.getD collector [] = []) :
      Step ledger (.finish collector) ledger
  | finish {collector : Nat} {listed : List Trace}
      (h : ledger.collectors.getD collector [] ≠ [])
      (ordered : Ordered Trace.start (ledger.collectors.getD collector []) listed) :
      Step ledger (.finish collector) { ledger with reports := ledger.reports ++ [listed] }
  | single {place : Nat} :
      Step ledger (.single place) { ledger with
        reports := ledger.reports ++ ledger.loose[place]?.toList.map fun trace => [trace] }
  | list_empty {places : List Nat} (h : places.filterMap (ledger.loose[·]?) = []) :
      Step ledger (.list places) ledger
  | list {places : List Nat} (h : places.filterMap (ledger.loose[·]?) ≠ []) :
      Step ledger (.list places) { ledger with
        reports := ledger.reports ++ [places.filterMap (ledger.loose[·]?)] }
  | push {place report : Nat} :
      Step ledger (.push place report) { ledger with
        reports := ledger.reports.modify report (· ++ ledger.loose[place]?.toList) }
  | fillAll {report : Nat} {text : Source} :
      Step ledger (.fillAll report text) { ledger with
        reports := ledger.reports.modify report
          (List.map fun trace => trace.reach (.ofSource text) text) }
  | release {report : Nat} :
      Step ledger (.release report) { ledger with
        loose := ledger.loose ++ ledger.reports.getD report [] }

/-- What a ledger holds after a series of acts. -/
inductive Records : List Act → Ledger → Prop where
  | none : Records [] empty
  | next {acts : List Act} {act : Act} {ledger next : Ledger} (h : Records acts ledger)
      (step : ledger.Step act next) : Records (acts ++ [act]) next

end Ledger

/-- Everything at a desk is what its trace says. -/
structure Desk.Shows (desk : Desk) (ledger : Ledger) : Prop where
  loose : desk.loose = ledger.loose.map Trace.now
  collectors : desk.collectors.map Collector.found = ledger.collectors.map (List.map Trace.now)
  reports : desk.reports.map Report.toList = ledger.reports.map (List.map Trace.now)

theorem map_modify {α β : Type} {f : α → β} {g : α → α} (g' : β → β)
    (h : ∀ a, f (g a) = g' (f a)) (list : List α) (place : Nat) :
    (list.modify place g).map f = (list.map f).modify place g' := by
  induction list generalizing place with
  | nil => cases place <;> rfl
  | cons a rest ih =>
    cases place with
    | zero => simp [h]
    | succ place => simp [ih]

/-- Lists of diagnostics are changed as the lists of their traces are. -/
theorem map_modify_now {α : Type} {view : α → List Diagnostic} {act : α → α}
    {note : List Trace → List Trace} (change : List Diagnostic → List Diagnostic)
    (acts : ∀ own, view (act own) = change (view own))
    (notes : ∀ traces, (note traces).map Trace.now = change (traces.map Trace.now))
    {lists : List α} {traces : List (List Trace)}
    (h : lists.map view = traces.map (List.map Trace.now)) (place : Nat) :
    (lists.modify place act).map view = (traces.modify place note).map (List.map Trace.now) := by
  rw [map_modify change acts, h, map_modify change notes]

theorem modify_append_nil {α : Type} (lists : List (List α)) (place : Nat) :
    lists.modify place (· ++ []) = lists := by
  simp only [List.append_nil]
  exact List.modify_id place lists

theorem Report.toList_fill (report : Report) (text : Source) :
    (report.fill text).toList =
      report.toList.map fun diagnostic => diagnostic.fillBy (.ofSource text) text := rfl

section

variable {desk : Desk} {ledger next : Ledger} (h : desk.Shows ledger)

include h

theorem Desk.Shows.loose_get (place : Nat) :
    desk.loose[place]? = ledger.loose[place]?.map Trace.now := by
  rw [h.loose, List.getElem?_map]

theorem Desk.Shows.picked (places : List Nat) :
    (places.filterMap fun place => desk.loose[place]?) =
      (places.filterMap (ledger.loose[·]?)).map Trace.now := by
  rw [List.map_filterMap]
  congr
  funext place
  exact h.loose_get place

theorem Desk.Shows.found (collector : Nat) :
    (desk.collectors[collector]?.map Collector.found).getD [] =
      (ledger.collectors.getD collector []).map Trace.now := by
  rw [← List.getElem?_map, h.collectors, List.getElem?_map, List.getD_eq_getElem?_getD]
  cases ledger.collectors[collector]? <;> rfl

theorem Desk.Shows.listed (report : Nat) :
    (desk.reports[report]?.map Report.toList).getD [] =
      (ledger.reports.getD report []).map Trace.now := by
  rw [← List.getElem?_map, h.reports, List.getElem?_map, List.getD_eq_getElem?_getD]
  cases ledger.reports[report]? <;> rfl

theorem Desk.Shows.reported {reports : List Report} {traces : List (List Trace)}
    (same : reports.map Report.toList = traces.map (List.map Trace.now)) :
    Desk.Shows { desk with reports := desk.reports ++ reports }
      { ledger with reports := ledger.reports ++ traces } := by
  refine ⟨h.loose, h.collectors, ?_⟩
  rw [List.map_append, List.map_append, h.reports, same]

/-- One act keeps the desk and the ledger together. -/
theorem Desk.Shows.step {act : Act} (step : ledger.Step act next) : (desk.step act).Shows next := by
  cases step with
  | make =>
    refine ⟨?_, h.collectors, h.reports⟩
    rw [List.map_append, ← h.loose]
    rfl
  | @fill place text =>
    refine ⟨?_, h.collectors, h.reports⟩
    rw [map_modify (fun diagnostic => diagnostic.fill text)
      (fun trace => trace.now_reach (.ofSource text) text), ← h.loose]
    rfl
  | @fillBy place table text =>
    refine ⟨?_, h.collectors, h.reports⟩
    rw [map_modify (fun diagnostic => diagnostic.fillBy table text)
      (fun trace => trace.now_reach table text), ← h.loose]
    rfl
  | start =>
    refine ⟨h.loose, ?_, h.reports⟩
    simp [Desk.step, h.collectors, Collector.empty]
  | @collect place collector =>
    rw [Desk.step, h.loose_get]
    cases ledger.loose[place]? with
    | none =>
      rw [Option.toList, modify_append_nil]
      exact h
    | some trace =>
      exact ⟨h.loose, map_modify_now (· ++ [trace.now]) (fun _ => rfl) (fun _ => List.map_append)
        h.collectors collector, h.reports⟩
  | @finish_empty collector none =>
    have found := h.found collector
    rw [none] at found
    rw [Desk.step]
    cases hc : desk.collectors[collector]? with
    | none => exact h
    | some own =>
      rw [hc] at found
      have unfinished := own.finish_eq_none_iff.2 found
      simpa [unfinished] using h
  | @finish collector listed ne ordered =>
    have found := h.found collector
    rw [Desk.step]
    cases hc : desk.collectors[collector]? with
    | none =>
      rw [hc] at found
      exact absurd (List.map_eq_nil_iff.1 found.symm) ne
    | some own =>
      rw [hc, Option.map_some, Option.getD_some] at found
      have some : own.finish ≠ none := by
        rw [Ne, own.finish_eq_none_iff, found, List.map_eq_nil_iff]
        exact ne
      obtain ⟨report, finished⟩ := Option.ne_none_iff_exists'.1 some
      have order := Collector.finish_ordered finished
      rw [found] at order
      dsimp only
      rw [finished]
      refine h.reported ?_
      rw [Option.toList, List.map_singleton, List.map_singleton,
        order.unique (Ordered.map Trace.now ordered)]
  | @single place =>
    rw [Desk.step, h.loose_get]
    cases ledger.loose[place]? with
    | none => simpa using h
    | some trace =>
      exact h.reported (show [Report.single trace.now].map Report.toList =
        [[trace]].map (List.map Trace.now) from rfl)
  | @list_empty places none =>
    have picked := h.picked places
    rw [none] at picked
    rw [Desk.step, picked]
    simpa [Report.ofList?] using h
  | @list places ne =>
    have picked := h.picked places
    have some : Report.ofList? (places.filterMap fun place => desk.loose[place]?) ≠ none := by
      rw [Ne, Report.ofList?_eq_none_iff, picked, List.map_eq_nil_iff]
      exact ne
    obtain ⟨report, made⟩ := Option.ne_none_iff_exists'.1 some
    rw [Desk.step, made]
    refine h.reported ?_
    rw [Option.toList, List.map_singleton, List.map_singleton, Report.toList_of_ofList? made,
      picked]
  | @push place report =>
    rw [Desk.step, h.loose_get]
    cases ledger.loose[place]? with
    | none =>
      rw [Option.toList, modify_append_nil]
      exact h
    | some trace =>
      exact ⟨h.loose, h.collectors, map_modify_now (· ++ [trace.now]) (fun _ => rfl)
        (fun _ => List.map_append) h.reports report⟩
  | @fillAll report text =>
    refine ⟨h.loose, h.collectors, map_modify_now
      (List.map fun diagnostic => diagnostic.fillBy (.ofSource text) text)
      (fun own => own.toList_fill text) ?_ h.reports report⟩
    intro traces
    rw [List.map_map, List.map_map]
    exact List.map_congr_left fun trace _ => trace.now_reach (.ofSource text) text
  | @release report =>
    have listed := h.listed report
    rw [Desk.step]
    cases hr : desk.reports[report]? with
    | none =>
      rw [hr] at listed
      rw [List.map_eq_nil_iff.1 listed.symm, List.append_nil]
      exact h
    | some own =>
      rw [hr] at listed
      refine ⟨?_, h.collectors, h.reports⟩
      rw [List.map_append, ← h.loose, ← listed]
      rfl

end

theorem Ledger.Records.shows {acts : List Act} {ledger : Ledger} (h : Ledger.Records acts ledger) :
    (Desk.run acts).Shows ledger := by
  induction h with
  | none => exact ⟨rfl, rfl, rfl⟩
  | next _ step ih =>
    rw [Desk.run_append]
    exact ih.step step

theorem Ledger.exists_step (ledger : Ledger) (act : Act) : ∃ next, ledger.Step act next := by
  cases act with
  | make => exact ⟨_, .make⟩
  | fill => exact ⟨_, .fill⟩
  | fillBy => exact ⟨_, .fillBy⟩
  | start => exact ⟨_, .start⟩
  | collect => exact ⟨_, .collect⟩
  | finish collector =>
    by_cases none : ledger.collectors.getD collector [] = []
    · exact ⟨_, .finish_empty none⟩
    · exact ⟨_, .finish none (ordered_insertionSort Trace.start _)⟩
  | single => exact ⟨_, .single⟩
  | list places =>
    by_cases none : places.filterMap (ledger.loose[·]?) = []
    · exact ⟨_, .list_empty none⟩
    · exact ⟨_, .list none⟩
  | push => exact ⟨_, .push⟩
  | fillAll => exact ⟨_, .fillAll⟩
  | release => exact ⟨_, .release⟩

theorem Ledger.exists_records (acts : List Act) : ∃ ledger, Ledger.Records acts ledger := by
  induction acts using List.reverseRecOn with
  | nil => exact ⟨_, .none⟩
  | append_singleton acts act ih =>
    obtain ⟨ledger, records⟩ := ih
    obtain ⟨next, step⟩ := ledger.exists_step act
    exact ⟨next, records.next step⟩

/-! ## What never changes -/

/-- Everything in a list stays in its place there, and changes by `R` at most. -/
def Grows {α : Type} (R : α → α → Prop) (old new : List α) : Prop :=
  ∀ (place : Nat) (a : α), old[place]? = some a → ∃ b, new[place]? = some b ∧ R a b

section

variable {α : Type} {R : α → α → Prop}

theorem Grows.trans (ht : ∀ a b c, R a b → R b c → R a c) {one two three : List α}
    (h : Grows R one two) (h' : Grows R two three) : Grows R one three := by
  intro place a found
  obtain ⟨b, found', hab⟩ := h place a found
  obtain ⟨c, found'', hbc⟩ := h' place b found'
  exact ⟨c, found'', ht a b c hab hbc⟩

theorem Grows.append (hr : ∀ a, R a a) (list more : List α) : Grows R list (list ++ more) := by
  intro place a found
  obtain ⟨bound, _⟩ := List.getElem?_eq_some_iff.1 found
  exact ⟨a, by rw [List.getElem?_append_left bound, found], hr a⟩

theorem Grows.refl (hr : ∀ a, R a a) (list : List α) : Grows R list list :=
  fun _ a found => ⟨a, found, hr a⟩

theorem Grows.modify (hr : ∀ a, R a a) {f : α → α} (hf : ∀ a, R a (f a)) (list : List α)
    (place : Nat) : Grows R list (list.modify place f) := by
  intro other a found
  rw [List.getElem?_modify, found]
  by_cases here : place = other
  · exact ⟨f a, by simp [here], hf a⟩
  · exact ⟨a, by simp [here], hr a⟩

theorem Grows.map {f : α → α} (hf : ∀ a, R a (f a)) (list : List α) :
    Grows R list (list.map f) := by
  intro place a found
  exact ⟨f a, by rw [List.getElem?_map, found, Option.map_some], hf a⟩

end

/-- All that is said of a stretch stays, and so does its placement once there is one. -/
structure Diagnostic.Stays (old new : Diagnostic) : Prop where
  category : new.category = old.category
  code : new.code = old.code
  note : new.note = old.note
  file : new.file = old.file
  span : new.span = old.span
  placement : ∀ placement, old.placement = some placement → new.placement = some placement

theorem Diagnostic.Stays.refl (diagnostic : Diagnostic) : diagnostic.Stays diagnostic :=
  ⟨rfl, rfl, rfl, rfl, rfl, fun _ h => h⟩

theorem Diagnostic.Stays.trans (one two three : Diagnostic) (h : one.Stays two)
    (h' : two.Stays three) : one.Stays three :=
  ⟨h'.category.trans h.category, h'.code.trans h.code, h'.note.trans h.note, h'.file.trans h.file,
    h'.span.trans h.span, fun placement placed => h'.placement _ (h.placement placement placed)⟩

theorem Diagnostic.fillBy_stays (table : LineTable) (text : Source) (diagnostic : Diagnostic) :
    diagnostic.Stays (diagnostic.fillBy table text) := by
  rw [fillBy]
  cases placed : diagnostic.placement with
  | some placement => exact .refl diagnostic
  | none =>
    refine ⟨rfl, rfl, rfl, rfl, rfl, ?_⟩
    intro placement there
    rw [placed] at there
    cases there

/-- A later desk has everything an earlier one had. -/
structure Desk.Keeps (desk later : Desk) : Prop where
  loose : Grows Diagnostic.Stays desk.loose later.loose
  collectors : Grows (fun old new => Grows Diagnostic.Stays old.found new.found) desk.collectors
    later.collectors
  reports : Grows (fun old new => Grows Diagnostic.Stays old.toList new.toList) desk.reports
    later.reports

theorem collector_stays (collector : Collector) :
    Grows Diagnostic.Stays collector.found collector.found := .refl .refl _

theorem report_stays (report : Report) :
    Grows Diagnostic.Stays report.toList report.toList := .refl .refl _

theorem Desk.Keeps.refl (desk : Desk) : desk.Keeps desk :=
  ⟨.refl .refl _, .refl collector_stays _, .refl report_stays _⟩

theorem Desk.Keeps.trans {one two three : Desk} (h : one.Keeps two) (h' : two.Keeps three) :
    one.Keeps three :=
  ⟨h.loose.trans .trans h'.loose,
    h.collectors.trans (fun _ _ _ => Grows.trans .trans) h'.collectors,
    h.reports.trans (fun _ _ _ => Grows.trans .trans) h'.reports⟩

theorem Desk.step_keeps (desk : Desk) (act : Act) : desk.Keeps (desk.step act) := by
  have loose {more : List Diagnostic} (grows : Grows Diagnostic.Stays desk.loose more) :
      desk.Keeps { desk with loose := more } :=
    ⟨grows, .refl collector_stays _, .refl report_stays _⟩
  have reports (more : List Report) : desk.Keeps { desk with reports := desk.reports ++ more } :=
    ⟨.refl .refl _, .refl collector_stays _, .append report_stays _ _⟩
  cases act with
  | make => exact loose (.append .refl _ _)
  | fill place text =>
    exact loose (.modify .refl (Diagnostic.fillBy_stays (.ofSource text) text) _ place)
  | fillBy place table text =>
    exact loose (.modify .refl (Diagnostic.fillBy_stays table text) _ place)
  | start => exact ⟨.refl .refl _, .append collector_stays _ _, .refl report_stays _⟩
  | collect place collector =>
    rw [Desk.step]
    cases desk.loose[place]? with
    | none => exact .refl desk
    | some diagnostic =>
      exact ⟨.refl .refl _, .modify collector_stays (fun own => .append .refl own.found _) _ _,
        .refl report_stays _⟩
  | finish collector =>
    rw [Desk.step]
    cases desk.collectors[collector]? with
    | none => exact .refl desk
    | some own => exact reports _
  | single place =>
    rw [Desk.step]
    cases desk.loose[place]? with
    | none => exact .refl desk
    | some diagnostic => exact reports _
  | list places => exact reports _
  | push place report =>
    rw [Desk.step]
    cases desk.loose[place]? with
    | none => exact .refl desk
    | some diagnostic =>
      exact ⟨.refl .refl _, .refl collector_stays _,
        .modify report_stays (fun own => .append .refl own.toList _) _ _⟩
  | fillAll report text =>
    exact ⟨.refl .refl _, .refl collector_stays _, .modify report_stays
      (fun own => .map (Diagnostic.fillBy_stays (.ofSource text) text) own.toList) _ _⟩
  | release report =>
    rw [Desk.step]
    cases desk.reports[report]? with
    | none => exact .refl desk
    | some own => exact loose (.append .refl _ _)

theorem Desk.run_keeps (acts more : List Act) :
    (Desk.run acts).Keeps (Desk.run (acts ++ more)) := by
  induction more using List.reverseRecOn with
  | nil =>
    rw [List.append_nil]
    exact .refl _
  | append_singleton more act ih =>
    rw [← List.append_assoc, Desk.run_append]
    exact ih.trans (Desk.step_keeps _ act)

/-- Whatever is done with diagnostics, collectors and reports: everything is as a ledger of what was
done says, no report is empty, a collector has no report exactly when nothing was pushed and
otherwise lists it in order, and nothing that is there is ever changed but for a first placement. -/
theorem desk_history (acts more : List Act) :
    (∃ ledger, Ledger.Records acts ledger) ∧
    (∀ ledger, Ledger.Records acts ledger → (Desk.run acts).Shows ledger) ∧
    (∀ report ∈ (Desk.run acts).reports, report.toList ≠ []) ∧
    (∀ collector ∈ (Desk.run acts).collectors,
      (collector.finish = none ↔ collector.found = []) ∧
      ∀ report, collector.finish = some report →
        Ordered (fun one => one.span.start) collector.found report.toList) ∧
    (Desk.run acts).Keeps (Desk.run (acts ++ more)) := by
  refine ⟨Ledger.exists_records acts, fun ledger records => records.shows, ?_, ?_,
    Desk.run_keeps acts more⟩
  · intro report _
    exact List.cons_ne_nil _ _
  · intro collector _
    exact ⟨collector.finish_eq_none_iff, fun report => Collector.finish_ordered⟩

end TermOutline
