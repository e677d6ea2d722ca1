/-
The table of the Criterion summarizer (`src/bin/summarize-criterion-grid.rs`), and what it prints of it.

A benchmark is printed with the lowest, the middle and the highest value of each version; the percentages are computed
from these. Printing stops at the first benchmark that lacks a version, after the rows before it.

- `readArguments_ok`: each argument contributes its readings, whatever was read before it;
- `readArguments_render`: what the table holds after the rendered logs of any files;
- `report_total`: the report never panics, its rows are those of the names before the first benchmark that lacks a
  version, and it names that version; the order of the arguments does not matter.
-/
import WtBenchmarks.Core.OrderStatistics
import WtBenchmarks.Criterion.Log

namespace WtBenchmarks.Criterion

open Text Grouping
open OrderStatistics (ascending)
open OpLatency (isWhitespace)

/-! ## Model -/

section Model

variable {F : Type} [LinearOrder F] (floats : Floats F)

/-- `values.sort_by(f64::total_cmp)`, and the middle -/
def median (values : List F) : Option F :=
  let sorted := ascending values
  let midpoint := values.length / 2
  if values.length % 2 = 0 then do
    let before ← if midpoint = 0 then none else sorted[midpoint - 1]?
    let after ← sorted[midpoint]?
    pure (floats.half (floats.add before after))
  else sorted[midpoint]?

structure Summary (F : Type) where
  low : F
  middle : F
  high : F
deriving DecidableEq

def summarize (values : List F) : Option (Summary F) := do
  let low ← values.min?
  let high ← values.max?
  let middle ← median floats values
  pure ⟨low, middle, high⟩

structure Row (F : Type) where
  benchmark : String
  beta13 : Summary F
  beta15 : Summary F
  beta18 : Summary F

/-- a row, or the version that is missing; the summaries of all versions are computed first -/
def rowOf (benchmark : String) (versions : Std.ExtTreeMap String (List F)) : Option (Except String (Row F)) :=
  if versions.toList.all fun entry => (summarize floats entry.2).isSome then
    match (versions["beta13"]?).bind (summarize floats), (versions["beta15"]?).bind (summarize floats),
      (versions["beta18"]?).bind (summarize floats) with
    | none, _, _ => some (.error "beta13")
    | some _, none, _ => some (.error "beta15")
    | some _, some _, none => some (.error "beta18")
    | some beta13, some beta15, some beta18 => some (.ok ⟨benchmark, beta13, beta15, beta18⟩)
  else none

/-- the printed rows, and the missing version that stops them -/
def printRows : List (String × Std.ExtTreeMap String (List F)) → Option (List (Row F) × Option String)
  | [] => some ([], none)
  | (benchmark, versions) :: rest => do
    match ← rowOf floats benchmark versions with
    | .error version => pure ([], some version)
    | .ok row =>
      let (rows, stop) ← printRows rest
      pure (row :: rows, stop)

def report (results : Results F) : Option (List (Row F) × Option String) := printRows floats results.toList

end Model

/-! ## What the arguments contribute -/

section Arguments

variable {F : Type} {floats : Floats F} {read : List Char → Except (List Char) (List Char)}

/-- the entries of a table -/
abbrev Recorded (F : Type) := List (String × (String × F))

def Results.recordAll (results : Results F) (entries : Recorded F) : Results F := entries.foldl (entryOr push ∅) results

/-- the table of some entries -/
def table (entries : Recorded F) : Results F := tally push ∅ entries

theorem recordAll_append (results : Results F) (l l' : Recorded F) :
    results.recordAll (l ++ l') = (results.recordAll l).recordAll l' := List.foldl_append

theorem table_append (l l' : Recorded F) : table (l ++ l') = (table l).recordAll l' := List.foldl_append

/-- the state of a scan as far as the later lines can tell it -/
theorem scan_contributes {label : String} {path : List Char} (ls : List (List Char)) {scan scan' : Scan F}
    (h : ls.foldlM (scanLine floats label path) scan = .ok scan') :
    ∃ entries, scan'.results = scan.results.recordAll entries ∧ ∀ results,
      ls.foldlM (scanLine floats label path) ⟨scan.benchmark, scan.run, results⟩ =
        .ok ⟨scan'.benchmark, scan'.run, results.recordAll entries⟩ := by
  induction ls generalizing scan with
  | nil =>
    cases h
    exact ⟨[], rfl, fun _ => rfl⟩
  | cons line ls ih =>
    rw [List.foldlM_cons, bind_eq_ok] at h
    obtain ⟨mid, hline, h⟩ := h
    obtain ⟨entries, hentries, hall⟩ := ih h
    -- the line records one reading or none, and reads nothing of the table
    obtain ⟨here, hhere, hsame⟩ : ∃ here, mid.results = scan.results.recordAll here ∧ ∀ results,
        scanLine floats label path ⟨scan.benchmark, scan.run, results⟩ line =
          .ok ⟨mid.benchmark, mid.run, results.recordAll here⟩ := by
      unfold scanLine at hline ⊢
      cases hname : benchmarkName line with
      | some name =>
        rw [hname] at hline
        cases hline
        exact ⟨[], rfl, fun _ => rfl⟩
      | none =>
        rw [hname] at hline
        obtain ⟨value, hvalue, hline⟩ := bind_eq_ok.1 hline
        simp only [hvalue, ok_bind]
        cases value with
        | none =>
          cases hline
          exact ⟨[], rfl, fun _ => rfl⟩
        | some value =>
          cases hbenchmark : scan.benchmark with
          | none =>
            rw [hbenchmark] at hline
            cases hline
          | some name =>
            rw [hbenchmark] at hline
            cases hline
            exact ⟨[(name, (label, value))], rfl, fun _ => rfl⟩
    refine ⟨here ++ entries, by rw [hentries, hhere, recordAll_append], fun results => ?_⟩
    rw [List.foldlM_cons, hsame, ok_bind, hall, recordAll_append]

/-- the sums that a file contributes -/
def totals (floats : Floats F) (label : String) (run : Std.ExtTreeMap String F) : Recorded F :=
  backends.filterMap fun backend => (totalOf floats run backend).map fun total =>
    (s!"moe_pgo/publish_plus_retire/{backend}/12288", (label, total))

theorem addTotals_eq (label : String) (scan : Scan F) :
    addTotals floats label scan = scan.results.recordAll (totals floats label scan.run) := by
  unfold addTotals totals
  generalize scan.results = results
  induction backends generalizing results with
  | nil => rfl
  | cons backend rest ih =>
    rw [List.foldl_cons, ih, List.filterMap_cons]
    cases totalOf floats scan.run backend with
    | none => rfl
    | some total => rfl

/-- an argument records the same entries into any table -/
def Contributes (floats : Floats F) (read : List Char → Except (List Char) (List Char)) (argument : List Char)
    (entries : Recorded F) : Prop :=
  ∀ results, readArgument floats read results argument = .ok (results.recordAll entries)

theorem readArgument_contributes {results results' : Results F} {argument : List Char}
    (h : readArgument floats read results argument = .ok results') :
    ∃ entries, Contributes floats read argument entries ∧ results' = results.recordAll entries := by
  unfold readArgument at h
  cases hcut : splitOnce [':'] argument with
  | none =>
    rw [hcut] at h
    cases h
  | some cut =>
    obtain ⟨label, path⟩ := cut
    rw [hcut] at h
    dsimp only at h
    cases hread : read path with
    | error error =>
      rw [hread] at h
      cases h
    | ok contents =>
      rw [hread] at h
      dsimp only at h
      cases hscan : scanFile floats (String.ofList label) path results contents with
      | error error =>
        rw [hscan] at h
        cases h
      | ok scan =>
        rw [hscan] at h
        cases h
        obtain ⟨entries, hentries, hall⟩ := scan_contributes _ hscan
        refine ⟨entries ++ totals floats (String.ofList label) scan.run, fun results => ?_, ?_⟩
        · rw [readArgument, hcut]
          dsimp only
          rw [hread]
          dsimp only
          rw [scanFile, hall]
          refine congrArg Except.ok ?_
          rw [addTotals_eq, recordAll_append]
        · rw [addTotals_eq, hentries, recordAll_append]

/-- **Arguments.** The table is that of the entries of the arguments, one after the other. -/
theorem readArguments_ok {arguments : List (List Char)} {results : Results F} :
    readArguments floats read arguments = .ok results ↔
      ∃ entries, List.Forall₂ (Contributes floats read) arguments entries ∧ results = table entries.flatten := by
  unfold readArguments
  suffices hfrom : ∀ before : Recorded F, arguments.foldlM (readArgument floats read) (table before) = .ok results ↔
      ∃ entries, List.Forall₂ (Contributes floats read) arguments entries ∧
        results = table (before ++ entries.flatten) from hfrom []
  induction arguments with
  | nil =>
    intro before
    rw [List.foldlM_nil]
    constructor
    · intro h
      cases h
      exact ⟨[], List.Forall₂.nil, by rw [List.flatten_nil, List.append_nil]⟩
    · rintro ⟨entries, hentries, rfl⟩
      cases hentries
      rw [List.flatten_nil, List.append_nil]
      rfl
  | cons argument arguments ih =>
    intro before
    rw [List.foldlM_cons]
    constructor
    · intro h
      obtain ⟨mid, hmid, h⟩ := bind_eq_ok.1 h
      obtain ⟨here, hhere, rfl⟩ := readArgument_contributes hmid
      rw [← table_append] at h
      obtain ⟨entries, hentries, rfl⟩ := (ih (before ++ here)).1 h
      exact ⟨here :: entries, List.Forall₂.cons hhere hentries, by rw [List.flatten_cons, List.append_assoc]⟩
    · rintro ⟨entries, hentries, rfl⟩
      cases hentries with
      | cons hhere hentries =>
        rw [hhere, ok_bind, ← table_append]
        exact (ih _).2 ⟨_, hentries, by rw [List.flatten_cons, List.append_assoc]⟩

end Arguments

/-! ## Rendered files -/

section Files

variable {F : Type}

/-- a file of rendered logs, and the argument that names it -/
structure File (F : Type) where
  label : List Char
  path : List Char
  entries : List Entry
  values : List F
  after : List (List Char)

def File.argument (file : File F) : List Char := file.label ++ [':'] ++ file.path

structure File.Valid (floats : Floats F) (read : List Char → Except (List Char) (List Char)) (file : File F) :
    Prop where
  label : ':' ∉ file.label
  read : read file.path = .ok (render file.entries file.after)
  entries : List.Forall₂ (Entry.Valid floats) file.entries file.values
  after : ∀ line ∈ file.after, Other floats line

def File.readings (file : File F) : List (String × F) := Criterion.readings file.entries file.values

/-- the sums of the last publish and the last retire time of a file -/
def File.sums (floats : Floats F) (file : File F) : List (String × F) :=
  backends.filterMap fun backend => do
    let publish ← (under s!"moe_pgo/publish/{backend}/12288" file.readings).getLast?
    let retire ← (under s!"moe_pgo/retire/{backend}/12288" file.readings).getLast?
    pure (s!"moe_pgo/publish_plus_retire/{backend}/12288", floats.add publish retire)

/-- the values of a benchmark in a file -/
def File.valuesOf (floats : Floats F) (file : File F) (name : String) : List F :=
  under name file.readings ++ under name (file.sums floats)

/-- the values of a benchmark under a label -/
def Results.values (results : Results F) (name label : String) : List F :=
  (((results[name]?).getD ∅)[label]?).getD []

theorem values_table (entries : Recorded F) (name label : String) :
    (table entries).values name label = under label (under name entries) := by
  have hget : (table entries)[name]? = if under name entries = [] then none else some (collect (under name entries)) :=
    tally_get push ∅ entries name
  rw [Results.values, hget]
  by_cases h : under name entries = []
  · rw [if_pos h, h]
    simp [under]
  · rw [if_neg h, Option.getD_some, collect_get]
    by_cases h' : under label (under name entries) = []
    · rw [if_pos h', h']
      rfl
    · rw [if_neg h']
      rfl

/-- readings recorded under one label -/
def labelled (label : String) (readings : List (String × F)) : Recorded F := readings.map fun r => (r.1, (label, r.2))

theorem under_labelled (label name label' : String) (readings : List (String × F)) :
    under label' (under name (labelled label readings)) = if label = label' then under name readings else [] := by
  have hname : under name (labelled label readings) = (under name readings).map fun value => (label, value) := by
    rw [under, under, labelled, List.filter_map, List.map_map, List.map_map]
    rfl
  rw [hname, under]
  by_cases h : label = label'
  · rw [if_pos h, List.filter_eq_self.2 (by simp [h]), List.map_map]
    exact List.map_id _
  · rw [if_neg h, List.filter_eq_nil_iff.2 (by simp [h])]
    rfl

/-- what a file records -/
def File.recorded (floats : Floats F) (file : File F) : Recorded F :=
  labelled (String.ofList file.label) (file.readings ++ file.sums floats)

theorem foldl_read (label : String) (readings : List (String × F)) (scan : Scan F) :
    (readings.foldl (Scan.read label) scan).run = readings.foldl (fun map r => map.insert r.1 r.2) scan.run ∧
      (readings.foldl (Scan.read label) scan).results = scan.results.recordAll (labelled label readings) := by
  induction readings generalizing scan with
  | nil => exact ⟨rfl, rfl⟩
  | cons r readings ih => exact ih (scan.read label r)

theorem File.Valid.contributes {floats : Floats F} {read : List Char → Except (List Char) (List Char)} {file : File F}
    (h : file.Valid floats read) : Contributes floats read file.argument (file.recorded floats) := by
  intro results
  have hlabel : ¬ [':'] <:+: file.label := fun hin => h.label (hin.subset List.mem_cons_self)
  rw [readArgument, File.argument, splitOnce_append (by decide) (by decide) hlabel]
  dsimp only
  rw [h.read]
  dsimp only
  rw [scanFile_render h.entries h.after]
  refine congrArg Except.ok ?_
  obtain ⟨hrun, hresults⟩ := foldl_read (String.ofList file.label) file.readings ⟨none, ∅, results⟩
  rw [addTotals_eq, show Criterion.readings file.entries file.values = file.readings from rfl, hresults, hrun,
    ← recordAll_append, File.recorded]
  refine congrArg results.recordAll ?_
  rw [labelled, labelled, List.map_append]
  refine congrArg _ ?_
  rw [totals, File.sums, List.map_filterMap]
  refine congrArg (fun f => List.filterMap f backends) (funext fun backend => ?_)
  rw [totalOf, insertAll_get, insertAll_get]
  cases (under s!"moe_pgo/publish/{backend}/12288" file.readings).getLast? with
  | none => rfl
  | some publish =>
    cases (under s!"moe_pgo/retire/{backend}/12288" file.readings).getLast? with
    | none => rfl
    | some retire => rfl

/-- **Logs are read back.** Whatever other output stands between the benchmarks, the table holds under each name and
label exactly the middle bounds printed for that name in the files with that label, in order, and for each file that has
both times of a backend the sum of the last of each. -/
theorem readArguments_render (floats : Floats F) (read : List Char → Except (List Char) (List Char))
    (files : List (File F)) (hvalid : ∀ file ∈ files, file.Valid floats read) :
    ∃ results, readArguments floats read (files.map File.argument) = .ok results ∧
      ∀ name label, results.values name label =
        (files.filter fun file => String.ofList file.label = label).flatMap fun file => file.valuesOf floats name := by
  refine ⟨table (files.flatMap (File.recorded floats)),
    readArguments_ok.2 ⟨files.map (File.recorded floats), ?_, ?_⟩, ?_⟩
  · rw [List.forall₂_map_left_iff, List.forall₂_map_right_iff, List.forall₂_same]
    exact fun file hfile => (hvalid file hfile).contributes
  · rw [List.flatMap_def]
  · intro name label
    rw [values_table]
    clear hvalid
    induction files with
    | nil => rfl
    | cons file files ih =>
      rw [List.flatMap_cons, under_append, under_append, ih, File.recorded, under_labelled, List.filter_cons]
      by_cases h : String.ofList file.label = label
      · rw [if_pos h, if_pos (decide_eq_true h), List.flatMap_cons, File.valuesOf, under_append]
      · rw [if_neg h, if_neg (by simpa using h), List.nil_append]

/-- rational durations, with whole numbers as numerals -/
def rationals : Floats ℚ where
  parse text := if text ≠ [] ∧ text.all Char.isDigit then some (Nat.ofDigitChars 10 text 0 : ℕ) else none
  scale
    | .ps => 1 / 1000
    | .ns => 1
    | .us => 1000
    | .ms => 1000000
    | .s => 1000000000
  mul := (· * ·)
  add := (· + ·)
  half x := x / 2

/-- the change to an earlier run, which is printed as another time line -/
def change : List Char := "        time:   [-1.2% +0.3% +1.9%] (p = 0.61 > 0.05)".toList

def published : Entry where
  before := ["Benchmarking moe_pgo/publish/arctic/12288: Warming up for 3.0000 s".toList]
  name := "moe_pgo/publish/arctic/12288".toList
  between := []
  head := "moe_pgo/publish/arctic/12288 ".toList
  gap := [' ', ' ']
  bounds := ⟨"11".toList, "ns".toList, "12".toList, "ns".toList, "14".toList, "ns".toList⟩

def retired : Entry where
  before := [change]
  name := "moe_pgo/retire/arctic/12288".toList
  between := []
  head := "moe_pgo/retire/arctic/12288 ".toList
  gap := [' ', ' ']
  bounds := ⟨"900".toList, "ns".toList, "2".toList, "µs".toList, "3".toList, "µs".toList⟩

/-- four passes over three versions, one of which is without a retire time -/
def passes : List (File ℚ) :=
  [⟨"beta13".toList, ['1'], [published, retired], [12, 2000], [change]⟩,
    ⟨"beta15".toList, ['2'], [published], [12], [change]⟩,
    ⟨"beta18".toList, ['3'], [retired, published], [2000, 12], []⟩,
    ⟨"beta13".toList, ['4'], [published, retired], [12, 2000], []⟩]

def readPass (path : List Char) : Except (List Char) (List Char) :=
  if path = ['1'] then .ok (render [published, retired] [change])
  else if path = ['2'] then .ok (render [published] [change])
  else if path = ['3'] then .ok (render [retired, published] [])
  else .ok (render [published, retired] [])

theorem isField_of_all {ls : List (List Char)}
    (h : ∀ field ∈ ls, field ≠ [] ∧ (field.all fun c => !isWhitespace c) = true) :
    ∀ field ∈ ls, IsField isWhitespace field := fun field hfield => IsField.of_all (h field hfield).1 (h field hfield).2

theorem change_other : Other rationals change := ⟨⟨by decide +kernel, by decide +kernel⟩, by decide +kernel, rfl⟩

theorem published_valid : published.Valid rationals 12 := by
  refine ⟨?_, nofun, by decide +kernel, by decide +kernel, by decide +kernel,
    fun _ hc => List.eq_of_mem_replicate (n := 2) hc, ?_, by decide +kernel, ?_⟩
  · exact List.forall_mem_singleton.2 ⟨⟨by decide +kernel, by decide +kernel⟩, by decide +kernel, rfl⟩
  · exact isField_of_all (by decide +kernel)
  · exact congrArg Except.ok (by norm_num : ((12 : ℕ) : ℚ) * 1 = 12)

theorem retired_valid : retired.Valid rationals 2000 := by
  refine ⟨?_, nofun, by decide +kernel, by decide +kernel, by decide +kernel,
    fun _ hc => List.eq_of_mem_replicate (n := 2) hc, ?_, by decide +kernel, ?_⟩
  · exact List.forall_mem_singleton.2 change_other
  · exact isField_of_all (by decide +kernel)
  · exact congrArg Except.ok (by norm_num : ((2 : ℕ) : ℚ) * 1000 = 2000)

theorem passes_valid : ∀ file ∈ passes, file.Valid rationals readPass := by
  have hchange : ∀ line ∈ [change], Other rationals line := List.forall_mem_singleton.2 change_other
  have hboth : List.Forall₂ (Entry.Valid rationals) [published, retired] [12, 2000] :=
    List.Forall₂.cons published_valid (List.Forall₂.cons retired_valid List.Forall₂.nil)
  have hturned : List.Forall₂ (Entry.Valid rationals) [retired, published] [2000, 12] :=
    List.Forall₂.cons retired_valid (List.Forall₂.cons published_valid List.Forall₂.nil)
  simp only [passes, List.forall_mem_cons]
  exact ⟨⟨by decide +kernel, rfl, hboth, hchange⟩,
    ⟨by decide +kernel, rfl, List.Forall₂.cons published_valid List.Forall₂.nil, hchange⟩,
    ⟨by decide +kernel, rfl, hturned, nofun⟩, ⟨by decide +kernel, rfl, hboth, nofun⟩, nofun⟩

theorem readArguments_render_passes : ∃ results,
    readArguments rationals readPass (passes.map File.argument) = .ok results ∧
      results.values "moe_pgo/publish/arctic/12288" "beta13" = [12, 12] ∧
      results.values "moe_pgo/publish_plus_retire/arctic/12288" "beta13" = [2012, 2012] ∧
      results.values "moe_pgo/publish_plus_retire/arctic/12288" "beta15" = [] ∧
      results.values "moe_pgo/publish_plus_retire/arctic/12288" "beta18" = [2012] := by
  obtain ⟨results, hread, hvalues⟩ := readArguments_render rationals readPass passes passes_valid
  exact ⟨results, hread, (hvalues _ _).trans (by decide +kernel), (hvalues _ _).trans (by decide +kernel),
    (hvalues _ _).trans (by decide +kernel), (hvalues _ _).trans (by decide +kernel)⟩

end Files

/-! ## The report -/

section Report

variable {F : Type} [LinearOrder F] {floats : Floats F}

theorem median_some (floats : Floats F) {values : List F} (h : values ≠ []) : ∃ m, median floats values = some m := by
  have hpos := List.length_pos_iff.2 h
  have hhalf : values.length / 2 < (ascending values).length := by
    rw [OrderStatistics.ascending_length]
    omega
  unfold median
  dsimp only
  split_ifs with heven hzero
  · omega
  · rw [List.getElem?_eq_getElem hhalf, List.getElem?_eq_getElem (Nat.lt_of_le_of_lt (Nat.sub_le _ 1) hhalf)]
    exact ⟨_, rfl⟩
  · exact ⟨_, List.getElem?_eq_getElem hhalf⟩

theorem summarize_some (floats : Floats F) {values : List F} (h : values ≠ []) :
    ∃ s, summarize floats values = some s := by
  obtain ⟨low, hlow⟩ := Option.isSome_iff_exists.1 (List.isSome_min?_of_ne_nil h)
  obtain ⟨high, hhigh⟩ := Option.isSome_iff_exists.1 (List.isSome_max?_of_ne_nil h)
  obtain ⟨middle, hmiddle⟩ := median_some floats h
  exact ⟨⟨low, middle, high⟩, by rw [summarize, hlow, hhigh, hmiddle]; rfl⟩

theorem min?_perm {l l' : List F} (h : l.Perm l') : l.min? = l'.min? := by
  refine Option.ext fun a => ?_
  rw [List.min?_eq_some_iff, List.min?_eq_some_iff, h.mem_iff]
  simp only [h.mem_iff]

theorem max?_perm {l l' : List F} (h : l.Perm l') : l.max? = l'.max? := by
  refine Option.ext fun a => ?_
  rw [List.max?_eq_some_iff, List.max?_eq_some_iff, h.mem_iff]
  simp only [h.mem_iff]

theorem summarize_perm {l l' : List F} (h : l.Perm l') : summarize floats l = summarize floats l' := by
  rw [summarize, summarize, min?_perm h, max?_perm h, median, median, OrderStatistics.ascending_eq_of_perm h,
    h.length_eq]

/-- the versions of a benchmark, each with its values sorted -/
def sorted (versions : Std.ExtTreeMap String (List F)) : Std.ExtTreeMap String (List F) :=
  versions.map fun _ values => ascending values

theorem rowOf_sorted (benchmark : String) (versions : Std.ExtTreeMap String (List F)) :
    rowOf floats benchmark (sorted versions) = rowOf floats benchmark versions := by
  have hsummarize : ∀ values : List F, summarize floats (ascending values) = summarize floats values := fun values =>
    summarize_perm (OrderStatistics.ascending_perm values)
  have hget : ∀ version : String, ((sorted versions)[version]?).bind (summarize floats) =
      (versions[version]?).bind (summarize floats) := by
    intro version
    rw [sorted, Std.ExtTreeMap.getElem?_map, Option.bind_map]
    exact congrArg (Option.bind _) (funext hsummarize)
  rw [rowOf, rowOf, hget, hget, hget, sorted, Std.ExtTreeMap.toList_map, List.all_map]
  simp only [Function.comp_def, hsummarize]

theorem printRows_sorted (l : List (String × Std.ExtTreeMap String (List F))) :
    printRows floats (l.map fun e => (e.1, sorted e.2)) = printRows floats l := by
  induction l with
  | nil => rfl
  | cons e l ih => rw [List.map_cons, printRows, printRows, ih, rowOf_sorted]

theorem report_sorted (results : Results F) :
    report floats (results.map fun _ versions => sorted versions) = report floats results := by
  rw [report, report, Std.ExtTreeMap.toList_map]
  exact printRows_sorted results.toList

/-- tables of the same entries in any order are printed alike -/
theorem report_perm {entries entries' : Recorded F} (h : entries.Perm entries') :
    report floats (table entries) = report floats (table entries') := by
  rw [← report_sorted, ← report_sorted (table entries')]
  refine congrArg (report floats) (Std.ExtTreeMap.ext_getElem? fun name => ?_)
  have hname := under_perm h name
  have hget : ∀ l : Recorded F, (table l)[name]? = if under name l = [] then none else some (collect (under name l)) :=
    fun l => tally_get push ∅ l name
  rw [Std.ExtTreeMap.getElem?_map, Std.ExtTreeMap.getElem?_map, hget, hget]
  by_cases hnil : under name entries = []
  · rw [hnil] at hname
    rw [if_pos hnil, if_pos hname.symm.eq_nil]
  · have hnil' : under name entries' ≠ [] := fun hnil' => hnil (by rw [hnil'] at hname; exact hname.eq_nil)
    rw [if_neg hnil, if_neg hnil', Option.map_some, Option.map_some]
    refine congrArg some (Std.ExtTreeMap.ext_getElem? fun label => ?_)
    have hlabel := under_perm hname label
    rw [sorted, sorted, Std.ExtTreeMap.getElem?_map, Std.ExtTreeMap.getElem?_map, collect_get, collect_get]
    by_cases hno : under label (under name entries) = []
    · rw [hno] at hlabel
      rw [if_pos hno, if_pos hlabel.symm.eq_nil]
    · have hno' : under label (under name entries') ≠ [] := fun hno' =>
        hno (by rw [hno'] at hlabel; exact hlabel.eq_nil)
      rw [if_neg hno, if_neg hno', Option.map_some, Option.map_some, OrderStatistics.ascending_eq_of_perm hlabel]

/-- no version of a benchmark is without a value -/
def Filled (versions : Std.ExtTreeMap String (List F)) : Prop :=
  ∀ (version : String) values, versions[version]? = some values → values ≠ []

/-- the versions of a row, in the order in which they are looked up -/
def printed : List String := ["beta13", "beta15", "beta18"]

/-- the first version that a benchmark lacks -/
def lacks (versions : Std.ExtTreeMap String (List F)) : Option String :=
  printed.find? fun version => ((versions[version]?).getD []).isEmpty

/-- a row of the summaries of some values -/
structure Row.Of (floats : Floats F) (values : String → List F) (row : Row F) : Prop where
  beta13 : summarize floats (values "beta13") = some row.beta13
  beta15 : summarize floats (values "beta15") = some row.beta15
  beta18 : summarize floats (values "beta18") = some row.beta18

theorem bind_summarize (floats : Floats F) (values : Option (List F)) :
    values.bind (summarize floats) = summarize floats (values.getD []) := by cases values <;> rfl

/-- a row is printed exactly for a complete benchmark -/
theorem rowOf_total (floats : Floats F) (benchmark : String) {versions : Std.ExtTreeMap String (List F)}
    (h : Filled versions) :
    (lacks versions = none ∧ ∃ row, rowOf floats benchmark versions = some (.ok row) ∧ row.benchmark = benchmark ∧
      row.Of floats fun version => (versions[version]?).getD []) ∨
      ∃ version, lacks versions = some version ∧ rowOf floats benchmark versions = some (.error version) := by
  have hall : (versions.toList.all fun entry => (summarize floats entry.2).isSome) = true := by
    rw [List.all_eq_true]
    intro e he
    have hget := Std.ExtTreeMap.mem_toList_iff_getElem?_eq_some.1 he
    exact Option.isSome_iff_exists.2 (summarize_some floats (h e.1 e.2 hget))
  have hsummary : ∀ values : List F, (values = [] ∧ summarize floats values = none) ∨
      ∃ s, values.isEmpty = false ∧ summarize floats values = some s := by
    intro values
    by_cases hnil : values = []
    · subst hnil
      exact Or.inl ⟨rfl, rfl⟩
    · obtain ⟨s, hs⟩ := summarize_some floats hnil
      exact Or.inr ⟨s, List.isEmpty_eq_false_iff.2 hnil, hs⟩
  unfold rowOf lacks printed
  rw [if_pos hall, bind_summarize, bind_summarize, bind_summarize, List.find?_cons, List.find?_cons, List.find?_cons]
  rcases hsummary ((versions["beta13"]?).getD []) with ⟨h13, hs13⟩ | ⟨s13, h13, hs13⟩
  · rw [hs13, h13]
    exact Or.inr ⟨_, rfl, rfl⟩
  rcases hsummary ((versions["beta15"]?).getD []) with ⟨h15, hs15⟩ | ⟨s15, h15, hs15⟩
  · rw [hs13, h13, hs15, h15]
    exact Or.inr ⟨_, rfl, rfl⟩
  rcases hsummary ((versions["beta18"]?).getD []) with ⟨h18, hs18⟩ | ⟨s18, h18, hs18⟩
  · rw [hs13, h13, hs15, h15, hs18, h18]
    exact Or.inr ⟨_, rfl, rfl⟩
  · rw [hs13, h13, hs15, h15, hs18, h18]
    exact Or.inl ⟨rfl, _, rfl, rfl, hs13, hs15, hs18⟩

/-- **Printing.** The rows are those of the benchmarks before the first that lacks a version. -/
theorem printRows_total (floats : Floats F) {l : List (String × Std.ExtTreeMap String (List F))}
    (h : ∀ e ∈ l, Filled e.2) {missing : String → Option String} (hmissing : ∀ e ∈ l, missing e.1 = lacks e.2) :
    ∃ rows stop, printRows floats l = some (rows, stop) ∧
      rows.map Row.benchmark = (l.map Prod.fst).takeWhile (fun name => (missing name).isNone) ∧
      stop = (l.map Prod.fst).findSome? missing ∧
      ∀ row ∈ rows, ∃ e ∈ l, row.benchmark = e.1 ∧ row.Of floats fun version => (e.2[version]?).getD [] := by
  induction l with
  | nil => exact ⟨[], none, rfl, rfl, rfl, by simp⟩
  | cons e l ih =>
    obtain ⟨rows, stop, hrows, hnames, hstop, hof⟩ := ih (fun e' he' => h e' (List.mem_cons_of_mem e he'))
      fun e' he' => hmissing e' (List.mem_cons_of_mem e he')
    have hfirst := hmissing e List.mem_cons_self
    rw [List.map_cons]
    rcases rowOf_total floats e.1 (h e List.mem_cons_self) with
      ⟨hlacks, row, hrow, hname, hrowOf⟩ | ⟨version, hlacks, hrow⟩
    · refine ⟨row :: rows, stop, ?_, ?_, ?_, ?_⟩
      · rw [printRows, hrow, Option.bind_eq_bind, Option.bind_some]
        dsimp only
        rw [hrows]
        rfl
      · rw [List.takeWhile_cons_of_pos (by rw [hfirst, hlacks]; rfl), List.map_cons, hname, hnames]
      · rw [List.findSome?_cons, hfirst, hlacks]
        exact hstop
      · intro row' hrow'
        rcases List.mem_cons.1 hrow' with rfl | hrow'
        · exact ⟨e, List.mem_cons_self, hname, hrowOf⟩
        · obtain ⟨e', he', hrest⟩ := hof row' hrow'
          exact ⟨e', List.mem_cons_of_mem e he', hrest⟩
    · refine ⟨[], some version, ?_, ?_, ?_, fun row hrow => by cases hrow⟩
      · rw [printRows, hrow]
        rfl
      · rw [List.takeWhile_cons_of_neg (by rw [hfirst, hlacks]; simp)]
        rfl
      · rw [List.findSome?_cons, hfirst, hlacks]

omit [LinearOrder F] in
theorem table_filled (entries : Recorded F) (name : String) (versions : Std.ExtTreeMap String (List F))
    (h : (table entries)[name]? = some versions) : Filled versions := by
  rw [table, tally_get] at h
  split_ifs at h with hnil
  intro version values hvalues
  rw [← Option.some.inj h] at hvalues
  change (collect (under name entries))[version]? = some values at hvalues
  rw [collect_get] at hvalues
  split_ifs at hvalues with hno
  rwa [← Option.some.inj hvalues]

/-- the first version without a value of a benchmark -/
def Results.missing (results : Results F) (name : String) : Option String :=
  printed.find? fun version => (results.values name version).isEmpty

omit [LinearOrder F] in
theorem missing_eq {results : Results F} {name : String} {versions : Std.ExtTreeMap String (List F)}
    (h : results[name]? = some versions) : results.missing name = lacks versions := by
  simp only [Results.missing, lacks, Results.values, h, Option.getD_some]

/-- **The report.** Whenever the arguments can be read, the report does not panic. Its rows are those of the benchmarks
before the first that lacks a version, in the order of their names, and of all benchmarks if none does; each row is the
summaries of its values, and the report stops with the first version that the first such benchmark lacks. Any order of
the same arguments prints the same report. -/
theorem report_total (floats : Floats F) (read : List Char → Except (List Char) (List Char))
    (arguments arguments' : List (List Char)) (hperm : arguments.Perm arguments') (results : Results F)
    (hresults : readArguments floats read arguments = .ok results) :
    (∃ rows stop, report floats results = some (rows, stop) ∧
      rows.map Row.benchmark = results.keys.takeWhile (fun name => (results.missing name).isNone) ∧
      stop = results.keys.findSome? results.missing ∧
      ∀ row ∈ rows, row.Of floats (results.values row.benchmark)) ∧
    ∃ results', readArguments floats read arguments' = .ok results' ∧
      report floats results' = report floats results := by
  obtain ⟨entries, hentries, rfl⟩ := readArguments_ok.1 hresults
  constructor
  · have hget : ∀ e ∈ (table entries.flatten).toList, (table entries.flatten)[e.1]? = some e.2 := fun e he =>
      Std.ExtTreeMap.mem_toList_iff_getElem?_eq_some.1 he
    obtain ⟨rows, stop, hrows, hnames, hstop, hof⟩ := printRows_total floats
      (l := (table entries.flatten).toList) (fun e he => table_filled _ e.1 e.2 (hget e he))
      fun e he => missing_eq (hget e he)
    rw [Std.ExtTreeMap.map_fst_toList_eq_keys] at hnames hstop
    refine ⟨rows, stop, hrows, hnames, hstop, fun row hrow => ?_⟩
    obtain ⟨e, he, hname, hrowOf⟩ := hof row hrow
    have hvalues : (table entries.flatten).values row.benchmark = fun version => (e.2[version]?).getD [] := by
      funext version
      rw [Results.values, hname, hget e he, Option.getD_some]
    rwa [hvalues]
  · obtain ⟨entries', hentries', hperm'⟩ := List.perm_comp_forall₂ hperm.symm hentries
    exact ⟨_, readArguments_ok.2 ⟨entries', hentries', rfl⟩, report_perm hperm'.flatten⟩

/-- the passes in order and backwards: the benchmark that was not measured in all versions stops the report -/
theorem report_total_passes : ∃ results results' rows,
    readArguments rationals readPass (passes.map File.argument) = .ok results ∧
      readArguments rationals readPass (passes.reverse.map File.argument) = .ok results' ∧
      report rationals results = some (rows, some "beta15") ∧ report rationals results' = some (rows, some "beta15") ∧
      rows.map Row.benchmark = ["moe_pgo/publish/arctic/12288"] ∧
      ∀ row ∈ rows, row.Of rationals (results.values row.benchmark) := by
  have hread : readArguments rationals readPass (passes.map File.argument) =
      .ok (table (passes.map (File.recorded rationals)).flatten) := by
    refine readArguments_ok.2 ⟨passes.map (File.recorded rationals), ?_, rfl⟩
    rw [List.forall₂_map_left_iff, List.forall₂_map_right_iff, List.forall₂_same]
    exact fun file hfile => (passes_valid file hfile).contributes
  have hperm : (passes.map File.argument).Perm (passes.reverse.map File.argument) :=
    (List.reverse_perm passes).symm.map File.argument
  obtain ⟨⟨rows, stop, hreport, hnames, hstop, hof⟩, results', hread', hsame⟩ :=
    report_total rationals readPass _ _ hperm _ hread
  have hmissing : stop = some "beta15" := hstop.trans (by decide +kernel)
  subst hmissing
  exact ⟨_, results', rows, hread, hread', hreport, hsame.trans hreport, hnames.trans (by decide +kernel), hof⟩

end Report

end WtBenchmarks.Criterion
