/-
The log reader of the Criterion summarizer (`src/bin/summarize-criterion-grid.rs`).

A text is a list of characters. The reader keeps the name of the last benchmark that was announced as analyzed; the next
time line takes it. Of 64-bit floats the program uses what `Floats` names; a file is read by `read`.

- `timeMedianNs_render`: a time line is read back as its middle bound;
- `scanLine_name`, `scanLine_time`, `scanLine_skip`: what a line of each kind does;
- `scanFile_render`: the rendered log of any benchmarks, with other output in between, is read back as exactly their
  names and middle bounds, in order.
-/
import WtBenchmarks.Core.Grouping
import WtBenchmarks.Core.Text
import WtBenchmarks.Core.Total
import WtBenchmarks.OpLatency.Scaling

namespace WtBenchmarks.Criterion

open Text
open OpLatency (isWhitespace trim)

/-! ## Model -/

inductive DurationUnit where
  | ps
  | ns
  | us
  | ms
  | s
deriving DecidableEq, Repr

/-- what the program uses of `f64` -/
structure Floats (F : Type) where
  parse : List Char → Option F
  /-- the constant that a unit scales by -/
  scale : DurationUnit → F
  mul : F → F → F
  add : F → F → F
  /-- division by the constant two -/
  half : F → F

inductive Error where
  | duration (value : List Char)
  | unknownUnit (unit : List Char)
  | malformed (line : List Char)
  | bounds (line : List Char)
  | orphan (path line : List Char)
  | argument (argument : List Char)
  | file (path error : List Char)
deriving DecidableEq

/-- the text of an error; `debug` is how `{:?}` prints a string -/
def Error.message (debug : List Char → List Char) : Error → List Char
  | .duration value => "bad duration ".toList ++ debug value
  | .unknownUnit unit => "unknown duration unit ".toList ++ debug unit
  | .malformed line => "malformed Criterion time line: ".toList ++ line
  | .bounds line => "expected three duration bounds: ".toList ++ line
  | .orphan path line => "time line without benchmark in ".toList ++ path ++ ": ".toList ++ line
  | .argument text => "expected LABEL:PATH, got ".toList ++ debug text
  | .file path error => path ++ ": ".toList ++ error

def unitOf (unit : List Char) : Option DurationUnit :=
  if unit = "ps".toList then some .ps
  else if unit = "ns".toList then some .ns
  else if unit = "µs".toList ∨ unit = "us".toList then some .us
  else if unit = "ms".toList then some .ms
  else if unit = "s".toList then some .s
  else none

/-- benchmarks, their labels, and the values in the order in which they were read -/
abbrev Results (F : Type) := Std.ExtTreeMap String (Std.ExtTreeMap String (List F))

/-- `results.entry(name).or_default().entry(label).or_default().push(value)` -/
def Results.record {F : Type} (results : Results F) (label name : String) (value : F) : Results F :=
  Grouping.entryOr Grouping.push ∅ results (name, (label, value))

/-- the state of the loop over the lines of a file -/
structure Scan (F : Type) where
  benchmark : Option String
  run : Std.ExtTreeMap String F
  results : Results F

def announcement : List Char := "Benchmarking ".toList

def analyzed : List Char := ": Analyzing".toList

def timeMark : List Char := "time:".toList

def benchmarkName (line : List Char) : Option (List Char) :=
  (stripPrefix announcement line).bind (stripSuffix analyzed)

section Reader

variable {F : Type} (floats : Floats F)

def durationNs (value unit : List Char) : Except Error F :=
  match floats.parse value with
  | none => .error (.duration value)
  | some value =>
    match unitOf unit with
    | none => .error (.unknownUnit unit)
    | some scale => .ok (floats.mul value (floats.scale scale))

def timeMedianNs (line : List Char) : Except Error (Option F) :=
  match splitOnce timeMark line with
  | none => .ok none
  | some (_, bracketed) =>
    if '%' ∈ bracketed then .ok none
    else
      match (stripPrefix ['['] (trim bracketed)).bind (stripSuffix [']']) with
      | none => .error (.malformed line)
      | some inner =>
        match fields isWhitespace inner with
        | [_, _, value, unit, _, _] => (durationNs floats value unit).map some
        | _ => .error (.bounds line)

def scanLine (label : String) (path : List Char) (scan : Scan F) (line : List Char) : Except Error (Scan F) :=
  match benchmarkName line with
  | some name => .ok { scan with benchmark := some (String.ofList name) }
  | none => do
    match ← timeMedianNs floats line with
    | none => .ok scan
    | some value =>
      match scan.benchmark with
      | none => .error (.orphan path line)
      | some name => .ok ⟨none, scan.run.insert name value, scan.results.record label name value⟩

def scanFile (label : String) (path : List Char) (results : Results F) (contents : List Char) :
    Except Error (Scan F) :=
  (lines '\n' '\r' contents).foldlM (scanLine floats label path) ⟨none, ∅, results⟩

def backends : List String := ["arctic", "congee", "worktables_index"]

/-- the publish and the retire time of a file together, where it has both -/
def totalOf (run : Std.ExtTreeMap String F) (backend : String) : Option F := do
  let publish ← run[s!"moe_pgo/publish/{backend}/12288"]?
  let retire ← run[s!"moe_pgo/retire/{backend}/12288"]?
  pure (floats.add publish retire)

def addTotals (label : String) (scan : Scan F) : Results F :=
  backends.foldl (fun results backend =>
    match totalOf floats scan.run backend with
    | none => results
    | some total => results.record label s!"moe_pgo/publish_plus_retire/{backend}/12288" total) scan.results

def readArgument (read : List Char → Except (List Char) (List Char)) (results : Results F) (argument : List Char) :
    Except Error (Results F) :=
  match splitOnce [':'] argument with
  | none => .error (.argument argument)
  | some (label, path) =>
    match read path with
    | .error error => .error (.file path error)
    | .ok contents =>
      (scanFile floats (String.ofList label) path results contents).map (addTotals floats (String.ofList label))

/-- the table of `main`, before it is printed -/
def readArguments (read : List Char → Except (List Char) (List Char)) (arguments : List (List Char)) :
    Except Error (Results F) := arguments.foldlM (readArgument floats read) ∅

end Reader

/-! ## Logs -/

/-- the three bounds of a time line, as they are printed -/
structure Bounds where
  low : List Char
  lowUnit : List Char
  middle : List Char
  middleUnit : List Char
  high : List Char
  highUnit : List Char

def Bounds.fields (b : Bounds) : List (List Char) := [b.low, b.lowUnit, b.middle, b.middleUnit, b.high, b.highUnit]

def Bounds.render (b : Bounds) : List Char := ['['] ++ [' '].intercalate b.fields ++ [']']

/-- what a benchmark prints: other output, the announcement, other output, and its time line -/
structure Entry where
  before : List (List Char)
  name : List Char
  between : List (List Char)
  /-- the time line up to `time:` -/
  head : List Char
  /-- the blanks between `time:` and the bounds -/
  gap : List Char
  bounds : Bounds

def Entry.analyzing (e : Entry) : List Char := announcement ++ e.name ++ analyzed

def Entry.timeLine (e : Entry) : List Char := e.head ++ timeMark ++ (e.gap ++ e.bounds.render)

def Entry.lines (e : Entry) : List (List Char) := e.before ++ [e.analyzing] ++ e.between ++ [e.timeLine]

/-- a log: the output of some benchmarks, and what comes after them -/
def render (entries : List Entry) (after : List (List Char)) : List Char :=
  (entries.flatMap Entry.lines ++ after).flatMap fun line => line ++ ['\n']

section Valid

variable {F : Type} (floats : Floats F)

/-- other output: neither an announcement nor a duration -/
structure Other (line : List Char) : Prop where
  isLine : IsLine '\n' '\r' line
  notName : benchmarkName line = none
  notTime : timeMedianNs floats line = .ok none

structure Bounds.Valid (b : Bounds) (value : F) : Prop where
  isField : ∀ field ∈ b.fields, IsField isWhitespace field
  noPercent : ∀ field ∈ b.fields, '%' ∉ field
  duration : durationNs floats b.middle b.middleUnit = .ok value

/-- an entry that is printed as Criterion prints it -/
structure Entry.Valid (e : Entry) (value : F) : Prop where
  before : ∀ line ∈ e.before, Other floats line
  between : ∀ line ∈ e.between, Other floats line
  name : '\n' ∉ e.name
  headLine : '\n' ∉ e.head
  headTime : ¬ timeMark <:+: e.head
  gap : ∀ c ∈ e.gap, c = ' '
  bounds : e.bounds.Valid floats value

end Valid

/-! ## Lines -/

section Lines

variable {F : Type} {floats : Floats F}

theorem blank_space : isWhitespace ' ' = true := by decide

/-- blanks before the bounds are trimmed -/
theorem trim_gap {gap inner : List Char} (hgap : ∀ c ∈ gap, c = ' ') :
    trim (gap ++ (['['] ++ inner ++ [']'])) = ['['] ++ inner ++ [']'] := by
  have hopen : ¬ isWhitespace '[' = true := by decide
  have hclose : ¬ isWhitespace ']' = true := by decide
  have hdrop : (gap ++ (['['] ++ inner ++ [']'])).dropWhile isWhitespace = ['['] ++ inner ++ [']'] := by
    rw [List.dropWhile_append_of_pos fun c hc => by rw [hgap c hc]; exact blank_space]
    exact List.dropWhile_cons_of_neg hopen
  rw [trim, hdrop, List.rdropWhile_concat_neg _ _ _ hclose]

theorem Bounds.Valid.render_noPercent {b : Bounds} {value : F} (h : b.Valid floats value) : '%' ∉ b.render := by
  intro hmem
  rw [Bounds.render, List.mem_append, List.mem_append, List.mem_singleton, List.mem_singleton] at hmem
  rcases hmem with (hmem | hmem) | hmem
  · exact absurd hmem (by decide)
  · rcases mem_intercalate hmem with hmem | ⟨field, hfield, hmem⟩
    · exact absurd hmem (by decide)
    · exact h.noPercent field hfield hmem
  · exact absurd hmem (by decide)

/-- **A time line** is read back as its middle bound. -/
theorem timeMedianNs_render {head gap : List Char} {b : Bounds} {value : F} (hhead : ¬ timeMark <:+: head)
    (hgap : ∀ c ∈ gap, c = ' ') (h : b.Valid floats value) :
    timeMedianNs floats (head ++ timeMark ++ (gap ++ b.render)) = .ok (some value) := by
  have hpercent : '%' ∉ gap ++ b.render := by
    rw [List.mem_append, not_or]
    exact ⟨fun hmem => absurd (hgap _ hmem) (by decide), h.render_noPercent⟩
  have hinner : (stripPrefix ['['] (trim (gap ++ b.render))).bind (stripSuffix [']']) =
      some ([' '].intercalate b.fields) := by
    rw [Bounds.render, trim_gap hgap, List.append_assoc, stripPrefix_append, Option.bind_some, stripSuffix_append]
  rw [timeMedianNs, splitOnce_append (by decide +kernel) (by decide +kernel) hhead]
  dsimp only
  rw [if_neg hpercent, hinner]
  dsimp only
  rw [fields_intercalate blank_space h.isField]
  exact congrArg (Except.map some) h.duration

/-- an announcement ends as one -/
theorem suffix_of_benchmarkName {line name : List Char} (h : benchmarkName line = some name) :
    analyzed <:+ line := by
  obtain ⟨rest, hrest, h⟩ := Option.bind_eq_some_iff.1 h
  unfold stripPrefix at hrest
  unfold stripSuffix at h
  split_ifs at hrest h with hpre hsuf
  cases hrest
  exact hsuf.trans (List.drop_suffix _ _)

theorem benchmarkName_analyzing (e : Entry) : benchmarkName e.analyzing = some e.name := by
  rw [benchmarkName, Entry.analyzing, List.append_assoc, stripPrefix_append, Option.bind_some, stripSuffix_append]

/-- a time line is no announcement -/
theorem benchmarkName_timeLine (e : Entry) : benchmarkName e.timeLine = none := by
  refine Option.eq_none_iff_forall_ne_some.2 fun name hname => ?_
  obtain ⟨rest, hrest⟩ := suffix_of_benchmarkName hname
  have hlast := congrArg List.getLast? hrest
  rw [Entry.timeLine, Bounds.render, ← List.append_assoc, ← List.append_assoc, ← List.append_assoc,
    List.getLast?_concat, List.getLast?_append, show analyzed.getLast? = some 'g' from rfl] at hlast
  cases hlast

variable {label : String} {path : List Char} {scan : Scan F} {line : List Char}

theorem scanLine_name {name : List Char} (h : benchmarkName line = some name) :
    scanLine floats label path scan line = .ok { scan with benchmark := some (String.ofList name) } := by
  rw [scanLine, h]

theorem scanLine_skip (h : Other floats line) : scanLine floats label path scan line = .ok scan := by
  rw [scanLine, h.notName]
  dsimp only
  rw [h.notTime]
  rfl

theorem scanLine_time {name : String} {value : F} (hline : benchmarkName line = none)
    (htime : timeMedianNs floats line = .ok (some value)) (hscan : scan.benchmark = some name) :
    scanLine floats label path scan line =
      .ok ⟨none, scan.run.insert name value, scan.results.record label name value⟩ := by
  rw [scanLine, hline]
  dsimp only
  rw [htime, ok_bind]
  dsimp only
  rw [hscan]

theorem scan_skips {ls : List (List Char)} (h : ∀ l ∈ ls, Other floats l) :
    ls.foldlM (scanLine floats label path) scan = .ok scan := by
  induction ls with
  | nil => rfl
  | cons l ls ih =>
    rw [List.foldlM_cons, scanLine_skip (h l List.mem_cons_self), ok_bind]
    exact ih fun l' hl' => h l' (List.mem_cons_of_mem l hl')

/-! ## Files -/

/-- what one reading does to the state -/
def Scan.read (label : String) (scan : Scan F) (reading : String × F) : Scan F :=
  ⟨none, scan.run.insert reading.1 reading.2, scan.results.record label reading.1 reading.2⟩

theorem scan_entry {e : Entry} {value : F} (h : e.Valid floats value) :
    e.lines.foldlM (scanLine floats label path) scan = .ok (scan.read label (String.ofList e.name, value)) := by
  have htime := timeMedianNs_render h.headTime h.gap h.bounds
  rw [Entry.lines, List.foldlM_append, List.foldlM_append, List.foldlM_append, scan_skips h.before, ok_bind,
    List.foldlM_cons, scanLine_name (benchmarkName_analyzing e), ok_bind, List.foldlM_nil]
  change (List.foldlM _ _ e.between >>= _) = _
  rw [scan_skips h.between, ok_bind, List.foldlM_cons, scanLine_time (benchmarkName_timeLine e) htime rfl]
  rfl

/-- the names and values of a log -/
def readings (entries : List Entry) (values : List F) : List (String × F) :=
  List.zipWith (fun e value => (String.ofList e.name, value)) entries values

theorem scan_entries {entries : List Entry} {values : List F} (h : List.Forall₂ (Entry.Valid floats) entries values) :
    (entries.flatMap Entry.lines).foldlM (scanLine floats label path) scan =
      .ok ((readings entries values).foldl (Scan.read label) scan) := by
  induction h generalizing scan with
  | nil => rfl
  | cons he _ ih =>
    rw [List.flatMap_cons, List.foldlM_append, scan_entry he, ok_bind, ih]
    rfl

theorem analyzing_isLine {e : Entry} (h : '\n' ∉ e.name) : IsLine '\n' '\r' e.analyzing where
  noBreak := by
    rw [Entry.analyzing, List.mem_append, List.mem_append, not_or, not_or]
    exact ⟨⟨by decide +kernel, h⟩, by decide +kernel⟩
  noReturn := by
    rintro ⟨rest, hrest⟩
    have hlast := congrArg List.getLast? hrest
    rw [Entry.analyzing, List.getLast?_concat, List.getLast?_append,
      show analyzed.getLast? = some 'g' from rfl] at hlast
    cases hlast

theorem timeLine_isLine {e : Entry} {value : F} (h : e.Valid floats value) : IsLine '\n' '\r' e.timeLine where
  noBreak := by
    have hbounds : '\n' ∉ [' '].intercalate e.bounds.fields := by
      intro hmem
      rcases mem_intercalate hmem with hmem | ⟨field, hfield, hmem⟩
      · exact absurd hmem (by decide)
      · exact absurd ((h.bounds.isField field hfield).solid _ hmem) (by decide)
    simp only [Entry.timeLine, Bounds.render, List.mem_append, not_or]
    exact ⟨⟨h.headLine, by decide +kernel⟩, fun hmem => absurd (h.gap _ hmem) (by decide), ⟨by decide, hbounds⟩,
      by decide⟩
  noReturn := by
    rintro ⟨rest, hrest⟩
    have hlast := congrArg List.getLast? hrest
    rw [Entry.timeLine, Bounds.render, List.getLast?_concat, ← List.append_assoc, ← List.append_assoc,
      ← List.append_assoc, List.getLast?_concat] at hlast
    cases hlast

theorem exists_valid {entries : List Entry} {values : List F} (h : List.Forall₂ (Entry.Valid floats) entries values)
    {e : Entry} (he : e ∈ entries) : ∃ value, e.Valid floats value := by
  induction h with
  | nil => cases he
  | cons hvalid _ ih =>
    rcases List.mem_cons.1 he with rfl | he
    · exact ⟨_, hvalid⟩
    · exact ih he

theorem lines_isLine {entries : List Entry} {values : List F} (h : List.Forall₂ (Entry.Valid floats) entries values)
    {after : List (List Char)} (hafter : ∀ line ∈ after, Other floats line) :
    ∀ line ∈ entries.flatMap Entry.lines ++ after, IsLine '\n' '\r' line := by
  intro line hline
  rcases List.mem_append.1 hline with hline | hline
  · obtain ⟨e, he, hline⟩ := List.mem_flatMap.1 hline
    obtain ⟨value, hvalid⟩ := exists_valid h he
    simp only [Entry.lines, List.mem_append, List.mem_singleton] at hline
    rcases hline with ((hline | rfl) | hline) | rfl
    · exact (hvalid.before line hline).isLine
    · exact analyzing_isLine hvalid.name
    · exact (hvalid.between line hline).isLine
    · exact timeLine_isLine hvalid
  · exact (hafter line hline).isLine

/-- **A log is read back.** -/
theorem scanFile_render {entries : List Entry} {values : List F} (h : List.Forall₂ (Entry.Valid floats) entries values)
    {after : List (List Char)} (hafter : ∀ line ∈ after, Other floats line) (results : Results F) :
    scanFile floats label path results (render entries after) =
      .ok ((readings entries values).foldl (Scan.read label) ⟨none, ∅, results⟩) := by
  rw [scanFile, render, lines_render (lines_isLine h hafter), List.foldlM_append, scan_entries h, ok_bind,
    scan_skips hafter]

end Lines

end WtBenchmarks.Criterion
