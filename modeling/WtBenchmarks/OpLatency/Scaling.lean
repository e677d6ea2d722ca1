/-
The insert-scaling sweep of the latency benchmark (`src/op_latency.rs`, `src/bin/op-latency-worktable.rs`). Each arm
deals the ids of its rows to a number of writers, who insert them side by side, and reports rates over the rows it was
asked for.

The share of a writer is an integer quotient, so the remainder is dealt to nobody. A refused insert is dropped; an
overflow stops the writer's thread. A run ends when every writer has finished, whatever the schedule. Times are given,
and positive.

- `dealt_iff`: the ids dealt to the writers are the multiples of their number's share;
- `scalingRun_ok`: in every interleaving, a finished run has inserted the ids dealt;
- `insertsWhatItReports_iff`: for which arms that is what is reported.
-/
import Mathlib.Data.List.DropRight
import WtBenchmarks.Core.Threads
import WtBenchmarks.Core.Total
import WtBenchmarks.Core.UniqueTable
import WtBenchmarks.Core.Word

namespace WtBenchmarks.OpLatency

/-! ## Configuration -/

structure LatencyConfig where
  operations : UInt64
  sweep : List UInt64
  scalingRows : UInt64
  repetitions : UInt64
  diskDir : String
  memoryOnly : Bool
deriving DecidableEq, Repr

def LatencyConfig.default : LatencyConfig :=
  ⟨50000, [1, 2, 4, 8, 16], 200000, 3, "/tmp/wt-bench-op-latency", false⟩

/-- the help text was asked for, or the arguments are wrong -/
inductive Stop where
  | help
  | message (text : String)
deriving DecidableEq, Repr

/-- `str::parse::<u64>` -/
def parseU64 (chars : List Char) : Option UInt64 :=
  let digits := if chars.head? = some '+' then chars.tail else chars
  if digits = [] ∨ digits.any fun c => !c.isDigit then none
  else
    let n := Nat.ofDigitChars 10 digits 0
    if n < 2 ^ 64 then some (UInt64.ofNat n) else none

/-- the white space that `str::trim` removes -/
def isWhitespace (c : Char) : Bool :=
  (9 ≤ c.toNat && c.toNat ≤ 13) || (0x2000 ≤ c.toNat && c.toNat ≤ 0x200A) ||
    [0x20, 0x85, 0xA0, 0x1680, 0x2028, 0x2029, 0x202F, 0x205F, 0x3000].contains c.toNat

def trim (chars : List Char) : List Char := (chars.dropWhile isWhitespace).rdropWhile isWhitespace

def parse (flag value : String) : Except Stop UInt64 :=
  match parseU64 value.toList with
  | some n => .ok n
  | none => .error (.message (flag ++ " needs a number"))

/-- `debug` is how `{:?}` prints a string -/
def parseSweep (debug : String → String) (raw : String) : Except Stop (List UInt64) :=
  (raw.toList.splitOn ',').mapM fun part =>
    match parseU64 (trim part) with
    | some n => .ok n
    | none => .error (.message ("bad --sweep value " ++ debug raw))

/-- the flags with a value -/
def LatencyConfig.set (debug : String → String) (config : LatencyConfig) (flag value : String) :
    Except Stop LatencyConfig :=
  if flag = "--operations" then (parse flag value).map fun n => { config with operations := n }
  else if flag = "--scaling-rows" then (parse flag value).map fun n => { config with scalingRows := n }
  else if flag = "--repetitions" then (parse flag value).map fun n => { config with repetitions := n }
  else if flag = "--disk-dir" then .ok { config with diskDir := value }
  else (parseSweep debug value).map fun sweep => { config with sweep }

def valueFlags : List String := ["--operations", "--scaling-rows", "--repetitions", "--disk-dir", "--sweep"]

def LatencyConfig.parseArgs (debug : String → String) (config : LatencyConfig) :
    List String → Except Stop LatencyConfig
  | [] =>
    if config.sweep = [] then .error (.message "--sweep needs at least one writer count") else .ok config
  | flag :: args =>
    if flag = "--help" ∨ flag = "-h" then .error .help
    else if flag = "--memory-only" then parseArgs debug { config with memoryOnly := true } args
    else if flag ∉ valueFlags then .error (.message ("unknown flag " ++ flag))
    else
      match args with
      | [] => .error (.message (flag ++ " needs a value"))
      | value :: args =>
        match config.set debug flag value with
        | .error stop => .error stop
        | .ok config => parseArgs debug config args

def LatencyConfig.fromArgs (debug : String → String) (args : List String) : Except Stop LatencyConfig :=
  LatencyConfig.default.parseArgs debug args

/-! ## An arm of the sweep -/

structure LatRow where
  id : UInt64
  payload : UInt64
  bucket : UInt32
deriving DecidableEq, Repr

abbrev LatTable := UniqueTable UInt64 UInt64 LatRow LatRow.payload

def row (id payloadBase : UInt64) : Option LatRow := do
  let payload ← checkedAdd payloadBase id
  some ⟨id, payload, (id % 16).toUInt32⟩

/-- the range of a writer, from and up to; the products do not overflow (`lo_toNat`) -/
def lo (per : UInt64) (w : ℕ) : UInt64 := UInt64.ofNat w * per

def hi (per : UInt64) (w : ℕ) : UInt64 := (UInt64.ofNat w + 1) * per

/-- a writer inserts its next id -/
def writerStep {n : ℕ} (per : UInt64) (w : Fin n) (table : LatTable) (next : UInt64) : Option (LatTable × UInt64) :=
  if next < hi per w then do
    let r ← row next 1000000
    some ((table.insert r.id r).getD table, next + 1)
  else none

def start (n : ℕ) (per : UInt64) : Threads.State (Fin n) LatTable UInt64 :=
  ⟨UniqueTable.empty LatRow.payload, fun w => lo per w⟩

/-- an interleaving of the writers, and how long it took -/
structure Run (writers : UInt64) where
  sched : List (Fin writers.toNat)
  elapsedNs : ℕ
  elapsed_pos : 0 < elapsedNs
  elapsed_lt : elapsedNs < 2 ^ 128

inductive Fault where
  | divisionByZero
  /-- a writer has panicked, or has not finished -/
  | unfinished
deriving DecidableEq, Repr

def divide (a b : UInt64) : Except Fault UInt64 := if b = 0 then .error .divisionByZero else .ok (a / b)

/-- one repetition -/
def scalingRun (scalingRows writers : UInt64) (run : Run writers) : Except Fault LatTable := do
  let per ← divide scalingRows writers
  let s := Threads.run (writerStep per) (start writers.toNat per) run.sched
  if ∀ w : Fin writers.toNat, hi per w ≤ s.locals w then .ok s.shared else .error .unfinished

structure ScalingResult where
  schemaVersion : UInt32
  suite : String
  engine : String
  mode : String
  writers : UInt64
  rows : UInt64
  repetitions : UInt64
  elapsedNs : ℕ
  opsPerSecond : Float
  nsPerInsert : Float
  relativeToSingleWriter : Float

def emitScaling (writers rows repetitions : UInt64) (elapsedNs : ℕ) (singleWriterRate : Float) : ScalingResult :=
  let rate := rows.toFloat / (Float.ofNat elapsedNs / 1000000000.0)
  ⟨1, "insert-scaling", "worktable", "memory", writers, rows, repetitions, elapsedNs, rate,
    Float.ofNat elapsedNs / rows.toFloat, if singleWriterRate > 0.0 then rate / singleWriterRate else 1.0⟩

/-- the fastest repetition, from `u128::MAX` down -/
def bestNs {writers : UInt64} (runs : List (Run writers)) : ℕ :=
  runs.foldl (fun best run => min best run.elapsedNs) (2 ^ 128 - 1)

/-- the tables of the repetitions, and the line of the arm -/
def scalingArm (config : LatencyConfig) (writers : UInt64) (runs : List (Run writers)) (singleWriterRate : Float) :
    Except Fault (List LatTable × ScalingResult) := do
  let tables ← runs.mapM (scalingRun config.scalingRows writers)
  .ok (tables, emitScaling writers config.scalingRows config.repetitions (bestNs runs) singleWriterRate)

/-! ## The ranges -/

section Ranges

variable {scalingRows writers : UInt64} {w : ℕ}

/-- the range of a writer -/
def Dealt (per : UInt64) (w : ℕ) (id : UInt64) : Prop := lo per w ≤ id ∧ id < hi per w

theorem share_le (scalingRows : UInt64) (hw : w ≤ writers.toNat) :
    w * (scalingRows / writers).toNat ≤ scalingRows.toNat := by
  rw [UInt64.toNat_div]
  exact (Nat.mul_le_mul_right _ hw).trans (Nat.mul_div_le _ _)

theorem lo_toNat (scalingRows : UInt64) (hw : w < writers.toNat) :
    (lo (scalingRows / writers) w).toNat = w * (scalingRows / writers).toNat := by
  have hword : (UInt64.ofNat w).toNat = w := ofNat_toNat_of_lt (hw.trans writers.toNat_lt)
  have hle := share_le scalingRows hw.le
  have hlt := scalingRows.toNat_lt
  rw [lo, toNat_mul_of_lt (by rw [hword]; omega), hword]

theorem hi_toNat (scalingRows : UInt64) (hw : w < writers.toNat) :
    (hi (scalingRows / writers) w).toNat = (w + 1) * (scalingRows / writers).toNat := by
  have hword : (UInt64.ofNat w).toNat = w := ofNat_toNat_of_lt (hw.trans writers.toNat_lt)
  have hsucc : (UInt64.ofNat w + 1).toNat = w + 1 := by
    rw [toNat_add_of_lt (by rw [hword, UInt64.toNat_one]; have := writers.toNat_lt; omega), hword, UInt64.toNat_one]
  have hle : (w + 1) * (scalingRows / writers).toNat ≤ scalingRows.toNat := share_le scalingRows hw
  have hlt := scalingRows.toNat_lt
  rw [hi, toNat_mul_of_lt (by rw [hsucc]; omega), hsucc]

theorem dealt_toNat (scalingRows : UInt64) (hw : w < writers.toNat) {id : UInt64} :
    Dealt (scalingRows / writers) w id ↔ w * (scalingRows / writers).toNat ≤ id.toNat ∧
      id.toNat < (w + 1) * (scalingRows / writers).toNat := by
  rw [Dealt, UInt64.le_iff_toNat_le, UInt64.lt_iff_toNat_lt, lo_toNat scalingRows hw, hi_toNat scalingRows hw]

/-- the ranges of two writers -/
theorem dealt_inj {v : ℕ} (hv : v < writers.toNat) (hw : w < writers.toNat) {id : UInt64}
    (h : Dealt (scalingRows / writers) v id) (h' : Dealt (scalingRows / writers) w id) : v = w := by
  rw [dealt_toNat scalingRows hv] at h
  rw [dealt_toNat scalingRows hw] at h'
  have hbefore : ∀ a b : ℕ, a < b → (a + 1) * (scalingRows / writers).toNat ≤ b * (scalingRows / writers).toNat :=
    fun a b hab => Nat.mul_le_mul_right _ hab
  rcases Nat.lt_trichotomy v w with hlt | heq | hlt
  · have := hbefore v w hlt
    omega
  · exact heq
  · have := hbefore w v hlt
    omega

/-- **The ids dealt** are those below the writers' shares. -/
theorem dealt_iff {id : UInt64} : (∃ w : Fin writers.toNat, Dealt (scalingRows / writers) w id) ↔
    id.toNat < writers.toNat * (scalingRows / writers).toNat := by
  constructor
  · intro h
    obtain ⟨w, hw⟩ := h
    rw [dealt_toNat scalingRows w.isLt] at hw
    exact hw.2.trans_le (Nat.mul_le_mul_right _ w.isLt)
  · intro h
    have hpos : 0 < (scalingRows / writers).toNat := Nat.pos_of_ne_zero fun hzero => by rw [hzero] at h; omega
    have hw : id.toNat / (scalingRows / writers).toNat < writers.toNat := Nat.div_lt_of_lt_mul (by rwa [mul_comm])
    refine ⟨⟨_, hw⟩, (dealt_toNat scalingRows hw).2 ⟨Nat.div_mul_le_self _ _, ?_⟩⟩
    rw [mul_comm]
    exact Nat.lt_mul_div_succ _ hpos

end Ranges

/-! ## Every interleaving -/

section Runs

variable {scalingRows writers : UInt64}

theorem row_some {id : UInt64} {r : LatRow} (h : row id 1000000 = some r) :
    r.id = id ∧ r.payload.toNat = 1000000 + id.toNat := by
  unfold row at h
  obtain ⟨payload, hpayload, hr⟩ := Option.bind_eq_some_iff.1 h
  cases hr
  exact ⟨rfl, checkedAdd_toNat hpayload⟩

/-- some writer has passed the id -/
def Passed (next : Fin writers.toNat → UInt64) (scalingRows id : UInt64) : Prop :=
  ∃ w : Fin writers.toNat, lo (scalingRows / writers) w ≤ id ∧ id < next w

/-- the table holds the rows of the ids that the writers have passed -/
structure Progress (scalingRows writers : UInt64) (s : Threads.State (Fin writers.toNat) LatTable UInt64) : Prop where
  lower : ∀ w : Fin writers.toNat, lo (scalingRows / writers) w ≤ s.locals w
  upper : ∀ w : Fin writers.toNat, s.locals w ≤ hi (scalingRows / writers) w
  passed : ∀ id, Passed s.locals scalingRows id → id ∈ s.shared.rows
  rows : ∀ (id : UInt64) r, s.shared.rows[id]? = some r → row id 1000000 = some r ∧ Passed s.locals scalingRows id

theorem start_progress : Progress scalingRows writers (start writers.toNat (scalingRows / writers)) := by
  refine ⟨fun w => UInt64.le_refl _, fun w => ?_, fun id h => ?_, fun id r hr => ?_⟩
  · rw [UInt64.le_iff_toNat_le, start, lo_toNat scalingRows w.isLt, hi_toNat scalingRows w.isLt]
    exact Nat.mul_le_mul_right _ (Nat.le_succ _)
  · obtain ⟨w, hle, hlt⟩ := h
    exact absurd hlt (UInt64.not_lt.2 hle)
  · simp [start, UniqueTable.empty] at hr

/-- an id that has been passed was dealt to the writer who passed it -/
theorem Progress.dealt {s : Threads.State (Fin writers.toNat) LatTable UInt64} (h : Progress scalingRows writers s)
    {w : Fin writers.toNat} {id : UInt64} (hlo : lo (scalingRows / writers) w ≤ id) (hlt : id < s.locals w) :
    Dealt (scalingRows / writers) w id := ⟨hlo, UInt64.lt_of_lt_of_le hlt (h.upper w)⟩

/-- a writer that moves on passes one id -/
theorem passed_update {next : Fin writers.toNat → UInt64} {w : Fin writers.toNat}
    (hlo : lo (scalingRows / writers) w ≤ next w) (hnext : (next w + 1).toNat = (next w).toNat + 1) (id : UInt64) :
    Passed (Function.update next w (next w + 1)) scalingRows id ↔ id = next w ∨ Passed next scalingRows id := by
  have hsucc : id < next w + 1 ↔ id = next w ∨ id < next w := by
    rw [UInt64.lt_iff_toNat_lt, UInt64.lt_iff_toNat_lt, ← UInt64.toNat_inj, hnext]
    omega
  constructor
  · intro h
    obtain ⟨v, hv, hlt⟩ := h
    by_cases hvw : v = w
    · subst hvw
      rw [Function.update_self, hsucc] at hlt
      exact hlt.imp_right fun hlt => ⟨v, hv, hlt⟩
    · rw [Function.update_of_ne hvw] at hlt
      exact Or.inr ⟨v, hv, hlt⟩
  · intro h
    rcases h with rfl | ⟨v, hv, hlt⟩
    · exact ⟨w, hlo, by rw [Function.update_self]; exact hsucc.2 (Or.inl rfl)⟩
    · by_cases hvw : v = w
      · subst hvw
        exact ⟨v, hv, by rw [Function.update_self]; exact hsucc.2 (Or.inr hlt)⟩
      · exact ⟨v, hv, by rwa [Function.update_of_ne hvw]⟩

/-- **One step** of a writer. -/
theorem step_progress {s : Threads.State (Fin writers.toNat) LatTable UInt64} (h : Progress scalingRows writers s)
    {w : Fin writers.toNat} {table : LatTable} {next : UInt64}
    (hstep : writerStep (scalingRows / writers) w s.shared (s.locals w) = some (table, next)) :
    Progress scalingRows writers ⟨table, Function.update s.locals w next⟩ := by
  unfold writerStep at hstep
  split_ifs at hstep with hlt
  obtain ⟨r, hr, hsome⟩ := Option.bind_eq_some_iff.1 hstep
  cases hsome
  obtain ⟨hid, hpayload⟩ := row_some hr
  have hnext : (s.locals w + 1).toNat = (s.locals w).toNat + 1 := by
    rw [UInt64.lt_iff_toNat_lt] at hlt
    have hbound := (hi (scalingRows / writers) w).toNat_lt
    exact toNat_add_of_lt (by rw [UInt64.toNat_one]; omega)
  have hpassed := passed_update (h.lower w) hnext
  have hfresh : ¬ Passed s.locals scalingRows (s.locals w) := by
    intro hpassed
    obtain ⟨v, hlo, hltv⟩ := hpassed
    have hvw := dealt_inj v.isLt w.isLt (h.dealt hlo hltv) ⟨h.lower w, hlt⟩
    rw [Fin.ext hvw] at hltv
    exact UInt64.lt_irrefl _ hltv
  have hkey : r.id ∉ s.shared.rows := by
    rw [hid, TreeMap.mem_iff_get]
    intro hmem
    obtain ⟨r', hr'⟩ := hmem
    exact hfresh (h.rows _ r' hr').2
  have hfree : ∀ (k : UInt64) r', s.shared.rows[k]? = some r' → r'.payload ≠ r.payload := by
    intro k r' hr' heq
    obtain ⟨hrow, hpassed⟩ := h.rows k r' hr'
    have hval := (row_some hrow).2
    rw [heq, hpayload] at hval
    rw [← UInt64.toNat_inj.1 (Nat.add_left_cancel hval)] at hpassed
    exact hfresh hpassed
  obtain ⟨table, htable, hrows⟩ := UniqueTable.insert_some hkey hfree
  rw [htable, Option.getD_some]
  rw [hid] at hrows
  have hlocal : ∀ v : Fin writers.toNat, lo (scalingRows / writers) v ≤ Function.update s.locals w (s.locals w + 1) v ∧
      Function.update s.locals w (s.locals w + 1) v ≤ hi (scalingRows / writers) v := by
    intro v
    by_cases hvw : v = w
    · subst hvw
      have hlower := h.lower v
      rw [UInt64.le_iff_toNat_le] at hlower
      rw [UInt64.lt_iff_toNat_lt] at hlt
      rw [Function.update_self, UInt64.le_iff_toNat_le, UInt64.le_iff_toNat_le, hnext]
      omega
    · rw [Function.update_of_ne hvw]
      exact ⟨h.lower v, h.upper v⟩
  refine ⟨fun v => (hlocal v).1, fun v => (hlocal v).2, fun id hid => ?_, fun id r' hr' => ?_⟩
  · rw [hrows, TreeMap.mem_insert]
    exact ((hpassed id).1 hid).imp Eq.symm (h.passed id)
  · rw [hrows, TreeMap.get_insert] at hr'
    split_ifs at hr' with hk
    · cases hr'
      subst hk
      exact ⟨hr, (hpassed _).2 (Or.inl rfl)⟩
    · obtain ⟨hrow, hold⟩ := h.rows id r' hr'
      exact ⟨hrow, (hpassed id).2 (Or.inr hold)⟩

/-- **A finished run** has inserted the ids dealt, in whatever order the writers took their steps. -/
theorem scalingRun_ok {run : Run writers} {table : LatTable} (h : scalingRun scalingRows writers run = .ok table) :
    (∀ id : UInt64, id ∈ table.rows ↔ id.toNat < writers.toNat * (scalingRows / writers).toNat) ∧
      table.rows.size = writers.toNat * (scalingRows / writers).toNat := by
  unfold scalingRun divide at h
  split_ifs at h with hzero
  · cases h
  · rw [ok_bind] at h
    dsimp only at h
    split_ifs at h with hfinished
    cases h
    have hprogress := Threads.run_inv (Progress scalingRows writers) (fun s t g l hs ht => step_progress hs ht) _
      start_progress run.sched
    have hmem : ∀ id, id ∈ (Threads.run (writerStep (scalingRows / writers))
        (start writers.toNat (scalingRows / writers)) run.sched).shared.rows ↔
          id.toNat < writers.toNat * (scalingRows / writers).toNat := by
      intro id
      rw [← dealt_iff]
      constructor
      · intro hid
        obtain ⟨r, hr⟩ := (TreeMap.mem_iff_get _ _).1 hid
        obtain ⟨-, w, hlo, hlt⟩ := hprogress.rows id r hr
        exact ⟨w, hprogress.dealt hlo hlt⟩
      · intro hid
        obtain ⟨w, hlo, hlt⟩ := hid
        exact hprogress.passed id ⟨w, hlo, UInt64.lt_of_lt_of_le hlt (hfinished w)⟩
    have hbound : writers.toNat * (scalingRows / writers).toNat ≤ 2 ^ 64 :=
      (share_le scalingRows le_rfl).trans scalingRows.toNat_lt.le
    refine ⟨hmem, ?_⟩
    rw [TreeMap.size_eq_of_keys _ (words_nodup hbound) fun id => (hmem id).trans (mem_words hbound).symm, words_length]

/-- **Every run can be finished**, unless the unique column overflows. -/
theorem scalingRun_finishes (hwriters : writers ≠ 0) (hfits : 1000000 + scalingRows.toNat ≤ 2 ^ 64)
    (run : Run writers) :
    ∃ rest table, scalingRun scalingRows writers { run with sched := run.sched ++ rest } = .ok table := by
  have hprogress := Threads.run_inv (Progress scalingRows writers) (fun s t g l hs ht => step_progress hs ht) _
    start_progress run.sched
  have hmoves : ∀ s, Progress scalingRows writers s →
      ∀ w : Fin writers.toNat, ¬ hi (scalingRows / writers) w ≤ s.locals w →
        writerStep (scalingRows / writers) w s.shared (s.locals w) ≠ none := by
    intro s _ w hw
    have hlt := UInt64.not_le.1 hw
    have hbound : (hi (scalingRows / writers) w).toNat ≤ scalingRows.toNat := by
      rw [hi_toNat scalingRows w.isLt]
      exact share_le scalingRows w.isLt
    rw [UInt64.lt_iff_toNat_lt] at hlt
    obtain ⟨payload, hpayload, -⟩ := checkedAdd_some (a := 1000000) (b := s.locals w)
      (show 1000000 + (s.locals w).toNat < 2 ^ 64 by omega)
    rw [writerStep, if_pos (UInt64.lt_iff_toNat_lt.2 hlt), row, hpayload]
    exact Option.some_ne_none _
  have hmeasure : ∀ (s : Threads.State (Fin writers.toNat) LatTable UInt64) (w : Fin writers.toNat) g next,
      Progress scalingRows writers s → writerStep (scalingRows / writers) w s.shared (s.locals w) = some (g, next) →
        (hi (scalingRows / writers) w).toNat - next.toNat <
          (hi (scalingRows / writers) w).toNat - (s.locals w).toNat := by
    intro s w g next _ ht
    unfold writerStep at ht
    split_ifs at ht with hlt
    obtain ⟨r, -, hsome⟩ := Option.bind_eq_some_iff.1 ht
    cases hsome
    have hbound := (hi (scalingRows / writers) w).toNat_lt
    rw [UInt64.lt_iff_toNat_lt] at hlt
    rw [toNat_add_of_lt (by rw [UInt64.toNat_one]; omega), UInt64.toNat_one]
    omega
  obtain ⟨rest, hrest⟩ := Threads.run_finishes_each (Progress scalingRows writers)
    (fun w next => hi (scalingRows / writers) w ≤ next)
    (fun w next => (hi (scalingRows / writers) w).toNat - next.toNat)
    (fun s t g l hs ht => step_progress hs ht) hmeasure (fun s hs ⟨w, hw⟩ => ⟨w, hmoves s hs w hw⟩) _ hprogress
  rw [← Threads.run_append] at hrest
  refine ⟨rest, (Threads.run (writerStep (scalingRows / writers)) (start writers.toNat (scalingRows / writers))
    (run.sched ++ rest)).shared, ?_⟩
  rw [scalingRun, divide, if_neg hwriters, ok_bind]
  exact if_pos hrest

/-- a run that divides does not fail for a division -/
theorem scalingRun_divides (hwriters : writers ≠ 0) (run : Run writers) :
    scalingRun scalingRows writers run ≠ .error .divisionByZero := by
  intro h
  unfold scalingRun divide at h
  rw [if_neg hwriters, ok_bind] at h
  dsimp only at h
  split_ifs at h
  cases h

end Runs

/-! ## Reports -/

theorem bestNs_mem {writers : UInt64} {runs : List (Run writers)} (hruns : runs ≠ []) :
    ∃ run ∈ runs, bestNs runs = run.elapsedNs := by
  have hfold : ∀ (runs : List (Run writers)) (best : ℕ),
      runs.foldl (fun best run => min best run.elapsedNs) best = best ∨
        ∃ run ∈ runs, runs.foldl (fun best run => min best run.elapsedNs) best = run.elapsedNs := by
    intro runs
    induction runs with
    | nil => exact fun best => Or.inl rfl
    | cons run runs ih =>
      intro best
      rw [List.foldl_cons]
      rcases ih (min best run.elapsedNs) with heq | ⟨run', hrun', heq⟩
      · rcases Nat.le_total best run.elapsedNs with hle | hle
        · exact Or.inl (heq.trans (Nat.min_eq_left hle))
        · exact Or.inr ⟨run, List.mem_cons_self, heq.trans (Nat.min_eq_right hle)⟩
      · exact Or.inr ⟨run', List.mem_cons_of_mem _ hrun', heq⟩
  cases runs with
  | nil => exact absurd rfl hruns
  | cons run runs =>
    -- the first time is at most `u128::MAX`
    have hle : min (2 ^ 128 - 1) run.elapsedNs = run.elapsedNs := Nat.min_eq_right (by have := run.elapsed_lt; omega)
    rw [bestNs, List.foldl_cons, hle]
    rcases hfold runs run.elapsedNs with heq | ⟨run', hrun', heq⟩
    · exact ⟨run, List.mem_cons_self, heq⟩
    · exact ⟨run', List.mem_cons_of_mem _ hrun', heq⟩

/-- the throughput and the time of an insert, of some rows inserted in some time -/
structure Rates (rows elapsedNs : ℕ) (result : ScalingResult) : Prop where
  opsPerSecond : result.opsPerSecond = (UInt64.ofNat rows).toFloat / (Float.ofNat elapsedNs / 1000000000.0)
  nsPerInsert : result.nsPerInsert = Float.ofNat elapsedNs / (UInt64.ofNat rows).toFloat

/-- the ranges share out the rows, no division is by zero, the writers can finish, and the line of the arm describes the
rows its repetitions inserted: their number, and the rates of the fastest repetition over that number -/
structure InsertsWhatItReports (config : LatencyConfig) (writers : UInt64) : Prop where
  disjoint : ∀ v w : Fin writers.toNat, v ≠ w → ∀ id, Dealt (config.scalingRows / writers) v id →
    ¬ Dealt (config.scalingRows / writers) w id
  cover : ∀ id, (∃ w : Fin writers.toNat, Dealt (config.scalingRows / writers) w id) ↔ id < config.scalingRows
  divides : ∀ (runs : List (Run writers)) singleWriterRate, runs.length = config.repetitions.toNat →
    scalingArm config writers runs singleWriterRate ≠ .error .divisionByZero
  reports : ∀ (runs : List (Run writers)) singleWriterRate tables result, runs.length = config.repetitions.toNat →
    scalingArm config writers runs singleWriterRate = .ok (tables, result) →
      (∃ run ∈ runs, result.elapsedNs = run.elapsedNs) ∧
      (∀ table ∈ tables, table.rows.size = result.rows.toNat ∧ (∀ id, id ∈ table.rows ↔ id < result.rows) ∧
        Rates table.rows.size result.elapsedNs result) ∧
      result.rows ≠ 0 ∧ result.elapsedNs ≠ 0
  finishes : 1000000 + config.scalingRows.toNat ≤ 2 ^ 64 → ∀ run : Run writers, ∃ rest table,
    scalingRun config.scalingRows writers { run with sched := run.sched ++ rest } = .ok table

variable {config : LatencyConfig} {writers : UInt64}

/-- a repetition without any step -/
def Run.idle (writers : UInt64) : Run writers := ⟨[], 1, by decide, by decide⟩

theorem scalingArm_ok {runs : List (Run writers)} {rate : Float} {tables : List LatTable} {result : ScalingResult}
    (h : scalingArm config writers runs rate = .ok (tables, result)) :
    runs.mapM (scalingRun config.scalingRows writers) = .ok tables ∧
      result = emitScaling writers config.scalingRows config.repetitions (bestNs runs) rate := by
  unfold scalingArm at h
  cases htables : runs.mapM (scalingRun config.scalingRows writers) with
  | error e =>
    rw [htables] at h
    cases h
  | ok ts =>
    rw [htables] at h
    cases h
    exact ⟨rfl, rfl⟩

/-- the rates of a line are those of its own rows and time -/
theorem emitScaling_rates (writers rows repetitions : UInt64) (elapsedNs : ℕ) (rate : Float) :
    Rates rows.toNat elapsedNs (emitScaling writers rows repetitions elapsedNs rate) := by
  refine ⟨?_, ?_⟩
  · rw [UInt64.ofNat_toNat]
    rfl
  · rw [UInt64.ofNat_toNat]
    rfl

theorem scalingArm_divides (hwriters : writers ≠ 0) (runs : List (Run writers)) (rate : Float) :
    scalingArm config writers runs rate ≠ .error .divisionByZero := by
  intro h
  unfold scalingArm at h
  cases htables : runs.mapM (scalingRun config.scalingRows writers) with
  | error e =>
    rw [htables] at h
    cases h
    obtain ⟨run, -, hrun⟩ := mapM_error runs htables
    exact scalingRun_divides hwriters run hrun
  | ok tables =>
    rw [htables] at h
    cases h

theorem scalingArm_zero_writers {runs : List (Run 0)} (hruns : runs ≠ []) (rate : Float) :
    scalingArm config 0 runs rate = .error .divisionByZero := by
  cases runs with
  | nil => exact absurd rfl hruns
  | cons run runs =>
    have hrun : scalingRun config.scalingRows 0 run = .error .divisionByZero := rfl
    rw [scalingArm, List.mapM_cons, hrun]
    rfl

/-- an arm without rows has nothing to wait for -/
theorem scalingRun_no_rows (hwriters : writers ≠ 0) :
    ∃ table, scalingRun 0 writers (Run.idle writers) = .ok table := by
  have hfinished : ∀ w : Fin writers.toNat, hi (0 / writers) w ≤ lo (0 / writers) w := by
    intro w
    rw [UInt64.le_iff_toNat_le, hi_toNat 0 w.isLt, lo_toNat 0 w.isLt, UInt64.toNat_div, UInt64.toNat_zero, Nat.zero_div]
    exact le_rfl
  refine ⟨UniqueTable.empty LatRow.payload, ?_⟩
  rw [scalingRun, divide, if_neg hwriters, ok_bind]
  exact if_pos hfinished

theorem scalingArm_no_rows (hwriters : writers ≠ 0) (n : ℕ) (rate : Float) (hrows : config.scalingRows = 0) :
    ∃ tables result, scalingArm config writers (List.replicate n (Run.idle writers)) rate = .ok (tables, result) ∧
      result.rows = 0 := by
  obtain ⟨table, htable⟩ := scalingRun_no_rows hwriters
  cases htables : (List.replicate n (Run.idle writers)).mapM (scalingRun config.scalingRows writers) with
  | error e =>
    obtain ⟨run, hrun, herror⟩ := mapM_error _ htables
    rw [List.eq_of_mem_replicate hrun, hrows, htable] at herror
    cases herror
  | ok tables =>
    rw [scalingArm, htables]
    exact ⟨tables, _, rfl, hrows⟩

theorem dvd_of_cover (h : ∀ id, (∃ w : Fin writers.toNat, Dealt (config.scalingRows / writers) w id) ↔
    id < config.scalingRows) : writers.toNat ∣ config.scalingRows.toNat := by
  have hdiv := Nat.div_add_mod config.scalingRows.toNat writers.toNat
  rw [← UInt64.toNat_div] at hdiv
  by_contra hdvd
  have hmod : config.scalingRows.toNat % writers.toNat ≠ 0 := fun hzero => hdvd (Nat.dvd_of_mod_eq_zero hzero)
  -- the first id of the remainder
  have hlt := config.scalingRows.toNat_lt
  have hid : (UInt64.ofNat (writers.toNat * (config.scalingRows / writers).toNat)).toNat =
      writers.toNat * (config.scalingRows / writers).toNat := ofNat_toNat_of_lt (by omega)
  have hdealt := (h _).2 (UInt64.lt_iff_toNat_lt.2 (by rw [hid]; omega))
  rw [dealt_iff, hid] at hdealt
  exact absurd hdealt (Nat.lt_irrefl _)

/-- **Inserting what is reported:** the writers must share the rows out evenly. -/
theorem insertsWhatItReports_iff (config : LatencyConfig) (writers : UInt64) :
    InsertsWhatItReports config writers ↔
      config.repetitions ≠ 0 ∧ writers ≠ 0 ∧ config.scalingRows ≠ 0 ∧ writers.toNat ∣ config.scalingRows.toNat := by
  constructor
  · intro h
    have hrepetitions : config.repetitions ≠ 0 := by
      intro hzero
      obtain ⟨⟨run, hrun, -⟩, -⟩ := h.reports [] 0 [] _ (by rw [hzero]; rfl) rfl
      cases hrun
    have hpos := toNat_pos_of_ne hrepetitions
    have hwriters : writers ≠ 0 := by
      rintro rfl
      have hruns : List.replicate config.repetitions.toNat (Run.idle 0) ≠ [] := by
        rw [ne_eq, List.replicate_eq_nil_iff]
        exact hpos.ne'
      exact h.divides _ 0 List.length_replicate (scalingArm_zero_writers hruns 0)
    refine ⟨hrepetitions, hwriters, fun hzero => ?_, dvd_of_cover h.cover⟩
    obtain ⟨tables, result, harm, hrows⟩ := scalingArm_no_rows hwriters config.repetitions.toNat 0 hzero
    exact (h.reports _ 0 tables result List.length_replicate harm).2.2.1 hrows
  · rintro ⟨hrepetitions, hwriters, hrows, hdvd⟩
    have hshare : writers.toNat * (config.scalingRows / writers).toNat = config.scalingRows.toNat := by
      rw [UInt64.toNat_div]
      exact Nat.mul_div_cancel' hdvd
    refine ⟨fun v w hne id hv hw => ?_, fun id => ?_, fun runs rate _ => scalingArm_divides hwriters runs rate,
      fun runs rate tables result hlength harm => ?_, scalingRun_finishes hwriters⟩
    · exact hne (Fin.ext (dealt_inj v.isLt w.isLt hv hw))
    · rw [dealt_iff, hshare, UInt64.lt_iff_toNat_lt]
    · obtain ⟨htables, rfl⟩ := scalingArm_ok harm
      have hruns : runs ≠ [] := by
        rintro rfl
        exact hrepetitions (UInt64.toNat_inj.1 hlength.symm)
      obtain ⟨run, hrun, hbest⟩ := bestNs_mem hruns
      refine ⟨⟨run, hrun, hbest⟩, fun table htable => ?_, hrows, ?_⟩
      · obtain ⟨run', -, hrun'⟩ := mapM_ok runs htables table htable
        obtain ⟨hmem, hsize⟩ := scalingRun_ok hrun'
        rw [hshare] at hmem hsize
        refine ⟨hsize, fun id => (hmem id).trans UInt64.lt_iff_toNat_lt.symm, ?_⟩
        rw [hsize]
        exact emitScaling_rates writers _ _ _ rate
      · have hpos := run.elapsed_pos
        rw [← hbest] at hpos
        exact hpos.ne'

/-- three writers deal the default rows out to themselves but for two -/
theorem threeWriters : ∃ config, LatencyConfig.fromArgs id ["--sweep", "1,3"] = .ok config ∧ 3 ∈ config.sweep ∧
    ¬ InsertsWhatItReports config 3 := by
  refine ⟨{ LatencyConfig.default with sweep := [1, 3] }, rfl, by decide, fun h => ?_⟩
  have hdvd := dvd_of_cover h.cover
  exact absurd hdvd (by decide)

end WtBenchmarks.OpLatency
