/-
The summaries of the paired analyzer (`src/bin/analyze-paired-ycsb-retry.rs`): one for each backend.

The two vectors that `summarize` fills side by side are a list of pairs (`sides`). Counters are added up by machine
sums; whether the build checks these for overflow is a parameter.

- `sides_ok`, `slotted_perm`: the two sides of a backend are its records without and with the feature;
- `compile_ok_iff`: when the summary of two sides succeeds;
- `analyze_order_independent`: the order of the lines does not matter, and exactly which records can be analyzed.
-/
import WtBenchmarks.AnalyzePaired.Bootstrap
import WtBenchmarks.AnalyzePaired.Grouping
import WtBenchmarks.Core.Word

namespace WtBenchmarks.AnalyzePaired

open OrderStatistics (ascending)

/-! ## Model -/

structure BackendSummary where
  backend : String
  pairs : ℕ
  operations : UInt64
  featureOffFirstReadMisses : UInt64
  featureOffRetryRecovered : UInt64
  featureOnFirstReadMisses : UInt64
  finalReadErrors : UInt64
  insertErrors : UInt64
  featureOffMedianOpsPerSecond : ℚ
  featureOnMedianOpsPerSecond : ℚ
  medianPairedDeltaPercent : ℚ
  pairedDeltaBootstrap95Percent : Interval
  minimumPairedDeltaPercent : ℚ
  maximumPairedDeltaPercent : ℚ
  featureOffMedianReadP50Ns : ℚ
  featureOnMedianReadP50Ns : ℚ
  featureOffMedianReadP99Ns : ℚ
  featureOnMedianReadP99Ns : ℚ

def orPanic {α : Type} : Option α → Except Failure α
  | none => .error .panic
  | some a => .ok a

/-- `values.sum()`, in a build that checks for overflow or in one that does not -/
def sum (checks : Bool) (values : List UInt64) : Option UInt64 :=
  values.foldlM (fun sum value => if checks then checkedAdd sum value else some (sum + value)) 0

def latencyValues (records : List Record) (p99 : Bool) : List ℚ :=
  (records.filterMap fun record => if p99 then record.readLatency.p99Ns else record.readLatency.p50Ns).map
    fun value => (value.toNat : ℚ)

/-- both results of a pair -/
def bothResults (backend : String) (e : UInt64 × Pair) : Except Failure (Record × Record) :=
  match e.2.off, e.2.stable with
  | none, _ => .error (.error s!"backend {backend} pair {e.1} is missing feature-off result")
  | some _, none => .error (.error s!"backend {backend} pair {e.1} is missing feature-on result")
  | some off, some stable => .ok (off, stable)

/-- the feature-off and the feature-on results, in the order of the pairs -/
def sides (backend : String) (pairs : Std.ExtTreeMap UInt64 Pair) : Except Failure (List (Record × Record)) :=
  pairs.toList.mapM (bothResults backend)

def pairedDeltas (off stable : List Record) : List ℚ :=
  (off.zip stable).map fun p => (p.2.opsPerSecond.1 / p.1.opsPerSecond.1 - 1) * 100

/-- the seed of the bootstrap: the bytes of the backend's name, mixed -/
def backendSeed (backend : String) : UInt64 :=
  backend.toUTF8.toList.foldl (fun state byte => mix64 (state ^^^ byte.toUInt64)) 0x05eed187

/-- the rest of `summarize`, once both sides are known -/
def compile (checks : Bool) (backend : String) (off stable : List Record) : Except Failure BackendSummary := do
  let deltas := pairedDeltas off stable
  let sortedDeltas ← orPanic (median deltas)
  let offP50 := latencyValues off false
  let stableP50 := latencyValues stable false
  let offP99 := latencyValues off true
  let stableP99 := latencyValues stable true
  if [offP50.length, stableP50.length, offP99.length, stableP99.length].any fun length => length != off.length then
    .error (.error s!"backend {backend} has a missing p50 or p99 latency summary")
  else do
    let operations ← orPanic (sum checks ((off ++ stable).map Record.operations))
    let offFirstReadMisses ← orPanic (sum checks (off.map Record.firstReadMisses))
    let offRetryRecovered ← orPanic (sum checks (off.map Record.retryRecovered))
    let stableFirstReadMisses ← orPanic (sum checks (stable.map Record.firstReadMisses))
    let finalReadErrors ← orPanic (sum checks ((off ++ stable).map Record.finalReadErrors))
    let insertErrors ← orPanic (sum checks ((off ++ stable).map Record.insertErrors))
    let offThroughput ← orPanic (median (off.map fun record => record.opsPerSecond.1))
    let stableThroughput ← orPanic (median (stable.map fun record => record.opsPerSecond.1))
    let interval ← orPanic (bootstrapMedianInterval deltas (backendSeed backend))
    let minimum ← orPanic sortedDeltas.1[0]?
    let maximum ← orPanic sortedDeltas.1[sortedDeltas.1.length - 1]?
    let offMedianP50 ← orPanic (median offP50)
    let stableMedianP50 ← orPanic (median stableP50)
    let offMedianP99 ← orPanic (median offP99)
    let stableMedianP99 ← orPanic (median stableP99)
    .ok
      { backend
        pairs := off.length
        operations
        featureOffFirstReadMisses := offFirstReadMisses
        featureOffRetryRecovered := offRetryRecovered
        featureOnFirstReadMisses := stableFirstReadMisses
        finalReadErrors
        insertErrors
        featureOffMedianOpsPerSecond := offThroughput.2
        featureOnMedianOpsPerSecond := stableThroughput.2
        medianPairedDeltaPercent := sortedDeltas.2
        pairedDeltaBootstrap95Percent := interval
        minimumPairedDeltaPercent := minimum
        maximumPairedDeltaPercent := maximum
        featureOffMedianReadP50Ns := offMedianP50.2
        featureOnMedianReadP50Ns := stableMedianP50.2
        featureOffMedianReadP99Ns := offMedianP99.2
        featureOnMedianReadP99Ns := stableMedianP99.2 }

def summarize (checks : Bool) (backend : String) (pairs : Std.ExtTreeMap UInt64 Pair) :
    Except Failure BackendSummary :=
  if pairs.isEmpty then .error (.error s!"backend {backend} has no pairs")
  else do
    let sides ← sides backend pairs
    compile checks backend (sides.map Prod.fst) (sides.map Prod.snd)

/-- the lines of a file, to the summaries that are printed -/
def analyze (checks : Bool) (path : String) (records : List Record) : Except Failure (List BackendSummary) := do
  let grouped ← group path records
  grouped.toList.mapM fun e => summarize checks e.1 e.2

/-! ## Sums -/

theorem orPanic_eq_ok {α : Type} {o : Option α} {a : α} : orPanic o = .ok a ↔ o = some a := by
  cases o <;> simp [orPanic]

/-- a sum in a build without checks -/
theorem sum_unchecked (values : List UInt64) (start : UInt64) :
    ∃ s, values.foldlM (fun sum value => if false then checkedAdd sum value else some (sum + value)) start =
      some s := by
  induction values generalizing start with
  | nil => exact ⟨start, rfl⟩
  | cons value values ih =>
    rw [List.foldlM_cons]
    exact ih (start + value)

/-- a sum in a build with checks -/
theorem sum_checked (values : List UInt64) (start : UInt64) :
    (∃ s, values.foldlM (fun sum value => if true then checkedAdd sum value else some (sum + value)) start = some s) ↔
      start.toNat + (values.map UInt64.toNat).sum < 2 ^ 64 := by
  induction values generalizing start with
  | nil => exact ⟨fun _ => start.toNat_lt, fun _ => ⟨start, rfl⟩⟩
  | cons value values ih =>
    rw [List.foldlM_cons, List.map_cons, List.sum_cons, if_pos rfl]
    by_cases hfits : start.toNat + value.toNat < 2 ^ 64
    · rw [checkedAdd, if_pos hfits, Option.bind_eq_bind, Option.bind_some, ih, toNat_add_of_lt hfits, Nat.add_assoc]
    · rw [checkedAdd, if_neg hfits, Option.bind_eq_bind, Option.bind_none]
      constructor
      · intro h
        obtain ⟨s, hs⟩ := h
        cases hs
      · intro h
        omega

/-- **A sum** fails only in a build with checks, and there exactly when it overflows. -/
theorem sum_ok_iff (checks : Bool) (values : List UInt64) :
    (∃ s, sum checks values = some s) ↔ (checks = true → (values.map UInt64.toNat).sum < 2 ^ 64) := by
  cases checks with
  | false => exact ⟨fun _ => nofun, fun _ => sum_unchecked values 0⟩
  | true =>
    have h := sum_checked values 0
    rw [UInt64.toNat_zero, Nat.zero_add] at h
    rw [sum, h]
    exact ⟨fun hfits _ => hfits, fun hfits => hfits rfl⟩

/-! ## One summary -/

/-- a record with both latencies -/
def Record.Timed (record : Record) : Prop := record.readLatency.p50Ns.isSome ∧ record.readLatency.p99Ns.isSome

/-- the sums of a summary fit in 64 bits -/
structure SumsFit (off stable : List Record) : Prop where
  operations : (((off ++ stable).map Record.operations).map UInt64.toNat).sum < 2 ^ 64
  offFirstReadMisses : ((off.map Record.firstReadMisses).map UInt64.toNat).sum < 2 ^ 64
  offRetryRecovered : ((off.map Record.retryRecovered).map UInt64.toNat).sum < 2 ^ 64
  stableFirstReadMisses : ((stable.map Record.firstReadMisses).map UInt64.toNat).sum < 2 ^ 64
  finalReadErrors : (((off ++ stable).map Record.finalReadErrors).map UInt64.toNat).sum < 2 ^ 64
  insertErrors : (((off ++ stable).map Record.insertErrors).map UInt64.toNat).sum < 2 ^ 64

theorem latencyValues_length (records : List Record) (p99 : Bool) :
    (latencyValues records p99).length = records.length ↔
      ∀ record ∈ records, (if p99 then record.readLatency.p99Ns else record.readLatency.p50Ns).isSome := by
  rw [latencyValues, List.length_map, List.filterMap_length_eq_length]

/-- the check on the lengths passes exactly for records with both latencies -/
theorem lengths_any_iff {off stable : List Record} (hlen : stable.length = off.length) :
    ([(latencyValues off false).length, (latencyValues stable false).length, (latencyValues off true).length,
        (latencyValues stable true).length].any fun length => length != off.length) = false ↔
      ∀ record ∈ off ++ stable, record.Timed := by
  have hoff := latencyValues_length off
  have hstable := latencyValues_length stable
  rw [hlen] at hstable
  simp only [List.any_cons, List.any_nil, Bool.or_false, Bool.or_eq_false_iff, bne_eq_false_iff_eq, hoff, hstable,
    Bool.false_eq_true, if_false, if_true, List.mem_append, Record.Timed]
  constructor
  · intro h record hrecord
    obtain ⟨hoff50, hstable50, hoff99, hstable99⟩ := h
    rcases hrecord with hrecord | hrecord
    · exact ⟨hoff50 record hrecord, hoff99 record hrecord⟩
    · exact ⟨hstable50 record hrecord, hstable99 record hrecord⟩
  · intro h
    exact ⟨fun r hr => (h r (Or.inl hr)).1, fun r hr => (h r (Or.inr hr)).1, fun r hr => (h r (Or.inl hr)).2,
      fun r hr => (h r (Or.inr hr)).2⟩

theorem latencyValues_pos {records : List Record} (hpos : 0 < records.length) (h : ∀ record ∈ records, record.Timed)
    (p99 : Bool) : 0 < (latencyValues records p99).length := by
  have hlength := (latencyValues_length records p99).2 fun record hrecord => by
    cases p99 with
    | false => exact (h record hrecord).1
    | true => exact (h record hrecord).2
  rwa [hlength]

theorem exists_median (values : List ℚ) (h : 0 < values.length) : ∃ r, median values = some r := by
  obtain ⟨m, hm, -⟩ := median_spec (List.length_pos_iff.1 h)
  exact ⟨_, hm⟩

/-- **The summary** of two sides of one length. -/
theorem compile_ok_iff (checks : Bool) (backend : String) {off stable : List Record} (hpos : 0 < off.length)
    (hlen : stable.length = off.length) :
    (∃ summary, compile checks backend off stable = .ok summary) ↔
      (∀ record ∈ off ++ stable, record.Timed) ∧ (checks = true → SumsFit off stable) := by
  have hdeltas : 0 < (pairedDeltas off stable).length := by
    rw [pairedDeltas, List.length_map, List.length_zip, hlen, Nat.min_self]
    exact hpos
  obtain ⟨m, hmedian, -⟩ := median_spec (List.length_pos_iff.1 hdeltas)
  constructor
  · intro h
    obtain ⟨summary, h⟩ := h
    obtain ⟨sorted, -, h⟩ := bind_eq_ok.1 h
    obtain ⟨hlengths, h⟩ := check_ok h
    rw [Bool.not_eq_true, lengths_any_iff hlen] at hlengths
    obtain ⟨operations, h1, h⟩ := bind_eq_ok.1 h
    obtain ⟨offFirst, h2, h⟩ := bind_eq_ok.1 h
    obtain ⟨offRecovered, h3, h⟩ := bind_eq_ok.1 h
    obtain ⟨stableFirst, h4, h⟩ := bind_eq_ok.1 h
    obtain ⟨readErrors, h5, h⟩ := bind_eq_ok.1 h
    obtain ⟨insertErrors, h6, -⟩ := bind_eq_ok.1 h
    have hfits : ∀ {values s}, orPanic (sum checks values) = .ok s →
        checks = true → (values.map UInt64.toNat).sum < 2 ^ 64 :=
      fun hs => (sum_ok_iff checks _).1 ⟨_, orPanic_eq_ok.1 hs⟩
    exact ⟨hlengths, fun hchecks => ⟨hfits h1 hchecks, hfits h2 hchecks, hfits h3 hchecks, hfits h4 hchecks,
      hfits h5 hchecks, hfits h6 hchecks⟩⟩
  · intro h
    obtain ⟨htimed, hfits⟩ := h
    have hlengths := (lengths_any_iff hlen).2 htimed
    have hoff := latencyValues_pos hpos fun record hrecord => htimed record (List.mem_append_left _ hrecord)
    have hstable := latencyValues_pos (hlen ▸ hpos) fun record hrecord =>
      htimed record (List.mem_append_right _ hrecord)
    obtain ⟨operations, h1⟩ := (sum_ok_iff checks _).2 fun hc => (hfits hc).operations
    obtain ⟨offFirst, h2⟩ := (sum_ok_iff checks _).2 fun hc => (hfits hc).offFirstReadMisses
    obtain ⟨offRecovered, h3⟩ := (sum_ok_iff checks _).2 fun hc => (hfits hc).offRetryRecovered
    obtain ⟨stableFirst, h4⟩ := (sum_ok_iff checks _).2 fun hc => (hfits hc).stableFirstReadMisses
    obtain ⟨readErrors, h5⟩ := (sum_ok_iff checks _).2 fun hc => (hfits hc).finalReadErrors
    obtain ⟨insertErrors, h6⟩ := (sum_ok_iff checks _).2 fun hc => (hfits hc).insertErrors
    obtain ⟨offThroughput, h7⟩ := exists_median (off.map fun record => record.opsPerSecond.1) (by simpa)
    obtain ⟨stableThroughput, h8⟩ := exists_median (stable.map fun record => record.opsPerSecond.1)
      (by simpa [hlen])
    obtain ⟨-, -, -, interval, -, -, h9, -⟩ := exists_interval (List.length_pos_iff.1 hdeltas) (backendSeed backend)
    obtain ⟨offP50, h10⟩ := exists_median _ (hoff false)
    obtain ⟨stableP50, h11⟩ := exists_median _ (hstable false)
    obtain ⟨offP99, h12⟩ := exists_median _ (hoff true)
    obtain ⟨stableP99, h13⟩ := exists_median _ (hstable true)
    rw [← OrderStatistics.ascending_length] at hdeltas
    obtain ⟨minimum, h14⟩ : ∃ a, (ascending (pairedDeltas off stable))[0]? = some a :=
      ⟨_, List.getElem?_eq_getElem hdeltas⟩
    obtain ⟨maximum, h15⟩ : ∃ a, (ascending (pairedDeltas off stable))[
        (ascending (pairedDeltas off stable)).length - 1]? = some a :=
      ⟨_, List.getElem?_eq_getElem (Nat.sub_lt hdeltas Nat.one_pos)⟩
    simp only [compile, hmedian, orPanic, ok_bind, hlengths, Bool.false_eq_true, if_false, h1, h2, h3, h4, h5, h6, h7,
      h8, h9, h10, h11, h12, h13, h14, h15]
    exact ⟨_, rfl⟩

/-! ## The two sides of a backend -/

/-- the records in the slots of one flag, in the order of the pairs -/
def slotted (pairs : Std.ExtTreeMap UInt64 Pair) (flag : Bool) : List Record :=
  pairs.toList.filterMap fun e => e.2.slot flag

/-- the results of a backend without the feature, or with it -/
def side (records : List Record) (backend : String) (flag : Bool) : List Record :=
  records.filter fun record => record.backend = backend ∧ record.stableIndexReadRetry = flag

theorem bothResults_ok {backend : String} {e : UInt64 × Pair} {off stable : Record} :
    bothResults backend e = .ok (off, stable) ↔ e.2.slot false = some off ∧ e.2.slot true = some stable := by
  obtain ⟨pairNumber, offSlot, stableSlot⟩ := e
  cases offSlot <;> cases stableSlot <;> simp [bothResults, Pair.slot]

/-- both sides are complete -/
theorem sides_ok_iff (backend : String) (pairs : Std.ExtTreeMap UInt64 Pair) :
    (∃ l, sides backend pairs = .ok l) ↔
      ∀ (pairNumber : UInt64) (pair : Pair), pairs[pairNumber]? = some pair → ∀ flag, (pair.slot flag).isSome := by
  rw [sides, exists_mapM_eq_ok]
  constructor
  · intro h pairNumber pair hget flag
    obtain ⟨⟨off, stable⟩, hok⟩ := h (pairNumber, pair) (Std.ExtTreeMap.mem_toList_iff_getElem?_eq_some.2 hget)
    obtain ⟨hoff, hstable⟩ := bothResults_ok.1 hok
    cases flag with
    | false => exact Option.isSome_iff_exists.2 ⟨off, hoff⟩
    | true => exact Option.isSome_iff_exists.2 ⟨stable, hstable⟩
  · intro h e he
    have hslots := h e.1 e.2 (Std.ExtTreeMap.mem_toList_iff_getElem?_eq_some.1 he)
    obtain ⟨off, hoff⟩ := Option.isSome_iff_exists.1 (hslots false)
    obtain ⟨stable, hstable⟩ := Option.isSome_iff_exists.1 (hslots true)
    exact ⟨(off, stable), bothResults_ok.2 ⟨hoff, hstable⟩⟩

theorem sides_ok {backend : String} {pairs : Std.ExtTreeMap UInt64 Pair} {l : List (Record × Record)}
    (h : sides backend pairs = .ok l) : l.map Prod.fst = slotted pairs false ∧ l.map Prod.snd = slotted pairs true := by
  have hall := mapM_eq_ok.1 h
  unfold slotted
  clear h
  generalize pairs.toList = entries at hall ⊢
  induction hall with
  | nil => exact ⟨rfl, rfl⟩
  | cons hturn _ ih =>
    obtain ⟨hoff, hstable⟩ := bothResults_ok.1 hturn
    simp only [List.filterMap_cons, List.map_cons, hoff, hstable, ih.1, ih.2, and_self]

variable {records : List Record} {grouped : Grouped} {backend : String} {pairs : Std.ExtTreeMap UInt64 Pair}

theorem mem_slotted (h : Groups records grouped) (hget : grouped[backend]? = some pairs) {flag : Bool}
    {record : Record} (hnumbered : ∀ r ∈ records, r.campaignPair.isSome) :
    record ∈ slotted pairs flag ↔ record ∈ side records backend flag := by
  rw [slotted, side, List.mem_filterMap, List.mem_filter, decide_eq_true_eq]
  constructor
  · intro hslot
    obtain ⟨e, hmem, hpair⟩ := hslot
    obtain ⟨hrecord, hbackend, -, hflag⟩ :=
      h.record_of_slot hget (Std.ExtTreeMap.mem_toList_iff_getElem?_eq_some.1 hmem) hpair
    exact ⟨hrecord, hbackend, hflag⟩
  · intro hslot
    obtain ⟨hrecord, rfl, rfl⟩ := hslot
    obtain ⟨pairNumber, hnumber⟩ := Option.isSome_iff_exists.1 (hnumbered record hrecord)
    obtain ⟨pairs', pair, hget', hrow, hpair⟩ := h.exists_slot hrecord hnumber
    rw [hget] at hget'
    cases hget'
    exact ⟨(pairNumber, pair), Std.ExtTreeMap.mem_toList_iff_getElem?_eq_some.2 hrow, hpair⟩

/-- **The sides of a backend** are its records. -/
theorem slotted_perm (h : Groups records grouped) (hgroupable : Groupable records)
    (hget : grouped[backend]? = some pairs) (flag : Bool) :
    (slotted pairs flag).Perm (side records backend flag) := by
  have hnumber : ∀ e ∈ pairs.toList, ∀ record, e.2.slot flag = some record → record.campaignPair = some e.1 :=
    fun e he record hrecord =>
      (h.record_of_slot hget (Std.ExtTreeMap.mem_toList_iff_getElem?_eq_some.1 he) hrecord).2.2.1
  have hslotted : (slotted pairs flag).Nodup := by
    have hkeys := List.pairwise_map.1 (TreeMap.nodup_fst pairs)
    refine (hkeys.imp_of_mem (S := fun e e' => ∀ r, e.2.slot flag = some r → ∀ r', e'.2.slot flag = some r' → r ≠ r')
      fun {e e'} he he' hne r hr r' hr' heq => hne ?_).filterMap _ fun e e' hne r hr r' hr' => hne r hr r' hr'
    rw [← Option.some_inj, ← hnumber e he r hr, heq, hnumber e' he' r' hr']
  exact (List.perm_ext_iff_of_nodup hslotted (hgroupable.distinct.of_map.filter _)).2 fun record =>
    mem_slotted h hget hgroupable.numbered

theorem SumsFit.perm {off off' stable stable' : List Record} (hoff : off.Perm off') (hstable : stable.Perm stable')
    (h : SumsFit off stable) : SumsFit off' stable' := by
  have hsum : ∀ {l l' : List Record} (field : Record → UInt64), l.Perm l' →
      ((l.map field).map UInt64.toNat).sum = ((l'.map field).map UInt64.toNat).sum :=
    fun field hperm => ((hperm.map field).map UInt64.toNat).sum_eq
  have hboth := hoff.append hstable
  exact ⟨hsum _ hboth ▸ h.operations, hsum _ hoff ▸ h.offFirstReadMisses, hsum _ hoff ▸ h.offRetryRecovered,
    hsum _ hstable ▸ h.stableFirstReadMisses, hsum _ hboth ▸ h.finalReadErrors, hsum _ hboth ▸ h.insertErrors⟩

theorem sumsFit_iff {off off' stable stable' : List Record} (hoff : off.Perm off') (hstable : stable.Perm stable') :
    SumsFit off stable ↔ SumsFit off' stable' :=
  ⟨SumsFit.perm hoff hstable, SumsFit.perm hoff.symm hstable.symm⟩

/-- a record of a backend is on one of its sides -/
theorem mem_sides {record : Record} :
    record ∈ side records backend false ++ side records backend true ↔ record ∈ records ∧ record.backend = backend := by
  simp only [side, List.mem_append, List.mem_filter, decide_eq_true_eq]
  cases record.stableIndexReadRetry <;> simp

/-- **The summary of a backend** of grouped records. -/
theorem summarize_ok_iff (checks : Bool) (h : Groups records grouped) (hgroupable : Groupable records)
    (hget : grouped[backend]? = some pairs) :
    (∃ summary, summarize checks backend pairs = .ok summary) ↔
      (∀ (pairNumber : UInt64) (pair : Pair), pairs[pairNumber]? = some pair → ∀ flag, (pair.slot flag).isSome) ∧
      (∀ record ∈ records, record.backend = backend → record.Timed) ∧
      (checks = true → SumsFit (side records backend false) (side records backend true)) := by
  obtain ⟨pairNumber, hmem⟩ := h.tidy.backend backend pairs hget
  have hne : pairs.isEmpty = false := by
    cases hempty : pairs.isEmpty with
    | false => rfl
    | true =>
      rw [Std.ExtTreeMap.isEmpty_iff] at hempty
      rw [hempty] at hmem
      simp at hmem
  rw [summarize, hne, if_neg Bool.false_ne_true, ← sides_ok_iff backend pairs]
  cases hsides : sides backend pairs with
  | error failure => simp
  | ok l =>
    obtain ⟨hoff, hstable⟩ := sides_ok hsides
    have hlength : l.length = pairs.toList.length := (mapM_eq_ok.1 hsides).length_eq.symm
    have hpos : 0 < l.length := by
      obtain ⟨pair, hpair⟩ := (TreeMap.mem_iff_get _ _).1 hmem
      rw [hlength]
      exact List.length_pos_of_mem (Std.ExtTreeMap.mem_toList_iff_getElem?_eq_some.2 hpair)
    have hoffPerm := slotted_perm h hgroupable hget false
    have hstablePerm := slotted_perm h hgroupable hget true
    rw [ok_bind, compile_ok_iff checks backend (by rwa [List.length_map]) (by rw [List.length_map, List.length_map]),
      hoff, hstable, sumsFit_iff hoffPerm hstablePerm]
    simp only [(hoffPerm.append hstablePerm).mem_iff, mem_sides, and_imp, Except.ok.injEq, exists_eq', true_and]

/-! ## All summaries -/

/-- the records that can be analyzed -/
structure Analyzable (records : List Record) : Prop where
  numbered : ∀ record ∈ records, record.campaignPair.isSome
  distinct : (records.map Record.key).Nodup
  paired : ∀ record ∈ records, ∃ partner ∈ records, partner.backend = record.backend ∧
    partner.campaignPair = record.campaignPair ∧ partner.stableIndexReadRetry = !record.stableIndexReadRetry
  timed : ∀ record ∈ records, record.Timed

theorem Analyzable.groupable (h : Analyzable records) : Groupable records := ⟨h.numbered, h.distinct⟩

/-- every slot of the groups is taken, if every record has its partner -/
theorem Analyzable.slots_isSome (h : Analyzable records) (hgroups : Groups records grouped)
    (hget : grouped[backend]? = some pairs) {pairNumber : UInt64} {pair : Pair}
    (hpair : pairs[pairNumber]? = some pair) (flag : Bool) : (pair.slot flag).isSome := by
  obtain ⟨flag', record, hrecord⟩ := hgroups.tidy.pair backend pairs pairNumber pair hget hpair
  by_cases hflag : flag = flag'
  · rw [hflag, hrecord]
    rfl
  · obtain ⟨hmem, hbackend, hnumber, hflag'⟩ := hgroups.record_of_slot hget hpair hrecord
    obtain ⟨partner, hpartner, hbackend', hnumber', hother⟩ := h.paired record hmem
    obtain ⟨pairs', pair', hget', hpair', hslot⟩ := hgroups.exists_slot hpartner (hnumber'.trans hnumber)
    rw [hbackend', hbackend, hget] at hget'
    cases hget'
    rw [hpair] at hpair'
    cases hpair'
    have hsame : partner.stableIndexReadRetry = flag := by
      rw [hother, hflag']
      exact (Bool.eq_not_of_ne hflag).symm
    rw [← hsame, hslot]
    rfl

/-- if every slot is taken, every record has its partner -/
theorem exists_partner (hgroups : Groups records grouped) {record : Record} (hrecord : record ∈ records)
    {pairNumber : UInt64} (hnumber : record.campaignPair = some pairNumber)
    (hget : grouped[record.backend]? = some pairs)
    (hslots : ∀ (pairNumber : UInt64) (pair : Pair), pairs[pairNumber]? = some pair → ∀ flag, (pair.slot flag).isSome) :
    ∃ partner ∈ records, partner.backend = record.backend ∧ partner.campaignPair = record.campaignPair ∧
      partner.stableIndexReadRetry = !record.stableIndexReadRetry := by
  obtain ⟨pairs', pair, hget', hpair, -⟩ := hgroups.exists_slot hrecord hnumber
  rw [hget] at hget'
  cases hget'
  obtain ⟨partner, hpartner⟩ := Option.isSome_iff_exists.1 (hslots pairNumber pair hpair !record.stableIndexReadRetry)
  obtain ⟨hmem, hbackend, hnumber', hflag⟩ := hgroups.record_of_slot hget hpair hpartner
  exact ⟨partner, hmem, hbackend, hnumber'.trans hnumber.symm, hflag⟩

/-- **What can be analyzed.** In a build with checks the sums of each backend must also fit. -/
theorem analyze_ok_iff (checks : Bool) (path : String) (records : List Record) :
    (∃ summaries, analyze checks path records = .ok summaries) ↔ Analyzable records ∧
      (checks = true → ∀ record ∈ records,
        SumsFit (side records record.backend false) (side records record.backend true)) := by
  constructor
  · intro h
    obtain ⟨summaries, h⟩ := h
    obtain ⟨grouped, hgroup, hsummaries⟩ := bind_eq_ok.1 h
    have hgroupable := (group_ok_iff path records).2 ⟨grouped, hgroup⟩
    obtain ⟨grouped', hgroup', hgroups⟩ := (group_ok_iff path records).1 hgroupable
    rw [hgroup] at hgroup'
    cases hgroup'
    have hall := exists_mapM_eq_ok.1 ⟨summaries, hsummaries⟩
    have hbackend : ∀ record ∈ records, ∃ pairNumber pairs, record.campaignPair = some pairNumber ∧
        grouped[record.backend]? = some pairs ∧ ∃ summary, summarize checks record.backend pairs = .ok summary := by
      intro record hrecord
      obtain ⟨pairNumber, hnumber⟩ := Option.isSome_iff_exists.1 (hgroupable.numbered record hrecord)
      obtain ⟨pairs, -, hget, -⟩ := hgroups.exists_slot hrecord hnumber
      exact ⟨pairNumber, pairs, hnumber, hget,
        hall (record.backend, pairs) (Std.ExtTreeMap.mem_toList_iff_getElem?_eq_some.2 hget)⟩
    refine ⟨⟨hgroupable.numbered, hgroupable.distinct, ?_, ?_⟩, ?_⟩
    · intro record hrecord
      obtain ⟨pairNumber, pairs, hnumber, hget, hsummary⟩ := hbackend record hrecord
      exact exists_partner hgroups hrecord hnumber hget ((summarize_ok_iff checks hgroups hgroupable hget).1 hsummary).1
    · intro record hrecord
      obtain ⟨-, pairs, -, hget, hsummary⟩ := hbackend record hrecord
      exact ((summarize_ok_iff checks hgroups hgroupable hget).1 hsummary).2.1 record hrecord rfl
    · intro hchecks record hrecord
      obtain ⟨-, pairs, -, hget, hsummary⟩ := hbackend record hrecord
      exact ((summarize_ok_iff checks hgroups hgroupable hget).1 hsummary).2.2 hchecks
  · intro h
    obtain ⟨hanalyzable, hfits⟩ := h
    obtain ⟨grouped, hgroup, hgroups⟩ := (group_ok_iff path records).1 hanalyzable.groupable
    rw [analyze, hgroup, ok_bind, exists_mapM_eq_ok]
    intro e he
    have hget := Std.ExtTreeMap.mem_toList_iff_getElem?_eq_some.1 he
    refine (summarize_ok_iff checks hgroups hanalyzable.groupable hget).2
      ⟨fun pairNumber pair hpair => hanalyzable.slots_isSome hgroups hget hpair,
        fun record hrecord _ => hanalyzable.timed record hrecord, fun hchecks => ?_⟩
    obtain ⟨pairNumber, hmem⟩ := hgroups.tidy.backend e.1 e.2 hget
    obtain ⟨pair, hpair⟩ := (TreeMap.mem_iff_get _ _).1 hmem
    obtain ⟨flag, record, hslot⟩ := hgroups.tidy.pair e.1 e.2 pairNumber pair hget hpair
    obtain ⟨hrecord, hbackend, -⟩ := hgroups.record_of_slot hget hpair hslot
    exact hbackend ▸ hfits hchecks record hrecord

/-- **The paired analyzer does not depend on the order of the lines.** However the records are permuted, either both
runs fail or both print the same summaries. Without overflow checks a run succeeds exactly on the analyzable records;
with them, exactly on those whose sums fit as well. -/
theorem analyze_order_independent (checks : Bool) (path : String) (records : List Record) :
    (∀ records', records.Perm records' →
      (analyze checks path records').toOption = (analyze checks path records).toOption) ∧
    ((∃ summaries, analyze false path records = .ok summaries) ↔ Analyzable records) ∧
    ((∃ summaries, analyze true path records = .ok summaries) ↔ Analyzable records ∧ ∀ record ∈ records,
      SumsFit (side records record.backend false) (side records record.backend true)) := by
  refine ⟨fun records' hperm => ?_, ?_, ?_⟩
  · by_cases hgroupable : Groupable records
    · obtain ⟨grouped, hgroup, hgroups⟩ := (group_ok_iff path records).1 hgroupable
      obtain ⟨grouped', hgroup', hgroups'⟩ := (group_ok_iff path records').1 (hgroupable.perm hperm)
      rw [analyze, analyze, hgroup, hgroup', hgroups.unique hperm hgroups']
    · have hfails : ∀ l, ¬ Groupable l → (analyze checks path l).toOption = none := by
        intro l hl
        cases hgroup : group path l with
        | error failure => rw [analyze, hgroup, error_bind]; rfl
        | ok grouped => exact absurd ((group_ok_iff path l).2 ⟨grouped, hgroup⟩) hl
      rw [hfails records hgroupable, hfails records' fun h => hgroupable (h.perm hperm.symm)]
  · rw [analyze_ok_iff]
    simp only [Bool.false_eq_true, false_implies, and_true]
  · rw [analyze_ok_iff]
    simp only [true_implies]

/-- the two results of one pair -/
def sampleResult (flag : Bool) : Record where
  backend := "arctic"
  campaignPair := some 1
  operations := 1000
  firstReadMisses := 3
  retryRecovered := 3
  finalReadErrors := 0
  insertErrors := 0
  opsPerSecond := ⟨50000, by decide⟩
  readLatency := ⟨some 120, some 450⟩
  stableIndexReadRetry := flag

theorem analyze_order_independent_pair :
    (∃ summaries, analyze false "results.jsonl" [sampleResult false, sampleResult true] = .ok summaries) ∧
    (analyze false "results.jsonl" [sampleResult true, sampleResult false]).toOption =
      (analyze false "results.jsonl" [sampleResult false, sampleResult true]).toOption := by
  obtain ⟨hperm, hok, -⟩ := analyze_order_independent false "results.jsonl" [sampleResult false, sampleResult true]
  refine ⟨hok.2 ⟨?_, ?_, ?_, ?_⟩, hperm _ (List.Perm.swap _ _ [])⟩
  · simp [sampleResult]
  · simp [sampleResult, Record.key]
  · simp [sampleResult]
  · simp [sampleResult, Record.Timed]

end WtBenchmarks.AnalyzePaired
