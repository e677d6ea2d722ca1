/-
The records of the paired analyzer and its grouping loop (`src/bin/analyze-paired-ycsb-retry.rs`).

A throughput is a positive rational. A failure is an error with its message, or a panic. The loop puts each record into
the slot of its backend, pair and feature flag, in nested ordered maps; `slot` reads them back.

- `Tidy.ext`: maps without empty entries are determined by their slots;
- `put_ok`, `put_error`: one line;
- `group_ok_iff`: when the loop succeeds, and that it then holds exactly the records (`Groups`);
- `Groups.unique`: so that the order of the lines does not matter.
-/
import WtBenchmarks.Core.Total
import WtBenchmarks.Core.TreeMap

namespace WtBenchmarks.AnalyzePaired

/-! ## Model -/

structure Latency where
  p50Ns : Option UInt64
  p99Ns : Option UInt64
deriving DecidableEq

structure Record where
  backend : String
  campaignPair : Option UInt64
  operations : UInt64
  firstReadMisses : UInt64
  retryRecovered : UInt64
  finalReadErrors : UInt64
  insertErrors : UInt64
  opsPerSecond : {throughput : ℚ // 0 < throughput}
  readLatency : Latency
  stableIndexReadRetry : Bool
deriving DecidableEq

structure Pair where
  off : Option Record
  stable : Option Record

def Pair.default : Pair := ⟨none, none⟩

inductive Failure where
  | error (message : String)
  | panic
deriving DecidableEq, Repr

abbrev Grouped := Std.ExtTreeMap String (Std.ExtTreeMap UInt64 Pair)

def Pair.slot (pair : Pair) : Bool → Option Record
  | true => pair.stable
  | false => pair.off

/-- `slot.replace(record)` -/
def Pair.replace (pair : Pair) (record : Record) : Pair :=
  if record.stableIndexReadRetry then { pair with stable := some record } else { pair with off := some record }

/-- a line of the input -/
def put (path : String) (grouped : Grouped) (line : Record × ℕ) : Except Failure Grouped :=
  match line.1.campaignPair with
  | none => .error (.error s!"{path} line {line.2 + 1} has no campaign_pair")
  | some pairNumber =>
    let pairs := (grouped[line.1.backend]?).getD ∅
    let pair := (pairs[pairNumber]?).getD Pair.default
    if (pair.slot line.1.stableIndexReadRetry).isSome then
      .error (.error s!"{path} contains a duplicate result in pair {pairNumber}")
    else .ok (grouped.insert line.1.backend (pairs.insert pairNumber (pair.replace line.1)))

/-- the loop over the lines -/
def group (path : String) (records : List Record) : Except Failure Grouped :=
  records.zipIdx.foldlM (put path) ∅

/-! ## Slots -/

@[simp] theorem slot_replace (pair : Pair) (record : Record) (flag : Bool) :
    (pair.replace record).slot flag = if record.stableIndexReadRetry = flag then some record else pair.slot flag := by
  unfold Pair.replace
  cases record.stableIndexReadRetry <;> cases flag <;> rfl

theorem Pair.ext_slots {pair pair' : Pair} (h : ∀ flag, pair.slot flag = pair'.slot flag) : pair = pair' := by
  have hoff : pair.off = pair'.off := h false
  have hstable : pair.stable = pair'.stable := h true
  cases pair
  cases pair'
  cases hoff
  cases hstable
  rfl

def slot (grouped : Grouped) (backend : String) (pairNumber : UInt64) (flag : Bool) : Option Record := do
  let pairs ← grouped[backend]?
  let pair ← pairs[pairNumber]?
  pair.slot flag

/-- no pair is without a record, and no backend without a pair -/
structure Tidy (grouped : Grouped) : Prop where
  backend : ∀ (backend : String) pairs, grouped[backend]? = some pairs → ∃ pairNumber : UInt64, pairNumber ∈ pairs
  pair : ∀ (backend : String) pairs (pairNumber : UInt64) pair, grouped[backend]? = some pairs →
    pairs[pairNumber]? = some pair → ∃ flag record, pair.slot flag = some record

theorem slot_of_get {grouped : Grouped} {backend : String} {pairs : Std.ExtTreeMap UInt64 Pair}
    (h : grouped[backend]? = some pairs) (pairNumber : UInt64) (flag : Bool) :
    slot grouped backend pairNumber flag = (pairs[pairNumber]?).bind fun pair : Pair => pair.slot flag := by
  rw [slot, h]
  rfl

theorem slot_of_get_none {grouped : Grouped} {backend : String} (h : grouped[backend]? = none) (pairNumber : UInt64)
    (flag : Bool) : slot grouped backend pairNumber flag = none := by
  rw [slot, h]
  rfl

/-- an entry of a tidy map that has no slot has no entry -/
theorem Tidy.pair_none {grouped : Grouped} (h : Tidy grouped) {backend : String} {pairs : Std.ExtTreeMap UInt64 Pair}
    (hget : grouped[backend]? = some pairs) {pairNumber : UInt64}
    (hslots : ∀ flag, slot grouped backend pairNumber flag = none) : pairs[pairNumber]? = none := by
  cases hpair : pairs[pairNumber]? with
  | none => rfl
  | some pair =>
    obtain ⟨flag, record, hrecord⟩ := h.pair backend pairs pairNumber pair hget hpair
    have hnone := hslots flag
    rw [slot_of_get hget, hpair, Option.bind_some, hrecord] at hnone
    cases hnone

theorem Tidy.backend_none {grouped : Grouped} (h : Tidy grouped) {backend : String}
    (hslots : ∀ pairNumber flag, slot grouped backend pairNumber flag = none) : grouped[backend]? = none := by
  cases hget : grouped[backend]? with
  | none => rfl
  | some pairs =>
    obtain ⟨pairNumber, hmem⟩ := h.backend backend pairs hget
    obtain ⟨pair, hpair⟩ := (TreeMap.mem_iff_get _ _).1 hmem
    rw [h.pair_none hget (hslots pairNumber)] at hpair
    cases hpair

/-- **Tidy maps are determined by their slots.** -/
theorem Tidy.ext {grouped grouped' : Grouped} (h : Tidy grouped) (h' : Tidy grouped')
    (hslots : ∀ backend pairNumber flag, slot grouped backend pairNumber flag = slot grouped' backend pairNumber flag) :
    grouped = grouped' := by
  refine Std.ExtTreeMap.ext_getElem? fun backend => ?_
  cases hget : grouped[backend]? with
  | none =>
    exact (h'.backend_none fun pairNumber flag => by rw [← hslots, slot_of_get_none hget]).symm
  | some pairs =>
    cases hget' : grouped'[backend]? with
    | none =>
      have hnone := h.backend_none fun pairNumber flag => by rw [hslots, slot_of_get_none hget']
      rw [hget] at hnone
      cases hnone
    | some pairs' =>
      refine congrArg some (Std.ExtTreeMap.ext_getElem? fun pairNumber => ?_)
      cases hpair : pairs[pairNumber]? with
      | none =>
        refine (h'.pair_none hget' fun flag => ?_).symm
        rw [← hslots, slot_of_get hget, hpair, Option.bind_none]
      | some pair =>
        cases hpair' : pairs'[pairNumber]? with
        | none =>
          have hnone := h.pair_none hget fun flag => by
            rw [hslots, slot_of_get hget', hpair', Option.bind_none]
          rw [hpair] at hnone
          cases hnone
        | some pair' =>
          refine congrArg some (Pair.ext_slots fun flag => ?_)
          have hboth := hslots backend pairNumber flag
          rwa [slot_of_get hget, slot_of_get hget', hpair, hpair', Option.bind_some, Option.bind_some] at hboth

/-! ## One line -/

/-- what identifies the slot of a record -/
def Record.key (record : Record) : String × Option UInt64 × Bool :=
  (record.backend, record.campaignPair, record.stableIndexReadRetry)

/-- a slot, with the defaults of the two entries -/
theorem slot_eq_getD (grouped : Grouped) (backend : String) (pairNumber : UInt64) (flag : Bool) :
    slot grouped backend pairNumber flag =
      ((((grouped[backend]?).getD ∅)[pairNumber]?).getD Pair.default).slot flag := by
  have hdefault : Pair.default.slot flag = none := by cases flag <;> rfl
  cases hget : grouped[backend]? with
  | none =>
    rw [slot_of_get_none hget, Option.getD_none, Std.ExtTreeMap.getElem?_empty, Option.getD_none, hdefault]
  | some pairs =>
    rw [slot_of_get hget, Option.getD_some]
    cases pairs[pairNumber]? with
    | none => exact hdefault.symm
    | some pair => rfl

/-- **A line with a free slot** fills this slot, and no other. -/
theorem put_ok {grouped : Grouped} (htidy : Tidy grouped) (path : String) (line : Record × ℕ) {pairNumber : UInt64}
    (hnumber : line.1.campaignPair = some pairNumber)
    (hfree : slot grouped line.1.backend pairNumber line.1.stableIndexReadRetry = none) :
    ∃ grouped', put path grouped line = .ok grouped' ∧ Tidy grouped' ∧
      ∀ backend number flag, slot grouped' backend number flag =
        if line.1.key = (backend, some number, flag) then some line.1 else slot grouped backend number flag := by
  obtain ⟨record, index⟩ := line
  dsimp only at hnumber hfree ⊢
  set pairs := (grouped[record.backend]?).getD ∅ with hpairs
  set pair := (pairs[pairNumber]?).getD Pair.default with hpair
  have hslot : ∀ flag, slot grouped record.backend pairNumber flag = pair.slot flag := slot_eq_getD grouped _ _
  rw [hslot] at hfree
  refine ⟨grouped.insert record.backend (pairs.insert pairNumber (pair.replace record)), ?_, ⟨?_, ?_⟩, ?_⟩
  · simp only [put, hnumber, ← hpairs, ← hpair, hfree, Option.isSome_none, Bool.false_eq_true, if_false]
  · intro backend pairs' hget
    rw [TreeMap.get_insert] at hget
    split_ifs at hget with hbackend
    · cases hget
      exact ⟨pairNumber, (TreeMap.mem_insert _ _ _ _).2 (Or.inl rfl)⟩
    · exact htidy.backend backend pairs' hget
  · intro backend pairs' number pair' hget hget'
    rw [TreeMap.get_insert] at hget
    split_ifs at hget with hbackend
    · cases hget
      rw [TreeMap.get_insert] at hget'
      split_ifs at hget' with heq
      · cases hget'
        exact ⟨record.stableIndexReadRetry, record, by rw [slot_replace, if_pos rfl]⟩
      · cases hold : grouped[record.backend]? with
        | none =>
          rw [hpairs, hold, Option.getD_none, Std.ExtTreeMap.getElem?_empty] at hget'
          cases hget'
        | some old =>
          rw [hpairs, hold, Option.getD_some] at hget'
          exact htidy.pair record.backend old number pair' hold hget'
    · exact htidy.pair backend pairs' number pair' hget hget'
  · intro backend number flag
    rw [slot_eq_getD, TreeMap.get_insert]
    by_cases hbackend : record.backend = backend
    · subst hbackend
      rw [if_pos rfl, Option.getD_some, TreeMap.get_insert]
      by_cases heq : pairNumber = number
      · subst heq
        rw [if_pos rfl, Option.getD_some, slot_replace, ← hslot]
        simp only [Record.key, hnumber, Prod.mk.injEq, true_and]
      · rw [if_neg heq, if_neg (by simp [Record.key, hnumber, heq]), slot_eq_getD]
    · rw [if_neg hbackend, if_neg (by simp [Record.key, hbackend]), slot_eq_getD]

/-- a line without a pair number, or whose slot is taken, is an error -/
theorem put_error {grouped : Grouped} (path : String) (line : Record × ℕ)
    (h : ∀ pairNumber, line.1.campaignPair = some pairNumber →
      slot grouped line.1.backend pairNumber line.1.stableIndexReadRetry ≠ none) :
    ∃ failure, put path grouped line = .error failure := by
  cases hnumber : line.1.campaignPair with
  | none => exact ⟨_, by simp only [put, hnumber]; rfl⟩
  | some pairNumber =>
    have htaken := Option.isSome_iff_ne_none.2 (h pairNumber hnumber)
    rw [slot_eq_getD] at htaken
    exact ⟨_, by simp only [put, hnumber, htaken, if_true]; rfl⟩

/-! ## All lines -/

/-- what the loop accepts: records with a pair number, no two of them for one slot -/
structure Groupable (records : List Record) : Prop where
  numbered : ∀ record ∈ records, record.campaignPair.isSome
  distinct : (records.map Record.key).Nodup

/-- the maps hold exactly the records -/
structure Groups (records : List Record) (grouped : Grouped) : Prop where
  tidy : Tidy grouped
  slots : ∀ backend pairNumber flag record, slot grouped backend pairNumber flag = some record ↔
    record ∈ records ∧ record.key = (backend, some pairNumber, flag)

/-- the record in a slot -/
theorem Groups.record_of_slot {records : List Record} {grouped : Grouped} (h : Groups records grouped)
    {backend : String} {pairs : Std.ExtTreeMap UInt64 Pair} (hget : grouped[backend]? = some pairs)
    {pairNumber : UInt64} {pair : Pair} (hpair : pairs[pairNumber]? = some pair) {flag : Bool} {record : Record}
    (hslot : pair.slot flag = some record) :
    record ∈ records ∧ record.backend = backend ∧ record.campaignPair = some pairNumber ∧
      record.stableIndexReadRetry = flag := by
  have hrecord := (h.slots backend pairNumber flag record).1 (by rw [slot_of_get hget, hpair]; exact hslot)
  simpa only [Record.key, Prod.mk.injEq] using hrecord

/-- the slot of a record -/
theorem Groups.exists_slot {records : List Record} {grouped : Grouped} (h : Groups records grouped) {record : Record}
    (hrecord : record ∈ records) {pairNumber : UInt64} (hnumber : record.campaignPair = some pairNumber) :
    ∃ pairs pair, grouped[record.backend]? = some pairs ∧ pairs[pairNumber]? = some pair ∧
      pair.slot record.stableIndexReadRetry = some record := by
  have hslot := (h.slots record.backend pairNumber record.stableIndexReadRetry record).2
    ⟨hrecord, by rw [Record.key, hnumber]⟩
  simp only [slot, Option.bind_eq_bind, Option.bind_eq_some_iff] at hslot
  obtain ⟨pairs, hget, pair, hpair, hslot⟩ := hslot
  exact ⟨pairs, pair, hget, hpair, hslot⟩

theorem groups_empty : Groups [] ∅ where
  tidy := ⟨fun backend pairs h => by simp at h, fun backend pairs pairNumber pair h => by simp at h⟩
  slots backend pairNumber flag record := by simp [slot]

/-- **The order does not matter**: the same records, however they came, are grouped in the same way. -/
theorem Groups.unique {records records' : List Record} (hperm : records.Perm records') {grouped grouped' : Grouped}
    (h : Groups records grouped) (h' : Groups records' grouped') : grouped = grouped' := by
  refine h.tidy.ext h'.tidy fun backend pairNumber flag => Option.ext fun record => ?_
  rw [h.slots, h'.slots, hperm.mem_iff]

theorem Groupable.perm {records records' : List Record} (hperm : records.Perm records') (h : Groupable records) :
    Groupable records' where
  numbered record hrecord := h.numbered record (hperm.mem_iff.2 hrecord)
  distinct := (hperm.map Record.key).nodup_iff.1 h.distinct

/-- a line that the loop accepts adds its record -/
theorem put_groups {records : List Record} {grouped : Grouped} (h : Groups records grouped) (path : String)
    (line : Record × ℕ) (hgroupable : Groupable (records ++ [line.1])) :
    ∃ grouped', put path grouped line = .ok grouped' ∧ Groups (records ++ [line.1]) grouped' := by
  obtain ⟨pairNumber, hnumber⟩ := Option.isSome_iff_exists.1 (hgroupable.numbered line.1 (by simp))
  have hdistinct := hgroupable.distinct
  rw [List.map_append, List.nodup_append] at hdistinct
  have hfresh : ∀ record ∈ records, record.key ≠ line.1.key := fun record hrecord =>
    hdistinct.2.2 _ (List.mem_map_of_mem hrecord) _ (by simp)
  have hfree : slot grouped line.1.backend pairNumber line.1.stableIndexReadRetry = none := by
    rw [Option.eq_none_iff_forall_ne_some]
    intro record hrecord
    obtain ⟨hmem, hkey⟩ := (h.slots _ _ _ _).1 hrecord
    exact hfresh record hmem (by rw [hkey, Record.key, hnumber])
  obtain ⟨grouped', hput, htidy, hslots⟩ := put_ok h.tidy path line hnumber hfree
  refine ⟨grouped', hput, htidy, fun backend number flag record => ?_⟩
  rw [hslots, List.mem_append, List.mem_singleton]
  split_ifs with hkey
  · constructor
    · intro heq
      cases heq
      exact ⟨Or.inr rfl, hkey⟩
    · intro hrecord
      obtain ⟨hmem | rfl, hsame⟩ := hrecord
      · exact absurd (hsame.trans hkey.symm) (hfresh record hmem)
      · rfl
  · rw [h.slots]
    constructor
    · intro hrecord
      exact ⟨Or.inl hrecord.1, hrecord.2⟩
    · intro hrecord
      obtain ⟨hmem | rfl, hsame⟩ := hrecord
      · exact ⟨hmem, hsame⟩
      · exact absurd hsame hkey

/-- a line that is accepted has a pair number and a slot of its own -/
theorem groupable_of_put {records : List Record} {grouped grouped' : Grouped} (h : Groups records grouped)
    (hgroupable : Groupable records) {path : String} {line : Record × ℕ} (hput : put path grouped line = .ok grouped') :
    Groupable (records ++ [line.1]) := by
  have hopen : ∃ pairNumber, line.1.campaignPair = some pairNumber ∧
      slot grouped line.1.backend pairNumber line.1.stableIndexReadRetry = none := by
    by_contra hclosed
    push Not at hclosed
    obtain ⟨failure, herror⟩ := put_error path line hclosed
    rw [hput] at herror
    cases herror
  obtain ⟨pairNumber, hnumber, hfree⟩ := hopen
  refine ⟨fun record hrecord => ?_, ?_⟩
  · rcases List.mem_append.1 hrecord with hold | hnew
    · exact hgroupable.numbered record hold
    · rw [List.mem_singleton.1 hnew, hnumber]
      rfl
  · rw [List.map_append, List.map_singleton, ← List.concat_eq_append]
    refine hgroupable.distinct.concat fun hmem => ?_
    obtain ⟨record, hrecord, hkey⟩ := List.mem_map.1 hmem
    have htaken := (h.slots line.1.backend pairNumber line.1.stableIndexReadRetry record).2
      ⟨hrecord, by rw [hkey, Record.key, hnumber]⟩
    rw [hfree] at htaken
    cases htaken

/-- the loop from any line on -/
theorem group_from (path : String) (rest done : List Record) (line : ℕ) {grouped : Grouped} (h : Groups done grouped)
    (hdone : Groupable done) :
    (Groupable (done ++ rest) → ∃ grouped', (rest.zipIdx line).foldlM (put path) grouped = .ok grouped' ∧
      Groups (done ++ rest) grouped') ∧
    ((∃ grouped', (rest.zipIdx line).foldlM (put path) grouped = .ok grouped') → Groupable (done ++ rest)) := by
  induction rest generalizing done line grouped with
  | nil =>
    rw [List.append_nil]
    exact ⟨fun _ => ⟨grouped, rfl, h⟩, fun _ => hdone⟩
  | cons record rest ih =>
    have hsplit : done ++ record :: rest = (done ++ [record]) ++ rest := by simp
    rw [List.zipIdx_cons, List.foldlM_cons, hsplit]
    cases hput : put path grouped (record, line) with
    | error failure =>
      constructor
      · intro hgroupable
        have hprefix : Groupable (done ++ [record]) := ⟨fun r hr => hgroupable.numbered r (List.mem_append_left _ hr),
          hgroupable.distinct.sublist ((List.sublist_append_left _ _).map _)⟩
        obtain ⟨grouped', hok, -⟩ := put_groups h path (record, line) hprefix
        rw [hput] at hok
        cases hok
      · intro hok
        obtain ⟨grouped', hok⟩ := hok
        cases hok
    | ok grouped' =>
      have hnext := groupable_of_put h hdone hput
      obtain ⟨grouped'', hput', hgroups⟩ := put_groups h path (record, line) hnext
      rw [hput] at hput'
      cases hput'
      exact ih (done ++ [record]) (line + 1) hgroups hnext

/-- **The grouping loop** succeeds exactly on groupable records, and then holds exactly these. -/
theorem group_ok_iff (path : String) (records : List Record) :
    (Groupable records → ∃ grouped, group path records = .ok grouped ∧ Groups records grouped) ∧
      ((∃ grouped, group path records = .ok grouped) → Groupable records) :=
  group_from path records [] 0 groups_empty ⟨nofun, List.nodup_nil⟩

end WtBenchmarks.AnalyzePaired
