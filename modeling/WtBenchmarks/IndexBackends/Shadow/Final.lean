/-
The end of a repetition: every run can be finished, and the final checks find nothing.

Each step of a writer or a reader brings it closer to its last turn. Once all have finished every marker is stable, so
the table is the one the shadow describes (`Settled`): its rows are exactly those of the loaded ids at their marked
generations, and lookups by key, by unique key and by bucket all give what the checks expect.

- `measure_step`: a step lowers the work of its thread;
- `settled_of_finished`: what holds when all threads have finished;
- `finalRow_settled`, `finalBucket_settled`: no check counts a mismatch;
- `shadow_oracle_passes`: the oracle raises no false alarm.
-/
import WtBenchmarks.IndexBackends.Shadow.Setup

namespace WtBenchmarks.IndexBackends.Shadow

variable {config : Config}

/-! ## Finishing -/

/-- steps left in the turn of a writer -/
def WriterPc.left : WriterPc → ℕ
  | .load => 5
  | .mark .. => 4
  | .write .. => 3
  | .reinsert .. => 2
  | .publish .. => 1
  | .verify .. => 0

/-- steps left in the turn of a reader -/
def ReaderPc.left : ReaderPc → ℕ
  | .loadPrimary => 9
  | .selectPrimary .. => 8
  | .checkPrimary .. => 7
  | .loadUnique .. => 6
  | .selectUnique .. => 5
  | .checkUnique .. => 4
  | .loadStale .. => 3
  | .selectStale .. => 2
  | .checkStale .. => 1
  | .selectBucket => 0

/-- a bound on the steps a thread has left -/
def measure : Local → ℕ
  | .writer w => 6 * (w.operations - w.sequence) + w.pc.left
  | .reader r => 10 * (r.operations - r.sequence) + r.pc.left
  | .panicked => 0

section Measure

variable {stride : UInt64} {g g' : Shared}

theorem writer_measure {w w' : Writer} (hturn : w.sequence < w.operations)
    (h : writerStep config stride g w = some (g', w')) : measure (.writer w') < measure (.writer w) := by
  unfold writerStep at h
  cases hpc : w.pc <;> simp only [hpc, Option.bind_eq_bind] at h
  case load =>
    obtain ⟨id, -, h⟩ := Option.bind_eq_some_iff.1 h
    obtain ⟨marker, -, h⟩ := Option.bind_eq_some_iff.1 h
    cases h
    simp [measure, hpc, WriterPc.left]
  case mark =>
    obtain ⟨g₁, -, h⟩ := Option.bind_eq_some_iff.1 h
    obtain ⟨generation, -, h⟩ := Option.bind_eq_some_iff.1 h
    obtain ⟨row, -, h⟩ := Option.bind_eq_some_iff.1 h
    cases h
    simp [measure, hpc, WriterPc.left]
  case write =>
    split_ifs at h
    · split at h <;> cases h <;> simp [measure, hpc, WriterPc.left]
    · split at h <;> cases h <;> simp [measure, hpc, WriterPc.left]
  case reinsert => split at h <;> cases h <;> simp [measure, hpc, WriterPc.left]
  case publish =>
    split_ifs at h
    · obtain ⟨g₁, -, h⟩ := Option.bind_eq_some_iff.1 h
      cases h
      simp [measure, hpc, WriterPc.left]
    · obtain ⟨g₁, -, h⟩ := Option.bind_eq_some_iff.1 h
      cases h
      simp [measure, hpc, WriterPc.left]
  case verify =>
    have hnext : w'.sequence = w.sequence + 1 ∧ w'.operations = w.operations ∧ w'.pc = .load := by
      split at h
      · cases h
        exact ⟨rfl, rfl, rfl⟩
      · obtain ⟨c, -, h⟩ := Option.bind_eq_some_iff.1 h
        cases h
        exact ⟨rfl, rfl, rfl⟩
    obtain ⟨hsequence, hoperations, hload⟩ := hnext
    simp only [measure, hpc, hload, hsequence, hoperations, WriterPc.left]
    omega

theorem nextSequence_measure {r : Reader} (hturn : r.sequence < r.operations) :
    measure (.reader (nextSequence r)) < 10 * (r.operations - r.sequence) := by
  simp only [measure, nextSequence, ReaderPc.left]
  omega

theorem endChecks_measure {r : Reader} (hturn : r.sequence < r.operations) :
    measure (.reader (endChecks r)) ≤ 10 * (r.operations - r.sequence) := by
  have hnext := nextSequence_measure hturn
  unfold endChecks
  split_ifs
  · exact le_rfl
  · exact hnext.le

theorem reader_measure {r r' : Reader} (hturn : r.sequence < r.operations)
    (h : readerStep config stride g r = some (g', r')) : measure (.reader r') < measure (.reader r) := by
  have hend := endChecks_measure hturn
  have hnext := nextSequence_measure hturn
  have hself : measure (.reader r) = 10 * (r.operations - r.sequence) + r.pc.left := rfl
  unfold readerStep at h
  cases hpc : r.pc <;> rw [hpc] at hself <;> simp only [hpc, Option.bind_eq_bind] at h
  case loadPrimary =>
    obtain ⟨id, -, h⟩ := Option.bind_eq_some_iff.1 h
    obtain ⟨before, -, h⟩ := Option.bind_eq_some_iff.1 h
    cases h
    simp [measure, hpc, ReaderPc.left]
  case selectPrimary =>
    cases h
    simp [measure, hpc, ReaderPc.left]
  case checkPrimary =>
    obtain ⟨after, -, h⟩ := Option.bind_eq_some_iff.1 h
    obtain ⟨c, -, h⟩ := Option.bind_eq_some_iff.1 h
    cases h
    simp [measure, hpc, ReaderPc.left]
  case loadUnique =>
    obtain ⟨before, -, h⟩ := Option.bind_eq_some_iff.1 h
    cases h
    simp [measure, hpc, ReaderPc.left]
  case selectUnique =>
    obtain ⟨key, -, h⟩ := Option.bind_eq_some_iff.1 h
    cases h
    simp [measure, hpc, ReaderPc.left]
  case checkUnique =>
    obtain ⟨after, -, h⟩ := Option.bind_eq_some_iff.1 h
    obtain ⟨c, -, h⟩ := Option.bind_eq_some_iff.1 h
    cases h
    rw [hself, ReaderPc.left]
    split_ifs
    · simp [measure, ReaderPc.left]
    · omega
  case loadStale =>
    obtain ⟨before, -, h⟩ := Option.bind_eq_some_iff.1 h
    cases h
    simp [measure, hpc, ReaderPc.left]
  case selectStale =>
    obtain ⟨previous, -, h⟩ := Option.bind_eq_some_iff.1 h
    obtain ⟨key, -, h⟩ := Option.bind_eq_some_iff.1 h
    cases h
    simp [measure, hpc, ReaderPc.left]
  case checkStale =>
    obtain ⟨after, -, h⟩ := Option.bind_eq_some_iff.1 h
    cases h
    rw [hself, ReaderPc.left]
    omega
  case selectBucket =>
    obtain ⟨selected, -, h⟩ := Option.bind_eq_some_iff.1 h
    obtain ⟨c, -, h⟩ := Option.bind_eq_some_iff.1 h
    cases h
    rw [hself]
    exact hnext

/-- **Every step lowers the measure.** -/
theorem measure_step {t : Worker config} {l l' : Local} (hpanic : l' ≠ .panicked)
    (h : step config stride t g l = some (g', l')) : measure l' < measure l := by
  cases l with
  | writer w =>
    simp only [step] at h
    split_ifs at h with hdone
    cases hw : writerStep config stride g w with
    | none =>
      rw [hw] at h
      cases h
      exact absurd rfl hpanic
    | some r =>
      rw [hw] at h
      cases h
      exact writer_measure (Nat.not_le.1 hdone) hw
  | reader r =>
    simp only [step] at h
    split_ifs at h with hdone
    cases hr : readerStep config stride g r with
    | none =>
      rw [hr] at h
      cases h
      exact absurd rfl hpanic
    | some r =>
      rw [hr] at h
      cases h
      exact reader_measure (Nat.not_le.1 hdone) hr
  | panicked => cases h

end Measure

/-- **Every run can be finished.** -/
theorem run_completes (hacc : config.Accepted) {s : Threads.State (Worker config) Shared Local}
    (h : (outline hacc).Holds s) :
    ∃ rest, ∀ t, ((Threads.run (step config (config.records + 1)) s rest).locals t).finished := by
  apply Threads.run_finishes (outline hacc).Holds Local.finished measure
    (fun s t g l hs ht => (outline hacc).exec_holds s t g l hs ht) _ _ s h
  · intro s t g l hs ht
    refine measure_step ?_ ht
    rintro rfl
    exact ((outline hacc).step_ok t _ _ g _ hs.1 (hs.2 t) ht).2.1.elim
  · rintro s hs ⟨t, ht⟩
    refine ⟨t, fun hnone => ?_⟩
    have hl := hs.2 t
    cases hlocal : s.locals t with
    | writer w =>
      rw [hlocal] at hnone ht
      simp only [step] at hnone
      split_ifs at hnone with hdone
      · exact ht hdone
      · split at hnone <;> cases hnone
    | reader r =>
      rw [hlocal] at hnone ht
      simp only [step] at hnone
      split_ifs at hnone with hdone
      · exact ht hdone
      · split at hnone <;> cases hnone
    | panicked =>
      rw [hlocal] at hl
      exact hl.elim

/-! ## The settled table -/

/-- the row that the shadow describes for an id -/
def shadowRow (config : Config) (g : Shared) (i : ℕ) : Row :=
  rowOf config (UInt64.ofNat i) (generationOf (g.shadow (UInt64.ofNat i)))

/-- the table is the one the shadow describes -/
structure Settled (config : Config) (g : Shared) : Prop where
  shared : SharedOk config g
  stable : ∀ id : UInt64, id.toNat < config.records.toNat → isWriting (g.shadow id) = false
  full : Full idKey config.records.toNat g.table.rows (shadowRow config g)

theorem WriterAt.idle {worker : Fin config.writerThreads} {w : Writer} {g : Shared} {pc : WriterPc}
    (hdone : w.operations ≤ w.sequence) (h : WriterAt worker w g pc) : IdleExcept worker none w.sequence g := by
  cases pc with
  | load => exact h
  | mark id previous => exact absurd h.1 (Nat.not_lt.2 hdone)
  | write id previous generation nextRow => exact absurd h.1.turn (Nat.not_lt.2 hdone)
  | reinsert id previous generation nextRow => exact absurd h.1.turn (Nat.not_lt.2 hdone)
  | publish id previous generation success => exact absurd h.1.turn (Nat.not_lt.2 hdone)
  | verify id => exact absurd h.1 (Nat.not_lt.2 hdone)

theorem Config.Accepted.writers_pos (hacc : config.Accepted) : 0 < config.writerThreads := by
  have hthreads := hacc.threads
  unfold Config.writerThreads Config.readerThreads
  omega

/-- **When all threads have finished the table is settled.** -/
theorem settled_of_finished (hacc : config.Accepted) {s : Threads.State (Worker config) Shared Local}
    (h : (outline hacc).Holds s) (hfin : ∀ t, (s.locals t).finished) : Settled config s.shared := by
  obtain ⟨hshared, hlocals⟩ := h
  have hstable : ∀ id : UInt64, id.toNat < config.records.toNat → isWriting (s.shared.shadow id) = false := by
    intro id hid
    let worker : Fin config.writerThreads := ⟨id.toNat % config.writerThreads, Nat.mod_lt _ hacc.writers_pos⟩
    have hl := hlocals (.inl worker)
    have hf := hfin (.inl worker)
    cases hlocal : s.locals (.inl worker) with
    | writer w =>
      rw [hlocal] at hl hf
      obtain ⟨worker', heq, hw⟩ := hl
      cases heq
      exact (hw.pc.idle hf id hid rfl nofun).1
    | reader r =>
      rw [hlocal] at hl
      obtain ⟨⟨reader, heq⟩, -⟩ := hl
      cases heq
    | panicked =>
      rw [hlocal] at hl
      exact hl.elim
  have hword : ∀ i < config.records.toNat, (UInt64.ofNat i).toNat = i := fun i hi =>
    ofNat_toNat_of_lt (hi.trans config.records.toNat_lt)
  refine ⟨hshared, hstable, fun i hi => ?_, fun id hid => ?_⟩
  · have hlt : (UInt64.ofNat i).toNat < config.records.toNat := (hword i hi).symm ▸ hi
    exact hshared.stable _ hlt (hstable _ hlt)
  · obtain ⟨row, hrow⟩ := (TreeMap.mem_iff_get s.shared.table.rows id).1 hid
    exact ⟨id.toNat, (hshared.rows id row hrow).1, UInt64.ofNat_toNat.symm⟩

/-! ## Final checks -/

/-- a list without duplicates has no two neighbours alike -/
theorem countP_neighbours {α : Type} [DecidableEq α] {l : List α} (h : l.Nodup) :
    (l.zip l.tail).countP (fun pair => decide (pair.1 = pair.2)) = 0 := by
  rw [List.countP_eq_zero]
  rintro ⟨a, b⟩ hmem heq
  have hab : a = b := of_decide_eq_true heq
  induction l with
  | nil => cases hmem
  | cons x l ih =>
    cases l with
    | nil => cases hmem
    | cons y l =>
      rcases List.mem_cons.1 hmem with hhead | hrest
      · cases hhead
        exact (List.nodup_cons.1 h).1 (hab ▸ List.mem_cons_self)
      · exact ih (List.nodup_cons.1 h).2 hrest

section Checks

variable (hacc : config.Accepted) {g : Shared} (hset : Settled config g)
include hacc

theorem rejected_rowOf {id generation : UInt64} (hrange : InRange config id generation) :
    rejected config (config.records + 1) (some (rowOf config id generation)) id generation = some false := by
  unfold rejected
  rw [mismatch_rowOf, if_neg Bool.false_ne_true]
  dsimp only
  rw [validRow_rowOf hacc hrange]
  rfl

include hset

/-- **No id is found at fault.** -/
theorem finalRow_settled {id : UInt64} (hid : id.toNat < config.records.toNat) (c : Counters) :
    finalRow config (config.records + 1) g c id = some c := by
  have hstable := hset.stable id hid
  have hbound := hset.shared.bound id hid
  have hrange := hacc.inRange hid hbound
  unfold finalRow
  simp only [Option.bind_eq_bind]
  rw [load_some hid, Option.bind_some, uniqueKey_some hacc hrange, Option.bind_some, hset.shared.stable id hid hstable,
    rejected_rowOf hacc hrange, Option.bind_some, select_current hset.shared hid hstable, rejected_rowOf hacc hrange,
    Option.bind_some]
  simp only [Bool.false_eq_true, ↓reduceIte]
  split_ifs with hpos
  · have hone : (1 : UInt64).toNat = 1 := rfl
    have hpos' : 0 < (generationOf (g.shadow id)).toNat := UInt64.lt_iff_toNat_lt.1 hpos
    obtain ⟨older, hsub, holder⟩ := checkedSub_some (a := generationOf (g.shadow id)) (b := 1) (by omega)
    rw [hsub, Option.bind_some, uniqueKey_some hacc (hacc.inRange hid (by omega)), Option.bind_some,
      select_older hacc hset.shared hid hstable (by omega)]
    rfl
  · rfl

/-- the ids of a bucket, as the shadow has them -/
def members (config : Config) (g : Shared) (b : UInt64) : List ℕ :=
  (List.range config.records.toNat).filter fun i => decide ((shadowRow config g i).bucket = b)

omit hacc hset in
theorem members_lt {b : UInt64} {i : ℕ} (hi : i ∈ members config g b) : i < config.records.toNat :=
  List.mem_range.1 (List.mem_filter.1 hi).1

omit hacc hset in
theorem word_toNat {i : ℕ} (hi : i < config.records.toNat) : (UInt64.ofNat i).toNat = i :=
  ofNat_toNat_of_lt (hi.trans config.records.toNat_lt)

omit hacc hset in
theorem members_increasing (b : UInt64) : (members config g b).Pairwise (· < ·) := List.pairwise_lt_range.filter _

omit hacc hset in
theorem members_nodup (b : UInt64) : ((members config g b).map UInt64.ofNat).Nodup := by
  refine List.Nodup.map_on (fun i hi j hj heq => ?_) ((members_increasing b).imp fun h => h.ne)
  rw [← word_toNat (members_lt hi), ← word_toNat (members_lt hj), heq]

omit hacc in
theorem selectByBucket_settled (b : UInt64) :
    selectByBucket g.table b = (members config g b).map (shadowRow config g) := by
  have hlist := hset.full.toList_eq (increasing_u64 config.records.toNat_lt.le)
  unfold selectByBucket members
  rw [hlist, List.filter_map, List.map_map]
  rfl

omit hacc hset in
/-- the rows of a bucket come in the order of their ids -/
theorem members_sorted (b : UInt64) :
    ((members config g b).map (shadowRow config g)).mergeSort (fun a b => decide (a.id ≤ b.id)) =
      (members config g b).map (shadowRow config g) := by
  apply List.mergeSort_of_pairwise
  rw [List.pairwise_map]
  refine (members_increasing b).imp_of_mem fun {i j} hi hj hlt => decide_eq_true ?_
  change UInt64.ofNat i ≤ UInt64.ofNat j
  rw [UInt64.le_iff_toNat_le, word_toNat (members_lt hi), word_toNat (members_lt hj)]
  exact hlt.le

/-- the buckets that the shadow expects -/
theorem shadowBuckets_settled :
    ((List.range config.records.toNat).map UInt64.ofNat).mapM
      (fun id => (shadowBucket config g id).bind fun b => some (id, b)) =
    some ((List.range config.records.toNat).map fun i => (UInt64.ofNat i, (shadowRow config g i).bucket)) := by
  rw [List.mapM_map]
  apply mapM_eq_some
  intro i hi
  have hi' := List.mem_range.1 hi
  have hlt : (UInt64.ofNat i).toNat < config.records.toNat := (word_toNat hi').symm ▸ hi'
  have hbucket := bucket_some hacc (hacc.inRange hlt (hset.shared.bound _ hlt))
  have hshadow : shadowBucket config g (UInt64.ofNat i) = some (shadowRow config g i).bucket := by
    unfold shadowBucket
    rw [load_some hlt]
    exact hbucket
  change (shadowBucket config g (UInt64.ofNat i)).bind _ = _
  rw [hshadow, Option.bind_some]

omit hacc hset in
theorem expected_members (b : UInt64) :
    (((List.range config.records.toNat).map fun i => (UInt64.ofNat i, (shadowRow config g i).bucket)).filter
      fun entry => decide (entry.2 = b)).map Prod.fst = (members config g b).map UInt64.ofNat := by
  unfold members
  rw [List.filter_map, List.map_map]
  rfl

theorem valid_members (b : UInt64) :
    ((members config g b).map (shadowRow config g)).mapM (fun row => validRow row config (config.records + 1)) =
      some ((members config g b).map fun _ => true) := by
  rw [List.mapM_map]
  apply mapM_eq_some
  intro i hi
  have hlt : (UInt64.ofNat i).toNat < config.records.toNat := (word_toNat (members_lt hi)).symm ▸ members_lt hi
  exact validRow_rowOf hacc (hacc.inRange hlt (hset.shared.bound _ hlt))

/-- **No bucket is found at fault.** -/
theorem finalBucket_settled (c : Counters) (b : UInt64) : finalBucket config (config.records + 1) g c b = some c := by
  have hobserved :
      ((members config g b).map (shadowRow config g)).map Row.id = (members config g b).map UInt64.ofNat := by
    rw [List.map_map]
    rfl
  have hnone : ((members config g b).map UInt64.ofNat).countP
      (fun id => decide (id ∉ (members config g b).map UInt64.ofNat)) = 0 := by
    rw [List.countP_eq_zero]
    intro id hid hout
    exact of_decide_eq_true hout hid
  have hany : ((members config g b).map fun _ => true).any (!·) = false := by simp
  have hzero : UInt64.ofNat 0 = 0 := rfl
  unfold finalBucket
  simp only [Option.bind_eq_bind, selectByBucket_settled hset, members_sorted]
  rw [shadowBuckets_settled hacc hset, Option.bind_some, expected_members, hobserved, hnone,
    countP_neighbours (members_nodup b), valid_members hacc hset, Option.bind_some, hany,
    if_neg (by simp), hzero, UInt64.add_zero, UInt64.add_zero, UInt64.add_zero]

theorem finalChecks_settled : finalChecks config (config.records + 1) g = some g.counters := by
  have hsize : g.table.rows.size = config.records.toNat :=
    hset.full.size_eq (idKey_injOn config.records.toNat_lt.le)
  have hrows : ((List.range config.records.toNat).map UInt64.ofNat).foldlM (finalRow config (config.records + 1) g)
      g.counters = some g.counters := by
    refine foldlM_fixed _ fun id hid => ?_
    obtain ⟨i, hi, rfl⟩ := List.mem_map.1 hid
    refine finalRow_settled hacc hset ?_ _
    rw [ofNat_toNat_of_lt ((List.mem_range.1 hi).trans config.records.toNat_lt)]
    exact List.mem_range.1 hi
  unfold finalChecks
  dsimp only
  rw [if_neg (not_not_intro hsize), hrows, Option.bind_eq_bind, Option.bind_some]
  exact foldlM_fixed _ fun b _ => finalBucket_settled hacc hset _ b

end Checks

theorem passed_clean {c : Counters} (h : c.Clean) : passed c 0 = some true := by
  have hfailures : c.failures = Counters.failures { c with onlineReads := 0 } := rfl
  have hzero : Counters.default.failures = some 0 := by decide
  unfold passed
  rw [hfailures, h, hzero]
  rfl

/-! ## The oracle -/

/-- the generation a writer has computed for its turn -/
def WriterPc.generation : WriterPc → Option UInt64
  | .load => none
  | .mark .. => none
  | .write _ _ generation _ => some generation
  | .reinsert _ _ generation _ => some generation
  | .publish _ _ generation _ => some generation
  | .verify _ => none

/-- a moment of a run: no panic, no failure counted, and generations clear of the `WRITING` bit -/
structure RunOk (config : Config) (s : Threads.State (Worker config) Shared Local) : Prop where
  running : ∀ t, s.locals t ≠ .panicked
  clean : s.shared.counters.Clean
  markers : ∀ id < config.records, ∃ generation ≤ config.operations, generation < writing ∧
    (s.shared.shadow id = generation ∨ s.shared.shadow id = mark generation)
  computed : ∀ t w generation, s.locals t = .writer w → w.pc.generation = some generation →
    generation ≤ config.operations ∧ generation < writing
  live : ∀ (id : UInt64) row, s.shared.table.rows[id]? = some row →
    id < config.records ∧ row.id = id ∧ row.generation ≤ config.operations ∧
      some row = makeRow id row.generation config (config.records + 1)
  distinct : ∀ (id id' : UInt64) row row', s.shared.table.rows[id]? = some row → s.shared.table.rows[id']? = some row' →
    row.uniqueKey = row'.uniqueKey → id = id'

theorem marker_cases (marker : UInt64) : marker = generationOf marker ∨ marker = mark (generationOf marker) := by
  have hgen := generationOf_toNat marker
  have hmark := mark_toNat (generationOf_lt marker)
  have hlt := marker.toNat_lt
  by_cases hsmall : marker.toNat < 2 ^ 63
  · refine Or.inl (UInt64.toNat_inj.1 ?_)
    omega
  · refine Or.inr (UInt64.toNat_inj.1 ?_)
    omega

theorem WriterOk.computed (hacc : config.Accepted) {worker : Fin config.writerThreads} {g : Shared} {w : Writer}
    (h : WriterOk worker g w) {generation : UInt64} (hgen : w.pc.generation = some generation) :
    generation.toNat < 2 ^ 63 ∧ generation.toNat ≤ config.operations.toNat := by
  have hat := h.pc
  cases hpc : w.pc <;> rw [hpc] at hgen hat <;> cases hgen
  · exact (hat.1.previous_lt hacc h.operations).2
  · exact (hat.1.previous_lt hacc h.operations).2
  · exact (hat.1.previous_lt hacc h.operations).2

theorem runOk_of_holds (hacc : config.Accepted) {s : Threads.State (Worker config) Shared Local}
    (h : (outline hacc).Holds s) : RunOk config s := by
  obtain ⟨hshared, hlocals⟩ := h
  refine ⟨fun t hpanic => ?_, hshared.clean, fun id hid => ⟨generationOf (s.shared.shadow id), ?_, ?_, marker_cases _⟩,
    fun t w generation hw hgen => ?_, fun id row hrow => ?_,
    fun id id' row row' hrow hrow' hkey => UniqueTable.unique_inj hrow hrow' hkey⟩
  · have hl := hlocals t
    rw [hpanic] at hl
    exact hl
  · rw [UInt64.le_iff_toNat_le]
    exact hshared.bound id (UInt64.lt_iff_toNat_lt.1 hid)
  · rw [UInt64.lt_iff_toNat_lt, writing_toNat]
    exact generationOf_lt _
  · have hl := hlocals t
    rw [hw] at hl
    obtain ⟨worker, -, hok⟩ := hl
    rw [UInt64.le_iff_toNat_le, UInt64.lt_iff_toNat_lt, writing_toNat]
    exact (hok.computed hacc hgen).symm
  · obtain ⟨hid, generation, hgen, rfl⟩ := hshared.rows id row hrow
    exact ⟨UInt64.lt_iff_toNat_lt.2 hid, rfl, UInt64.le_iff_toNat_le.2 hgen,
      (makeRow_some hacc (hacc.inRange hid hgen)).symm⟩

/-- the ids and generations of a run have unique keys of their own -/
def KeysDistinct (config : Config) (stride : UInt64) : Prop :=
  ∀ id < config.records, ∀ id' < config.records, ∀ g ≤ config.operations, ∀ g' ≤ config.operations,
    ∃ key key', uniqueKey id g stride = some key ∧ uniqueKey id' g' stride = some key' ∧
      (key = key' → id = id' ∧ g = g')

theorem keysDistinct (hacc : config.Accepted) : KeysDistinct config (config.records + 1) := by
  intro id hid id' hid' g hg g' hg'
  rw [UInt64.lt_iff_toNat_lt] at hid hid'
  rw [UInt64.le_iff_toNat_le] at hg hg'
  exact ⟨_, _, uniqueKey_some hacc (hacc.inRange hid hg), uniqueKey_some hacc (hacc.inRange hid' hg'),
    rowKey_inj hacc hid hid' hg hg'⟩

/-- **The oracle raises no false alarm.** For an accepted configuration with an id for every writer the setup succeeds,
and under every schedule no thread panics and no failure is counted; every run can be finished, and then the final
checks find nothing and the repetition has passed. -/
theorem shadow_oracle_passes (config : Config) (hrecords : config.records < u64Max)
    (hoperations : config.operations < u64Max) (hvalid : config.check = .ok ())
    (howners : config.writerThreads ≤ config.records.toNat) :
    ∃ stride s, checkedAdd config.records 1 = some stride ∧ start config stride = some s ∧
      KeysDistinct config stride ∧ ∀ sched,
        RunOk config (Threads.run (step config stride) s sched) ∧
        ((∀ t, ((Threads.run (step config stride) s sched).locals t).finished) →
          ∃ c, finalChecks config stride (Threads.run (step config stride) s sched).shared = some c ∧ c.Clean ∧
            passed c 0 = some true) ∧
        ∃ rest, ∀ t, ((Threads.run (step config stride) s (sched ++ rest)).locals t).finished := by
  have hacc := Config.accepted_of_check hrecords hoperations howners hvalid
  obtain ⟨s, hstart, hholds⟩ := start_holds hacc
  have hone : (1 : UInt64).toNat = 1 := rfl
  have hstride : checkedAdd config.records 1 = some (config.records + 1) := by
    rw [UInt64.lt_iff_toNat_lt, u64Max_toNat] at hrecords
    exact if_pos (by omega)
  refine ⟨config.records + 1, s, hstride, hstart, keysDistinct hacc, fun sched => ?_⟩
  have hrun := (outline hacc).run s hholds sched
  refine ⟨runOk_of_holds hacc hrun, fun hfin => ?_, ?_⟩
  · have hset := settled_of_finished hacc hrun hfin
    exact ⟨_, finalChecks_settled hacc hset, hrun.1.clean, passed_clean hrun.1.clean⟩
  · obtain ⟨rest, hrest⟩ := run_completes hacc hrun
    refine ⟨rest, ?_⟩
    rw [Threads.run_append]
    exact hrest

/-- two writers and one reader on three rows -/
theorem shadow_oracle_passes_small :
    ∃ stride s, checkedAdd 3 1 = some stride ∧
      start ⟨3, 5, 3, 1, 8, 2, 42, true, 2⟩ stride = some s ∧ ∀ sched,
        RunOk _ (Threads.run (step ⟨3, 5, 3, 1, 8, 2, 42, true, 2⟩ stride) s sched) := by
  obtain ⟨stride, s, hstride, hstart, -, hruns⟩ :=
    shadow_oracle_passes ⟨3, 5, 3, 1, 8, 2, 42, true, 2⟩ (by decide) (by decide) (by decide) (by decide)
  exact ⟨stride, s, hstride, hstart, fun sched => (hruns sched).1⟩

end WtBenchmarks.IndexBackends.Shadow
