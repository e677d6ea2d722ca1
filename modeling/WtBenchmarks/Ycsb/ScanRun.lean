/-
Scans in Workload E runs: which rows the two adapters select in the states a run reaches.

A generated insert takes the next key, and the inserts are dealt to the streams in turn, so that a worker can insert a
key while a smaller one is still ahead of another worker. A scan whose window holds the missing key then selects fewer
rows in the WorkTable adapter than in the SQLite adapter.

- `generateStreams_dealt`: what the streams of a Workload E run are made of;
- `inKeyOrder_closed`: as long as every insert finds the smaller keys in the table, the keys have no gap;
- `inKeyOrder_of_one_stream`: so it is when one stream has all the inserts;
- `scans_agree_iff`: in every reached state a generated scan agrees exactly if its window is covered, and in every run
  whose inserts take effect in key order all of them agree;
- `scans_disagree_gapRun`: with two threads a gap is reached.
-/
import WtBenchmarks.Ycsb.Run
import WtBenchmarks.Ycsb.Scan

namespace WtBenchmarks.Ycsb

open Threads

/-! ## Generated operations -/

section Generated

variable {K : Type} [Field K] [LinearOrder K] [IsStrictOrderedRing K] {pow : ExactPow K}

/-- an operation of Workload E, generated before the key count reached `n` -/
def ScanOk (n : UInt64) : Operation → Prop
  | .scan start length => 0 < length.toNat ∧ start < n
  | .insert key _ => key < n
  | _ => False

theorem ScanOk.mono {n n' : UInt64} (h : n ≤ n') {op : Operation} (hop : ScanOk n op) : ScanOk n' op := by
  cases op with
  | scan start length => exact ⟨hop.1, UInt64.lt_of_lt_of_le hop.2 h⟩
  | insert key fields => exact UInt64.lt_of_lt_of_le hop h
  | _ => exact hop

/-- one operation of Workload E against the key count before it -/
def ScanNext (keyCount : UInt64) (next : UInt64 × Operation) : Prop :=
  (next.1 = keyCount ∧ ∃ start length, next.2 = .scan start length ∧ 0 < length.toNat ∧ start < keyCount) ∨
    next.1.toNat = keyCount.toNat + 1 ∧ ∃ fields, next.2 = .insert keyCount fields

variable {config : Config K} {zipf : ZipfCdf pow} {keyCount : UInt64}

theorem nextOperation_scan (hE : config.workload = .E) (hacc : config.Accepted) (h0 : 0 < keyCount.toNat)
    (hfit : keyCount.toNat + 1 < 2 ^ 64) (hz : keyCount.toNat ≤ zipf.cumulative.length) :
    Total (ScanNext keyCount) (nextOperation config zipf keyCount) := by
  unfold nextOperation
  refine (Rng.below_total 10000 (by decide)).bind fun choice _ => ?_
  simp only [hE]
  split_ifs
  · refine (sampleKey_total zipf _ keyCount h0 hz).bind fun start hstart => ?_
    refine (Rng.below_total config.scanMax hacc.scanMax).bind fun below hbelow => ?_
    have hmax := config.scanMax.toNat_lt
    rw [UInt64.lt_iff_toNat_lt] at hbelow
    refine (Total.lift (checkedAdd_some (a := 1) (b := below) (by rw [UInt64.toNat_one]; omega))).bind
      fun length hlength => Total.pure ?_
    rw [UInt64.toNat_one] at hlength
    exact Or.inl ⟨rfl, start, length, rfl, by omega, hstart⟩
  · refine (Total.lift (checkedAdd_some (b := 1) hfit)).bind fun next hnext => Total.pure ?_
    exact Or.inr ⟨hnext, _, rfl⟩

/-! ## Dealt operations -/

omit [Field K] [LinearOrder K] [IsStrictOrderedRing K] in
/-- the streams after an operation was dealt -/
theorem pushAt_mem {streams streams' : List (List Operation)} {index : ℕ} {op : Operation}
    (h : pushAt streams index op = some streams') {stream : List Operation} (hmem : stream ∈ streams') :
    stream ∈ streams ∨ ∃ before ∈ streams, stream = before ++ [op] := by
  unfold pushAt at h
  split_ifs at h
  cases h
  obtain ⟨i, hi, rfl⟩ := List.getElem_of_mem hmem
  rw [List.length_modify] at hi
  rw [List.getElem_modify]
  split_ifs
  · exact Or.inr ⟨_, List.getElem_mem hi, rfl⟩
  · exact Or.inl (List.getElem_mem hi)

/-- the streams of Workload E while they are dealt: each has its insert keys in order, and together they have every key
from the initial records to the key count -/
structure Dealing (config : Config K) (st : Generating pow) : Prop where
  ops : ∀ op ∈ st.streams.flatten, ScanOk st.keyCount op
  rising : ∀ stream ∈ st.streams, (insertKeys stream).Pairwise (· < ·)
  every : ∀ k, config.records ≤ k → k < st.keyCount → k ∈ insertKeys st.streams.flatten

omit [Field K] [LinearOrder K] [IsStrictOrderedRing K] in
theorem insertKeys_scanOk {n : UInt64} {ops : List Operation} (h : ∀ op ∈ ops, ScanOk n op) :
    ∀ k ∈ insertKeys ops, k < n := by
  intro k hk
  obtain ⟨op, hop, hkey⟩ := List.mem_filterMap.1 hk
  cases op with
  | insert key fields =>
    cases hkey
    exact h _ hop
  | _ => cases hkey

theorem generateTurn_dealing (hE : config.workload = .E) (hacc : config.Accepted) {n : ℕ}
    (hn : n < config.operations.toNat) {st : Generating pow} (h : GeneratingInv config n st)
    (hd : Dealing config st) : Total (Dealing config) (generateTurn config st n) := by
  have hfits := hacc.fits
  have hfit := h.fit
  have hpos := hacc.records
  have hbase := h.base
  rw [UInt64.le_iff_toNat_le] at hbase
  unfold generateTurn
  refine (nextOperation_scan hE hacc (by omega) (by omega) (by rw [ZipfCdf.ensure_length]; omega)).bind
    fun next hnext => ?_
  have hidx : n % config.threads < st.streams.length := by rw [h.count]; exact Nat.mod_lt _ hacc.threads
  obtain ⟨streams, hpush, -, hperm⟩ := pushAt_some next.2 hidx
  refine (Total.lift (P := fun s => s = streams) ⟨streams, hpush, rfl⟩).bind fun dealt hs => Total.pure ?_
  subst hs
  have hgrow : st.keyCount ≤ next.1 := by
    rw [UInt64.le_iff_toNat_le]
    rcases hnext with ⟨heq, -⟩ | ⟨heq, -⟩
    · rw [heq]
    · omega
  have hop : ScanOk next.1 next.2 := by
    rcases hnext with ⟨heq, start, length, hscan, hlen, hstart⟩ | ⟨heq, fields, hinsert⟩
    · rw [hscan]
      exact ⟨hlen, heq ▸ hstart⟩
    · rw [hinsert]
      show st.keyCount < next.1
      rw [UInt64.lt_iff_toNat_lt]
      omega
  constructor
  · intro op hmem
    rcases List.mem_cons.1 (hperm.mem_iff.1 hmem) with rfl | hmem
    · exact hop
    · exact (hd.ops op hmem).mono hgrow
  · intro stream hmem
    rcases pushAt_mem hpush hmem with hmem | ⟨before, hbefore, rfl⟩
    · exact hd.rising stream hmem
    · rw [insertKeys_append]
      rcases hnext with ⟨-, start, length, hscan, -⟩ | ⟨-, fields, hinsert⟩
      · have hnone : insertKeys [next.2] = [] := by rw [hscan]; rfl
        rw [hnone, List.append_nil]
        exact hd.rising before hbefore
      · rw [hinsert]
        refine List.pairwise_append.2 ⟨hd.rising before hbefore, List.pairwise_singleton _ _, ?_⟩
        intro k hk key hkey
        cases List.mem_singleton.1 hkey
        exact insertKeys_scanOk (fun op hop => hd.ops op (List.mem_flatten.2 ⟨before, hbefore, hop⟩)) k hk
  · intro k hle hlt
    have hmem : k ∈ insertKeys (next.2 :: st.streams.flatten) → k ∈ insertKeys dealt.flatten :=
      (hperm.filterMap Operation.insertKey).mem_iff.2
    apply hmem
    rcases hnext with ⟨heq, start, length, hscan, -⟩ | ⟨heq, fields, hinsert⟩
    · rw [hscan]
      exact hd.every k hle (by rwa [heq] at hlt)
    · rw [hinsert]
      by_cases hk : k = st.keyCount
      · rw [hk]
        exact List.mem_cons_self
      · refine List.mem_cons_of_mem _ (hd.every k hle ?_)
        have hne : k.toNat ≠ st.keyCount.toNat := fun hc => hk (UInt64.toNat_inj.1 hc)
        simp only [UInt64.lt_iff_toNat_lt] at hlt ⊢
        omega

/-- the workload of a Workload E run -/
structure Dealt {T : Type} (config : Config K) (n : UInt64) (gen : GeneratedWorkload T pow) : Prop where
  count : gen.streams.length = config.threads
  base : config.records ≤ n
  fit : n.toNat ≤ config.records.toNat + config.operations.toNat
  acknowledged : gen.acknowledged = none
  ops : ∀ op ∈ gen.streams.flatten, ScanOk n op
  rising : ∀ stream ∈ gen.streams, (insertKeys stream).Pairwise (· < ·)
  every : ∀ k, config.records ≤ k → k < n → k ∈ insertKeys gen.streams.flatten

theorem generateStreams_dealt (T : Type) (pow : ExactPow K) (hE : config.workload = .E) (hacc : config.Accepted) :
    Total (fun gen => ∃ n, Dealt config n gen) (generateStreams T pow config) := by
  unfold generateStreams
  have hstart : Dealing config (⟨ZipfCdf.new pow config.records.toNat config.zipfTheta, config.records,
      List.replicate config.threads []⟩ : Generating pow) := by
    refine ⟨by simp, fun stream hmem => ?_, fun k hle hlt => absurd hlt (UInt64.not_lt.2 hle)⟩
    rw [List.eq_of_mem_replicate hmem]
    exact List.Pairwise.nil
  refine (Total.range (I := fun n st => GeneratingInv config n st ∧ Dealing config st) _
    (fun n st hn hst => (generateTurn_total hacc hn hst.1).and (generateTurn_dealing hE hacc hn hst.1 hst.2)) _
    ⟨generating_start pow config, hstart⟩).bind fun st hst => ?_
  rw [if_neg (by simp [hE])]
  exact Total.pure ⟨st.keyCount, hst.1.count, hst.1.base, hst.1.fit, rfl, hst.2.ops, hst.2.rising, hst.2.every⟩

end Generated

/-! ## Runs -/

section Runs

variable {K : Type} [Field K] [LinearOrder K] {pow : ExactPow K} {T : Type}

/-- the shared state of a Workload E run -/
structure ScanStore (config : Config K) (n : UInt64) (g : Store T pow) : Prop where
  acknowledged : g.acknowledged = none
  loaded : ∀ k < config.records, k ∈ g.table
  bound : ∀ k ∈ g.table, k < n

/-- what a worker has inserted is in the table -/
structure ScanWorker (streams : T → List Operation) (t : T) (g : Store T pow) (w : Worker) : Prop where
  pc : w.pc = .next
  behind : ∃ before, streams t = before ++ w.stream ∧ ∀ k ∈ insertKeys before, k ∈ g.table

theorem mem_insertRow (table : Table) (key k : UInt64) (fields : Fields) :
    k ∈ (table.insertRow key fields).2 ↔ key = k ∨ k ∈ table := by
  unfold Table.insertRow
  split_ifs with h
  · constructor
    · exact Or.inr
    · rintro (rfl | hk)
      · exact h
      · exact hk
  · exact Table.mem_insert_iff

theorem mem_insertKeys_singleton {op : Operation} {k : UInt64} :
    k ∈ insertKeys [op] ↔ ∃ fields, op = .insert k fields := by
  cases op <;> simp [insertKeys, Operation.insertKey, eq_comm]

variable {config : Config K} {n : UInt64} {streams : T → List Operation} {t : T} {g : Store T pow} {w : Worker}

/-- **One step.** It takes the next operation, and an insert leaves its key in the table. -/
theorem workerStep_scan (hack : g.acknowledged = none) (hpc : w.pc = .next) (hok : ∀ op ∈ w.stream, ScanOk n op)
    {r : Store T pow × Worker} (h : workerStep t g w = some r) :
    ∃ op rest, w.stream = op :: rest ∧ r.2.pc = .next ∧ r.2.stream = rest ∧ r.1.acknowledged = none ∧
      ∀ k, k ∈ r.1.table ↔ k ∈ insertKeys [op] ∨ k ∈ g.table := by
  cases hs : w.stream with
  | nil => simp [workerStep, hpc, hs] at h
  | cons op rest =>
    simp only [workerStep, hpc, hs, Option.some.injEq] at h
    have hop := hok op (by rw [hs]; exact List.mem_cons_self)
    refine ⟨op, rest, rfl, ?_⟩
    cases op with
    | scan start length =>
      subst h
      exact ⟨rfl, by simp [startOperation, Worker.finish, hs], hack,
        fun k => by simp [startOperation, insertKeys, Operation.insertKey]⟩
    | insert key fields =>
      have hnone : ¬ ((g.table.insertRow key fields).1 ∧ g.acknowledged.isSome) := by simp [hack]
      simp only [startOperation, if_neg hnone] at h
      subst h
      refine ⟨rfl, by simp [Worker.finish, hs], hack, fun k => ?_⟩
      rw [mem_insertRow]
      simp [insertKeys, Operation.insertKey, eq_comm]
    | _ => exact absurd hop id

/-- the proof outline of a Workload E run -/
def scanOutline (pow : ExactPow K) (config : Config K) (n : UInt64) (streams : T → List Operation)
    (hok : ∀ t, ∀ op ∈ streams t, ScanOk n op) :
    Outline (workerStep : T → Store T pow → Worker → Option (Store T pow × Worker)) where
  Glob := ScanStore config n
  Loc := ScanWorker streams
  Guar _ g g' := ∀ k ∈ g.table, k ∈ g'.table
  step_ok t g w g' w' hg hw hstep := by
    obtain ⟨before, hsplit, hbehind⟩ := hw.behind
    have hok' : ∀ op ∈ w.stream, ScanOk n op := fun op hop =>
      hok t op (by rw [hsplit]; exact List.mem_append_right _ hop)
    obtain ⟨op, rest, hs, hpc, hrest, hack, htable⟩ := workerStep_scan hg.acknowledged hw.pc hok' hstep
    have hgrow : ∀ k ∈ g.table, k ∈ g'.table := fun k hk => (htable k).2 (Or.inr hk)
    refine ⟨⟨hack, fun k hk => hgrow k (hg.loaded k hk), fun k hk => ?_⟩, ⟨hpc, before ++ [op], ?_, fun k hk => ?_⟩,
      hgrow⟩
    · rcases (htable k).1 hk with hk | hk
      · obtain ⟨fields, rfl⟩ := mem_insertKeys_singleton.1 hk
        exact hok' _ (by rw [hs]; exact List.mem_cons_self)
      · exact hg.bound k hk
    · rw [hsplit, hs, List.append_assoc, List.singleton_append]
      exact congrArg (fun l => before ++ op :: l) hrest.symm
    · rw [insertKeys_append] at hk
      rcases List.mem_append.1 hk with hk | hk
      · exact hgrow k (hbehind k hk)
      · exact (htable k).2 (Or.inl hk)
  stable t u g g' w _ _ hgrow hw := by
    obtain ⟨before, hsplit, hbehind⟩ := hw.behind
    exact ⟨hw.pc, before, hsplit, fun k hk => hgrow k (hbehind k hk)⟩

/-! ### Inserts in key order -/

/-- if worker `t` inserts next, all smaller keys are in the table -/
def InsertsNext (s : State T (Store T pow) Worker) (t : T) : Prop :=
  ∀ key fields rest, (s.locals t).stream = .insert key fields :: rest → ∀ j < key, j ∈ s.shared.table

/-- every insert of a schedule finds all smaller keys in the table -/
def InKeyOrder [DecidableEq T] (s : State T (Store T pow) Worker) : List T → Prop
  | [] => True
  | t :: sched => InsertsNext s t ∧ InKeyOrder (exec workerStep s t) sched

/-- the keys of the table have no gap -/
def NoGap (table : Table) : Prop := ∀ k ∈ table, ∀ j < k, j ∈ table

variable [DecidableEq T] {hok : ∀ t, ∀ op ∈ streams t, ScanOk n op}

/-- an insert that finds all smaller keys leaves no gap -/
theorem exec_noGap {s : State T (Store T pow) Worker} (h : (scanOutline pow config n streams hok).Holds s)
    (hgap : NoGap s.shared.table) {t : T} (hnext : InsertsNext s t) :
    NoGap (exec workerStep s t).shared.table := by
  cases hstep : workerStep t s.shared (s.locals t) with
  | none =>
    rw [exec_none hstep]
    exact hgap
  | some r =>
    obtain ⟨hg, hw⟩ := h
    obtain ⟨before, hsplit, -⟩ := (hw t).behind
    obtain ⟨op, rest, hs, -, -, -, htable⟩ := workerStep_scan hg.acknowledged (hw t).pc
      (fun op hop => hok t op (by rw [hsplit]; exact List.mem_append_right _ hop)) hstep
    rw [exec_some hstep]
    intro k hk j hj
    apply (htable j).2
    rcases (htable k).1 hk with hk | hk
    · obtain ⟨fields, rfl⟩ := mem_insertKeys_singleton.1 hk
      exact Or.inr (hnext k fields rest hs j hj)
    · exact Or.inr (hgap k hk j hj)

/-- **No gap in an ordered run.** -/
theorem inKeyOrder_closed {s : State T (Store T pow) Worker} (h : (scanOutline pow config n streams hok).Holds s)
    (hgap : NoGap s.shared.table) {sched : List T} (horder : InKeyOrder s sched) :
    NoGap (run workerStep s sched).shared.table := by
  induction sched generalizing s with
  | nil => exact hgap
  | cons t sched ih =>
    exact ih ((scanOutline pow config n streams hok).run s h [t]) (exec_noGap h hgap horder.1) horder.2

/-- **One inserting stream.** Then every schedule inserts in key order. -/
theorem inKeyOrder_of_one_stream {s : State T (Store T pow) Worker}
    (h : (scanOutline pow config n streams hok).Holds s)
    (hrising : ∀ t, (insertKeys (streams t)).Pairwise (· < ·))
    (hevery : ∀ k, config.records ≤ k → k < n → ∃ t, k ∈ insertKeys (streams t))
    (hone : ∀ t u, insertKeys (streams t) ≠ [] → insertKeys (streams u) ≠ [] → t = u) (sched : List T) :
    InKeyOrder s sched := by
  induction sched generalizing s with
  | nil => trivial
  | cons t sched ih =>
    refine ⟨fun key fields rest hs j hj => ?_, ih ((scanOutline pow config n streams hok).run s h [t])⟩
    obtain ⟨hg, hw⟩ := h
    obtain ⟨before, hsplit, hbehind⟩ := (hw t).behind
    rw [hs] at hsplit
    have hkeys : insertKeys (streams t) = insertKeys before ++ key :: insertKeys rest := by
      rw [hsplit, insertKeys_append]
      rfl
    by_cases hloaded : j < config.records
    · exact hg.loaded j hloaded
    · have hkey : key < n :=
        hok t (.insert key fields) (by rw [hsplit]; exact List.mem_append_right _ List.mem_cons_self)
      obtain ⟨u, hu⟩ := hevery j (UInt64.not_lt.1 hloaded) (UInt64.lt_trans hj hkey)
      have hut := hone u t (List.ne_nil_of_mem hu) (by rw [hkeys]; simp)
      subst hut
      have hrise := hrising u
      rw [hkeys] at hu hrise
      obtain ⟨-, htail, -⟩ := List.pairwise_append.1 hrise
      -- the smaller key is not ahead
      rcases List.mem_append.1 hu with hu | hu
      · exact hbehind j hu
      · rcases List.mem_cons.1 hu with rfl | hu
        · exact absurd hj (UInt64.lt_irrefl _)
        · exact absurd hj (UInt64.lt_asymm ((List.pairwise_cons.1 htail).1 j hu))

end Runs

/-! ## Main result -/

section Main

variable {K : Type} [Field K] [LinearOrder K] [IsStrictOrderedRing K] {pow : ExactPow K} {config : Config K}
  {n : UInt64}

/-- every generated scan selects the same rows in the two adapters -/
def ScansAgree {T : Type} (gen : GeneratedWorkload T pow) (table : Table) : Prop :=
  ∀ start length, .scan start length ∈ gen.streams.flatten →
    table.scanRows start length = some (table.sqliteRows start length)

omit [IsStrictOrderedRing K] in
theorem Dealt.stream_ok {gen : GeneratedWorkload (Fin config.threads) pow} (hgen : Dealt config n gen)
    (t : Fin config.threads) : ∀ op ∈ gen.streams.getD t [], ScanOk n op :=
  fun op hop => hgen.ops op (mem_flatten_of_getD hop)

omit [IsStrictOrderedRing K] in
/-- the outline holds at the start -/
theorem startRun_scan {table : Table} (htable : ∀ k, k ∈ table ↔ k < config.records)
    {gen : GeneratedWorkload (Fin config.threads) pow} (hgen : Dealt config n gen) :
    (scanOutline pow config n (fun t : Fin config.threads => gen.streams.getD t []) hgen.stream_ok).Holds
      (startRun config table gen) := by
  refine ⟨⟨hgen.acknowledged, fun k hk => (htable k).2 hk, fun k hk => ?_⟩, fun t => ⟨rfl, [], rfl, ?_⟩⟩
  · exact UInt64.lt_of_lt_of_le ((htable k).1 hk) hgen.base
  · intro k hk
    cases hk

/-- at most one stream has inserts -/
def OneInserter {T : Type} (threads : ℕ) (gen : GeneratedWorkload T pow) : Prop :=
  ∀ t u : Fin threads, insertKeys (gen.streams.getD t []) ≠ [] → insertKeys (gen.streams.getD u []) ≠ [] → t = u

omit [IsStrictOrderedRing K] in
theorem inKeyOrder_of_oneInserter {table : Table} (htable : ∀ k, k ∈ table ↔ k < config.records)
    {gen : GeneratedWorkload (Fin config.threads) pow} (hgen : Dealt config n gen)
    (hone : OneInserter config.threads gen) (sched : List (Fin config.threads)) :
    InKeyOrder (startRun config table gen) sched := by
  apply inKeyOrder_of_one_stream (startRun_scan htable hgen)
  · intro t
    rw [List.getD_eq_getElem _ _ (by rw [hgen.count]; exact t.isLt)]
    exact hgen.rising _ (List.getElem_mem _)
  · intro k hle hlt
    obtain ⟨op, hop, hkey⟩ := List.mem_filterMap.1 (hgen.every k hle hlt)
    obtain ⟨stream, hstream, hop⟩ := List.mem_flatten.1 hop
    obtain ⟨i, hi, rfl⟩ := List.getElem_of_mem hstream
    refine ⟨⟨i, hgen.count ▸ hi⟩, ?_⟩
    rw [List.getD_eq_getElem _ _ hi]
    exact List.mem_filterMap.2 ⟨op, hop, hkey⟩
  · exact hone

/-- **Scans of Workload E.** In every state of every run of an accepted configuration a generated scan selects the same
rows in the two adapters exactly if its window is covered. In every run whose inserts take effect in key order, with
keys below 2^63, all scans do; and they do take effect in key order when one stream has them all. -/
theorem scans_agree_iff (pow : ExactPow K) (config : Config K) (hv : config.validate = .ok ())
    (hE : config.workload = .E) :
    ∃ table gen, load config = some table ∧
      (generateStreams (Fin config.threads) pow config).run' (Rng.new config.seed) = some gen ∧
      ∀ sched,
        let s := run workerStep (startRun config table gen) sched
        (∀ start length, .scan start length ∈ gen.streams.flatten →
          (s.shared.table.scanRows start length = some (s.shared.table.sqliteRows start length) ↔
            s.shared.table.Covered start length)) ∧
        (config.records.toNat + config.operations.toNat ≤ 2 ^ 63 → InKeyOrder (startRun config table gen) sched →
          ScansAgree gen s.shared.table) ∧
        (OneInserter config.threads gen → InKeyOrder (startRun config table gen) sched) := by
  have hacc := Config.accepted_of_validate hv
  obtain ⟨table, hload, htable⟩ := load_some config
  obtain ⟨gen, rng, hrun, n, hgen⟩ := generateStreams_dealt (Fin config.threads) pow hE hacc (Rng.new config.seed)
  refine ⟨table, gen, hload, by rw [StateT.run'_eq, hrun]; rfl, fun sched => ⟨?_, fun hfit horder => ?_, ?_⟩⟩
  · intro start length hscan
    exact Table.scanRows_eq_iff (hgen.ops _ hscan).1
  · have hstart := startRun_scan htable hgen
    have hgap : NoGap (startRun config table gen).shared.table := fun k hk j hj =>
      (htable j).2 (UInt64.lt_trans hj ((htable k).1 hk))
    have hbound := ((scanOutline pow config n _ hgen.stream_ok).run _ hstart sched).1.bound
    have hsmall : ∀ k : UInt64, k < n → k.toNat < 2 ^ 63 := by
      intro k hk
      have hn := hgen.fit
      rw [UInt64.lt_iff_toNat_lt] at hk
      omega
    intro start length hscan
    obtain ⟨hlen, hlt⟩ := hgen.ops _ hscan
    exact (Table.scanRows_eq_iff hlen).2 (Table.covered_of_closed hlen (hsmall start hlt)
      (fun k hk => hsmall k (hbound k hk)) (inKeyOrder_closed hstart hgap horder))
  · intro hone
    exact inKeyOrder_of_oneInserter htable hgen hone sched

end Main

/-! ## A gap -/

/-- two threads; the keys 1 and 2 are inserted by different ones -/
def gapRun : Config ℝ := ⟨.E, 1, 5, 2, 1, 1, 1626, 1, 2, 0, some .uniform⟩

theorem gapRun_validate : gapRun.validate = .ok () := by
  simp [Config.validate, gapRun, checkedAdd]

/-- the generated streams, up to the fields of the inserted rows -/
def gapStreams (a b : Fields) : GeneratedWorkload (Fin gapRun.threads) realPow :=
  ⟨[[.scan 0 2, .insert 2 a, .scan 0 2], [.insert 1 b, .scan 0 2]], none⟩

theorem gapRun_streams : ∃ a b : Fields,
    (generateStreams (Fin gapRun.threads) realPow gapRun).run' (Rng.new gapRun.seed) = some (gapStreams a b) :=
  ⟨_, _, rfl⟩

def firstThread : Fin gapRun.threads := ⟨0, Nat.zero_lt_two⟩

/-- after two operations of the first thread -/
theorem gapRun_state (table : Table) (a b : Fields) :
    let s := run workerStep (startRun gapRun table (gapStreams a b)) [firstThread, firstThread]
    s.shared.table = (table.insertRow 2 a).2 ∧ (s.locals firstThread).stream = [.scan 0 2] := by
  simp [run, exec, firstThread, startRun, gapStreams, workerStep, startOperation, Worker.finish]

/-- **The exact condition, at this configuration.** -/
theorem scans_agree_iff_gapRun : ∃ table gen, load gapRun = some table ∧
    (generateStreams (Fin gapRun.threads) realPow gapRun).run' (Rng.new gapRun.seed) = some gen ∧
    ∀ sched,
      let s := run workerStep (startRun gapRun table gen) sched
      ∀ start length, .scan start length ∈ gen.streams.flatten →
        (s.shared.table.scanRows start length = some (s.shared.table.sqliteRows start length) ↔
          s.shared.table.Covered start length) := by
  obtain ⟨table, gen, hload, hgen, hall⟩ := scans_agree_iff realPow gapRun gapRun_validate rfl
  exact ⟨table, gen, hload, hgen, fun sched => (hall sched).1⟩

/-- **A gap is reached.** The first thread is about to scan two rows from 0 on, and the key 1 is missing between 0 and
2: the WorkTable adapter selects one row, the SQLite adapter two. -/
theorem scans_disagree_gapRun : gapRun.validate = .ok () ∧ gapRun.workload = .E ∧
    ∃ table gen sched, load gapRun = some table ∧
      (generateStreams (Fin gapRun.threads) realPow gapRun).run' (Rng.new gapRun.seed) = some gen ∧
      let s := run workerStep (startRun gapRun table gen) sched
      ¬ ScansAgree gen s.shared.table ∧ ∃ t rest, (s.locals t).stream = .scan 0 2 :: rest := by
  obtain ⟨table, hload, htable⟩ := load_some gapRun
  obtain ⟨a, b, hgen⟩ := gapRun_streams
  obtain ⟨hrows, hstream⟩ := gapRun_state table a b
  refine ⟨gapRun_validate, rfl, table, _, [firstThread, firstThread], hload, hgen, fun hagree => ?_, firstThread, _,
    hstream⟩
  have hscan := hagree 0 2 (by simp [gapStreams])
  rw [hrows] at hscan
  have hmem : ∀ k, k ∈ (table.insertRow 2 a).2 ↔ 2 = k ∨ k < 1 := by
    intro k
    rw [mem_insertRow, htable]
    rfl
  obtain ⟨-, ⟨-, hfull⟩ | hall⟩ := (Table.scanRows_eq_iff (by decide)).1 hscan
  · obtain ⟨k, hk, hkey⟩ := hfull 1 (by decide)
    have hone : k = 1 := UInt64.toNat_inj.1 hkey
    rw [hmem, hone] at hk
    exact absurd hk (by decide)
  · have hout := hall 2 ((hmem 2).2 (Or.inl rfl)) (by decide)
    exact absurd hout (by decide)

end WtBenchmarks.Ycsb
