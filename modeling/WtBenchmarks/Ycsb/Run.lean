/-
Whole YCSB runs: the loaded table, the generated streams, every interleaving of the workers.

- `StoreInv`: the loaded keys are there, nothing is stored at or past the final key count, and the frontier of a
  Workload D run only covers keys of the table.
- `WorkerInv`: the keys a worker is still to insert are its own, pairwise different and absent; what it is in the middle
  of will succeed; it has counted no error.
- `worker_step_ok`: one step keeps both, and the table only grows, by the worker's own keys (`StoreGuar`).
- `ycsb_error_free`: every run of every accepted configuration.
-/
import WtBenchmarks.Ycsb.Worker
import Mathlib.Data.List.GetD

namespace WtBenchmarks.Ycsb

open Threads Keyspace

variable {K : Type} [Field K] [LinearOrder K] {pow : ExactPow K} {T : Type}

/-! ## The outline -/

/-- no error counted, and every executed operation counted once -/
structure ResultOk (total : ℕ) (stream : List Operation) (result : WorkerResult) : Prop where
  errors : result.errors = 0
  errorCounts : ∀ kind, result.errorCounts kind = 0
  completed : result.completed + stream.length = total
  counts : (OperationKind.all.map result.counts).sum = result.completed

/-- thread `t` does not hold the mutex of the keyspace -/
def Idle (t : T) (g : Store T pow) : Prop := ∀ ak, g.acknowledged = some ak → ak.ks.holder ≠ some t

/-- what a worker knows inside its current operation -/
def PcOk (config : Config K) (t : T) (g : Store T pow) (stream : List Operation) : WorkerPc → Prop
  | .next => Idle t g
  | .select key => (∃ sample d rest, stream = .readAcknowledged sample d :: rest) ∧ key ∈ g.table ∧ Idle t g
  | .update key field value =>
    (∃ rest, stream = .readModifyWrite key field value :: rest) ∧ key ∈ g.table ∧ field < 10 ∧ Idle t g
  | .acknowledge key pc =>
    (∃ fields rest, stream = .insert key fields :: rest) ∧ key ∈ g.table ∧
      ∃ ak, g.acknowledged = some ak ∧
        CallInv config.records (· ∈ g.table) (fun _ => False) t ak.ks key pc
  | .panicked => False

/-- the operations that have not touched the table yet -/
def Worker.ahead (w : Worker) : List Operation :=
  match w.pc with
  | .acknowledge _ _ => w.stream.tail
  | _ => w.stream

structure StoreInv (config : Config K) (n : UInt64) (g : Store T pow) : Prop where
  loaded : ∀ k, k < config.records → k ∈ g.table
  bound : ∀ k ∈ g.table, k < n
  keyspace : ∀ ak, g.acknowledged = some ak →
    KeyspaceInv config.records (· ∈ g.table) (fun _ => False) ak.ks ∧ n.toNat ≤ ak.zipf.cumulative.length
  isSome : config.workload = .D → g.acknowledged.isSome

structure WorkerInv (config : Config K) (n : UInt64) (streams : T → List Operation) (t : T) (g : Store T pow)
    (w : Worker) : Prop where
  ops : ∀ op ∈ w.stream, OpOk config n op
  own : ∀ k ∈ insertKeys w.ahead, k ∈ insertKeys (streams t)
  nodup : (insertKeys w.ahead).Nodup
  fresh : ∀ k ∈ insertKeys w.ahead, k ∉ g.table
  result : ResultOk (streams t).length w.stream w.result
  pc : PcOk config t g w.stream w.pc

/-- the keyspace keeps its sampling table and moves quietly -/
def KeyspaceGuar (t : T) : Option (AcknowledgedKeyspace T pow) → Option (AcknowledgedKeyspace T pow) → Prop
  | none, none => True
  | some a, some b => a.zipf = b.zipf ∧ Quiet t a.ks b.ks
  | _, _ => False

/-- what a worker's step may do to the store -/
structure StoreGuar (streams : T → List Operation) (t : T) (g g' : Store T pow) : Prop where
  grow : ∀ k ∈ g.table, k ∈ g'.table
  own : ∀ k ∈ g'.table, k ∈ g.table ∨ k ∈ insertKeys (streams t)
  keyspace : KeyspaceGuar t g.acknowledged g'.acknowledged

theorem KeyspaceGuar.refl (t : T) (o : Option (AcknowledgedKeyspace T pow)) : KeyspaceGuar t o o := by
  cases o with
  | none => trivial
  | some a => exact ⟨rfl, Quiet.refl t _⟩

/-- a step that leaves the key set and the keyspace alone -/
theorem StoreGuar.same_keys (streams : T → List Operation) (t : T) {g : Store T pow} {table : Table}
    (h : ∀ k, k ∈ table ↔ k ∈ g.table) : StoreGuar streams t g { g with table := table } :=
  ⟨fun k hk => (h k).2 hk, fun k hk => Or.inl ((h k).1 hk), KeyspaceGuar.refl t _⟩

theorem StoreInv.same_keys {config : Config K} {n : UInt64} {g : Store T pow} {table : Table}
    (hg : StoreInv config n g) (h : ∀ k, k ∈ table ↔ k ∈ g.table) : StoreInv config n { g with table := table } :=
  ⟨fun k hk => (h k).2 (hg.loaded k hk), fun k hk => hg.bound k ((h k).1 hk),
    fun ak hak => ⟨(hg.keyspace ak hak).1.mono fun k hk => (h k).2 hk, (hg.keyspace ak hak).2⟩, hg.isSome⟩

/-! ## Finishing an operation -/

theorem counts_update (counts : OperationKind → ℕ) (kind : OperationKind) :
    (OperationKind.all.map (Function.update counts kind (counts kind + 1))).sum =
      (OperationKind.all.map counts).sum + 1 := by
  cases kind <;> simp [OperationKind.all, Function.update] <;> omega

/-- recording a success -/
theorem ResultOk.record {total : ℕ} {op : Operation} {stream rest : List Operation} {result : WorkerResult}
    (h : ResultOk total stream result) (hs : stream = op :: rest) (kind : OperationKind) :
    ResultOk total rest (result.record kind true) := by
  subst hs
  refine ⟨by simp [WorkerResult.record, h.errors], fun k => ?_, ?_, ?_⟩
  · simp only [WorkerResult.record, Function.update_apply]
    split_ifs
    · simp [h.errorCounts]
    · exact h.errorCounts k
  · have := h.completed
    simp only [WorkerResult.record, List.length_cons, Bool.toNat_true] at this ⊢
    omega
  · simp only [WorkerResult.record, counts_update, h.counts, Bool.toNat_true]

theorem insertKeys_tail_sublist (w : Worker) : (insertKeys w.stream.tail).Sublist (insertKeys w.ahead) := by
  unfold Worker.ahead
  split
  · exact List.Sublist.refl _
  · exact (List.tail_sublist w.stream).filterMap _

/-- an operation that succeeds, once the keys ahead are absent from the table it leaves -/
theorem WorkerInv.finish {config : Config K} {n : UInt64} {streams : T → List Operation} {t : T} {g g' : Store T pow}
    {w : Worker} {op : Operation} {rest : List Operation} (h : WorkerInv config n streams t g w)
    (hs : w.stream = op :: rest) (kind : OperationKind) (hfresh : ∀ k ∈ insertKeys rest, k ∉ g'.table)
    (hidle : Idle t g') : WorkerInv config n streams t g' (w.finish kind true) := by
  have htail : w.stream.tail = rest := by rw [hs]; rfl
  have hsub := insertKeys_tail_sublist w
  refine ⟨fun o ho => h.ops o (List.mem_of_mem_tail ho), fun k hk => h.own k (hsub.subset hk), hsub.nodup h.nodup,
    fun k hk => ?_, ?_, hidle⟩
  · simp only [Worker.ahead, Worker.finish, htail] at hk
    exact hfresh k hk
  · simp only [Worker.finish, htail]
    exact h.result.record hs kind

/-- the same when the step left the key set alone -/
theorem WorkerInv.finish_same {config : Config K} {n : UInt64} {streams : T → List Operation} {t : T}
    {g : Store T pow} {table : Table} {w : Worker} {op : Operation} {rest : List Operation}
    (h : WorkerInv config n streams t g w) (hs : w.stream = op :: rest) (kind : OperationKind)
    (hmem : ∀ k, k ∈ table ↔ k ∈ g.table) (hidle : Idle t g) :
    WorkerInv config n streams t { g with table := table } (w.finish kind true) := by
  refine h.finish hs kind (fun k hk => ?_) hidle
  have hk' : k ∈ insertKeys w.stream.tail := by rw [hs]; exact hk
  exact fun hmem' => h.fresh k ((insertKeys_tail_sublist w).subset hk') ((hmem k).1 hmem')

/-! ## The steps of an operation -/

/-- what a step of worker `t` establishes -/
structure StepOk (config : Config K) (n : UInt64) (streams : T → List Operation) (t : T) (g : Store T pow)
    (r : Store T pow × Worker) : Prop where
  store : StoreInv config n r.1
  worker : WorkerInv config n streams t r.1 r.2
  guar : StoreGuar streams t g r.1

variable {config : Config K} {n : UInt64} {streams : T → List Operation} {t : T} {g : Store T pow} {w : Worker}

/-- an operation that ends in this step and leaves the key set alone -/
theorem finish_step (hg : StoreInv config n g) (hw : WorkerInv config n streams t g w) {op : Operation}
    {rest : List Operation} (hs : w.stream = op :: rest) (kind : OperationKind) {table : Table}
    (hmem : ∀ k, k ∈ table ↔ k ∈ g.table) (hidle : Idle t g) :
    StepOk config n streams t g ({ g with table := table }, w.finish kind true) :=
  ⟨hg.same_keys hmem, hw.finish_same hs kind hmem hidle, StoreGuar.same_keys streams t hmem⟩

/-- a step inside an operation that changes nothing but the program point -/
theorem move_step (hg : StoreInv config n g) (hw : WorkerInv config n streams t g w) {pc : WorkerPc}
    (hahead : ({ w with pc := pc } : Worker).ahead = w.ahead) (hpc : PcOk config t g w.stream pc) :
    StepOk config n streams t g (g, { w with pc := pc }) := by
  refine ⟨hg, ⟨hw.ops, ?_, ?_, ?_, hw.result, hpc⟩, StoreGuar.same_keys streams t fun _ => Iff.rfl⟩
  · rw [hahead]; exact hw.own
  · rw [hahead]; exact hw.nodup
  · rw [hahead]; exact hw.fresh

/-- the keys at or below the frontier are in the table -/
theorem mem_of_le_frontier (hg : StoreInv config n g) {ak : AcknowledgedKeyspace T pow}
    (hak : g.acknowledged = some ak) {key : UInt64} (hk : key ≤ ak.ks.frontier) : key ∈ g.table := by
  by_cases hlt : key < config.records
  · exact hg.loaded key hlt
  · exact (hg.keyspace ak hak).1.reached key (UInt64.not_lt.1 hlt) hk

/-- the frontier is below the final key count, so that `frontier + 1` neither overflows nor leaves the Zipf table -/
theorem frontier_lt (hbase : config.records ≤ n) (hg : StoreInv config n g) {ak : AcknowledgedKeyspace T pow}
    (hak : g.acknowledged = some ak) : ak.ks.frontier < n := by
  by_cases hlt : ak.ks.frontier < config.records
  · rw [UInt64.lt_iff_toNat_lt] at hlt ⊢
    rw [UInt64.le_iff_toNat_le] at hbase
    omega
  · exact hg.bound _ (mem_of_le_frontier hg hak (UInt64.le_refl _))

/-- a Workload D read resolves to a key of the table -/
theorem resolve_mem [IsStrictOrderedRing K] (hbase : config.records ≤ n) (hg : StoreInv config n g)
    (hD : config.workload = .D) (sample : UInt64) (distribution : Distribution) :
    ∃ key, (g.acknowledged.bind fun ak => resolve ak sample distribution) = some key ∧ key ∈ g.table := by
  obtain ⟨ak, hak⟩ := Option.isSome_iff_exists.1 (hg.isSome hD)
  have hlt := frontier_lt hbase hg hak
  rw [UInt64.lt_iff_toNat_lt] at hlt
  have hz := (hg.keyspace ak hak).2
  have hn := n.toNat_lt
  obtain ⟨key, hkey, hle⟩ := resolve_le ak sample distribution (by omega) (by omega)
  exact ⟨key, by rw [hak]; exact hkey, mem_of_le_frontier hg hak hle⟩

/-- the table accepts the insert of a key that is ahead -/
theorem insert_fresh (hpc : w.pc = .next) (hw : WorkerInv config n streams t g w) {key : UInt64} {fields : Fields}
    {rest : List Operation} (hs : w.stream = .insert key fields :: rest) :
    key ∉ g.table ∧ key < n ∧ key ∈ insertKeys (streams t) ∧ (insertKeys rest).Nodup ∧
      ∀ k ∈ insertKeys rest, k ∈ insertKeys (streams t) ∧ k ≠ key ∧ k ∉ g.table := by
  have hahead : w.ahead = .insert key fields :: rest := by simp only [Worker.ahead, hpc, hs]
  have hkeys : insertKeys w.ahead = key :: insertKeys rest := by rw [hahead]; rfl
  have hnodup := hw.nodup
  rw [hkeys] at hnodup
  have hop := hw.ops (.insert key fields) (by rw [hs]; exact List.mem_cons_self)
  refine ⟨hw.fresh key (by rw [hkeys]; exact List.mem_cons_self), hop.2,
    hw.own key (by rw [hkeys]; exact List.mem_cons_self), hnodup.of_cons, fun k hk => ⟨?_, ?_, ?_⟩⟩
  · exact hw.own k (by rw [hkeys]; exact List.mem_cons_of_mem _ hk)
  · rintro rfl; exact (List.nodup_cons.1 hnodup).1 hk
  · exact hw.fresh k (by rw [hkeys]; exact List.mem_cons_of_mem _ hk)

/-- an accepted insert: without a keyspace the operation is over, with one its key is acknowledged next -/
theorem insertRow_step (hg : StoreInv config n g) (hw : WorkerInv config n streams t g w) (hpc : w.pc = .next)
    {key : UInt64} {fields : Fields} {rest : List Operation} (hs : w.stream = .insert key fields :: rest) :
    StepOk config n streams t g (startOperation g w (.insert key fields)) := by
  obtain ⟨hnew, hlt, hown, hnodup, hrest⟩ := insert_fresh hpc hw hs
  have hidle : Idle t g := by have := hw.pc; rwa [hpc] at this
  set g' : Store T pow := { g with table := g.table.insert key fields } with hg'
  have hgrow : ∀ k ∈ g.table, k ∈ g'.table := fun k hk => Table.mem_insert_iff.2 (Or.inr hk)
  have hfresh : ∀ k ∈ insertKeys rest, k ∉ g'.table := by
    intro k hk hmem
    rcases Table.mem_insert_iff.1 hmem with rfl | hmem
    · exact (hrest _ hk).2.1 rfl
    · exact (hrest k hk).2.2 hmem
  have hstore : StoreInv config n g' := by
    refine ⟨fun k hk => hgrow k (hg.loaded k hk), fun k hk => ?_, fun ak hak => ?_, hg.isSome⟩
    · rcases Table.mem_insert_iff.1 hk with rfl | hk
      · exact hlt
      · exact hg.bound k hk
    · exact ⟨(hg.keyspace ak hak).1.mono hgrow, (hg.keyspace ak hak).2⟩
  have hguar : StoreGuar streams t g g' := by
    refine ⟨hgrow, fun k hk => ?_, KeyspaceGuar.refl t _⟩
    rcases Table.mem_insert_iff.1 hk with rfl | hk
    · exact Or.inr hown
    · exact Or.inl hk
  simp only [startOperation, Table.insertRow_new fields hnew, true_and]
  split_ifs with hak
  · obtain ⟨ak, hak⟩ := Option.isSome_iff_exists.1 hak
    have htail : w.stream.tail = rest := by rw [hs]; rfl
    refine ⟨hstore, ⟨hw.ops, ?_, ?_, ?_, hw.result, ⟨⟨fields, rest, hs⟩, Table.mem_insert_iff.2 (Or.inl rfl), ak, hak,
      hidle ak hak⟩⟩, hguar⟩
    · simp only [Worker.ahead, htail]; exact fun k hk => (hrest k hk).1
    · simp only [Worker.ahead, htail]; exact hnodup
    · simp only [Worker.ahead, htail]; exact hfresh
  · exact ⟨hstore, hw.finish hs .insert hfresh hidle, hguar⟩

/-- **The first step of every operation.** -/
theorem startOperation_ok [IsStrictOrderedRing K] (hbase : config.records ≤ n) (hg : StoreInv config n g)
    (hw : WorkerInv config n streams t g w) (hpc : w.pc = .next) {op : Operation} {rest : List Operation}
    (hs : w.stream = op :: rest) : StepOk config n streams t g (startOperation g w op) := by
  have hidle : Idle t g := by have := hw.pc; rwa [hpc] at this
  have hop : OpOk config n op := hw.ops op (by rw [hs]; exact List.mem_cons_self)
  have hahead : ∀ pc, (∀ key pc', pc ≠ .acknowledge key pc') → ({ w with pc := pc } : Worker).ahead = w.ahead := by
    intro pc hne
    cases pc with
    | acknowledge key pc' => exact absurd rfl (hne key pc')
    | _ => simp only [Worker.ahead, hpc]
  cases op with
  | read key =>
    have hsel : g.table.select key = true := decide_eq_true (hg.loaded key hop)
    simp only [startOperation, hsel]
    exact finish_step hg hw hs .read (fun _ => Iff.rfl) hidle
  | readAcknowledged sample distribution =>
    obtain ⟨key, hkey, hmem⟩ := resolve_mem hbase hg hop sample distribution
    simp only [startOperation, hkey]
    exact move_step hg hw (hahead _ (by simp)) ⟨⟨sample, distribution, rest, hs⟩, hmem, hidle⟩
  | update key field value =>
    obtain ⟨table, htable, hmem⟩ := Table.update_some value (hg.loaded key hop.1) hop.2
    simp only [startOperation, htable]
    exact finish_step hg hw hs .update hmem hidle
  | insert key fields => exact insertRow_step hg hw hpc hs
  | scan start length =>
    simp only [startOperation, Table.scan, Table.selectByPkRange, Option.isSome_some]
    exact finish_step hg hw hs .scan (fun _ => Iff.rfl) hidle
  | readModifyWrite key field value =>
    have hsel : g.table.select key = true := decide_eq_true (hg.loaded key hop.1)
    simp only [startOperation, hsel, if_true]
    exact move_step hg hw (hahead _ (by simp)) ⟨⟨rest, hs⟩, hg.loaded key hop.1, hop.2, hidle⟩

/-- a step of an acknowledgement -/
theorem acknowledge_pc_step (hg : StoreInv config n g) (hw : WorkerInv config n streams t g w) {key : UInt64}
    {pc : AckPc} (hpc : w.pc = .acknowledge key pc) {r : Store T pow × Worker} (hr : workerStep t g w = some r) :
    StepOk config n streams t g r := by
  have hpcOk := hw.pc
  rw [hpc] at hpcOk
  obtain ⟨⟨fields, rest, hs⟩, hmem, ak, hak, hcall⟩ := hpcOk
  have htail : w.stream.tail = rest := by rw [hs]; rfl
  have hahead : w.ahead = rest := by simp only [Worker.ahead, hpc, htail]
  obtain ⟨hks, hz⟩ := hg.keyspace ak hak
  simp only [workerStep, hpc, hak] at hr
  cases hack : acknowledge t ak.ks key pc with
  | none => simp [hack] at hr
  | some r' =>
    obtain ⟨ks, more⟩ := r'
    obtain ⟨hks', hrest, hquiet⟩ := acknowledge_step hks hmem hcall hack
    set g' : Store T pow := { g with acknowledged := some { ak with ks := ks } }
    have hstore : StoreInv config n g' := by
      refine ⟨hg.loaded, hg.bound, fun ak' hak' => ?_, fun _ => rfl⟩
      cases hak'
      exact ⟨hks', hz⟩
    have hguar : StoreGuar streams t g g' := by
      refine ⟨fun _ => id, fun _ => Or.inl, ?_⟩
      simp only [hak, KeyspaceGuar]
      exact ⟨rfl, hquiet⟩
    cases more with
    | some pc' =>
      simp only [hack, Option.some.injEq] at hr
      subst hr
      have hahead' : ({ w with pc := .acknowledge key pc' } : Worker).ahead = w.ahead := by
        simp only [Worker.ahead, hpc]
      refine ⟨hstore, ⟨hw.ops, ?_, ?_, ?_, hw.result, ⟨⟨fields, rest, hs⟩, hmem, _, rfl, hrest⟩⟩, hguar⟩
      · rw [hahead']; exact hw.own
      · rw [hahead']; exact hw.nodup
      · rw [hahead']; exact hw.fresh
    | none =>
      simp only [hack, Option.some.injEq] at hr
      subst hr
      refine ⟨hstore, hw.finish hs .insert (fun k hk => hw.fresh k (by rw [hahead]; exact hk)) ?_, hguar⟩
      rintro ak' ⟨⟩
      exact hrest.1

/-- **Step lemma.** Every step of a worker keeps the store and the worker's own assertion. -/
theorem worker_step_ok [IsStrictOrderedRing K] (hbase : config.records ≤ n) (hg : StoreInv config n g)
    (hw : WorkerInv config n streams t g w) {r : Store T pow × Worker} (hr : workerStep t g w = some r) :
    StepOk config n streams t g r := by
  have hpcOk := hw.pc
  cases hpc : w.pc with
  | next =>
    cases hs : w.stream with
    | nil => simp [workerStep, hpc, hs] at hr
    | cons op rest =>
      simp only [workerStep, hpc, hs, Option.some.injEq] at hr
      exact hr ▸ startOperation_ok hbase hg hw hpc hs
  | select key =>
    rw [hpc] at hpcOk
    obtain ⟨⟨sample, d, rest, hs⟩, hmem, hidle⟩ := hpcOk
    have hsel : g.table.select key = true := decide_eq_true hmem
    simp only [workerStep, hpc, hsel, Option.some.injEq] at hr
    exact hr ▸ finish_step hg hw hs .read (fun _ => Iff.rfl) hidle
  | update key field value =>
    rw [hpc] at hpcOk
    obtain ⟨⟨rest, hs⟩, hmem, hfield, hidle⟩ := hpcOk
    obtain ⟨table, htable, hsame⟩ := Table.update_some value hmem hfield
    simp only [workerStep, hpc, htable, Option.some.injEq] at hr
    exact hr ▸ finish_step hg hw hs .readModifyWrite hsame hidle
  | acknowledge key pc => exact acknowledge_pc_step hg hw hpc hr
  | panicked => simp [workerStep, hpc] at hr

/-! ## Stability -/

/-- another worker's step does not hand over the mutex -/
theorem KeyspaceGuar.some_left {t : T} {a b : Option (AcknowledgedKeyspace T pow)} (h : KeyspaceGuar t a b) :
    ∀ ak', b = some ak' → ∃ ak, a = some ak ∧ Quiet t ak.ks ak'.ks := by
  rintro ak' rfl
  cases a with
  | none => exact absurd h id
  | some ak => exact ⟨ak, rfl, h.2⟩

theorem Idle.stable {t u : T} {g g' : Store T pow} (hu : u ≠ t) (hq : StoreGuar streams t g g') (h : Idle u g) :
    Idle u g' := by
  intro ak' hak' hheld
  obtain ⟨ak, hak, hquiet⟩ := hq.keyspace.some_left ak' hak'
  exact h ak hak ((hquiet.holder u hu).1 hheld)

theorem PcOk.stable {t u : T} {g g' : Store T pow} {stream : List Operation} {pc : WorkerPc} (hu : u ≠ t)
    (hq : StoreGuar streams t g g') (h : PcOk config u g stream pc) : PcOk config u g' stream pc := by
  cases pc with
  | next => exact Idle.stable hu hq h
  | select key => exact ⟨h.1, hq.grow key h.2.1, h.2.2.stable hu hq⟩
  | update key field value => exact ⟨h.1, hq.grow key h.2.1, h.2.2.1, h.2.2.2.stable hu hq⟩
  | acknowledge key pc =>
    obtain ⟨hs, hmem, ak, hak, hcall⟩ := h
    have hk := hq.keyspace
    rw [hak] at hk
    cases hak' : g'.acknowledged with
    | none => rw [hak'] at hk; exact absurd hk id
    | some ak' =>
      rw [hak'] at hk
      exact ⟨hs, hq.grow key hmem, ak', hak', hcall.stable hu hk.2 hq.grow fun _ _ => Or.inl⟩
  | panicked => exact h

/-- the keys of the other workers are not this worker's -/
theorem worker_stable {t u : T} {g g' : Store T pow} (hu : u ≠ t)
    (hown : ∀ k ∈ insertKeys (streams u), k ∉ insertKeys (streams t)) (hq : StoreGuar streams t g g')
    (h : WorkerInv config n streams u g w) : WorkerInv config n streams u g' w := by
  refine ⟨h.ops, h.own, h.nodup, fun k hk hmem => ?_, h.result, h.pc.stable hu hq⟩
  rcases hq.own k hmem with hmem | hmem
  · exact h.fresh k hk hmem
  · exact hown k (h.own k hk) hmem

/-- the proof outline of a YCSB run -/
def ycsbOutline [IsStrictOrderedRing K] (pow : ExactPow K) (config : Config K) (n : UInt64)
    (streams : T → List Operation) (hbase : config.records ≤ n)
    (hown : ∀ t u, u ≠ t → ∀ k ∈ insertKeys (streams u), k ∉ insertKeys (streams t)) :
    Outline (workerStep : T → Store T pow → Worker → Option (Store T pow × Worker)) where
  Glob := StoreInv config n
  Loc := WorkerInv config n streams
  Guar := StoreGuar streams
  step_ok _ _ _ _ _ hg hw hs :=
    have h := worker_step_ok hbase hg hw hs
    ⟨h.store, h.worker, h.guar⟩
  stable t u _ _ _ hu _ hq hw := worker_stable hu (hown t u hu) hq hw

/-! ## Every run can be completed -/

/-- an upper bound on the steps left to a worker -/
def Worker.work (w : Worker) : ℕ :=
  (2 ^ 64 + 8) * w.stream.length + match w.pc with
    | .next => 2 ^ 64 + 7
    | .select _ | .update _ _ _ => 1
    | .acknowledge _ pc => callWork pc
    | .panicked => 0

theorem work_finish {w : Worker} {op : Operation} {rest : List Operation} (hs : w.stream = op :: rest)
    (kind : OperationKind) (success : Bool) : (w.finish kind success).work < (2 ^ 64 + 8) * w.stream.length := by
  simp only [Worker.work, Worker.finish, hs, List.tail_cons, List.length_cons]; omega

theorem work_move {w : Worker} (hpc : w.pc = .next) {pc : WorkerPc}
    (h : ({ w with pc := pc } : Worker).work ≤ (2 ^ 64 + 8) * w.stream.length + (2 ^ 64 + 6)) :
    ({ w with pc := pc } : Worker).work < w.work := by
  refine lt_of_le_of_lt h ?_
  simp only [Worker.work, hpc]; omega

theorem startOperation_work (hpc : w.pc = .next) {op : Operation} {rest : List Operation} (hs : w.stream = op :: rest) :
    (startOperation g w op).2.work < w.work := by
  have hfin : ∀ kind success, (w.finish kind success).work < w.work := fun kind success =>
    (work_finish hs kind success).trans_le (Nat.le_add_right _ _)
  cases op with
  | read key => exact hfin _ _
  | update key field value => exact hfin _ _
  | scan start length => exact hfin _ _
  | readAcknowledged sample distribution =>
    simp only [startOperation]
    split
    · exact work_move hpc (by simp only [Worker.work]; omega)
    · exact work_move hpc (by simp only [Worker.work]; omega)
  | insert key fields =>
    simp only [startOperation]
    split_ifs
    · exact work_move hpc (by simp only [Worker.work, callWork]; omega)
    · exact hfin _ _
  | readModifyWrite key field value =>
    simp only [startOperation]
    split_ifs
    · exact work_move hpc (by simp only [Worker.work]; omega)
    · exact hfin _ _

theorem worker_work (hw : WorkerInv config n streams t g w) {r : Store T pow × Worker}
    (hr : workerStep t g w = some r) : r.2.work < w.work := by
  have hpcOk := hw.pc
  cases hpc : w.pc with
  | next =>
    cases hs : w.stream with
    | nil => simp [workerStep, hpc, hs] at hr
    | cons op rest =>
      simp only [workerStep, hpc, hs, Option.some.injEq] at hr
      exact hr ▸ startOperation_work hpc hs
  | select key =>
    rw [hpc] at hpcOk
    obtain ⟨⟨sample, d, rest, hs⟩, -⟩ := hpcOk
    simp only [workerStep, hpc, Option.some.injEq] at hr
    exact hr ▸ (work_finish hs _ _).trans_le (Nat.le_add_right _ _)
  | update key field value =>
    rw [hpc] at hpcOk
    obtain ⟨⟨rest, hs⟩, -⟩ := hpcOk
    simp only [workerStep, hpc, Option.some.injEq] at hr
    exact hr ▸ (work_finish hs _ _).trans_le (Nat.le_add_right _ _)
  | acknowledge key pc =>
    rw [hpc] at hpcOk
    obtain ⟨⟨fields, rest, hs⟩, -, ak, hak, -⟩ := hpcOk
    simp only [workerStep, hpc, hak] at hr
    split at hr
    · cases hr
    · rename_i hack
      cases hr
      have := acknowledge_work hack
      simp only [Worker.work, hpc]; omega
    · cases hr
      exact (work_finish hs _ _).trans_le (Nat.le_add_right _ _)
  | panicked => rw [hpc] at hpcOk; exact absurd hpcOk id

theorem worker_moves (hw : WorkerInv config n streams t g w) (hnd : ¬ w.Done)
    (hfree : ∀ ak, g.acknowledged = some ak → ak.ks.holder = none ∨ ak.ks.holder = some t) :
    workerStep t g w ≠ none := by
  have hpcOk := hw.pc
  cases hpc : w.pc with
  | next =>
    cases hs : w.stream with
    | nil => exact absurd ⟨hs, hpc⟩ hnd
    | cons op rest => simp [workerStep, hpc, hs]
  | select key => simp [workerStep, hpc]
  | update key field value => simp [workerStep, hpc]
  | acknowledge key pc =>
    rw [hpc] at hpcOk
    obtain ⟨-, -, ak, hak, hcall⟩ := hpcOk
    obtain ⟨⟨ks, more⟩, hr⟩ := Option.ne_none_iff_exists'.1 (acknowledge_moves hcall (hfree ak hak))
    cases more <;> simp [workerStep, hpc, hak, hr]
  | panicked => rw [hpc] at hpcOk; exact absurd hpcOk id

/-- the worker that holds the mutex is inside an acknowledgement -/
theorem not_done_of_holder (hw : WorkerInv config n streams t g w) {ak : AcknowledgedKeyspace T pow}
    (hak : g.acknowledged = some ak) (hheld : ak.ks.holder = some t) : ¬ w.Done := by
  rintro ⟨-, hpc⟩
  have hpcOk := hw.pc
  rw [hpc] at hpcOk
  exact hpcOk ak hak hheld

/-- the mutex never blocks a run for good -/
theorem workers_move (s : State T (Store T pow) Worker) (h : ∀ t, WorkerInv config n streams t s.shared (s.locals t))
    (hnd : ∃ t, ¬ (s.locals t).Done) : ∃ t, workerStep t s.shared (s.locals t) ≠ none := by
  obtain ⟨t, ht⟩ := hnd
  by_cases hheld : ∃ ak u, s.shared.acknowledged = some ak ∧ ak.ks.holder = some u
  · obtain ⟨ak, u, hak, hu⟩ := hheld
    refine ⟨u, worker_moves (h u) (not_done_of_holder (h u) hak hu) fun ak' hak' => Or.inr ?_⟩
    rw [hak] at hak'
    cases hak'
    exact hu
  · refine ⟨t, worker_moves (h t) ht fun ak hak => Or.inl ?_⟩
    cases hh : ak.ks.holder with
    | none => rfl
    | some u => exact absurd ⟨ak, u, hak, hh⟩ hheld

/-! ## Main result -/

/-- the loaded table, and every worker at the head of its stream -/
def startRun (config : Config K) (table : Table) (gen : GeneratedWorkload (Fin config.threads) pow) :
    State (Fin config.threads) (Store (Fin config.threads) pow) Worker :=
  ⟨⟨table, gen.acknowledged⟩, fun t => ⟨gen.streams.getD t [], .next, .empty⟩⟩

/-- the sums of `run_backend` over the joined workers -/
def combined [Fintype T] (results : T → WorkerResult) : WorkerResult where
  completed := ∑ t, (results t).completed
  errors := ∑ t, (results t).errors
  counts kind := ∑ t, (results t).counts kind
  errorCounts kind := ∑ t, (results t).errorCounts kind

/-- streams with pairwise different insert keys have disjoint ones, each without repetition -/
theorem insertKeys_streams {lists : List (List Operation)} (h : (insertKeys lists.flatten).Nodup) :
    (∀ i : ℕ, (insertKeys (lists.getD i [])).Nodup) ∧
      ∀ i j : ℕ, i ≠ j → ∀ k ∈ insertKeys (lists.getD i []), k ∉ insertKeys (lists.getD j []) := by
  rw [insertKeys, List.filterMap_flatten, List.nodup_flatten] at h
  obtain ⟨hnodup, hdisj⟩ := h
  have hmem : ∀ (i k), k ∈ insertKeys (lists.getD i []) → ∃ h : i < lists.length, k ∈ insertKeys lists[i] := by
    intro i k hk
    by_cases hi : i < lists.length
    · exact ⟨hi, by rwa [List.getD_eq_getElem _ _ hi] at hk⟩
    · rw [List.getD_eq_default _ _ (not_lt.1 hi)] at hk
      exact absurd hk List.not_mem_nil
  refine ⟨fun i => ?_, fun i j hij k hi hj => ?_⟩
  · by_cases hi : i < lists.length
    · rw [List.getD_eq_getElem _ _ hi]
      exact hnodup _ (List.mem_map.2 ⟨_, List.getElem_mem hi, rfl⟩)
    · rw [List.getD_eq_default _ _ (not_lt.1 hi)]
      exact List.nodup_nil
  · obtain ⟨hi', hki⟩ := hmem i k hi
    obtain ⟨hj', hkj⟩ := hmem j k hj
    rw [List.pairwise_iff_getElem] at hdisj
    rcases Nat.lt_or_gt_of_ne hij with hlt | hlt
    · have := hdisj i j (by simpa using hi') (by simpa using hj') hlt
      rw [List.getElem_map, List.getElem_map] at this
      exact this hki hkj
    · have := hdisj j i (by simpa using hj') (by simpa using hi') hlt
      rw [List.getElem_map, List.getElem_map] at this
      exact this hkj hki

/-- a worker's operations are generated ones -/
theorem mem_flatten_of_getD {lists : List (List Operation)} {i : ℕ} {op : Operation} (h : op ∈ lists.getD i []) :
    op ∈ lists.flatten := by
  by_cases hi : i < lists.length
  · rw [List.getD_eq_getElem _ _ hi] at h
    exact List.mem_flatten.2 ⟨_, List.getElem_mem hi, h⟩
  · rw [List.getD_eq_default _ _ (not_lt.1 hi)] at h
    exact absurd h List.not_mem_nil

/-- the start of a run satisfies the outline -/
theorem startRun_holds {config : Config K} {n : UInt64} {table : Table}
    (htable : ∀ k, k ∈ table ↔ k < config.records) {gen : GeneratedWorkload (Fin config.threads) pow}
    (hpos : 0 < config.records.toNat) (hgen : Generated config n gen) :
    StoreInv config n (startRun config table gen).shared ∧
      ∀ t, WorkerInv config n (fun t : Fin config.threads => gen.streams.getD t []) t
        (startRun config table gen).shared ((startRun config table gen).locals t) := by
  have hnew : ∀ ak, gen.acknowledged = some ak → ak.ks = ⟨config.records - 1, ∅, none⟩ := by
    intro ak hak
    have h := (hgen.keyspace ak hak).1
    have hpos' : 0 < config.records := UInt64.lt_iff_toNat_lt.2 hpos
    rw [Keyspace.new, if_pos hpos'] at h
    exact (Option.some.inj h).symm
  have hsub : (config.records - 1).toNat = config.records.toNat - 1 := by
    rw [UInt64.toNat_sub_of_le _ _ (by rw [UInt64.le_iff_toNat_le]; exact hpos)]; rfl
  refine ⟨⟨fun k hk => (htable k).2 hk, fun k hk => ?_, fun ak hak => ⟨?_, (hgen.keyspace ak hak).2⟩, hgen.isSome⟩,
    fun t => ⟨fun op hop => hgen.ops op (mem_flatten_of_getD hop), fun k hk => hk, (insertKeys_streams hgen.fresh).1 t,
      fun k hk hmem => ?_, ⟨rfl, fun _ => rfl, Nat.zero_add _, rfl⟩, fun ak hak => ?_⟩⟩
  · have h1 := (htable k).1 hk
    have h2 := hgen.base
    rw [UInt64.lt_iff_toNat_lt] at h1 ⊢
    rw [UInt64.le_iff_toNat_le] at h2
    omega
  · rw [hnew ak hak]
    refine ⟨by simp only; omega, fun k hi hk => ?_, by simp, fun _ => ⟨by simp [Clean], by simp [Covers]⟩⟩
    simp only [UInt64.le_iff_toNat_le] at hi hk
    omega
  · have hle := (insertKeys_lt (fun op hop => hgen.ops op (mem_flatten_of_getD hop)) k hk).1
    exact absurd ((htable k).1 hmem) (UInt64.not_lt.2 hle)
  · rw [hnew ak hak]; simp

theorem sum_counts [Fintype T] (results : T → WorkerResult) :
    (OperationKind.all.map (combined results).counts).sum =
      ∑ t, (OperationKind.all.map (results t).counts).sum := by
  simp [OperationKind.all, combined, Finset.sum_add_distrib]

/-- **YCSB runs are error-free by construction.** For every accepted configuration the load and the generation do not
panic, and at every moment of every interleaving of the workers: no error is counted, no worker has panicked, and a
Workload D read that has resolved its key finds it in the table. When all streams are exhausted, every operation has
completed and the counts per kind sum to the operations. Every run can be completed. -/
theorem ycsb_error_free [IsStrictOrderedRing K] (pow : ExactPow K) (config : Config K)
    (hv : config.validate = .ok ()) :
    ∃ table gen, load config = some table ∧
      (generateStreams (Fin config.threads) pow config).run' (Rng.new config.seed) = some gen ∧
      ∀ sched,
        let s := run workerStep (startRun config table gen) sched
        let total := combined fun t => (s.locals t).result
        total.errors = 0 ∧ (∀ kind, total.errorCounts kind = 0) ∧
        (∀ t, (s.locals t).pc ≠ .panicked) ∧
        (∀ t key, (s.locals t).pc = .select key → key ∈ s.shared.table) ∧
        ((∀ t, (s.locals t).Done) → total.completed = config.operations.toNat ∧
          (OperationKind.all.map total.counts).sum = config.operations.toNat) ∧
        ∃ more, ∀ t, ((run workerStep s more).locals t).Done := by
  have hacc := Config.accepted_of_validate hv
  obtain ⟨table, hload, htable⟩ := load_some config
  obtain ⟨gen, rng, hrun, n, hgen⟩ := generateStreams_total (Fin config.threads) pow hacc (Rng.new config.seed)
  refine ⟨table, gen, hload, by rw [StateT.run'_eq, hrun]; rfl, fun sched => ?_⟩
  intro s
  have hown := (insertKeys_streams hgen.fresh).2
  let O := ycsbOutline pow config n (fun t : Fin config.threads => gen.streams.getD t []) hgen.base
    fun t u hu => hown u t fun h => hu (Fin.ext h)
  have hs : O.Holds s := O.run _ (startRun_holds htable hacc.records hgen) sched
  obtain ⟨hg, hw⟩ := hs
  refine ⟨?_, fun kind => ?_, fun t hpc => ?_, fun t key hpc => ?_, fun hd => ?_, ?_⟩
  · simp only [combined, (hw _).result.errors, Finset.sum_const_zero]
  · simp only [combined, (hw _).result.errorCounts, Finset.sum_const_zero]
  · have := (hw t).pc
    rw [hpc] at this
    exact this
  · have := (hw t).pc
    rw [hpc] at this
    exact this.2.1
  · have hcompleted : (combined fun t => (s.locals t).result).completed = config.operations.toNat := by
      have hlengths := sum_countP_getD (fun _ => true) gen.streams hgen.count
      simp only [List.countP_true] at hlengths
      rw [← hgen.total, ← hlengths]
      simp only [combined]
      refine Finset.sum_congr rfl fun t _ => ?_
      have := (hw t).result.completed
      rwa [(hd t).1] at this
    refine ⟨hcompleted, ?_⟩
    rw [sum_counts, ← hcompleted]
    simp only [combined, (hw _).result.counts]
  · exact run_finishes O.Holds Worker.Done Worker.work O.exec_holds (fun s t _ _ h hr => worker_work (h.2 t) hr)
      (fun s h hnd => workers_move s h.2 hnd) s ⟨hg, hw⟩

/-- a small Workload D run on two threads -/
def smallRun : Config ℝ := ⟨.D, 2, 3, 2, 1, 1, 42, 1, 1, 0, none⟩

theorem ycsb_error_free_small :
    smallRun.validate = .ok () ∧ ∃ table gen, load smallRun = some table ∧
      (generateStreams (Fin 2) realPow smallRun).run' (Rng.new 42) = some gen := by
  have hv : smallRun.validate = .ok () := by
    simp [Config.validate, smallRun, checkedAdd]
  obtain ⟨table, gen, hload, hgen, -⟩ := ycsb_error_free realPow smallRun hv
  exact ⟨hv, table, gen, hload, hgen⟩

end WtBenchmarks.Ycsb
