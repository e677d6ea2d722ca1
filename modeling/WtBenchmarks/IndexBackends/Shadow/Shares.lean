/-
The shares of the shadow repetition's workers: the ids and turns of the writers, the random numbers of the readers.

A writer with a turn but without an id panics at its first step (`owned.len()` is the divisor). A reader's state is an
exclusive or of the seed with a multiple of a constant, and zero is the fixed point of its xorshift step.

- `writer_shares_iff`: an accepted configuration has an id for every writer with a turn exactly if there are as many
  records as writers, or as many as operations;
- `nextRandom_injective`: the step of a reader's state loses nothing;
- `reader_random_iff`: in no run a reader draws from the state zero, exactly if the seed cancels no reader's constant;
  a reader whose constant it cancels reads row 0 and bucket 0 in every turn.
-/
import WtBenchmarks.Core.Mixer
import WtBenchmarks.IndexBackends.Shadow.Setup

namespace WtBenchmarks.IndexBackends.Shadow

open RoundRobin

/-! ## Writers -/

/-- the state a reader starts from -/
def readerRandom (seed : UInt64) (reader : ℕ) : UInt64 := seed ^^^ ((UInt64.ofNat reader + 1) * 0x9e3779b97f4a7c15)

section Writers

variable {config : Config}

/-- the writers' shares: the ids are partitioned, the turns add up, and who has a turn has an id to take it with -/
structure WriterShares (config : Config) : Prop where
  ids : ((List.range config.writerThreads).flatMap (owned config)).Perm
    ((List.range config.records.toNat).map UInt64.ofNat)
  operations : ((List.range config.writerThreads).map (turns config.operations.toNat config.writerThreads)).sum =
    config.operations.toNat
  owners : ∀ worker < config.writerThreads, 0 < turns config.operations.toNat config.writerThreads worker →
    0 < (owned config worker).length

theorem owned_perm (hthreads : 0 < config.writerThreads) :
    ((List.range config.writerThreads).flatMap (owned config)).Perm
      ((List.range config.records.toNat).map UInt64.ofNat) := by
  have howned : (List.range config.writerThreads).flatMap (owned config) =
      ((List.range config.writerThreads).flatMap (stride config.records.toNat config.writerThreads)).map
        UInt64.ofNat := by
    rw [List.map_flatMap]
    rfl
  rw [howned]
  exact (stride_perm _ hthreads).map _

theorem Config.writerThreads_pos (h : config.check = .ok ()) : 0 < config.writerThreads := by
  unfold check at h
  dsimp only at h
  obtain ⟨hzero, -⟩ := check_ok h
  simp only [not_or] at hzero
  obtain ⟨-, -, hthreads, -, -, -⟩ := hzero
  unfold writerThreads readerThreads
  omega

/-- **Writers' shares.** In an accepted configuration the ids are partitioned and the turns add up, and every writer
with a turn has an id exactly if there are as many records as writers, or as many as operations. -/
theorem writer_shares_iff (config : Config) (h : config.check = .ok ()) :
    WriterShares config ↔ min config.writerThreads config.operations.toNat ≤ config.records.toNat := by
  have hthreads := Config.writerThreads_pos h
  constructor
  · intro hshares
    by_contra hfew
    have hworker : config.records.toNat < config.writerThreads := by omega
    have hturn : 0 < turns config.operations.toNat config.writerThreads config.records.toNat := by
      rw [turns_eq_share, share_pos hworker]
      omega
    have howner := (owned_pos hworker).1 (hshares.owners _ hworker hturn)
    exact absurd howner (lt_irrefl _)
  · intro henough
    refine ⟨owned_perm hthreads, ?_, fun worker hworker hturn => ?_⟩
    · rw [turns_eq_share]
      exact share_sum hthreads
    · rw [turns_eq_share, share_pos hworker] at hturn
      rw [owned_pos hworker]
      omega

theorem writer_shares_iff_sample :
    WriterShares ⟨3, 5, 3, 1, 8, 2, 42, true, 2⟩ ↔ min 2 5 ≤ 3 :=
  writer_shares_iff ⟨3, 5, 3, 1, 8, 2, 42, true, 2⟩ (by decide)

theorem start_locals {stride : UInt64} {s : Threads.State (Worker config) Shared Local}
    (h : start config stride = some s) :
    (∀ worker, s.locals (.inl worker) =
      .writer ⟨worker, turns config.operations.toNat config.writerThreads worker, 0, .load⟩) ∧
    ∀ reader, s.locals (.inr reader) =
      .reader ⟨turns config.operations.toNat config.readerThreads reader, 0,
        readerRandom config.seed reader, .loadPrimary⟩ := by
  unfold start at h
  simp only [Option.bind_eq_bind] at h
  obtain ⟨table, -, h⟩ := Option.bind_eq_some_iff.1 h
  obtain ⟨count, -, h⟩ := Option.bind_eq_some_iff.1 h
  cases h
  exact ⟨fun _ => rfl, fun _ => rfl⟩

/-- **A writer with a turn and no id panics** when it is first scheduled. -/
theorem writer_panics {stride : UInt64} {s : Threads.State (Worker config) Shared Local}
    (h : start config stride = some s) {worker : Fin config.writerThreads}
    (hturn : 0 < turns config.operations.toNat config.writerThreads worker) (howned : owned config worker = []) :
    (Threads.run (step config stride) s [.inl worker]).locals (.inl worker) = .panicked := by
  have hwriter := (start_locals h).1 worker
  have hload : writerStep config stride s.shared
      ⟨worker, turns config.operations.toNat config.writerThreads worker, 0, .load⟩ = none := by
    unfold writerStep
    simp only [howned]
    rfl
  have hstep : step config stride (.inl worker) s.shared (s.locals (.inl worker)) = some (s.shared, .panicked) := by
    rw [hwriter]
    simp only [step]
    rw [if_neg (Nat.not_le.2 hturn), hload]
  rw [Threads.run_cons, Threads.run_nil, Threads.exec_some hstep]
  exact Function.update_self _ _ _

/-- one row, four threads -/
def oneRow : Config := ⟨1, 20000, 4, 3, 64, 16, 42, true, 10⟩

/-- its second writer has ten thousand turns and no row -/
theorem oneRow_panics : oneRow.check = .ok () ∧ ¬ WriterShares oneRow ∧
    ∃ s, start oneRow 2 = some s ∧ ∃ worker : Fin oneRow.writerThreads,
      (Threads.run (step oneRow 2) s [.inl worker]).locals (.inl worker) = .panicked := by
  refine ⟨by decide, fun hshares => ?_, ?_⟩
  · exact absurd (hshares.owners 1 (by decide) (by decide)) (by decide)
  · obtain ⟨s, hs⟩ : ∃ s, start oneRow 2 = some s := Option.isSome_iff_exists.1 (by decide)
    exact ⟨s, hs, ⟨1, by decide⟩, writer_panics hs (by decide) (by decide)⟩

end Writers

/-! ## Readers -/

/-- **The xorshift step loses nothing.** -/
theorem nextRandom_injective : Function.Injective nextRandom :=
  Mixer.xorShifts_injective (by decide) (by decide) (by decide)

theorem nextRandom_zero : nextRandom 0 = 0 := by decide

theorem iterate_zero (n : ℕ) : nextRandom^[n] 0 = 0 := Function.iterate_fixed nextRandom_zero n

/-- zero is reached from zero only -/
theorem iterate_eq_zero {x : UInt64} (n : ℕ) : nextRandom^[n] x = 0 ↔ x = 0 :=
  Mixer.iterate_eq_fixed nextRandom_injective nextRandom_zero n

theorem readerRandom_eq_zero {seed : UInt64} {reader : ℕ} :
    readerRandom seed reader = 0 ↔ seed = (UInt64.ofNat reader + 1) * 0x9e3779b97f4a7c15 := UInt64.xor_eq_zero_iff

section Readers

variable {config : Config} {stride : UInt64} {g g' : Shared} {r r' : Reader}

/-- the id a reader has drawn for its turn -/
def ReaderPc.id : ReaderPc → Option UInt64
  | .loadPrimary | .selectBucket => none
  | .selectPrimary id _ | .checkPrimary id _ _ | .loadUnique id | .selectUnique id _ | .checkUnique id _ _
  | .loadStale id _ | .selectStale id _ _ | .checkStale _ id _ => some id

/-- what a step does to a reader's number of turns, its random state and its id -/
structure Draws (config : Config) (r r' : Reader) : Prop where
  operations : r'.operations = r.operations
  random : r'.random = r.random ∨ r'.random = nextRandom r.random
  id : ∀ id, r'.pc.id = some id → r.pc.id = some id ∨ id = nextRandom r.random % config.records

theorem endChecks_id (r : Reader) : (endChecks r).pc.id = none := by
  unfold endChecks nextSequence
  split_ifs <;> rfl

theorem endChecks_random (r : Reader) : (endChecks r).operations = r.operations ∧ (endChecks r).random = r.random := by
  unfold endChecks nextSequence
  split_ifs <;> exact ⟨rfl, rfl⟩

/-- a turn that ends -/
theorem Draws.endChecks (config : Config) (r : Reader) : Draws config r (endChecks r) := by
  obtain ⟨hoperations, hrandom⟩ := endChecks_random r
  refine ⟨hoperations, Or.inl hrandom, fun id hid => ?_⟩
  rw [endChecks_id] at hid
  cases hid

/-- a step within a turn -/
theorem Draws.same {pc : ReaderPc} (config : Config) (r : Reader) (h : pc.id = r.pc.id) :
    Draws config r { r with pc } := ⟨rfl, Or.inl rfl, fun _ hid => Or.inl (h ▸ hid)⟩

/-- **One step of a reader.** -/
theorem readerStep_draws (h : readerStep config stride g r = some (g', r')) : Draws config r r' := by
  unfold readerStep at h
  cases hpc : r.pc <;> simp only [hpc, Option.bind_eq_bind] at h
  case loadPrimary =>
    obtain ⟨id, hid, h⟩ := Option.bind_eq_some_iff.1 h
    obtain ⟨before, -, h⟩ := Option.bind_eq_some_iff.1 h
    cases h
    refine ⟨rfl, Or.inr rfl, fun id' hid' => Or.inr ?_⟩
    cases hid'
    exact checkedMod_eq hid
  case selectPrimary =>
    cases h
    exact Draws.same config r (by rw [hpc]; rfl)
  case checkPrimary =>
    obtain ⟨after, -, h⟩ := Option.bind_eq_some_iff.1 h
    obtain ⟨c, -, h⟩ := Option.bind_eq_some_iff.1 h
    cases h
    exact Draws.same config r (by rw [hpc]; rfl)
  case loadUnique =>
    obtain ⟨before, -, h⟩ := Option.bind_eq_some_iff.1 h
    cases h
    exact Draws.same config r (by rw [hpc]; rfl)
  case selectUnique =>
    obtain ⟨key, -, h⟩ := Option.bind_eq_some_iff.1 h
    cases h
    exact Draws.same config r (by rw [hpc]; rfl)
  case checkUnique =>
    obtain ⟨after, -, h⟩ := Option.bind_eq_some_iff.1 h
    obtain ⟨c, -, h⟩ := Option.bind_eq_some_iff.1 h
    cases h
    split_ifs
    · exact Draws.same config r (by rw [hpc]; rfl)
    · exact Draws.endChecks config r
  case loadStale =>
    obtain ⟨before, -, h⟩ := Option.bind_eq_some_iff.1 h
    cases h
    exact Draws.same config r (by rw [hpc]; rfl)
  case selectStale =>
    obtain ⟨previous, -, h⟩ := Option.bind_eq_some_iff.1 h
    obtain ⟨key, -, h⟩ := Option.bind_eq_some_iff.1 h
    cases h
    exact Draws.same config r (by rw [hpc]; rfl)
  case checkStale =>
    obtain ⟨after, -, h⟩ := Option.bind_eq_some_iff.1 h
    cases h
    exact Draws.endChecks config r
  case selectBucket =>
    obtain ⟨selected, -, h⟩ := Option.bind_eq_some_iff.1 h
    obtain ⟨c, -, h⟩ := Option.bind_eq_some_iff.1 h
    cases h
    exact ⟨rfl, Or.inr rfl, nofun⟩

/-- a step that leaves a reader was one of that reader -/
theorem step_reader {t : Worker config} {l : Local} (h : step config stride t g l = some (g', .reader r')) :
    ∃ r, l = .reader r ∧ Draws config r r' := by
  cases l with
  | writer w =>
    simp only [step] at h
    split_ifs at h
    split at h <;> cases h
  | reader r =>
    simp only [step] at h
    split_ifs at h
    split at h
    · cases h
    · rename_i hstep
      cases h
      exact ⟨r, rfl, readerStep_draws hstep⟩
  | panicked => cases h

/-- what a run keeps of a reader: its turns, its state on the orbit of the first one, its id drawn on that orbit -/
structure OnOrbit (config : Config) (reader : ℕ) (r : Reader) : Prop where
  operations : r.operations = turns config.operations.toNat config.readerThreads reader
  random : ∃ n, r.random = nextRandom^[n] (readerRandom config.seed reader)
  id : ∀ id, r.pc.id = some id → ∃ n, id = nextRandom^[n] (readerRandom config.seed reader) % config.records

theorem OnOrbit.draws {reader : ℕ} (h : OnOrbit config reader r) (hstep : Draws config r r') :
    OnOrbit config reader r' := by
  obtain ⟨n, hn⟩ := h.random
  have hnext : nextRandom r.random = nextRandom^[n + 1] (readerRandom config.seed reader) := by
    rw [hn, Function.iterate_succ_apply']
  refine ⟨hstep.operations.trans h.operations, ?_, fun id hid => ?_⟩
  · rcases hstep.random with hsame | hdraw
    · exact ⟨n, hsame.trans hn⟩
    · exact ⟨n + 1, hdraw.trans hnext⟩
  · rcases hstep.id id hid with hbefore | hdraw
    · exact h.id id hbefore
    · exact ⟨n + 1, hnext ▸ hdraw⟩

/-- **Every run keeps the readers on their orbits.** -/
theorem run_onOrbit {s : Threads.State (Worker config) Shared Local} (hstart : start config stride = some s)
    (sched : List (Worker config)) (reader : Fin config.readerThreads) (r : Reader)
    (hr : (Threads.run (step config stride) s sched).locals (.inr reader) = .reader r) : OnOrbit config reader r := by
  refine Threads.run_inv
    (fun s => ∀ (reader : Fin config.readerThreads) r, s.locals (.inr reader) = .reader r → OnOrbit config reader r)
    ?_ s ?_ sched reader r hr
  · intro s t g l hs ht reader r hr
    change Function.update s.locals t l (.inr reader) = .reader r at hr
    by_cases hturn : Sum.inr reader = t
    · subst hturn
      rw [Function.update_self] at hr
      subst hr
      obtain ⟨before, hbefore, hdraws⟩ := step_reader ht
      exact (hs reader before hbefore).draws hdraws
    · rw [Function.update_of_ne hturn] at hr
      exact hs reader r hr
  · intro reader r hr
    rw [(start_locals hstart).2 reader] at hr
    cases hr
    exact ⟨rfl, ⟨0, rfl⟩, nofun⟩

/-- no reader with a turn left has the state zero, whatever the schedule -/
def NeverZero (config : Config) (stride : UInt64) (s : Threads.State (Worker config) Shared Local) : Prop :=
  ∀ sched reader r, (Threads.run (step config stride) s sched).locals (.inr reader) = .reader r →
    r.sequence < r.operations → r.random ≠ 0

/-- the reader reads row 0 and bucket 0 forever, whatever the schedule -/
def Degenerate (config : Config) (stride : UInt64) (s : Threads.State (Worker config) Shared Local)
    (reader : Fin config.readerThreads) : Prop :=
  ∀ sched r, (Threads.run (step config stride) s sched).locals (.inr reader) = .reader r →
    (∀ id, r.pc.id = some id → id = 0) ∧ nextRandom r.random % config.records = 0 ∧
      nextRandom r.random % config.buckets = 0

theorem degenerate_of_cancels {s : Threads.State (Worker config) Shared Local} (hstart : start config stride = some s)
    {reader : Fin config.readerThreads} (hzero : readerRandom config.seed reader = 0) :
    Degenerate config stride s reader := by
  intro sched r hr
  have horbit := run_onOrbit hstart sched reader r hr
  obtain ⟨n, hn⟩ := horbit.random
  rw [hzero, iterate_zero] at hn
  rw [hn, nextRandom_zero]
  refine ⟨fun id hid => ?_, UInt64.zero_mod, UInt64.zero_mod⟩
  obtain ⟨m, hm⟩ := horbit.id id hid
  rw [hm, hzero, iterate_zero]
  exact UInt64.zero_mod

/-- **Readers' states.** In every run no reader draws from the state zero, exactly if the seed is the constant of no
reader that has a turn; a reader whose constant it is reads row 0 and bucket 0 forever. -/
theorem reader_random_iff (config : Config) (stride : UInt64) (s : Threads.State (Worker config) Shared Local)
    (hstart : start config stride = some s) :
    (NeverZero config stride s ↔
      ∀ reader : Fin config.readerThreads, 0 < turns config.operations.toNat config.readerThreads reader →
        config.seed ≠ (UInt64.ofNat reader + 1) * 0x9e3779b97f4a7c15) ∧
    ∀ reader : Fin config.readerThreads, config.seed = (UInt64.ofNat reader + 1) * 0x9e3779b97f4a7c15 →
      Degenerate config stride s reader := by
  refine ⟨⟨?_, ?_⟩, ?_⟩
  · intro hnever reader hturn hseed
    exact hnever [] reader _ ((start_locals hstart).2 reader) hturn (readerRandom_eq_zero.2 hseed)
  · intro hseed sched reader r hr hturn hzero
    have horbit := run_onOrbit hstart sched reader r hr
    obtain ⟨n, hn⟩ := horbit.random
    rw [horbit.operations] at hturn
    rw [hzero] at hn
    exact hseed reader (Nat.zero_lt_of_lt hturn) (readerRandom_eq_zero.1 ((iterate_eq_zero n).1 hn.symm))
  · intro reader hseed
    exact degenerate_of_cancels hstart (readerRandom_eq_zero.2 hseed)

/-- the default configuration, with the seed that cancels the first reader's constant -/
def canceledSeed : Config := ⟨2000, 20000, 8, 3, 64, 16, 11400714819323198485, true, 10⟩

theorem canceledSeed_start : ∃ s, start canceledSeed (canceledSeed.records + 1) = some s := by
  have hacc : canceledSeed.Accepted :=
    Config.accepted_of_check (by decide) (by decide) (by decide) (by decide)
  obtain ⟨s, hs, -⟩ := start_holds hacc
  exact ⟨s, hs⟩

/-- its first reader draws from zero, and reads row 0 and bucket 0 in all of its five thousand turns -/
theorem canceledSeed_degenerates : canceledSeed.check = .ok () ∧
    ∃ s, start canceledSeed 2001 = some s ∧ ¬ NeverZero canceledSeed 2001 s ∧
      Degenerate canceledSeed 2001 s ⟨0, by decide⟩ := by
  obtain ⟨s, hs⟩ := canceledSeed_start
  have hzero : readerRandom canceledSeed.seed 0 = 0 := by decide
  refine ⟨by decide, s, hs, fun hnever => ?_, degenerate_of_cancels hs hzero⟩
  exact hnever [] ⟨0, by decide⟩ _ ((start_locals hs).2 ⟨0, by decide⟩) (by decide) hzero

theorem reader_random_iff_sample :
    ∃ s, start canceledSeed 2001 = some s ∧ (NeverZero canceledSeed 2001 s ↔
      ∀ reader : Fin canceledSeed.readerThreads,
        0 < turns canceledSeed.operations.toNat canceledSeed.readerThreads reader →
        canceledSeed.seed ≠ (UInt64.ofNat reader + 1) * 0x9e3779b97f4a7c15) := by
  obtain ⟨s, hs⟩ := canceledSeed_start
  exact ⟨s, hs, (reader_random_iff canceledSeed 2001 s hs).1⟩

end Readers

end WtBenchmarks.IndexBackends.Shadow
