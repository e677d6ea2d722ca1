/-
The invariant of the shadow-concurrency oracle over all interleavings.

Every row in the table is the row of its id at some generation; a stable marker names the generation of the row that is
in the table; the writer of an id alone touches its marker and its row, and markers only grow (`rank`). A reader that
sees the same stable marker before and after a lookup therefore looked at the row of that generation (`Bracket`), and no
row under an older generation's key was there.

- `writerStep_ok`, `readerStep_ok`: a step never panics and keeps the invariant;
- `outline`: the thread-modular proof.
-/
import WtBenchmarks.Core.RoundRobin
import WtBenchmarks.Core.Total
import WtBenchmarks.IndexBackends.Shadow.Program

namespace WtBenchmarks.IndexBackends.Shadow

open RoundRobin (share share_le share_pos stride stride_length mem_stride)

variable {config : Config}

/-! ## Assertions -/

/-- no failure has been counted -/
def Counters.Clean (c : Counters) : Prop := { c with onlineReads := 0 } = Counters.default

/-- a row of a loaded id at a generation that writers may reach -/
def Made (config : Config) (row : Row) : Prop :=
  ∃ id generation : UInt64, id.toNat < config.records.toNat ∧ generation.toNat ≤ config.operations.toNat ∧
    row = rowOf config id generation

/-- what holds of the table, the shadow and the counters -/
structure SharedOk (config : Config) (g : Shared) : Prop where
  bound : ∀ id : UInt64, id.toNat < config.records.toNat →
    (generationOf (g.shadow id)).toNat ≤ config.operations.toNat
  stable : ∀ id : UInt64, id.toNat < config.records.toNat → isWriting (g.shadow id) = false →
    g.table.rows[id]? = some (rowOf config id (generationOf (g.shadow id)))
  rows : ∀ (id : UInt64) row, g.table.rows[id]? = some row → id.toNat < config.records.toNat ∧
    ∃ generation : UInt64, generation.toNat ≤ config.operations.toNat ∧ row = rowOf config id generation
  clean : g.counters.Clean

/-- the ids a thread writes -/
def Owns : Worker config → UInt64 → Prop
  | .inl worker, id => id.toNat % config.writerThreads = worker
  | .inr _, _ => False

/-- what a thread may do to the shared state -/
structure Guarantee (t : Worker config) (g g' : Shared) : Prop where
  frame : ∀ id : UInt64, id.toNat < config.records.toNat → ¬ Owns t id →
    g'.shadow id = g.shadow id ∧ g'.table.rows[id]? = g.table.rows[id]?
  grows : ∀ id : UInt64, id.toNat < config.records.toNat → rank (g.shadow id) ≤ rank (g'.shadow id)

/-- the ids of a writer other than the one at work are stable, at a generation it has had turns for -/
def IdleExcept (worker : Fin config.writerThreads) (current : Option UInt64) (sequence : ℕ) (g : Shared) : Prop :=
  ∀ id : UInt64, id.toNat < config.records.toNat → Owns (.inl worker) id → some id ≠ current →
    isWriting (g.shadow id) = false ∧ (generationOf (g.shadow id)).toNat ≤ sequence

/-- the id at work: its marker says so, and the next generation is within the writer's turns -/
structure Working (worker : Fin config.writerThreads) (w : Writer) (id previous generation : UInt64) (g : Shared) :
    Prop where
  turn : w.sequence < w.operations
  loaded : id.toNat < config.records.toNat
  owned : Owns (.inl worker) id
  idle : IdleExcept worker (some id) w.sequence g
  marked : g.shadow id = mark previous
  next : generation.toNat = previous.toNat + 1
  reached : previous.toNat ≤ w.sequence

/-- what a writer knows at each step -/
def WriterAt (worker : Fin config.writerThreads) (w : Writer) (g : Shared) : WriterPc → Prop
  | .load => IdleExcept worker none w.sequence g
  | .mark id previous => w.sequence < w.operations ∧ id.toNat < config.records.toNat ∧ Owns (.inl worker) id ∧
      IdleExcept worker none w.sequence g ∧ previous = generationOf (g.shadow id)
  | .write id previous generation nextRow => Working worker w id previous generation g ∧
      g.table.rows[id]? = some (rowOf config id previous) ∧ nextRow = rowOf config id generation
  | .reinsert id previous generation nextRow => Working worker w id previous generation g ∧
      g.table.rows[id]? = none ∧ nextRow = rowOf config id generation
  | .publish id previous generation success => Working worker w id previous generation g ∧
      g.table.rows[id]? = some (rowOf config id generation) ∧ success = true
  | .verify id => w.sequence < w.operations ∧ id.toNat < config.records.toNat ∧ Owns (.inl worker) id ∧
      IdleExcept worker none (w.sequence + 1) g

structure WriterOk (worker : Fin config.writerThreads) (g : Shared) (w : Writer) : Prop where
  self : w.worker = worker
  operations : w.operations ≤ config.operations.toNat
  sequence : w.sequence ≤ w.operations
  pc : WriterAt worker w g w.pc

/-- the marker has moved on since it was loaded, or it has not and `Q` was observed -/
def Bracket (before current : UInt64) (Q : Prop) : Prop := rank before < rank current ∨ before = current ∧ Q

/-- what a reader knows at each step -/
def ReaderAt (config : Config) (g : Shared) : ReaderPc → Prop
  | .loadPrimary => True
  | .selectPrimary id before => id.toNat < config.records.toNat ∧ rank before ≤ rank (g.shadow id)
  | .checkPrimary id before observed => id.toNat < config.records.toNat ∧
      (∀ row, observed = some row → Made config row) ∧
      Bracket before (g.shadow id) (isWriting before = false → observed = some (rowOf config id (generationOf before)))
  | .loadUnique id => id.toNat < config.records.toNat
  | .selectUnique id before => id.toNat < config.records.toNat ∧ rank before ≤ rank (g.shadow id)
  | .checkUnique id before observed => id.toNat < config.records.toNat ∧
      (∀ row, observed = some row → Made config row) ∧
      Bracket before (g.shadow id) (isWriting before = false → observed = some (rowOf config id (generationOf before)))
  | .loadStale id generation => id.toNat < config.records.toNat ∧ 0 < generation.toNat ∧
      generation.toNat ≤ (generationOf (g.shadow id)).toNat
  | .selectStale id generation before => id.toNat < config.records.toNat ∧ 0 < generation.toNat ∧
      generation.toNat ≤ (generationOf before).toNat ∧ rank before ≤ rank (g.shadow id)
  | .checkStale before id observed => id.toNat < config.records.toNat ∧
      Bracket before (g.shadow id) (isWriting before = false → observed = none)
  | .selectBucket => True

/-- what a thread knows -/
def LocalOk (t : Worker config) (g : Shared) : Local → Prop
  | .writer w => ∃ worker, t = .inl worker ∧ WriterOk worker g w
  | .reader r => (∃ reader, t = .inr reader) ∧ ReaderAt config g r.pc
  | .panicked => False

/-! ## Brackets -/

theorem Bracket.le {before current : UInt64} {Q : Prop} (h : Bracket before current Q) :
    rank before ≤ rank current := by
  rcases h with hlt | ⟨rfl, -⟩
  · exact hlt.le
  · exact le_rfl

theorem Bracket.of_le {before current : UInt64} {Q : Prop} (hle : rank before ≤ rank current)
    (hQ : before = current → Q) : Bracket before current Q := by
  rcases hle.lt_or_eq with hlt | heq
  · exact Or.inl hlt
  · exact Or.inr ⟨rank_inj heq, hQ (rank_inj heq)⟩

theorem Bracket.grows {before current current' : UInt64} {Q : Prop} (h : Bracket before current Q)
    (hle : rank current ≤ rank current') : Bracket before current' Q := by
  rcases h with hlt | ⟨rfl, hQ⟩
  · exact Or.inl (hlt.trans_le hle)
  · exact Bracket.of_le hle fun _ => hQ

/-- the marker has not moved: the observation holds -/
theorem Bracket.same {before : UInt64} {Q : Prop} (h : Bracket before before Q) : Q := by
  rcases h with hlt | ⟨-, hQ⟩
  · exact absurd hlt (lt_irrefl _)
  · exact hQ

/-! ## Stability -/

theorem not_owns_of_ne {t : Worker config} {worker : Fin config.writerThreads} (hne : Sum.inl worker ≠ t) {id : UInt64}
    (h : Owns (.inl worker) id) : ¬ Owns t id := by
  cases t with
  | inl worker' =>
    intro h'
    have heq : worker = worker' := Fin.ext (Eq.trans (Eq.symm h) h')
    exact hne (congrArg Sum.inl heq)
  | inr reader => exact fun h => h

section Frame

variable {t : Worker config} {worker : Fin config.writerThreads} (hne : Sum.inl worker ≠ t) {g g' : Shared}
  (hguar : Guarantee t g g')
include hne hguar

theorem IdleExcept.frame {current : Option UInt64} {sequence : ℕ} (h : IdleExcept worker current sequence g) :
    IdleExcept worker current sequence g' := by
  intro id hid howned hcurrent
  rw [(hguar.frame id hid (not_owns_of_ne hne howned)).1]
  exact h id hid howned hcurrent

theorem Working.frame {w : Writer} {id previous generation : UInt64} (h : Working worker w id previous generation g) :
    Working worker w id previous generation g' ∧ g'.table.rows[id]? = g.table.rows[id]? := by
  obtain ⟨hshadow, hrow⟩ := hguar.frame id h.loaded (not_owns_of_ne hne h.owned)
  exact ⟨⟨h.turn, h.loaded, h.owned, h.idle.frame hne hguar, hshadow.trans h.marked, h.next, h.reached⟩, hrow⟩

theorem WriterAt.frame {w : Writer} {pc : WriterPc} (h : WriterAt worker w g pc) : WriterAt worker w g' pc := by
  cases pc with
  | load => exact IdleExcept.frame hne hguar h
  | mark id previous =>
    obtain ⟨hturn, hid, howned, hidle, hprevious⟩ := h
    refine ⟨hturn, hid, howned, hidle.frame hne hguar, ?_⟩
    rw [(hguar.frame id hid (not_owns_of_ne hne howned)).1]
    exact hprevious
  | write id previous generation nextRow =>
    obtain ⟨hworking, hrow, hnext⟩ := h
    obtain ⟨hworking', hsame⟩ := hworking.frame hne hguar
    exact ⟨hworking', hsame.trans hrow, hnext⟩
  | reinsert id previous generation nextRow =>
    obtain ⟨hworking, hrow, hnext⟩ := h
    obtain ⟨hworking', hsame⟩ := hworking.frame hne hguar
    exact ⟨hworking', hsame.trans hrow, hnext⟩
  | publish id previous generation success =>
    obtain ⟨hworking, hrow, hsuccess⟩ := h
    obtain ⟨hworking', hsame⟩ := hworking.frame hne hguar
    exact ⟨hworking', hsame.trans hrow, hsuccess⟩
  | verify id =>
    obtain ⟨hturn, hid, howned, hidle⟩ := h
    exact ⟨hturn, hid, howned, hidle.frame hne hguar⟩

end Frame

/-- a reader's knowledge survives growing markers -/
theorem ReaderAt.grows {g g' : Shared} {pc : ReaderPc} (h : ReaderAt config g pc)
    (hgrows : ∀ id : UInt64, id.toNat < config.records.toNat → rank (g.shadow id) ≤ rank (g'.shadow id)) :
    ReaderAt config g' pc := by
  cases pc with
  | loadPrimary => trivial
  | selectPrimary id before => exact ⟨h.1, h.2.trans (hgrows id h.1)⟩
  | checkPrimary id before observed => exact ⟨h.1, h.2.1, h.2.2.grows (hgrows id h.1)⟩
  | loadUnique id => exact h
  | selectUnique id before => exact ⟨h.1, h.2.trans (hgrows id h.1)⟩
  | checkUnique id before observed => exact ⟨h.1, h.2.1, h.2.2.grows (hgrows id h.1)⟩
  | loadStale id generation => exact ⟨h.1, h.2.1, h.2.2.trans (generation_mono (hgrows id h.1))⟩
  | selectStale id generation before => exact ⟨h.1, h.2.1, h.2.2.1, h.2.2.2.trans (hgrows id h.1)⟩
  | checkStale before id observed => exact ⟨h.1, h.2.grows (hgrows id h.1)⟩
  | selectBucket => trivial

theorem LocalOk.frame {t u : Worker config} {g g' : Shared} {l : Local} (hne : u ≠ t) (hguar : Guarantee t g g')
    (h : LocalOk u g l) : LocalOk u g' l := by
  cases l with
  | writer w =>
    obtain ⟨worker, rfl, hw⟩ := h
    exact ⟨worker, rfl, hw.self, hw.operations, hw.sequence, hw.pc.frame hne hguar⟩
  | reader r => exact ⟨h.1, h.2.grows hguar.grows⟩
  | panicked => exact h

/-! ## Rows and counters -/

section Rows

variable (hacc : config.Accepted)
include hacc

theorem Made.valid {row : Row} (h : Made config row) : validRow row config (config.records + 1) = some true := by
  obtain ⟨id, generation, hid, hgen, rfl⟩ := h
  exact validRow_rowOf hacc (hacc.inRange hid hgen)

theorem countTorn_made {c : Counters} {row : Row} (h : Made config row) :
    countTorn config (config.records + 1) c row = some c := by
  unfold countTorn
  rw [h.valid hacc]
  rfl

theorem countRead_made {c : Counters} {observed : Option Row} (h : ∀ row, observed = some row → Made config row) :
    countRead config (config.records + 1) c observed = some { c with onlineReads := c.onlineReads + 1 } := by
  cases observed with
  | none => rfl
  | some row => exact countTorn_made hacc (h row rfl)

/-- generations of an accepted configuration stay clear of the `WRITING` bit -/
theorem Config.Accepted.operations_lt : config.operations.toNat + 1 < 2 ^ 63 := by
  have hproduct := hacc.product
  have hrecords := hacc.records
  have hle : 2 * (config.operations.toNat + 1) ≤ (config.records.toNat + 1) * (config.operations.toNat + 1) :=
    Nat.mul_le_mul_right _ (by omega)
  omega

end Rows

theorem Counters.Clean.onlineReads {c : Counters} (h : c.Clean) (n : UInt64) :
    Counters.Clean { c with onlineReads := n } := h

theorem SharedOk.made {g : Shared} (h : SharedOk config g) {id : UInt64} {row : Row}
    (hrow : g.table.rows[id]? = some row) : Made config row := by
  obtain ⟨hid, generation, hgen, rfl⟩ := h.rows id row hrow
  exact ⟨id, generation, hid, hgen, rfl⟩

theorem SharedOk.made_select {g : Shared} (h : SharedOk config g) {key : UInt64} {row : Row}
    (hrow : g.table.selectByUnique key = some row) : Made config row := by
  obtain ⟨id, hid, -⟩ := UniqueTable.selectByUnique_eq_some.1 hrow
  exact h.made hid

theorem load_some {g : Shared} {id : UInt64} (hid : id.toNat < config.records.toNat) :
    load config g id = some (g.shadow id) := if_pos (UInt64.lt_iff_toNat_lt.2 hid)

theorem store_some {g : Shared} {id : UInt64} (hid : id.toNat < config.records.toNat) (marker : UInt64) :
    store config g id marker = some { g with shadow := Function.update g.shadow id marker } :=
  if_pos (UInt64.lt_iff_toNat_lt.2 hid)

/-! ## Shares of the work -/

theorem turns_eq_share (operations threads : ℕ) : turns operations threads = share operations threads := rfl

theorem turns_le {operations threads worker : ℕ} (h : worker < threads) :
    turns operations threads worker ≤ operations := share_le h

theorem owned_eq_stride (config : Config) (worker : ℕ) :
    owned config worker = (stride config.records.toNat config.writerThreads worker).map UInt64.ofNat := rfl

theorem mem_owned {worker : ℕ} (hworker : worker < config.writerThreads) {id : UInt64} (h : id ∈ owned config worker) :
    id.toNat < config.records.toNat ∧ id.toNat % config.writerThreads = worker := by
  rw [owned_eq_stride] at h
  obtain ⟨i, hi, rfl⟩ := List.mem_map.1 h
  have hi := (mem_stride hworker).1 hi
  rwa [ofNat_toNat_of_lt (hi.1.trans config.records.toNat_lt)]

theorem owned_pos {worker : ℕ} (hworker : worker < config.writerThreads) :
    0 < (owned config worker).length ↔ worker < config.records.toNat := by
  rw [owned_eq_stride, List.length_map, stride_length hworker, share_pos hworker]

/-! ## Writer steps -/

/-- a step of a writer, with the invariant after it -/
def WriterSteps (worker : Fin config.writerThreads) (g : Shared) (w : Writer) : Prop :=
  ∃ g' w', writerStep config (config.records + 1) g w = some (g', w') ∧ SharedOk config g' ∧ WriterOk worker g' w' ∧
    Guarantee (.inl worker) g g'

theorem Guarantee.refl (t : Worker config) (g : Shared) : Guarantee t g g :=
  ⟨fun _ _ _ => ⟨rfl, rfl⟩, fun _ _ => le_rfl⟩

/-- a step that leaves the table and the shadow alone -/
theorem Guarantee.of_eq (t : Worker config) {g g' : Shared} (htable : g'.table = g.table)
    (hshadow : g'.shadow = g.shadow) : Guarantee t g g' := by
  refine ⟨fun id _ _ => ?_, fun id _ => ?_⟩
  · rw [htable, hshadow]
    exact ⟨rfl, rfl⟩
  · rw [hshadow]

/-- counters apart, the shared state is unchanged -/
theorem SharedOk.counters {g : Shared} (h : SharedOk config g) {c : Counters} (hc : c.Clean) :
    SharedOk config { g with counters := c } := ⟨h.bound, h.stable, h.rows, hc⟩

section Writer

variable (hacc : config.Accepted) {worker : Fin config.writerThreads} {g : Shared} {w : Writer}

/-- a store to the marker of an owned id that makes it grow -/
theorem Guarantee.store {id marker : UInt64} (howned : Owns (.inl worker) id)
    (hgrows : rank (g.shadow id) ≤ rank marker) :
    Guarantee (.inl worker) g { g with shadow := Function.update g.shadow id marker } := by
  refine ⟨fun id' _ hnot => ⟨?_, rfl⟩, fun id' _ => ?_⟩
  · have hne : id' ≠ id := fun heq => hnot (heq ▸ howned)
    exact Function.update_of_ne hne _ _
  · change rank (g.shadow id') ≤ rank (Function.update g.shadow id marker id')
    by_cases heq : id' = id
    · subst heq
      rw [Function.update_self]
      exact hgrows
    · rw [Function.update_of_ne heq]

/-- an update of the row of an owned id -/
theorem Guarantee.table {id : UInt64} (howned : Owns (.inl worker) id) {table : Table}
    (hsame : ∀ id', id' ≠ id → table.rows[id']? = g.table.rows[id']?) :
    Guarantee (.inl worker) g { g with table := table } := by
  refine ⟨fun id' _ hnot => ⟨rfl, hsame id' fun heq => hnot (heq ▸ howned)⟩, fun _ _ => le_rfl⟩

include hacc

theorem Working.previous_lt {id previous generation : UInt64} (h : Working worker w id previous generation g)
    (hops : w.operations ≤ config.operations.toNat) :
    previous.toNat < 2 ^ 63 ∧ generation.toNat < 2 ^ 63 ∧ generation.toNat ≤ config.operations.toNat := by
  have hturn := h.turn
  have hreached := h.reached
  have hnext := h.next
  have hlt := hacc.operations_lt
  omega

theorem load_steps (hg : SharedOk config g) (hw : WriterOk worker g w) (hturn : w.sequence < w.operations)
    (hpc : w.pc = .load) : WriterSteps worker g w := by
  have hat := hw.pc
  rw [hpc] at hat
  have hindex : w.sequence % (owned config w.worker).length < (owned config w.worker).length := by
    rw [hw.self]
    exact Nat.mod_lt _ ((owned_pos worker.isLt).2 (worker.isLt.trans_le hacc.owners))
  obtain ⟨id, hget⟩ : ∃ id, (owned config w.worker)[w.sequence % (owned config w.worker).length]? = some id :=
    ⟨_, List.getElem?_eq_getElem hindex⟩
  have hmem := List.mem_of_getElem? hget
  rw [hw.self] at hmem
  obtain ⟨hid, howned⟩ := mem_owned worker.isLt hmem
  refine ⟨g, { w with pc := .mark id (generationOf (g.shadow id)) }, ?_, hg,
    ⟨hw.self, hw.operations, hw.sequence, hturn, hid, howned, hat, rfl⟩, Guarantee.refl _ _⟩
  unfold writerStep
  simp only [hpc, Option.bind_eq_bind]
  rw [hget, Option.bind_some, load_some hid, Option.bind_some]

theorem mark_steps (hg : SharedOk config g) (hw : WriterOk worker g w) {id previous : UInt64}
    (hpc : w.pc = .mark id previous) : WriterSteps worker g w := by
  have hat := hw.pc
  rw [hpc] at hat
  obtain ⟨hturn, hid, howned, hidle, hprevious⟩ := hat
  obtain ⟨hstable, hreached⟩ := hidle id hid howned nofun
  rw [← hprevious] at hreached
  have hops := hw.operations
  have hbound := hacc.operations_lt
  have hone : (1 : UInt64).toNat = 1 := rfl
  have hsmall : previous.toNat < 2 ^ 63 := by omega
  have hcurrent : g.shadow id = previous := by
    rw [isWriting_eq_false] at hstable
    rw [hprevious, generationOf_self hstable]
  have hrow := hg.stable id hid hstable
  rw [← hprevious] at hrow
  obtain ⟨generation, hadd, hnext⟩ := checkedAdd_some (a := previous) (b := 1) (by omega)
  rw [hone] at hnext
  refine ⟨{ g with shadow := Function.update g.shadow id (mark previous) },
    { w with pc := .write id previous generation (rowOf config id generation) }, ?_, ?_,
    ⟨hw.self, hw.operations, hw.sequence, ⟨hturn, hid, howned, ?_, ?_, hnext, hreached⟩, hrow, rfl⟩, ?_⟩
  · unfold writerStep
    simp only [hpc, Option.bind_eq_bind]
    rw [store_some hid, Option.bind_some, hadd, Option.bind_some,
      makeRow_some hacc (hacc.inRange hid (by omega)), Option.bind_some]
  · refine ⟨fun id' hid' => ?_, fun id' hid' hstable' => ?_, hg.rows, hg.clean⟩
    · change (generationOf (Function.update g.shadow id (mark previous) id')).toNat ≤ _
      by_cases heq : id' = id
      · subst heq
        rw [Function.update_self, generationOf_mark hsmall]
        omega
      · rw [Function.update_of_ne heq]
        exact hg.bound id' hid'
    · change isWriting (Function.update g.shadow id (mark previous) id') = false at hstable'
      change g.table.rows[id']? =
        some (rowOf config id' (generationOf (Function.update g.shadow id (mark previous) id')))
      by_cases heq : id' = id
      · subst heq
        rw [Function.update_self, isWriting_mark hsmall] at hstable'
        cases hstable'
      · rw [Function.update_of_ne heq] at hstable' ⊢
        exact hg.stable id' hid' hstable'
  · intro id' hid' howned' hne
    have heq : id' ≠ id := fun heq => hne (congrArg some heq)
    change isWriting (Function.update g.shadow id (mark previous) id') = false ∧
      (generationOf (Function.update g.shadow id (mark previous) id')).toNat ≤ w.sequence
    rw [Function.update_of_ne heq]
    exact hidle id' hid' howned' nofun
  · exact Function.update_self _ _ _
  · apply Guarantee.store howned
    rw [hcurrent, rank_self hsmall, rank_mark hsmall]
    exact Nat.le_succ _

/-- the new row of an id has a unique key of its own -/
theorem uniqueKey_ne (hg : SharedOk config g) {id generation : UInt64} (hid : id.toNat < config.records.toNat)
    (hgen : generation.toNat ≤ config.operations.toNat) :
    ∀ (id' : UInt64) row, id' ≠ id → g.table.rows[id']? = some row →
      row.uniqueKey ≠ (rowOf config id generation).uniqueKey := by
  intro id' row hne hrow heq
  obtain ⟨hid', generation', hgen', rfl⟩ := hg.rows id' row hrow
  have hid'' : (rowOf config id' generation').id = id' := rfl
  exact hne (rowKey_inj hacc hid' hid hgen' hgen heq).1

omit hacc in
/-- the invariant after a call that changed the row of an id at work -/
theorem SharedOk.setRow (hg : SharedOk config g) {id previous : UInt64} (hmarked : g.shadow id = mark previous)
    (hprevious : previous.toNat < 2 ^ 63) {table : Table}
    (hsame : ∀ id', id' ≠ id → table.rows[id']? = g.table.rows[id']?)
    (hrow : ∀ row, table.rows[id]? = some row → id.toNat < config.records.toNat ∧
      ∃ generation : UInt64, generation.toNat ≤ config.operations.toNat ∧ row = rowOf config id generation) :
    SharedOk config { g with table := table } := by
  refine ⟨hg.bound, fun id' hid' hstable => ?_, fun id' row hrow' => ?_, hg.clean⟩
  · have hne : id' ≠ id := by
      rintro rfl
      change isWriting (g.shadow id') = false at hstable
      rw [hmarked, isWriting_mark hprevious] at hstable
      cases hstable
    exact (hsame id' hne).trans (hg.stable id' hid' hstable)
  · change table.rows[id']? = some row at hrow'
    by_cases heq : id' = id
    · subst heq
      exact hrow row hrow'
    · rw [hsame id' heq] at hrow'
      exact hg.rows id' row hrow'

omit hacc in
theorem Working.setTable {id previous generation : UInt64} (h : Working worker w id previous generation g)
    (table : Table) (pc : WriterPc) :
    Working worker { w with pc := pc } id previous generation { g with table := table } :=
  ⟨h.turn, h.loaded, h.owned, h.idle, h.marked, h.next, h.reached⟩

theorem write_steps (hg : SharedOk config g) (hw : WriterOk worker g w) {id previous generation : UInt64}
    {nextRow : Row} (hpc : w.pc = .write id previous generation nextRow) : WriterSteps worker g w := by
  have hat := hw.pc
  rw [hpc] at hat
  obtain ⟨hworking, hrow, rfl⟩ := hat
  obtain ⟨hprevious, -, hgen⟩ := hworking.previous_lt hacc hw.operations
  have hmem := (TreeMap.mem_iff_get g.table.rows id).2 ⟨_, hrow⟩
  have hid := hworking.loaded
  unfold WriterSteps writerStep
  simp only [hpc]
  split_ifs
  · obtain ⟨table, hdelete, hrows⟩ := UniqueTable.delete_some hmem
    have hsame : ∀ id', id' ≠ id → table.rows[id']? = g.table.rows[id']? := fun id' hne => by
      rw [hrows, TreeMap.get_erase, if_neg (Ne.symm hne)]
    have hgone : table.rows[id]? = none := by rw [hrows, TreeMap.get_erase, if_pos rfl]
    refine ⟨{ g with table }, { w with pc := .reinsert id previous generation (rowOf config id generation) },
      by rw [hdelete], hg.setRow hworking.marked hprevious hsame fun row hrow' => ?_,
      ⟨hw.self, hw.operations, hw.sequence, hworking.setTable table _, hgone, rfl⟩,
      Guarantee.table hworking.owned hsame⟩
    rw [hgone] at hrow'
    cases hrow'
  · obtain ⟨table, hupdate, hrows⟩ := UniqueTable.update_some (r := rowOf config id generation) hmem
      (uniqueKey_ne hacc hg hid hgen)
    have hsame : ∀ id', id' ≠ id → table.rows[id']? = g.table.rows[id']? := fun id' hne => by
      rw [hrows, TreeMap.get_insert, if_neg (Ne.symm hne)]
    have hnew : table.rows[id]? = some (rowOf config id generation) := by rw [hrows, TreeMap.get_insert, if_pos rfl]
    have hself : g.table.update (rowOf config id generation).id (rowOf config id generation) = some table := hupdate
    refine ⟨{ g with table }, { w with pc := .publish id previous generation true }, by rw [hself],
      hg.setRow hworking.marked hprevious hsame fun row hrow' => ?_,
      ⟨hw.self, hw.operations, hw.sequence, hworking.setTable table _, hnew, rfl⟩, Guarantee.table hworking.owned hsame⟩
    rw [hnew] at hrow'
    cases hrow'
    exact ⟨hid, generation, hgen, rfl⟩

theorem reinsert_steps (hg : SharedOk config g) (hw : WriterOk worker g w) {id previous generation : UInt64}
    {nextRow : Row} (hpc : w.pc = .reinsert id previous generation nextRow) : WriterSteps worker g w := by
  have hat := hw.pc
  rw [hpc] at hat
  obtain ⟨hworking, hrow, rfl⟩ := hat
  obtain ⟨hprevious, -, hgen⟩ := hworking.previous_lt hacc hw.operations
  have hfree := (TreeMap.get_none g.table.rows id).1 hrow
  have hid := hworking.loaded
  have hunique : ∀ (id' : UInt64) row, g.table.rows[id']? = some row →
      row.uniqueKey ≠ (rowOf config id generation).uniqueKey := by
    intro id' row hrow'
    refine uniqueKey_ne hacc hg hid hgen id' row ?_ hrow'
    rintro rfl
    rw [hrow] at hrow'
    cases hrow'
  obtain ⟨table, hinsert, hrows⟩ := UniqueTable.insert_some hfree hunique
  have hself : g.table.insert (rowOf config id generation).id (rowOf config id generation) = some table := hinsert
  have hsame : ∀ id', id' ≠ id → table.rows[id']? = g.table.rows[id']? := fun id' hne => by
    rw [hrows, TreeMap.get_insert, if_neg (Ne.symm hne)]
  have hnew : table.rows[id]? = some (rowOf config id generation) := by rw [hrows, TreeMap.get_insert, if_pos rfl]
  unfold WriterSteps writerStep
  simp only [hpc]
  refine ⟨{ g with table }, { w with pc := .publish id previous generation true }, by rw [hself],
    hg.setRow hworking.marked hprevious hsame fun row hrow' => ?_,
    ⟨hw.self, hw.operations, hw.sequence, hworking.setTable table _, hnew, rfl⟩, Guarantee.table hworking.owned hsame⟩
  rw [hnew] at hrow'
  cases hrow'
  exact ⟨hid, generation, hgen, rfl⟩

theorem publish_steps (hg : SharedOk config g) (hw : WriterOk worker g w) {id previous generation : UInt64}
    {success : Bool} (hpc : w.pc = .publish id previous generation success) : WriterSteps worker g w := by
  have hat := hw.pc
  rw [hpc] at hat
  obtain ⟨hworking, hrow, rfl⟩ := hat
  obtain ⟨hprevious, hsmall, hgen⟩ := hworking.previous_lt hacc hw.operations
  have hnext := hworking.next
  have hreached := hworking.reached
  refine ⟨{ g with shadow := Function.update g.shadow id generation }, { w with pc := .verify id }, ?_, ?_,
    ⟨hw.self, hw.operations, hw.sequence, hworking.turn, hworking.loaded, hworking.owned, ?_⟩, ?_⟩
  · unfold writerStep
    simp only [hpc, Option.bind_eq_bind]
    rw [if_pos trivial, store_some hworking.loaded, Option.bind_some]
  · refine ⟨fun id' hid' => ?_, fun id' hid' hstable' => ?_, hg.rows, hg.clean⟩
    · change (generationOf (Function.update g.shadow id generation id')).toNat ≤ _
      by_cases heq : id' = id
      · subst heq
        rw [Function.update_self, generationOf_self hsmall]
        exact hgen
      · rw [Function.update_of_ne heq]
        exact hg.bound id' hid'
    · change isWriting (Function.update g.shadow id generation id') = false at hstable'
      change g.table.rows[id']? = some (rowOf config id' (generationOf (Function.update g.shadow id generation id')))
      by_cases heq : id' = id
      · subst heq
        rw [Function.update_self, generationOf_self hsmall]
        exact hrow
      · rw [Function.update_of_ne heq] at hstable' ⊢
        exact hg.stable id' hid' hstable'
  · intro id' hid' howned' _
    change isWriting (Function.update g.shadow id generation id') = false ∧
      (generationOf (Function.update g.shadow id generation id')).toNat ≤ w.sequence + 1
    by_cases heq : id' = id
    · subst heq
      rw [Function.update_self, isWriting_self hsmall, generationOf_self hsmall]
      exact ⟨rfl, by omega⟩
    · rw [Function.update_of_ne heq]
      obtain ⟨hstable, hle⟩ := hworking.idle id' hid' howned' fun h => heq (Option.some_inj.1 h)
      exact ⟨hstable, by omega⟩
  · apply Guarantee.store hworking.owned
    rw [hworking.marked, rank_mark hprevious, rank_self hsmall]
    omega

theorem verify_steps (hg : SharedOk config g) (hw : WriterOk worker g w) {id : UInt64} (hpc : w.pc = .verify id) :
    WriterSteps worker g w := by
  have hat := hw.pc
  rw [hpc] at hat
  obtain ⟨hturn, hid, howned, hidle⟩ := hat
  have hrow := hg.stable id hid (hidle id hid howned nofun).1
  refine ⟨g, { w with sequence := w.sequence + 1, pc := .load }, ?_, hg, ⟨hw.self, hw.operations, hturn, hidle⟩,
    Guarantee.refl _ _⟩
  unfold writerStep
  simp only [hpc, Option.bind_eq_bind]
  rw [hrow]
  dsimp only
  rw [countTorn_made hacc (hg.made hrow), Option.bind_some]

/-- **A writer's step** never panics and keeps the invariant. -/
theorem writerStep_ok (hg : SharedOk config g) (hw : WriterOk worker g w) (hturn : w.sequence < w.operations) :
    WriterSteps worker g w := by
  cases hpc : w.pc with
  | load => exact load_steps hacc hg hw hturn hpc
  | mark id previous => exact mark_steps hacc hg hw hpc
  | write id previous generation nextRow => exact write_steps hacc hg hw hpc
  | reinsert id previous generation nextRow => exact reinsert_steps hacc hg hw hpc
  | publish id previous generation success => exact publish_steps hacc hg hw hpc
  | verify id => exact verify_steps hacc hg hw hpc

end Writer

/-! ## Reader steps -/

/-- a step of a reader, with the invariant after it -/
def ReaderSteps (config : Config) (g : Shared) (r : Reader) : Prop :=
  ∃ c r', readerStep config (config.records + 1) g r = some ({ g with counters := c }, r') ∧ c.Clean ∧
    ReaderAt config g r'.pc

theorem mismatch_rowOf (id generation : UInt64) :
    mismatch (some (rowOf config id generation)) id generation = false := by
  simp [mismatch, rowOf]

theorem endChecks_at (config : Config) (g : Shared) (r : Reader) : ReaderAt config g (endChecks r).pc := by
  unfold endChecks
  split_ifs <;> trivial

theorem selectByBucket_mem {g : Shared} {b : UInt64} {row : Row} (h : row ∈ selectByBucket g.table b) :
    row.bucket = b ∧ ∃ id : UInt64, g.table.rows[id]? = some row := by
  unfold selectByBucket at h
  rcases List.mem_map.1 h with ⟨⟨id, row'⟩, hentry, rfl⟩
  rcases List.mem_filter.1 hentry with ⟨hmem, hbucket⟩
  exact ⟨of_decide_eq_true hbucket, id, Std.ExtTreeMap.mem_toList_iff_getElem?_eq_some.1 hmem⟩

section Reader

variable (hacc : config.Accepted) {g : Shared} {r : Reader}

/-- a primary or unique lookup that a stable marker brackets is not counted as a mismatch -/
theorem stable_observed {id before : UInt64} {observed : Option Row}
    (h : Bracket before (g.shadow id)
      (isWriting before = false → observed = some (rowOf config id (generationOf before)))) :
    ¬ (before = g.shadow id ∧ !isWriting before ∧ mismatch observed id (generationOf before)) := by
  rintro ⟨heq, hstable, hmismatch⟩
  rw [← heq] at h
  rw [h.same (by simpa using hstable), mismatch_rowOf] at hmismatch
  cases hmismatch

/-- a unique lookup under the key of the marked generation -/
theorem select_current (hg : SharedOk config g) {id : UInt64} (hid : id.toNat < config.records.toNat)
    (hstable : isWriting (g.shadow id) = false) :
    g.table.selectByUnique (rowOf config id (generationOf (g.shadow id))).uniqueKey =
      some (rowOf config id (generationOf (g.shadow id))) :=
  UniqueTable.selectByUnique_eq_some.2 ⟨id, hg.stable id hid hstable, rfl⟩

include hacc

/-- no row is under the key of an older generation -/
theorem select_older (hg : SharedOk config g) {id older : UInt64} (hid : id.toNat < config.records.toNat)
    (hstable : isWriting (g.shadow id) = false) (holder : older.toNat < (generationOf (g.shadow id)).toNat) :
    g.table.selectByUnique (rowOf config id older).uniqueKey = none := by
  have hbound := hg.bound id hid
  rw [UniqueTable.selectByUnique_eq_none]
  intro id' row hrow heq
  obtain ⟨hid', generation, hgen, rfl⟩ := hg.rows id' row hrow
  obtain ⟨rfl, rfl⟩ := rowKey_inj hacc hid' hid hgen (by omega) heq
  rw [hg.stable _ hid hstable] at hrow
  have hsame := congrArg Row.generation (Option.some_inj.1 hrow)
  change generationOf (g.shadow id') = generation at hsame
  rw [hsame] at holder
  exact lt_irrefl _ holder

theorem primary_steps (hg : SharedOk config g) (hr : ReaderAt config g r.pc) {id before : UInt64}
    {observed : Option Row} (hpc : r.pc = .checkPrimary id before observed) : ReaderSteps config g r := by
  rw [hpc] at hr
  obtain ⟨hid, hmade, hbracket⟩ := hr
  refine ⟨{ g.counters with onlineReads := g.counters.onlineReads + 1 }, { r with pc := .loadUnique id }, ?_,
    hg.clean.onlineReads _, hid⟩
  unfold readerStep
  simp only [hpc, Option.bind_eq_bind]
  rw [load_some hid, Option.bind_some, countRead_made hacc hmade, Option.bind_some, if_neg (stable_observed hbracket)]

theorem unique_steps (hg : SharedOk config g) (hr : ReaderAt config g r.pc) {id before : UInt64}
    {observed : Option Row} (hpc : r.pc = .checkUnique id before observed) : ReaderSteps config g r := by
  rw [hpc] at hr
  obtain ⟨hid, hmade, hbracket⟩ := hr
  refine ⟨{ g.counters with onlineReads := g.counters.onlineReads + 1 },
    if generationOf before > 0 then { r with pc := .loadStale id (generationOf before) } else endChecks r, ?_,
    hg.clean.onlineReads _, ?_⟩
  · unfold readerStep
    simp only [hpc, Option.bind_eq_bind]
    rw [load_some hid, Option.bind_some, countRead_made hacc hmade, Option.bind_some, if_neg (stable_observed hbracket)]
  · split_ifs with hpos
    · exact ⟨hid, UInt64.lt_iff_toNat_lt.1 hpos, generation_mono hbracket.le⟩
    · exact endChecks_at config g r

omit hacc in
theorem stale_steps (hg : SharedOk config g) (hr : ReaderAt config g r.pc) {id before : UInt64}
    {observed : Option Row} (hpc : r.pc = .checkStale before id observed) : ReaderSteps config g r := by
  rw [hpc] at hr
  obtain ⟨hid, hbracket⟩ := hr
  refine ⟨{ g.counters with onlineReads := g.counters.onlineReads + 1 }, endChecks r, ?_, hg.clean.onlineReads _,
    endChecks_at config g r⟩
  have hno : ¬ (before = g.shadow id ∧ !isWriting before ∧ observed.isSome) := by
    rintro ⟨heq, hstable, hsome⟩
    rw [← heq] at hbracket
    rw [hbracket.same (by simpa using hstable)] at hsome
    cases hsome
  unfold readerStep
  simp only [hpc, Option.bind_eq_bind]
  rw [load_some hid, Option.bind_some, if_neg hno]

theorem bucket_steps (hg : SharedOk config g) (hpc : r.pc = .selectBucket) : ReaderSteps config g r := by
  obtain ⟨selected, hselected, -⟩ := checkedMod_some (a := nextRandom r.random) hacc.buckets
  have hcount : ∀ c : Counters, (selectByBucket g.table selected).foldlM
      (countBucketRow config (config.records + 1) selected) c = some c := by
    intro c
    refine foldlM_fixed _ fun row hrow => ?_
    obtain ⟨hbucket, id, hget⟩ := selectByBucket_mem hrow
    unfold countBucketRow
    rw [if_pos hbucket]
    exact countTorn_made hacc (hg.made hget)
  let reads := g.counters.onlineReads + UInt64.ofNat (selectByBucket g.table selected).length
  refine ⟨{ g.counters with onlineReads := reads }, nextSequence { r with random := nextRandom r.random }, ?_,
    hg.clean.onlineReads _, trivial⟩
  unfold readerStep
  simp only [hpc, Option.bind_eq_bind]
  rw [hselected, Option.bind_some, hcount, Option.bind_some]

/-- **A reader's step** never panics, counts no failure and keeps the invariant. -/
theorem readerStep_ok (hg : SharedOk config g) (hr : ReaderAt config g r.pc) : ReaderSteps config g r := by
  have hat := hr
  cases hpc : r.pc with
  | loadPrimary =>
    obtain ⟨id, hmod, hvalue⟩ := checkedMod_some (a := nextRandom r.random) hacc.records
    have hid : id.toNat < config.records.toNat := by
      rw [hvalue]
      exact Nat.mod_lt _ hacc.records
    refine ⟨g.counters, { r with random := nextRandom r.random, pc := .selectPrimary id (g.shadow id) }, ?_,
      hg.clean, hid, le_rfl⟩
    unfold readerStep
    simp only [hpc, Option.bind_eq_bind]
    rw [hmod, Option.bind_some, load_some hid, Option.bind_some]
  | selectPrimary id before =>
    rw [hpc] at hat
    obtain ⟨hid, hle⟩ := hat
    refine ⟨g.counters, { r with pc := .checkPrimary id before (g.table.rows[id]?) }, ?_, hg.clean, hid,
      fun row hrow => hg.made hrow, Bracket.of_le hle ?_⟩
    · unfold readerStep
      simp only [hpc]
    · rintro rfl hstable
      exact hg.stable id hid hstable
  | checkPrimary id before observed => exact primary_steps hacc hg hr hpc
  | loadUnique id =>
    rw [hpc] at hat
    refine ⟨g.counters, { r with pc := .selectUnique id (g.shadow id) }, ?_, hg.clean, hat, le_rfl⟩
    unfold readerStep
    simp only [hpc, Option.bind_eq_bind]
    rw [load_some hat, Option.bind_some]
  | selectUnique id before =>
    rw [hpc] at hat
    obtain ⟨hid, hle⟩ := hat
    have hgen := (generation_mono hle).trans (hg.bound id hid)
    let observed := g.table.selectByUnique (rowOf config id (generationOf before)).uniqueKey
    refine ⟨g.counters, { r with pc := .checkUnique id before observed }, ?_, hg.clean, hid,
      fun row hrow => hg.made_select hrow, Bracket.of_le hle ?_⟩
    · unfold readerStep
      simp only [hpc, Option.bind_eq_bind]
      rw [uniqueKey_some hacc (hacc.inRange hid hgen), Option.bind_some]
    · rintro rfl hstable
      exact select_current hg hid hstable
  | checkUnique id before observed => exact unique_steps hacc hg hr hpc
  | loadStale id generation =>
    rw [hpc] at hat
    obtain ⟨hid, hpos, hle⟩ := hat
    refine ⟨g.counters, { r with pc := .selectStale id generation (g.shadow id) }, ?_, hg.clean, hid, hpos, hle, le_rfl⟩
    unfold readerStep
    simp only [hpc, Option.bind_eq_bind]
    rw [load_some hid, Option.bind_some]
  | selectStale id generation before =>
    rw [hpc] at hat
    obtain ⟨hid, hpos, hgen, hle⟩ := hat
    have hbound := (generation_mono hle).trans (hg.bound id hid)
    have hone : (1 : UInt64).toNat = 1 := rfl
    obtain ⟨older, hsub, holder⟩ := checkedSub_some (a := generation) (b := 1) (by omega)
    let observed := g.table.selectByUnique (rowOf config id older).uniqueKey
    refine ⟨g.counters, { r with pc := .checkStale before id observed }, ?_, hg.clean, hid, Bracket.of_le hle ?_⟩
    · unfold readerStep
      simp only [hpc, Option.bind_eq_bind]
      rw [hsub, Option.bind_some, uniqueKey_some hacc (hacc.inRange hid (by omega)), Option.bind_some]
    · rintro rfl hstable
      exact select_older hacc hg hid hstable (by omega)
  | checkStale before id observed => exact stale_steps hg hr hpc
  | selectBucket => exact bucket_steps hacc hg hpc

end Reader

/-! ## The outline -/

/-- the thread-modular proof of the repetition -/
def outline (hacc : config.Accepted) : Threads.Outline (step config (config.records + 1)) where
  Glob := SharedOk config
  Loc := LocalOk
  Guar := Guarantee
  step_ok t g l g' l' hg hl hstep := by
    cases l with
    | writer w =>
      obtain ⟨worker, rfl, hw⟩ := hl
      simp only [step] at hstep
      split_ifs at hstep with hdone
      obtain ⟨g₁, w₁, hw₁, hg₁, hok, hguar⟩ := writerStep_ok hacc hg hw (Nat.not_le.1 hdone)
      rw [hw₁] at hstep
      cases hstep
      exact ⟨hg₁, ⟨worker, rfl, hok⟩, hguar⟩
    | reader r =>
      obtain ⟨hreader, hr⟩ := hl
      simp only [step] at hstep
      split_ifs at hstep with hdone
      obtain ⟨c, r₁, hr₁, hc, hat⟩ := readerStep_ok hacc hg hr
      rw [hr₁] at hstep
      cases hstep
      have hguar : Guarantee t g { g with counters := c } := Guarantee.of_eq t rfl rfl
      exact ⟨hg.counters hc, ⟨hreader, hat.grows hguar.grows⟩, hguar⟩
    | panicked => exact hl.elim
  stable _ _ _ _ _ hne _ hguar hl := hl.frame hne hguar

end WtBenchmarks.IndexBackends.Shadow
