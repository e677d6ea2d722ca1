/-
The hot page probe (`sample`, `src/bin/moe-resident-hot-page-ab.rs`).

Readers go round rows that the writer never changes, while the writer overwrites the first row. They meet at a barrier;
the readers then announce themselves and wait for the writer, the writer waits until all have announced themselves, and
its last store tells the readers to stop. A row is selected or written in one step. The check that the fixture lies on
one page is left out.

- `position_eq`, `position_inj`: the rows other than the first are dealt to the readers, who go round them;
- `sampleOutline`, `start_holds`: what the barrier and the flags establish, in every interleaving;
- `stuck_over`: no interleaving is stuck;
- `hot_page_sample`: no row is missed, and only the numbers of operations depend on the interleaving;
- `hot_page_stops`: a reader makes at most one operation after the writer is done, and every run can be finished.
-/
import WtBenchmarks.Core.Threads
import WtBenchmarks.Core.TreeMap
import WtBenchmarks.MoeResident.Lookup
import Mathlib.Data.UInt
import Mathlib.Tactic.DeriveFintype

namespace WtBenchmarks.MoeResident.HotPage

open Threads

/-! ## Model -/

abbrev Table := Std.ExtTreeMap UInt64 OriginValue

/-- an in-memory WorkTable -/
def worktable : Engine Table where
  withCapacity := ∅
  insert table k v := if k ∈ table then none else some (table.insert k v)
  select table k := table[k]?

def populated (rows : ℕ) : Option Table := buildTable worktable (logicalRows rows)

/-- how a reader's thread ended -/
inductive Exit where
  | returned (operations : ℕ) (checksum : UInt64)
  | panicked
deriving DecidableEq, Repr

structure Shared (n : ℕ) where
  table : Table
  /-- threads that have reached the barrier -/
  arrived : ℕ
  readerReady : ℕ
  start : Bool
  done : Bool
  writerReturned : Bool
  exits : Fin n → Option Exit

inductive MainPc where
  | joiningWriter
  | joining (reader readerOps : ℕ) (checksum : UInt64)
  | sampled (readerOps : ℕ) (checksum : UInt64)
  | panicked
deriving DecidableEq, Repr

inductive WriterPc where
  | arriving
  | waiting
  | spinning
  | starting
  | upserting (revision : ℕ)
  | finishing
  | exiting
  | returned
deriving DecidableEq, Repr

inductive ReaderPc where
  | arriving
  | waiting
  | announcing
  | spinning
  | polling (operations : ℕ) (checksum : UInt64) (index : ℕ)
  | selecting (operations : ℕ) (checksum : UInt64) (index : ℕ)
  | exiting (operations : ℕ) (checksum : UInt64)
  | returned (operations : ℕ) (checksum : UInt64)
  | panicked
deriving DecidableEq, Repr

inductive Agent where
  | main (pc : MainPc)
  | writer (pc : WriterPc)
  | reader (pc : ReaderPc)
deriving DecidableEq, Repr

inductive Party (n : ℕ) where
  | main
  | writer
  | reader (r : Fin n)
deriving DecidableEq, Repr, Fintype

variable {n : ℕ}

/-- what a reader adds for a row -/
def readDigest (row : OriginValue) : UInt64 :=
  row.source.toUInt64 ^^^ rotateLeft row.ordinal.toUInt64 17 ^^^ rotateLeft row.exampleIndex.toUInt64 31

/-- the row a reader selects after the one at `index` -/
def next (n rows reader index : ℕ) : ℕ := if rows ≤ index + n then reader + 1 else index + n

def mainStep (g : Shared n) : MainPc → Option (Shared n × MainPc)
  | .joiningWriter => if g.writerReturned then some (g, .joining 0 0 0) else none
  | .joining reader readerOps checksum =>
    if h : reader < n then
      match g.exits ⟨reader, h⟩ with
      | none => none
      | some (.returned operations sum) => some (g, .joining (reader + 1) (readerOps + operations) (checksum + sum))
      | some .panicked => some (g, .panicked)
    else some (g, .sampled readerOps checksum)
  | .sampled _ _ => none
  | .panicked => none

/-- the first row, as the writer leaves it at a revision -/
def revised (rows revision : ℕ) : OriginValue := { valueAt rows 0 with exampleIndex := UInt32.ofNat revision }

def writerStep (rows writes : ℕ) (g : Shared n) : WriterPc → Option (Shared n × WriterPc)
  | .arriving => some ({ g with arrived := g.arrived + 1 }, .waiting)
  | .waiting => if g.arrived = n + 1 then some (g, .spinning) else none
  | .spinning => if g.readerReady = n then some (g, .starting) else none
  | .starting => some ({ g with start := true }, .upserting 0)
  | .upserting revision =>
    if revision < writes then
      some ({ g with table := g.table.insert (keyAt rows 0) (revised rows revision) }, .upserting (revision + 1))
    else some (g, .finishing)
  | .finishing => some ({ g with done := true }, .exiting)
  | .exiting => some ({ g with writerReturned := true }, .returned)
  | .returned => none

def readerStep (rows : ℕ) (r : Fin n) (g : Shared n) : ReaderPc → Option (Shared n × ReaderPc)
  | .arriving => some ({ g with arrived := g.arrived + 1 }, .waiting)
  | .waiting => if g.arrived = n + 1 then some (g, .announcing) else none
  | .announcing => some ({ g with readerReady := g.readerReady + 1 }, .spinning)
  | .spinning => if g.start then some (g, .polling 0 0 (r + 1)) else none
  | .polling operations checksum index =>
    if g.done then some (g, .exiting operations checksum) else some (g, .selecting operations checksum index)
  | .selecting operations checksum index =>
    match g.table[keyAt rows index]? with
    | none => some ({ g with exits := Function.update g.exits r (some .panicked) }, .panicked)
    | some row => some (g, .polling (operations + 1) (checksum + readDigest row) (next n rows r index))
  | .exiting operations checksum =>
    some ({ g with exits := Function.update g.exits r (some (.returned operations checksum)) },
      .returned operations checksum)
  | .returned _ _ => none
  | .panicked => none

def step (rows writes : ℕ) : Party n → Shared n → Agent → Option (Shared n × Agent)
  | .main, g, .main pc => (mainStep g pc).map (Prod.map id .main)
  | .writer, g, .writer pc => (writerStep rows writes g pc).map (Prod.map id .writer)
  | .reader r, g, .reader pc => (readerStep rows r g pc).map (Prod.map id .reader)
  | .main, _, .writer _ => none
  | .main, _, .reader _ => none
  | .writer, _, .main _ => none
  | .writer, _, .reader _ => none
  | .reader _, _, .main _ => none
  | .reader _, _, .writer _ => none

def start (table : Table) : State (Party n) (Shared n) Agent :=
  ⟨⟨table, 0, 0, false, false, false, fun _ => none⟩, fun
    | .main => .main .joiningWriter
    | .writer => .writer .arriving
    | .reader _ => .reader .arriving⟩

/-! ## The rows of a reader -/

/-- the row a reader selects after `k` operations -/
def position (n rows reader : ℕ) : ℕ → ℕ
  | 0 => reader + 1
  | k + 1 => next n rows reader (position n rows reader k)

/-- what a reader has added up after `k` operations -/
def readSum (n rows reader : ℕ) : ℕ → UInt64
  | 0 => 0
  | k + 1 => readSum n rows reader k + readDigest (valueAt rows (position n rows reader k))

section Rows

variable {rows reader : ℕ} (hreader : reader < n) (hrows : n < rows)
include hreader hrows

/-- **Going round.** A reader goes round its share of the rows other than the first. -/
theorem position_eq (k : ℕ) :
    position n rows reader k = k % RoundRobin.share (rows - 1) n reader * n + reader + 1 := by
  have hpos : 0 < RoundRobin.share (rows - 1) n reader := (RoundRobin.share_pos hreader).2 (by omega)
  induction k with
  | zero => simp [position]
  | succ k ih =>
    have hk := Nat.mod_lt k hpos
    have hnext := RoundRobin.lt_share (n := rows - 1) hreader (k % RoundRobin.share (rows - 1) n reader + 1)
    rw [Nat.succ_mul] at hnext
    rw [position, next, ih]
    by_cases hlt : k % RoundRobin.share (rows - 1) n reader + 1 < RoundRobin.share (rows - 1) n reader
    · have hmod : (k + 1) % RoundRobin.share (rows - 1) n reader = k % RoundRobin.share (rows - 1) n reader + 1 := by
        rw [Nat.add_mod, Nat.mod_eq_of_lt (show 1 < RoundRobin.share (rows - 1) n reader by omega),
          Nat.mod_eq_of_lt hlt]
      have hfits := hnext.1 hlt
      rw [if_neg (by omega), hmod, Nat.succ_mul]
      omega
    · have hmod : (k + 1) % RoundRobin.share (rows - 1) n reader = 0 := by
        have hlast : k % RoundRobin.share (rows - 1) n reader + 1 = RoundRobin.share (rows - 1) n reader := by omega
        rw [← Nat.mod_add_mod, hlast, Nat.mod_self]
      have hpast := mt hnext.2 hlt
      rw [if_pos (by omega), hmod, Nat.zero_mul, Nat.zero_add]

theorem position_lt (k : ℕ) : position n rows reader k < rows := by
  have hpos : 0 < RoundRobin.share (rows - 1) n reader := (RoundRobin.share_pos hreader).2 (by omega)
  have hfits := (RoundRobin.lt_share (n := rows - 1) hreader _).1 (Nat.mod_lt k hpos)
  rw [position_eq hreader hrows]
  omega

theorem position_pos (k : ℕ) : 0 < position n rows reader k := by
  rw [position_eq hreader hrows]
  exact Nat.succ_pos _

/-- no two readers select the same row -/
theorem position_inj {reader' : ℕ} (hreader' : reader' < n) {k k' : ℕ}
    (h : position n rows reader k = position n rows reader' k') : reader = reader' := by
  rw [position_eq hreader hrows, position_eq hreader' hrows] at h
  have hmod := congrArg (fun x => x % n) (Nat.succ.inj h)
  simpa [Nat.mul_add_mod, Nat.mod_eq_of_lt, hreader, hreader'] using hmod

end Rows

/-! ## What every moment satisfies -/

def ReaderPc.pastBarrier : ReaderPc → Bool
  | .arriving => false
  | .waiting => false
  | .announcing => true
  | .spinning => true
  | .polling _ _ _ => true
  | .selecting _ _ _ => true
  | .exiting _ _ => true
  | .returned _ _ => true
  | .panicked => true

def ReaderPc.announced : ReaderPc → Bool
  | .arriving => false
  | .waiting => false
  | .announcing => false
  | .spinning => true
  | .polling _ _ _ => true
  | .selecting _ _ _ => true
  | .exiting _ _ => true
  | .returned _ _ => true
  | .panicked => true

/-- the operations made, and their sum -/
def ReaderPc.progress : ReaderPc → Option (ℕ × UInt64)
  | .arriving => none
  | .waiting => none
  | .announcing => none
  | .spinning => none
  | .polling operations checksum _ => some (operations, checksum)
  | .selecting operations checksum _ => some (operations, checksum)
  | .exiting operations checksum => some (operations, checksum)
  | .returned operations checksum => some (operations, checksum)
  | .panicked => none

/-- the operations made, and the row of the next one -/
def ReaderPc.cursor : ReaderPc → Option (ℕ × ℕ)
  | .arriving => none
  | .waiting => none
  | .announcing => none
  | .spinning => none
  | .polling operations _ index => some (operations, index)
  | .selecting operations _ index => some (operations, index)
  | .exiting _ _ => none
  | .returned _ _ => none
  | .panicked => none

def ReaderPc.exit : ReaderPc → Option Exit
  | .arriving => none
  | .waiting => none
  | .announcing => none
  | .spinning => none
  | .polling _ _ _ => none
  | .selecting _ _ _ => none
  | .exiting _ _ => none
  | .returned operations checksum => some (.returned operations checksum)
  | .panicked => some .panicked

def WriterPc.pastBarrier : WriterPc → Bool
  | .arriving => false
  | .waiting => false
  | _ => true

/-- it has seen that the readers have announced themselves -/
def WriterPc.ready : WriterPc → Bool
  | .arriving => false
  | .waiting => false
  | .spinning => false
  | _ => true

def WriterPc.started : WriterPc → Bool
  | .starting => false
  | pc => pc.ready

def WriterPc.stopped : WriterPc → Bool
  | .exiting => true
  | .returned => true
  | _ => false

def WriterPc.over : WriterPc → Bool
  | .returned => true
  | _ => false

/-- the first row after some writes -/
def written (rows : ℕ) : ℕ → OriginValue
  | 0 => valueAt rows 0
  | revision + 1 => revised rows revision

/-- how often the writer has written -/
def WriterPc.revision (writes : ℕ) : WriterPc → ℕ
  | .upserting revision => revision
  | .finishing => writes
  | .exiting => writes
  | .returned => writes
  | _ => 0

/-- what the main thread has got from the readers below `reader` -/
inductive Joined (g : Shared n) : ℕ → ℕ → UInt64 → Prop
  | none : Joined g 0 0 0
  | next {reader readerOps operations : ℕ} {checksum sum : UInt64} (h : reader < n)
      (before : Joined g reader readerOps checksum) (exit : g.exits ⟨reader, h⟩ = some (.returned operations sum)) :
      Joined g (reader + 1) (readerOps + operations) (checksum + sum)

def MainOk (g : Shared n) : MainPc → Prop
  | .joiningWriter => True
  | .joining reader readerOps checksum => g.writerReturned = true ∧ Joined g reader readerOps checksum
  | .sampled readerOps checksum => g.writerReturned = true ∧ Joined g n readerOps checksum
  | .panicked => ∃ r, g.exits r = some .panicked

structure WriterOk (rows writes : ℕ) (g : Shared n) (pc : WriterPc) : Prop where
  barrier : pc.pastBarrier = true → n + 1 ≤ g.arrived
  ready : pc.ready = true → n ≤ g.readerReady
  start : g.start = pc.started
  done : g.done = pc.stopped
  returned : g.writerReturned = pc.over
  revision : pc.revision writes ≤ writes
  row : g.table[keyAt rows 0]? = some (written rows (pc.revision writes))

structure ReaderOk (rows : ℕ) (r : Fin n) (g : Shared n) (pc : ReaderPc) : Prop where
  barrier : pc.pastBarrier = true → n + 1 ≤ g.arrived
  exits : g.exits r = pc.exit
  start : ∀ k c, pc.progress = some (k, c) → g.start = true
  progress : ∀ k c, pc.progress = some (k, c) → c = readSum n rows r k
  cursor : ∀ k index, pc.cursor = some (k, index) → index = position n rows r k
  fine : pc ≠ .panicked

/-- the rows that are not written -/
def Fixed (rows : ℕ) (g : Shared n) : Prop :=
  ∀ index, 0 < index → index < rows → g.table[keyAt rows index]? = some (valueAt rows index)

def Loc (rows writes : ℕ) : Party n → Shared n → Agent → Prop
  | .main, g, .main pc => MainOk g pc
  | .writer, g, .writer pc => WriterOk rows writes g pc
  | .reader r, g, .reader pc => ReaderOk rows r g pc
  | .main, _, .writer _ => False
  | .main, _, .reader _ => False
  | .writer, _, .main _ => False
  | .writer, _, .reader _ => False
  | .reader _, _, .main _ => False
  | .reader _, _, .writer _ => False

/-- what a step of `t` leaves as it was -/
structure Guar (t : Party n) (g g' : Shared n) : Prop where
  arrived : g.arrived ≤ g'.arrived
  readerReady : g.readerReady ≤ g'.readerReady
  start : g.start = true → g'.start = true
  done : g.done = true → g'.done = true
  writerReturned : g.writerReturned = true → g'.writerReturned = true
  kept : ∀ r e, g.exits r = some e → g'.exits r = some e
  writer : t ≠ .writer →
    g'.table = g.table ∧ g'.start = g.start ∧ g'.done = g.done ∧ g'.writerReturned = g.writerReturned
  others : ∀ r, t ≠ .reader r → g'.exits r = g.exits r

theorem Guar.refl (t : Party n) (g : Shared n) : Guar t g g :=
  ⟨le_rfl, le_rfl, id, id, id, fun _ _ h => h, fun _ => ⟨rfl, rfl, rfl, rfl⟩, fun _ _ => rfl⟩

theorem Joined.mono {g g' : Shared n} (hkept : ∀ r e, g.exits r = some e → g'.exits r = some e) {reader readerOps : ℕ}
    {checksum : UInt64} (h : Joined g reader readerOps checksum) : Joined g' reader readerOps checksum := by
  induction h with
  | none => exact .none
  | next hlt _ hexit ih => exact .next hlt ih (hkept _ _ hexit)

theorem mainStep_ok {g g' : Shared n} {pc pc' : MainPc} (h : MainOk g pc) (hstep : mainStep g pc = some (g', pc')) :
    g' = g ∧ MainOk g pc' := by
  cases pc with
  | joiningWriter =>
    simp only [mainStep] at hstep
    split_ifs at hstep with hreturned
    cases hstep
    exact ⟨rfl, hreturned, .none⟩
  | joining reader readerOps checksum =>
    obtain ⟨hreturned, hjoined⟩ := h
    simp only [mainStep] at hstep
    split_ifs at hstep with hlt
    · cases hexit : g.exits ⟨reader, hlt⟩ with
      | none => simp [hexit] at hstep
      | some e =>
        cases e with
        | returned operations sum =>
          simp only [hexit] at hstep
          cases hstep
          exact ⟨rfl, hreturned, .next hlt hjoined hexit⟩
        | panicked =>
          simp only [hexit] at hstep
          cases hstep
          exact ⟨rfl, _, hexit⟩
    · cases hstep
      have hall : reader = n := by
        refine Nat.le_antisymm ?_ (Nat.le_of_not_lt hlt)
        cases hjoined with
        | none => exact Nat.zero_le n
        | next hlt' _ _ => exact hlt'
      exact ⟨rfl, hreturned, hall ▸ hjoined⟩
  | sampled readerOps checksum => cases hstep
  | panicked => cases hstep

theorem writerStep_ok {rows writes : ℕ} {g g' : Shared n} {pc pc' : WriterPc} (h : WriterOk rows writes g pc)
    (hfit : rows ≤ 122 * 2 ^ 32) (hfixed : Fixed rows g) (hstep : writerStep rows writes g pc = some (g', pc')) :
    WriterOk rows writes g' pc' ∧ Fixed rows g' ∧ Guar .writer g g' := by
  obtain ⟨hbarrier, hready, hstart, hdone, hreturned, hrevision, hrow⟩ := h
  cases pc with
  | arriving =>
    cases hstep
    exact ⟨⟨nofun, nofun, hstart, hdone, hreturned, hrevision, hrow⟩, hfixed,
      ⟨Nat.le_succ _, le_rfl, id, id, id, fun _ _ h => h, fun h => absurd rfl h, fun _ _ => rfl⟩⟩
  | waiting =>
    simp only [writerStep] at hstep
    split_ifs at hstep with hall
    cases hstep
    exact ⟨⟨fun _ => hall.ge, nofun, hstart, hdone, hreturned, hrevision, hrow⟩, hfixed, Guar.refl _ g⟩
  | spinning =>
    simp only [writerStep] at hstep
    split_ifs at hstep with hall
    cases hstep
    exact ⟨⟨fun _ => hbarrier rfl, fun _ => hall.ge, hstart, hdone, hreturned, hrevision, hrow⟩, hfixed, Guar.refl _ g⟩
  | starting =>
    cases hstep
    exact ⟨⟨fun _ => hbarrier rfl, fun _ => hready rfl, rfl, hdone, hreturned, hrevision, hrow⟩, hfixed,
      ⟨le_rfl, le_rfl, fun _ => rfl, id, id, fun _ _ h => h, fun h => absurd rfl h, fun _ _ => rfl⟩⟩
  | upserting revision =>
    simp only [writerStep] at hstep
    split_ifs at hstep with hlt
    · cases hstep
      refine ⟨⟨fun _ => hbarrier rfl, fun _ => hready rfl, hstart, hdone, hreturned, hlt, ?_⟩,
        fun index hpos hindex => ?_,
        ⟨le_rfl, le_rfl, id, id, id, fun _ _ h => h, fun h => absurd rfl h, fun _ _ => rfl⟩⟩
      · exact (TreeMap.get_insert ..).trans (if_pos rfl)
      · have hne : keyAt rows 0 ≠ keyAt rows index := fun h =>
          hpos.ne (logicalRow_key_inj (by omega) (by omega) h)
        exact ((TreeMap.get_insert ..).trans (if_neg hne)).trans (hfixed index hpos hindex)
    · cases hstep
      have hlast : revision = writes := Nat.le_antisymm hrevision (Nat.le_of_not_lt hlt)
      exact ⟨⟨fun _ => hbarrier rfl, fun _ => hready rfl, hstart, hdone, hreturned, le_rfl, hlast ▸ hrow⟩, hfixed,
        Guar.refl _ g⟩
  | finishing =>
    cases hstep
    exact ⟨⟨fun _ => hbarrier rfl, fun _ => hready rfl, hstart, rfl, hreturned, le_rfl, hrow⟩, hfixed,
      ⟨le_rfl, le_rfl, id, fun _ => rfl, id, fun _ _ h => h, fun h => absurd rfl h, fun _ _ => rfl⟩⟩
  | exiting =>
    cases hstep
    exact ⟨⟨fun _ => hbarrier rfl, fun _ => hready rfl, hstart, hdone, rfl, le_rfl, hrow⟩, hfixed,
      ⟨le_rfl, le_rfl, id, id, fun _ => rfl, fun _ _ h => h, fun h => absurd rfl h, fun _ _ => rfl⟩⟩
  | returned => cases hstep

/-- a reader's step leaves the table and the flags alone -/
theorem readerStep_guar {rows : ℕ} {r : Fin n} {g g' : Shared n} {pc pc' : ReaderPc} (hexits : g.exits r = pc.exit)
    (hstep : readerStep rows r g pc = some (g', pc')) : Guar (.reader r) g g' := by
  have hexit : g.exits r = none → ∀ e, Guar (.reader r) g { g with exits := Function.update g.exits r (some e) } := by
    intro hnone e
    refine ⟨le_rfl, le_rfl, id, id, id, fun u e' hu => ?_, fun _ => ⟨rfl, rfl, rfl, rfl⟩, fun u hu => ?_⟩
    · have hne : u ≠ r := by
        rintro rfl
        rw [hnone] at hu
        cases hu
      exact (Function.update_of_ne hne _ _).trans hu
    · exact Function.update_of_ne (fun heq => hu (congrArg Party.reader heq.symm)) _ _
  cases pc with
  | arriving =>
    cases hstep
    exact ⟨Nat.le_succ _, le_rfl, id, id, id, fun _ _ h => h, fun _ => ⟨rfl, rfl, rfl, rfl⟩, fun _ _ => rfl⟩
  | waiting =>
    simp only [readerStep] at hstep
    split_ifs at hstep
    cases hstep
    exact Guar.refl _ g
  | announcing =>
    cases hstep
    exact ⟨le_rfl, Nat.le_succ _, id, id, id, fun _ _ h => h, fun _ => ⟨rfl, rfl, rfl, rfl⟩, fun _ _ => rfl⟩
  | spinning =>
    simp only [readerStep] at hstep
    split_ifs at hstep
    cases hstep
    exact Guar.refl _ g
  | polling operations checksum index =>
    simp only [readerStep] at hstep
    split_ifs at hstep <;> cases hstep <;> exact Guar.refl _ g
  | selecting operations checksum index =>
    simp only [readerStep] at hstep
    split at hstep
    · cases hstep
      exact hexit hexits _
    · cases hstep
      exact Guar.refl _ g
  | exiting operations checksum =>
    cases hstep
    exact hexit hexits _
  | returned operations checksum => cases hstep
  | panicked => cases hstep

theorem readerStep_ok {rows : ℕ} {r : Fin n} {g g' : Shared n} {pc pc' : ReaderPc} (h : ReaderOk rows r g pc)
    (hrows : n < rows) (hfixed : Fixed rows g) (hstep : readerStep rows r g pc = some (g', pc')) :
    ReaderOk rows r g' pc' := by
  obtain ⟨hbarrier, hexits, hstart, hprogress, hcursor, hfine⟩ := h
  cases pc with
  | arriving =>
    cases hstep
    exact ⟨nofun, hexits, nofun, nofun, nofun, nofun⟩
  | waiting =>
    simp only [readerStep] at hstep
    split_ifs at hstep with hall
    cases hstep
    exact ⟨fun _ => hall.ge, hexits, nofun, nofun, nofun, nofun⟩
  | announcing =>
    cases hstep
    exact ⟨fun _ => hbarrier rfl, hexits, nofun, nofun, nofun, nofun⟩
  | spinning =>
    simp only [readerStep] at hstep
    split_ifs at hstep with hopen
    cases hstep
    refine ⟨fun _ => hbarrier rfl, hexits, fun _ _ _ => hopen, ?_, ?_, nofun⟩
    · rintro k c ⟨⟩
      rfl
    · rintro k index ⟨⟩
      rfl
  | polling operations checksum index =>
    simp only [readerStep] at hstep
    split_ifs at hstep
    · cases hstep
      exact ⟨fun _ => hbarrier rfl, hexits, hstart, hprogress, nofun, nofun⟩
    · cases hstep
      exact ⟨fun _ => hbarrier rfl, hexits, hstart, hprogress, hcursor, nofun⟩
  | selecting operations checksum index =>
    have hindex : index = position n rows r operations := hcursor _ _ rfl
    have hsum : checksum = readSum n rows r operations := hprogress _ _ rfl
    have hrow := hfixed index (hindex ▸ position_pos r.isLt hrows _) (hindex ▸ position_lt r.isLt hrows _)
    simp only [readerStep, hrow] at hstep
    cases hstep
    refine ⟨fun _ => hbarrier rfl, hexits, fun _ _ _ => hstart _ _ rfl, ?_, ?_, nofun⟩
    · rintro k c ⟨⟩
      rw [hsum, hindex]
      rfl
    · rintro k index' ⟨⟩
      rw [hindex]
      rfl
  | exiting operations checksum =>
    cases hstep
    exact ⟨fun _ => hbarrier rfl, Function.update_self .., hstart, hprogress, nofun, nofun⟩
  | returned operations checksum => cases hstep
  | panicked => exact absurd rfl hfine

section Sample

variable {rows writes : ℕ}

/-- a step of the system is one of the main thread, of the writer or of a reader -/
theorem step_cases {t : Party n} {g g' : Shared n} {l l' : Agent} (h : step rows writes t g l = some (g', l')) :
    (∃ pc pc', t = .main ∧ l = .main pc ∧ l' = .main pc' ∧ mainStep g pc = some (g', pc')) ∨
    (∃ pc pc', t = .writer ∧ l = .writer pc ∧ l' = .writer pc' ∧ writerStep rows writes g pc = some (g', pc')) ∨
    ∃ r pc pc', t = .reader r ∧ l = .reader pc ∧ l' = .reader pc' ∧ readerStep rows r g pc = some (g', pc') := by
  cases t with
  | main =>
    cases l with
    | main pc =>
      obtain ⟨⟨g'', pc'⟩, hstep, heq⟩ := Option.map_eq_some_iff.1 h
      cases heq
      exact Or.inl ⟨pc, pc', rfl, rfl, rfl, hstep⟩
    | writer pc => cases h
    | reader pc => cases h
  | writer =>
    cases l with
    | main pc => cases h
    | writer pc =>
      obtain ⟨⟨g'', pc'⟩, hstep, heq⟩ := Option.map_eq_some_iff.1 h
      cases heq
      exact Or.inr (Or.inl ⟨pc, pc', rfl, rfl, rfl, hstep⟩)
    | reader pc => cases h
  | reader r =>
    cases l with
    | main pc => cases h
    | writer pc => cases h
    | reader pc =>
      obtain ⟨⟨g'', pc'⟩, hstep, heq⟩ := Option.map_eq_some_iff.1 h
      cases heq
      exact Or.inr (Or.inr ⟨r, pc, pc', rfl, rfl, rfl, hstep⟩)

variable (writes) (hrows : n < rows) (hfit : rows ≤ 122 * 2 ^ 32)

/-- what the barrier, the flags and the joins establish -/
def sampleOutline : Outline (step (n := n) rows writes) where
  Glob := Fixed rows
  Loc := Loc rows writes
  Guar := Guar
  step_ok t g l g' l' hglob hloc hstep := by
    rcases step_cases hstep with ⟨pc, pc', rfl, rfl, rfl, hmain⟩ | ⟨pc, pc', rfl, rfl, rfl, hwriter⟩ |
      ⟨r, pc, pc', rfl, rfl, rfl, hreader⟩
    · obtain ⟨rfl, hok⟩ := mainStep_ok hloc hmain
      exact ⟨hglob, hok, Guar.refl _ _⟩
    · obtain ⟨hok, hfixed, hguar⟩ := writerStep_ok hloc hfit hglob hwriter
      exact ⟨hfixed, hok, hguar⟩
    · have hguar := readerStep_guar (ReaderOk.exits hloc) hreader
      have htable : g'.table = g.table := (hguar.writer nofun).1
      exact ⟨fun index hpos hindex => by rw [htable]; exact hglob index hpos hindex,
        readerStep_ok hloc hrows hglob hreader, hguar⟩
  stable t u g g' l hne _ hguar hloc := by
    cases u with
    | main =>
      cases l with
      | main pc =>
        cases pc with
        | joiningWriter => trivial
        | joining reader readerOps checksum => exact ⟨hguar.writerReturned hloc.1, hloc.2.mono hguar.kept⟩
        | sampled readerOps checksum => exact ⟨hguar.writerReturned hloc.1, hloc.2.mono hguar.kept⟩
        | panicked => exact hloc.imp fun r hr => hguar.kept r _ hr
      | writer pc => cases hloc
      | reader pc => cases hloc
    | writer =>
      cases l with
      | main pc => cases hloc
      | writer pc =>
        obtain ⟨hbarrier, hready, hstart, hdone, hreturned, hrevision, hrow⟩ := hloc
        obtain ⟨htable, hstart', hdone', hreturned'⟩ := hguar.writer (Ne.symm hne)
        exact ⟨fun h => (hbarrier h).trans hguar.arrived, fun h => (hready h).trans hguar.readerReady,
          hstart'.trans hstart, hdone'.trans hdone, hreturned'.trans hreturned, hrevision, htable ▸ hrow⟩
      | reader pc => cases hloc
    | reader r =>
      cases l with
      | main pc => cases hloc
      | writer pc => cases hloc
      | reader pc =>
        obtain ⟨hbarrier, hexits, hstart, hprogress, hcursor, hfine⟩ := hloc
        exact ⟨fun h => (hbarrier h).trans hguar.arrived, (hguar.others r (Ne.symm hne)).trans hexits,
          fun k c h => hguar.start (hstart k c h), hprogress, hcursor, hfine⟩

include hfit

/-- **The fixture.** -/
theorem populated_some : ∃ table, populated rows = some table ∧
    ∀ index < rows, table[keyAt rows index]? = some (valueAt rows index) := by
  have hfaithful : worktable.Faithful := by
    refine ⟨fun k => ?_, fun s k v hnone => ?_, fun s k v w hsome => ?_⟩
    · exact Std.ExtTreeMap.getElem?_empty
    · have hk : k ∉ s := (TreeMap.get_none s k).1 hnone
      exact ⟨s.insert k v, if_neg hk, fun j => TreeMap.get_insert s k j v⟩
    · exact if_pos ((TreeMap.mem_iff_get s k).2 ⟨w, hsome⟩)
  obtain ⟨table, htable⟩ := buildTable_some hfaithful ((keys_nodup_iff rows).2 hfit)
  refine ⟨table, htable, fun index hindex => ?_⟩
  exact ((buildTable_holds hfaithful htable).1 _ _).2 (mem_logicalRows.2 ⟨index, hindex, rfl⟩)

include hrows

variable {table : Table} (htable : ∀ index < rows, table[keyAt rows index]? = some (valueAt rows index))
include htable

theorem start_holds : (sampleOutline writes hrows hfit).Holds (start table) := by
  refine ⟨fun index _ hindex => htable index hindex, fun t => ?_⟩
  cases t with
  | main => trivial
  | writer => exact ⟨nofun, nofun, rfl, rfl, rfl, Nat.zero_le _, htable 0 (by omega)⟩
  | reader r => exact ⟨nofun, rfl, nofun, nofun, nofun, nofun⟩

variable (sched : List (Party n))

theorem main_at :
    ∃ pc, (run (step rows writes) (start table) sched).locals .main = .main pc ∧
      MainOk (run (step rows writes) (start table) sched).shared pc := by
  have hloc := ((sampleOutline writes hrows hfit).run _ (start_holds writes hrows hfit htable) sched).2 .main
  cases hl : (run (step rows writes) (start table) sched).locals .main with
  | main pc =>
    rw [hl] at hloc
    exact ⟨pc, rfl, hloc⟩
  | writer pc =>
    rw [hl] at hloc
    cases hloc
  | reader pc =>
    rw [hl] at hloc
    cases hloc

theorem writer_at :
    ∃ pc, (run (step rows writes) (start table) sched).locals .writer = .writer pc ∧
      WriterOk rows writes (run (step rows writes) (start table) sched).shared pc := by
  have hloc := ((sampleOutline writes hrows hfit).run _ (start_holds writes hrows hfit htable) sched).2 .writer
  cases hl : (run (step rows writes) (start table) sched).locals .writer with
  | main pc =>
    rw [hl] at hloc
    cases hloc
  | writer pc =>
    rw [hl] at hloc
    exact ⟨pc, rfl, hloc⟩
  | reader pc =>
    rw [hl] at hloc
    cases hloc

theorem reader_at (r : Fin n) :
    ∃ pc, (run (step rows writes) (start table) sched).locals (.reader r) = .reader pc ∧
      ReaderOk rows r (run (step rows writes) (start table) sched).shared pc := by
  have hloc := ((sampleOutline writes hrows hfit).run _ (start_holds writes hrows hfit htable) sched).2 (.reader r)
  cases hl : (run (step rows writes) (start table) sched).locals (.reader r) with
  | main pc =>
    rw [hl] at hloc
    cases hloc
  | writer pc =>
    rw [hl] at hloc
    cases hloc
  | reader pc =>
    rw [hl] at hloc
    exact ⟨pc, rfl, hloc⟩

/-! ## Counting arrivals -/

/-- not at the barrier yet; the main thread does not go there -/
def Agent.away : Agent → ℕ
  | .main _ => 0
  | .writer pc => if pc = .arriving then 1 else 0
  | .reader pc => if pc = .arriving then 1 else 0

/-- a reader that has not announced itself -/
def Agent.silent : Agent → ℕ
  | .main _ => 0
  | .writer _ => 0
  | .reader pc => if pc.announced then 0 else 1

omit hrows hfit htable in
theorem mainStep_kept {g g' : Shared n} {pc pc' : MainPc} (h : mainStep g pc = some (g', pc')) : g' = g := by
  cases pc with
  | joiningWriter =>
    simp only [mainStep] at h
    split_ifs at h
    cases h
    rfl
  | joining reader readerOps checksum =>
    simp only [mainStep] at h
    split at h
    · split at h <;> cases h <;> rfl
    · cases h
      rfl
  | sampled readerOps checksum => cases h
  | panicked => cases h

omit hrows hfit htable in
theorem writerStep_counts {g g' : Shared n} {pc pc' : WriterPc} (h : writerStep rows writes g pc = some (g', pc')) :
    g'.arrived + (Agent.writer pc').away = g.arrived + (Agent.writer pc).away ∧ g'.readerReady = g.readerReady := by
  cases pc with
  | waiting =>
    simp only [writerStep] at h
    split_ifs at h
    cases h
    exact ⟨rfl, rfl⟩
  | spinning =>
    simp only [writerStep] at h
    split_ifs at h
    cases h
    exact ⟨rfl, rfl⟩
  | upserting revision =>
    simp only [writerStep] at h
    split_ifs at h <;> cases h <;> exact ⟨rfl, rfl⟩
  | _ => cases h <;> exact ⟨rfl, rfl⟩

omit hrows hfit htable in
theorem readerStep_counts {r : Fin n} {g g' : Shared n} {pc pc' : ReaderPc}
    (h : readerStep rows r g pc = some (g', pc')) :
    g'.arrived + (Agent.reader pc').away = g.arrived + (Agent.reader pc).away ∧
      g'.readerReady + (Agent.reader pc').silent = g.readerReady + (Agent.reader pc).silent := by
  cases pc with
  | waiting =>
    simp only [readerStep] at h
    split_ifs at h
    cases h
    exact ⟨rfl, rfl⟩
  | spinning =>
    simp only [readerStep] at h
    split_ifs at h
    cases h
    exact ⟨rfl, rfl⟩
  | polling operations checksum index =>
    simp only [readerStep] at h
    split_ifs at h <;> cases h <;> exact ⟨rfl, rfl⟩
  | selecting operations checksum index =>
    simp only [readerStep] at h
    split at h <;> cases h <;> exact ⟨rfl, rfl⟩
  | _ => cases h <;> exact ⟨rfl, rfl⟩

/-- the main thread, the writer, or a reader -/
def partyEquiv : Option (Option (Fin n)) ≃ Party n where
  toFun
    | none => .main
    | some none => .writer
    | some (some r) => .reader r
  invFun
    | .main => none
    | .writer => some none
    | .reader r => some (some r)
  left_inv o := by
    rcases o with _ | _ | r <;> rfl
  right_inv t := by cases t <;> rfl

omit hrows hfit htable in
theorem sum_party (f : Party n → ℕ) : ∑ t, f t = f .main + (f .writer + ∑ r, f (.reader r)) := by
  rw [← Equiv.sum_comp partyEquiv, Fintype.sum_option, Fintype.sum_option]
  rfl

omit hrows hfit htable in
variable (rows table) in
/-- **Everybody is at the barrier, or away; a reader has announced itself, or is silent.** -/
theorem arrivals_eq :
    (run (step rows writes) (start table) sched).shared.arrived +
        ∑ t, ((run (step rows writes) (start table) sched).locals t).away = n + 1 ∧
      (run (step rows writes) (start table) sched).shared.readerReady +
        ∑ t, ((run (step rows writes) (start table) sched).locals t).silent = n := by
  have hstep : ∀ (s : State (Party n) (Shared n) Agent) t g l, step rows writes t s.shared (s.locals t) = some (g, l) →
      g.arrived + l.away = s.shared.arrived + (s.locals t).away ∧
        g.readerReady + l.silent = s.shared.readerReady + (s.locals t).silent := by
    intro s t g l h
    rcases step_cases h with ⟨pc, pc', -, hl, rfl, hmain⟩ | ⟨pc, pc', -, hl, rfl, hwriter⟩ |
      ⟨r, pc, pc', -, hl, rfl, hreader⟩
    · rw [hl, mainStep_kept hmain]
      exact ⟨rfl, rfl⟩
    · rw [hl]
      exact ⟨(writerStep_counts writes hwriter).1, congrArg (· + 0) (writerStep_counts writes hwriter).2⟩
    · rw [hl]
      exact readerStep_counts hreader
  constructor
  · refine run_conserves_nat (fun _ => True) (fun g => g.arrived) (fun _ l => l.away) (n + 1)
      (fun _ _ _ _ _ _ => trivial) (fun s t g l _ _ h => (hstep s t g l h).1) (start table) trivial ?_ sched
    rw [sum_party]
    simp [start, Agent.away, Nat.add_comm]
  · refine run_conserves_nat (fun _ => True) (fun g => g.readerReady) (fun _ l => l.silent) n
      (fun _ _ _ _ _ _ => trivial) (fun s t g l _ _ h => (hstep s t g l h).2) (start table) trivial ?_ sched
    rw [sum_party]
    simp [start, Agent.silent, ReaderPc.announced]

/-! ## Finishing -/

/-- readers that poll are held back until the writer is done -/
def heldStep (rows writes : ℕ) : Party n → Shared n → Agent → Option (Shared n × Agent)
  | .reader r, g, .reader (.polling operations checksum index) =>
    if g.done then step rows writes (.reader r) g (.reader (.polling operations checksum index)) else none
  | t, g, l => step rows writes t g l

omit hrows hfit htable in
theorem heldStep_some {t : Party n} {g : Shared n} {l : Agent} {x : Shared n × Agent}
    (h : heldStep rows writes t g l = some x) : step rows writes t g l = some x := by
  unfold heldStep at h
  split at h
  · split_ifs at h
    exact h
  · exact h

def MainPc.over : MainPc → Bool
  | .sampled _ _ => true
  | .panicked => true
  | _ => false

def ReaderPc.over : ReaderPc → Bool
  | .arriving => false
  | .waiting => false
  | .announcing => false
  | .spinning => false
  | .polling _ _ _ => false
  | .selecting _ _ _ => false
  | .exiting _ _ => false
  | .returned _ _ => true
  | .panicked => true

def Agent.over : Agent → Bool
  | .main pc => pc.over
  | .writer pc => pc.over
  | .reader pc => pc.over

/-- what is left to do -/
def MainPc.measure (n : ℕ) : MainPc → ℕ
  | .joiningWriter => n + 3
  | .joining reader _ _ => n - reader + 2
  | .sampled _ _ => 0
  | .panicked => 0

def WriterPc.measure (writes : ℕ) : WriterPc → ℕ
  | .arriving => writes + 8
  | .waiting => writes + 7
  | .spinning => writes + 6
  | .starting => writes + 5
  | .upserting revision => writes - revision + 4
  | .finishing => 3
  | .exiting => 2
  | .returned => 0

/-- while polling readers are held back, a selection is the last -/
def ReaderPc.measure : ReaderPc → ℕ
  | .arriving => 7
  | .waiting => 6
  | .announcing => 5
  | .spinning => 4
  | .polling _ _ _ => 2
  | .selecting _ _ _ => 3
  | .exiting _ _ => 1
  | .returned _ _ => 0
  | .panicked => 0

def Agent.measure (n writes : ℕ) : Agent → ℕ
  | .main pc => pc.measure n
  | .writer pc => pc.measure writes
  | .reader pc => pc.measure

omit hrows hfit htable in
theorem mainStep_measure {g g' : Shared n} {pc pc' : MainPc} (h : mainStep g pc = some (g', pc')) :
    pc'.measure n < pc.measure n := by
  cases pc with
  | joiningWriter =>
    simp only [mainStep] at h
    split_ifs at h
    cases h
    exact Nat.lt_succ_self _
  | joining reader readerOps checksum =>
    simp only [mainStep] at h
    split at h
    · split at h
      · cases h
      · cases h
        simp only [MainPc.measure]
        omega
      · cases h
        exact Nat.succ_pos _
    · cases h
      exact Nat.succ_pos _
  | sampled readerOps checksum => cases h
  | panicked => cases h

omit hrows hfit htable in
theorem writerStep_measure {g g' : Shared n} {pc pc' : WriterPc} (h : writerStep rows writes g pc = some (g', pc')) :
    pc'.measure writes < pc.measure writes := by
  cases pc with
  | waiting =>
    simp only [writerStep] at h
    split_ifs at h
    cases h
    exact Nat.lt_succ_self _
  | spinning =>
    simp only [writerStep] at h
    split_ifs at h
    cases h
    exact Nat.lt_succ_self _
  | upserting revision =>
    simp only [writerStep] at h
    split_ifs at h
    · cases h
      simp only [WriterPc.measure]
      omega
    · cases h
      simp only [WriterPc.measure]
      omega
  | _ => cases h <;> simp only [WriterPc.measure] <;> omega

omit hrows hfit htable in
theorem readerStep_measure {r : Fin n} {g g' : Shared n} {pc pc' : ReaderPc}
    (hheld : pc.cursor.isSome → pc.measure = 2 → g.done = true) (h : readerStep rows r g pc = some (g', pc')) :
    pc'.measure < pc.measure := by
  cases pc with
  | waiting =>
    simp only [readerStep] at h
    split_ifs at h
    cases h
    exact Nat.lt_succ_self _
  | spinning =>
    simp only [readerStep] at h
    split_ifs at h
    cases h
    simp [ReaderPc.measure]
  | polling operations checksum index =>
    simp only [readerStep, hheld rfl rfl, if_true] at h
    cases h
    exact Nat.lt_succ_self _
  | selecting operations checksum index =>
    simp only [readerStep] at h
    split at h <;> cases h <;> simp [ReaderPc.measure]
  | arriving => cases h; exact Nat.lt_succ_self _
  | announcing => cases h; exact Nat.lt_succ_self _
  | exiting operations checksum => cases h; exact Nat.lt_succ_self _
  | returned operations checksum => cases h
  | panicked => cases h

omit hrows hfit htable in
theorem heldStep_measure {t : Party n} {g g' : Shared n} {l l' : Agent}
    (h : heldStep rows writes t g l = some (g', l')) : l'.measure n writes < l.measure n writes := by
  rcases step_cases (heldStep_some writes h) with ⟨pc, pc', -, rfl, rfl, hmain⟩ | ⟨pc, pc', -, rfl, rfl, hwriter⟩ |
    ⟨r, pc, pc', rfl, rfl, rfl, hreader⟩
  · exact mainStep_measure hmain
  · exact writerStep_measure writes hwriter
  · refine readerStep_measure (fun hcursor hmeasure => ?_) hreader
    cases pc with
    | polling operations checksum index =>
      by_contra hdone
      rw [heldStep, if_neg hdone] at h
      cases h
    | selecting operations checksum index => cases hmeasure
    | _ => cases hcursor

omit hrows hfit htable in
/-- once everybody is at the barrier and all readers are announced, the writer moves until it returns -/
theorem writer_moves {g : Shared n} {pc : WriterPc} (hall : g.arrived = n + 1) (hready : g.readerReady = n)
    (hpc : pc ≠ .returned) : writerStep rows writes g pc ≠ none := by
  intro hnone
  cases pc with
  | waiting =>
    simp only [writerStep, if_pos hall] at hnone
    cases hnone
  | spinning =>
    simp only [writerStep, if_pos hready] at hnone
    cases hnone
  | upserting revision =>
    simp only [writerStep] at hnone
    split_ifs at hnone
  | returned => exact hpc rfl
  | _ => cases hnone

omit hrows hfit htable in
/-- once the writer is done, a reader moves until it ends -/
theorem reader_moves {r : Fin n} {g : Shared n} {pc : ReaderPc} (hall : g.arrived = n + 1) (hstart : g.start = true)
    (hpc : pc.over = false) : readerStep rows r g pc ≠ none := by
  intro hnone
  cases pc with
  | waiting =>
    simp only [readerStep, if_pos hall] at hnone
    cases hnone
  | spinning =>
    simp only [readerStep, if_pos hstart] at hnone
    cases hnone
  | polling operations checksum index =>
    simp only [readerStep] at hnone
    split_ifs at hnone
  | selecting operations checksum index =>
    simp only [readerStep] at hnone
    split at hnone <;> cases hnone
  | returned operations checksum => cases hpc
  | panicked => cases hpc
  | _ => cases hnone

omit hrows hfit htable in
/-- once all threads have ended, the main thread moves until it has joined them -/
theorem main_moves {g : Shared n} {pc : MainPc} (hreturned : g.writerReturned = true)
    (hexits : ∀ r, g.exits r ≠ none) (hpc : pc.over = false) : mainStep g pc ≠ none := by
  intro hnone
  cases pc with
  | joiningWriter =>
    simp only [mainStep, if_pos hreturned] at hnone
    cases hnone
  | joining reader readerOps checksum =>
    simp only [mainStep] at hnone
    split at hnone
    · rename_i hlt
      cases hexit : g.exits ⟨reader, hlt⟩ with
      | none => exact hexits _ hexit
      | some e => cases e <;> simp [hexit] at hnone
    · cases hnone
  | sampled readerOps checksum => cases hpc
  | panicked => cases hpc

/-- **No deadlock.** Where nobody can move, even if polling readers are only held back, everybody is over. -/
theorem over_of_stuck
    (hstuck : ∀ t, heldStep rows writes t (run (step rows writes) (start table) sched).shared
      ((run (step rows writes) (start table) sched).locals t) = none) (t : Party n) :
    ((run (step rows writes) (start table) sched).locals t).over = true := by
  obtain ⟨harrived, hready⟩ := arrivals_eq rows writes table sched
  obtain ⟨m, hm, hmain⟩ := main_at writes hrows hfit htable sched
  obtain ⟨w, hw, hwriter⟩ := writer_at writes hrows hfit htable sched
  have hreaders := reader_at writes hrows hfit htable sched
  generalize run (step rows writes) (start table) sched = s at hstuck harrived hready hm hmain hw hwriter hreaders ⊢
  have hwstuck : writerStep rows writes s.shared w = none := by
    have h := hstuck .writer
    rw [hw] at h
    exact Option.map_eq_none_iff.1 h
  have hrstuck : ∀ r pc, s.locals (.reader r) = .reader pc → pc.measure ≠ 2 ∨ s.shared.done = true →
      readerStep rows r s.shared pc = none := by
    intro r pc hpc hmove
    have h := hstuck (.reader r)
    rw [hpc] at h
    cases pc with
    | polling operations checksum index =>
      rw [heldStep, if_pos (hmove.resolve_left fun h => h rfl)] at h
      exact Option.map_eq_none_iff.1 h
    | returned operations checksum => rfl
    | panicked => rfl
    | _ => exact Option.map_eq_none_iff.1 h
  -- nobody is away, since those who are can move
  have haway : ∀ u, (s.locals u).away = 0 := by
    intro u
    cases u with
    | main => rw [hm]; rfl
    | writer =>
      rw [hw]
      cases w with
      | arriving => cases hwstuck
      | _ => rfl
    | reader r =>
      obtain ⟨pc, hpc, -⟩ := hreaders r
      rw [hpc]
      cases pc with
      | arriving => cases hrstuck r _ hpc (Or.inl (by decide))
      | _ => rfl
  have hall : s.shared.arrived = n + 1 := by
    rwa [Finset.sum_eq_zero fun u _ => haway u, Nat.add_zero] at harrived
  -- nor is a reader silent
  have hsilent : ∀ u, (s.locals u).silent = 0 := by
    intro u
    cases u with
    | main => rw [hm]; rfl
    | writer => rw [hw]; rfl
    | reader r =>
      obtain ⟨pc, hpc, -⟩ := hreaders r
      rw [hpc]
      cases pc with
      | arriving => cases hrstuck r _ hpc (Or.inl (by decide))
      | waiting =>
        have h := hrstuck r _ hpc (Or.inl (by decide))
        simp only [readerStep, if_pos hall] at h
        cases h
      | announcing => cases hrstuck r _ hpc (Or.inl (by decide))
      | _ => rfl
  have hreadyAll : s.shared.readerReady = n := by
    rwa [Finset.sum_eq_zero fun u _ => hsilent u, Nat.add_zero] at hready
  have hreturned : w = .returned := by
    by_contra hne
    exact writer_moves writes hall hreadyAll hne hwstuck
  subst hreturned
  have hexits : ∀ r pc, s.locals (.reader r) = .reader pc → pc.over = true := by
    intro r pc hpc
    by_contra hover
    exact reader_moves hall hwriter.start (Bool.eq_false_iff.2 hover) (hrstuck r pc hpc (Or.inr hwriter.done))
  cases t with
  | main =>
    rw [hm]
    by_contra hover
    have hmstuck : mainStep s.shared m = none := by
      have h := hstuck .main
      rw [hm] at h
      exact Option.map_eq_none_iff.1 h
    refine main_moves hwriter.returned (fun r => ?_) (Bool.eq_false_iff.2 hover) hmstuck
    obtain ⟨pc, hpc, hok⟩ := hreaders r
    rw [hok.exits]
    have hover := hexits r pc hpc
    cases pc with
    | returned operations checksum => exact Option.some_ne_none _
    | panicked => exact Option.some_ne_none _
    | _ => cases hover
  | writer =>
    rw [hw]
    rfl
  | reader r =>
    obtain ⟨pc, hpc, -⟩ := hreaders r
    rw [hpc]
    exact hexits r pc hpc

/-- **Finishing.** From every moment of a run, some continuation ends with everybody over. -/
theorem sample_finishes :
    ∃ more, ∀ t, ((run (step rows writes) (start table) (sched ++ more)).locals t).over = true := by
  obtain ⟨held, hover⟩ := run_finishes_each
    (fun s : State (Party n) (Shared n) Agent => ∃ before, s = run (step rows writes) (start table) before)
    (fun _ l => l.over = true) (fun _ l => l.measure n writes)
    (by
      rintro s t g l ⟨before, rfl⟩ hstep
      refine ⟨before ++ [t], ?_⟩
      rw [run_append, run_cons, run_nil, exec_some (heldStep_some writes hstep)])
    (fun s t g l _ hstep => heldStep_measure writes hstep)
    (by
      rintro s ⟨before, rfl⟩ ⟨t, ht⟩
      by_contra hnone
      exact ht (over_of_stuck writes hrows hfit htable before (fun u => by by_contra hu; exact hnone ⟨u, hu⟩) t))
    (run (step rows writes) (start table) sched) ⟨sched, rfl⟩
  obtain ⟨more, hmore⟩ := run_restrict (fun _ _ _ _ => heldStep_some writes)
    (run (step rows writes) (start table) sched) held
  rw [← hmore, ← run_append] at hover
  exact ⟨more, hover⟩

/-! ## Operations after the last store -/

/-- how many operations a reader has made -/
def ReaderPc.operations (pc : ReaderPc) : ℕ := (pc.progress.map Prod.fst).getD 0

/-- how many it makes if it polls no more -/
def ReaderPc.limit : ReaderPc → ℕ
  | .arriving => 0
  | .waiting => 0
  | .announcing => 0
  | .spinning => 0
  | .polling operations _ _ => operations
  | .selecting operations _ _ => operations + 1
  | .exiting operations _ => operations
  | .returned operations _ => operations
  | .panicked => 0

omit hrows hfit htable in
theorem limit_bounds (pc : ReaderPc) : pc.operations ≤ pc.limit ∧ pc.limit ≤ pc.operations + 1 := by
  cases pc with
  | selecting operations checksum index => exact ⟨Nat.le_succ _, le_rfl⟩
  | _ => exact ⟨le_rfl, Nat.le_succ _⟩

omit hrows hfit htable in
theorem readerStep_limit {r : Fin n} {g g' : Shared n} {pc pc' : ReaderPc} (hdone : g.done = true)
    (h : readerStep rows r g pc = some (g', pc')) : pc'.limit ≤ pc.limit := by
  cases pc with
  | waiting =>
    simp only [readerStep] at h
    split_ifs at h
    cases h
    exact le_rfl
  | spinning =>
    simp only [readerStep] at h
    split_ifs at h
    cases h
    exact le_rfl
  | polling operations checksum index =>
    simp only [readerStep, if_pos hdone] at h
    cases h
    exact le_rfl
  | selecting operations checksum index =>
    simp only [readerStep] at h
    split at h
    · cases h
      exact Nat.zero_le _
    · cases h
      exact le_rfl
  | _ => cases h <;> exact le_rfl

/-- after the writer's last store the limit of a reader does not grow -/
theorem limit_kept (hdone : (run (step rows writes) (start table) sched).shared.done = true) (later : List (Party n))
    (r : Fin n) {pc pc' : ReaderPc}
    (hpc : (run (step rows writes) (start table) sched).locals (.reader r) = .reader pc)
    (hpc' : (run (step rows writes) (start table) (sched ++ later)).locals (.reader r) = .reader pc') :
    pc'.limit ≤ pc.limit := by
  have hinv := run_inv (fun s : State (Party n) (Shared n) Agent =>
      (∃ before, s = run (step rows writes) (start table) before) ∧ s.shared.done = true ∧
        ∀ w, s.locals (.reader r) = .reader w → w.limit ≤ pc.limit)
    (by
      rintro s t g l ⟨⟨before, rfl⟩, hdone, hlimit⟩ hstep
      have hholds := (sampleOutline writes hrows hfit).run _ (start_holds writes hrows hfit htable) before
      have hguar := ((sampleOutline writes hrows hfit).step_ok t _ _ g l hholds.1 (hholds.2 t) hstep).2.2
      refine ⟨⟨before ++ [t], by rw [run_append, run_cons, run_nil, exec_some hstep]⟩, hguar.done hdone, ?_⟩
      intro w hw
      dsimp only at hw
      by_cases ht : .reader r = t
      · subst ht
        rw [Function.update_self] at hw
        subst hw
        rcases step_cases hstep with ⟨-, -, h, -⟩ | ⟨-, -, h, -⟩ | ⟨u, v, v', hu, hl, hw, hreader⟩
        · cases h
        · cases h
        · cases hu
          cases hw
          exact (readerStep_limit hdone hreader).trans (hlimit v hl)
      · rw [Function.update_of_ne ht] at hw
        exact hlimit w hw)
    (run (step rows writes) (start table) sched)
    ⟨⟨sched, rfl⟩, hdone, fun w hw => by rw [hpc] at hw; cases hw; exact le_rfl⟩ later
  rw [← run_append] at hinv
  exact hinv.2.2 pc' hpc'

/-! ## The sample -/

omit hrows hfit htable in
theorem Joined.returned {g : Shared n} {reader readerOps : ℕ} {checksum : UInt64}
    (h : Joined g reader readerOps checksum) (r : Fin n) (hr : r.val < reader) :
    ∃ operations sum, g.exits r = some (.returned operations sum) := by
  induction h with
  | none => exact absurd hr (Nat.not_lt_zero _)
  | next hlt _ hexit ih =>
    rcases Nat.lt_succ_iff_lt_or_eq.1 hr with hbefore | hlast
    · exact ih hbefore
    · exact ⟨_, _, (congrArg g.exits (Fin.ext hlast)).trans hexit⟩

omit hrows hfit htable in
/-- what the main thread has added up, once the readers have returned -/
theorem Joined.sums {g : Shared n} {ops : Fin n → ℕ} {sums : Fin n → UInt64}
    (h : ∀ r, g.exits r = some (.returned (ops r) (sums r))) {reader readerOps : ℕ} {checksum : UInt64}
    (hjoined : Joined g reader readerOps checksum) :
    readerOps = ((List.ofFn ops).take reader).sum ∧ checksum = ((List.ofFn sums).take reader).sum := by
  induction hjoined with
  | none => exact ⟨rfl, rfl⟩
  | next hlt _ hexit ih =>
    obtain ⟨rfl, rfl⟩ := ih
    rw [h] at hexit
    cases hexit
    constructor
    · rw [List.sum_take_succ _ _ (by simpa using hlt), List.getElem_ofFn]
    · rw [List.sum_take_succ _ _ (by simpa using hlt), List.getElem_ofFn]

end Sample

/-- a moment of an interleaving -/
abbrev moment (rows writes : ℕ) (table : Table) (sched : List (Party n)) : State (Party n) (Shared n) Agent :=
  run (step rows writes) (start table) sched

/-- **The sample.** At every moment of every interleaving no reader has missed a row, what it has added up and the
row it goes on with are fixed by how many operations it has made, and it selects only after everybody has announced
himself; no two readers select the same row, and none the first. The rows they go round are those of the fixture, the
first row is the last revision once the writer is done, and the sample adds up what the readers have. -/
theorem hot_page_sample {rows : ℕ} (hrows : n < rows) (hfit : rows ≤ 122 * 2 ^ 32) (writes : ℕ) :
    (∀ (r r' : Fin n) k k', 0 < position n rows r k ∧ (position n rows r k = position n rows r' k' → r = r')) ∧
    ∃ table, populated rows = some table ∧ ∀ sched : List (Party n),
      (∀ r, ∃ pc, (moment rows writes table sched).locals (.reader r) = .reader pc ∧ pc ≠ .panicked ∧
        (∀ k index, pc.cursor = some (k, index) → index = position n rows r k) ∧
        ∀ k c, pc.progress = some (k, c) → c = readSum n rows r k ∧
          ∀ r', ∃ pc', (moment rows writes table sched).locals (.reader r') = .reader pc' ∧ pc'.announced = true) ∧
      (∀ index, 0 < index → index < rows →
        (moment rows writes table sched).shared.table[keyAt rows index]? = some (valueAt rows index)) ∧
      ((moment rows writes table sched).shared.done = true →
        (moment rows writes table sched).shared.table[keyAt rows 0]? = some (written rows writes)) ∧
      ∀ readerOps checksum, (moment rows writes table sched).locals .main = .main (.sampled readerOps checksum) →
        ∃ ops : Fin n → ℕ, (∀ r, (moment rows writes table sched).locals (.reader r) =
            .reader (.returned (ops r) (readSum n rows r (ops r)))) ∧
          readerOps = ∑ r, ops r ∧ checksum = ∑ r : Fin n, readSum n rows r (ops r) := by
  refine ⟨fun r r' k k' => ⟨position_pos r.isLt hrows k, fun h => Fin.ext (position_inj r.isLt hrows r'.isLt h)⟩, ?_⟩
  obtain ⟨table, hpopulated, htable⟩ := populated_some hfit
  refine ⟨table, hpopulated, fun sched => ?_⟩
  have hfixed := ((sampleOutline writes hrows hfit).run _ (start_holds writes hrows hfit htable) sched).1
  obtain ⟨m, hm, hmain⟩ := main_at writes hrows hfit htable sched
  obtain ⟨w, hw, hwriter⟩ := writer_at writes hrows hfit htable sched
  have hreaders := reader_at writes hrows hfit htable sched
  obtain ⟨-, hready⟩ := arrivals_eq rows writes table sched
  refine ⟨fun r => ?_, hfixed, fun hdone => ?_, fun readerOps checksum hsampled => ?_⟩
  · obtain ⟨pc, hpc, hok⟩ := hreaders r
    refine ⟨pc, hpc, hok.fine, hok.cursor, fun k c hprogress => ⟨hok.progress k c hprogress, fun r' => ?_⟩⟩
    -- the writer has opened, so it has seen all readers announced, and none is silent
    have hopened : w.started = true := hwriter.start.symm.trans (hok.start k c hprogress)
    have hseen : w.ready = true := by
      cases w with
      | starting => cases hopened
      | _ => exact hopened
    have hall := hwriter.ready hseen
    have hsilent : ((run (step rows writes) (start table) sched).locals (.reader r')).silent = 0 := by
      have hle := Finset.single_le_sum (f := fun t => ((run (step rows writes) (start table) sched).locals t).silent)
        (fun _ _ => Nat.zero_le _) (Finset.mem_univ (Party.reader r'))
      omega
    obtain ⟨pc', hpc', -⟩ := hreaders r'
    refine ⟨pc', hpc', ?_⟩
    rw [hpc'] at hsilent
    by_contra hquiet
    rw [Agent.silent, if_neg hquiet] at hsilent
    cases hsilent
  · have hstopped : w.stopped = true := hwriter.done.symm.trans hdone
    have hrow := hwriter.row
    cases w with
    | exiting => exact hrow
    | returned => exact hrow
    | _ => cases hstopped
  · rw [hm] at hsampled
    cases hsampled
    obtain ⟨-, hjoined⟩ := hmain
    have hreturned : ∀ r, ∃ k, (run (step rows writes) (start table) sched).locals (.reader r) =
        .reader (.returned k (readSum n rows r k)) ∧
        (run (step rows writes) (start table) sched).shared.exits r = some (.returned k (readSum n rows r k)) := by
      intro r
      obtain ⟨k, c, hexit⟩ := hjoined.returned r r.isLt
      obtain ⟨pc, hpc, hok⟩ := hreaders r
      have hend := hok.exits.symm.trans hexit
      cases pc with
      | returned operations sum =>
        cases hend
        have hsum := hok.progress k c rfl
        subst hsum
        exact ⟨k, hpc, hexit⟩
      | panicked => cases hend
      | _ => cases hend
    choose ops hops hexits using hreturned
    obtain ⟨hsum, hsum'⟩ := hjoined.sums hexits
    refine ⟨ops, hops, ?_, ?_⟩
    · rw [hsum, List.take_of_length_le (List.length_ofFn).le, List.sum_ofFn]
    · rw [hsum', List.take_of_length_le (List.length_ofFn).le, List.sum_ofFn]

/-- four readers of 256 rows -/
theorem hot_page_sample_four :
    (∀ (r r' : Fin 4) k k', 0 < position 4 256 r k ∧ (position 4 256 r k = position 4 256 r' k' → r = r')) ∧
      ∃ table, populated 256 = some table ∧ ∀ sched : List (Party 4),
        (∀ r, ∃ pc, (moment 256 160000 table sched).locals (.reader r) = .reader pc ∧ pc ≠ .panicked ∧
          ∀ k index, pc.cursor = some (k, index) → index = position 4 256 r k) ∧
        ∀ index, 0 < index → index < 256 →
          (moment 256 160000 table sched).shared.table[keyAt 256 index]? = some (valueAt 256 index) := by
  obtain ⟨hrows, table, htable, hmoments⟩ := hot_page_sample (show 4 < 256 by decide) (by decide) 160000
  refine ⟨hrows, table, htable, fun sched => ⟨fun r => ?_, (hmoments sched).2.1⟩⟩
  obtain ⟨pc, hpc, hfine, hcursor, -⟩ := (hmoments sched).1 r
  exact ⟨pc, hpc, hfine, hcursor⟩

/-- **Stopping.** After the writer's last store a reader makes at most one more operation, and from every moment of
every interleaving the sample can be finished. -/
theorem hot_page_stops {rows : ℕ} (hrows : n < rows) (hfit : rows ≤ 122 * 2 ^ 32) (writes : ℕ) :
    ∃ table, populated rows = some table ∧ ∀ sched : List (Party n),
      ((moment rows writes table sched).shared.done = true → ∀ later r, ∃ pc pc',
        (moment rows writes table sched).locals (.reader r) = .reader pc ∧
        (moment rows writes table (sched ++ later)).locals (.reader r) = .reader pc' ∧
        pc'.operations ≤ pc.operations + 1) ∧
      ∃ more readerOps checksum, (moment rows writes table (sched ++ more)).locals .main =
        .main (.sampled readerOps checksum) := by
  obtain ⟨table, hpopulated, htable⟩ := populated_some hfit
  refine ⟨table, hpopulated, fun sched => ⟨fun hdone later r => ?_, ?_⟩⟩
  · obtain ⟨pc, hpc, -⟩ := reader_at writes hrows hfit htable sched r
    obtain ⟨pc', hpc', -⟩ := reader_at writes hrows hfit htable (sched ++ later) r
    refine ⟨pc, pc', hpc, hpc', ?_⟩
    calc pc'.operations ≤ pc'.limit := (limit_bounds pc').1
      _ ≤ pc.limit := limit_kept writes hrows hfit htable sched hdone later r hpc hpc'
      _ ≤ pc.operations + 1 := (limit_bounds pc).2
  · obtain ⟨more, hover⟩ := sample_finishes writes hrows hfit htable sched
    obtain ⟨m, hm, hmain⟩ := main_at writes hrows hfit htable (sched ++ more)
    have hend := hover .main
    rw [hm] at hend
    cases m with
    | sampled readerOps checksum => exact ⟨more, readerOps, checksum, hm⟩
    | panicked =>
      -- no reader panics, so the main thread does not
      obtain ⟨r, hr⟩ := hmain
      obtain ⟨pc, -, hok⟩ := reader_at writes hrows hfit htable (sched ++ more) r
      have hexit := hok.exits.symm.trans hr
      cases pc with
      | panicked => exact absurd rfl hok.fine
      | _ => cases hexit
    | _ => cases hend

/-- four readers of 256 rows -/
theorem hot_page_stops_four :
    ∃ table, populated 256 = some table ∧ ∀ sched : List (Party 4),
      ((moment 256 160000 table sched).shared.done = true → ∀ later r, ∃ pc pc',
        (moment 256 160000 table sched).locals (.reader r) = .reader pc ∧
        (moment 256 160000 table (sched ++ later)).locals (.reader r) = .reader pc' ∧
        pc'.operations ≤ pc.operations + 1) ∧
      ∃ more readerOps checksum, (moment 256 160000 table (sched ++ more)).locals .main =
        .main (.sampled readerOps checksum) :=
  hot_page_stops (by decide) (by decide) 160000

end WtBenchmarks.MoeResident.HotPage
