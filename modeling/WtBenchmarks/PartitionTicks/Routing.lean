/-
The readers of `src/partition_ticks.rs`: per-tick routing and pinned routing handle the same ticks.

A reader draws a (symbol, row) for each tick, looks the symbol's partition up and reads the row or counts a miss. `Arc`
and `Ref` do so in one loop; `Pinned` does so in batches under one pin, the last batch shorter, over the same generator.

- `pinnedTicks_eq`: the batched loop is the plain loop, whatever the batch size;
- `turns_handle`: what the plain loop requests does not depend on what its lookups find;
- `routing_agrees`: for every routing and batch size a reader handles exactly its ticks, and the same ones.

What a lookup finds is a function of its turn and its symbol, as other threads may change the partitions meanwhile; on
partitions that nobody changes it is a function of the symbol. Loops that need not end run on `fuel`. The sum of the
reader's index and its draw wraps, or panics in a build with `checks`.
-/
import WtBenchmarks.Core.Word
import WtBenchmarks.Rng

namespace WtBenchmarks.PartitionTicks

open Rng

/-! ## Model -/

inductive Routing
  | arc
  | ref
  | pinned
  deriving DecidableEq

inductive Spread
  | hot
  | spread
  deriving DecidableEq

/-- the fields of a `Shape` that its readers use -/
structure Shape where
  partitions : UInt16
  rowsPerPartition : UInt64
  routing : Routing
  spread : Spread
  batch : UInt64

/-- the (symbol, row) of a tick -/
abbrev Request := UInt16 × UInt64

/-- whether the partition of a symbol stands, at a reader's n-th lookup -/
abbrev Lookup := ℕ → UInt16 → Bool

/-- what a reader has requested, in order, and how many of its ticks met no partition -/
structure Log where
  requests : List Request
  missed : ℕ

/-- `a + b` in a build that checks for overflow or in one that does not -/
def add (checks : Bool) (a b : UInt64) : Option UInt64 := if checks then checkedAdd a b else some (a + b)

/-- the symbol of a tick -/
def nextSymbol (checks : Bool) (shape : Shape) (reader : UInt64) : Draw UInt16 :=
  match shape.spread with
  | .hot => pure 0
  | .spread => do
    let start ← below shape.partitions.toUInt64
    let sum ← add checks reader start
    let symbol ← checkedMod sum shape.partitions.toUInt64
    pure symbol.toUInt16

def nextTick (checks : Bool) (shape : Shape) (reader : UInt64) : Draw Request := do
  let symbol ← nextSymbol checks shape reader
  let id ← below shape.rowsPerPartition
  pure (symbol, id)

/-- one tick: the partition is looked up, and the row read or a miss counted -/
def handle (checks : Bool) (lookup : Lookup) (shape : Shape) (reader : UInt64) (log : Log) : Draw Log := do
  let (symbol, id) ← nextTick checks shape reader
  let found := lookup log.requests.length symbol
  pure ⟨log.requests ++ [(symbol, id)], if found then log.missed else log.missed + 1⟩

/-- the loop of `Arc` and of `Ref` -/
def perTick (checks : Bool) (lookup : Lookup) (shape : Shape) (reader ticksPerReader : UInt64) : Draw Log :=
  turns (handle checks lookup shape reader) ticksPerReader.toNat ⟨[], 0⟩

/-- `while done < ticks_per_reader`, one pin a turn -/
def pinnedLoop (checks : Bool) (lookup : Lookup) (shape : Shape) (reader ticksPerReader : UInt64) :
    ℕ → UInt64 → Log → Draw Log
  | 0, _, _ => fun _ => none
  | fuel + 1, done, log =>
    if done < ticksPerReader then do
      let thisBatch := min shape.batch (ticksPerReader - done)
      let log ← turns (handle checks lookup shape reader) thisBatch.toNat log
      pinnedLoop checks lookup shape reader ticksPerReader fuel (done + thisBatch) log
    else pure log

def pinnedTicks (checks : Bool) (lookup : Lookup) (fuel : ℕ) (shape : Shape) (reader ticksPerReader : UInt64) :
    Draw Log :=
  pinnedLoop checks lookup shape reader ticksPerReader fuel 0 ⟨[], 0⟩

/-- a reader of `run` -/
def readerTicks (checks : Bool) (lookup : Lookup) (fuel : ℕ) (shape : Shape) (reader ticksPerReader : UInt64) :
    Draw Log :=
  match shape.routing with
  | .arc => perTick checks lookup shape reader ticksPerReader
  | .ref => perTick checks lookup shape reader ticksPerReader
  | .pinned => pinnedTicks checks lookup fuel shape reader ticksPerReader

/-! ## One tick -/

/-- the symbol is one of the partitions and the row one of its rows -/
def InRange (shape : Shape) (r : Request) : Prop := r.1 < shape.partitions ∧ r.2 < shape.rowsPerPartition

section Tick

variable {checks : Bool} {shape : Shape} {reader : UInt64}

theorem add_some {a b : UInt64} (h : checks = true → a.toNat + b.toNat < 2 ^ 64) : ∃ c, add checks a b = some c := by
  cases checks with
  | false => exact ⟨a + b, rfl⟩
  | true =>
    obtain ⟨c, hc, -⟩ := checkedAdd_some (h rfl)
    exact ⟨c, hc⟩

/-- the remainder by the number of partitions fits a symbol -/
theorem symbol_lt {partitions : UInt16} {sum symbol : UInt64} (hpartitions : 0 < partitions.toNat)
    (h : symbol.toNat = sum.toNat % partitions.toNat) : symbol.toUInt16 < partitions := by
  have hlt := Nat.mod_lt sum.toNat hpartitions
  have hsize := partitions.toNat_lt
  rw [UInt16.lt_iff_toNat_lt, UInt64.toNat_toUInt16, h, Nat.mod_eq_of_lt (by omega)]
  exact hlt

theorem nextSymbol_total (hpartitions : 0 < shape.partitions)
    (hreader : checks = true → shape.spread = .spread → reader.toNat + shape.partitions.toNat ≤ 2 ^ 64) :
    Total (fun symbol => symbol < shape.partitions) (nextSymbol checks shape reader) := by
  have hpos : 0 < shape.partitions.toUInt64.toNat := by
    rw [UInt16.toNat_toUInt64]
    exact UInt16.lt_iff_toNat_lt.1 hpartitions
  unfold nextSymbol
  cases hspread : shape.spread with
  | hot => exact Total.pure hpartitions
  | spread =>
    refine (below_total _ (UInt64.lt_iff_toNat_lt.2 hpos)).bind fun start hstart => ?_
    rw [UInt64.lt_iff_toNat_lt, UInt16.toNat_toUInt64] at hstart
    obtain ⟨sum, hsum⟩ := add_some fun hchecks => by
      have hfits := hreader hchecks hspread
      show reader.toNat + start.toNat < 2 ^ 64
      omega
    obtain ⟨symbol, hmod, hsymbol⟩ := checkedMod_some (a := sum) hpos
    refine (Total.lift (P := (· = sum)) ⟨sum, hsum, rfl⟩).bind fun _ hsum => ?_
    subst hsum
    refine (Total.lift (P := (· = symbol)) ⟨symbol, hmod, rfl⟩).bind fun _ hmod => ?_
    subst hmod
    exact Total.pure (symbol_lt hpos hsymbol)

theorem nextTick_total (hpartitions : 0 < shape.partitions) (hrows : 0 < shape.rowsPerPartition)
    (hreader : checks = true → shape.spread = .spread → reader.toNat + shape.partitions.toNat ≤ 2 ^ 64) :
    Total (InRange shape) (nextTick checks shape reader) :=
  (nextSymbol_total hpartitions hreader).bind fun _ hsymbol =>
    (below_total _ hrows).bind fun _ hid => Total.pure ⟨hsymbol, hid⟩

end Tick

/-! ## The plain loop -/

/-- the ticks that find no partition, from the `n`-th lookup on -/
def misses (lookup : Lookup) : ℕ → List Request → ℕ
  | _, [] => 0
  | n, r :: requests => (if lookup n r.1 then 0 else 1) + misses lookup (n + 1) requests

theorem misses_const (set : UInt16 → Bool) (n : ℕ) (requests : List Request) :
    misses (fun _ => set) n requests = requests.countP fun r => !set r.1 := by
  induction requests generalizing n with
  | nil => rfl
  | cons r requests ih =>
    rw [misses, ih, List.countP_cons, Nat.add_comm]
    cases set r.1 <;> rfl

/-- **What is requested.** The requests and the generator after them are the same whatever the lookups find. -/
theorem turns_handle {checks : Bool} {shape : Shape} {reader : UInt64}
    (htick : Total (InRange shape) (nextTick checks shape reader)) (n : ℕ) (rng : Rng) :
    ∃ requests rng', requests.length = n ∧ (∀ r ∈ requests, InRange shape r) ∧
      ∀ lookup log, (turns (handle checks lookup shape reader) n log).run rng =
        some (⟨log.requests ++ requests, log.missed + misses lookup log.requests.length requests⟩, rng') := by
  induction n generalizing rng with
  | zero => exact ⟨[], rng, rfl, List.forall_mem_nil _, fun lookup log => by simp [turns, misses]⟩
  | succ n ih =>
    obtain ⟨r, rng₁, htick, hr⟩ := htick rng
    obtain ⟨requests, rng₂, hlen, hrange, hrun⟩ := ih rng₁
    refine ⟨r :: requests, rng₂, congrArg Nat.succ hlen, List.forall_mem_cons.2 ⟨hr, hrange⟩, fun lookup log => ?_⟩
    have hhandle : (handle checks lookup shape reader log).run rng =
        some (⟨log.requests ++ [r], if lookup log.requests.length r.1 then log.missed else log.missed + 1⟩, rng₁) := by
      simp [handle, htick]
    rw [turns, StateT.run_bind, hhandle]
    refine (hrun lookup _).trans ?_
    rw [List.length_append, List.length_singleton, List.append_assoc, misses]
    split_ifs <;> simp [Nat.add_assoc]

/-! ## The pinned loop -/

section Pinned

variable {checks : Bool} {lookup : Lookup} {shape : Shape} {reader ticksPerReader : UInt64}

theorem thisBatch_toNat (batch : UInt64) {done ticks : UInt64} (h : done < ticks) :
    (min batch (ticks - done)).toNat = min batch.toNat (ticks.toNat - done.toNat) := by
  have hmin : min batch (ticks - done) = if batch ≤ ticks - done then batch else ticks - done := rfl
  rw [UInt64.lt_iff_toNat_lt] at h
  have hsub := UInt64.toNat_sub_of_le ticks done (UInt64.le_iff_toNat_le.2 h.le)
  rw [hmin]
  split_ifs with hle
  · rw [UInt64.le_iff_toNat_le] at hle
    omega
  · rw [UInt64.le_iff_toNat_le] at hle
    omega

/-- a batch is never more than the ticks that are left -/
theorem done_add_toNat (batch : UInt64) {done ticks : UInt64} (h : done < ticks) :
    (done + min batch (ticks - done)).toNat = done.toNat + min batch.toNat (ticks.toNat - done.toNat) := by
  have hle := thisBatch_toNat batch h
  have hsize := ticks.toNat_lt
  rw [UInt64.lt_iff_toNat_lt] at h
  rw [toNat_add_of_lt (by omega), hle]

/-- the batches from `done` on are the rest of the plain loop -/
theorem pinnedLoop_eq (hbatch : 1 ≤ shape.batch) (fuel : ℕ) (done : UInt64) (log : Log)
    (hdone : done.toNat ≤ ticksPerReader.toNat) (hfuel : ticksPerReader.toNat - done.toNat < fuel) :
    pinnedLoop checks lookup shape reader ticksPerReader fuel done log =
      turns (handle checks lookup shape reader) (ticksPerReader.toNat - done.toNat) log := by
  induction fuel generalizing done log with
  | zero => exact absurd hfuel (Nat.not_lt_zero _)
  | succ fuel ih =>
    rw [pinnedLoop]
    split_ifs with hlt
    · have hthis := thisBatch_toNat shape.batch hlt
      have hnext := done_add_toNat shape.batch hlt
      generalize min shape.batch (ticksPerReader - done) = thisBatch at hthis hnext ⊢
      rw [UInt64.lt_iff_toNat_lt] at hlt
      have hpos : 1 ≤ shape.batch.toNat := UInt64.le_iff_toNat_le.1 hbatch
      have hsplit : ticksPerReader.toNat - done.toNat =
          thisBatch.toNat + (ticksPerReader.toNat - (done + thisBatch).toNat) := by
        omega
      rw [hsplit, turns_add]
      exact bind_congr fun log => ih (done + thisBatch) log (by omega) (by omega)
    · rw [UInt64.not_lt, UInt64.le_iff_toNat_le] at hlt
      rw [Nat.sub_eq_zero_of_le hlt]
      rfl

/-- **Pinned routing.** The batched loop is the plain loop. -/
theorem pinnedTicks_eq (hbatch : 1 ≤ shape.batch) {fuel : ℕ} (hfuel : ticksPerReader.toNat < fuel) :
    pinnedTicks checks lookup fuel shape reader ticksPerReader = perTick checks lookup shape reader ticksPerReader :=
  pinnedLoop_eq hbatch fuel 0 ⟨[], 0⟩ (Nat.zero_le _) hfuel

/-- with batches that are not empty, the routing changes nothing but what the lookups may find -/
theorem readerTicks_eq (hbatch : 1 ≤ shape.batch) {fuel : ℕ} (hfuel : ticksPerReader.toNat < fuel) :
    readerTicks checks lookup fuel shape reader ticksPerReader = perTick checks lookup shape reader ticksPerReader := by
  unfold readerTicks
  cases shape.routing with
  | arc | ref => rfl
  | pinned => exact pinnedTicks_eq hbatch hfuel

end Pinned

/-! ## All routings -/

/-- **Routing.** From every generator state a reader of any routing and batch size handles exactly its ticks: the same
requests, all in range, and the same misses wherever the partitions do not change. -/
theorem routing_agrees (checks : Bool) (shape : Shape) (hpartitions : 1 ≤ shape.partitions)
    (hrows : 1 ≤ shape.rowsPerPartition) (reader : UInt64)
    (hreader : checks = true → shape.spread = .spread → reader.toNat + shape.partitions.toNat ≤ 2 ^ 64) (rng : Rng)
    (ticksPerReader : UInt64) :
    ∃ requests rng', requests.length = ticksPerReader.toNat ∧
      (∀ r ∈ requests, r.1 < shape.partitions ∧ r.2 < shape.rowsPerPartition) ∧
      ∀ routing batch fuel, 1 ≤ batch → ticksPerReader.toNat < fuel →
        (∀ lookup, ∃ missed, (readerTicks checks lookup fuel { shape with routing := routing, batch := batch } reader
          ticksPerReader).run rng = some (⟨requests, missed⟩, rng')) ∧
        ∀ set : UInt16 → Bool, (readerTicks checks (fun _ => set) fuel
          { shape with routing := routing, batch := batch } reader ticksPerReader).run rng =
            some (⟨requests, requests.countP fun r => !set r.1⟩, rng') := by
  obtain ⟨requests, rng', hlen, hrange, hrun⟩ :=
    turns_handle (nextTick_total hpartitions hrows hreader) ticksPerReader.toNat rng
  refine ⟨requests, rng', hlen, hrange, fun routing batch fuel hbatch hfuel => ?_⟩
  have hreaders : ∀ lookup, (readerTicks checks lookup fuel { shape with routing := routing, batch := batch } reader
      ticksPerReader).run rng = some (⟨requests, misses lookup 0 requests⟩, rng') := fun lookup => by
    rw [readerTicks_eq hbatch hfuel]
    exact (hrun lookup ⟨[], 0⟩).trans (by rw [Nat.zero_add]; rfl)
  exact ⟨fun lookup => ⟨_, hreaders lookup⟩, fun set => by rw [hreaders, misses_const]⟩

/-- five ticks of reader 1 over three partitions, in batches of two -/
theorem routing_agrees_five : ∃ requests rng', requests.length = 5 ∧
    (readerTicks true (fun _ symbol => symbol != 2) 6 ⟨3, 4, .pinned, .spread, 2⟩ 1 5).run (Rng.new 2) =
      some (⟨requests, requests.countP fun r => !(r.1 != 2)⟩, rng') :=
  (routing_agrees true ⟨3, 4, .arc, .spread, 32⟩ (by decide) (by decide) 1 (by decide) (Rng.new 2) 5).imp
    fun _ h => h.imp fun _ h => ⟨h.1, (h.2.2 .pinned 2 6 (by decide) (by decide)).2 _⟩

end WtBenchmarks.PartitionTicks
