/-
The resident lookup comparison (`src/moe_resident.rs`, `src/bin/moe-resident-index-ab.rs`).

Six tables, from a linear scan to WorkTable with three indexes, are built from the same rows and asked for the same
keys. Their digests must agree, on a first part of the keys before anything is timed and on all of them in every timed
pass. What a table does is a parameter; that it keeps the rows it is given is a hypothesis.

- `build_holds`, `build_fails`: when a fixture can be built, and what the table answers then;
- `queryKeys_some`: the keys asked for are keys of the fixture;
- `main_of_answers`: the run returns exactly if all tables add up the same digests, and it then has one sample of each
  arm from each round;
- `index_ab_agrees`: faithful tables are compared to the end;
- `index_ab_notices`: when a run notices that one of the tables returns two rows under each other's keys.
-/
import WtBenchmarks.Core.OrderStatistics
import WtBenchmarks.Core.RoundRobin
import WtBenchmarks.MoeResident.Rows
import WtBenchmarks.Rng

namespace WtBenchmarks.MoeResident

open Aggregate

/-! ## Model -/

/-- a table of the comparison -/
structure Engine (S : Type) where
  withCapacity : S
  insert : S → UInt64 → OriginValue → Option S
  select : S → UInt64 → Option OriginValue

inductive Arm where
  | linear
  | btree
  | arcticVec
  | worktableArctic
  | worktableWti
  | worktableCongee
deriving DecidableEq, Repr

def Arm.all : List Arm := [.linear, .btree, .arcticVec, .worktableArctic, .worktableWti, .worktableCongee]

structure Tables (S : Arm → Type) where
  linear : S .linear
  btree : S .btree
  arcticVec : S .arcticVec
  worktableArctic : S .worktableArctic
  worktableWti : S .worktableWti
  worktableCongee : S .worktableCongee

def Tables.get {S : Arm → Type} (tables : Tables S) : ∀ arm, S arm
  | .linear => tables.linear
  | .btree => tables.btree
  | .arcticVec => tables.arcticVec
  | .worktableArctic => tables.worktableArctic
  | .worktableWti => tables.worktableWti
  | .worktableCongee => tables.worktableCongee

section Table

variable {S : Type} (E : Engine S)

/-- one table of `build` -/
def buildTable (rows : List (UInt64 × OriginValue)) : Option S :=
  rows.foldlM (fun table row => E.insert table row.1 row.2) E.withCapacity

/-- `query_linear` and the other passes -/
def query (table : S) (keys : List UInt64) : Option UInt64 :=
  keys.foldlM (fun total key => do
    let value ← E.select table key
    pure (total + checksum value)) 0

end Table

def build {S : Arm → Type} (E : ∀ arm, Engine (S arm)) (rowCount : ℕ) : Option (Tables S) := do
  let rows := logicalRows rowCount
  let linear ← buildTable (E .linear) rows
  let btree ← buildTable (E .btree) rows
  let arcticVec ← buildTable (E .arcticVec) rows
  let worktableArctic ← buildTable (E .worktableArctic) rows
  let worktableWti ← buildTable (E .worktableWti) rows
  let worktableCongee ← buildTable (E .worktableCongee) rows
  pure { linear, btree, arcticVec, worktableArctic, worktableWti, worktableCongee }

/-- one key of `query_keys` -/
def queryKey (rows : List (UInt64 × OriginValue)) : Draw UInt64 := do
  let index ← Rng.below (UInt64.ofNat rows.length)
  let row ← rows[index.toNat]?
  pure row.1

def queryKeys (rowCount queries : ℕ) : Option (List UInt64) :=
  StateT.run' ((List.range queries).mapM fun _ => queryKey (logicalRows rowCount)) (Rng.new 0x0A11C71C)

/-- the five figures of a sample -/
def stats (values : List ℕ) : Option (List ℕ) :=
  let values := OrderStatistics.ascending values
  [0, values.length / 4, values.length / 2, values.length * 3 / 4, values.length - 1].mapM (values[·]?)

structure Measured where
  checksum : Option UInt64
  samples : Arm → List ℕ

/-- what the binary prints: the common digest, and the figures of each arm -/
structure Report where
  checksum : UInt64
  figures : List (List ℕ)
deriving DecidableEq, Repr

section Program

variable {S : Arm → Type} (E : ∀ arm, Engine (S arm)) (elapsed : ℕ → Arm → ℕ)

/-- the digests of a first part of the keys are compared with the linear scan's -/
def warm (tables : Tables S) (keys : List UInt64) : Option Unit := do
  let expected ← query (E .linear) tables.linear keys
  [Arm.btree, .arcticVec, .worktableArctic, .worktableWti, .worktableCongee].foldlM (fun _ arm => do
    let measured ← query (E arm) (tables.get arm) keys
    guard (measured = expected)) ()

/-- a timed pass; it is compared with the first one -/
def measure (tables : Tables S) (keys : List UInt64) (round : ℕ) (m : Measured) (arm : Arm) : Option Measured := do
  let measurement ← query (E arm) (tables.get arm) keys
  let checksum ← match m.checksum with
    | some expected => do
      guard (measurement = expected)
      pure expected
    | none => pure measurement
  pure ⟨some checksum, Function.update m.samples arm (m.samples arm ++ [elapsed round arm])⟩

/-- the timed passes: in each round every arm, beginning with another one -/
def rounds (tables : Tables S) (keys : List UInt64) (samples : ℕ) : Option Measured :=
  (List.range samples).foldlM (fun m round =>
    (List.range Arm.all.length).foldlM (fun m offset => do
      measure E elapsed tables keys round m (← Arm.all[(round + offset) % Arm.all.length]?)) m) ⟨none, fun _ => []⟩

/-- the body of `main` over the six arms, `elapsed` being what the clock shows -/
def main (rowCount queries samples : ℕ) : Option Report := do
  let tables ← build E rowCount
  let keys ← queryKeys rowCount queries
  guard (10000 ≤ keys.length)
  warm E tables (keys.take 10000)
  let measured ← rounds E elapsed tables keys samples
  let checksum ← measured.checksum
  let figures ← Arm.all.mapM fun arm => stats (measured.samples arm)
  pure ⟨checksum, figures⟩

end Program

/-! ## Faithful tables -/

/-- the table keeps the rows it is given, and refuses a key it has -/
structure Engine.Faithful {S : Type} (E : Engine S) : Prop where
  withCapacity : ∀ k, E.select E.withCapacity k = none
  insert : ∀ s k v, E.select s k = none →
    ∃ s', E.insert s k v = some s' ∧ ∀ j, E.select s' j = if k = j then some v else E.select s j
  refuses : ∀ s k v w, E.select s k = some w → E.insert s k v = none

/-- the table answers with these rows -/
def Engine.Holds {S : Type} (E : Engine S) (table : S) (rows : List (UInt64 × OriginValue)) : Prop :=
  ∀ k v, E.select table k = some v ↔ (k, v) ∈ rows

/-- a vector that is scanned from the front -/
def linearTable : Engine (List (UInt64 × OriginValue)) where
  withCapacity := []
  insert rows k v := if (rows.find? fun r => r.1 == k).isSome then none else some (rows ++ [(k, v)])
  select rows k := (rows.find? fun r => r.1 == k).map Prod.snd

theorem linearTable_faithful : linearTable.Faithful where
  withCapacity _ := rfl
  insert rows k v hnone := by
    have hfind : rows.find? (fun r => r.1 == k) = none := Option.map_eq_none_iff.1 hnone
    refine ⟨rows ++ [(k, v)], by simp [linearTable, hfind], fun j => ?_⟩
    simp only [linearTable, List.find?_append]
    by_cases hj : k = j
    · subst hj
      simp [hfind]
    · have hother : [(k, v)].find? (fun r => r.1 == j) = none := by simp [hj]
      rw [hother, Option.or_none, if_neg hj]
  refuses rows k v w hsome := by
    obtain ⟨r, hr, -⟩ := Option.map_eq_some_iff.1 hsome
    simp [linearTable, hr]

section Build

variable {S : Type} {E : Engine S} {table : S} {rows : List (UInt64 × OriginValue)}

theorem select_none (h : E.Holds table rows) {k : UInt64} (hk : k ∉ rows.map Prod.fst) : E.select table k = none := by
  refine Option.eq_none_iff_forall_ne_some.2 fun v hv => hk ?_
  exact List.mem_map_of_mem ((h k v).1 hv)

variable (hE : E.Faithful)
include hE

theorem insert_holds (h : E.Holds table rows) {k : UInt64} (v : OriginValue) (hk : k ∉ rows.map Prod.fst) :
    ∃ table', E.insert table k v = some table' ∧ E.Holds table' (rows ++ [(k, v)]) := by
  have hnone := select_none h hk
  obtain ⟨table', hinsert, hselect⟩ := hE.insert table k v hnone
  refine ⟨table', hinsert, fun j w => ?_⟩
  rw [hselect, List.mem_append, List.mem_singleton, Prod.mk.injEq]
  split_ifs with hj
  · subst hj
    have hnew : (k, w) ∉ rows := fun hmem => hk (List.mem_map_of_mem hmem)
    simp [hnew, eq_comm]
  · rw [h j w]
    simp [Ne.symm hj]

theorem insert_none (h : E.Holds table rows) {k : UInt64} (v : OriginValue) (hk : k ∈ rows.map Prod.fst) :
    E.insert table k v = none := by
  obtain ⟨r, hr, rfl⟩ := List.mem_map.1 hk
  exact hE.refuses table r.1 v r.2 ((h r.1 r.2).2 hr)

/-- what a table that has been built holds, and that its keys differ -/
theorem buildTable_holds (hbuild : buildTable E rows = some table) :
    E.Holds table rows ∧ (rows.map Prod.fst).Nodup := by
  refine foldlM_history (I := fun done table => E.Holds table done ∧ (done.map Prod.fst).Nodup) ?_ ?_ hbuild
  · exact ⟨fun k v => by simp [hE.withCapacity], List.nodup_nil⟩
  · rintro done r s s' ⟨hholds, hnodup⟩ hinsert
    by_cases hr : r.1 ∈ done.map Prod.fst
    · rw [insert_none hE hholds r.2 hr] at hinsert
      cases hinsert
    · obtain ⟨s'', hinsert', hholds'⟩ := insert_holds hE hholds r.2 hr
      rw [hinsert] at hinsert'
      cases hinsert'
      refine ⟨hholds', ?_⟩
      rw [List.map_append, List.nodup_append']
      exact ⟨hnodup, List.nodup_singleton _, by simpa using hr⟩

theorem buildTable_some (hnodup : (rows.map Prod.fst).Nodup) : ∃ table, buildTable E rows = some table := by
  suffices h : ∀ (done rest : List (UInt64 × OriginValue)) (s : S), ((done ++ rest).map Prod.fst).Nodup →
      E.Holds s done → ∃ table, rest.foldlM (fun table row => E.insert table row.1 row.2) s = some table from
    h [] rows _ hnodup fun k v => by simp [hE.withCapacity]
  intro done rest
  induction rest generalizing done with
  | nil => exact fun s _ _ => ⟨s, rfl⟩
  | cons r rest ih =>
    intro s hnodup hs
    have hr : r.1 ∉ done.map Prod.fst := by
      rw [List.map_append, List.nodup_append'] at hnodup
      exact fun hmem => hnodup.2.2 hmem (List.mem_map_of_mem List.mem_cons_self)
    obtain ⟨s', hinsert, hs'⟩ := insert_holds hE hs r.2 hr
    obtain ⟨table, hrest⟩ := ih (done ++ [r]) s' (by rwa [List.append_assoc]) hs'
    exact ⟨table, by rw [List.foldlM_cons, hinsert]; exact hrest⟩

end Build

section Fixture

variable {S : Arm → Type} {E : ∀ arm, Engine (S arm)} (hE : ∀ arm, (E arm).Faithful) {rowCount : ℕ}
include hE

/-- **Building.** A fixture whose keys differ is built; the tables answer with its rows. -/
theorem build_holds (h : rowCount ≤ 122 * 2 ^ 32) :
    ∃ tables, build E rowCount = some tables ∧ ∀ arm, (E arm).Holds (tables.get arm) (logicalRows rowCount) := by
  have hnodup := (keys_nodup_iff rowCount).2 h
  obtain ⟨linear, hlinear⟩ := buildTable_some (hE .linear) hnodup
  obtain ⟨btree, hbtree⟩ := buildTable_some (hE .btree) hnodup
  obtain ⟨arcticVec, harcticVec⟩ := buildTable_some (hE .arcticVec) hnodup
  obtain ⟨worktableArctic, hworktableArctic⟩ := buildTable_some (hE .worktableArctic) hnodup
  obtain ⟨worktableWti, hworktableWti⟩ := buildTable_some (hE .worktableWti) hnodup
  obtain ⟨worktableCongee, hworktableCongee⟩ := buildTable_some (hE .worktableCongee) hnodup
  refine ⟨⟨linear, btree, arcticVec, worktableArctic, worktableWti, worktableCongee⟩, ?_, fun arm => ?_⟩
  · simp [build, hlinear, hbtree, harcticVec, hworktableArctic, hworktableWti, hworktableCongee]
  · cases arm with
    | linear => exact (buildTable_holds (hE .linear) hlinear).1
    | btree => exact (buildTable_holds (hE .btree) hbtree).1
    | arcticVec => exact (buildTable_holds (hE .arcticVec) harcticVec).1
    | worktableArctic => exact (buildTable_holds (hE .worktableArctic) hworktableArctic).1
    | worktableWti => exact (buildTable_holds (hE .worktableWti) hworktableWti).1
    | worktableCongee => exact (buildTable_holds (hE .worktableCongee) hworktableCongee).1

/-- a fixture with a repeated key is not -/
theorem build_fails (h : 122 * 2 ^ 32 < rowCount) : build E rowCount = none := by
  have hlinear : buildTable (E .linear) (logicalRows rowCount) = none := by
    refine Option.eq_none_iff_forall_ne_some.2 fun table htable => ?_
    exact absurd ((keys_nodup_iff rowCount).1 (buildTable_holds (hE .linear) htable).2) (by omega)
  simp [build, hlinear]

end Fixture

/-! ## Keys and answers -/

/-- the key and the value of a row of the fixture -/
def keyAt (rowCount index : ℕ) : UInt64 := (logicalRow index rowCount).1

def valueAt (rowCount index : ℕ) : OriginValue := (logicalRow index rowCount).2

/-- a fixture too large for its keys has two rows with one -/
theorem exists_same_key {rowCount : ℕ} (h : 122 * 2 ^ 32 < rowCount) :
    ∃ i < rowCount, ∃ j < rowCount, i ≠ j ∧ keyAt rowCount i = keyAt rowCount j := by
  by_contra hnone
  have hinj : ∀ i < rowCount, ∀ j < rowCount, keyAt rowCount i = keyAt rowCount j → i = j := by
    intro i hi j hj hkey
    by_contra hne
    exact hnone ⟨i, hi, j, hj, hne, hkey⟩
  have hnodup : ((logicalRows rowCount).map Prod.fst).Nodup := by
    rw [logicalRows, List.map_map]
    exact List.nodup_range.map_on fun i hi j hj => hinj i (List.mem_range.1 hi) j (List.mem_range.1 hj)
  exact absurd ((keys_nodup_iff rowCount).1 hnodup) (Nat.not_le.2 h)

theorem queryKey_total {rowCount : ℕ} (h : 0 < rowCount) (hfit : rowCount < 2 ^ 64) :
    Total (fun k => ∃ i < rowCount, keyAt rowCount i = k) (queryKey (logicalRows rowCount)) := by
  have hpos : 0 < UInt64.ofNat (logicalRows rowCount).length := by
    rw [length_logicalRows, UInt64.lt_iff_toNat_lt, ofNat_toNat_of_lt hfit]
    exact h
  refine (Rng.below_total _ hpos).bind fun index hindex => ?_
  rw [length_logicalRows, UInt64.lt_iff_toNat_lt, ofNat_toNat_of_lt hfit] at hindex
  refine (Total.lift (P := fun r => r = logicalRow index.toNat rowCount) ⟨_, ?_, rfl⟩).bind fun r hr => ?_
  · rw [logicalRows, List.getElem?_map, List.getElem?_range hindex]
    rfl
  · exact Total.pure ⟨index.toNat, hindex, by rw [hr]; rfl⟩

/-- **The keys asked for** are keys of the fixture. -/
theorem queryKeys_some {rowCount : ℕ} (h : 0 < rowCount) (hfit : rowCount < 2 ^ 64) (queries : ℕ) :
    ∃ indexes : List ℕ, queryKeys rowCount queries = some (indexes.map (keyAt rowCount)) ∧
      indexes.length = queries ∧ ∀ i ∈ indexes, i < rowCount := by
  obtain ⟨keys, rng, hrun, hkeys⟩ :=
    Total.mapM (List.range queries) (fun _ _ => queryKey_total h hfit) (Rng.new 0x0A11C71C)
  have hpre : ∃ indexes : List ℕ, indexes.map (keyAt rowCount) = keys ∧ ∀ i ∈ indexes, i < rowCount := by
    clear hrun
    generalize List.range queries = turns at hkeys
    induction hkeys with
    | nil => exact ⟨[], rfl, fun _ hi => absurd hi List.not_mem_nil⟩
    | cons hkey _ ih =>
      obtain ⟨i, hi, hkey⟩ := hkey
      obtain ⟨indexes, hmap, hlt⟩ := ih
      exact ⟨i :: indexes, by rw [List.map_cons, hkey, hmap], List.forall_mem_cons.2 ⟨hi, hlt⟩⟩
  obtain ⟨indexes, rfl, hlt⟩ := hpre
  refine ⟨indexes, by rw [queryKeys, StateT.run'_eq, hrun]; rfl, ?_, hlt⟩
  have hlen := hkeys.length_eq
  rw [List.length_range, List.length_map] at hlen
  exact hlen.symm

/-- what a pass adds up -/
theorem query_eq {S : Type} {E : Engine S} {table : S} (rowCount : ℕ) (f : ℕ → OriginValue) (indexes : List ℕ)
    (h : ∀ i ∈ indexes, E.select table (keyAt rowCount i) = some (f i)) :
    query E table (indexes.map (keyAt rowCount)) = some (total (fun i => checksum (f i)) indexes) := by
  rw [query, List.foldlM_map,
    foldlM_eq_some (g := fun sum i => sum + checksum (f i)) indexes (fun sum i hi => by rw [h i hi]; rfl),
    foldl_total, zero_add]

/-! ## The run -/

theorem Arm.mem_all (arm : Arm) : arm ∈ Arm.all := by cases arm <;> decide

section Run

variable {S : Arm → Type} {E : ∀ arm, Engine (S arm)} {elapsed : ℕ → Arm → ℕ} {tables : Tables S} {keys : List UInt64}
  {sum : Arm → UInt64} (hsum : ∀ arm, query (E arm) (tables.get arm) keys = some (sum arm))
include hsum

theorem warm_some (h : ∀ arm, sum arm = sum .linear) : warm E tables keys = some () := by
  have hlinear : query (E .linear) tables.linear keys = some (sum .linear) := hsum .linear
  rw [warm, hlinear]
  exact foldlM_fixed _ fun arm _ => by simp [hsum arm, h arm, guard]

theorem warm_none {arm : Arm} (h : sum arm ≠ sum .linear) : warm E tables keys = none := by
  have hlinear : query (E .linear) tables.linear keys = some (sum .linear) := hsum .linear
  rw [warm, hlinear, Option.bind_eq_bind, Option.bind_some]
  apply foldlM_eq_none (k := arm)
  · cases arm with
    | linear => exact absurd rfl h
    | _ => simp
  · intro _
    simp [hsum arm, h, guard]

/-- the samples after a timed pass -/
def pushed (elapsed : ℕ → Arm → ℕ) (round : ℕ) (arms : List Arm) (samples : Arm → List ℕ) (arm : Arm) : List ℕ :=
  samples arm ++ if arm ∈ arms then [elapsed round arm] else []

/-- timed passes over tables that agree -/
theorem passes_some {c : UInt64} (hc : ∀ arm, sum arm = c) (round : ℕ) (arms : List Arm) (hnodup : arms.Nodup)
    (m : Measured) (hm : m.checksum = none ∨ m.checksum = some c) :
    arms.foldlM (measure E elapsed tables keys round) m =
      some ⟨if arms = [] then m.checksum else some c, pushed elapsed round arms m.samples⟩ := by
  induction arms generalizing m with
  | nil =>
    have hsame : pushed elapsed round [] m.samples = m.samples := by
      funext arm
      simp [pushed]
    rw [if_pos rfl, hsame]
    rfl
  | cons arm arms ih =>
    obtain ⟨hnew, hnodup⟩ := List.nodup_cons.1 hnodup
    have hpass : measure E elapsed tables keys round m arm =
        some ⟨some c, Function.update m.samples arm (m.samples arm ++ [elapsed round arm])⟩ := by
      rcases hm with hm | hm <;> simp [measure, hsum arm, hm, hc arm, guard]
    rw [List.foldlM_cons, hpass, Option.bind_eq_bind, Option.bind_some, ih hnodup _ (Or.inr rfl), ite_self,
      if_neg (List.cons_ne_nil _ _)]
    congr 2
    funext arm'
    by_cases h : arm' = arm
    · subst h
      simp [pushed, hnew]
    · simp [pushed, h]

/-- a timed pass over a table that disagrees -/
theorem passes_none {c : UInt64} {arm : Arm} (hne : sum arm ≠ c) (round : ℕ) (arms : List Arm) (harm : arm ∈ arms)
    (m : Measured) (hm : m.checksum = some c) : arms.foldlM (measure E elapsed tables keys round) m = none := by
  induction arms generalizing m with
  | nil => cases harm
  | cons first arms ih =>
    by_cases hfirst : sum first = c
    · have hpass : measure E elapsed tables keys round m first =
          some ⟨some c, Function.update m.samples first (m.samples first ++ [elapsed round first])⟩ := by
        simp [measure, hsum first, hm, hfirst, guard]
      rw [List.foldlM_cons, hpass]
      exact ih ((List.mem_cons.1 harm).resolve_left fun h => hne (h ▸ hfirst)) _ rfl
    · have hpass : measure E elapsed tables keys round m first = none := by
        simp [measure, hsum first, hm, hfirst, guard]
      rw [List.foldlM_cons, hpass]
      rfl

variable (elapsed) in
/-- **The timed rounds** over tables that agree: one sample of each arm from each round. -/
theorem rounds_some {c : UInt64} (hc : ∀ arm, sum arm = c) (samples : ℕ) :
    rounds E elapsed tables keys samples = some
      ⟨if samples = 0 then none else some c, fun arm => (List.range samples).map fun round => elapsed round arm⟩ := by
  simp only [rounds, RoundRobin.foldlM_rotate]
  induction samples with
  | zero => rfl
  | succ samples ih =>
    have hnodup : (Arm.all.rotate samples).Nodup := List.nodup_rotate.2 (by decide)
    have hcons : Arm.all.rotate samples ≠ [] := fun h => absurd (List.rotate_eq_nil_iff.1 h) (by decide)
    rw [List.range_succ, List.foldlM_append, ih, Option.bind_eq_bind, Option.bind_some, List.foldlM_cons,
      passes_some hsum hc samples _ hnodup _ (by split_ifs <;> simp), if_neg hcons, if_neg (Nat.succ_ne_zero _),
      Option.bind_eq_bind, Option.bind_some, List.foldlM_nil]
    refine congrArg some (congrArg _ ?_)
    funext arm
    simp [pushed, Arm.mem_all]

/-- over tables that do not, the first round stops -/
theorem rounds_none {arm : Arm} (hne : sum arm ≠ sum .linear) {samples : ℕ} (hsamples : 0 < samples) :
    rounds E elapsed tables keys samples = none := by
  obtain ⟨n, rfl⟩ := Nat.exists_eq_add_of_lt hsamples
  have hfirst : measure E elapsed tables keys 0 ⟨none, fun _ => []⟩ .linear =
      some ⟨some (sum .linear), Function.update (fun _ => []) .linear [elapsed 0 .linear]⟩ := by
    simp [measure, hsum .linear]
  have hrest : arm ∈ Arm.all.tail := by
    cases arm with
    | linear => exact absurd rfl hne
    | _ => decide
  simp only [rounds, RoundRobin.foldlM_rotate]
  rw [Nat.zero_add, Nat.add_comm, List.range_add, List.foldlM_append]
  have hround : (Arm.all.rotate 0).foldlM (measure E elapsed tables keys 0) ⟨none, fun _ => []⟩ = none := by
    rw [List.rotate_zero, show Arm.all = .linear :: Arm.all.tail from rfl, List.foldlM_cons, hfirst]
    exact passes_none hsum hne 0 _ hrest _ rfl
  rw [show List.range 1 = [0] from rfl, List.foldlM_cons, hround]
  rfl

end Run

/-! ## Figures -/

/-- five figures of some samples: ordered, sampled, and with the least and the greatest sample at the ends -/
structure Figures (values figures : List ℕ) : Prop where
  length : figures.length = 5
  sorted : figures.Pairwise (· ≤ ·)
  sampled : ∀ x ∈ figures, x ∈ values
  bounds : ∀ v ∈ values, (∀ lo ∈ figures.head?, lo ≤ v) ∧ ∀ hi ∈ figures.getLast?, v ≤ hi

theorem stats_figures {values : List ℕ} (h : values ≠ []) :
    ∃ figures, stats values = some figures ∧ Figures values figures := by
  have hlen : 0 < values.length := List.length_pos_iff.2 h
  obtain ⟨a, hmema, ha⟩ := OrderStatistics.exists_at_rank (l := values) (i := 0) hlen
  obtain ⟨b, hmemb, hb⟩ := OrderStatistics.exists_at_rank (l := values) (i := values.length / 4) (by omega)
  obtain ⟨c, hmemc, hc⟩ := OrderStatistics.exists_at_rank (l := values) (i := values.length / 2) (by omega)
  obtain ⟨d, hmemd, hd⟩ := OrderStatistics.exists_at_rank (l := values) (i := values.length * 3 / 4) (by omega)
  obtain ⟨e, hmeme, he⟩ := OrderStatistics.exists_at_rank (l := values) (i := values.length - 1) (by omega)
  have hab := OrderStatistics.ascending_le (Nat.zero_le _) ha hb
  have hbc := OrderStatistics.ascending_le (by omega) hb hc
  have hcd := OrderStatistics.ascending_le (by omega) hc hd
  have hde := OrderStatistics.ascending_le (by omega) hd he
  refine ⟨[a, b, c, d, e], ?_, rfl, ?_, ?_, fun v hv => ?_⟩
  · simp [stats, ha, hb, hc, hd, he]
  · simp only [List.pairwise_cons, List.mem_cons, List.not_mem_nil, or_false, forall_eq_or_imp, forall_eq,
      List.Pairwise.nil, and_true, IsEmpty.forall_iff, implies_true]
    omega
  · simp only [List.mem_cons, List.not_mem_nil, or_false]
    rintro x (rfl | rfl | rfl | rfl | rfl) <;> assumption
  · obtain ⟨i, hi, hget⟩ := List.getElem_of_mem (OrderStatistics.mem_ascending.2 hv)
    have hrank : (OrderStatistics.ascending values)[i]? = some v := hget ▸ List.getElem?_eq_getElem hi
    rw [OrderStatistics.ascending_length] at hi
    constructor
    · rintro lo ⟨⟩
      exact OrderStatistics.ascending_le (Nat.zero_le _) ha hrank
    · rintro hi ⟨⟩
      exact OrderStatistics.ascending_le (by omega) hrank he

/-! ## What a run shows -/

section Main

variable {S : Arm → Type} {E : ∀ arm, Engine (S arm)} {elapsed : ℕ → Arm → ℕ} {rowCount queries samples : ℕ}

/-- the digests a run compares -/
structure Answers (E : ∀ arm, Engine (S arm)) (rowCount queries : ℕ) (first sum : Arm → UInt64) : Prop where
  tables : ∃ tables keys, build E rowCount = some tables ∧ queryKeys rowCount queries = some keys ∧
    10000 ≤ keys.length ∧ ∀ arm, query (E arm) (tables.get arm) (keys.take 10000) = some (first arm) ∧
      query (E arm) (tables.get arm) keys = some (sum arm)

variable (elapsed) in
/-- **A run** is decided by the digests of the tables. -/
theorem main_of_answers {first sum : Arm → UInt64} (h : Answers E rowCount queries first sum) (hsamples : 0 < samples) :
    ((∀ arm, first arm = first .linear ∧ sum arm = sum .linear) →
      ∃ figures, main E elapsed rowCount queries samples = some ⟨sum .linear, figures⟩ ∧
        List.Forall₂ (fun arm => Figures ((List.range samples).map fun round => elapsed round arm)) Arm.all figures) ∧
    ((∃ arm, first arm ≠ first .linear ∨ sum arm ≠ sum .linear) → main E elapsed rowCount queries samples = none) := by
  obtain ⟨tables, keys, hbuild, hkeys, hlen, hquery⟩ := h.tables
  have hfirst := fun arm => (hquery arm).1
  have hsum := fun arm => (hquery arm).2
  refine ⟨fun hsame => ?_, fun hdiffer => ?_⟩
  · have hwarm := warm_some hfirst fun arm => (hsame arm).1
    have hrounds := rounds_some elapsed hsum (fun arm => (hsame arm).2) samples
    have hvalues : ∀ arm : Arm, ((List.range samples).map fun round => elapsed round arm) ≠ [] := by
      intro arm h
      rw [List.map_eq_nil_iff, List.range_eq_nil] at h
      omega
    choose figures hstats hfigures using fun arm => stats_figures (hvalues arm)
    refine ⟨Arm.all.map figures, ?_, ?_⟩
    · have hreport := mapM_eq_some Arm.all fun arm _ => hstats arm
      rw [if_neg hsamples.ne'] at hrounds
      simp only [main, hbuild, hkeys, Option.bind_eq_bind, Option.bind_some, guard, if_pos hlen, hwarm, hrounds,
        hreport, pure]
    · exact List.forall₂_map_right_iff.2 (List.forall₂_same.2 fun arm _ => hfigures arm)
  · obtain ⟨arm, hne | hne⟩ := hdiffer
    · simp only [main, hbuild, hkeys, Option.bind_eq_bind, Option.bind_some, guard, if_pos hlen, warm_none hfirst hne,
        Option.bind_none, pure]
    · simp only [main, hbuild, hkeys, Option.bind_eq_bind, Option.bind_some, guard, if_pos hlen,
        rounds_none hsum hne hsamples, Option.bind_none, pure, Option.bind_fun_none]

/-- **Faithful tables agree.** The run compares them to the end and prints the digest of the rows asked for, unless two
rows of the fixture have one key, when no table is built. -/
theorem index_ab_agrees (hE : ∀ arm, (E arm).Faithful) (elapsed : ℕ → Arm → ℕ) (hrows : 0 < rowCount)
    (hqueries : 10000 ≤ queries) (hsamples : 0 < samples) :
    (122 * 2 ^ 32 < rowCount →
      (∃ i < rowCount, ∃ j < rowCount, i ≠ j ∧ keyAt rowCount i = keyAt rowCount j) ∧
        build E rowCount = none ∧ main E elapsed rowCount queries samples = none) ∧
    (rowCount ≤ 122 * 2 ^ 32 →
      ∃ tables, build E rowCount = some tables ∧ (∀ arm, (E arm).Holds (tables.get arm) (logicalRows rowCount)) ∧
        ∃ (indexes : List ℕ) (figures : List (List ℕ)), indexes.length = queries ∧ (∀ i ∈ indexes, i < rowCount) ∧
          queryKeys rowCount queries = some (indexes.map (keyAt rowCount)) ∧
          main E elapsed rowCount queries samples =
            some ⟨total (fun i => checksum (valueAt rowCount i)) indexes, figures⟩ ∧
          List.Forall₂ (fun arm => Figures ((List.range samples).map fun round => elapsed round arm)) Arm.all
            figures) := by
  refine ⟨fun hmany => ?_, fun hfit => ?_⟩
  · have hbuild := build_fails hE hmany
    refine ⟨exists_same_key hmany, hbuild, ?_⟩
    rw [main, hbuild]
    rfl
  · obtain ⟨tables, hbuild, hholds⟩ := build_holds hE hfit
    obtain ⟨indexes, hkeys, hlen, hlt⟩ := queryKeys_some hrows (by omega) queries
    have hselect : ∀ arm, ∀ i ∈ indexes,
        (E arm).select (tables.get arm) (keyAt rowCount i) = some (valueAt rowCount i) :=
      fun arm i hi => (hholds arm _ _).2 (mem_logicalRows.2 ⟨i, hlt i hi, rfl⟩)
    have hanswers : Answers E rowCount queries
        (fun _ => total (fun i => checksum (valueAt rowCount i)) (indexes.take 10000))
        (fun _ => total (fun i => checksum (valueAt rowCount i)) indexes) := by
      refine ⟨tables, _, hbuild, hkeys, by rw [List.length_map]; omega, fun arm => ⟨?_, ?_⟩⟩
      · rw [← List.map_take]
        exact query_eq rowCount _ _ fun i hi => hselect arm i (List.mem_of_mem_take hi)
      · exact query_eq rowCount _ _ (hselect arm)
    obtain ⟨figures, hmain, hfigures⟩ := (main_of_answers elapsed hanswers hsamples).1 fun _ => ⟨rfl, rfl⟩
    exact ⟨tables, hbuild, hholds, indexes, figures, hlen, hlt, hkeys, hmain, hfigures⟩

/-- six linear scans of the fixture of the binary -/
theorem index_ab_agrees_scans :
    ∃ tables, build (fun _ => linearTable) 1528 = some tables ∧
      (∀ arm : Arm, linearTable.Holds (tables.get arm) (logicalRows 1528)) ∧
      ∃ (indexes : List ℕ) (figures : List (List ℕ)), indexes.length = 8000000 ∧ (∀ i ∈ indexes, i < 1528) ∧
        queryKeys 1528 8000000 = some (indexes.map (keyAt 1528)) ∧
        main (fun _ => linearTable) (fun round _ => round) 1528 8000000 9 =
          some ⟨total (fun i => checksum (valueAt 1528 i)) indexes, figures⟩ ∧
        List.Forall₂ (fun _ => Figures ((List.range 9).map fun round => round)) Arm.all figures :=
  (index_ab_agrees (fun _ => linearTable_faithful) (fun round _ => round) (by decide) (by decide) (by decide)).2
    (by decide)

/-! ## A table with two rows exchanged -/

/-- the table answers for each of two keys with the other's row -/
def Engine.swapped {S : Type} (E : Engine S) (k₁ k₂ : UInt64) : Engine S :=
  { E with select := fun table k => E.select table (Equiv.swap k₁ k₂ k) }

/-- one of the tables does so -/
def oneSwapped (E : ∀ arm, Engine (S arm)) (arm : Arm) (k₁ k₂ : UInt64) (arm' : Arm) : Engine (S arm') :=
  if arm' = arm then (E arm').swapped k₁ k₂ else E arm'

theorem build_oneSwapped (E : ∀ arm, Engine (S arm)) (arm : Arm) (k₁ k₂ : UInt64) (rowCount : ℕ) :
    build (oneSwapped E arm k₁ k₂) rowCount = build E rowCount := by
  have htable : ∀ arm' rows, buildTable (oneSwapped E arm k₁ k₂ arm') rows = buildTable (E arm') rows := by
    intro arm' rows
    unfold oneSwapped
    split_ifs <;> rfl
  simp only [build, htable]

theorem keyAt_swap {i j x : ℕ} (hfit : rowCount ≤ 122 * 2 ^ 32) (hi : i < rowCount) (hj : j < rowCount)
    (hx : x < rowCount) :
    Equiv.swap (keyAt rowCount i) (keyAt rowCount j) (keyAt rowCount x) = keyAt rowCount (Equiv.swap i j x) := by
  have hinj : ∀ {y z}, y < rowCount → z < rowCount → keyAt rowCount y = keyAt rowCount z → y = z := fun hy hz h =>
    logicalRow_key_inj (by omega) (by omega) h
  rw [Equiv.swap_apply_def, Equiv.swap_apply_def, apply_ite (keyAt rowCount), apply_ite (keyAt rowCount)]
  refine if_congr ⟨hinj hx hi, congrArg _⟩ rfl (if_congr ⟨hinj hx hj, congrArg _⟩ rfl rfl)

/-- how often a key is asked for -/
theorem count_keys {i : ℕ} (hfit : rowCount ≤ 122 * 2 ^ 32) (hi : i < rowCount) {indexes : List ℕ}
    (hlt : ∀ x ∈ indexes, x < rowCount) :
    (indexes.map (keyAt rowCount)).count (keyAt rowCount i) = indexes.count i := by
  rw [List.count, List.countP_map, List.count]
  refine List.countP_congr fun x hx => ?_
  have hx := hlt x hx
  simp only [Function.comp_apply, beq_iff_eq]
  exact ⟨fun h => logicalRow_key_inj (by omega) (by omega) h, congrArg _⟩

/-- **The digest of an exchange** differs exactly if the two rows are asked for differently often. -/
theorem total_swap_ne_iff {i j : ℕ} (hfit : rowCount ≤ 122 * 2 ^ 10) (hi : i < rowCount) (hj : j < rowCount)
    (hne : i ≠ j) {indexes : List ℕ} (hlen : indexes.length < 2 ^ 48) :
    total (fun x => checksum (valueAt rowCount (Equiv.swap i j x))) indexes ≠
      total (fun x => checksum (valueAt rowCount x)) indexes ↔ indexes.count i ≠ indexes.count j := by
  have hrows : ∀ k, ∀ r ∈ indexes.map fun x => (x, x), r.1 = k → r.2 = k := by
    intro k r hr h
    obtain ⟨x, -, rfl⟩ := List.mem_map.1 hr
    exact h
  have hnoticed := exchange_noticed (fun _ => (0 : UInt64)) (fun x => checksum (valueAt rowCount x)) hne (hrows i)
    (hrows j)
  have hkeys : (indexes.map fun x => (x, x)).map Prod.fst = indexes := by simp [Function.comp_def]
  have hswapped : total (fun x => checksum (valueAt rowCount (Equiv.swap i j x))) indexes =
      total (fun r => checksum (valueAt rowCount r.2) + 0)
        ((indexes.map fun x => (x, x)).map fun r => (r.1, exchange i j i j r.1 r.2)) := by
    simp [total, Function.comp_def, exchange, Equiv.swap_apply_def]
  have hplain : total (fun x => checksum (valueAt rowCount x)) indexes =
      total (fun r => checksum (valueAt rowCount r.2) + 0) (indexes.map fun x => (x, x)) := by
    simp [total, Function.comp_def]
  rw [hkeys] at hnoticed
  rw [hswapped, hplain, hnoticed, not_iff_not]
  constructor
  · intro h
    exact counts_eq (by omega) (by omega) (Ne.symm hne) (List.count_le_length.trans_lt hlen)
      (List.count_le_length.trans_lt hlen) h
  · intro h
    rw [h]

theorem exists_arm_ne_iff (arm : Arm) {x y : UInt64} :
    (∃ arm', (if arm' = arm then x else y) ≠ if Arm.linear = arm then x else y) ↔ x ≠ y := by
  constructor
  · rintro ⟨arm', h⟩ rfl
    simp at h
  · intro h
    by_cases harm : Arm.linear = arm
    · subst harm
      exact ⟨.btree, by simpa using h.symm⟩
    · exact ⟨arm, by simpa [harm] using h⟩

/-- **What a run notices.** One of the tables returns two rows under each other's keys: the run stops exactly if, in the
first part of the keys or in all of them, the two are asked for differently often. -/
theorem index_ab_notices (hE : ∀ arm, (E arm).Faithful) (elapsed : ℕ → Arm → ℕ) (hfit : rowCount ≤ 122 * 2 ^ 10)
    (hqueries : 10000 ≤ queries) (hfew : queries < 2 ^ 48) (hsamples : 0 < samples) (arm : Arm) {i j : ℕ}
    (hi : i < rowCount) (hj : j < rowCount) (hne : i ≠ j) :
    ∃ keys, queryKeys rowCount queries = some keys ∧
      (main (oneSwapped E arm (keyAt rowCount i) (keyAt rowCount j)) elapsed rowCount queries samples = none ↔
        (keys.take 10000).count (keyAt rowCount i) ≠ (keys.take 10000).count (keyAt rowCount j) ∨
          keys.count (keyAt rowCount i) ≠ keys.count (keyAt rowCount j)) := by
  have hfit' : rowCount ≤ 122 * 2 ^ 32 := by omega
  obtain ⟨tables, hbuild, hholds⟩ := build_holds hE hfit'
  obtain ⟨indexes, hkeys, hlen, hlt⟩ := queryKeys_some (show 0 < rowCount by omega) (by omega) queries
  refine ⟨_, hkeys, ?_⟩
  -- what each arm adds up over some of the keys
  let swapped (arm' : Arm) (part : List ℕ) : UInt64 :=
    total (fun x => checksum (valueAt rowCount (if arm' = arm then Equiv.swap i j x else x))) part
  have hselect : ∀ arm', ∀ x ∈ indexes,
      (oneSwapped E arm (keyAt rowCount i) (keyAt rowCount j) arm').select (tables.get arm') (keyAt rowCount x) =
        some (valueAt rowCount (if arm' = arm then Equiv.swap i j x else x)) := by
    intro arm' x hx
    have hrow : ∀ y < rowCount, (E arm').select (tables.get arm') (keyAt rowCount y) = some (valueAt rowCount y) :=
      fun y hy => (hholds arm' _ _).2 (mem_logicalRows.2 ⟨y, hy, rfl⟩)
    have hx := hlt x hx
    unfold oneSwapped
    split_ifs
    · show (E arm').select (tables.get arm') (Equiv.swap _ _ _) = _
      rw [keyAt_swap hfit' hi hj hx, hrow]
      rw [Equiv.swap_apply_def]
      split_ifs <;> assumption
    · exact hrow x hx
  have hanswers : Answers (oneSwapped E arm (keyAt rowCount i) (keyAt rowCount j)) rowCount queries
      (fun arm' => swapped arm' (indexes.take 10000)) (fun arm' => swapped arm' indexes) := by
    refine ⟨tables, _, (build_oneSwapped ..).trans hbuild, hkeys, by rw [List.length_map]; omega, fun arm' => ⟨?_, ?_⟩⟩
    · rw [← List.map_take]
      exact query_eq rowCount _ _ fun x hx => hselect arm' x (List.mem_of_mem_take hx)
    · exact query_eq rowCount _ _ (hselect arm')
  have hcounts : ∀ part : List ℕ, part.length < 2 ^ 48 → (∀ x ∈ part, x < rowCount) →
      ((∃ arm', swapped arm' part ≠ swapped .linear part) ↔
        (part.map (keyAt rowCount)).count (keyAt rowCount i) ≠
          (part.map (keyAt rowCount)).count (keyAt rowCount j)) := by
    intro part hlen hlt
    rw [count_keys hfit' hi hlt, count_keys hfit' hj hlt, ← total_swap_ne_iff hfit hi hj hne hlen,
      ← exists_arm_ne_iff arm]
    refine exists_congr fun arm' => ?_
    dsimp only [swapped]
    split_ifs <;> rfl
  obtain ⟨hagree, hstop⟩ := main_of_answers elapsed hanswers hsamples
  rw [← List.map_take, ← hcounts (indexes.take 10000) ((List.length_take_le _ _).trans_lt (by omega))
    fun x hx => hlt x (List.mem_of_mem_take hx), ← hcounts indexes (by omega) hlt, ← exists_or]
  refine ⟨fun hnone => ?_, hstop⟩
  by_contra hsame
  obtain ⟨figures, hsome, -⟩ := hagree fun arm' => by
    by_contra hdiffer
    exact hsame ⟨arm', not_and_or.1 hdiffer⟩
  rw [hnone] at hsome
  cases hsome

/-- the congee table of six scans returns the first two rows under each other's keys -/
theorem index_ab_notices_first :
    ∃ keys, queryKeys 1528 8000000 = some keys ∧
      (main (oneSwapped (fun _ => linearTable) .worktableCongee (keyAt 1528 0) (keyAt 1528 1)) (fun round _ => round)
          1528 8000000 9 = none ↔
        (keys.take 10000).count (keyAt 1528 0) ≠ (keys.take 10000).count (keyAt 1528 1) ∨
          keys.count (keyAt 1528 0) ≠ keys.count (keyAt 1528 1)) :=
  index_ab_notices (fun _ => linearTable_faithful) (fun round _ => round) (by decide) (by decide) (by decide)
    (by decide) .worktableCongee (by decide) (by decide) (by decide)

end Main

end WtBenchmarks.MoeResident
