/-
The versioned map of the MoE-PGO profile (`fill`, `republish`, `src/moe_pgo.rs`).

One publisher and any number of readers share a set of partitions and the word `current`. The publisher fills a new
version row by row, swaps `current` to it, removes the version it swapped out, and at the end raises `stop` and joins
the readers. A reader loads `current`, looks the version up, and selects a random neuron of the map it was handed.
Creating, looking up and removing a partition and inserting a row are atomic. Durations are left out.

- `PublisherInv`: which versions exist, and how far the new one is filled, at each point of the publishing loop.
- `ReaderInv`: a loaded version is still complete, or it was retired since.
- `republish_protocol`: every moment of every interleaving.
-/
import WtBenchmarks.Core.Threads
import WtBenchmarks.Core.TreeMap
import WtBenchmarks.Core.Word
import WtBenchmarks.Rng

namespace WtBenchmarks.MoePgo

open Threads

/-! ## Model -/

structure Row where
  neuron : UInt32
  expert : UInt16
  fires : UInt64
deriving DecidableEq, Repr

/-- one version of the map, by neuron -/
abbrev Partition := Std.ExtTreeMap UInt32 Row

abbrev Partitions := Std.ExtTreeMap UInt16 Partition

/-- the row the loop of `fill` inserts in its turn `neuron` -/
def fillRow (neuron : ℕ) : Row := ⟨UInt32.ofNat neuron, UInt16.ofNat (neuron % 64), 0⟩

def partitionOrCreate (set : Partitions) (version : UInt16) : Partitions :=
  if version ∈ set then set else set.insert version ∅

/-- the insert into a partition of the set, with the expectation that the neuron is new -/
def insertRow (set : Partitions) (version : UInt16) (row : Row) : Option Partitions :=
  match set[version]? with
  | none => none
  | some map => if row.neuron ∈ map then none else some (set.insert version (map.insert row.neuron row))

/-- `fill(&set, 0, width)` on the empty set, before any thread exists -/
def build (width : UInt32) : Option Partitions :=
  (List.range width.toNat).foldlM (fun set neuron => insertRow set 0 (fillRow neuron)) (partitionOrCreate ∅ 0)

structure Shared where
  set : Partitions
  current : UInt16
  stop : Bool
  /-- readers that have returned -/
  finished : ℕ
  resolved : ℕ
  missed : ℕ
  /-- ghost: the versions removed so far, in order -/
  retired : List UInt16

/-- `PublishOutcome` without its durations -/
structure PublishOutcome where
  resolved : ℕ
  missed : ℕ

inductive PublisherPc where
  /-- the head of the publishing loop -/
  | next
  /-- `partition_or_create` of `fill` -/
  | create (version : UInt16)
  /-- the head of the loop of `fill` -/
  | insert (version : UInt16) (neuron : ℕ)
  | swap (version : UInt16)
  | remove (previous : UInt16)
  | stop
  | join
  | done (outcome : PublishOutcome)
  | panicked

structure Publisher where
  /-- the versions the loop has still to publish -/
  todo : List UInt16
  pc : PublisherPc

inductive ReaderPc where
  /-- the head of the loop -/
  | check
  | load
  /-- `partition_ref` of a loaded version; `since` is ghost, the number of removals before the load -/
  | lookup (version : UInt16) (since : ℕ)
  | select (map : Partition)
  | addResolved
  | addMissed
  | done

structure Reader where
  pc : ReaderPc
  rng : Rng
  ok : ℕ
  no : ℕ

inductive Agent where
  | publisher (p : Publisher)
  | reader (r : Reader)

def publisherStep (width : UInt32) (readers : ℕ) (g : Shared) (p : Publisher) : Option (Shared × Publisher) :=
  match p.pc with
  | .next =>
    match p.todo with
    | [] => some (g, { p with pc := .stop })
    | version :: todo => some (g, ⟨todo, .create version⟩)
  | .create version => some ({ g with set := partitionOrCreate g.set version }, { p with pc := .insert version 0 })
  | .insert version neuron =>
    if neuron < width.toNat then
      match insertRow g.set version (fillRow neuron) with
      | none => some (g, { p with pc := .panicked })
      | some set => some ({ g with set := set }, { p with pc := .insert version (neuron + 1) })
    else some (g, { p with pc := .swap version })
  | .swap version => some ({ g with current := version }, { p with pc := .remove g.current })
  | .remove previous =>
    some ({ g with set := g.set.erase previous, retired := g.retired ++ [previous] }, { p with pc := .next })
  | .stop => some ({ g with stop := true }, { p with pc := .join })
  | .join => if g.finished = readers then some (g, { p with pc := .done ⟨g.resolved, g.missed⟩ }) else none
  | .done _ | .panicked => none

def readerStep (width : UInt32) (g : Shared) (r : Reader) : Option (Shared × Reader) :=
  match r.pc with
  | .check => some (g, { r with pc := if g.stop then .addResolved else .load })
  | .load => some (g, { r with pc := .lookup g.current g.retired.length })
  | .lookup version _ =>
    match g.set[version]? with
    | some map => some (g, { r with pc := .select map })
    | none => some (g, { r with pc := .check, no := r.no + 1 })
  | .select _ =>
    -- the selected row is not looked at
    let (_, rng) := Id.run ((Rng.below width.toUInt64).run r.rng)
    some (g, { r with pc := .check, rng := rng, ok := r.ok + 1 })
  | .addResolved => some ({ g with resolved := g.resolved + r.ok }, { r with pc := .addMissed })
  | .addMissed => some ({ g with missed := g.missed + r.no, finished := g.finished + 1 }, { r with pc := .done })
  | .done => none

/-- the step of a thread: `none` is the publisher -/
def step (width : UInt32) (readers : ℕ) : Option (Fin readers) → Shared → Agent → Option (Shared × Agent)
  | none, g, .publisher p => (publisherStep width readers g p).map fun r => (r.1, .publisher r.2)
  | some _, g, .reader r => (readerStep width g r).map fun x => (x.1, .reader x.2)
  | _, _, _ => none

/-- the versions after `published` of `1..=versions` -/
def versionsAfter (versions : UInt16) (published : ℕ) : List UInt16 :=
  (List.range' (published + 1) (versions.toNat - published)).map UInt16.ofNat

def start (readers : ℕ) (versions : UInt16) (set : Partitions) : State (Option (Fin readers)) Shared Agent where
  shared := ⟨set, 0, false, 0, 0, 0, []⟩
  locals
    | none => .publisher ⟨versionsAfter versions 0, .next⟩
    | some r => .reader ⟨.check, Rng.new (UInt64.ofNat r + 1), 0, 0⟩

/-! ## Partitions -/

/-- the first `n` rows of a version, and nothing else -/
def Filled (n : ℕ) (map : Partition) : Prop :=
  ∀ k : UInt32, map[k]? = if k.toNat < n then some (fillRow k.toNat) else none

theorem filled_zero : Filled 0 ∅ := fun k => by simp

/-- one turn of the loop of `fill` -/
theorem insertRow_filled {set : Partitions} {version : UInt16} {map : Partition} {n : ℕ} (hn : n < 2 ^ 32)
    (hmap : set[version]? = some map) (hfill : Filled n map) :
    ∃ map', insertRow set version (fillRow n) = some (set.insert version map') ∧ Filled (n + 1) map' := by
  have hkey : (UInt32.ofNat n).toNat = n := by rw [UInt32.toNat_ofNat', Nat.mod_eq_of_lt hn]
  have hnew : UInt32.ofNat n ∉ map := by
    rw [← TreeMap.get_none, hfill, hkey]
    simp
  refine ⟨map.insert (UInt32.ofNat n) (fillRow n), ?_, fun k => ?_⟩
  · simp [insertRow, hmap, fillRow, hnew]
  · rw [TreeMap.get_insert, hfill k]
    by_cases hk : UInt32.ofNat n = k
    · subst hk
      rw [if_pos rfl, if_pos (by omega), hkey]
    · have hne : k.toNat ≠ n := fun h => hk (UInt32.toNat_inj.1 (hkey.trans h.symm))
      rw [if_neg hk]
      by_cases hlt : k.toNat < n
      · rw [if_pos hlt, if_pos (by omega)]
      · rw [if_neg hlt, if_neg (by omega)]

/-- only the listed versions exist -/
def Within (set : Partitions) (versions : List UInt16) : Prop := ∀ v ∈ set, v ∈ versions

/-- the version exists and holds its first `n` rows -/
def HoldsRows (set : Partitions) (version : UInt16) (n : ℕ) : Prop := ∃ map, set[version]? = some map ∧ Filled n map

theorem Within.insert {set : Partitions} {versions : List UInt16} (h : Within set versions) {v : UInt16}
    (hv : v ∈ versions) (map : Partition) : Within (set.insert v map) versions := by
  intro w hw
  rcases (TreeMap.mem_insert set v w map).1 hw with rfl | hw
  · exact hv
  · exact h w hw

theorem HoldsRows.insert_ne {set : Partitions} {v w : UInt16} {n : ℕ} (h : HoldsRows set v n) (hne : w ≠ v)
    (map : Partition) : HoldsRows (set.insert w map) v n := by
  obtain ⟨m, hm, hf⟩ := h
  exact ⟨m, by rw [TreeMap.get_insert, if_neg hne, hm], hf⟩

theorem HoldsRows.mem {set : Partitions} {v : UInt16} {n : ℕ} (h : HoldsRows set v n) : v ∈ set := by
  obtain ⟨m, hm, -⟩ := h
  exact (TreeMap.mem_iff_get set v).2 ⟨m, hm⟩

theorem partitionOrCreate_new {set : Partitions} {version : UInt16} (h : version ∉ set) :
    partitionOrCreate set version = set.insert version ∅ := if_neg h

theorem build_some (width : UInt32) :
    ∃ set, build width = some set ∧ Within set [0] ∧ HoldsRows set 0 width.toNat := by
  have hturn : ∀ n (set : Partitions), n < width.toNat → (Within set [0] ∧ HoldsRows set 0 n) →
      ∃ set', insertRow set 0 (fillRow n) = some set' ∧ Within set' [0] ∧ HoldsRows set' 0 (n + 1) := by
    rintro n set hn ⟨hw, map, hmap, hf⟩
    obtain ⟨map', hset, hf'⟩ := insertRow_filled (hn.trans width.toNat_lt) hmap hf
    refine ⟨_, hset, hw.insert (by simp) map', map', ?_, hf'⟩
    rw [TreeMap.get_insert, if_pos rfl]
  refine exists_foldlM_range (I := fun n set => Within set [0] ∧ HoldsRows set 0 n) width.toNat hturn _ ?_
  rw [partitionOrCreate_new (by simp)]
  refine ⟨?_, ∅, by simp, filled_zero⟩
  intro v hv
  rcases (TreeMap.mem_insert ∅ 0 v ∅).1 hv with rfl | hv
  · simp
  · simp at hv

/-! ## The outline -/

/-- a version the publisher has reached stays complete until it is retired -/
structure SharedInv (width : UInt32) (versions : UInt16) (g : Shared) : Prop where
  complete : HoldsRows g.set g.current width.toNat
  bound : g.current.toNat ≤ versions.toNat

/-- which versions exist at each point of the publishing loop -/
def PublisherInv (width : UInt32) (versions : UInt16) (g : Shared) (p : Publisher) : Prop :=
  match p.pc with
  | .next => p.todo = versionsAfter versions g.current.toNat ∧ Within g.set [g.current]
  | .create v =>
    v.toNat = g.current.toNat + 1 ∧ v.toNat ≤ versions.toNat ∧ p.todo = versionsAfter versions v.toNat ∧
      Within g.set [g.current]
  | .insert v n =>
    v.toNat = g.current.toNat + 1 ∧ v.toNat ≤ versions.toNat ∧ p.todo = versionsAfter versions v.toNat ∧
      Within g.set [g.current, v] ∧ n ≤ width.toNat ∧ HoldsRows g.set v n
  | .swap v =>
    v.toNat = g.current.toNat + 1 ∧ v.toNat ≤ versions.toNat ∧ p.todo = versionsAfter versions v.toNat ∧
      Within g.set [g.current, v] ∧ HoldsRows g.set v width.toNat
  | .remove previous =>
    g.current.toNat = previous.toNat + 1 ∧ p.todo = versionsAfter versions g.current.toNat ∧
      Within g.set [previous, g.current]
  | .stop | .join | .done _ => g.current = versions ∧ Within g.set [g.current]
  | .panicked => False

/-- a version a reader has loaded is still complete, or was retired since the load -/
def ReaderInv (width : UInt32) (g : Shared) (r : Reader) : Prop :=
  match r.pc with
  | .lookup v since =>
    v.toNat ≤ g.current.toNat ∧ since ≤ g.retired.length ∧
      (HoldsRows g.set v width.toNat ∨ g.set[v]? = none ∧ v ∈ g.retired.drop since)
  | .select map => Filled width.toNat map
  | _ => True

def AgentInv (width : UInt32) (versions : UInt16) {readers : ℕ} : Option (Fin readers) → Shared → Agent → Prop
  | none, g, .publisher p => PublisherInv width versions g p
  | some _, g, .reader r => ReaderInv width g r
  | _, _, _ => False

/-- the publisher only moves forward, and a version it has reached changes only by being retired -/
structure PublishGuar (g g' : Shared) : Prop where
  forward : g.current.toNat ≤ g'.current.toNat
  log : ∃ more, g'.retired = g.retired ++ more ∧
    ∀ v, v.toNat ≤ g.current.toNat → g'.set[v]? = g.set[v]? ∨ g'.set[v]? = none ∧ v ∈ more

/-- a reader leaves the versions alone -/
structure ReadGuar (g g' : Shared) : Prop where
  set : g'.set = g.set
  current : g'.current = g.current
  retired : g'.retired = g.retired

def AgentGuar {readers : ℕ} : Option (Fin readers) → Shared → Shared → Prop
  | none => PublishGuar
  | some _ => ReadGuar

theorem PublishGuar.refl (g : Shared) : PublishGuar g g := ⟨le_rfl, [], by simp, fun _ _ => Or.inl rfl⟩

theorem versionsAfter_cons {versions : UInt16} {published : ℕ} {v : UInt16} {todo : List UInt16}
    (h : v :: todo = versionsAfter versions published) :
    v.toNat = published + 1 ∧ v.toNat ≤ versions.toNat ∧ todo = versionsAfter versions v.toNat := by
  have hpos : versions.toNat - published = versions.toNat - (published + 1) + 1 := by
    by_contra hne
    have hzero : versions.toNat - published = 0 := by omega
    rw [versionsAfter, hzero] at h
    cases h
  rw [versionsAfter, hpos, List.range'_succ, List.map_cons] at h
  injection h with hv htodo
  have hlt := versions.toNat_lt
  have hval : v.toNat = published + 1 := by rw [hv, UInt16.toNat_ofNat', Nat.mod_eq_of_lt (by omega)]
  refine ⟨hval, by omega, ?_⟩
  rw [htodo, versionsAfter, hval]

theorem versionsAfter_nil {versions : UInt16} {published : ℕ} (h : [] = versionsAfter versions published) :
    versions.toNat ≤ published := by
  have := congrArg List.length h
  simp [versionsAfter] at this
  omega

/-! ## Steps -/

theorem ne_of_next {c v : UInt16} (h : v.toNat = c.toNat + 1) : v ≠ c := by
  rintro rfl
  omega

/-- writing a version past the current one -/
theorem PublishGuar.write {g : Shared} {v : UInt16} (h : v.toNat = g.current.toNat + 1) (map : Partition) :
    PublishGuar g { g with set := g.set.insert v map } := by
  refine ⟨le_rfl, [], by simp, fun w hw => Or.inl ?_⟩
  have hne : v ≠ w := by
    rintro rfl
    omega
  rw [TreeMap.get_insert, if_neg hne]

/-- **Publisher step.** The publisher never panics, and no step of its loop touches the current version. -/
theorem publisher_step_ok {width : UInt32} {versions : UInt16} {readers : ℕ} {g g' : Shared} {p p' : Publisher}
    (hg : SharedInv width versions g) (hp : PublisherInv width versions g p)
    (hs : publisherStep width readers g p = some (g', p')) :
    SharedInv width versions g' ∧ PublisherInv width versions g' p' ∧ PublishGuar g g' := by
  obtain ⟨todo, pc⟩ := p
  cases pc with
  | next =>
    obtain ⟨htodo, hw⟩ := hp
    cases todo with
    | nil =>
      cases hs
      have hlast : g.current = versions := UInt16.toNat_inj.1 (Nat.le_antisymm hg.bound (versionsAfter_nil htodo))
      exact ⟨hg, ⟨hlast, hw⟩, PublishGuar.refl g⟩
    | cons version todo =>
      cases hs
      obtain ⟨hv, hle, hrest⟩ := versionsAfter_cons htodo
      exact ⟨hg, ⟨hv, hle, hrest, hw⟩, PublishGuar.refl g⟩
  | create v =>
    obtain ⟨hv, hle, htodo, hw⟩ := hp
    cases hs
    have hnew : v ∉ g.set := fun hmem => ne_of_next hv (List.mem_singleton.1 (hw v hmem))
    have hw' : Within g.set [g.current, v] := fun w hmem => by simp [List.mem_singleton.1 (hw w hmem)]
    rw [partitionOrCreate_new hnew]
    refine ⟨⟨hg.complete.insert_ne (ne_of_next hv) ∅, hg.bound⟩, ⟨hv, hle, htodo, hw'.insert (by simp) ∅,
      Nat.zero_le _, ∅, ?_, filled_zero⟩, PublishGuar.write hv ∅⟩
    rw [TreeMap.get_insert, if_pos rfl]
  | insert v n =>
    obtain ⟨hv, hle, htodo, hw, hn, map, hmap, hfill⟩ := hp
    simp only [publisherStep] at hs
    split_ifs at hs with hlt
    · obtain ⟨map', hset, hfill'⟩ := insertRow_filled (hlt.trans width.toNat_lt) hmap hfill
      rw [hset] at hs
      cases hs
      refine ⟨⟨hg.complete.insert_ne (ne_of_next hv) map', hg.bound⟩, ⟨hv, hle, htodo, hw.insert (by simp) map', hlt,
        map', ?_, hfill'⟩, PublishGuar.write hv map'⟩
      rw [TreeMap.get_insert, if_pos rfl]
    · cases hs
      have hall : n = width.toNat := by omega
      exact ⟨hg, ⟨hv, hle, htodo, hw, map, hmap, hall ▸ hfill⟩, PublishGuar.refl g⟩
  | swap v =>
    obtain ⟨hv, hle, htodo, hw, hfull⟩ := hp
    cases hs
    exact ⟨⟨hfull, hle⟩, ⟨hv, htodo, hw⟩, by simp only; omega, [], by simp, fun _ _ => Or.inl rfl⟩
  | remove previous =>
    obtain ⟨hprev, htodo, hw⟩ := hp
    cases hs
    have hne : previous ≠ g.current := (ne_of_next hprev).symm
    obtain ⟨map, hmap, hfill⟩ := hg.complete
    refine ⟨⟨⟨map, ?_, hfill⟩, hg.bound⟩, ⟨htodo, fun v hv => ?_⟩, le_rfl, [previous], rfl, fun v _ => ?_⟩
    · rw [TreeMap.get_erase, if_neg hne]
      exact hmap
    · obtain ⟨hv', hmem⟩ := (TreeMap.mem_erase g.set previous v).1 hv
      have := hw v hmem
      simp only [List.mem_cons, List.not_mem_nil, or_false] at this
      exact List.mem_singleton.2 (this.resolve_left fun h => hv' h.symm)
    · rw [TreeMap.get_erase]
      split_ifs with hv
      · exact Or.inr ⟨rfl, by simp [hv]⟩
      · exact Or.inl rfl
  | stop =>
    cases hs
    exact ⟨⟨hg.complete, hg.bound⟩, hp, le_rfl, [], by simp, fun _ _ => Or.inl rfl⟩
  | join =>
    simp only [publisherStep] at hs
    split_ifs at hs
    cases hs
    exact ⟨hg, hp, PublishGuar.refl g⟩
  | done outcome => cases hs
  | panicked => cases hs

/-- **Reader step.** What is loaded is complete, what is looked up is complete. -/
theorem reader_step_ok {width : UInt32} {versions : UInt16} {g g' : Shared} {r r' : Reader}
    (hg : SharedInv width versions g) (hr : ReaderInv width g r) (hs : readerStep width g r = some (g', r')) :
    SharedInv width versions g' ∧ ReaderInv width g' r' ∧ ReadGuar g g' := by
  obtain ⟨pc, rng, ok, no⟩ := r
  cases pc with
  | check =>
    cases hs
    refine ⟨hg, ?_, rfl, rfl, rfl⟩
    unfold ReaderInv
    split_ifs <;> trivial
  | load =>
    cases hs
    exact ⟨hg, ⟨le_rfl, le_rfl, Or.inl hg.complete⟩, rfl, rfl, rfl⟩
  | lookup v since =>
    obtain ⟨-, -, hv⟩ := hr
    simp only [readerStep] at hs
    split at hs
    · rename_i map hmap
      cases hs
      refine ⟨hg, ?_, rfl, rfl, rfl⟩
      rcases hv with ⟨map', hmap', hfill⟩ | ⟨hnone, -⟩
      · rw [hmap] at hmap'
        cases hmap'
        exact hfill
      · rw [hmap] at hnone
        cases hnone
    · cases hs
      exact ⟨hg, trivial, rfl, rfl, rfl⟩
  | select map =>
    cases hs
    exact ⟨hg, trivial, rfl, rfl, rfl⟩
  | addResolved =>
    cases hs
    exact ⟨⟨hg.complete, hg.bound⟩, trivial, rfl, rfl, rfl⟩
  | addMissed =>
    cases hs
    exact ⟨⟨hg.complete, hg.bound⟩, trivial, rfl, rfl, rfl⟩
  | done => cases hs

/-! ## Stability -/

theorem PublisherInv.stable {width : UInt32} {versions : UInt16} {g g' : Shared} {p : Publisher} (hq : ReadGuar g g')
    (h : PublisherInv width versions g p) : PublisherInv width versions g' p := by
  unfold PublisherInv at h ⊢
  rw [hq.set, hq.current]
  exact h

theorem ReaderInv.stable_read {width : UInt32} {g g' : Shared} {r : Reader} (hq : ReadGuar g g')
    (h : ReaderInv width g r) : ReaderInv width g' r := by
  unfold ReaderInv at h ⊢
  rw [hq.set, hq.current, hq.retired]
  exact h

/-- a publishing step retires the loaded version or leaves it alone -/
theorem ReaderInv.stable_publish {width : UInt32} {g g' : Shared} {r : Reader} (hq : PublishGuar g g')
    (h : ReaderInv width g r) : ReaderInv width g' r := by
  obtain ⟨pc, rng, ok, no⟩ := r
  cases pc with
  | lookup v since =>
    obtain ⟨hle, hsince, hv⟩ := h
    obtain ⟨more, hlog, hsame⟩ := hq.log
    have hdrop : g'.retired.drop since = g.retired.drop since ++ more := by
      rw [hlog, List.drop_append_of_le_length hsince]
    refine ⟨hle.trans hq.forward, by rw [hlog, List.length_append]; omega, ?_⟩
    rcases hsame v hle with hget | ⟨hget, hmore⟩
    · rcases hv with ⟨map, hmap, hfill⟩ | ⟨hnone, hmem⟩
      · exact Or.inl ⟨map, hget.trans hmap, hfill⟩
      · exact Or.inr ⟨hget.trans hnone, by rw [hdrop]; exact List.mem_append_left _ hmem⟩
    · exact Or.inr ⟨hget, by rw [hdrop]; exact List.mem_append_right _ hmore⟩
  | _ => exact h

theorem agent_step_ok {width : UInt32} {versions : UInt16} {readers : ℕ} (t : Option (Fin readers)) (g : Shared)
    (a : Agent) (g' : Shared) (a' : Agent) (hg : SharedInv width versions g) (ha : AgentInv width versions t g a)
    (hs : step width readers t g a = some (g', a')) :
    SharedInv width versions g' ∧ AgentInv width versions t g' a' ∧ AgentGuar t g g' := by
  cases t with
  | none =>
    cases a with
    | publisher p =>
      obtain ⟨⟨g₁, p'⟩, hp, hr⟩ := Option.map_eq_some_iff.1 hs
      cases hr
      exact publisher_step_ok hg ha hp
    | reader r => exact absurd ha id
  | some t =>
    cases a with
    | publisher p => exact absurd ha id
    | reader r =>
      obtain ⟨⟨g₁, r'⟩, hr', hr⟩ := Option.map_eq_some_iff.1 hs
      cases hr
      exact reader_step_ok hg ha hr'

theorem agent_stable {width : UInt32} {versions : UInt16} {readers : ℕ} (t u : Option (Fin readers)) (g g' : Shared)
    (a : Agent) (hu : u ≠ t) (hq : AgentGuar t g g') (ha : AgentInv width versions u g a) :
    AgentInv width versions u g' a := by
  cases u with
  | none =>
    cases t with
    | none => exact absurd rfl hu
    | some t =>
      cases a with
      | publisher p => exact PublisherInv.stable hq ha
      | reader r => exact ha
  | some u =>
    cases a with
    | publisher p => exact ha
    | reader r =>
      cases t with
      | none => exact ReaderInv.stable_publish hq ha
      | some t => exact ReaderInv.stable_read hq ha

/-- the proof outline of a republish run -/
def republishOutline (width : UInt32) (readers : ℕ) (versions : UInt16) : Outline (step width readers) where
  Glob := SharedInv width versions
  Loc := AgentInv width versions
  Guar := AgentGuar
  step_ok := agent_step_ok
  stable t u g g' a hu _ hq ha := agent_stable t u g g' a hu hq ha

theorem start_holds {width : UInt32} {readers : ℕ} {versions : UInt16} {set : Partitions} (hw : Within set [0])
    (hfull : HoldsRows set 0 width.toNat) :
    (republishOutline width readers versions).Holds (start readers versions set) := by
  refine ⟨⟨hfull, Nat.zero_le _⟩, fun t => ?_⟩
  cases t with
  | none => exact ⟨rfl, hw⟩
  | some t => trivial

/-! ## The publisher gets through its loop -/

/-- the loop over the versions is over -/
def PublisherPc.Published : PublisherPc → Prop
  | .stop | .join | .done _ => True
  | _ => False

/-- an upper bound on the steps left in the publishing loop -/
def Publisher.work (width : UInt32) (p : Publisher) : ℕ :=
  (width.toNat + 6) * p.todo.length + match p.pc with
    | .next => 1
    | .create _ => width.toNat + 5
    | .insert _ n => width.toNat - n + 4
    | .swap _ => 3
    | .remove _ => 2
    | .stop | .join | .done _ | .panicked => 0

theorem publisher_work {width : UInt32} {readers : ℕ} {g g' : Shared} {p p' : Publisher} (hnd : ¬ p.pc.Published)
    (hs : publisherStep width readers g p = some (g', p')) : p'.work width < p.work width := by
  obtain ⟨todo, pc⟩ := p
  cases pc with
  | next =>
    cases todo with
    | nil => cases hs; simp [Publisher.work]
    | cons version todo => cases hs; simp only [Publisher.work, List.length_cons, Nat.mul_succ]; omega
  | insert v n =>
    simp only [publisherStep] at hs
    split_ifs at hs with hlt
    · split at hs
      · cases hs; simp only [Publisher.work]; omega
      · cases hs; simp only [Publisher.work]; omega
    · cases hs; simp only [Publisher.work]; omega
  | create v => cases hs; simp only [Publisher.work]; omega
  | swap v => cases hs; simp only [Publisher.work]; omega
  | remove v => cases hs; simp only [Publisher.work]; omega
  | panicked => cases hs
  | _ => exact absurd trivial hnd

theorem publisher_moves {width : UInt32} {versions : UInt16} {readers : ℕ} {g : Shared} {p : Publisher}
    (hp : PublisherInv width versions g p) (hnd : ¬ p.pc.Published) : publisherStep width readers g p ≠ none := by
  obtain ⟨todo, pc⟩ := p
  cases pc with
  | next => cases todo <;> simp [publisherStep]
  | insert v n =>
    simp only [publisherStep]
    split_ifs
    · split <;> simp
    · simp
  | panicked => exact absurd hp id
  | create v => simp [publisherStep]
  | swap v => simp [publisherStep]
  | remove v => simp [publisherStep]
  | _ => exact absurd trivial hnd

def Agent.Published : Agent → Prop
  | .publisher p => p.pc.Published
  | .reader _ => False

def Agent.work (width : UInt32) : Agent → ℕ
  | .publisher p => p.work width
  | .reader _ => 0

theorem publisher_progress {width : UInt32} {versions : UInt16} {readers : ℕ} {g : Shared} {a : Agent}
    (ha : AgentInv width versions (none : Option (Fin readers)) g a) (hnd : ¬ a.Published) :
    ∃ g' a', step width readers none g a = some (g', a') ∧ a'.work width < a.work width := by
  cases a with
  | publisher p =>
    have hmoves : publisherStep width readers g p ≠ none := publisher_moves ha hnd
    obtain ⟨⟨g', p'⟩, hp⟩ := Option.ne_none_iff_exists'.1 hmoves
    exact ⟨g', .publisher p', by rw [step, hp]; rfl, publisher_work hnd hp⟩
  | reader r => exact absurd ha id

/-! ## Main result -/

theorem size_le_two {width : UInt32} {versions : UInt16} {g : Shared} {p : Publisher}
    (hp : PublisherInv width versions g p) : g.set.size ≤ 2 := by
  obtain ⟨todo, pc⟩ := p
  have one : Within g.set [g.current] → g.set.size ≤ 2 := fun hw =>
    (TreeMap.size_le_of_keys g.set [g.current] hw).trans (by simp)
  cases pc with
  | next => exact one hp.2
  | create v => exact one hp.2.2.2
  | insert v n => exact TreeMap.size_le_of_keys g.set _ hp.2.2.2.1
  | swap v => exact TreeMap.size_le_of_keys g.set _ hp.2.2.2.1
  | remove previous => exact TreeMap.size_le_of_keys g.set _ hp.2.2
  | stop => exact one hp.2
  | join => exact one hp.2
  | done outcome => exact one hp.2
  | panicked => exact absurd hp id

/-- after the publishing loop the last version is the only one -/
theorem published_inv {width : UInt32} {versions : UInt16} {g : Shared} {p : Publisher}
    (hp : PublisherInv width versions g p) (hd : p.pc.Published) : g.current = versions ∧ Within g.set [g.current] := by
  obtain ⟨todo, pc⟩ := p
  cases pc with
  | stop => exact hp
  | join => exact hp
  | done outcome => exact hp
  | _ => exact absurd hd id

/-- **The republish protocol.** Building version zero does not panic, and at every moment of every interleaving of the
publisher with any number of readers: the current version exists and is completely filled; at most two versions exist;
a map a reader was handed is completely filled; a version a reader has loaded and no longer finds was removed after the
load; the publisher has not panicked. Once its loop is over exactly the last version remains, and the loop is over after
finitely many turns of the publisher. -/
theorem republish_protocol (width : UInt32) (readers : ℕ) (versions : UInt16) :
    ∃ set, build width = some set ∧ ∀ sched : List (Option (Fin readers)),
      let s := run (step width readers) (start readers versions set) sched
      (∃ map, s.shared.set[s.shared.current]? = some map ∧ Filled width.toNat map) ∧
      s.shared.set.size ≤ 2 ∧
      (∀ t r map, s.locals (some t) = .reader r → r.pc = .select map → Filled width.toNat map) ∧
      (∀ t r v since, s.locals (some t) = .reader r → r.pc = .lookup v since → s.shared.set[v]? = none →
        v ∈ s.shared.retired.drop since) ∧
      (∃ p, s.locals none = .publisher p ∧ p.pc ≠ .panicked) ∧
      ((s.locals none).Published →
        s.shared.current = versions ∧ ∀ v, v ∈ s.shared.set ↔ v = versions) ∧
      ∃ n, ((run (step width readers) s (List.replicate n none)).locals none).Published := by
  obtain ⟨set, hset, hw, hfull⟩ := build_some width
  refine ⟨set, hset, fun sched => ?_⟩
  intro s
  let O := republishOutline width readers versions
  have hs : O.Holds s := O.run _ (start_holds hw hfull) sched
  obtain ⟨hg, ha⟩ := hs
  have hp : ∃ p, s.locals none = .publisher p ∧ PublisherInv width versions s.shared p := by
    have := ha none
    cases hl : s.locals none with
    | publisher p => rw [hl] at this; exact ⟨p, rfl, this⟩
    | reader r => rw [hl] at this; exact absurd this id
  have hr : ∀ t r, s.locals (some t) = .reader r → ReaderInv width s.shared r := by
    intro t r hl
    have := ha (some t)
    rwa [hl] at this
  obtain ⟨p, hl, hp⟩ := hp
  refine ⟨hg.complete, size_le_two hp, fun t r map hl hpc => ?_, fun t r v since hl hpc hnone => ?_,
    ⟨p, hl, fun hpc => ?_⟩, fun hd => ?_, ?_⟩
  · have := hr t r hl
    rwa [ReaderInv, hpc] at this
  · have := hr t r hl
    rw [ReaderInv, hpc] at this
    rcases this.2.2 with ⟨map, hmap, -⟩ | ⟨-, hmem⟩
    · rw [hnone] at hmap
      cases hmap
    · exact hmem
  · rw [PublisherInv, hpc] at hp
    exact hp
  · rw [hl] at hd
    obtain ⟨hcur, honly⟩ := published_inv hp hd
    refine ⟨hcur, fun v => ⟨fun hv => ?_, ?_⟩⟩
    · rw [← hcur]
      exact List.mem_singleton.1 (honly v hv)
    · rintro rfl
      rw [← hcur]
      exact hg.complete.mem
  · exact run_alone_finishes O.Holds none Agent.Published (Agent.work width) O.exec_holds
      (fun s h hnd => publisher_progress (h.2 none) hnd) s ⟨hg, ha⟩

end WtBenchmarks.MoePgo
