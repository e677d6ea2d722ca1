/-
Probe orders over the path keys (`benches/probe_order.rs`; the shuffled order also of `benches/arctic_paths.rs` and
`benches/arctic_concurrent.rs`).

An arm walks its list of probes in a circle, whatever the order, so which keys it asks for in `n` consecutive turns is
the list of probes turned. The ranks of the Zipf order are drawn in exact arithmetic.

- `probes_total`: the four orders never panic, and probe no key that is not in the list;
- `answers_eq`: the answers of consecutive turns;
- `probes_present`: no probe misses, and the orders that are permutations ask for every key once in `n` turns, from any
  turn on.
-/
import Mathlib.Data.List.Rotate
import WtBenchmarks.ArcticPaths.Scan
import WtBenchmarks.Core.OrderStatistics
import WtBenchmarks.Shuffle
import WtBenchmarks.Ycsb.Generator

namespace WtBenchmarks.ArcticPaths

open OrderStatistics Ycsb

variable {K : Type} [Field K] [LinearOrder K] [IsStrictOrderedRing K] {pow : ExactPow K}

/-! ## The orders -/

inductive Order where
  | ordered
  | shuffled
  | fixed
  | zipf
deriving DecidableEq, Repr

def probeShuffleSeed : UInt64 := 0x5eed1eafc0ffee01

def shuffledProbes (keys : List String) : Option (List String) :=
  (shuffleSeeded keys.toArray probeShuffleSeed).map Array.toList

def zipfTheta (K : Type) [Field K] : K := ((99 : ℕ) : K) / ((100 : ℕ) : K)

/-- one probe of the Zipf order: a rank, scattered over the positions -/
def zipfProbe (zipf : ZipfCdf pow) (keys : List String) : Draw String := do
  let sample ← Rng.nextU64
  let rank ← zipf.sampleToken sample keys.length
  let position ← checkedMod (mix64 (UInt64.ofNat rank)) (UInt64.ofNat keys.length)
  keys[position.toNat]?

/-- `none` is a panic -/
def probes (pow : ExactPow K) (keys : List String) : Order → Option (List String)
  | .ordered => some (ascending keys)
  | .shuffled => shuffledProbes keys
  | .fixed => do
    let key ← keys[keys.length / 2]?
    some [key]
  | .zipf =>
    let zipf := ZipfCdf.new pow keys.length (zipfTheta K)
    ((List.range keys.length).mapM fun _ => zipfProbe zipf keys).run' (Rng.new probeShuffleSeed)

section

variable {Key : Type} (get : Key → Option UInt64) (probes : List Key)

/-- `probes.iter().filter(|k| map.get(k).is_some()).count()` -/
def found : ℕ := probes.countP fun key => (get key).isSome

/-- the answers of an arm in its next turns, from the turn `i` on -/
def answers : ℕ → ℕ → Option (List (Option UInt64))
  | 0, _ => some []
  | turns + 1, i => do
    let i := (i + 1) % probes.length
    let key ← probes[i]?
    let rest ← answers turns i
    some (get key :: rest)

end

/-- a lookup in a comparison tree -/
def btreeGet (map : PathMap) (key : String) : Option UInt64 := map[key]?

/-! ## Where the probes come from -/

theorem shuffledProbes_perm (keys : List String) : ∃ out, shuffledProbes keys = some out ∧ out.Perm keys := by
  obtain ⟨out, hout, hperm⟩ := shuffleSeeded_perm keys.toArray probeShuffleSeed
  exact ⟨out.toList, by rw [shuffledProbes, hout]; rfl, by simpa using hperm.toList⟩

theorem zipfProbe_total {zipf : ZipfCdf pow} {keys : List String} (hpos : 0 < keys.length)
    (hlength : keys.length < 2 ^ 64) (hzipf : keys.length ≤ zipf.cumulative.length) :
    Total (fun key => key ∈ keys) (zipfProbe zipf keys) := by
  have hcount : (UInt64.ofNat keys.length).toNat = keys.length := ofNat_toNat_of_lt hlength
  refine Rng.nextU64_total.bind fun sample _ => ?_
  refine (Total.lift (zipf.sampleToken_lt sample _ hpos hzipf)).bind fun rank _ => ?_
  refine (Total.lift (scatter_some (UInt64.ofNat keys.length) rank (by omega))).bind fun position hposition => ?_
  rw [UInt64.lt_iff_toNat_lt, hcount] at hposition
  exact Total.lift ⟨_, List.getElem?_eq_getElem hposition, List.getElem_mem hposition⟩

/-- **No order panics**, or probes an absent key. -/
theorem probes_total (pow : ExactPow K) {keys : List String} (hpos : 0 < keys.length) (hlength : keys.length < 2 ^ 64)
    (order : Order) :
    ∃ out, probes pow keys order = some out ∧ (∀ key ∈ out, key ∈ keys) ∧
      out.length = if order = .fixed then 1 else keys.length := by
  cases order with
  | ordered => exact ⟨_, rfl, fun key hkey => mem_ascending.1 hkey, ascending_length keys⟩
  | shuffled =>
    obtain ⟨out, hout, hperm⟩ := shuffledProbes_perm keys
    exact ⟨out, hout, fun key hkey => hperm.mem_iff.1 hkey, hperm.length_eq⟩
  | fixed =>
    have hmiddle : keys.length / 2 < keys.length := Nat.div_lt_self hpos (by decide)
    refine ⟨[keys[keys.length / 2]], ?_, ?_, rfl⟩
    · rw [probes, List.getElem?_eq_getElem hmiddle]
      rfl
    · intro key hkey
      rw [List.mem_singleton.1 hkey]
      exact List.getElem_mem hmiddle
  | zipf =>
    have htable : keys.length ≤ (ZipfCdf.new pow keys.length (zipfTheta K)).cumulative.length := by
      rw [ZipfCdf.new, ZipfCdf.ensure_length]
      exact le_max_right _ _
    have htotal := Total.mapM (P := fun _ key => key ∈ keys) (List.range keys.length)
      fun _ _ => zipfProbe_total hpos hlength htable
    obtain ⟨out, rng, hrun, hout⟩ := htotal (Rng.new probeShuffleSeed)
    refine ⟨out, ?_, fun key hkey => ?_, ?_⟩
    · rw [probes, StateT.run'_eq, hrun]
      rfl
    · obtain ⟨i, hi, rfl⟩ := List.mem_iff_getElem.1 hkey
      exact hout.get (by rw [hout.length_eq]; exact hi) hi
    · rw [← hout.length_eq, List.length_range]
      rfl

/-! ## Walking the probes -/

section

variable {Key : Type} (get : Key → Option UInt64) {probes : List Key}

/-- **The answers of consecutive turns.** Induction on their number; the position of a turn is its number modulo the
length. -/
theorem answers_eq (hpos : 0 < probes.length) (turns i : ℕ) :
    answers get probes turns i =
      some ((List.range turns).map fun j => (probes[(i + 1 + j) % probes.length]?).bind get) := by
  induction turns generalizing i with
  | zero => rfl
  | succ turns ih =>
    have hi : (i + 1) % probes.length < probes.length := Nat.mod_lt _ hpos
    have hnext : ∀ j, ((i + 1) % probes.length + 1 + j) % probes.length = (i + 1 + (j + 1)) % probes.length := by
      intro j
      rw [Nat.add_assoc, Nat.mod_add_mod, Nat.add_comm 1 j]
    rw [answers, ih, List.range_succ_eq_map, List.map_cons, List.map_map]
    simp only [Nat.add_zero, List.getElem?_eq_getElem hi, Option.bind_eq_bind, Option.bind_some, hnext]
    rfl

/-- one turn for each probe asks for the probes in a circle -/
theorem answers_circle (hpos : 0 < probes.length) (i : ℕ) :
    answers get probes probes.length i = some ((probes.rotate (i + 1)).map get) := by
  rw [answers_eq get hpos]
  congr 1
  refine List.ext_getElem (by simp) fun j hj _ => ?_
  rw [List.length_map, List.length_range] at hj
  have hturned : (i + 1 + j) % probes.length < probes.length := Nat.mod_lt _ hpos
  simp only [List.getElem_map, List.getElem_range, List.getElem_rotate, List.getElem?_eq_getElem hturned,
    Option.bind_some]
  rw [Nat.add_comm j]

variable {get}

theorem found_eq (h : ∀ key ∈ probes, (get key).isSome) : found get probes = probes.length :=
  List.countP_eq_length.2 h

theorem answers_isSome (hpos : 0 < probes.length) (h : ∀ key ∈ probes, (get key).isSome) (turns i : ℕ) :
    ∃ values, answers get probes turns i = some values ∧ values.length = turns ∧ none ∉ values := by
  refine ⟨_, answers_eq get hpos turns i, by simp, fun hnone => ?_⟩
  obtain ⟨j, -, hj⟩ := List.mem_map.1 hnone
  have hturned : (i + 1 + j) % probes.length < probes.length := Nat.mod_lt _ hpos
  have hpresent := h _ (List.getElem_mem hturned)
  rw [List.getElem?_eq_getElem hturned, Option.bind_some] at hj
  rw [hj] at hpresent
  cases hpresent

end

/-- the radix tree answers as the comparison trees do -/
theorem answers_map {Key : Type} {get : String → Option UInt64} {get' : Key → Option UInt64} {text : Key → String}
    (h : ∀ key, get' key = get (text key)) (probes : List Key) (turns i : ℕ) :
    answers get' probes turns i = answers get (probes.map text) turns i := by
  induction turns generalizing i with
  | zero => rfl
  | succ turns ih =>
    rw [answers, answers, List.length_map, List.getElem?_map, ih]
    cases probes[(i + 1) % probes.length]? with
    | none => rfl
    | some key => simp [h]

/-- every key once: the answers are the positions -/
theorem answers_perm {paths probes : List String} (hpaths : paths.Nodup) (hprobes : probes.Perm paths)
    (hpos : 0 < paths.length) (i : ℕ) :
    ∃ values, answers (btreeGet (btreePath paths)) probes paths.length i = some values ∧
      values.Perm ((List.range paths.length).map fun j => some (UInt64.ofNat j)) := by
  have hlength := hprobes.length_eq
  refine ⟨_, by rw [← hlength]; exact answers_circle _ (by omega) i, ?_⟩
  have hkeys : ((probes.rotate (i + 1)).map (btreeGet (btreePath paths))).Perm
      (paths.map (btreeGet (btreePath paths))) := ((probes.rotate_perm (i + 1)).trans hprobes).map _
  have hvalues : paths.map (btreeGet (btreePath paths)) =
      (List.range paths.length).map fun j => some (UInt64.ofNat j) := by
    refine List.ext_getElem (by simp) fun j hj _ => ?_
    rw [List.length_map] at hj
    rw [List.getElem_map, List.getElem_map, List.getElem_range, btreeGet, btreePath_get hpaths, entries]
    refine List.mem_map.2 ⟨(paths[j], j), ?_, rfl⟩
    exact List.mem_zipIdx_iff_getElem?.2 (List.getElem?_eq_getElem hj)
  rwa [hvalues] at hkeys

/-! ## The arms -/

theorem length_pathKeys (n : ℕ) : (pathKeys n).length = n := by simp [pathKeys]

theorem ascending_pathKeys_iff (n : ℕ) : ascending (pathKeys n) = pathKeys n ↔ n ≤ 3000000 := by
  rw [← pathKeys_sorted_iff]
  constructor
  · intro h
    have hle := ascending_pairwise (pathKeys n)
    rw [h] at hle
    exact (hle.and (pathKeys_nodup n)).imp fun h => lt_of_le_of_ne h.1 h.2
  · intro h
    exact (ascending_perm (pathKeys n)).eq_of_pairwise (fun a b _ _ => le_antisymm) (ascending_pairwise _)
      (h.imp le_of_lt)

/-- **Every probe is present.** -/
theorem probes_present (pow : ExactPow K) (A : Arctic) {n : ℕ} (hpos : 0 < n) (hn : n < 2 ^ 64) (order : Order) :
    ∃ out arctic arcticProbes, probes pow (pathKeys n) order = some out ∧
      arcticPath A (pathKeys n) = some arctic ∧ out.mapM nonNull = some arcticProbes ∧
      out.length = (if order = .fixed then 1 else n) ∧
      found (btreeGet (btreePath (pathKeys n))) out = out.length ∧ found (A.get arctic) arcticProbes = out.length ∧
      (∀ turns i, ∃ values, answers (btreeGet (btreePath (pathKeys n))) out turns i = some values ∧
        answers (A.get arctic) arcticProbes turns i = some values ∧ values.length = turns ∧ none ∉ values) ∧
      (order = .ordered ∨ order = .shuffled → ∀ i, ∃ values,
        answers (btreeGet (btreePath (pathKeys n))) out n i = some values ∧
          values.Perm ((List.range n).map fun j => some (UInt64.ofNat j))) ∧
      (order = .ordered → (out = pathKeys n ↔ n ≤ 3000000)) := by
  have hlength := length_pathKeys n
  have hnodup := pathKeys_nodup n
  obtain ⟨out, hout, hmem, hcount⟩ := probes_total pow (show 0 < (pathKeys n).length by omega) (by omega) order
  rw [hlength] at hcount
  obtain ⟨arctic, hload, hget⟩ := arcticPath_some A hnodup null_notMem_pathKeys
  obtain ⟨arcticProbes, hprobes, hval⟩ := mapM_nonNull fun p hp => null_notMem_pathKeys p (hmem p hp)
  have hpresent : ∀ key ∈ out, (btreeGet (btreePath (pathKeys n)) key).isSome := fun key hkey =>
    Std.ExtTreeMap.mem_iff_isSome_getElem?.1 ((mem_btreePath hnodup key).2 (hmem key hkey))
  have houtpos : 0 < out.length := by
    rw [hcount]
    split_ifs <;> omega
  refine ⟨out, arctic, arcticProbes, hout, hload, hprobes, hcount, found_eq hpresent, ?_, fun turns i => ?_,
    fun horder i => ?_, ?_⟩
  · rw [found_eq fun key hkey => ?_, ← hval, List.length_map]
    rw [hget]
    exact hpresent _ (hval ▸ List.mem_map_of_mem hkey)
  · obtain ⟨values, hvalues, hturns⟩ := answers_isSome houtpos hpresent turns i
    refine ⟨values, hvalues, ?_, hturns⟩
    rw [answers_map hget, hval]
    exact hvalues
  · have hperm : out.Perm (pathKeys n) := by
      rcases horder with rfl | rfl
      · rw [← Option.some.inj hout]
        exact ascending_perm _
      · obtain ⟨out', hout', hperm⟩ := shuffledProbes_perm (pathKeys n)
        rw [← Option.some.inj (hout'.symm.trans hout)]
        exact hperm
    have hvalues := answers_perm hnodup hperm (by omega) i
    rwa [hlength] at hvalues
  · rintro rfl
    rw [← Option.some.inj hout]
    exact ascending_pathKeys_iff n

/-- the shuffled order of the smallest size -/
theorem probes_present_shuffled : ∃ out arctic arcticProbes, probes realPow (pathKeys 163) .shuffled = some out ∧
    arcticPath sortedArctic (pathKeys 163) = some arctic ∧ out.mapM nonNull = some arcticProbes ∧
    found (sortedArctic.get arctic) arcticProbes = out.length ∧
    ∀ i, ∃ values, answers (btreeGet (btreePath (pathKeys 163))) out 163 i = some values ∧
      values.Perm ((List.range 163).map fun j => some (UInt64.ofNat j)) := by
  obtain ⟨out, arctic, arcticProbes, hout, hload, hprobes, -, -, hfound, -, hturns, -⟩ :=
    probes_present realPow sortedArctic (show 0 < 163 by decide) (by decide) .shuffled
  exact ⟨out, arctic, arcticProbes, hout, hload, hprobes, hfound, hturns (Or.inr rfl)⟩

end WtBenchmarks.ArcticPaths
