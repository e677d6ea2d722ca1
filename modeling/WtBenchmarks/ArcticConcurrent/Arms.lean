/-
The two groups of arms of the concurrent path benchmark (`benches/arctic_concurrent.rs`).

A worker starts at its own place in the probes and walks them in a circle. In the first group it only reads; in the
second, one operation in twenty replaces the value of the key it came to by the number of the operation. A map operation
is one step: the arms hold a lock for it, or are documented to be linearizable.

- `gets_total`: what the first group adds up is the same in every interleaving;
- `mapOk_step`: what a mixed operation does to the values of the keys;
- `mixed_outcomes`: the keys of the second group never change, and the values a key can end with are the last that each
  worker writes to it.
-/
import Mathlib.Data.UInt
import WtBenchmarks.ArcticConcurrent.Scaled
import WtBenchmarks.ArcticPaths.Probes

namespace WtBenchmarks.ArcticConcurrent

open Threads ArcticPaths

variable {n : ℕ} {M Key : Type}

/-! ## The operations -/

/-- what the arms of the second group do with a map -/
structure Store (M Key : Type) [DecidableEq Key] where
  get : M → Key → Option UInt64
  upsert : M → Key → UInt64 → M
  get_upsert : ∀ map key v key', get (upsert map key v) key' = if key = key' then some v else get map key'

def btreeStore : Store PathMap String where
  get := btreeGet
  upsert map key v := map.insert key v
  get_upsert map key v key' := TreeMap.get_insert map key key' v

def arcticStore (A : Arctic) : Store A.Map NonNullStr where
  get := A.get
  upsert := A.upsert
  get_upsert := A.get_upsert

/-- where a worker's operation looks; the sum and the product wrap around -/
def probeIndex (thread : ℕ) (operation : UInt64) (threads len : ℕ) : Option UInt64 :=
  let stride := UInt64.ofNat len / max (UInt64.ofNat threads) 1
  checkedMod (UInt64.ofNat thread * stride + operation) (UInt64.ofNat len)

/-- `operation.is_multiple_of(WRITE_EVERY as u64)` -/
def isWrite (operation : UInt64) : Bool := operation % 20 == 0

def getBody (get : M → Key → Option UInt64) (probes : List Key) (t : Fin n) (operation : UInt64) (map : M) :
    Option (UInt64 × M) := do
  let index ← probeIndex t operation n probes.length
  let key ← probes[index.toNat]?
  some ((get map key).getD 0, map)

def mixedBody [DecidableEq Key] (store : Store M Key) (probes : List Key) (t : Fin n) (operation : UInt64) (map : M) :
    Option (UInt64 × M) := do
  let index ← probeIndex t operation n probes.length
  let key ← probes[index.toNat]?
  if isWrite operation then some (operation, store.upsert map key operation)
  else some ((store.get map key).getD 0, map)

/-- the index, where there are probes -/
def indexOf (n : ℕ) (t : ℕ) (operation : UInt64) (len : ℕ) : UInt64 :=
  (UInt64.ofNat t * (UInt64.ofNat len / max (UInt64.ofNat n) 1) + operation) % UInt64.ofNat len

theorem probeIndex_eq {len : ℕ} (hpos : 0 < len) (hlen : len < 2 ^ 64) (t : ℕ) (operation : UInt64) :
    probeIndex t operation n len = some (indexOf n t operation len) ∧ (indexOf n t operation len).toNat < len := by
  have hcount : (UInt64.ofNat len).toNat = len := ofNat_toNat_of_lt hlen
  obtain ⟨index, hindex, hvalue⟩ := checkedMod_some (a := UInt64.ofNat t * (UInt64.ofNat len /
    max (UInt64.ofNat n) 1) + operation) (b := UInt64.ofNat len) (by omega)
  have heq : index = indexOf n t operation len := checkedMod_eq hindex
  subst heq
  exact ⟨hindex, by rw [hvalue, hcount]; exact Nat.mod_lt _ hpos⟩

/-! ## Reading -/

/-- what is still to be added to the sink -/
def pending (iters : UInt64) (value : UInt64 → UInt64) : Agent → UInt64
  | .worker .arriving => ∑ k ∈ Finset.range iters.toNat, value (UInt64.ofNat k)
  | .worker .waiting => ∑ k ∈ Finset.range iters.toNat, value (UInt64.ofNat k)
  | .worker .spinning => ∑ k ∈ Finset.range iters.toNat, value (UInt64.ofNat k)
  | .worker (.working operation total) =>
    total + ∑ k ∈ Finset.Ico operation.toNat iters.toNat, value (UInt64.ofNat k)
  | _ => 0

section Reads

variable (iters : UInt64) {body : Fin n → UInt64 → M → Option (UInt64 × M)} {map : M}
  {value : Fin n → UInt64 → UInt64} (hreads : ∀ t operation, body t operation map = some (value t operation, map))

include hreads

theorem workerStep_reads {t : Fin n} {g g' : Shared M n} {pc pc' : WorkerPc} (hmap : g.map = map)
    (hstep : workerStep iters body t g pc = some (g', pc')) :
    g'.map = map ∧
      g'.sink + pending iters (value t) (.worker pc') = g.sink + pending iters (value t) (.worker pc) := by
  cases pc with
  | arriving =>
    cases hstep
    exact ⟨hmap, rfl⟩
  | waiting =>
    simp only [workerStep] at hstep
    split_ifs at hstep
    cases hstep
    exact ⟨hmap, rfl⟩
  | spinning =>
    simp only [workerStep] at hstep
    split_ifs at hstep
    cases hstep
    refine ⟨hmap, ?_⟩
    simp only [pending, UInt64.toNat_zero, zero_add, Nat.Ico_zero_eq_range]
  | working operation total =>
    simp only [workerStep] at hstep
    split_ifs at hstep with hlt
    · rw [hmap, hreads] at hstep
      cases hstep
      refine ⟨rfl, ?_⟩
      have hnext := operation_succ hlt
      have hsum := Finset.sum_eq_sum_Ico_succ_bot (UInt64.lt_iff_toNat_lt.1 hlt) fun k => value t (UInt64.ofNat k)
      rw [UInt64.ofNat_toNat] at hsum
      simp only [pending, hnext, hsum, add_assoc]
    · cases hstep
      refine ⟨hmap, ?_⟩
      have hempty : Finset.Ico operation.toNat iters.toNat = ∅ := by
        rw [UInt64.lt_iff_toNat_lt] at hlt
        exact Finset.Ico_eq_empty hlt
      simp only [pending, hempty, Finset.sum_empty, add_zero]
  | exiting =>
    cases hstep
    exact ⟨hmap, rfl⟩
  | done => cases hstep
  | panicked => cases hstep

/-- **A sum of reads.** At every moment the sink and what is still to be added to it are the sum of all operations. -/
theorem sum_reads (sched : List (Party n)) :
    (run (step iters body) (start map) sched).shared.map = map ∧
      (run (step iters body) (start map) sched).shared.sink +
        ∑ t : Fin n, pending iters (value t) ((run (step iters body) (start map) sched).locals (some t)) =
        ∑ t : Fin n, ∑ k ∈ Finset.range iters.toNat, value t (UInt64.ofNat k) := by
  have hmaps : ∀ (s : State (Party n) (Shared M n) Agent) t g l, s.shared.map = map →
      step iters body t s.shared (s.locals t) = some (g, l) → g.map = map := by
    intro s t g l hmap hstep
    rcases step_cases iters body hstep with ⟨pc, pc', rfl, -, rfl, hmain⟩ | ⟨u, pc, pc', rfl, -, rfl, hworker⟩
    · rw [(mainStep_frame hmain).1, hmap]
    · exact (workerStep_reads iters hreads hmap hworker).1
  refine ⟨run_inv (fun s => s.shared.map = map) hmaps (start map) rfl sched, ?_⟩
  have hsum := run_conserves (fun s => s.shared.map = map) (fun g => g.sink)
    (fun p l => p.elim 0 fun t => pending iters (value t) l)
    (∑ t : Fin n, ∑ k ∈ Finset.range iters.toNat, value t (UInt64.ofNat k)) hmaps (fun s t g l hmap _ hstep => ?_)
    (start map) rfl ?_ sched
  · simpa only [Fintype.sum_option, Option.elim, zero_add] using hsum
  · rcases step_cases iters body hstep with ⟨pc, pc', rfl, -, rfl, hmain⟩ | ⟨u, pc, pc', rfl, hl, rfl, hworker⟩
    · rw [(mainStep_frame hmain).2]
      rfl
    · rw [hl]
      exact (workerStep_reads iters hreads hmap hworker).2
  · rw [Fintype.sum_option]
    exact (zero_add _).trans (zero_add _)

/-- what the main thread reads from the sink -/
theorem sink_reads (sched : List (Party n)) (sink : UInt64)
    (hsink : (run (step iters body) (start map) sched).locals none = .main (.finished sink)) :
    sink = ∑ t : Fin n, ∑ k ∈ Finset.range iters.toNat, value t (UInt64.ofNat k) := by
  refine (run_inv (fun s => (∃ sched, s = run (step iters body) (start map) sched) ∧
    ∀ sink, s.locals none = .main (.finished sink) →
      sink = ∑ t : Fin n, ∑ k ∈ Finset.range iters.toNat, value t (UInt64.ofNat k)) (fun s t g l hs hstep => ?_)
    (start map) ⟨⟨[], rfl⟩, nofun⟩ sched).2 sink hsink
  obtain ⟨⟨before, rfl⟩, hbefore⟩ := hs
  refine ⟨⟨before ++ [t], by rw [run_append, run_cons, run_nil, exec_some hstep]⟩, fun sink hsink => ?_⟩
  dsimp only at hsink
  rcases step_cases iters body hstep with ⟨pc, pc', rfl, hl, rfl, hmain⟩ | ⟨u, pc, pc', rfl, -, rfl, -⟩
  · rw [Function.update_self] at hsink
    cases hsink
    -- the sink is loaded after the last worker has been joined
    cases pc with
    | loading =>
      cases hmain
      obtain ⟨-, hsum⟩ := sum_reads iters hreads before
      have hdone := done_of_stopped iters body map before rfl hl
      simp only [hdone, pending, Finset.sum_const_zero, add_zero] at hsum
      exact hsum
    | joining worker =>
      simp only [mainStep] at hmain
      split at hmain
      · split at hmain <;> cases hmain
      · cases hmain
    | waiting =>
      simp only [mainStep] at hmain
      split_ifs at hmain
      cases hmain
    | _ => cases hmain
  · rw [Function.update_of_ne (by simp)] at hsink
    exact hbefore sink hsink

end Reads

/-! ## One operation after another -/

/-- how many operations a worker has performed -/
def WorkerPc.performed (iters : UInt64) : WorkerPc → ℕ
  | .arriving => 0
  | .waiting => 0
  | .spinning => 0
  | .working operation _ => operation.toNat
  | .exiting => iters.toNat
  | .done => iters.toNat
  | .panicked => 0

/-- no more than it should, and none has panicked -/
def WorkerPc.Sound (iters : UInt64) : WorkerPc → Prop
  | .arriving => True
  | .waiting => True
  | .spinning => True
  | .working operation _ => operation ≤ iters
  | .exiting => True
  | .done => True
  | .panicked => False

section Bodies

variable {iters : UInt64} {body : Fin n → UInt64 → M → Option (UInt64 × M)}
  (hbody : ∀ t operation m, ∃ r, body t operation m = some r)

include hbody

/-- a worker performs its next operation, or does not touch the map -/
theorem workerStep_sound {t : Fin n} {g g' : Shared M n} {pc pc' : WorkerPc} (hpc : pc.Sound iters)
    (hstep : workerStep iters body t g pc = some (g', pc')) :
    pc'.Sound iters ∧ (g'.map = g.map ∧ pc'.performed iters = pc.performed iters ∨
      ∃ operation r, pc.performed iters = operation.toNat ∧ body t operation g.map = some r ∧ g'.map = r.2 ∧
        pc'.performed iters = operation.toNat + 1) := by
  cases pc with
  | arriving =>
    cases hstep
    exact ⟨trivial, Or.inl ⟨rfl, rfl⟩⟩
  | waiting =>
    simp only [workerStep] at hstep
    split_ifs at hstep
    cases hstep
    exact ⟨trivial, Or.inl ⟨rfl, rfl⟩⟩
  | spinning =>
    simp only [workerStep] at hstep
    split_ifs at hstep
    cases hstep
    exact ⟨UInt64.le_iff_toNat_le.2 (Nat.zero_le _), Or.inl ⟨rfl, rfl⟩⟩
  | working operation total =>
    simp only [workerStep] at hstep
    split_ifs at hstep with hlt
    · obtain ⟨r, hr⟩ := hbody t operation g.map
      rw [hr] at hstep
      cases hstep
      have hnext := operation_succ hlt
      refine ⟨?_, Or.inr ⟨operation, r, rfl, hr, rfl, hnext⟩⟩
      rw [WorkerPc.Sound, UInt64.le_iff_toNat_le, hnext]
      exact UInt64.lt_iff_toNat_lt.1 hlt
    · cases hstep
      have hall : operation = iters := UInt64.le_antisymm hpc (UInt64.not_lt.1 hlt)
      exact ⟨trivial, Or.inl ⟨rfl, by rw [hall]; rfl⟩⟩
  | exiting =>
    cases hstep
    exact ⟨trivial, Or.inl ⟨rfl, rfl⟩⟩
  | done => cases hstep
  | panicked => cases hstep

theorem sound_at (map : M) (sched : List (Party n)) (t : Fin n) {pc : WorkerPc}
    (hpc : (run (step iters body) (start map) sched).locals (some t) = .worker pc) : pc.Sound iters := by
  refine run_inv (fun s => ∀ t pc, s.locals (some t) = .worker pc → pc.Sound iters) (fun s p g l hs hstep => ?_)
    (start map) (fun t pc h => ?_) sched t pc hpc
  · intro t pc hpc
    dsimp only at hpc
    rcases step_cases iters body hstep with ⟨mpc, mpc', rfl, -, rfl, -⟩ | ⟨u, w, w', rfl, hl, rfl, hworker⟩
    · rw [Function.update_of_ne (by simp)] at hpc
      exact hs t pc hpc
    · by_cases hu : t = u
      · subst hu
        rw [Function.update_self] at hpc
        cases hpc
        exact (workerStep_sound hbody (hs t w hl) hworker).1
      · rw [Function.update_of_ne fun h => hu (Option.some.inj h)] at hpc
        exact hs t pc hpc
  · cases h
    trivial

/-- **No panic** of a worker, -/
theorem worker_not_panicked (map : M) (sched : List (Party n)) (t : Fin n) :
    (run (step iters body) (start map) sched).locals (some t) ≠ .worker .panicked :=
  fun hpanicked => sound_at hbody map sched t hpanicked

/-- nor of the main thread -/
theorem main_not_panicked (map : M) (sched : List (Party n)) :
    (run (step iters body) (start map) sched).locals none ≠ .main .panicked := by
  intro hpanicked
  obtain ⟨pc, hpc, hmain⟩ := main_at iters body map sched
  rw [hpanicked] at hpc
  cases hpc
  obtain ⟨t, ht⟩ := hmain.failed rfl
  obtain ⟨w, hw, hok⟩ := worker_at iters body map sched t
  rw [hok.exits] at ht
  have hsound := sound_at hbody map sched t hw
  cases w with
  | panicked => exact hsound
  | _ => cases ht

/-- every run can be finished -/
theorem finishes (map : M) (sched : List (Party n)) :
    ∃ more sink, (run (step iters body) (start map) (sched ++ more)).locals none = .main (.finished sink) := by
  obtain ⟨more, ⟨pc, hpc, hover⟩, -⟩ := scaled_finishes iters body map sched
  cases pc with
  | finished sink => exact ⟨more, sink, hpc⟩
  | panicked => exact absurd hpc (main_not_panicked hbody map _)
  | _ => cases hover

end Bodies

/-! ## The arms that read -/

theorem getElem?_btreePath {probes : List String} (hprobes : probes.Nodup) {i : ℕ} (hi : i < probes.length) :
    (btreePath probes)[probes[i]]? = some (UInt64.ofNat i) := by
  rw [btreePath_get hprobes, entries]
  exact List.mem_map.2 ⟨(probes[i], i), List.mem_zipIdx_iff_getElem?.2 (List.getElem?_eq_getElem hi), rfl⟩

/-- **An arm of the first group**, over a map that it is handed, at every moment of every interleaving -/
structure GetArm (get : M → Key → Option UInt64) (map : M) (probes : List Key) (n : ℕ) (iters : UInt64) : Prop where
  kept : ∀ sched : List (Party n), (run (step iters (getBody get probes)) (start map) sched).shared.map = map
  worker : ∀ (sched : List (Party n)) t,
    (run (step iters (getBody get probes)) (start map) sched).locals (some t) ≠ .worker .panicked
  main : ∀ sched : List (Party n),
    (run (step iters (getBody get probes)) (start map) sched).locals none ≠ .main .panicked
  total : ∀ (sched : List (Party n)) (sink : UInt64),
    (run (step iters (getBody get probes)) (start map) sched).locals none = .main (.finished sink) →
      sink = ∑ t : Fin n, ∑ k ∈ Finset.range iters.toNat, indexOf n t (UInt64.ofNat k) probes.length
  ends : ∀ sched : List (Party n), ∃ more sink,
    (run (step iters (getBody get probes)) (start map) (sched ++ more)).locals none = .main (.finished sink)

/-- each probe has its position as value -/
theorem getArm_of_get {get : M → Key → Option UInt64} {map : M} {probes : List Key} (hpos : 0 < probes.length)
    (hlen : probes.length < 2 ^ 64) (hget : ∀ i, ∀ h : i < probes.length, get map probes[i] = some (UInt64.ofNat i))
    (n : ℕ) (iters : UInt64) : GetArm get map probes n iters := by
  have hreads : ∀ (t : Fin n) operation,
      getBody get probes t operation map = some (indexOf n t operation probes.length, map) := by
    intro t operation
    obtain ⟨hindex, hlt⟩ := probeIndex_eq (n := n) hpos hlen t operation
    rw [getBody, hindex]
    simp only [Option.bind_eq_bind, Option.bind_some, List.getElem?_eq_getElem hlt, hget _ hlt, Option.getD_some,
      UInt64.ofNat_toNat]
  have hbody : ∀ (t : Fin n) operation m, ∃ r, getBody get probes t operation m = some r := by
    intro t operation m
    obtain ⟨hindex, hlt⟩ := probeIndex_eq (n := n) hpos hlen t operation
    rw [getBody, hindex]
    simp only [Option.bind_eq_bind, Option.bind_some, List.getElem?_eq_getElem hlt]
    exact ⟨_, rfl⟩
  exact ⟨fun sched => (sum_reads iters hreads sched).1, worker_not_panicked hbody map, main_not_panicked hbody map,
    sink_reads iters hreads, finishes hbody map⟩

/-- **The gets.** -/
theorem gets_total (A : Arctic) {size : ℕ} (hpos : 0 < size) (hsize : size < 2 ^ 64) (n : ℕ) (iters : UInt64) :
    ∃ probes arcticProbes arctic, shuffledProbes (pathKeys size) = some probes ∧ probes.length = size ∧
      probes.mapM nonNull = some arcticProbes ∧ arcticProbes.length = size ∧
      arcticLoad A arcticProbes = some arctic ∧ (btreePath probes).size = size ∧
      found (A.get arctic) arcticProbes = size ∧ GetArm btreeGet (btreePath probes) probes n iters ∧
      GetArm A.get arctic arcticProbes n iters := by
  obtain ⟨probes, hprobes, hperm⟩ := shuffledProbes_perm (pathKeys size)
  have hnodup : probes.Nodup := hperm.nodup_iff.2 (pathKeys_nodup size)
  have hlength : probes.length = size := hperm.length_eq.trans (length_pathKeys size)
  obtain ⟨arcticProbes, hkeys, hval⟩ := mapM_nonNull fun p hp => null_notMem_pathKeys p (hperm.mem_iff.1 hp)
  have harctic : arcticProbes.length = probes.length := by rw [← hval, List.length_map]
  have hkeysNodup : arcticProbes.Nodup := by
    rw [← hval] at hnodup
    exact hnodup.of_map _
  obtain ⟨arctic, hload, -, hget⟩ := load_some A hkeysNodup
  have hpositions : ∀ i, ∀ h : i < arcticProbes.length, A.get arctic arcticProbes[i] = some (UInt64.ofNat i) := by
    intro i h
    have hi : i < probes.length := harctic ▸ h
    have hkey : arcticProbes[i].val = probes[i] := by
      simp only [← hval, List.getElem_map]
    rw [hget, hval, hkey]
    exact getElem?_btreePath hnodup hi
  refine ⟨probes, arcticProbes, arctic, hprobes, hlength, hkeys, by omega, hload, ?_, ?_, ?_, ?_⟩
  · rw [TreeMap.size_eq_of_keys _ hnodup (mem_btreePath hnodup), hlength]
  · rw [found_eq fun key hkey => ?_, harctic, hlength]
    obtain ⟨i, hi, rfl⟩ := List.mem_iff_getElem.1 hkey
    rw [hpositions i hi]
    rfl
  · exact getArm_of_get (by omega) (by omega) (fun i h => getElem?_btreePath hnodup h) n iters
  · exact getArm_of_get (by omega) (by omega) hpositions n iters

/-- eight readers of the smallest size -/
theorem gets_total_eight : ∃ probes, shuffledProbes (pathKeys 163) = some probes ∧ probes.length = 163 ∧
    ∀ (sched : List (Party 8)) (sink : UInt64),
      (run (step 100 (getBody btreeGet probes)) (start (btreePath probes)) sched).locals none =
          .main (.finished sink) →
        sink = ∑ t : Fin 8, ∑ k ∈ Finset.range 100, indexOf 8 t (UInt64.ofNat k) 163 := by
  obtain ⟨probes, -, -, hprobes, hlength, -, -, -, -, -, harm, -⟩ :=
    gets_total sortedArctic (show 0 < 163 by decide) (by decide) 8 100
  refine ⟨probes, hprobes, hlength, fun sched sink hsink => ?_⟩
  rw [harm.total sched sink hsink, hlength]
  rfl

/-! ## The arms that write -/

section Mixed

variable [DecidableEq Key] {store : Store M Key}

/-- the key an operation comes to -/
def keyOf (probes : List Key) (t : Fin n) (operation : UInt64) : Option Key :=
  probes[(indexOf n t operation probes.length).toNat]?

def writes (probes : List Key) (t : Fin n) (key : Key) (operation : UInt64) : Bool :=
  isWrite operation && keyOf probes t operation == some key

/-- the last of the first `count` operations of a worker that writes to a key -/
def lastWrite (probes : List Key) (t : Fin n) (key : Key) (count : ℕ) : Option UInt64 :=
  ((words count).filter (writes probes t key)).getLast?

theorem lastWrite_succ (probes : List Key) (t : Fin n) (key : Key) (operation : UInt64) :
    lastWrite probes t key (operation.toNat + 1) =
      if writes probes t key operation then some operation else lastWrite probes t key operation.toNat := by
  rw [lastWrite, words_succ, UInt64.ofNat_toNat, List.filter_append]
  split_ifs with h
  · simp [h]
  · simp [h, lastWrite]

theorem mixedBody_eq (store : Store M Key) {probes : List Key} (hpos : 0 < probes.length)
    (hlen : probes.length < 2 ^ 64) (t : Fin n) (operation : UInt64) (map : M) :
    ∃ key ∈ probes, keyOf probes t operation = some key ∧ mixedBody store probes t operation map =
      some (if isWrite operation then (operation, store.upsert map key operation)
        else ((store.get map key).getD 0, map)) := by
  obtain ⟨hindex, hlt⟩ := probeIndex_eq (n := n) hpos hlen t operation
  refine ⟨probes[(indexOf n t operation probes.length).toNat], List.getElem_mem hlt, List.getElem?_eq_getElem hlt, ?_⟩
  rw [mixedBody, hindex]
  simp only [Option.bind_eq_bind, Option.bind_some, List.getElem?_eq_getElem hlt]
  split_ifs <;> rfl

/-- what an operation does to the value of a key -/
theorem mixedBody_get {probes : List Key} (hpos : 0 < probes.length) (hlen : probes.length < 2 ^ 64) {t : Fin n}
    {operation : UInt64} {map : M} {r : UInt64 × M} (hr : mixedBody store probes t operation map = some r) (key : Key) :
    store.get r.2 key = if writes probes t key operation then some operation else store.get map key := by
  obtain ⟨own, -, hown, hbody⟩ := mixedBody_eq store hpos hlen t operation map
  obtain rfl := Option.some.inj (hbody.symm.trans hr)
  rw [writes, hown]
  by_cases hwrite : isWrite operation = true
  · rw [if_pos hwrite, store.get_upsert]
    simp [hwrite]
  · rw [if_neg hwrite]
    simp [hwrite]

/-- the keys are those of the start, and a key has its value of the start, or the last that some worker has written -/
structure MapOk (store : Store M Key) (probes : List Key) (map₀ map : M) (performed : Fin n → ℕ) : Prop where
  keys : ∀ key, (store.get map key).isSome = (store.get map₀ key).isSome
  values : ∀ key, store.get map key = store.get map₀ key ∧ (∀ t, lastWrite probes t key (performed t) = none) ∨
    ∃ t o, lastWrite probes t key (performed t) = some o ∧ store.get map key = some o

/-- **One operation.** -/
theorem mapOk_step {probes : List Key} (hpos : 0 < probes.length) (hlen : probes.length < 2 ^ 64)
    {map₀ map : M} (hprobes : ∀ key ∈ probes, (store.get map₀ key).isSome) {performed : Fin n → ℕ}
    (h : MapOk store probes map₀ map performed) {t : Fin n} {operation : UInt64} (ht : performed t = operation.toNat)
    {r : UInt64 × M} (hr : mixedBody store probes t operation map = some r) :
    MapOk store probes map₀ r.2 (Function.update performed t (operation.toNat + 1)) := by
  have hlast : ∀ u key, lastWrite probes u key (Function.update performed t (operation.toNat + 1) u) =
      if u = t ∧ writes probes t key operation = true then some operation
      else lastWrite probes u key (performed u) := by
    intro u key
    by_cases hu : u = t
    · subst hu
      rw [Function.update_self, lastWrite_succ, ht]
      simp
    · rw [Function.update_of_ne hu, if_neg fun h => hu h.1]
  refine ⟨fun key => ?_, fun key => ?_⟩
  · obtain ⟨own, hmem, -, hbody⟩ := mixedBody_eq store hpos hlen t operation map
    obtain rfl := Option.some.inj (hbody.symm.trans hr)
    split_ifs
    · rw [store.get_upsert]
      split_ifs with hown
      · rw [← hown, hprobes own hmem]
        rfl
      · exact h.keys key
    · exact h.keys key
  · rw [mixedBody_get hpos hlen hr]
    cases hwrites : writes probes t key operation with
    | true => exact Or.inr ⟨t, operation, by rw [hlast, if_pos ⟨rfl, hwrites⟩], rfl⟩
    | false =>
      have hkept : ∀ u, lastWrite probes u key (Function.update performed t (operation.toNat + 1) u) =
          lastWrite probes u key (performed u) := by
        intro u
        rw [hlast, hwrites]
        simp
      rcases h.values key with ⟨hsame, hnone⟩ | ⟨u, o, hu, hvalue⟩
      · exact Or.inl ⟨hsame, fun u => by rw [hkept, hnone]⟩
      · exact Or.inr ⟨u, o, by rw [hkept, hu], hvalue⟩

def Agent.performed (iters : UInt64) : Agent → ℕ
  | .worker pc => pc.performed iters
  | .main _ => 0

theorem performed_update (iters : UInt64) (locals : Party n → Agent) (u : Fin n) (pc : WorkerPc) :
    (fun t : Fin n => (Function.update locals (some u) (.worker pc) (some t)).performed iters) =
      Function.update (fun t : Fin n => (locals (some t)).performed iters) u (pc.performed iters) := by
  funext t
  by_cases ht : t = u
  · subst ht
    rw [Function.update_self, Function.update_self]
    rfl
  · rw [Function.update_of_ne fun h => ht (Option.some.inj h), Function.update_of_ne ht]

section Runs

variable (store) {probes : List Key} (hpos : 0 < probes.length) (hlen : probes.length < 2 ^ 64) {map₀ : M}
  (hprobes : ∀ key ∈ probes, (store.get map₀ key).isSome) (iters : UInt64)

include hpos hlen

theorem mixedBody_total (t : Fin n) (operation : UInt64) (map : M) :
    ∃ r, mixedBody store probes t operation map = some r := by
  obtain ⟨key, -, -, hbody⟩ := mixedBody_eq store hpos hlen t operation map
  exact ⟨_, hbody⟩

include hprobes

/-- **Every moment** of every interleaving. -/
theorem mapOk_at (sched : List (Party n)) :
    MapOk store probes map₀ (run (step iters (mixedBody store probes)) (start map₀) sched).shared.map
      fun t => ((run (step iters (mixedBody store probes)) (start map₀) sched).locals (some t)).performed iters := by
  have hbody := mixedBody_total (n := n) store hpos hlen
  refine (run_inv (fun s => (∃ sched, s = run (step iters (mixedBody store probes)) (start map₀) sched) ∧
    MapOk store probes map₀ s.shared.map fun t => (s.locals (some t)).performed iters) (fun s p g l hs hstep => ?_)
    (start map₀) ⟨⟨[], rfl⟩, ⟨fun _ => rfl, fun key => Or.inl ⟨rfl, fun t => rfl⟩⟩⟩ sched).2
  obtain ⟨⟨before, hs⟩, hok⟩ := hs
  refine ⟨⟨before ++ [p], by rw [run_append, run_cons, run_nil, ← hs, exec_some hstep]⟩, ?_⟩
  rcases step_cases iters _ hstep with ⟨pc, pc', rfl, -, rfl, hmain⟩ | ⟨u, w, w', rfl, hl, rfl, hworker⟩
  · have hsame : ∀ t : Fin n, Function.update s.locals none (.main pc') (some t) = s.locals (some t) :=
      fun t => Function.update_of_ne (by simp) _ _
    simp only [hsame, (mainStep_frame hmain).1]
    exact hok
  · have hsound : w.Sound iters := sound_at hbody map₀ before u (hs ▸ hl)
    have hw : w.performed iters = (s.locals (some u)).performed iters := by
      rw [hl]
      rfl
    rw [performed_update]
    obtain ⟨-, ⟨hmap, hcount⟩ | ⟨operation, r, hcount, hr, hmap, hnext⟩⟩ := workerStep_sound hbody hsound hworker
    · rw [hmap, hcount, hw, Function.update_eq_self]
      exact hok
    · rw [hmap, hnext]
      exact mapOk_step hpos hlen hprobes hok (hw.symm.trans hcount) hr

omit hprobes

/-- a worker that runs alone leaves a key with what it wrote there last -/
theorem alone_writes (t : Fin n) (key : Key) (k : ℕ) (s : State (Party n) (Shared M n) Agent)
    (hsound : ∀ pc, s.locals (some t) = .worker pc → pc.Sound iters)
    (hs : ∀ o, lastWrite probes t key ((s.locals (some t)).performed iters) = some o →
      store.get s.shared.map key = some o) :
    ∀ o, lastWrite probes t key (((run (step iters (mixedBody store probes)) s (List.replicate k (some t))).locals
        (some t)).performed iters) = some o →
      store.get (run (step iters (mixedBody store probes)) s (List.replicate k (some t))).shared.map key = some o := by
  have hbody := mixedBody_total (n := n) store hpos hlen
  induction k generalizing s with
  | zero => exact hs
  | succ k ih =>
    rw [List.replicate_succ, run_cons]
    cases hstep : step iters (mixedBody store probes) (some t) s.shared (s.locals (some t)) with
    | none =>
      rw [exec_none hstep]
      exact ih s hsound hs
    | some r =>
      rw [exec_some hstep]
      rcases step_cases iters _ hstep with ⟨-, -, h, -⟩ | ⟨u, w, w', hu, hl, hw', hworker⟩
      · cases h
      · cases hu
        obtain ⟨hsound', hmove⟩ := workerStep_sound hbody (hsound w hl) hworker
        have hlocal : Function.update s.locals (some t) r.2 (some t) = .worker w' := by rw [Function.update_self, hw']
        refine ih _ (fun pc hpc => ?_) fun o ho => ?_
        · dsimp only at hpc
          rw [hlocal] at hpc
          cases hpc
          exact hsound'
        · rw [hl] at hs
          dsimp only at ho ⊢
          rw [hlocal] at ho
          rcases hmove with ⟨hmap, hcount⟩ | ⟨operation, r', hcount, hr, hmap, hnext⟩
          · rw [Agent.performed, hcount] at ho
            rw [hmap]
            exact hs o ho
          · simp only [Agent.performed, hcount] at hs
            rw [Agent.performed, hnext, lastWrite_succ] at ho
            rw [hmap, mixedBody_get hpos hlen hr]
            split_ifs at ho ⊢
            · exact ho
            · exact hs o ho

/-- **Any worker may come last**, and what it writes last then stays. -/
theorem last_reachable (map₀ : M) {t : Fin n} {key : Key} {o : UInt64}
    (ho : lastWrite probes t key iters.toNat = some o) :
    ∃ (sched : List (Party n)) (sink : UInt64),
      (run (step iters (mixedBody store probes)) (start map₀) sched).locals none = .main (.finished sink) ∧
      store.get (run (step iters (mixedBody store probes)) (start map₀) sched).shared.map key = some o := by
  have hbody := mixedBody_total (n := n) store hpos hlen
  obtain ⟨before, hspinning, hopen, hothers⟩ := gate_reached iters (mixedBody store probes) map₀ t
  obtain ⟨k, w, hw, hover⟩ := alone_finishes iters (mixedBody store probes) map₀ (t := t) hopen
  have hdone : w = .done := by
    have hsound := sound_at hbody map₀ _ t hw
    cases w with
    | done => rfl
    | panicked => cases hsound
    | _ => cases hover
  have hwritten := alone_writes store hpos hlen iters t key k
    (run (step iters (mixedBody store probes)) (start map₀) before) (fun pc hpc => sound_at hbody map₀ before t hpc)
    (fun o ho => by rw [hspinning] at ho; cases ho)
  rw [← run_append, hw, hdone] at hwritten
  have hall : ∀ u, ∃ w, (run (step iters (mixedBody store probes)) (start map₀)
      (before ++ List.replicate k (some t))).locals (some u) = .worker w ∧ w.over = true := by
    intro u
    by_cases hu : u = t
    · subst hu
      exact ⟨w, hw, hover⟩
    · obtain ⟨w', hw', hover'⟩ := hothers u hu
      refine ⟨w', ?_, hover'⟩
      rw [run_append, run_replicate_of_ne _ fun h => hu (Option.some.inj h), hw']
  obtain ⟨more, sink, hsink⟩ := finishes hbody map₀ (before ++ List.replicate k (some t))
  refine ⟨_, sink, hsink, ?_⟩
  rw [map_kept iters (mixedBody store probes) hall more]
  exact hwritten o ho

include hprobes

/-- **The mixed arms.** -/
theorem mixed_outcomes :
    (∀ sched : List (Party n),
      (∀ key, (store.get (run (step iters (mixedBody store probes)) (start map₀) sched).shared.map key).isSome =
        (store.get map₀ key).isSome) ∧
      (∀ t, (run (step iters (mixedBody store probes)) (start map₀) sched).locals (some t) ≠ .worker .panicked) ∧
      (run (step iters (mixedBody store probes)) (start map₀) sched).locals none ≠ .main .panicked ∧
      ∃ more sink, (run (step iters (mixedBody store probes)) (start map₀) (sched ++ more)).locals none =
        .main (.finished sink)) ∧
    ∀ key v, (∃ (sched : List (Party n)) (sink : UInt64),
        (run (step iters (mixedBody store probes)) (start map₀) sched).locals none = .main (.finished sink) ∧
          store.get (run (step iters (mixedBody store probes)) (start map₀) sched).shared.map key = some v) ↔
      (store.get map₀ key = some v ∧ ∀ t : Fin n, lastWrite probes t key iters.toNat = none) ∨
        ∃ t : Fin n, lastWrite probes t key iters.toNat = some v := by
  have hbody := mixedBody_total (n := n) store hpos hlen
  refine ⟨fun sched => ⟨(mapOk_at store hpos hlen hprobes iters sched).keys, worker_not_panicked hbody map₀ sched,
    main_not_panicked hbody map₀ sched, finishes hbody map₀ sched⟩, fun key v => ⟨?_, ?_⟩⟩
  · rintro ⟨sched, sink, hsink, hv⟩
    have hdone := done_of_stopped iters (mixedBody store probes) map₀ sched
      (show (MainPc.finished sink).stopped = true from rfl) hsink
    have hvalues := (mapOk_at store hpos hlen hprobes iters sched).values key
    simp only [hdone, Agent.performed, WorkerPc.performed] at hvalues
    rcases hvalues with ⟨hsame, hnone⟩ | ⟨t, o, ho, hvalue⟩
    · exact Or.inl ⟨hsame.symm.trans hv, hnone⟩
    · obtain rfl := Option.some.inj (hv.symm.trans hvalue)
      exact Or.inr ⟨t, ho⟩
  · rintro (⟨hv, hnone⟩ | ⟨t, ht⟩)
    · obtain ⟨sched, sink, hsink⟩ := finishes hbody map₀ []
      rw [List.nil_append] at hsink
      have hdone := done_of_stopped iters (mixedBody store probes) map₀ sched
        (show (MainPc.finished sink).stopped = true from rfl) hsink
      have hvalues := (mapOk_at store hpos hlen hprobes iters sched).values key
      simp only [hdone, Agent.performed, WorkerPc.performed] at hvalues
      rcases hvalues with ⟨hsame, -⟩ | ⟨t, o, ho, -⟩
      · exact ⟨sched, sink, hsink, hsame.trans hv⟩
      · rw [hnone t] at ho
        cases ho
    · exact last_reachable store hpos hlen iters map₀ ht

end Runs

end Mixed

/-- one of two workers writes to the second of three keys, of a comparison tree and of a radix tree -/
theorem mixed_outcomes_two :
    (∃ (sched : List (Party 2)) (sink : UInt64),
      (run (step 1 (mixedBody btreeStore (pathKeys 3))) (start (btreePath (pathKeys 3))) sched).locals none =
          .main (.finished sink) ∧
        (run (step 1 (mixedBody btreeStore (pathKeys 3))) (start (btreePath (pathKeys 3)))
          sched).shared.map[pathKey 1]? = some 0) ∧
    ∀ sched : List (Party 2), (run (step 1 (mixedBody (arcticStore sortedArctic) ((pathKeys 3).filterMap nonNull)))
      (start (btreePath (pathKeys 3))) sched).locals none ≠ .main .panicked := by
  have hprobes : ∀ key ∈ pathKeys 3, (btreeStore.get (btreePath (pathKeys 3)) key).isSome := fun key hkey =>
    Std.ExtTreeMap.mem_iff_isSome_getElem?.1 ((mem_btreePath (pathKeys_nodup 3) key).2 hkey)
  have harctic : ∀ key ∈ (pathKeys 3).filterMap nonNull,
      ((arcticStore sortedArctic).get (btreePath (pathKeys 3)) key).isSome := by
    intro key hkey
    obtain ⟨s, hs, hval⟩ := List.mem_filterMap.1 hkey
    exact hprobes key.val (val_of_nonNull hval ▸ hs)
  obtain ⟨-, houtcomes⟩ := mixed_outcomes (n := 2) btreeStore (by decide) (by decide) hprobes 1
  obtain ⟨hruns, -⟩ := mixed_outcomes (n := 2) (arcticStore sortedArctic) (by decide +kernel) (by decide +kernel)
    harctic 1
  exact ⟨(houtcomes (pathKey 1) 0).2 (Or.inr ⟨1, by decide +kernel⟩), fun sched => (hruns sched).2.2.1⟩

end WtBenchmarks.ArcticConcurrent
