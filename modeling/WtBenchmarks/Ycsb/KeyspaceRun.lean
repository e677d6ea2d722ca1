/-
Whole runs of the acknowledged keyspace: any finite set of threads, each calling `acknowledge` on any list of keys.

The shared state carries two ghost lists, the keys passed to a call so far (`entered`) and those whose call has returned
(`returned`). The outline instantiates the keyspace invariant with them; `acknowledge_concurrent` reads off every
moment of every interleaving.
-/
import WtBenchmarks.Ycsb.Keyspace
import Mathlib.Order.Bounds.Basic

namespace WtBenchmarks.Ycsb

open Threads Keyspace

/-- the keyspace, with the history of calls -/
structure Acks (T : Type) where
  ks : Keyspace T
  entered : List UInt64
  returned : List UInt64

/-- a thread: the keys it has still to acknowledge, and the call it is in -/
structure Caller where
  todo : List UInt64
  call : Option (UInt64 × AckPc)
deriving DecidableEq, Repr

/-- the thread has made all its calls -/
def Caller.Done (c : Caller) : Prop := c.todo = [] ∧ c.call = none

variable {T : Type}

/-- one atomic step of a thread: the start of its next call, or a step of the current one -/
def callerStep (t : T) (g : Acks T) (c : Caller) : Option (Acks T × Caller) :=
  match c.call with
  | none =>
    match c.todo with
    | [] => none
    | key :: todo => some ({ g with entered := key :: g.entered }, ⟨todo, some (key, .load)⟩)
  | some (key, pc) =>
    match acknowledge t g.ks key pc with
    | none => none
    | some (ks, some pc) => some ({ g with ks := ks }, { c with call := some (key, pc) })
    | some (ks, none) => some ({ g with ks := ks, returned := key :: g.returned }, { c with call := none })

/-- no call made yet -/
def callers (ks : Keyspace T) (calls : T → List UInt64) : State T (Acks T) Caller :=
  ⟨⟨ks, [], []⟩, fun t => ⟨calls t, none⟩⟩

/-! ## The outline -/

/-- the call of thread `t` is where the keyspace says it is -/
def CallOk (initial : UInt64) (t : T) (g : Acks T) : Option (UInt64 × AckPc) → Prop
  | none => g.ks.holder ≠ some t
  | some (key, pc) => key ∈ g.entered ∧ CallInv initial (· ∈ g.entered) (· ∈ g.returned) t g.ks key pc

/-- the shared state of a run: keys entered so far are keys of the program -/
structure AcksInv (initial : UInt64) (calls : T → List UInt64) (g : Acks T) : Prop where
  ks : KeyspaceInv initial (· ∈ g.entered) (· ∈ g.returned) g.ks
  entered : ∀ k ∈ g.entered, ∃ t, k ∈ calls t

/-- one thread of a run: each of its keys is ahead, in its call, or returned -/
structure CallerInv (initial : UInt64) (calls : T → List UInt64) (t : T) (g : Acks T) (c : Caller) : Prop where
  todo : ∀ k ∈ c.todo, k ∈ calls t
  accounted : ∀ k ∈ calls t, k ∈ c.todo ∨ (∃ pc, c.call = some (k, pc)) ∨ k ∈ g.returned
  call : CallOk initial t g c.call

/-- what a thread's step may do to the shared state. A key may return under another thread's mutex only when it is
already at or below the frontier. -/
structure AcksGuar (t : T) (g g' : Acks T) : Prop where
  quiet : Quiet t g.ks g'.ks
  entered : ∀ k ∈ g.entered, k ∈ g'.entered
  returned : ∀ k ∈ g.returned, k ∈ g'.returned
  early : ∀ u, u ≠ t → g.ks.holder = some u → ∀ k ∈ g'.returned, k ∈ g.returned ∨ k ≤ g.ks.frontier

theorem caller_step_ok {initial : UInt64} {calls : T → List UInt64} (t : T) (g : Acks T) (c : Caller) (g' : Acks T)
    (c' : Caller) (hg : AcksInv initial calls g) (hc : CallerInv initial calls t g c)
    (hs : callerStep t g c = some (g', c')) :
    AcksInv initial calls g' ∧ CallerInv initial calls t g' c' ∧ AcksGuar t g g' := by
  obtain ⟨todo, call⟩ := c
  cases call with
  | none =>
    cases todo with
    | nil => cases hs
    | cons key todo =>
      cases hs
      have hsub : ∀ k ∈ g.entered, k ∈ key :: g.entered := fun k hk => List.mem_cons_of_mem _ hk
      refine ⟨⟨hg.ks.mono hsub, ?_⟩, ⟨?_, ?_, List.mem_cons_self, hc.call⟩, Quiet.refl t _, hsub, fun k hk => hk,
        fun _ _ _ k hk => Or.inl hk⟩
      · intro k hk
        rcases List.mem_cons.1 hk with rfl | hk
        · exact ⟨t, hc.todo k List.mem_cons_self⟩
        · exact hg.entered k hk
      · exact fun k hk => hc.todo k (List.mem_cons_of_mem _ hk)
      · intro k hk
        rcases hc.accounted k hk with hk | ⟨pc, hk⟩ | hk
        · rcases List.mem_cons.1 hk with rfl | hk
          · exact Or.inr (Or.inl ⟨_, rfl⟩)
          · exact Or.inl hk
        · cases hk
        · exact Or.inr (Or.inr hk)
  | some call =>
    obtain ⟨key, pc⟩ := call
    obtain ⟨hkey, hcall⟩ := hc.call
    simp only [callerStep] at hs
    cases hack : acknowledge t g.ks key pc with
    | none => simp [hack] at hs
    | some r =>
      obtain ⟨ks, rest⟩ := r
      obtain ⟨hks, hrest, hquiet⟩ := acknowledge_step hg.ks hkey hcall hack
      cases rest with
      | some pc' =>
        simp only [hack, Option.some.injEq, Prod.mk.injEq] at hs
        obtain ⟨rfl, rfl⟩ := hs
        refine ⟨⟨hks, hg.entered⟩, ⟨hc.todo, ?_, hkey, hrest⟩, hquiet, fun k hk => hk, fun k hk => hk,
          fun _ _ _ k hk => Or.inl hk⟩
        intro k hk
        rcases hc.accounted k hk with hk | ⟨pc, hk⟩ | hk
        · exact Or.inl hk
        · cases hk; exact Or.inr (Or.inl ⟨_, rfl⟩)
        · exact Or.inr (Or.inr hk)
      | none =>
        simp only [hack, Option.some.injEq, Prod.mk.injEq] at hs
        obtain ⟨rfl, rfl⟩ := hs
        obtain ⟨hheld, hret⟩ := hrest
        refine ⟨⟨?_, hg.entered⟩, ⟨hc.todo, ?_, hheld⟩, hquiet, fun k hk => hk,
          fun k hk => List.mem_cons_of_mem _ hk, ?_⟩
        · simpa using hks.cover hret
        · intro k hk
          rcases hc.accounted k hk with hk | ⟨pc, hk⟩ | hk
          · exact Or.inl hk
          · cases hk; exact Or.inr (Or.inr List.mem_cons_self)
          · exact Or.inr (Or.inr (List.mem_cons_of_mem _ hk))
        · intro u hu hk k hkr
          have hsame := hquiet.frame u hu hk
          subst hsame
          rcases List.mem_cons.1 hkr with rfl | hkr
          · exact hret.elim Or.inr fun hp => absurd hp.1 (by simp [hk])
          · exact Or.inl hkr

theorem caller_stable {initial : UInt64} {calls : T → List UInt64} (t u : T) (g g' : Acks T) (c : Caller) (hu : u ≠ t)
    (hq : AcksGuar t g g') (hc : CallerInv initial calls u g c) : CallerInv initial calls u g' c := by
  refine ⟨hc.todo, fun k hk => ?_, ?_⟩
  · exact (hc.accounted k hk).imp id fun h => h.imp id (hq.returned k)
  · obtain ⟨todo, call⟩ := c
    cases call with
    | none => exact fun hk => hc.call ((hq.quiet.holder u hu).1 hk)
    | some call =>
      obtain ⟨hkey, hcall⟩ := hc.call
      exact ⟨hq.entered _ hkey, CallInv.stable hu hq.quiet hq.entered (hq.early u hu) hcall⟩

/-- the proof outline of a run of acknowledgements -/
def ackOutline (initial : UInt64) (calls : T → List UInt64) : Outline (callerStep (T := T)) where
  Glob := AcksInv initial calls
  Loc := CallerInv initial calls
  Guar := AcksGuar
  step_ok := caller_step_ok
  stable t u g g' c hu _ hq hc := caller_stable t u g g' c hu hq hc

theorem callers_holds {initial : UInt64} {ks : Keyspace T} (h : Keyspace.new initial = some ks)
    (calls : T → List UInt64) : (ackOutline initial calls).Holds (callers ks calls) := by
  unfold Keyspace.new at h
  split_ifs at h with hpos
  cases h
  rw [UInt64.lt_iff_toNat_lt] at hpos
  have hsub : (initial - 1).toNat = initial.toNat - 1 := by
    rw [UInt64.toNat_sub_of_le _ _ (by rw [UInt64.le_iff_toNat_le]; exact hpos)]; rfl
  refine ⟨⟨⟨?_, ?_, by simp [callers], fun _ => ⟨by simp [Clean, callers], by simp [Covers, callers]⟩⟩,
    by simp [callers]⟩, fun t => ⟨fun k hk => hk, fun k hk => Or.inl hk, by simp [callers, CallOk]⟩⟩
  · simp only [callers]; omega
  · intro k hi hk
    simp only [callers, UInt64.le_iff_toNat_le] at hi hk
    simp at hpos; omega

/-! ## Every run can be completed -/

/-- an upper bound on the steps left in a call; the advance loop climbs towards the largest key -/
def callWork : AckPc → ℕ
  | .load => 2 ^ 64 + 6
  | .lock => 2 ^ 64 + 5
  | .reload => 2 ^ 64 + 4
  | .insert _ => 2 ^ 64 + 3
  | .advance f => 2 ^ 64 + 2 - f.toNat
  | .store _ => 2
  | .unlock => 1

def Caller.work (c : Caller) : ℕ :=
  (2 ^ 64 + 7) * c.todo.length + match c.call with
    | none => 0
    | some (_, pc) => callWork pc

theorem callWork_pos (pc : AckPc) : 0 < callWork pc := by
  cases pc with
  | advance f => have := f.toNat_lt; simp only [callWork]; omega
  | _ => simp [callWork]

theorem acknowledge_work {t : T} {ks ks' : Keyspace T} {key : UInt64} {pc pc' : AckPc}
    (hs : acknowledge t ks key pc = some (ks', some pc')) : callWork pc' < callWork pc := by
  cases pc with
  | load => simp only [acknowledge] at hs; split_ifs at hs <;> cases hs; decide
  | lock => simp only [acknowledge] at hs; split at hs <;> cases hs; decide
  | reload => simp only [acknowledge] at hs; split_ifs at hs <;> cases hs <;> simp [callWork]
  | insert f => cases hs; simp only [callWork]; omega
  | advance f =>
    have := f.toNat_lt
    simp only [acknowledge] at hs
    split_ifs at hs with h <;> cases hs
    · have := succ_toNat h.1; simp only [callWork]; omega
    · simp only [callWork]; omega
  | store f => cases hs; simp [callWork]
  | unlock => cases hs

theorem caller_work (t : T) (g : Acks T) (c : Caller) (g' : Acks T) (c' : Caller)
    (hs : callerStep t g c = some (g', c')) : c'.work < c.work := by
  obtain ⟨todo, call⟩ := c
  cases call with
  | none =>
    cases todo with
    | nil => cases hs
    | cons key todo => cases hs; simp only [Caller.work, callWork, List.length_cons]; omega
  | some call =>
    obtain ⟨key, pc⟩ := call
    simp only [callerStep] at hs
    split at hs
    · cases hs
    · rename_i hack; cases hs
      have := acknowledge_work hack
      simp only [Caller.work]; omega
    · cases hs
      have := callWork_pos pc
      simp only [Caller.work]; omega

/-- a call that holds the mutex, or finds it free, can move -/
theorem acknowledge_moves {initial : UInt64} {P Q : UInt64 → Prop} {t : T} {ks : Keyspace T} {key : UInt64} {pc : AckPc}
    (hc : CallInv initial P Q t ks key pc) (hfree : ks.holder = none ∨ ks.holder = some t) :
    acknowledge t ks key pc ≠ none := by
  cases pc with
  | lock =>
    have : ks.holder = none := hfree.resolve_right hc
    simp [acknowledge, this]
  | advance f => simp only [acknowledge]; split_ifs <;> simp
  | _ => simp [acknowledge]

theorem caller_moves {initial : UInt64} {calls : T → List UInt64} {t : T} {g : Acks T} {c : Caller}
    (hc : CallerInv initial calls t g c) (hnd : ¬ c.Done) (hfree : g.ks.holder = none ∨ g.ks.holder = some t) :
    callerStep t g c ≠ none := by
  obtain ⟨todo, call⟩ := c
  cases call with
  | none =>
    cases todo with
    | nil => exact absurd ⟨rfl, rfl⟩ hnd
    | cons key todo => simp [callerStep]
  | some call =>
    obtain ⟨key, pc⟩ := call
    obtain ⟨r, hr⟩ := Option.ne_none_iff_exists'.1 (acknowledge_moves hc.call.2 hfree)
    obtain ⟨ks, rest⟩ := r
    cases rest <;> simp [callerStep, hr]

/-- the mutex never blocks a run: its holder can always move, and a free mutex lets every unfinished thread move -/
theorem callers_move [DecidableEq T] {initial : UInt64} {calls : T → List UInt64} (s : State T (Acks T) Caller)
    (h : (ackOutline initial calls).Holds s) (hnd : ∃ t, ¬ (s.locals t).Done) :
    ∃ t, callerStep t s.shared (s.locals t) ≠ none := by
  cases hk : s.shared.ks.holder with
  | none =>
    obtain ⟨t, ht⟩ := hnd
    exact ⟨t, caller_moves (h.2 t) ht (Or.inl hk)⟩
  | some u =>
    refine ⟨u, caller_moves (h.2 u) (fun hd => ?_) (Or.inr hk)⟩
    have := (h.2 u).call
    rw [hd.2] at this
    exact this hk

/-! ## Main result -/

/-- once every call has returned the mutex is free -/
theorem holder_of_done {initial : UInt64} {calls : T → List UInt64} {g : Acks T} {cs : T → Caller}
    (h : ∀ t, CallerInv initial calls t g (cs t)) (hd : ∀ t, (cs t).Done) : g.ks.holder = none := by
  cases hk : g.ks.holder with
  | none => rfl
  | some u =>
    have := (h u).call
    rw [(hd u).2] at this
    exact absurd hk this

/-- once every call has returned, the frontier is the largest key up to which every key was acknowledged -/
theorem frontier_of_done {initial : UInt64} {calls : T → List UInt64} {g : Acks T} {cs : T → Caller}
    (hg : AcksInv initial calls g) (h : ∀ t, CallerInv initial calls t g (cs t)) (hd : ∀ t, (cs t).Done) :
    IsGreatest {f : UInt64 | initial.toNat ≤ f.toNat + 1 ∧ ∀ k, initial ≤ k → k ≤ f → ∃ t, k ∈ calls t}
      g.ks.frontier := by
  refine ⟨⟨hg.ks.base, fun k hi hk => hg.entered k (hg.ks.reached k hi hk)⟩, fun f hf => ?_⟩
  obtain ⟨hclean, hcov⟩ := hg.ks.free (holder_of_done h hd)
  by_contra hlt
  -- the key right after the frontier would have been acknowledged, but it is neither passed nor pending
  have hlt' : g.ks.frontier < f := UInt64.not_le.1 hlt
  have hmax : g.ks.frontier < u64Max := by
    have := f.toNat_lt
    rw [UInt64.lt_iff_toNat_lt] at hlt' ⊢; rw [u64Max_toNat]; omega
  have hsucc := succ_toNat hmax
  obtain ⟨t, ht⟩ := hf.2 (g.ks.frontier + 1)
    (by have := hg.ks.base; rw [UInt64.le_iff_toNat_le]; omega)
    (by rw [UInt64.lt_iff_toNat_lt] at hlt'; rw [UInt64.le_iff_toNat_le]; omega)
  have hret : g.ks.frontier + 1 ∈ g.returned := by
    rcases (h t).accounted _ ht with hk | ⟨pc, hk⟩ | hk
    · rw [(hd t).1] at hk; exact absurd hk List.not_mem_nil
    · rw [(hd t).2] at hk; cases hk
    · exact hk
  rcases hcov _ hret with hk | hk
  · rw [UInt64.le_iff_toNat_le] at hk; omega
  · have := hclean _ hk; omega

/-- **The frontier of the acknowledged keyspace, under concurrency.** For any finite set of threads making any calls
`acknowledge(key)`, at every moment of every interleaving: the frontier is at least the last initial record, it never
decreases afterwards, and every key from the first free one up to it was passed to some call; while the mutex is free,
pending holds no key at or below the frontier nor the one right after it; and once all calls have returned the
frontier is the largest key up to which every key was acknowledged. Every run can be completed. -/
theorem acknowledge_concurrent [Fintype T] [DecidableEq T] (initial : UInt64) (ks : Keyspace T)
    (hnew : Keyspace.new initial = some ks) (calls : T → List UInt64) (sched : List T) :
    let s := run callerStep (callers ks calls) sched
    initial - 1 ≤ s.shared.ks.frontier ∧
    (∀ more, s.shared.ks.frontier ≤ (run callerStep s more).shared.ks.frontier) ∧
    (∀ k, initial ≤ k → k ≤ s.shared.ks.frontier → k ∈ s.shared.entered) ∧
    (∀ k ∈ s.shared.entered, ∃ t, k ∈ calls t) ∧
    (s.shared.ks.holder = none →
      ∀ k ∈ s.shared.ks.pending, s.shared.ks.frontier < k ∧ k ≠ s.shared.ks.frontier + 1) ∧
    ((∀ t, (s.locals t).Done) →
      IsGreatest {f : UInt64 | initial - 1 ≤ f ∧ ∀ k, initial ≤ k → k ≤ f → ∃ t, k ∈ calls t}
        s.shared.ks.frontier) ∧
    ∃ more, ∀ t, ((run callerStep s more).locals t).Done := by
  intro s
  have hinit := callers_holds hnew calls
  have hs : (ackOutline initial calls).Holds s := (ackOutline initial calls).run _ hinit sched
  obtain ⟨hg, hl⟩ := hs
  have hbase : ∀ f : UInt64, initial - 1 ≤ f ↔ initial.toNat ≤ f.toNat + 1 := by
    intro f
    have hpos : 0 < initial := by unfold Keyspace.new at hnew; split_ifs at hnew with h; exact h
    rw [UInt64.le_iff_toNat_le, UInt64.toNat_sub_of_le _ _ (by rw [UInt64.le_iff_toNat_le]; exact hpos)]
    rw [UInt64.toNat_one]; omega
  refine ⟨(hbase _).2 hg.ks.base, fun more => ?_, hg.ks.reached, hg.entered, fun hfree k hk => ?_, fun hd => ?_, ?_⟩
  · exact (ackOutline initial calls).run_rel (fun g g' => g.ks.frontier ≤ g'.ks.frontier)
      (fun _ => UInt64.le_refl _) (fun _ _ _ => UInt64.le_trans) (fun _ _ _ _ hq => hq.quiet.mono) s ⟨hg, hl⟩ more
  · have hlt := (hg.ks.free hfree).1 k hk
    refine ⟨by rw [UInt64.lt_iff_toNat_lt]; omega, fun he => ?_⟩
    have := congrArg UInt64.toNat he
    rw [UInt64.toNat_add, UInt64.toNat_one] at this
    have := Nat.mod_le (s.shared.ks.frontier.toNat + 1) (2 ^ 64)
    omega
  · simpa only [hbase] using frontier_of_done hg hl hd
  · exact run_finishes (ackOutline initial calls).Holds Caller.Done Caller.work (ackOutline initial calls).exec_holds
      (fun s t g c _ => caller_work t s.shared (s.locals t) g c) callers_move s ⟨hg, hl⟩

/-- the out-of-order keys of the unit test, split over two threads -/
theorem acknowledge_concurrent_twelve :
    (Keyspace.new 10 : Option (Keyspace (Fin 2))) = some ⟨9, ∅, none⟩ ∧
      9 ≤ (run callerStep (callers ⟨9, ∅, none⟩ ![[12, 10], [11]]) [0, 1, 0, 0, 1, 1]).shared.ks.frontier :=
  ⟨rfl, (acknowledge_concurrent (T := Fin 2) 10 ⟨9, ∅, none⟩ rfl ![[12, 10], [11]] [0, 1, 0, 0, 1, 1]).1⟩

end WtBenchmarks.Ycsb
