/-
The acknowledged keyspace of YCSB Workload D (`AcknowledgedKeyspace`, `src/ycsb/generator.rs`) under concurrency.

`frontier` is an atomic word, `pending` a set behind a mutex. A call `acknowledge(key)` first compares the key with an
unlocked load of the frontier and may return at once. Otherwise it takes the mutex, loads the frontier again, inserts
the key, walks the frontier over the contiguous pending keys in a local variable, stores it and drops the guard. Each
of these is one atomic step (`AckPc`), each turn of the advance loop included, so a stale first load, a key that
arrives twice and a key below the initial records are all interleavings of the model.

- `KeyspaceInv P Q`: everything up to the frontier and everything pending is in `P`; while the mutex is free, pending
  holds nothing at or next to the frontier, and every key in `Q` is at or below the frontier or pending.
- `CallInv`: what one call knows between two of its steps.
- `acknowledge_step`: a step of a call keeps both and disturbs no other call (`Quiet`).
- `acknowledge_concurrent`: the whole-run result for any threads making any calls.
-/
import WtBenchmarks.Core.Threads
import WtBenchmarks.Core.Word
import Std.Data.ExtTreeSet
import Mathlib.Tactic

namespace WtBenchmarks.Ycsb

/-! ## Model -/

/-- `frontier`, `pending` and the thread that holds the mutex around `pending` -/
structure Keyspace (T : Type) where
  frontier : UInt64
  pending : Std.ExtTreeSet UInt64
  holder : Option T

/-- the next atomic step of a call `acknowledge(key)` -/
inductive AckPc where
  /-- the unlocked Acquire load and the early return -/
  | load
  /-- taking the mutex -/
  | lock
  /-- the Relaxed load under the mutex -/
  | reload
  /-- `pending.insert(key)`, the local frontier loaded -/
  | insert (frontier : UInt64)
  /-- the head of the advance loop -/
  | advance (frontier : UInt64)
  /-- the Release store of the local frontier -/
  | store (frontier : UInt64)
  /-- dropping the guard -/
  | unlock
deriving DecidableEq, Repr

namespace Keyspace

variable {T : Type}

/-- `AcknowledgedKeyspace::new`; the assertion on an empty keyspace is the `none` case -/
def new (initialRecords : UInt64) : Option (Keyspace T) :=
  if 0 < initialRecords then some ⟨initialRecords - 1, ∅, none⟩ else none

/-- one atomic step of thread `t` in `acknowledge(key)`. The second component is the rest of the call, `none` once it
has returned; the whole result is `none` while another thread holds the mutex. -/
def acknowledge (t : T) (ks : Keyspace T) (key : UInt64) : AckPc → Option (Keyspace T × Option AckPc)
  | .load => some (ks, if key ≤ ks.frontier then none else some .lock)
  | .lock =>
    match ks.holder with
    | none => some ({ ks with holder := some t }, some .reload)
    | some _ => none
  | .reload => some (ks, if key ≤ ks.frontier then some .unlock else some (.insert ks.frontier))
  | .insert frontier => some ({ ks with pending := ks.pending.insert key }, some (.advance frontier))
  | .advance frontier =>
    if frontier < u64Max ∧ frontier + 1 ∈ ks.pending then
      some ({ ks with pending := ks.pending.erase (frontier + 1) }, some (.advance (frontier + 1)))
    else some (ks, some (.store frontier))
  | .store frontier => some ({ ks with frontier := frontier }, some .unlock)
  | .unlock => some ({ ks with holder := none }, none)

/-! ## The invariant -/

/-- every key in `Q` is at or below `f`, or pending -/
def Covers (f : UInt64) (pending : Std.ExtTreeSet UInt64) (Q : UInt64 → Prop) : Prop :=
  ∀ k, Q k → k ≤ f ∨ k ∈ pending

/-- pending holds neither `f + 1` nor any key up to `f` -/
def Clean (f : UInt64) (pending : Std.ExtTreeSet UInt64) : Prop := ∀ k ∈ pending, f.toNat + 1 < k.toNat

/-- every key from the first free one up to `f` is in `P` -/
def Reached (initial : UInt64) (P : UInt64 → Prop) (f : UInt64) : Prop := ∀ k, initial ≤ k → k ≤ f → P k

structure KeyspaceInv (initial : UInt64) (P Q : UInt64 → Prop) (ks : Keyspace T) : Prop where
  base : initial.toNat ≤ ks.frontier.toNat + 1
  reached : Reached initial P ks.frontier
  waiting : ∀ k ∈ ks.pending, P k
  free : ks.holder = none → Clean ks.frontier ks.pending ∧ Covers ks.frontier ks.pending Q

/-- what a call of thread `t` on `key` knows before its next step -/
def CallInv (initial : UInt64) (P Q : UInt64 → Prop) (t : T) (ks : Keyspace T) (key : UInt64) : AckPc → Prop
  | .load | .lock => ks.holder ≠ some t
  | .reload => ks.holder = some t ∧ Clean ks.frontier ks.pending ∧ Covers ks.frontier ks.pending Q
  | .insert f =>
    ks.holder = some t ∧ f = ks.frontier ∧ f < key ∧ Clean f ks.pending ∧ Covers f ks.pending Q
  | .advance f =>
    ks.holder = some t ∧ ks.frontier ≤ f ∧ Reached initial P f ∧ (∀ k ∈ ks.pending, f < k) ∧
      Covers f ks.pending fun k => Q k ∨ k = key
  | .store f =>
    ks.holder = some t ∧ ks.frontier ≤ f ∧ Reached initial P f ∧ Clean f ks.pending ∧
      Covers f ks.pending fun k => Q k ∨ k = key
  | .unlock =>
    ks.holder = some t ∧ Clean ks.frontier ks.pending ∧ Covers ks.frontier ks.pending fun k => Q k ∨ k = key

/-- what every other thread can rely on: the frontier never falls, the mutex is neither taken from its holder nor
given to a bystander, and whoever holds it sees no change at all -/
structure Quiet (t : T) (ks ks' : Keyspace T) : Prop where
  mono : ks.frontier ≤ ks'.frontier
  holder : ∀ u, u ≠ t → (ks'.holder = some u ↔ ks.holder = some u)
  frame : ∀ u, u ≠ t → ks.holder = some u → ks' = ks

theorem Quiet.refl (t : T) (ks : Keyspace T) : Quiet t ks ks :=
  ⟨UInt64.le_refl _, fun _ _ => Iff.rfl, fun _ _ _ => rfl⟩

/-- a step of the thread that holds the mutex is quiet as long as it leaves the frontier no lower -/
theorem quiet_of_held {t : T} {ks ks' : Keyspace T} (h : ks.holder = some t) (hf : ks.frontier ≤ ks'.frontier)
    (hh : ks'.holder = some t ∨ ks'.holder = none) : Quiet t ks ks' := by
  refine ⟨hf, fun u hu => ?_, fun u hu hk => ?_⟩
  · rcases hh with hh | hh <;> simp [h, hh, Ne.symm hu]
  · exact absurd (Option.some.inj (hk.symm.trans h)) hu

/-- what holds of a call after a step: the assertion of its next step, or, once it has returned, that the mutex is
not its own and that the frontier or the free pending set accounts for the key -/
def RestInv (initial : UInt64) (P Q : UInt64 → Prop) (t : T) (ks : Keyspace T) (key : UInt64) : Option AckPc → Prop
  | some pc => CallInv initial P Q t ks key pc
  | none => ks.holder ≠ some t ∧ (key ≤ ks.frontier ∨ ks.holder = none ∧ key ∈ ks.pending)

/-! ## The steps of a call -/

theorem mem_insert_pending {s : Std.ExtTreeSet UInt64} {k key : UInt64} : k ∈ s.insert key ↔ key = k ∨ k ∈ s := by
  simp [Std.ExtTreeSet.mem_insert]

theorem mem_erase_pending {s : Std.ExtTreeSet UInt64} {k key : UInt64} : k ∈ s.erase key ↔ key ≠ k ∧ k ∈ s := by
  simp [Std.ExtTreeSet.mem_erase]

/-- taking the mutex reveals what holds while it is free -/
theorem lock_step {initial : UInt64} {P Q : UInt64 → Prop} {t : T} {ks ks' : Keyspace T} {key : UInt64}
    {rest : Option AckPc} (h : KeyspaceInv initial P Q ks) (hs : acknowledge t ks key .lock = some (ks', rest)) :
    KeyspaceInv initial P Q ks' ∧ RestInv initial P Q t ks' key rest ∧ Quiet t ks ks' := by
  simp only [acknowledge] at hs
  split at hs
  · rename_i hfree
    cases hs
    obtain ⟨hclean, hcov⟩ := h.free hfree
    refine ⟨⟨h.base, h.reached, h.waiting, by simp⟩, ⟨rfl, hclean, hcov⟩, UInt64.le_refl _, ?_, ?_⟩
    · intro u hu; simp [hfree, Ne.symm hu]
    · intro u _ hk; simp [hfree] at hk
  · cases hs

/-- inserting the key opens the advance loop -/
theorem insert_step {initial : UInt64} {P Q : UInt64 → Prop} {t : T} {ks : Keyspace T} {key f : UInt64}
    (h : KeyspaceInv initial P Q ks) (hkey : P key) (hc : CallInv initial P Q t ks key (.insert f)) :
    let ks' := { ks with pending := ks.pending.insert key }
    KeyspaceInv initial P Q ks' ∧ RestInv initial P Q t ks' key (some (.advance f)) ∧ Quiet t ks ks' := by
  obtain ⟨hheld, rfl, hlt, hclean, hcov⟩ := hc
  refine ⟨⟨h.base, h.reached, ?_, by simp [hheld]⟩, ⟨hheld, UInt64.le_refl _, h.reached, ?_, ?_⟩, ?_⟩
  · intro k hk
    rcases mem_insert_pending.1 hk with rfl | hk
    · exact hkey
    · exact h.waiting k hk
  · intro k hk
    rcases mem_insert_pending.1 hk with rfl | hk
    · exact hlt
    · have := hclean k hk
      rw [UInt64.lt_iff_toNat_lt]; omega
  · rintro k (hk | rfl)
    · exact (hcov k hk).imp id fun hp => mem_insert_pending.2 (Or.inr hp)
    · exact Or.inr (mem_insert_pending.2 (Or.inl rfl))
  · exact quiet_of_held hheld (UInt64.le_refl _) (Or.inl hheld)

/-- one turn of the advance loop: the next key is pending, it leaves the set and joins the reached range -/
theorem advance_turn {initial : UInt64} {P Q : UInt64 → Prop} {t : T} {ks : Keyspace T} {key f : UInt64}
    (h : KeyspaceInv initial P Q ks) (hc : CallInv initial P Q t ks key (.advance f)) (hf : f < u64Max)
    (hmem : f + 1 ∈ ks.pending) :
    let ks' := { ks with pending := ks.pending.erase (f + 1) }
    KeyspaceInv initial P Q ks' ∧ RestInv initial P Q t ks' key (some (.advance (f + 1))) ∧ Quiet t ks ks' := by
  obtain ⟨hheld, hle, hreach, hgt, hcov⟩ := hc
  have hsucc := succ_toNat hf
  refine ⟨⟨h.base, h.reached, ?_, by simp [hheld]⟩, ⟨hheld, ?_, ?_, ?_, ?_⟩, ?_⟩
  · exact fun k hk => h.waiting k (mem_erase_pending.1 hk).2
  · simp only [UInt64.le_iff_toNat_le] at hle ⊢; omega
  · intro k hi hk
    by_cases hkf : k ≤ f
    · exact hreach k hi hkf
    · have hk' : f + 1 = k := by
        simp only [UInt64.le_iff_toNat_le] at hk hkf
        exact UInt64.toNat_inj.1 (by omega)
      exact hk' ▸ h.waiting _ hmem
  · intro k hk
    obtain ⟨hne, hk⟩ := mem_erase_pending.1 hk
    have hlt := hgt k hk
    have hne' : (f + 1).toNat ≠ k.toNat := fun e => hne (UInt64.toNat_inj.1 e)
    simp only [UInt64.lt_iff_toNat_lt] at hlt ⊢; omega
  · intro k hk
    rcases hcov k hk with hk | hk
    · left; simp only [UInt64.le_iff_toNat_le] at hk ⊢; omega
    · by_cases hne : f + 1 = k
      · left; rw [hne]; exact UInt64.le_refl _
      · exact Or.inr (mem_erase_pending.2 ⟨hne, hk⟩)
  · exact quiet_of_held hheld (UInt64.le_refl _) (Or.inl hheld)

/-- the loop stops where the next key is not pending (or there is no next key) -/
theorem clean_of_stop {ks : Keyspace T} {f : UInt64} (hgt : ∀ k ∈ ks.pending, f < k)
    (hstop : ¬ (f < u64Max ∧ f + 1 ∈ ks.pending)) : Clean f ks.pending := by
  intro k hk
  have hlt := hgt k hk
  have hf : f < u64Max := by
    have := k.toNat_lt
    rw [UInt64.lt_iff_toNat_lt] at hlt ⊢; rw [u64Max_toNat]; omega
  have hne : (f + 1).toNat ≠ k.toNat := fun e => hstop ⟨hf, UInt64.toNat_inj.1 e ▸ hk⟩
  rw [succ_toNat hf] at hne
  rw [UInt64.lt_iff_toNat_lt] at hlt
  omega

/-- **Step lemma.** Every step of a call keeps the keyspace invariant and the call's own assertion, and no other
thread can tell it happened beyond `Quiet`. -/
theorem acknowledge_step {initial : UInt64} {P Q : UInt64 → Prop} {t : T} {ks ks' : Keyspace T} {key : UInt64}
    {pc : AckPc} {rest : Option AckPc} (h : KeyspaceInv initial P Q ks) (hkey : P key)
    (hc : CallInv initial P Q t ks key pc) (hs : acknowledge t ks key pc = some (ks', rest)) :
    KeyspaceInv initial P Q ks' ∧ RestInv initial P Q t ks' key rest ∧ Quiet t ks ks' := by
  cases pc with
  | load =>
    cases hs
    refine ⟨h, ?_, Quiet.refl t ks⟩
    split_ifs with hle
    · exact ⟨hc, Or.inl hle⟩
    · exact hc
  | lock => exact lock_step h hs
  | reload =>
    cases hs
    obtain ⟨hheld, hclean, hcov⟩ := hc
    refine ⟨h, ?_, Quiet.refl t ks⟩
    split_ifs with hle
    · exact ⟨hheld, hclean, fun k hk => hk.elim (hcov k) fun e => Or.inl (e ▸ hle)⟩
    · exact ⟨hheld, rfl, UInt64.not_le.1 hle, hclean, hcov⟩
  | insert f => cases hs; exact insert_step h hkey hc
  | advance f =>
    simp only [acknowledge] at hs
    split_ifs at hs with hturn
    · cases hs; exact advance_turn h hc hturn.1 hturn.2
    · cases hs
      obtain ⟨hheld, hle, hreach, hgt, hcov⟩ := hc
      exact ⟨h, ⟨hheld, hle, hreach, clean_of_stop hgt hturn, hcov⟩, Quiet.refl t ks⟩
  | store f =>
    cases hs
    obtain ⟨hheld, hle, hreach, hclean, hcov⟩ := hc
    refine ⟨⟨?_, hreach, h.waiting, by simp [hheld]⟩, ⟨hheld, hclean, hcov⟩, quiet_of_held hheld hle (Or.inl hheld)⟩
    have := h.base
    rw [UInt64.le_iff_toNat_le] at hle
    simp only; omega
  | unlock =>
    cases hs
    obtain ⟨hheld, hclean, hcov⟩ := hc
    have hq : Covers ks.frontier ks.pending Q := fun k hk => hcov k (Or.inl hk)
    refine ⟨⟨h.base, h.reached, h.waiting, fun _ => ⟨hclean, hq⟩⟩, ⟨by simp, ?_⟩,
      quiet_of_held hheld (UInt64.le_refl _) (Or.inr rfl)⟩
    exact (hcov key (Or.inr rfl)).imp id fun hp => ⟨rfl, hp⟩

/-! ## Stability -/

theorem KeyspaceInv.mono {initial : UInt64} {P P' Q : UInt64 → Prop} {ks : Keyspace T} (hP : ∀ k, P k → P' k)
    (h : KeyspaceInv initial P Q ks) : KeyspaceInv initial P' Q ks :=
  ⟨h.base, fun k hi hk => hP k (h.reached k hi hk), fun k hk => hP k (h.waiting k hk), h.free⟩

/-- a returned key that is accounted for joins the covered ones -/
theorem KeyspaceInv.cover {initial key : UInt64} {P Q : UInt64 → Prop} {ks : Keyspace T}
    (h : KeyspaceInv initial P Q ks) (hk : key ≤ ks.frontier ∨ ks.holder = none ∧ key ∈ ks.pending) :
    KeyspaceInv initial P (fun k => k = key ∨ Q k) ks := by
  refine ⟨h.base, h.reached, h.waiting, fun hfree => ⟨(h.free hfree).1, ?_⟩⟩
  rintro k (rfl | hq)
  · exact hk.imp id fun hp => hp.2
  · exact (h.free hfree).2 k hq

/-- an assertion survives quiet steps of other threads, more acknowledged keys, and early returns -/
theorem CallInv.stable {initial key : UInt64} {P P' Q Q' : UInt64 → Prop} {t u : T} {ks ks' : Keyspace T} {pc : AckPc}
    (hu : u ≠ t) (hq : Quiet t ks ks') (hP : ∀ k, P k → P' k)
    (hQ : ks.holder = some u → ∀ k, Q' k → Q k ∨ k ≤ ks.frontier) (h : CallInv initial P Q u ks key pc) :
    CallInv initial P' Q' u ks' key pc := by
  -- `Q'` adds only keys at or below the frontier, so it is covered wherever `Q` is
  have cover : ∀ (f : UInt64) (R : UInt64 → Prop), ks.holder = some u → ks.frontier ≤ f →
      Covers f ks.pending (fun k => Q k ∨ R k) → Covers f ks.pending fun k => Q' k ∨ R k := by
    rintro f R hk hle hc k (hk' | hr)
    · rcases hQ hk k hk' with hq | hf
      · exact hc k (Or.inl hq)
      · exact Or.inl (UInt64.le_trans hf hle)
    · exact hc k (Or.inr hr)
  have cover' : ∀ f, ks.holder = some u → ks.frontier ≤ f → Covers f ks.pending Q → Covers f ks.pending Q' := by
    intro f hk hle hc k hk'
    exact (hQ hk k hk').elim (hc k) fun hf => Or.inl (UInt64.le_trans hf hle)
  cases pc with
  | load => exact fun hk => h ((hq.holder u hu).1 hk)
  | lock => exact fun hk => h ((hq.holder u hu).1 hk)
  | reload =>
    obtain ⟨hk, hclean, hcov⟩ := h
    rw [hq.frame u hu hk]
    exact ⟨hk, hclean, cover' _ hk (UInt64.le_refl _) hcov⟩
  | insert f =>
    obtain ⟨hk, rfl, hlt, hclean, hcov⟩ := h
    rw [hq.frame u hu hk]
    exact ⟨hk, rfl, hlt, hclean, cover' _ hk (UInt64.le_refl _) hcov⟩
  | advance f =>
    obtain ⟨hk, hle, hreach, hgt, hcov⟩ := h
    rw [hq.frame u hu hk]
    exact ⟨hk, hle, fun k hi hkf => hP k (hreach k hi hkf), hgt, cover f _ hk hle hcov⟩
  | store f =>
    obtain ⟨hk, hle, hreach, hclean, hcov⟩ := h
    rw [hq.frame u hu hk]
    exact ⟨hk, hle, fun k hi hkf => hP k (hreach k hi hkf), hclean, cover f _ hk hle hcov⟩
  | unlock =>
    obtain ⟨hk, hclean, hcov⟩ := h
    rw [hq.frame u hu hk]
    exact ⟨hk, hclean, cover _ _ hk (UInt64.le_refl _) hcov⟩

end Keyspace

end WtBenchmarks.Ycsb
