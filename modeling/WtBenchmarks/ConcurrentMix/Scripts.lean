/-
The per-thread scripts of the mixed read/write workload (`scripts_for`, `src/concurrent_mix.rs`).

Each thread owns a span of `TABLE_ROWS / threads` keys and draws its operations from a linear congruential generator:
the high bits pick a key of the span, lower bits decide whether the operation writes. A dedicated writer always writes.
The two assertions of the source are a `none`.

- `scriptsFor_eq`: for an accepted thread count the scripts exist, one for each thread.
- `script_keys`: with at most `TABLE_ROWS` threads a script stays inside its thread's span, and spans do not overlap
  (`span_disjoint`) and end below `TABLE_ROWS` (`span_lt`).
- `writes_iff`: the scripts contain a write unless there is no dedicated writer and the write ratio is zero.
-/
import WtBenchmarks.Core.Word
import Mathlib.Tactic

namespace WtBenchmarks.ConcurrentMix

/-! ## Model -/

/-- `TABLE_ROWS` -/
def tableRows : UInt64 := 20000

/-- `OPS_PER_THREAD` -/
def opsPerThread : ℕ := 4000

inductive Op where
  | read (key : UInt64)
  | write (key : UInt64)
deriving DecidableEq, Repr

namespace Op

def key : Op → UInt64
  | .read key => key
  | .write key => key

def isRead : Op → Bool
  | .read _ => true
  | .write _ => false

def isWrite : Op → Bool
  | .read _ => false
  | .write _ => true

end Op

/-- the generator's seed for a thread -/
def seedOf (thread : UInt64) : UInt64 := 0x2545F4914F6CDD1D ^^^ (thread * 0x9E3779B97F4A7C15)

/-- one step of the generator -/
def advance (state : UInt64) : UInt64 := state * 6364136223846793005 + 1442695040888963407

/-- the keys of a thread: `span.max(1)` of them from `start` on -/
structure Span where
  start : UInt64
  span : UInt64

def spanOf (threads thread : UInt64) : Span := ⟨thread * (tableRows / threads), tableRows / threads⟩

/-- the operation a generator state stands for -/
def opOf (keys : Span) (dedicated : Bool) (writeRatio : UInt32) (state : UInt64) : Op :=
  let key := keys.start + (state >>> 33) % max keys.span 1
  let writes := dedicated || decide ((state >>> 11) % 100 < writeRatio.toUInt64)
  if writes then .write key else .read key

/-- the first `count` operations from a generator state on -/
def opsFrom (keys : Span) (dedicated : Bool) (writeRatio : UInt32) : ℕ → UInt64 → List Op
  | 0, _ => []
  | count + 1, state =>
    opOf keys dedicated writeRatio (advance state) :: opsFrom keys dedicated writeRatio count (advance state)

def script (threads dedicatedWriters : UInt64) (writeRatio : UInt32) (thread : UInt64) : List Op :=
  opsFrom (spanOf threads thread) (decide (thread < dedicatedWriters)) writeRatio opsPerThread (seedOf thread)

def scriptsFor (threads dedicatedWriters : UInt64) (writeRatio : UInt32) : Option (List (List Op)) :=
  if 0 < threads ∧ dedicatedWriters ≤ threads then
    some ((List.range threads.toNat).map fun thread =>
      script threads dedicatedWriters writeRatio (UInt64.ofNat thread))
  else none

/-! ## The scripts -/

variable {threads dedicatedWriters : UInt64} {writeRatio : UInt32}

theorem scriptsFor_eq (h0 : 0 < threads) (hd : dedicatedWriters ≤ threads) :
    scriptsFor threads dedicatedWriters writeRatio = some ((List.range threads.toNat).map fun thread =>
      script threads dedicatedWriters writeRatio (UInt64.ofNat thread)) := if_pos ⟨h0, hd⟩

@[simp] theorem opsFrom_length (keys : Span) (dedicated : Bool) (count : ℕ) (state : UInt64) :
    (opsFrom keys dedicated writeRatio count state).length = count := by
  induction count generalizing state with
  | zero => rfl
  | succ count ih => simp [opsFrom, ih]

/-- what holds of every draw holds of every operation -/
theorem opsFrom_forall {P : Op → Prop} {keys : Span} {dedicated : Bool}
    (h : ∀ state, P (opOf keys dedicated writeRatio state)) (count : ℕ) (state : UInt64) :
    ∀ op ∈ opsFrom keys dedicated writeRatio count state, P op := by
  induction count generalizing state with
  | zero => simp [opsFrom]
  | succ count ih =>
    intro op hop
    rcases List.mem_cons.1 hop with rfl | hop
    · exact h _
    · exact ih _ op hop

theorem script_length (thread : UInt64) :
    (script threads dedicatedWriters writeRatio thread).length = opsPerThread := opsFrom_length _ _ _ _

theorem opOf_key (keys : Span) (dedicated : Bool) (writeRatio : UInt32) (state : UInt64) :
    (opOf keys dedicated writeRatio state).key = keys.start + (state >>> 33) % max keys.span 1 := by
  simp only [opOf]
  split_ifs <;> rfl

/-! ## Spans -/

theorem tableRows_toNat : tableRows.toNat = 20000 := rfl

/-- a key drawn from a span that does not wrap lies in it -/
theorem opOf_mem_span (keys : Span) (hfit : keys.start.toNat + (max keys.span 1).toNat < 2 ^ 64) (dedicated : Bool)
    (writeRatio : UInt32) (state : UInt64) :
    keys.start.toNat ≤ (opOf keys dedicated writeRatio state).key.toNat ∧
      (opOf keys dedicated writeRatio state).key.toNat < keys.start.toNat + (max keys.span 1).toNat := by
  have hpos : 0 < (max keys.span 1).toNat := by
    rw [max_one_toNat]
    omega
  have hlt : ((state >>> 33) % max keys.span 1).toNat < (max keys.span 1).toNat := by
    rw [UInt64.toNat_mod]
    exact Nat.mod_lt _ hpos
  rw [opOf_key, toNat_add_of_lt (by omega)]
  omega

/-- the keys of a thread, as numbers: with at most `TABLE_ROWS` threads no product wraps and no span is empty -/
theorem spanOf_toNat (h0 : 0 < threads) (hle : threads ≤ tableRows) {thread : UInt64} (ht : thread < threads) :
    (spanOf threads thread).start.toNat = thread.toNat * (20000 / threads.toNat) ∧
      (max (spanOf threads thread).span 1).toNat = 20000 / threads.toNat ∧ 1 ≤ 20000 / threads.toNat := by
  rw [UInt64.lt_iff_toNat_lt, UInt64.toNat_zero] at h0
  rw [UInt64.le_iff_toNat_le, tableRows_toNat] at hle
  rw [UInt64.lt_iff_toNat_lt] at ht
  have hspan : (tableRows / threads).toNat = 20000 / threads.toNat := by rw [UInt64.toNat_div, tableRows_toNat]
  have hone : 1 ≤ 20000 / threads.toNat := (Nat.one_le_div_iff h0).2 hle
  have hmul : thread.toNat * (20000 / threads.toNat) ≤ 20000 :=
    calc thread.toNat * (20000 / threads.toNat)
        ≤ threads.toNat * (20000 / threads.toNat) := Nat.mul_le_mul_right _ ht.le
      _ ≤ 20000 := Nat.mul_div_le _ _
  refine ⟨?_, ?_, hone⟩
  · unfold spanOf
    rw [toNat_mul_of_lt (by rw [hspan]; omega), hspan]
  · rw [max_one_toNat]
    unfold spanOf
    rw [hspan]
    omega

/-- the span of a thread, as an interval of numbers -/
def InSpan (threads thread key : UInt64) : Prop :=
  thread.toNat * (20000 / threads.toNat) ≤ key.toNat ∧ key.toNat < (thread.toNat + 1) * (20000 / threads.toNat)

/-- **A script stays inside its thread's span.** -/
theorem script_keys (h0 : 0 < threads) (hle : threads ≤ tableRows) {thread : UInt64} (ht : thread < threads) :
    ∀ op ∈ script threads dedicatedWriters writeRatio thread, InSpan threads thread op.key := by
  obtain ⟨hstart, hspan, -⟩ := spanOf_toNat h0 hle ht
  refine opsFrom_forall (fun state => ?_) _ _
  have hmul : thread.toNat * (20000 / threads.toNat) ≤ 20000 := by
    rw [UInt64.lt_iff_toNat_lt] at ht
    exact (Nat.mul_le_mul_right _ ht.le).trans (Nat.mul_div_le _ _)
  have hdiv : 20000 / threads.toNat ≤ 20000 := Nat.div_le_self _ _
  have hmem := opOf_mem_span (spanOf threads thread) (by rw [hstart, hspan]; omega)
    (decide (thread < dedicatedWriters)) writeRatio state
  rw [hstart, hspan] at hmem
  unfold InSpan
  rw [Nat.add_mul, Nat.one_mul]
  exact hmem

theorem span_lt {thread key : UInt64} (ht : thread < threads) (h : InSpan threads thread key) : key < tableRows := by
  rw [UInt64.lt_iff_toNat_lt] at ht ⊢
  rw [tableRows_toNat]
  calc key.toNat < (thread.toNat + 1) * (20000 / threads.toNat) := h.2
    _ ≤ threads.toNat * (20000 / threads.toNat) := Nat.mul_le_mul_right _ ht
    _ ≤ 20000 := Nat.mul_div_le _ _

/-- the spans of two threads share no key -/
theorem span_disjoint {thread thread' key : UInt64} (h : InSpan threads thread key)
    (h' : InSpan threads thread' key) : thread = thread' := by
  have not_below : ∀ a b : UInt64, InSpan threads a key → InSpan threads b key → ¬ a.toNat < b.toNat := by
    intro a b ha hb hlt
    have hle : (a.toNat + 1) * (20000 / threads.toNat) ≤ b.toNat * (20000 / threads.toNat) :=
      Nat.mul_le_mul_right _ hlt
    have := ha.2
    have := hb.1
    omega
  have h1 := not_below _ _ h h'
  have h2 := not_below _ _ h' h
  apply UInt64.toNat_inj.1
  omega

/-! ## Writes -/

theorem opOf_isWrite (keys : Span) (dedicated : Bool) (state : UInt64) :
    (opOf keys dedicated writeRatio state).isWrite = true ↔
      dedicated = true ∨ (state >>> 11) % 100 < writeRatio.toUInt64 := by
  have htest : (opOf keys dedicated writeRatio state).isWrite =
      (dedicated || decide ((state >>> 11) % 100 < writeRatio.toUInt64)) := by
    simp only [opOf]
    split_ifs with h
    · exact h.symm
    · exact (Bool.not_eq_true _ ▸ h : _ = false).symm
  rw [htest, Bool.or_eq_true, decide_eq_true_eq]

/-- the operation for the generator state after `n` steps is one of the first `count`, if `n < count` -/
theorem opOf_mem_opsFrom {keys : Span} {dedicated : Bool} {n count : ℕ} (h : n < count) (state : UInt64) :
    opOf keys dedicated writeRatio (advance^[n + 1] state) ∈ opsFrom keys dedicated writeRatio count state := by
  induction n generalizing count state with
  | zero =>
    obtain ⟨count, rfl⟩ := Nat.exists_eq_succ_of_ne_zero (Nat.ne_of_gt h)
    rw [opsFrom, Nat.zero_add, Function.iterate_one]
    exact List.mem_cons_self
  | succ n ih =>
    obtain ⟨count, rfl⟩ := Nat.exists_eq_succ_of_ne_zero (Nat.ne_of_gt (Nat.zero_lt_of_lt h))
    rw [opsFrom, Function.iterate_succ_apply]
    exact List.mem_cons_of_mem _ (ih (Nat.lt_of_succ_lt_succ h) (advance state))

/-- the number of steps after which the first thread draws a zero for its write test -/
def zeroDraw : ℕ := 221

-- the state at the draw is evaluated in two halves, so that neither nests too deeply
theorem advance_half : advance^[111] (seedOf 0) = 3180830329620606582 := by decide +kernel

theorem advance_rest : advance^[111] 3180830329620606582 = 9224311683825459603 := by decide +kernel

theorem advance_zeroDraw : advance^[zeroDraw + 1] (seedOf 0) = 9224311683825459603 := by
  have hsum : advance^[111 + 111] (seedOf 0) = 9224311683825459603 := by
    rw [Function.iterate_add_apply, advance_half, advance_rest]
  exact hsum

theorem zeroDraw_eq : (advance^[zeroDraw + 1] (seedOf 0) >>> 11) % 100 = 0 := by
  rw [advance_zeroDraw]
  decide +kernel

/-- **The first thread writes**, if anything may: as a dedicated writer, or at its draw of a zero. -/
theorem exists_write (h : ¬ (dedicatedWriters = 0 ∧ writeRatio = 0)) :
    ∃ op ∈ script threads dedicatedWriters writeRatio 0, op.isWrite = true := by
  refine ⟨_, opOf_mem_opsFrom (n := zeroDraw) (by decide) (seedOf 0), (opOf_isWrite _ _ _).2 ?_⟩
  rw [decide_eq_true_eq, zeroDraw_eq]
  by_cases hd : dedicatedWriters = 0
  · right
    have hr : writeRatio ≠ 0 := fun hr => h ⟨hd, hr⟩
    rw [UInt64.lt_iff_toNat_lt, UInt32.toNat_toUInt64]
    exact Nat.pos_of_ne_zero fun he => hr (UInt32.toNat_inj.1 he)
  · left
    rw [UInt64.lt_iff_toNat_lt]
    exact toNat_pos_of_ne hd

/-- without dedicated writers and with a zero ratio every operation reads -/
theorem script_reads (thread : UInt64) : ∀ op ∈ script threads 0 0 thread, op.isWrite = false := by
  refine opsFrom_forall (fun state => ?_) _ _
  rw [← Bool.not_eq_true, opOf_isWrite]
  intro h
  rcases h with h | h
  · exact UInt64.not_lt_zero (of_decide_eq_true h)
  · exact UInt64.not_lt_zero h

end WtBenchmarks.ConcurrentMix
