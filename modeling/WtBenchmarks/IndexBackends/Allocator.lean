/-
The counting allocator of `campaigns/index-backends/src/main.rs`: do live bytes and event bytes agree?

The hooks of `CountingAllocator` run on six 64-bit atomics that wrap. An event is a call with the layouts' sizes and the
pointer the system allocator answers, null (0) for a failure; its sequence is `Legal` when the system allocator hands
out blocks of a 64-bit address space that share no byte with a live one, and callers free and resize live blocks with
their current layouts.

- `live_eq_total`: LIVE_BYTES is the total size of the live blocks, in every legal sequence;
- `phase_bytes`: since a reset, ALLOCATED_BYTES and DEALLOCATED_BYTES count what was requested and released, modulo
  `2 ^ 64`;
- `churn_wraps`: a block of 1 GiB allocated `2 ^ 34` times wraps ALLOCATED_BYTES, and the live delta is no longer the
  difference of the two;
- `accounting_balances`: LIVE_BYTES never underflows, the balance since a reset holds modulo `2 ^ 64`, and it holds
  exactly when both byte counters wrapped equally often.
-/
import WtBenchmarks.Core.Blocks

namespace WtBenchmarks.IndexBackends.Allocator

open Blocks

/-! ## Hooks -/

/-- the atomics; an `AllocationSnapshot` is a copy of them -/
structure Counters where
  allocCalls : UInt64
  reallocCalls : UInt64
  deallocCalls : UInt64
  allocatedBytes : UInt64
  deallocatedBytes : UInt64
  liveBytes : UInt64
  deriving DecidableEq

/-- the statics' initial values -/
def zeroed : Counters := ⟨0, 0, 0, 0, 0, 0⟩

/-- what `alloc` and `alloc_zeroed` both do -/
def countAlloc (c : Counters) (size pointer : ℕ) : Counters :=
  if pointer ≠ 0 then
    let size := UInt64.ofNat size
    { c with
      allocCalls := c.allocCalls + 1
      allocatedBytes := c.allocatedBytes + size
      liveBytes := c.liveBytes + size }
  else c

def alloc (c : Counters) (size pointer : ℕ) : Counters := countAlloc c size pointer

def allocZeroed (c : Counters) (size pointer : ℕ) : Counters := countAlloc c size pointer

def dealloc (c : Counters) (size : ℕ) : Counters :=
  let size := UInt64.ofNat size
  { c with
    deallocCalls := c.deallocCalls + 1
    deallocatedBytes := c.deallocatedBytes + size
    liveBytes := c.liveBytes - size }

def realloc (c : Counters) (oldSize newSize newPointer : ℕ) : Counters :=
  if newPointer ≠ 0 then
    let oldSize := UInt64.ofNat oldSize
    let newSize := UInt64.ofNat newSize
    { c with
      reallocCalls := c.reallocCalls + 1
      allocatedBytes := c.allocatedBytes + newSize
      deallocatedBytes := c.deallocatedBytes + oldSize
      liveBytes := if oldSize ≤ newSize then c.liveBytes + (newSize - oldSize) else c.liveBytes - (oldSize - newSize) }
  else c

def resetAllocationEvents (c : Counters) : Counters :=
  { c with
    allocCalls := 0
    reallocCalls := 0
    deallocCalls := 0
    allocatedBytes := 0
    deallocatedBytes := 0 }

/-- the allocation fields of a `PhaseResult` -/
structure PhaseResult where
  allocCalls : UInt64
  reallocCalls : UInt64
  deallocCalls : UInt64
  allocatedBytes : UInt64
  deallocatedBytes : UInt64
  liveBytesBefore : UInt64
  liveBytesAfter : UInt64
  /-- an `i128` -/
  liveBytesDelta : ℤ

def emit (allocation : Counters) (liveBefore : UInt64) : PhaseResult where
  allocCalls := allocation.allocCalls
  reallocCalls := allocation.reallocCalls
  deallocCalls := allocation.deallocCalls
  allocatedBytes := allocation.allocatedBytes
  deallocatedBytes := allocation.deallocatedBytes
  liveBytesBefore := liveBefore
  liveBytesAfter := allocation.liveBytes
  liveBytesDelta := (allocation.liveBytes.toNat : ℤ) - liveBefore.toNat

/-! ## Events -/

inductive Event
  | alloc (size pointer : ℕ)
  | allocZeroed (size pointer : ℕ)
  | dealloc (block : Block)
  | realloc (block : Block) (newSize newPointer : ℕ)
  | reset
  deriving DecidableEq

def Event.count (c : Counters) : Event → Counters
  | .alloc size pointer => Allocator.alloc c size pointer
  | .allocZeroed size pointer => Allocator.allocZeroed c size pointer
  | .dealloc block => Allocator.dealloc c block.size
  | .realloc block newSize newPointer => Allocator.realloc c block.size newSize newPointer
  | .reset => resetAllocationEvents c

/-- the live blocks after an event -/
def Event.heap (heap : List Block) : Event → List Block
  | .alloc size pointer => if pointer ≠ 0 then ⟨pointer, size⟩ :: heap else heap
  | .allocZeroed size pointer => if pointer ≠ 0 then ⟨pointer, size⟩ :: heap else heap
  | .dealloc block => heap.erase block
  | .realloc block newSize newPointer =>
    if newPointer ≠ 0 then ⟨newPointer, newSize⟩ :: heap.erase block else heap
  | .reset => heap

/-- the addresses of a 64-bit machine -/
def space : ℕ := 2 ^ 64

/-- what the system allocator and the callers promise -/
def Event.Allowed (heap : List Block) : Event → Prop
  | .alloc size pointer => pointer ≠ 0 → Fits space heap ⟨pointer, size⟩
  | .allocZeroed size pointer => pointer ≠ 0 → Fits space heap ⟨pointer, size⟩
  | .dealloc block => block ∈ heap
  | .realloc block newSize newPointer =>
    block ∈ heap ∧ (newPointer ≠ 0 → Fits space (heap.erase block) ⟨newPointer, newSize⟩)
  | .reset => True

instance (heap : List Block) : (e : Event) → Decidable (e.Allowed heap)
  | .alloc size pointer => inferInstanceAs (Decidable (pointer ≠ 0 → Fits space heap ⟨pointer, size⟩))
  | .allocZeroed size pointer => inferInstanceAs (Decidable (pointer ≠ 0 → Fits space heap ⟨pointer, size⟩))
  | .dealloc block => inferInstanceAs (Decidable (block ∈ heap))
  | .realloc _ _ _ => inferInstanceAs (Decidable (_ ∧ (_ → Fits space _ _)))
  | .reset => isTrue trivial

/-- every event of the sequence is allowed where it happens -/
def Legal (heap : List Block) : List Event → Prop
  | [] => True
  | e :: events => e.Allowed heap ∧ Legal (e.heap heap) events

instance decidableLegal : (heap : List Block) → (events : List Event) → Decidable (Legal heap events)
  | _, [] => isTrue trivial
  | heap, e :: events =>
    have := decidableLegal (e.heap heap) events
    inferInstanceAs (Decidable (e.Allowed heap ∧ Legal (e.heap heap) events))

/-- the counters after a sequence of events since the program started -/
def counters (events : List Event) : Counters := events.foldl Event.count zeroed

/-- the live blocks then -/
def live (events : List Event) : List Block := events.foldl Event.heap []

/-! ## One event -/

/-- the bytes a successful event asks for -/
def Event.requested : Event → ℕ
  | .alloc size pointer => if pointer ≠ 0 then size else 0
  | .allocZeroed size pointer => if pointer ≠ 0 then size else 0
  | .dealloc _ => 0
  | .realloc _ newSize newPointer => if newPointer ≠ 0 then newSize else 0
  | .reset => 0

/-- the bytes a successful event gives back -/
def Event.released : Event → ℕ
  | .alloc _ _ => 0
  | .allocZeroed _ _ => 0
  | .dealloc block => block.size
  | .realloc block _ newPointer => if newPointer ≠ 0 then block.size else 0
  | .reset => 0

/-- what the event takes from LIVE_BYTES by `fetch_sub` -/
def Event.subtracted : Event → ℕ
  | .dealloc block => block.size
  | .realloc block newSize newPointer => if newPointer ≠ 0 then block.size - newSize else 0
  | _ => 0

section Event

variable {heap : List Block} {e : Event} {c : Counters}

theorem heap_tidy (h : Tidy space heap) (he : e.Allowed heap) : Tidy space (e.heap heap) := by
  cases e with
  | alloc size pointer | allocZeroed size pointer =>
    simp only [Event.heap]
    split_ifs with hnull
    · exact h.cons (he hnull)
    · exact h
  | dealloc block => exact h.erase block
  | realloc block newSize newPointer =>
    simp only [Event.heap]
    split_ifs with hnull
    · exact (h.erase block).cons (he.2 hnull)
    · exact h
  | reset => exact h

theorem heap_total (he : e.Allowed heap) : total (e.heap heap) + e.released = total heap + e.requested := by
  cases e with
  | alloc size pointer | allocZeroed size pointer =>
    simp only [Event.heap, Event.released, Event.requested]
    split_ifs
    · simp only [total_cons]; omega
    · rfl
  | dealloc block => exact total_erase he
  | realloc block newSize newPointer =>
    have herase := total_erase he.1
    simp only [Event.heap, Event.released, Event.requested]
    split_ifs
    · simp only [total_cons]; omega
    · rfl
  | reset => rfl

theorem subtracted_le (he : e.Allowed heap) : e.subtracted ≤ total heap := by
  cases e with
  | dealloc block =>
    have herase := total_erase he
    simp only [Event.subtracted]
    omega
  | realloc block newSize newPointer =>
    have herase := total_erase he.1
    simp only [Event.subtracted]
    split_ifs <;> omega
  | _ => exact Nat.zero_le _

/-- the live counter moves by what is requested and released, in 64-bit arithmetic -/
theorem count_live (c : Counters) (e : Event) :
    (e.count c).liveBytes = c.liveBytes + UInt64.ofNat e.requested - UInt64.ofNat e.released := by
  cases e with
  | alloc size pointer | allocZeroed size pointer =>
    simp only [Event.count, alloc, allocZeroed, countAlloc, Event.requested, Event.released]
    split_ifs <;> simp
  | dealloc block => simp [Event.count, dealloc, Event.requested, Event.released]
  | realloc block newSize newPointer =>
    simp only [Event.count, realloc, Event.requested, Event.released]
    split_ifs <;> simp <;> grind
  | reset => simp [Event.count, resetAllocationEvents, Event.requested, Event.released]

/-- so do the two byte counters, each by its own part -/
theorem count_bytes (c : Counters) (he : e ≠ .reset) :
    (e.count c).allocatedBytes = c.allocatedBytes + UInt64.ofNat e.requested ∧
    (e.count c).deallocatedBytes = c.deallocatedBytes + UInt64.ofNat e.released := by
  cases e with
  | alloc size pointer | allocZeroed size pointer =>
    simp only [Event.count, alloc, allocZeroed, countAlloc, Event.requested, Event.released]
    split_ifs <;> simp
  | dealloc block => simp [Event.count, dealloc, Event.requested, Event.released]
  | realloc block newSize newPointer =>
    simp only [Event.count, realloc, Event.requested, Event.released]
    split_ifs <;> simp
  | reset => exact absurd rfl he

end Event

/-! ## Runs -/

def requested (events : List Event) : ℕ := (events.map Event.requested).sum

def released (events : List Event) : ℕ := (events.map Event.released).sum

theorem legal_append {heap : List Block} {a b : List Event} :
    Legal heap (a ++ b) ↔ Legal heap a ∧ Legal (a.foldl Event.heap heap) b := by
  induction a generalizing heap with
  | nil => simp [Legal]
  | cons e a ih => simp [Legal, ih, and_assoc]

section Run

variable {heap : List Block} {events : List Event}

theorem foldl_tidy (hheap : Tidy space heap) (h : Legal heap events) : Tidy space (events.foldl Event.heap heap) := by
  induction events generalizing heap with
  | nil => exact hheap
  | cons e events ih => exact ih (heap_tidy hheap h.1) h.2

theorem foldl_total (h : Legal heap events) :
    total (events.foldl Event.heap heap) + released events = total heap + requested events := by
  induction events generalizing heap with
  | nil => rfl
  | cons e events ih =>
    have hone := heap_total h.1
    have hrest := ih h.2
    simp only [released, requested, List.map_cons, List.sum_cons, List.foldl_cons] at hrest ⊢
    omega

theorem foldl_live (c : Counters) (events : List Event) : (events.foldl Event.count c).liveBytes =
    c.liveBytes + UInt64.ofNat (requested events) - UInt64.ofNat (released events) := by
  induction events generalizing c with
  | nil => simp [requested, released]
  | cons e events ih =>
    rw [List.foldl_cons, ih, count_live]
    simp only [requested, released, List.map_cons, List.sum_cons, UInt64.ofNat_add]
    grind

theorem foldl_bytes (c : Counters) (h : Event.reset ∉ events) :
    (events.foldl Event.count c).allocatedBytes = c.allocatedBytes + UInt64.ofNat (requested events) ∧
    (events.foldl Event.count c).deallocatedBytes = c.deallocatedBytes + UInt64.ofNat (released events) := by
  induction events generalizing c with
  | nil => simp [requested, released]
  | cons e events ih =>
    rw [List.mem_cons, not_or] at h
    obtain ⟨halloc, hdealloc⟩ := ih (e.count c) h.2
    obtain ⟨hallocOne, hdeallocOne⟩ := count_bytes c (Ne.symm h.1)
    rw [List.foldl_cons, halloc, hdealloc, hallocOne, hdeallocOne]
    simp only [requested, released, List.map_cons, List.sum_cons, UInt64.ofNat_add, UInt64.add_assoc, and_self]

theorem live_lt (h : Legal [] events) : total (live events) < 2 ^ 64 := (foldl_tidy Tidy.nil h).total_lt (by decide)

/-- LIVE_BYTES is the total size of the live blocks -/
theorem live_eq_total (h : Legal [] events) : (counters events).liveBytes.toNat = total (live events) := by
  have hlive := foldl_live zeroed events
  have htotal := foldl_total h
  rw [total_nil, Nat.zero_add] at htotal
  have heq : (counters events).liveBytes = UInt64.ofNat (total (live events)) := by
    unfold counters live
    rw [hlive, ← htotal, UInt64.ofNat_add]
    simp [zeroed]
  rw [heq, UInt64.toNat_ofNat_of_lt' (live_lt h)]

end Run

/-! ## Phases -/

section Phase

variable {before phase : List Event}

/-- what a snapshot shows of the events since a reset -/
theorem phase_bytes (before : List Event) (hreset : Event.reset ∉ phase) :
    (counters (before ++ .reset :: phase)).allocatedBytes = UInt64.ofNat (requested phase) ∧
    (counters (before ++ .reset :: phase)).deallocatedBytes = UInt64.ofNat (released phase) ∧
    (counters (before ++ .reset :: phase)).liveBytes =
      (counters before).liveBytes + UInt64.ofNat (requested phase) - UInt64.ofNat (released phase) := by
  have hbytes := foldl_bytes (resetAllocationEvents (counters before)) hreset
  have hlive := foldl_live (resetAllocationEvents (counters before)) phase
  have hrun : counters (before ++ .reset :: phase) =
      phase.foldl Event.count (resetAllocationEvents (counters before)) := by
    simp [counters, Event.count]
  rw [hrun, hbytes.1, hbytes.2, hlive]
  simp [resetAllocationEvents]

/-- the balance in whole numbers -/
theorem phase_total (h : Legal [] (before ++ .reset :: phase)) :
    total (live (before ++ .reset :: phase)) + released phase = total (live before) + requested phase := by
  have htotal := foldl_total (legal_append.1 h).2
  simpa [live, Event.heap, released, requested, Event.released, Event.requested] using htotal

theorem delta_iff (h : Legal [] (before ++ .reset :: phase)) (hreset : Event.reset ∉ phase) :
    (emit (counters (before ++ .reset :: phase)) (counters before).liveBytes).liveBytesDelta =
        ((counters (before ++ .reset :: phase)).allocatedBytes.toNat : ℤ) -
          (counters (before ++ .reset :: phase)).deallocatedBytes.toNat ↔
      requested phase / 2 ^ 64 = released phase / 2 ^ 64 := by
  obtain ⟨halloc, hdealloc, -⟩ := phase_bytes before hreset
  have htotal := phase_total h
  rw [halloc, hdealloc]
  simp only [emit, live_eq_total h, live_eq_total (legal_append.1 h).1, UInt64.toNat_ofNat']
  omega

end Phase

/-! ## A counter that wraps -/

/-- `n` times a block of 1 GiB is allocated and freed, and then allocated once more -/
def churn : ℕ → List Event
  | 0 => [.alloc (2 ^ 30) 4096]
  | n + 1 => .alloc (2 ^ 30) 4096 :: .dealloc ⟨4096, 2 ^ 30⟩ :: churn n

theorem churn_legal (n : ℕ) : Legal [] (churn n) := by
  induction n with
  | zero => exact ⟨fun _ => by decide, trivial⟩
  | succ n ih => exact ⟨fun _ => by decide, List.mem_singleton_self _, ih⟩

theorem churn_no_reset (n : ℕ) : Event.reset ∉ churn n := by
  induction n with
  | zero => simp [churn]
  | succ n ih => simp [churn, ih]

theorem requested_churn (n : ℕ) : requested (churn n) = (n + 1) * 2 ^ 30 := by
  induction n with
  | zero => rfl
  | succ n ih =>
    simp only [requested, churn, List.map_cons, List.sum_cons, Event.requested] at ih ⊢
    rw [ih, if_pos (by decide)]
    omega

theorem released_churn (n : ℕ) : released (churn n) = n * 2 ^ 30 := by
  induction n with
  | zero => rfl
  | succ n ih =>
    simp only [released, churn, List.map_cons, List.sum_cons, Event.released] at ih ⊢
    rw [ih]
    omega

theorem churn_delta {n : ℕ} (hn : n + 1 = 2 ^ 34) :
    (emit (counters (.reset :: churn n)) zeroed.liveBytes).liveBytesDelta ≠
      ((counters (.reset :: churn n)).allocatedBytes.toNat : ℤ) -
        (counters (.reset :: churn n)).deallocatedBytes.toNat := by
  have hlegal : Legal [] ([] ++ .reset :: churn n) := ⟨trivial, churn_legal n⟩
  have hiff := delta_iff hlegal (churn_no_reset n)
  rw [requested_churn, released_churn] at hiff
  intro hdelta
  have hquot := hiff.1 hdelta
  omega

/-- after `2 ^ 34` allocations of 1 GiB, one of them live, the live delta is not the difference of the event bytes -/
theorem churn_wraps : Legal [] (.reset :: churn 17179869183) ∧ Event.reset ∉ churn 17179869183 ∧
    (emit (counters (.reset :: churn 17179869183)) zeroed.liveBytes).liveBytesDelta ≠
      ((counters (.reset :: churn 17179869183)).allocatedBytes.toNat : ℤ) -
        (counters (.reset :: churn 17179869183)).deallocatedBytes.toNat :=
  ⟨⟨trivial, churn_legal _⟩, churn_no_reset _, churn_delta rfl⟩

/-! ## The balance -/

/-- **Allocator accounting.** LIVE_BYTES is always the total size of the live blocks and no event takes more from it
than it holds. Between a reset and a snapshot before the next one, the live count moves by allocated minus deallocated
bytes in 64-bit arithmetic, and the reported delta is their difference exactly when both counters wrapped equally
often. -/
theorem accounting_balances (events : List Event) (h : Legal [] events) :
    (counters events).liveBytes.toNat = total (live events) ∧
    (∀ e : Event, e.Allowed (live events) → e.subtracted ≤ (counters events).liveBytes.toNat) ∧
    ∀ before phase, events = before ++ .reset :: phase → Event.reset ∉ phase →
      (counters events).liveBytes - (counters before).liveBytes =
          (counters events).allocatedBytes - (counters events).deallocatedBytes ∧
      ((emit (counters events) (counters before).liveBytes).liveBytesDelta =
          ((counters events).allocatedBytes.toNat : ℤ) - (counters events).deallocatedBytes.toNat ↔
        requested phase / 2 ^ 64 = released phase / 2 ^ 64) := by
  refine ⟨live_eq_total h, fun e he => ?_, ?_⟩
  · rw [live_eq_total h]
    exact subtracted_le he
  · rintro before phase rfl hreset
    refine ⟨?_, delta_iff h hreset⟩
    obtain ⟨halloc, hdealloc, hlive⟩ := phase_bytes before hreset
    rw [halloc, hdealloc, hlive]
    grind

/-- a block that grows and shrinks and a failed allocation, with a live block from before the reset -/
theorem accounting_balances_resized :
    (emit (counters [.alloc 48 4096, .reset, .allocZeroed 100 8192, .realloc ⟨8192, 100⟩ 300 8192, .alloc 7 0,
      .realloc ⟨8192, 300⟩ 20 12288, .dealloc ⟨4096, 48⟩]) 48).liveBytesDelta = 420 - 448 :=
  ((accounting_balances _ (by decide)).2.2 [.alloc 48 4096] _ rfl (by decide)).2.2 (by decide)

end WtBenchmarks.IndexBackends.Allocator
