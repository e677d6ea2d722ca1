/-
Blocks of memory: live blocks share no byte.

A heap is a list of blocks, and it is `Tidy` in an address space when its blocks lie between address 1 and the end of
the space and are pairwise apart. Allocating a block that fits (`Tidy.cons`) and freeing a live one (`Tidy.erase`) keep
this, and all the blocks together are smaller than the space (`Tidy.total_lt`).
-/
import Mathlib.Order.Interval.Finset.Nat
import Mathlib.Tactic

namespace WtBenchmarks.Blocks

/-- where a block starts and how many bytes it has -/
structure Block where
  address : ℕ
  size : ℕ
  deriving DecidableEq

/-- the two blocks share no byte -/
def Apart (a b : Block) : Prop := a.address + a.size ≤ b.address ∨ b.address + b.size ≤ a.address

instance (a b : Block) : Decidable (Apart a b) := inferInstanceAs (Decidable (_ ∨ _))

/-- the block lies in the address space, not at the null address -/
def Inside (space : ℕ) (b : Block) : Prop := 0 < b.address ∧ b.address + b.size ≤ space

instance (space : ℕ) (b : Block) : Decidable (Inside space b) := inferInstanceAs (Decidable (_ ∧ _))

/-- the block can join the heap -/
def Fits (space : ℕ) (heap : List Block) (b : Block) : Prop := Inside space b ∧ ∀ a ∈ heap, Apart b a

instance (space : ℕ) (heap : List Block) (b : Block) : Decidable (Fits space heap b) :=
  inferInstanceAs (Decidable (_ ∧ _))

structure Tidy (space : ℕ) (heap : List Block) : Prop where
  inside : ∀ b ∈ heap, Inside space b
  apart : heap.Pairwise Apart

/-- the bytes in all blocks together -/
def total (heap : List Block) : ℕ := (heap.map Block.size).sum

@[simp] theorem total_nil : total [] = 0 := rfl

@[simp] theorem total_cons (b : Block) (heap : List Block) : total (b :: heap) = b.size + total heap := rfl

theorem total_erase {heap : List Block} {b : Block} (h : b ∈ heap) : total (heap.erase b) + b.size = total heap := by
  have hperm := ((List.perm_cons_erase h).map Block.size).sum_eq
  rw [List.map_cons, List.sum_cons] at hperm
  unfold total
  omega

variable {space : ℕ} {heap : List Block} {b : Block}

theorem Tidy.nil : Tidy space [] where
  inside _ h := nomatch h
  apart := List.Pairwise.nil

theorem Tidy.cons (h : Tidy space heap) (hb : Fits space heap b) : Tidy space (b :: heap) :=
  ⟨List.forall_mem_cons.2 ⟨hb.1, h.inside⟩, List.pairwise_cons.2 ⟨hb.2, h.apart⟩⟩

theorem Tidy.erase (h : Tidy space heap) (b : Block) : Tidy space (heap.erase b) :=
  ⟨fun a ha => h.inside a (List.mem_of_mem_erase ha), h.apart.sublist List.erase_sublist⟩

/-! ## All blocks together -/

/-- the addresses of a heap's bytes -/
def addresses (heap : List Block) : List ℕ := heap.flatMap fun b => List.range' b.address b.size

theorem length_addresses (heap : List Block) : (addresses heap).length = total heap := by
  simp [addresses, total, List.length_flatMap]

theorem Tidy.addresses_nodup (h : Tidy space heap) : (addresses heap).Nodup := by
  refine List.nodup_flatMap.2 ⟨fun b _ => List.nodup_range', h.apart.imp fun {a b} hab => ?_⟩
  intro address ha hb
  rw [List.mem_range'_1] at ha hb
  unfold Apart at hab
  omega

/-- the live bytes are fewer than the addresses -/
theorem Tidy.total_lt (h : Tidy space heap) (hspace : 0 < space) : total heap < space := by
  have hsub : (addresses heap).toFinset ⊆ Finset.Ico 1 space := by
    intro address ha
    obtain ⟨b, hb, ha⟩ := List.mem_flatMap.1 (List.mem_toFinset.1 ha)
    rw [List.mem_range'_1] at ha
    obtain ⟨hnull, hend⟩ := h.inside b hb
    exact Finset.mem_Ico.2 (by omega)
  have hcard := Finset.card_le_card hsub
  rw [List.toFinset_card_of_nodup h.addresses_nodup, length_addresses, Nat.card_Ico] at hcard
  omega

end WtBenchmarks.Blocks
