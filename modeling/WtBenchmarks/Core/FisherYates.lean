/-
The Fisher-Yates shuffle of an array, over any source of random words.

From the last index down to the first but one, an element is swapped with one at or before it, at an index drawn modulo
the number of candidates. The draws come from a state of any type and may panic, and so may a swap out of range.

- `shuffle_perm`: if the draws never panic, neither does the shuffle, and it permutes the array;
- `shuffle_map`: it moves elements without looking at them;
- `shuffle_hom`: sources that draw the same words shuffle alike;
- `shuffle_eq_perm`: from one state, all arrays of one size are permuted in the same way.
-/
import Mathlib.Data.Fintype.EquivFin
import Mathlib.Data.List.OfFn
import WtBenchmarks.Core.Total

namespace WtBenchmarks.FisherYates

variable {σ τ α β : Type}

/-! ## The loop -/

/-- exchanging two elements of an array -/
def swap (items : Array α) (i j : ℕ) : Option (Array α) :=
  if h : i < items.size ∧ j < items.size then some (items.swap i j h.1 h.2) else none

def turn (draw : StateT σ Option UInt64) (items : Array α) (index : ℕ) : StateT σ Option (Array α) := do
  let x ← draw
  liftM (swap items index (x.toNat % (index + 1)))

def shuffle (draw : StateT σ Option UInt64) (items : Array α) : StateT σ Option (Array α) :=
  (List.range' 1 (items.size - 1)).reverse.foldlM (turn draw) items

/-! ## Permutation -/

theorem swap_some (items : Array α) {i j : ℕ} (hi : i < items.size) (hj : j ≤ i) :
    ∃ out, swap items i j = some out ∧ out.Perm items :=
  ⟨items.swap i j hi (hj.trans_lt hi), dif_pos ⟨hi, hj.trans_lt hi⟩, Array.swap_perm hi (hj.trans_lt hi)⟩

/-- **A permutation.** -/
theorem shuffle_perm {draw : StateT σ Option UInt64} (hdraw : Total (fun _ => True) draw) (items : Array α) :
    Total (fun out => out.Perm items) (shuffle draw items) := by
  refine Total.foldlM (I := fun _ out => out.Perm items) _ (fun pre index post out hsplit hperm => ?_) items
    (Array.Perm.refl _)
  have hindex : index < items.size := by
    have hmem : index ∈ (List.range' 1 (items.size - 1)).reverse := by
      rw [hsplit]
      exact List.mem_append_right _ List.mem_cons_self
    rw [List.mem_reverse, List.mem_range'_1] at hmem
    omega
  refine hdraw.bind fun x _ => Total.lift ?_
  obtain ⟨out', hswap, hperm'⟩ := swap_some out (hperm.size_eq ▸ hindex)
    (Nat.lt_succ_iff.1 (Nat.mod_lt x.toNat (Nat.succ_pos index)))
  exact ⟨out', hswap, hperm'.trans hperm⟩

/-! ## Naturality -/

theorem swap_map (f : α → β) (items : Array α) (i j : ℕ) :
    swap (items.map f) i j = (swap items i j).map (Array.map f) := by
  unfold swap
  by_cases h : i < items.size ∧ j < items.size
  · rw [dif_pos h, dif_pos (by rwa [Array.size_map]), Option.map_some]
    congr 1
    refine Array.ext (by simp) fun k hk hk' => ?_
    simp only [Array.getElem_swap, Array.getElem_map]
    split_ifs <;> rfl
  · rw [dif_neg h, dif_neg (by rwa [Array.size_map]), Option.map_none]

theorem turns_map (draw : StateT σ Option UInt64) (f : α → β) (indexes : List ℕ) (items : Array α) (s : σ) :
    (indexes.foldlM (turn draw) (items.map f)).run s =
      ((indexes.foldlM (turn draw) items).run s).map fun r => (r.1.map f, r.2) := by
  induction indexes generalizing items s with
  | nil => rfl
  | cons index indexes ih =>
    rw [List.foldlM_cons, List.foldlM_cons, turn, turn]
    simp only [StateT.run_bind, Option.bind_eq_bind]
    cases hdraw : draw.run s with
    | none => rfl
    | some r =>
      simp only [Option.bind_some]
      rw [swap_map]
      cases hswap : swap items index (r.1.toNat % (index + 1)) with
      | none => rfl
      | some items' => exact ih items' r.2

/-- **Naturality.** -/
theorem shuffle_map (draw : StateT σ Option UInt64) (f : α → β) (items : Array α) (s : σ) :
    (shuffle draw (items.map f)).run s = ((shuffle draw items).run s).map fun r => (r.1.map f, r.2) := by
  rw [shuffle, Array.size_map]
  exact turns_map draw f _ items s

/-! ## Sources of random words -/

theorem turns_hom {draw : StateT σ Option UInt64} {draw' : StateT τ Option UInt64} {φ : σ → τ}
    (hdraw : ∀ s, draw'.run (φ s) = (draw.run s).map fun r => (r.1, φ r.2)) (indexes : List ℕ) (items : Array α)
    (s : σ) : (indexes.foldlM (turn draw') items).run (φ s) =
      ((indexes.foldlM (turn draw) items).run s).map fun r => (r.1, φ r.2) := by
  induction indexes generalizing items s with
  | nil => rfl
  | cons index indexes ih =>
    rw [List.foldlM_cons, List.foldlM_cons, turn, turn]
    simp only [StateT.run_bind, Option.bind_eq_bind, hdraw]
    cases draw.run s with
    | none => rfl
    | some r =>
      simp only [Option.map_some, Option.bind_some]
      cases swap items index (r.1.toNat % (index + 1)) with
      | none => rfl
      | some items' => exact ih items' r.2

/-- **Two sources** that draw the same words from states related by `φ` shuffle alike. -/
theorem shuffle_hom {draw : StateT σ Option UInt64} {draw' : StateT τ Option UInt64} {φ : σ → τ}
    (hdraw : ∀ s, draw'.run (φ s) = (draw.run s).map fun r => (r.1, φ r.2)) (items : Array α) (s : σ) :
    (shuffle draw' items).run' (φ s) = (shuffle draw items).run' s := by
  rw [StateT.run'_eq, StateT.run'_eq, shuffle, turns_hom hdraw, shuffle]
  cases ((List.range' 1 (items.size - 1)).reverse.foldlM (turn draw) items).run s with
  | none => rfl
  | some r => rfl

/-! ## One permutation for all arrays of one size -/

/-- **One permutation.** It depends on the size of the array and the state of the source, not on the elements. -/
theorem shuffle_eq_perm {draw : StateT σ Option UInt64} (hdraw : Total (fun _ => True) draw) (n : ℕ) (s : σ) :
    ∃ π : Equiv.Perm (Fin n), ∀ (α : Type) (items : Array α) (h : items.size = n),
      (shuffle draw items).run' s = some (Array.ofFn fun i => items[π i]) := by
  -- the shuffle of the indexes themselves
  obtain ⟨out, s', hrun, hperm⟩ := shuffle_perm hdraw (Array.ofFn fun i : Fin n => i) s
  have hsize : out.size = n := by rw [hperm.size_eq, Array.size_ofFn]
  have hnodup : out.toList.Nodup := by
    rw [(Array.perm_iff_toList_perm.1 hperm).nodup_iff, Array.toList_ofFn]
    exact List.nodup_ofFn.2 fun _ _ h => h
  have hinj : Function.Injective fun i : Fin n => out[Fin.cast hsize.symm i] := by
    intro i j hij
    exact Fin.ext (hnodup.getElem_inj_iff.1 hij)
  refine ⟨Equiv.ofBijective _ (Finite.injective_iff_bijective.1 hinj), fun α items h => ?_⟩
  have hitems : items = (Array.ofFn fun i : Fin n => i).map fun i => items[i] := by
    refine Array.ext (by simp [h]) fun k hk hk' => ?_
    simp
  have hshuffle := shuffle_map draw (fun i : Fin n => items[i]) (Array.ofFn fun i => i) s
  rw [← hitems, hrun] at hshuffle
  rw [StateT.run'_eq, hshuffle]
  refine congrArg some (Array.ext (by simp [hsize]) fun k hk hk' => ?_)
  simp

end WtBenchmarks.FisherYates
