/-
Ordered maps over keys with a decidable equality.

The library states lookups after an update with `compare k a = .eq`; here they read `k = a`, for any key type with a
lawful order.

- `size_le_of_keys`, `size_eq_of_keys`: a list that covers the keys bounds the size, a list of the keys has it;
- `toList_perm`: a map lists the entries it was given;
- `OwnKey`: every row is stored under the key that it carries.
-/
import Std.Data.ExtTreeMap
import Mathlib.Tactic

namespace WtBenchmarks.TreeMap

variable {α β : Type} [Ord α] [Std.TransOrd α] [Std.LawfulEqOrd α]

theorem get_insert [DecidableEq α] (t : Std.ExtTreeMap α β) (k a : α) (v : β) :
    (t.insert k v)[a]? = if k = a then some v else t[a]? := by
  rw [Std.ExtTreeMap.getElem?_insert]
  simp

theorem get_erase [DecidableEq α] (t : Std.ExtTreeMap α β) (k a : α) :
    (t.erase k)[a]? = if k = a then none else t[a]? := by
  rw [Std.ExtTreeMap.getElem?_erase]
  simp

theorem mem_insert (t : Std.ExtTreeMap α β) (k a : α) (v : β) : a ∈ t.insert k v ↔ k = a ∨ a ∈ t := by
  simp [Std.ExtTreeMap.mem_insert]

/-- a row that is replaced leaves the keys as they were -/
theorem mem_insert_of_mem {t : Std.ExtTreeMap α β} {k : α} (h : k ∈ t) (v : β) (a : α) : a ∈ t.insert k v ↔ a ∈ t := by
  rw [mem_insert]
  constructor
  · intro ha
    rcases ha with rfl | ha
    · exact h
    · exact ha
  · exact Or.inr

theorem mem_erase (t : Std.ExtTreeMap α β) (k a : α) : a ∈ t.erase k ↔ k ≠ a ∧ a ∈ t := by
  simp [Std.ExtTreeMap.mem_erase]

omit [Std.LawfulEqOrd α] in
theorem mem_iff_get (t : Std.ExtTreeMap α β) (a : α) : a ∈ t ↔ ∃ v, t[a]? = some v := by
  rw [Std.ExtTreeMap.mem_iff_isSome_getElem?, Option.isSome_iff_exists]

omit [Std.LawfulEqOrd α] in
theorem get_none (t : Std.ExtTreeMap α β) (a : α) : t[a]? = none ↔ a ∉ t := by
  rw [mem_iff_get, ← Option.not_isSome_iff_eq_none, Option.isSome_iff_exists]

omit [Std.LawfulEqOrd α] in
theorem size_insert_new (t : Std.ExtTreeMap α β) {k : α} (h : k ∉ t) (v : β) : (t.insert k v).size = t.size + 1 := by
  rw [Std.ExtTreeMap.size_insert, if_neg fun hc => h (Std.ExtTreeMap.contains_iff_mem.1 hc)]

omit [Std.LawfulEqOrd α] in
theorem size_erase_mem (t : Std.ExtTreeMap α β) {k : α} (h : k ∈ t) : (t.erase k).size + 1 = t.size := by
  have hpos : 0 < t.size := by
    rw [Nat.pos_iff_ne_zero]
    intro hzero
    rw [Std.ExtTreeMap.eq_empty_iff_size_eq_zero.2 hzero] at h
    simp at h
  rw [Std.ExtTreeMap.size_erase, if_pos (Std.ExtTreeMap.contains_iff_mem.2 h), Nat.sub_add_cancel hpos]

/-- a map whose keys all occur in a list is no larger than the list -/
theorem size_le_of_keys (t : Std.ExtTreeMap α β) (keys : List α) (h : ∀ a ∈ t, a ∈ keys) : t.size ≤ keys.length := by
  rw [← Std.ExtTreeMap.length_keys]
  exact (List.subperm_of_subset Std.ExtTreeMap.nodup_keys fun a ha => h a (Std.ExtTreeMap.mem_keys.1 ha)).length_le

/-- a map has as many entries as keys -/
theorem size_eq_of_keys (t : Std.ExtTreeMap α β) {keys : List α} (hkeys : keys.Nodup) (h : ∀ a, a ∈ t ↔ a ∈ keys) :
    t.size = keys.length := by
  rw [← Std.ExtTreeMap.length_keys]
  refine ((List.perm_ext_iff_of_nodup Std.ExtTreeMap.nodup_keys hkeys).2 fun a => ?_).length_eq
  rw [Std.ExtTreeMap.mem_keys, h]

omit [Std.LawfulEqOrd α] in
theorem nodup_fst (t : Std.ExtTreeMap α β) : (t.toList.map Prod.fst).Nodup := by
  rw [Std.ExtTreeMap.map_fst_toList_eq_keys]
  exact Std.ExtTreeMap.nodup_keys

/-- **Listing.** A map with exactly the given entries lists them. -/
theorem toList_perm (t : Std.ExtTreeMap α β) {entries : List (α × β)} (hkeys : (entries.map Prod.fst).Nodup)
    (h : ∀ (a : α) b, t[a]? = some b ↔ (a, b) ∈ entries) : t.toList.Perm entries := by
  refine (List.perm_ext_iff_of_nodup (nodup_fst t).of_map hkeys.of_map).2 fun e => ?_
  rw [← h, Std.ExtTreeMap.mem_toList_iff_getElem?_eq_some]

/-! ## Rows that carry their key -/

/-- every row is stored under its own key -/
def OwnKey (key : β → α) (t : Std.ExtTreeMap α β) : Prop := ∀ (a : α) b, t[a]? = some b → key b = a

omit [Std.LawfulEqOrd α] in
theorem ownKey_empty (key : β → α) : OwnKey key (∅ : Std.ExtTreeMap α β) := by
  intro a b h
  simp at h

theorem OwnKey.insert [DecidableEq α] {key : β → α} {t : Std.ExtTreeMap α β} (h : OwnKey key t) (b : β) :
    OwnKey key (t.insert (key b) b) := by
  intro a b' hget
  rw [get_insert] at hget
  split_ifs at hget with ha
  · rw [← Option.some.inj hget, ha]
  · exact h a b' hget

theorem OwnKey.erase [DecidableEq α] {key : β → α} {t : Std.ExtTreeMap α β} (h : OwnKey key t) (a : α) :
    OwnKey key (t.erase a) := by
  intro a' b hget
  rw [get_erase] at hget
  split_ifs at hget with ha
  exact h a' b hget

end WtBenchmarks.TreeMap
