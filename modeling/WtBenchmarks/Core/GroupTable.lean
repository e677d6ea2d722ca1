/-
A table of rows under a primary key, with a secondary index that lists the keys of each group.

The index is part of the table, and that it lists exactly the keys of each group's rows is a field of it (`listed`), so
every update that builds a table has re-established it. An update that leaves the group of a row alone leaves the index
alone.

- `insertNew`, `modify`, `erase`, `upsert`, with one equation each for the rows;
- `selectByGroup_length`: a lookup through the index returns as many rows as a scan of the whole table counts.
-/
import WtBenchmarks.Core.TreeMap

namespace WtBenchmarks

/-- the keys an index lists for a group -/
def bucketOf {κ γ : Type} [Ord γ] [Std.TransOrd γ] (index : Std.ExtTreeMap γ (List κ)) (g : γ) : List κ :=
  (index[g]?).getD []

structure GroupTable (κ γ ρ : Type) [Ord κ] [Std.TransOrd κ] [Ord γ] [Std.TransOrd γ] (group : ρ → γ) where
  rows : Std.ExtTreeMap κ ρ
  index : Std.ExtTreeMap γ (List κ)
  nodup : ∀ g, (bucketOf index g).Nodup
  listed : ∀ g k, k ∈ bucketOf index g ↔ ∃ r, rows[k]? = some r ∧ group r = g

section Buckets

variable {κ γ : Type} [Ord γ] [Std.TransOrd γ] [Std.LawfulEqOrd γ]

theorem bucketOf_insert [DecidableEq γ] (index : Std.ExtTreeMap γ (List κ)) (g g' : γ) (keys : List κ) :
    bucketOf (index.insert g keys) g' = if g = g' then keys else bucketOf index g' := by
  unfold bucketOf
  rw [TreeMap.get_insert]
  split_ifs <;> rfl

end Buckets

namespace GroupTable

variable {κ γ ρ : Type} [Ord κ] [Std.TransOrd κ] [Std.LawfulEqOrd κ] [DecidableEq κ]
  [Ord γ] [Std.TransOrd γ] [Std.LawfulEqOrd γ] [DecidableEq γ] {group : ρ → γ}

def empty (group : ρ → γ) : GroupTable κ γ ρ group where
  rows := ∅
  index := ∅
  nodup g := by simp [bucketOf]
  listed g k := by simp [bucketOf]

/-- the row enters under a key that was free -/
def insertNew (t : GroupTable κ γ ρ group) (k : κ) (r : ρ) (h : k ∉ t.rows) : GroupTable κ γ ρ group where
  rows := t.rows.insert k r
  index := t.index.insert (group r) (k :: bucketOf t.index (group r))
  nodup g := by
    have hfree : k ∉ bucketOf t.index (group r) := by
      intro hk
      obtain ⟨r', hr', -⟩ := (t.listed _ k).1 hk
      exact h ((TreeMap.mem_iff_get t.rows k).2 ⟨r', hr'⟩)
    rw [bucketOf_insert]
    split_ifs with hg
    · exact List.nodup_cons.2 ⟨hfree, t.nodup _⟩
    · exact t.nodup g
  listed g k' := by
    have hnone : t.rows[k]? = none := (TreeMap.get_none t.rows k).2 h
    rw [bucketOf_insert, TreeMap.get_insert]
    by_cases hk : k = k'
    · subst hk
      have hold : k ∉ bucketOf t.index g := fun hk => by
        obtain ⟨r', hr', -⟩ := (t.listed g k).1 hk
        rw [hnone] at hr'
        cases hr'
      by_cases hg : group r = g <;> simp [hg, hold]
    · rw [if_neg hk, ← t.listed g k']
      by_cases hg : group r = g
      · subst hg
        simp [Ne.symm hk]
      · rw [if_neg hg]

/-- the row under a key changes without leaving its group -/
def modify (t : GroupTable κ γ ρ group) (k : κ) (f : ρ → ρ) (hf : ∀ r, group (f r) = group r) :
    GroupTable κ γ ρ group :=
  match h : t.rows[k]? with
  | none => t
  | some r =>
    { t with
      rows := t.rows.insert k (f r)
      listed := fun g k' => by
        rw [t.listed g k', TreeMap.get_insert]
        by_cases hk : k = k'
        · subst hk
          simp [h, hf]
        · rw [if_neg hk] }

/-- the row under a key leaves the table, and its key the index -/
def erase (t : GroupTable κ γ ρ group) (k : κ) : GroupTable κ γ ρ group :=
  match h : t.rows[k]? with
  | none => t
  | some r =>
    { rows := t.rows.erase k
      index := t.index.insert (group r) ((bucketOf t.index (group r)).erase k)
      nodup := fun g => by
        rw [bucketOf_insert]
        split_ifs with hg
        · exact (t.nodup _).erase k
        · exact t.nodup g
      listed := fun g k' => by
        rw [bucketOf_insert, TreeMap.get_erase]
        by_cases hk : k = k'
        · subst hk
          by_cases hg : group r = g
          · simp [hg, (t.nodup g).not_mem_erase]
          · simp [hg, t.listed g k, h]
        · rw [if_neg hk, ← t.listed g k']
          by_cases hg : group r = g
          · subst hg
            rw [if_pos rfl, List.mem_erase_of_ne (Ne.symm hk)]
          · rw [if_neg hg] }

theorem erase_absent (t : GroupTable κ γ ρ group) {k : κ} (h : k ∉ t.rows) : t.erase k = t := by
  have hnone := (TreeMap.get_none t.rows k).2 h
  unfold erase
  split
  · rfl
  · rename_i r hr
    rw [hnone] at hr
    cases hr

omit [Std.LawfulEqOrd κ] [DecidableEq κ] [Std.LawfulEqOrd γ] [DecidableEq γ] in
@[simp] theorem empty_rows : (empty group : GroupTable κ γ ρ group).rows = ∅ := rfl

@[simp] theorem insertNew_rows (t : GroupTable κ γ ρ group) (k : κ) (r : ρ) (h : k ∉ t.rows) :
    (t.insertNew k r h).rows = t.rows.insert k r := rfl

omit [Std.LawfulEqOrd γ] [DecidableEq γ] in
theorem modify_rows (t : GroupTable κ γ ρ group) {k : κ} {f : ρ → ρ} (hf : ∀ r, group (f r) = group r) {r : ρ}
    (h : t.rows[k]? = some r) : (t.modify k f hf).rows = t.rows.insert k (f r) := by
  unfold modify
  split
  · rename_i hnone
    rw [h] at hnone
    cases hnone
  · rename_i r' hr'
    rw [h] at hr'
    cases hr'
    rfl

theorem erase_rows (t : GroupTable κ γ ρ group) {k : κ} (h : k ∈ t.rows) : (t.erase k).rows = t.rows.erase k := by
  obtain ⟨r, hr⟩ := (TreeMap.mem_iff_get t.rows k).1 h
  unfold erase
  split
  · rename_i hnone
    rw [hr] at hnone
    cases hnone
  · rfl

theorem not_mem_erase (t : GroupTable κ γ ρ group) (k : κ) : k ∉ (t.erase k).rows := by
  by_cases h : k ∈ t.rows
  · rw [erase_rows t h, TreeMap.mem_erase]
    exact fun hk => hk.1 rfl
  · rwa [erase_absent t h]

/-- the row enters under its key, whether the key was free or not -/
def upsert (t : GroupTable κ γ ρ group) (k : κ) (r : ρ) : GroupTable κ γ ρ group :=
  (t.erase k).insertNew k r (t.not_mem_erase k)

theorem upsert_get (t : GroupTable κ γ ρ group) (k k' : κ) (r : ρ) :
    (t.upsert k r).rows[k']? = if k = k' then some r else t.rows[k']? := by
  rw [upsert, insertNew_rows, TreeMap.get_insert]
  split_ifs with hk
  · rfl
  · by_cases h : k ∈ t.rows
    · rw [erase_rows t h, TreeMap.get_erase, if_neg hk]
    · rw [erase_absent t h]

/-- the rows of a group, through the index -/
def selectByGroup (t : GroupTable κ γ ρ group) (g : γ) : List ρ := (bucketOf t.index g).filterMap fun k => t.rows[k]?

omit [DecidableEq κ] [Std.LawfulEqOrd κ] [Std.LawfulEqOrd γ] [DecidableEq γ] in
theorem mem_selectByGroup (t : GroupTable κ γ ρ group) {g : γ} {r : ρ} :
    r ∈ t.selectByGroup g ↔ ∃ k : κ, t.rows[k]? = some r ∧ group r = g := by
  unfold selectByGroup
  rw [List.mem_filterMap]
  constructor
  · intro h
    obtain ⟨k, hk, hr⟩ := h
    obtain ⟨r', hr', hg⟩ := (t.listed g k).1 hk
    rw [hr] at hr'
    cases hr'
    exact ⟨k, hr, hg⟩
  · intro h
    obtain ⟨k, hr, hg⟩ := h
    exact ⟨k, (t.listed g k).2 ⟨r, hr, hg⟩, hr⟩

omit [DecidableEq κ] [Std.LawfulEqOrd γ] in
/-- **The index answers as a scan does.** -/
theorem selectByGroup_length (t : GroupTable κ γ ρ group) (g : γ) :
    (t.selectByGroup g).length = t.rows.toList.countP fun e => decide (group e.2 = g) := by
  have hfound : ∀ k ∈ bucketOf t.index g, (t.rows[k]?).isSome := by
    intro k hk
    obtain ⟨r, hr, -⟩ := (t.listed g k).1 hk
    rw [hr]
    rfl
  have hlength : (t.selectByGroup g).length = (bucketOf t.index g).length := by
    unfold selectByGroup
    exact List.filterMap_length_eq_length.2 hfound
  have hkeys := TreeMap.nodup_fst t.rows
  have hperm : (bucketOf t.index g).Perm ((t.rows.toList.filter fun e => decide (group e.2 = g)).map Prod.fst) := by
    refine (List.perm_ext_iff_of_nodup (t.nodup g) (hkeys.sublist (List.filter_sublist.map _))).2 fun k => ?_
    rw [t.listed g k]
    simp only [List.mem_map, List.mem_filter, decide_eq_true_eq, Prod.exists, exists_and_right, exists_eq_right,
      Std.ExtTreeMap.mem_toList_iff_getElem?_eq_some]
  rw [hlength, hperm.length_eq, List.length_map, ← List.countP_eq_length_filter]

end GroupTable

end WtBenchmarks
