/-
A table of rows under a primary key, with a unique secondary index.

No two rows have the same value in the indexed column, and the index finds the key of the row that has a value
(`listed`, a field of the table). Inserts and updates that would break this are refused (`none`), and so are inserts of
a key in use, updates and deletions of an absent one.

- `insert_some`, `update_some`, `delete_some`: when an operation succeeds, and the rows it leaves (`update_rows`);
- `selectByUnique_eq_some`: the index finds exactly the row with the value;
- `unique_inj`: the indexed column determines the key;
- `length_selectRange`: a range query finds a row for each value of the range;
- `load`: a loop of inserts under different keys and with different values is never refused;
- `insertMany_perm`: nor is a batch of them;
- `insertMany_stores`: over some stored rows, a batch is accepted exactly if all the keys and all the values differ.
-/
import WtBenchmarks.Core.Total
import WtBenchmarks.Core.TreeMap

namespace WtBenchmarks

structure UniqueTable (κ υ ρ : Type) [Ord κ] [Std.TransOrd κ] [Ord υ] [Std.TransOrd υ] (unique : ρ → υ) where
  rows : Std.ExtTreeMap κ ρ
  index : Std.ExtTreeMap υ κ
  listed : ∀ u k, index[u]? = some k ↔ ∃ r, rows[k]? = some r ∧ unique r = u

namespace UniqueTable

variable {κ υ ρ : Type} [Ord κ] [Std.TransOrd κ] [Std.LawfulEqOrd κ] [DecidableEq κ]
  [Ord υ] [Std.TransOrd υ] [Std.LawfulEqOrd υ] [DecidableEq υ] {unique : ρ → υ}

def empty (unique : ρ → υ) : UniqueTable κ υ ρ unique where
  rows := ∅
  index := ∅
  listed u k := by simp

def insert (t : UniqueTable κ υ ρ unique) (k : κ) (r : ρ) : Option (UniqueTable κ υ ρ unique) :=
  if hk : k ∈ t.rows then none
  else if hu : unique r ∈ t.index then none
  else some
    { rows := t.rows.insert k r
      index := t.index.insert (unique r) k
      listed := fun u k' => by
        rw [TreeMap.get_insert, TreeMap.get_insert]
        by_cases hkk : k = k'
        · subst hkk
          have hnone : ∀ u : υ, t.index[u]? ≠ some k := by
            intro u h
            obtain ⟨r', hr', -⟩ := (t.listed u k).1 h
            exact hk ((TreeMap.mem_iff_get t.rows k).2 ⟨r', hr'⟩)
          by_cases hru : unique r = u
          · simp [hru]
          · simp [hru, hnone]
        · rw [if_neg hkk, ← t.listed u k']
          by_cases hru : unique r = u
          · subst hru
            have hnone : t.index[unique r]? = none := (TreeMap.get_none t.index _).2 hu
            simp [hkk, hnone]
          · rw [if_neg hru] }

/-- the row under a key is replaced; its value may move in the index -/
def update (t : UniqueTable κ υ ρ unique) (k : κ) (r : ρ) : Option (UniqueTable κ υ ρ unique) :=
  match hold : t.rows[k]? with
  | none => none
  | some old =>
    if hu : ∀ k' ∈ t.index[unique r]?, k' = k then some
      { rows := t.rows.insert k r
        index := (t.index.erase (unique old)).insert (unique r) k
        listed := fun u k' => by
          have hself : t.index[unique old]? = some k := (t.listed _ k).2 ⟨old, hold, rfl⟩
          rw [TreeMap.get_insert, TreeMap.get_erase, TreeMap.get_insert]
          by_cases hkk : k = k'
          · subst hkk
            by_cases hru : unique r = u
            · simp [hru]
            · by_cases hou : unique old = u
              · simp [hru, hou]
              · have hno : t.index[u]? ≠ some k := by
                  intro h
                  obtain ⟨r', hr', hru'⟩ := (t.listed u k).1 h
                  rw [hold] at hr'
                  cases hr'
                  exact hou hru'
                simp [hru, hou, hno]
          · rw [if_neg hkk, ← t.listed u k']
            by_cases hru : unique r = u
            · subst hru
              have hno : t.index[unique r]? ≠ some k' := fun h => hkk (hu k' h).symm
              simp [hkk, hno]
            · by_cases hou : unique old = u
              · subst hou
                simp [hru, hself, hkk]
              · rw [if_neg hru, if_neg hou] }
    else none

def delete (t : UniqueTable κ υ ρ unique) (k : κ) : Option (UniqueTable κ υ ρ unique) :=
  match hold : t.rows[k]? with
  | none => none
  | some old => some
    { rows := t.rows.erase k
      index := t.index.erase (unique old)
      listed := fun u k' => by
        have hself : t.index[unique old]? = some k := (t.listed _ k).2 ⟨old, hold, rfl⟩
        rw [TreeMap.get_erase, TreeMap.get_erase]
        by_cases hkk : k = k'
        · subst hkk
          by_cases hou : unique old = u
          · simp [hou]
          · have hno : t.index[u]? ≠ some k := by
              intro h
              obtain ⟨r', hr', hru'⟩ := (t.listed u k).1 h
              rw [hold] at hr'
              cases hr'
              exact hou hru'
            simp [hou, hno]
        · rw [if_neg hkk, ← t.listed u k']
          by_cases hou : unique old = u
          · subst hou
            simp [hself, hkk]
          · rw [if_neg hou] }

/-- the row with a value in the indexed column -/
def selectByUnique (t : UniqueTable κ υ ρ unique) (u : υ) : Option ρ := do
  let k ← t.index[u]?
  t.rows[k]?

/-- the rows whose values satisfy `p`, in the order of the index -/
def selectRange (t : UniqueTable κ υ ρ unique) (p : υ → Bool) : List ρ :=
  (t.index.toList.filter fun entry => p entry.1).filterMap fun entry => t.rows[entry.2]?

/-! ## When an operation succeeds, and what it leaves -/

variable {t t' : UniqueTable κ υ ρ unique} {k : κ} {r : ρ}

theorem insert_some (hk : k ∉ t.rows) (hu : ∀ (k' : κ) r', t.rows[k']? = some r' → unique r' ≠ unique r) :
    ∃ t', t.insert k r = some t' ∧ t'.rows = t.rows.insert k r := by
  have hidx : unique r ∉ t.index := by
    intro h
    obtain ⟨k', hk'⟩ := (TreeMap.mem_iff_get t.index _).1 h
    obtain ⟨r', hr', hru⟩ := (t.listed _ k').1 hk'
    exact hu k' r' hr' hru
  unfold insert
  rw [dif_neg hk, dif_neg hidx]
  exact ⟨_, rfl, rfl⟩

theorem update_some (hk : k ∈ t.rows) (hu : ∀ (k' : κ) r', k' ≠ k → t.rows[k']? = some r' → unique r' ≠ unique r) :
    ∃ t', t.update k r = some t' ∧ t'.rows = t.rows.insert k r := by
  have hidx : ∀ k' ∈ t.index[unique r]?, k' = k := by
    intro k' h
    obtain ⟨r', hr', hru⟩ := (t.listed _ k').1 h
    by_contra hne
    exact hu k' r' hne hr' hru
  unfold update
  split
  · rename_i hnone
    exact absurd hk ((TreeMap.get_none t.rows k).1 hnone)
  · rw [dif_pos hidx]
    exact ⟨_, rfl, rfl⟩

/-- an update replaces the row, whatever it does to the index -/
theorem update_rows (h : t.update k r = some t') : t'.rows = t.rows.insert k r := by
  unfold update at h
  split at h
  · cases h
  · split_ifs at h
    cases h
    rfl

theorem delete_some (hk : k ∈ t.rows) : ∃ t', t.delete k = some t' ∧ t'.rows = t.rows.erase k := by
  unfold delete
  split
  · rename_i hnone
    exact absurd hk ((TreeMap.get_none t.rows k).1 hnone)
  · exact ⟨_, rfl, rfl⟩

omit [Std.LawfulEqOrd κ] [DecidableEq κ] [Std.LawfulEqOrd υ] [DecidableEq υ] in
/-- **The index is exact.** -/
theorem selectByUnique_eq_some {u : υ} : t.selectByUnique u = some r ↔
    ∃ k : κ, t.rows[k]? = some r ∧ unique r = u := by
  unfold selectByUnique
  rw [Option.bind_eq_bind, Option.bind_eq_some_iff]
  constructor
  · rintro ⟨k, hk, hr⟩
    obtain ⟨r', hr', hu⟩ := (t.listed u k).1 hk
    rw [hr] at hr'
    cases hr'
    exact ⟨k, hr, hu⟩
  · rintro ⟨k, hr, hu⟩
    exact ⟨k, (t.listed u k).2 ⟨r, hr, hu⟩, hr⟩

omit [Std.LawfulEqOrd κ] [DecidableEq κ] [Std.LawfulEqOrd υ] [DecidableEq υ] in
theorem selectByUnique_eq_none {u : υ} : t.selectByUnique u = none ↔
    ∀ (k : κ) r, t.rows[k]? = some r → unique r ≠ u := by
  rw [Option.eq_none_iff_forall_ne_some]
  constructor
  · intro h k r hr hu
    exact h r (selectByUnique_eq_some.2 ⟨k, hr, hu⟩)
  · intro h r hr
    obtain ⟨k, hr, hu⟩ := selectByUnique_eq_some.1 hr
    exact h k r hr hu

omit [Std.LawfulEqOrd κ] [DecidableEq κ] [Std.LawfulEqOrd υ] [DecidableEq υ] in
/-- the indexed column determines the key -/
theorem unique_inj {k' : κ} {r' : ρ} (h : t.rows[k]? = some r) (h' : t.rows[k']? = some r')
    (hu : unique r = unique r') : k = k' := by
  have hk := (t.listed (unique r) k).2 ⟨r, h, rfl⟩
  rw [(t.listed (unique r) k').2 ⟨r', h', hu.symm⟩] at hk
  exact (Option.some_inj.1 hk).symm

omit [Std.LawfulEqOrd κ] [DecidableEq κ] [DecidableEq υ] in
/-- a range query finds one row for each value of the range -/
theorem length_selectRange (t : UniqueTable κ υ ρ unique) (p : υ → Bool) :
    (t.selectRange p).length = (t.index.toList.filter fun entry => p entry.1).length := by
  rw [selectRange, List.length_filterMap_eq_countP, List.countP_eq_length]
  intro entry hentry
  have hindex := Std.ExtTreeMap.mem_toList_iff_getElem?_eq_some.1 (List.mem_of_mem_filter hentry)
  obtain ⟨r, hr, -⟩ := (t.listed entry.1 entry.2).1 hindex
  rw [hr]
  rfl

/-! ## Loading -/

/-- **Loading.** A loop that inserts rows under different keys and with different values in the indexed column is never
refused; the table then has exactly these rows. -/
theorem load {f : ℕ → κ} {g : ℕ → ρ} {body : UniqueTable κ υ ρ unique → ℕ → Option (UniqueTable κ υ ρ unique)} (n : ℕ)
    (hbody : ∀ t, ∀ i < n, body t i = t.insert (f i) (g i)) (hf : Set.InjOn f (Set.Iio n))
    (hg : Set.InjOn (fun i => unique (g i)) (Set.Iio n)) :
    ∃ t, (List.range n).foldlM body (empty unique) = some t ∧ t.rows.size = n ∧
      ∀ (k : κ) r, t.rows[k]? = some r ↔ ∃ i < n, f i = k ∧ g i = r := by
  refine exists_foldlM_range (I := fun m (t : UniqueTable κ υ ρ unique) => t.rows.size = m ∧
    ∀ (k : κ) r, t.rows[k]? = some r ↔ ∃ i < m, f i = k ∧ g i = r) n ?_ _ ⟨rfl, fun k r => by simp [empty]⟩
  intro m t hm hI
  obtain ⟨hsize, hI⟩ := hI
  have hnew : f m ∉ t.rows := by
    rw [TreeMap.mem_iff_get]
    intro h
    obtain ⟨r, hr⟩ := h
    obtain ⟨i, hi, hfi, -⟩ := (hI _ _).1 hr
    exact absurd (hf (hi.trans hm) hm hfi) (Nat.ne_of_lt hi)
  have hfree : ∀ (k : κ) r, t.rows[k]? = some r → unique r ≠ unique (g m) := by
    intro k r hr he
    obtain ⟨i, hi, -, rfl⟩ := (hI _ _).1 hr
    exact absurd (hg (hi.trans hm) hm he) (Nat.ne_of_lt hi)
  obtain ⟨t', ht', hrows⟩ := insert_some hnew hfree
  refine ⟨t', (hbody t m hm).trans ht', by rw [hrows, TreeMap.size_insert_new _ hnew, hsize], fun k r => ?_⟩
  rw [hrows, TreeMap.get_insert]
  split_ifs with hk
  · subst hk
    constructor
    · intro h
      exact ⟨m, Nat.lt_succ_self m, rfl, Option.some.inj h⟩
    · intro h
      obtain ⟨i, hi, hfi, rfl⟩ := h
      rw [hf (show i ∈ Set.Iio n from (Nat.lt_succ_iff.1 hi).trans_lt hm) hm hfi]
  · rw [hI]
    constructor
    · intro h
      obtain ⟨i, hi, hrest⟩ := h
      exact ⟨i, Nat.lt_succ_of_lt hi, hrest⟩
    · intro h
      obtain ⟨i, hi, hfi, hgi⟩ := h
      have hne : i ≠ m := fun he => hk (he ▸ hfi)
      exact ⟨i, by omega, hfi, hgi⟩

/-! ## Batches -/

/-- a batch of inserts, refused as a whole if one of them is -/
def insertMany (t : UniqueTable κ υ ρ unique) (key : ρ → κ) (rows : List ρ) : Option (UniqueTable κ υ ρ unique) :=
  rows.foldlM (fun t r => t.insert (key r) r) t

theorem insertMany_get (t : UniqueTable κ υ ρ unique) (key : ρ → κ) (rows : List ρ) (hkeys : (rows.map key).Nodup)
    (hvalues : (rows.map unique).Nodup) (hnew : ∀ r ∈ rows, key r ∉ t.rows)
    (hfree : ∀ r ∈ rows, ∀ (k : κ) r', t.rows[k]? = some r' → unique r' ≠ unique r) :
    ∃ t', t.insertMany key rows = some t' ∧
      ∀ (k : κ) r, t'.rows[k]? = some r ↔ t.rows[k]? = some r ∨ r ∈ rows ∧ key r = k := by
  induction rows generalizing t with
  | nil => exact ⟨t, rfl, fun k r => by simp⟩
  | cons first rows ih =>
    obtain ⟨hkey, hkeys⟩ := List.nodup_cons.1 hkeys
    obtain ⟨hvalue, hvalues⟩ := List.nodup_cons.1 hvalues
    obtain ⟨t₁, ht₁, hrows⟩ := insert_some (hnew first List.mem_cons_self) (hfree first List.mem_cons_self)
    have hget : ∀ k : κ, t₁.rows[k]? = if key first = k then some first else t.rows[k]? := by
      intro k
      rw [hrows, TreeMap.get_insert]
    have hnew' : ∀ r ∈ rows, key r ∉ t₁.rows := by
      intro r hr hmem
      rw [hrows, TreeMap.mem_insert] at hmem
      rcases hmem with heq | hmem
      · exact hkey (heq ▸ List.mem_map_of_mem hr)
      · exact hnew r (List.mem_cons_of_mem _ hr) hmem
    have hfree' : ∀ r ∈ rows, ∀ (k : κ) r', t₁.rows[k]? = some r' → unique r' ≠ unique r := by
      intro r hr k r' hr' heq
      rw [hget] at hr'
      split_ifs at hr' with hk
      · cases hr'
        exact hvalue (heq ▸ List.mem_map_of_mem hr)
      · exact hfree r (List.mem_cons_of_mem _ hr) k r' hr' heq
    obtain ⟨t', ht', hlookup⟩ := ih t₁ hkeys hvalues hnew' hfree'
    refine ⟨t', ?_, fun k r => ?_⟩
    · rw [insertMany, List.foldlM_cons, ht₁]
      exact ht'
    · rw [hlookup, hget, List.mem_cons]
      split_ifs with hk
      · subst hk
        have hnone := (TreeMap.get_none t.rows _).2 (hnew first List.mem_cons_self)
        simp only [hnone, Option.some.injEq, reduceCtorEq, false_or]
        constructor
        · intro h
          rcases h with rfl | h
          · exact ⟨Or.inl rfl, rfl⟩
          · exact ⟨Or.inr h.1, h.2⟩
        · intro h
          rcases h with ⟨rfl | h, heq⟩
          · exact Or.inl rfl
          · exact Or.inr ⟨h, heq⟩
      · constructor
        · intro h
          rcases h with h | h
          · exact Or.inl h
          · exact Or.inr ⟨Or.inr h.1, h.2⟩
        · intro h
          rcases h with h | ⟨rfl | h, heq⟩
          · exact Or.inl h
          · exact absurd heq hk
          · exact Or.inr ⟨h, heq⟩

/-- **A batch** of rows with different keys and different values enters an empty table as it is. -/
theorem insertMany_perm (key : ρ → κ) (rows : List ρ) (hkeys : (rows.map key).Nodup)
    (hvalues : (rows.map unique).Nodup) :
    ∃ t, (empty unique).insertMany key rows = some t ∧ (t.rows.toList.map Prod.snd).Perm rows := by
  obtain ⟨t, ht, hlookup⟩ := insertMany_get (empty unique) key rows hkeys hvalues (fun r _ => by simp [empty])
    fun r _ k r' h => by simp [empty] at h
  have hentries : t.rows.toList.Perm (rows.map fun r => (key r, r)) := by
    refine TreeMap.toList_perm t.rows (by rw [List.map_map]; exact hkeys) fun k r => ?_
    rw [hlookup, List.mem_map]
    constructor
    · intro h
      rcases h with h | ⟨hr, rfl⟩
      · simp [empty] at h
      · exact ⟨r, hr, rfl⟩
    · intro h
      obtain ⟨r', hr', heq⟩ := h
      cases heq
      exact Or.inr ⟨hr', rfl⟩
  have hrows := hentries.map Prod.snd
  rw [List.map_map] at hrows
  exact ⟨t, ht, hrows.trans (by rw [show Prod.snd ∘ (fun r => (key r, r)) = id from rfl, List.map_id])⟩

/-! ## The rows a table stores -/

/-- the table stores these rows, under their keys -/
def Stores (t : UniqueTable κ υ ρ unique) (key : ρ → κ) (rows : List ρ) : Prop :=
  t.rows.toList.Perm (rows.map fun r => (key r, r))

section Stores

variable {t t' : UniqueTable κ υ ρ unique} {key : ρ → κ} {rows : List ρ} {r : ρ}

omit [DecidableEq κ] [Std.LawfulEqOrd υ] [DecidableEq υ] in
theorem stores_empty (key : ρ → κ) : (empty (κ := κ) unique).Stores key [] :=
  TreeMap.toList_perm _ List.nodup_nil fun k r => by simp [empty]

omit [Std.LawfulEqOrd κ] [DecidableEq κ] [Std.LawfulEqOrd υ] [DecidableEq υ] in
theorem Stores.rows_perm (h : t.Stores key rows) : (t.rows.toList.map Prod.snd).Perm rows := by
  have hrows := h.map Prod.snd
  rwa [List.map_map, show Prod.snd ∘ (fun r => (key r, r)) = id from rfl, List.map_id] at hrows

omit [DecidableEq κ] [Std.LawfulEqOrd υ] [DecidableEq υ] in
theorem Stores.get (h : t.Stores key rows) (k : κ) (r : ρ) : t.rows[k]? = some r ↔ r ∈ rows ∧ key r = k := by
  rw [← Std.ExtTreeMap.mem_toList_iff_getElem?_eq_some, h.mem_iff, List.mem_map]
  constructor
  · rintro ⟨r', hr', heq⟩
    cases heq
    exact ⟨hr', rfl⟩
  · rintro ⟨hr, rfl⟩
    exact ⟨r, hr, rfl⟩

omit [Std.LawfulEqOrd κ] [DecidableEq κ] [Std.LawfulEqOrd υ] [DecidableEq υ] in
theorem Stores.keys_nodup (h : t.Stores key rows) : (rows.map key).Nodup := by
  have hkeys := (h.map Prod.fst).nodup_iff.1 (TreeMap.nodup_fst t.rows)
  rwa [List.map_map] at hkeys

omit [DecidableEq κ] [Std.LawfulEqOrd υ] [DecidableEq υ] in
/-- the index keeps the values apart -/
theorem Stores.values_nodup (h : t.Stores key rows) : (rows.map unique).Nodup := by
  refine h.keys_nodup.of_map.map_on fun r hr r' hr' hu => ?_
  have hk := unique_inj ((h.get (key r) r).2 ⟨hr, rfl⟩) ((h.get (key r') r').2 ⟨hr', rfl⟩) hu
  exact List.inj_on_of_nodup_map h.keys_nodup hr hr' hk

/-- an accepted insert adds its row -/
theorem Stores.insert (h : t.Stores key rows) (hinsert : t.insert (key r) r = some t') :
    t'.Stores key (rows ++ [r]) := by
  have hk : key r ∉ t.rows := by
    intro hk
    rw [UniqueTable.insert, dif_pos hk] at hinsert
    cases hinsert
  have hrows : t'.rows = t.rows.insert (key r) r := by
    rw [UniqueTable.insert, dif_neg hk] at hinsert
    split_ifs at hinsert
    cases hinsert
    rfl
  have hkeys : ((rows ++ [r]).map key).Nodup := by
    rw [List.map_append, List.nodup_append']
    refine ⟨h.keys_nodup, List.nodup_singleton _, ?_⟩
    rw [List.map_singleton, List.disjoint_singleton]
    intro hmem
    obtain ⟨r', hr', heq⟩ := List.mem_map.1 hmem
    exact hk ((TreeMap.mem_iff_get _ _).2 ⟨r', (h.get _ _).2 ⟨hr', heq⟩⟩)
  refine TreeMap.toList_perm _ (by rwa [List.map_map]) fun k r' => ?_
  rw [hrows, TreeMap.get_insert, List.map_append, List.mem_append, List.map_singleton, List.mem_singleton]
  have hold : (k, r') ∈ rows.map (fun r => (key r, r)) ↔ t.rows[k]? = some r' := by
    rw [← h.mem_iff, Std.ExtTreeMap.mem_toList_iff_getElem?_eq_some]
  rw [hold]
  split_ifs with hkk
  · subst hkk
    rw [(TreeMap.get_none _ _).2 hk]
    simp [eq_comm]
  · rw [or_iff_left]
    intro heq
    exact hkk (congrArg Prod.fst heq).symm

/-- an accepted batch adds its rows -/
theorem Stores.insertMany (h : t.Stores key rows) (batch : List ρ) (hinsert : t.insertMany key batch = some t') :
    t'.Stores key (rows ++ batch) := by
  induction batch generalizing t rows with
  | nil =>
    cases hinsert
    rwa [List.append_nil]
  | cons first batch ih =>
    rw [UniqueTable.insertMany, List.foldlM_cons, Option.bind_eq_bind, Option.bind_eq_some_iff] at hinsert
    obtain ⟨t₁, ht₁, hrest⟩ := hinsert
    rw [List.append_cons]
    exact ih (h.insert ht₁) hrest

/-- **Batches.** Over some rows a batch is accepted exactly if all the keys and all the values differ, and then its rows
are added. -/
theorem insertMany_stores (h : t.Stores key rows) (batch : List ρ) :
    (∃ t', t.insertMany key batch = some t' ∧ t'.Stores key (rows ++ batch)) ↔
      ((rows ++ batch).map key).Nodup ∧ ((rows ++ batch).map unique).Nodup := by
  constructor
  · rintro ⟨t', -, ht'⟩
    exact ⟨ht'.keys_nodup, ht'.values_nodup⟩
  · rintro ⟨hkeys, hvalues⟩
    rw [List.map_append, List.nodup_append'] at hkeys hvalues
    obtain ⟨t', ht', -⟩ := insertMany_get t key batch hkeys.2.1 hvalues.2.1
      (fun r hr hmem => by
        obtain ⟨r', hr'⟩ := (TreeMap.mem_iff_get _ _).1 hmem
        obtain ⟨hmem', heq⟩ := (h.get _ _).1 hr'
        exact hkeys.2.2 (List.mem_map.2 ⟨r', hmem', heq⟩) (List.mem_map_of_mem hr))
      (fun r hr k r' hr' hu => hvalues.2.2 (List.mem_map.2 ⟨r', ((h.get _ _).1 hr').1, hu⟩) (List.mem_map_of_mem hr))
    exact ⟨t', ht', h.insertMany batch ht'⟩

end Stores

end UniqueTable

end WtBenchmarks
