/-
The hand-written baseline store (`VecStore`, `campaigns/contention/src/bin/vec_realistic.rs`): rows in the slots of a
vector, numbered by their primary keys, and a hash map from values of the field `a` to primary keys.

A slot number past the last word is a panic (`none`); memory is not bounded. What the standard library leaves open, the
order in which a hash map is listed and the order in which an unstable sort puts equal keys, is a parameter.

- `selectByA_ids`: the ids of the rows found under a value are the entries of the index.
- `index_exact_iff`: after which calls the index finds exactly the stored rows.
- `rangeByA_eq`: a range is the point lookups in the order of the index keys.
-/
import WtBenchmarks.Core.KeyedSort
import WtBenchmarks.Core.Total
import Mathlib.Tactic

namespace WtBenchmarks.VecRealistic

/-! ## Model -/

structure Row where
  id : UInt64
  a : UInt64
  b : UInt64
  c : Float
  d : String

/-- the row the benchmark inserts under a key -/
def mk (id : UInt64) : Row := ⟨id, id, id, id.toFloat, "payloadpayload"⟩

structure VecStore where
  rows : List (Option Row)
  byA : Std.ExtTreeMap UInt64 (List UInt64)

/-- `Vec::resize` -/
def resize (rows : List (Option Row)) (n : ℕ) : List (Option Row) :=
  rows.take n ++ List.replicate (n - rows.length) none

/-- the row in a slot, if there are the slot and a row in it -/
def slotAt (rows : List (Option Row)) (slot : ℕ) : Option Row := rows[slot]?.bind id

/-- the slots of `insert`, with room for one more -/
def grown (rows : List (Option Row)) (slot : ℕ) : Option (List (Option Row)) :=
  if rows.length ≤ slot then (if slot + 1 < 2 ^ 64 then some (resize rows (slot + 1)) else none) else some rows

namespace VecStore

/-- `with_capacity` -/
def empty : VecStore := ⟨[], ∅⟩

def insert (s : VecStore) (row : Row) : Option VecStore := do
  let byA := s.byA.insert row.a (bucketOf s.byA row.a ++ [row.id])
  let slot := row.id.toNat
  let rows ← grown s.rows slot
  some ⟨rows.set slot (some row), byA⟩

def selectByPk (s : VecStore) (pk : UInt64) : Option Row := slotAt s.rows pk.toNat

def selectByA (s : VecStore) (a : UInt64) : List Row :=
  match s.byA[a]? with
  | some pks => pks.filterMap s.selectByPk
  | none => []

def rangeByA (order : Listing UInt64 (List UInt64)) (sort : KeySort UInt64 UInt64) (s : VecStore) (lo hi : UInt64) :
    List Row :=
  let hits := ((order.list s.byA).filter fun e => lo ≤ e.1 ∧ e.1 < hi).flatMap fun e => e.2.map fun pk => (e.1, pk)
  (sort.sort hits).filterMap fun hit => s.selectByPk hit.2

def updateB (s : VecStore) (pk v : UInt64) : VecStore × Bool :=
  match slotAt s.rows pk.toNat with
  | some r => ({ s with rows := s.rows.set pk.toNat (some { r with b := v }) }, true)
  | none => (s, false)

/-- the rows in the slots -/
def stored (s : VecStore) : List Row := s.rows.filterMap id

end VecStore

inductive Call where
  | insert (row : Row)
  | updateB (pk v : UInt64)

def VecStore.apply (s : VecStore) : Call → Option VecStore
  | .insert row => s.insert row
  | .updateB pk v => some (s.updateB pk v).1

/-- a sequence of calls on a new store -/
def runCalls (calls : List Call) : Option VecStore := calls.foldlM VecStore.apply VecStore.empty

/-- the rows a sequence of calls inserts -/
def inserted (calls : List Call) : List Row :=
  calls.filterMap fun
    | .insert row => some row
    | .updateB _ _ => none

/-- the index finds exactly the rows with a value, each once -/
def VecStore.IndexExact (s : VecStore) : Prop := ∀ a, (s.selectByA a).Perm (s.stored.filter fun r => r.a = a)

/-! ## Steps -/

namespace VecStore

theorem selectByA_eq (s : VecStore) (a : UInt64) : s.selectByA a = (bucketOf s.byA a).filterMap s.selectByPk := by
  unfold selectByA bucketOf
  cases s.byA[a]? <;> rfl

theorem resize_get {rows : List (Option Row)} {n : ℕ} (h : rows.length ≤ n) (i : ℕ) :
    slotAt (resize rows n) i = slotAt rows i := by
  unfold slotAt resize
  rw [List.take_of_length_le h]
  rcases Nat.lt_or_ge i rows.length with hi | hi
  · rw [List.getElem?_append_left hi]
  · rw [List.getElem?_append_right hi, List.getElem?_eq_none hi, List.getElem?_replicate]
    split_ifs
    · rfl
    · rfl

theorem grown_some {rows rows' : List (Option Row)} {slot : ℕ} (h : grown rows slot = some rows') :
    slot < rows'.length ∧ ∀ i, slotAt rows' i = slotAt rows i := by
  unfold grown at h
  split_ifs at h with hlen hmax
  · cases h
    refine ⟨?_, resize_get (by omega)⟩
    simp only [resize, List.length_append, List.length_take, List.length_replicate]
    omega
  · cases h
    exact ⟨by omega, fun _ => rfl⟩

/-- **An insert** writes one slot and adds one entry to the index. -/
theorem insert_some {s s' : VecStore} {row : Row} (h : s.insert row = some s') :
    (∀ i, slotAt s'.rows i = if i = row.id.toNat then some row else slotAt s.rows i) ∧
      ∀ a, bucketOf s'.byA a = if row.a = a then bucketOf s.byA a ++ [row.id] else bucketOf s.byA a := by
  unfold insert at h
  obtain ⟨rows, hrows, h⟩ := Option.bind_eq_some_iff.1 h
  cases h
  have hfits := grown_some hrows
  refine ⟨fun i => ?_, fun a => ?_⟩
  · split_ifs with hi
    · subst hi
      rw [slotAt, List.getElem?_set_self hfits.1]
      rfl
    · rw [slotAt, List.getElem?_set_ne (Ne.symm hi)]
      exact hfits.2 i
  · rw [bucketOf_insert]
    split_ifs with ha
    · rw [ha]
    · rfl

/-- **An update** leaves the index and, of every row, all but the field `b`. -/
theorem updateB_get (s : VecStore) (pk v : UInt64) (i : ℕ) :
    slotAt (s.updateB pk v).1.rows i =
      if i = pk.toNat then (s.selectByPk pk).map fun r => { r with b := v } else slotAt s.rows i := by
  unfold updateB selectByPk
  cases hrow : slotAt s.rows pk.toNat with
  | none =>
    split_ifs with hi
    · rw [hi]
      exact hrow
    · rfl
  | some r =>
    have hlt : pk.toNat < s.rows.length := by
      by_contra hge
      rw [slotAt, List.getElem?_eq_none (by omega)] at hrow
      cases hrow
    dsimp only
    split_ifs with hi
    · rw [hi, slotAt, List.getElem?_set_self hlt]
      rfl
    · rw [slotAt, List.getElem?_set_ne (Ne.symm hi), slotAt]

theorem updateB_byA (s : VecStore) (pk v : UInt64) : (s.updateB pk v).1.byA = s.byA := by
  unfold updateB
  split <;> rfl

end VecStore

/-! ## Runs -/

/-- what a store has after a sequence of calls: every entry the inserts added to the index, and under every inserted key
a row with the value of one of the inserts -/
structure Reached (calls : List Call) (s : VecStore) : Prop where
  slots : ∀ i r, slotAt s.rows i = some r → r.id.toNat = i
  bucket : ∀ a, bucketOf s.byA a = ((inserted calls).filter fun row => row.a = a).map Row.id
  present : ∀ row ∈ inserted calls, ∃ r, s.selectByPk row.id = some r
  latest : ∀ pk r, s.selectByPk pk = some r → ∃ row ∈ inserted calls, row.id = pk ∧ row.a = r.a

theorem reached_empty : Reached [] VecStore.empty where
  slots i r h := by simp [VecStore.empty, slotAt] at h
  bucket a := by simp [VecStore.empty, inserted, bucketOf]
  present row h := by cases h
  latest pk r h := by simp [VecStore.empty, VecStore.selectByPk, slotAt] at h

theorem inserted_insert (calls : List Call) (row : Row) :
    inserted (calls ++ [.insert row]) = inserted calls ++ [row] := by
  simp [inserted]

theorem inserted_updateB (calls : List Call) (pk v : UInt64) :
    inserted (calls ++ [.updateB pk v]) = inserted calls := by
  simp [inserted]

theorem Reached.insert {calls : List Call} {s s' : VecStore} {row : Row} (hs : Reached calls s)
    (h : s.insert row = some s') : Reached (calls ++ [.insert row]) s' := by
  obtain ⟨hrows, hindex⟩ := VecStore.insert_some h
  have hselect : ∀ pk, s'.selectByPk pk = if pk = row.id then some row else s.selectByPk pk := by
    intro pk
    rw [VecStore.selectByPk, hrows]
    exact if_congr UInt64.toNat_inj rfl rfl
  refine ⟨fun i r hr => ?_, fun a => ?_, fun row' hrow' => ?_, fun pk r hr => ?_⟩
  · rw [hrows] at hr
    split_ifs at hr with hi
    · cases hr
      exact hi.symm
    · exact hs.slots i r hr
  · rw [inserted_insert, List.filter_append, List.map_append, hindex, hs.bucket]
    by_cases ha : row.a = a
    · simp [ha]
    · simp [ha]
  · rw [hselect]
    by_cases hid : row'.id = row.id
    · exact ⟨row, if_pos hid⟩
    · rw [if_neg hid]
      rw [inserted_insert] at hrow'
      rcases List.mem_append.1 hrow' with hold | hnew
      · exact hs.present row' hold
      · exact absurd (congrArg Row.id (List.mem_singleton.1 hnew)) hid
  · rw [hselect] at hr
    rw [inserted_insert]
    split_ifs at hr with hpk
    · cases hr
      exact ⟨row, List.mem_append_right _ (List.mem_singleton_self _), hpk.symm, rfl⟩
    · obtain ⟨row', hrow', hlatest⟩ := hs.latest pk r hr
      exact ⟨row', List.mem_append_left _ hrow', hlatest⟩

theorem Reached.updateB {calls : List Call} {s : VecStore} (pk v : UInt64) (hs : Reached calls s) :
    Reached (calls ++ [.updateB pk v]) (s.updateB pk v).1 := by
  have hslot : ∀ i r, slotAt (s.updateB pk v).1.rows i = some r →
      ∃ old, slotAt s.rows i = some old ∧ r.id = old.id ∧ r.a = old.a := by
    intro i r hr
    rw [VecStore.updateB_get] at hr
    split_ifs at hr with hi
    · obtain ⟨old, hold, rfl⟩ := Option.map_eq_some_iff.1 hr
      exact ⟨old, hi ▸ hold, rfl, rfl⟩
    · exact ⟨r, hr, rfl, rfl⟩
  refine ⟨fun i r hr => ?_, fun a => ?_, fun row hrow => ?_, fun pk' r hr => ?_⟩
  · obtain ⟨old, hold, hid, -⟩ := hslot i r hr
    rw [hid]
    exact hs.slots i old hold
  · rw [inserted_updateB, VecStore.updateB_byA]
    exact hs.bucket a
  · rw [inserted_updateB] at hrow
    obtain ⟨old, hold⟩ := hs.present row hrow
    rw [VecStore.selectByPk, VecStore.updateB_get]
    split_ifs with hi
    · rw [← UInt64.toNat_inj.1 hi, hold]
      exact ⟨_, rfl⟩
    · exact ⟨old, hold⟩
  · obtain ⟨old, hold, -, ha⟩ := hslot _ r hr
    rw [inserted_updateB, ha]
    exact hs.latest pk' old hold

theorem reached {calls : List Call} {s : VecStore} (h : runCalls calls = some s) : Reached calls s := by
  refine foldlM_history (I := Reached) reached_empty (fun done call s s' hs hcall => ?_) h
  cases call with
  | insert row => exact hs.insert hcall
  | updateB pk v =>
    cases hcall
    exact hs.updateB pk v

/-! ## The index -/

section Index

variable {calls : List Call} {s : VecStore} (hs : Reached calls s)
include hs

theorem mem_stored {r : Row} : r ∈ s.stored ↔ s.selectByPk r.id = some r := by
  unfold VecStore.stored
  rw [List.mem_filterMap]
  constructor
  · intro h
    obtain ⟨o, ho, rfl⟩ := h
    obtain ⟨i, hi⟩ := List.mem_iff_getElem?.1 ho
    have hslot : slotAt s.rows i = some r := by
      rw [slotAt, hi]
      rfl
    rw [VecStore.selectByPk, hs.slots i r hslot]
    exact hslot
  · intro h
    obtain ⟨o, ho, hr⟩ := Option.bind_eq_some_iff.1 h
    exact ⟨o, List.mem_of_getElem? ho, hr⟩

/-- no two stored rows have the same id -/
theorem stored_nodup : (s.stored.map Row.id).Nodup := by
  have hlt : (s.stored.map Row.id).Pairwise fun a b => a.toNat < b.toNat := by
    unfold VecStore.stored
    rw [List.pairwise_map, List.pairwise_filterMap, List.pairwise_iff_getElem]
    intro i j hi hj hij r hr r' hr'
    have hslot : ∀ k r (hk : k < s.rows.length), s.rows[k] = some r → slotAt s.rows k = some r := by
      intro k r hk hr
      rw [slotAt, List.getElem?_eq_getElem hk, hr]
      rfl
    rw [hs.slots i r (hslot i r hi hr), hs.slots j r' (hslot j r' hj hr')]
    exact hij
  exact hlt.imp fun h heq => absurd (congrArg UInt64.toNat heq) (Nat.ne_of_lt h)

/-- **The rows found** under a value have the ids the index lists. -/
theorem selectByA_ids (a : UInt64) : (s.selectByA a).map Row.id = bucketOf s.byA a := by
  rw [VecStore.selectByA_eq, hs.bucket]
  have hall : ∀ row ∈ (inserted calls).filter fun row => row.a = a, ∃ r, s.selectByPk row.id = some r :=
    fun row hrow => hs.present row (List.mem_of_mem_filter hrow)
  revert hall
  generalize (inserted calls).filter (fun row => row.a = a) = rows
  intro hall
  induction rows with
  | nil => rfl
  | cons row rows ih =>
    obtain ⟨r, hr⟩ := hall row List.mem_cons_self
    have hid : r.id = row.id := UInt64.toNat_inj.1 (hs.slots _ r hr)
    rw [List.map_cons, List.filterMap_cons_some hr, List.map_cons, hid,
      ih fun row' h => hall row' (List.mem_cons_of_mem _ h)]

theorem mem_selectByA {a : UInt64} {r : Row} :
    r ∈ s.selectByA a ↔ s.selectByPk r.id = some r ∧ ∃ row ∈ inserted calls, row.id = r.id ∧ row.a = a := by
  rw [VecStore.selectByA_eq, hs.bucket, List.mem_filterMap]
  simp only [List.mem_map, List.mem_filter, decide_eq_true_eq]
  constructor
  · intro h
    obtain ⟨pk, ⟨row, ⟨hrow, ha⟩, rfl⟩, hr⟩ := h
    have hid : r.id = row.id := UInt64.toNat_inj.1 (hs.slots _ r hr)
    rw [hid]
    exact ⟨hr, row, hrow, rfl, ha⟩
  · intro h
    obtain ⟨hr, row, hrow, hid, ha⟩ := h
    exact ⟨r.id, ⟨row, ⟨hrow, ha⟩, hid⟩, hr⟩

/-- different keys: the index is exact -/
theorem indexExact_of_nodup (hnodup : ((inserted calls).map Row.id).Nodup) : s.IndexExact := by
  intro a
  have hfound : ((s.selectByA a).map Row.id).Nodup := by
    rw [selectByA_ids hs, hs.bucket]
    exact hnodup.sublist (List.filter_sublist.map _)
  have hstored := (stored_nodup hs).of_map.filter fun r => decide (r.a = a)
  refine (List.perm_ext_iff_of_nodup hfound.of_map hstored).2 fun r => ?_
  rw [mem_selectByA hs, List.mem_filter, mem_stored hs, decide_eq_true_eq]
  refine and_congr_right fun hr => ?_
  obtain ⟨latest, hlatest, hid, ha⟩ := hs.latest r.id r hr
  constructor
  · intro h
    obtain ⟨row, hrow, hrid, hra⟩ := h
    have hsame := List.inj_on_of_nodup_map hnodup hrow hlatest (hrid.trans hid.symm)
    rw [← ha, ← hsame, hra]
  · intro h
    exact ⟨latest, hlatest, hid, ha.trans h⟩

/-- an exact index: all inserts had different keys -/
theorem nodup_of_indexExact (h : s.IndexExact) : ((inserted calls).map Row.id).Nodup := by
  -- all inserts of a key had the value that the row under the key has now
  have hvalue : ∀ row ∈ inserted calls, ∀ r, s.selectByPk row.id = some r → row.a = r.a := by
    intro row hrow r hr
    have hid : r.id = row.id := UInt64.toNat_inj.1 (hs.slots _ r hr)
    have hfound : r ∈ s.selectByA row.a := (mem_selectByA hs).2 ⟨hid ▸ hr, row, hrow, hid.symm, rfl⟩
    have hmem := ((h row.a).mem_iff).1 hfound
    exact (of_decide_eq_true (List.mem_filter.1 hmem).2).symm
  rw [List.nodup_iff_count_le_one]
  intro pk
  by_cases hpk : pk ∈ (inserted calls).map Row.id
  · obtain ⟨first, hfirst, rfl⟩ := List.mem_map.1 hpk
    obtain ⟨r, hr⟩ := hs.present first hfirst
    have hbucket : ((inserted calls).map Row.id).count first.id = (bucketOf s.byA r.a).count first.id := by
      rw [hs.bucket, List.count_eq_countP, List.count_eq_countP, List.countP_map, List.countP_map, List.countP_filter]
      refine List.countP_congr fun row hrow => ?_
      simp only [Function.comp_apply, beq_iff_eq, Bool.and_eq_true, decide_eq_true_eq]
      exact ⟨fun hid => ⟨hid, hvalue row hrow r (hid ▸ hr)⟩, And.left⟩
    have hnodup : (bucketOf s.byA r.a).Nodup := by
      rw [← selectByA_ids hs]
      exact ((h r.a).map Row.id).nodup_iff.2 ((stored_nodup hs).sublist (List.filter_sublist.map _))
    rw [hbucket]
    exact List.nodup_iff_count_le_one.1 hnodup _
  · rw [List.count_eq_zero_of_not_mem hpk]
    exact Nat.zero_le _

end Index

/-- **When the index is exact.** After a sequence of calls the index finds exactly the stored rows with a value, each
once, if and only if no two inserts had the same key. -/
theorem index_exact_iff (calls : List Call) (s : VecStore) (h : runCalls calls = some s) :
    s.IndexExact ↔ ((inserted calls).map Row.id).Nodup :=
  ⟨nodup_of_indexExact (reached h), indexExact_of_nodup (reached h)⟩

theorem index_exact_iff_once :
    ∃ s, runCalls [.insert (mk 0), .insert (mk 1), .updateB 0 7] = some s ∧ s.IndexExact :=
  ⟨_, rfl, (index_exact_iff [.insert (mk 0), .insert (mk 1), .updateB 0 7] _ rfl).2 (by decide)⟩

/-- a row inserted twice is found twice -/
theorem inserted_twice : ¬ ∀ calls s, runCalls calls = some s → s.IndexExact := by
  intro h
  have hexact := h [.insert (mk 0), .insert (mk 0)] _ rfl
  have hreached := reached (rfl : runCalls [.insert (mk 0), .insert (mk 0)] = some _)
  have hnodup := nodup_of_indexExact hreached hexact
  revert hnodup
  decide

/-! ## Ranges -/

/-- **Ranges and point lookups.** In every store a range is, up to the order of the rows under one index key, the
concatenation of the point lookups of the index keys in the range, which ascend. -/
theorem rangeByA_eq (order : Listing UInt64 (List UInt64)) (sort : KeySort UInt64 UInt64) (s : VecStore)
    (lo hi : UInt64) :
    ∃ (keys : List UInt64) (parts : List (List Row)),
      keys.Pairwise (· < ·) ∧ (∀ a, a ∈ keys ↔ a ∈ s.byA ∧ lo ≤ a ∧ a < hi) ∧
        s.rangeByA order sort lo hi = parts.flatten ∧ List.Forall₂ List.Perm parts (keys.map s.selectByA) := by
  obtain ⟨hhits, hgroups⟩ := KeyedSort.sort_groups order sort s.byA fun a => decide (lo ≤ a ∧ a < hi)
  set keys := KeyedSort.keysIn s.byA fun a => decide (lo ≤ a ∧ a < hi)
  set hits := sort.sort (KeyedSort.pairs ((order.list s.byA).filter fun e => decide (lo ≤ e.1 ∧ e.1 < hi))) with hdef
  let rowsOf : List (UInt64 × UInt64) → List Row := fun hits => hits.filterMap fun hit => s.selectByPk hit.2
  refine ⟨keys, keys.map fun a => rowsOf (KeyedSort.group hits a), ?_, fun a => ?_, ?_, ?_⟩
  · exact (KeyedSort.keysIn_sorted _ _).imp fun h => Std.compare_eq_lt.1 h
  · rw [KeyedSort.mem_keysIn, decide_eq_true_eq]
  · calc s.rangeByA order sort lo hi = rowsOf hits := rfl
      _ = rowsOf (keys.flatMap (KeyedSort.group hits)) := congrArg rowsOf hhits
      _ = (keys.map fun a => rowsOf (KeyedSort.group hits a)).flatten := by
        rw [← List.flatMap_def]
        exact List.filterMap_flatMap
  · rw [List.forall₂_map_left_iff, List.forall₂_map_right_iff, List.forall₂_same]
    intro a ha
    have hgroup := (hgroups a ha).filterMap s.selectByPk
    rw [List.filterMap_map] at hgroup
    rw [VecStore.selectByA_eq]
    exact hgroup

/-- three rows, inserted out of order, of which two are in the range -/
theorem rangeByA_eq_three :
    ∃ s, runCalls [.insert (mk 2), .insert (mk 0), .insert (mk 1)] = some s ∧
      ∃ (keys : List UInt64) (parts : List (List Row)),
        keys.Pairwise (· < ·) ∧ (∀ a, a ∈ keys ↔ a ∈ s.byA ∧ 0 ≤ a ∧ a < 2) ∧
          s.rangeByA default default 0 2 = parts.flatten ∧ List.Forall₂ List.Perm parts (keys.map s.selectByA) :=
  ⟨_, rfl, rangeByA_eq default default _ 0 2⟩

end WtBenchmarks.VecRealistic
