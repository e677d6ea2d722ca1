/-
Ordered maps whose keys are an initial segment of the naturals, written in some key type.

`f : ℕ → α` numbers the keys in increasing order up to `n`. `Indexed f n t v` says that the map `t` holds at `f i` what
the array `v` holds at `i`, and nothing else. Maps over different key types with the same numbering are compared through
the array.

- `Indexed.insert`, `Indexed.erase`: the updates of the map are the updates of the array.
- `Indexed.toList_eq`: the map lists the array in order.
- `Indexed.load_step`: loading the keys in order.
- `Deleting.step`: deleting keys and counting those that were present.
- `Full.between`, `Full.take`: with no holes, the entries between two keys, or the first few from one on, are a range of
  indices.
-/
import WtBenchmarks.Core.TreeMap
import WtBenchmarks.Core.Word
import Mathlib.Data.List.Sort

namespace WtBenchmarks

variable {α β : Type} [Ord α] [Std.TransOrd α] [Std.LawfulEqOrd α]

/-- `f` numbers its first `n` keys in increasing order -/
def Increasing (f : ℕ → α) (n : ℕ) : Prop := ∀ i j, i < j → j < n → compare (f i) (f j) = .lt

omit [Std.TransOrd α] in
theorem Increasing.injOn {f : ℕ → α} {n : ℕ} (hf : Increasing f n) : Set.InjOn f (Set.Iio n) := by
  intro i hi j hj h
  rcases Nat.lt_trichotomy i j with hlt | heq | hlt
  · have := hf i j hlt hj
    rw [h, Std.compare_self] at this
    cases this
  · exact heq
  · have := hf j i hlt hi
    rw [h, Std.compare_self] at this
    cases this

/-- the map holds exactly the entries of the array below `n` -/
structure Indexed (f : ℕ → α) (n : ℕ) (t : Std.ExtTreeMap α β) (v : ℕ → Option β) : Prop where
  get : ∀ i < n, t[f i]? = v i
  only : ∀ k ∈ t, ∃ i < n, k = f i

namespace Indexed

variable {f : ℕ → α} {n : ℕ} {t : Std.ExtTreeMap α β} {v : ℕ → Option β}

omit [Std.LawfulEqOrd α] in
theorem empty (f : ℕ → α) (n : ℕ) : Indexed f n (∅ : Std.ExtTreeMap α β) fun _ => none :=
  ⟨fun i _ => by simp, fun k hk => by simp at hk⟩

omit [Std.LawfulEqOrd α] in
theorem mem_iff (h : Indexed f n t v) {i : ℕ} (hi : i < n) : f i ∈ t ↔ (v i).isSome := by
  rw [TreeMap.mem_iff_get, h.get i hi, Option.isSome_iff_exists]

theorem insert (hf : Set.InjOn f (Set.Iio n)) (h : Indexed f n t v) {i : ℕ} (hi : i < n) (p : β) :
    Indexed f n (t.insert (f i) p) (Function.update v i (some p)) := by
  classical
  refine ⟨fun j hj => ?_, fun k hk => ?_⟩
  · rw [TreeMap.get_insert, h.get j hj]
    by_cases hij : i = j
    · subst hij
      simp
    · rw [if_neg fun he => hij (hf hi hj he), Function.update_of_ne (Ne.symm hij)]
  · rcases (TreeMap.mem_insert t (f i) k p).1 hk with rfl | hk
    · exact ⟨i, hi, rfl⟩
    · exact h.only k hk

theorem erase (hf : Set.InjOn f (Set.Iio n)) (h : Indexed f n t v) {i : ℕ} (hi : i < n) :
    Indexed f n (t.erase (f i)) (Function.update v i none) := by
  classical
  refine ⟨fun j hj => ?_, fun k hk => h.only k ((TreeMap.mem_erase t (f i) k).1 hk).2⟩
  rw [TreeMap.get_erase, h.get j hj]
  by_cases hij : i = j
  · subst hij
    simp
  · rw [if_neg fun he => hij (hf hi hj he), Function.update_of_ne (Ne.symm hij)]

omit [Std.LawfulEqOrd α] in
/-- erasing an absent key changes nothing -/
theorem erase_absent (h : Indexed f n t v) {i : ℕ} (hi : i < n) (habs : f i ∉ t) :
    Indexed f n t (Function.update v i none) := by
  have hv : v i = none := by
    rw [h.mem_iff hi] at habs
    exact Option.not_isSome_iff_eq_none.1 habs
  rwa [← hv, Function.update_eq_self]

/-- the entries of the array, in order -/
def listing (f : ℕ → α) (n : ℕ) (v : ℕ → Option β) : List (α × β) :=
  (List.range n).filterMap fun i => (v i).map fun p => (f i, p)

omit [Std.TransOrd α] [Std.LawfulEqOrd α] in
theorem listing_sorted (hf : Increasing f n) (v : ℕ → Option β) :
    (listing f n v).Pairwise fun a b => compare a.1 b.1 = .lt := by
  have hrange : (List.range n).Pairwise fun i j => compare (f i) (f j) = .lt :=
    List.pairwise_lt_range.imp_of_mem fun _ hj hlt => hf _ _ hlt (List.mem_range.1 hj)
  refine hrange.filterMap _ fun i j hlt a ha b hb => ?_
  obtain ⟨p, -, rfl⟩ := Option.map_eq_some_iff.1 ha
  obtain ⟨q, -, rfl⟩ := Option.map_eq_some_iff.1 hb
  exact hlt

omit [Ord α] [Std.TransOrd α] [Std.LawfulEqOrd α] in
theorem mem_listing {a : α × β} : a ∈ listing f n v ↔ ∃ i < n, v i = some a.2 ∧ a.1 = f i := by
  simp only [listing, List.mem_filterMap, List.mem_range, Option.map_eq_some_iff]
  constructor
  · rintro ⟨i, hi, p, hp, rfl⟩
    exact ⟨i, hi, hp, rfl⟩
  · rintro ⟨i, hi, hp, ha⟩
    exact ⟨i, hi, a.2, hp, by rw [← ha]⟩

/-- **The map lists the array.** -/
theorem toList_eq (hf : Increasing f n) (h : Indexed f n t v) : t.toList = listing f n v := by
  have hlt : ∀ a b : α × β, compare a.1 b.1 = .lt → compare b.1 a.1 ≠ .lt := fun a b hab hba =>
    absurd hba (by rw [Std.OrientedOrd.eq_swap, hab]; decide)
  have hne : ∀ a b : α × β, compare a.1 b.1 = .lt → a ≠ b := by
    rintro a b hab rfl
    rw [Std.compare_self] at hab
    cases hab
  refine List.Perm.eq_of_pairwise (fun a b _ _ hab hba => absurd hba (hlt a b hab))
    Std.ExtTreeMap.ordered_keys_toList (listing_sorted hf v) ?_
  rw [List.perm_ext_iff_of_nodup (Std.ExtTreeMap.ordered_keys_toList.imp fun h => hne _ _ h)
    ((listing_sorted hf v).imp fun h => hne _ _ h)]
  rintro ⟨k, p⟩
  rw [Std.ExtTreeMap.mem_toList_iff_getElem?_eq_some, mem_listing]
  constructor
  · intro hk
    obtain ⟨i, hi, rfl⟩ := h.only k ((TreeMap.mem_iff_get t k).2 ⟨p, hk⟩)
    exact ⟨i, hi, (h.get i hi).symm.trans hk, rfl⟩
  · rintro ⟨i, hi, hv, rfl⟩
    exact (h.get i hi).trans hv

/-! ## Loading in order -/

/-- the array while its first `i` entries are loaded -/
def upTo (i : ℕ) (w : ℕ → β) (j : ℕ) : Option β := if j < i then some (w j) else none

omit [Std.LawfulEqOrd α] in
theorem empty_upTo (f : ℕ → α) (n : ℕ) (w : ℕ → β) : Indexed f n (∅ : Std.ExtTreeMap α β) (upTo 0 w) := by
  have heq : upTo 0 w = fun _ => none := funext fun j => if_neg (Nat.not_lt_zero j)
  rw [heq]
  exact empty f n

theorem load_step (hf : Set.InjOn f (Set.Iio n)) {w : ℕ → β} {i : ℕ} (hi : i < n) (h : Indexed f n t (upTo i w)) :
    f i ∉ t ∧ Indexed f n (t.insert (f i) (w i)) (upTo (i + 1) w) := by
  refine ⟨fun hmem => ?_, ?_⟩
  · rw [h.mem_iff hi, upTo, if_neg (Nat.lt_irrefl i)] at hmem
    cases hmem
  · have heq : Function.update (upTo i w) i (some (w i)) = upTo (i + 1) w := by
      funext j
      by_cases hj : j = i
      · subst hj
        rw [Function.update_self, upTo, if_pos (Nat.lt_succ_self j)]
      · rw [Function.update_of_ne hj, upTo, upTo]
        by_cases hlt : j < i
        · rw [if_pos hlt, if_pos (by omega)]
        · rw [if_neg hlt, if_neg (by omega)]
    rw [← heq]
    exact h.insert hf hi (w i)

end Indexed

/-! ## Arrays without holes -/

/-- the map holds exactly `w 0, …, w (n - 1)` -/
def Full (f : ℕ → α) (n : ℕ) (t : Std.ExtTreeMap α β) (w : ℕ → β) : Prop := Indexed f n t fun i => some (w i)

namespace Full

variable {f : ℕ → α} {n : ℕ} {t : Std.ExtTreeMap α β} {w : ℕ → β}

omit [Std.LawfulEqOrd α] in
theorem of_upTo (h : Indexed f n t (Indexed.upTo n w)) : Full f n t w :=
  ⟨fun i hi => by rw [h.get i hi, Indexed.upTo, if_pos hi], h.only⟩

theorem insert (hf : Set.InjOn f (Set.Iio n)) (h : Full f n t w) {i : ℕ} (hi : i < n) (p : β) :
    Full f n (t.insert (f i) p) (Function.update w i p) := by
  have heq : Function.update (fun i => some (w i)) i (some p) = fun j => some (Function.update w i p j) := by
    funext j
    by_cases hj : j = i
    · subst hj
      simp
    · simp [Function.update_of_ne hj]
  have := Indexed.insert hf h hi p
  rwa [heq] at this

omit [Std.LawfulEqOrd α] in
theorem mem (h : Full f n t w) {i : ℕ} (hi : i < n) : f i ∈ t := (Indexed.mem_iff h hi).2 rfl

theorem toList_eq (hf : Increasing f n) (h : Full f n t w) : t.toList = (List.range n).map fun i => (f i, w i) := by
  rw [Indexed.toList_eq hf h, Indexed.listing, ← List.filterMap_eq_map]
  rfl

theorem size_eq (hf : Set.InjOn f (Set.Iio n)) (h : Full f n t w) : t.size = n := by
  have hperm : t.keys.Perm ((List.range n).map f) := by
    refine (List.perm_ext_iff_of_nodup Std.ExtTreeMap.nodup_keys ?_).2 fun k => ?_
    · exact List.Nodup.map_on (fun i hi j hj he => hf (List.mem_range.1 hi) (List.mem_range.1 hj) he) List.nodup_range
    · rw [Std.ExtTreeMap.mem_keys, List.mem_map]
      constructor
      · intro hk
        obtain ⟨i, hi, rfl⟩ := h.only k hk
        exact ⟨i, List.mem_range.2 hi, rfl⟩
      · rintro ⟨i, hi, rfl⟩
        exact h.mem (List.mem_range.1 hi)
  rw [← Std.ExtTreeMap.length_keys, hperm.length_eq, List.length_map, List.length_range]

/-- the entries a predicate selects, when it selects the indices from `lo` up to `hi` -/
theorem between (hf : Increasing f n) (h : Full f n t w) (p : α × β → Bool) {lo hi : ℕ} (hlo : lo ≤ hi) (hhi : hi ≤ n)
    (hp : ∀ i < n, p (f i, w i) = true ↔ lo ≤ i ∧ i < hi) :
    t.toList.filter p = (List.range' lo (hi - lo)).map fun i => (f i, w i) := by
  have hsplit : List.range n = List.range' 0 lo ++ (List.range' lo (hi - lo) ++ List.range' hi (n - hi)) := by
    have h1 := List.range'_append_1 (s := lo) (m := hi - lo) (n := n - hi)
    have h2 := List.range'_append_1 (s := 0) (m := lo) (n := n - lo)
    rw [Nat.add_sub_cancel' hlo, show hi - lo + (n - hi) = n - lo by omega] at h1
    rw [Nat.zero_add, Nat.add_sub_cancel' (hlo.trans hhi)] at h2
    rw [h1, h2, List.range_eq_range']
  have none_of : ∀ l : List ℕ, (∀ i ∈ l, i < n ∧ ¬ (lo ≤ i ∧ i < hi)) →
      (l.map fun i => (f i, w i)).filter p = [] := by
    intro l hl
    refine List.filter_eq_nil_iff.2 fun a ha => ?_
    obtain ⟨i, hi', rfl⟩ := List.mem_map.1 ha
    exact fun h => (hl i hi').2 ((hp i (hl i hi').1).1 h)
  have all_of : ((List.range' lo (hi - lo)).map fun i => (f i, w i)).filter p =
      (List.range' lo (hi - lo)).map fun i => (f i, w i) := by
    refine List.filter_eq_self.2 fun a ha => ?_
    obtain ⟨i, hi', rfl⟩ := List.mem_map.1 ha
    rw [List.mem_range'_1] at hi'
    exact (hp i (by omega)).2 ⟨hi'.1, by omega⟩
  rw [h.toList_eq hf, hsplit, List.map_append, List.map_append, List.filter_append, List.filter_append, all_of,
    none_of _ fun i hi' => ?_, none_of _ fun i hi' => ?_, List.nil_append, List.append_nil]
  · rw [List.mem_range'_1] at hi'
    omega
  · rw [List.mem_range'_1] at hi'
    omega

/-- the first `len` entries from index `s` on -/
theorem take (hf : Increasing f n) (h : Full f n t w) (p : α × β → Bool) {s len : ℕ} (hs : s + len ≤ n)
    (hp : ∀ i < n, p (f i, w i) = true ↔ s ≤ i) :
    (t.toList.filter p).take len = (List.range' s len).map fun i => (f i, w i) := by
  have hp' : ∀ i < n, p (f i, w i) = true ↔ s ≤ i ∧ i < n := fun i hi => by
    rw [hp i hi]
    exact ⟨fun h => ⟨h, hi⟩, And.left⟩
  rw [h.between hf p (by omega) le_rfl hp', ← List.map_take, List.take_range'_of_length_ge (by omega)]

end Full

/-! ## Keys cast from machine words -/

/-- the numbering by a cast of the 64-bit words -/
def byCast (cast : UInt64 → α) (i : ℕ) : α := cast (UInt64.ofNat i)

omit [Ord α] [Std.TransOrd α] [Std.LawfulEqOrd α] in
@[simp] theorem byCast_toNat (cast : UInt64 → α) (key : UInt64) : byCast cast key.toNat = cast key := by
  rw [byCast, UInt64.ofNat_toNat]

section Cast

variable {cast : UInt64 → α} {n : ℕ} {t : Std.ExtTreeMap α β} {w : ℕ → β} {v : ℕ → Option β} {key : UInt64}

omit [Std.LawfulEqOrd α] in
theorem Full.get_key (h : Full (byCast cast) n t w) (hk : key.toNat < n) : t[cast key]? = some (w key.toNat) := by
  have := h.get key.toNat hk
  rwa [byCast_toNat] at this

omit [Std.LawfulEqOrd α] in
theorem Full.mem_key (h : Full (byCast cast) n t w) (hk : key.toNat < n) : cast key ∈ t := by
  have := h.mem hk
  rwa [byCast_toNat] at this

theorem Full.insert_key (hf : Set.InjOn (byCast cast) (Set.Iio n)) (h : Full (byCast cast) n t w)
    (hk : key.toNat < n) (p : β) :
    Full (byCast cast) n (t.insert (cast key) p) (Function.update w key.toNat p) := by
  have := h.insert hf hk p
  rwa [byCast_toNat] at this

/-- deleting a key, and whether it was there -/
theorem Indexed.erase_key (hf : Set.InjOn (byCast cast) (Set.Iio n)) (h : Indexed (byCast cast) n t v)
    (hk : key.toNat < n) : (cast key ∈ t ↔ (v key.toNat).isSome) ∧
      Indexed (byCast cast) n (t.erase (cast key)) (Function.update v key.toNat none) ∧
      (cast key ∉ t → Indexed (byCast cast) n t (Function.update v key.toNat none)) := by
  have hmem := h.mem_iff hk
  have herase := h.erase hf hk
  have habs := h.erase_absent hk
  rw [byCast_toNat] at hmem herase habs
  exact ⟨hmem, herase, habs⟩

/-! ## Counted deletions -/

/-- one deletion: the cell is empty afterwards, and counted if it was not before -/
def deleteCell (s : (ℕ → Option β) × UInt64) (key : UInt64) : (ℕ → Option β) × UInt64 :=
  (Function.update s.1 key.toNat none, s.2 + if (s.1 key.toNat).isSome then 1 else 0)

/-- a map and its count of deletions follow the cells -/
def Deleting (cast : UInt64 → α) (n : ℕ) (r : Std.ExtTreeMap α β × UInt64) (s : (ℕ → Option β) × UInt64) : Prop :=
  Indexed (byCast cast) n r.1 s.1 ∧ r.2 = s.2

/-- a deletion of a present key is counted; one of an absent key changes nothing, erased or not -/
theorem Deleting.step (hf : Set.InjOn (byCast cast) (Set.Iio n)) {r : Std.ExtTreeMap α β × UInt64}
    {s : (ℕ → Option β) × UInt64} (h : Deleting cast n r s) (hk : key.toNat < n) :
    (cast key ∈ r.1 ∧ Deleting cast n (r.1.erase (cast key), r.2 + 1) (deleteCell s key)) ∨
      (cast key ∉ r.1 ∧ Deleting cast n r (deleteCell s key) ∧
        Deleting cast n (r.1.erase (cast key), r.2) (deleteCell s key)) := by
  obtain ⟨hI, hcount⟩ := h
  obtain ⟨hmem, herase, habs⟩ := hI.erase_key hf hk
  by_cases hin : cast key ∈ r.1
  · refine Or.inl ⟨hin, herase, ?_⟩
    rw [deleteCell, if_pos (hmem.1 hin), hcount]
  · have hsame : r.2 = (deleteCell s key).2 := by
      rw [deleteCell, if_neg fun h => hin (hmem.2 h), hcount, UInt64.add_zero]
    exact Or.inr ⟨hin, ⟨habs hin, hsame⟩, herase, hsame⟩

end Cast

theorem increasing_u64 {n : ℕ} (hn : n ≤ 2 ^ 64) : Increasing (byCast (id : UInt64 → UInt64)) n := by
  intro i j hij hj
  have hi := ofNat_toNat_of_lt (n := i) (by omega)
  have hj' := ofNat_toNat_of_lt (n := j) (by omega)
  have hlt : UInt64.ofNat i < UInt64.ofNat j := by
    rw [UInt64.lt_iff_toNat_lt]
    omega
  exact Std.compare_eq_lt.2 hlt

/-- the cast of a word below `2 ^ 63` -/
theorem toInt_ofNat_toInt64 {i : ℕ} (h : i < 2 ^ 63) : (UInt64.ofNat i).toInt64.toInt = i := by
  rw [UInt64.toInt64_ofNat', Int64.toInt_ofNat_of_lt h]

theorem increasing_i64 {n : ℕ} (hn : n ≤ 2 ^ 63) : Increasing (byCast UInt64.toInt64) n := by
  intro i j hij hj
  have hlt : (UInt64.ofNat i).toInt64 < (UInt64.ofNat j).toInt64 := by
    rw [Int64.lt_iff_toInt_lt, toInt_ofNat_toInt64 (by omega), toInt_ofNat_toInt64 (by omega)]
    omega
  exact Std.compare_eq_lt.2 hlt

end WtBenchmarks
