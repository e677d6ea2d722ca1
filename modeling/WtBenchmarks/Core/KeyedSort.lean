/-
Lists of pairs sorted by their keys.

A sort that is not stable may leave the pairs of one key in any order, and a map that is not ordered may be listed in
any order (`KeySort`, `Listing`: what is documented of them, and nothing else).

- `eq_flatMap_groups`: a list sorted by its keys consists of its groups, in the order of their keys;
- `sort_groups`: the same of a map from keys to lists that was listed, flattened and sorted.
-/
import WtBenchmarks.Core.GroupTable
import WtBenchmarks.Core.Window

namespace WtBenchmarks

/-- a sort by key -/
structure KeySort (κ α : Type) [Ord κ] where
  sort : List (κ × α) → List (κ × α)
  perm : ∀ l, (sort l).Perm l
  sorted : ∀ l, (sort l).Pairwise fun p q => (compare p.1 q.1).isLE

/-- an order in which the entries of a map are listed -/
structure Listing (κ β : Type) [Ord κ] [Std.TransOrd κ] where
  list : Std.ExtTreeMap κ β → List (κ × β)
  perm : ∀ m, (list m).Perm m.toList

section Instances

variable {κ : Type} [Ord κ] [Std.TransOrd κ]

/-- the stable sort is one -/
instance {α : Type} : Inhabited (KeySort κ α) where
  default :=
    { sort := fun l => l.mergeSort fun p q => (compare p.1 q.1).isLE
      perm := fun l => List.mergeSort_perm l _
      sorted := fun l => List.pairwise_mergeSort (fun _ _ _ => Std.TransCmp.isLE_trans)
        (fun p q => by
          rw [Bool.or_eq_true, Std.OrientedOrd.eq_swap (a := q.1), Ordering.isLE_swap]
          cases compare p.1 q.1 <;> decide) l }

/-- the ascending order is one -/
instance {β : Type} : Inhabited (Listing κ β) where
  default :=
    { list := Std.ExtTreeMap.toList
      perm := fun _ => List.Perm.refl _ }

end Instances

namespace KeyedSort

variable {κ α : Type} [Ord κ] [Std.TransOrd κ] [Std.LawfulEqOrd κ] [DecidableEq κ]

/-- the pairs of a key -/
def group (l : List (κ × α)) (k : κ) : List (κ × α) := l.filter fun p => p.1 = k

/-- **Groups.** A list sorted by its keys consists of its groups. -/
theorem eq_flatMap_groups {l : List (κ × α)} {keys : List κ} (hl : l.Pairwise fun p q => (compare p.1 q.1).isLE)
    (hkeys : keys.Pairwise fun a b => compare a b = .lt) (hall : ∀ p ∈ l, p.1 ∈ keys) :
    l = keys.flatMap (group l) := by
  induction keys generalizing l with
  | nil =>
    cases l with
    | nil => rfl
    | cons p l => exact absurd (hall p List.mem_cons_self) List.not_mem_nil
  | cons k keys ih =>
    obtain ⟨hk, hkeys⟩ := List.pairwise_cons.1 hkeys
    have hfirst : ∀ p ∈ l, (compare k p.1).isLE := by
      intro p hp
      rcases List.mem_cons.1 (hall p hp) with heq | hmem
      · rw [heq, Std.compare_self]
        rfl
      · rw [hk _ hmem]
        rfl
    have hpair : l.Pairwise fun p q => decide (q.1 = k) = true → decide (p.1 = k) = true := by
      refine hl.imp_of_mem fun {p q} hp _ hle hq => ?_
      rw [decide_eq_true_eq] at hq ⊢
      rw [hq] at hle
      exact Std.LawfulEqOrd.compare_eq_iff_eq.1 (Std.OrientedCmp.isLE_antisymm hle (hfirst p hp))
    have hrest := ih (l := l.filter fun p => !decide (p.1 = k)) (hl.filter _) hkeys fun p hp => by
      obtain ⟨hp, hne⟩ := List.mem_filter.1 hp
      rcases List.mem_cons.1 (hall p hp) with heq | hmem
      · simp [heq] at hne
      · exact hmem
    have hgroups : ∀ k' ∈ keys, group (l.filter fun p => !decide (p.1 = k)) k' = group l k' := by
      intro k' hk'
      rw [group, List.filter_filter]
      refine List.filter_congr fun p _ => ?_
      have hne : k' ≠ k := by
        rintro rfl
        have hlt := hk k' hk'
        rw [Std.compare_self] at hlt
        cases hlt
      by_cases hp : p.1 = k'
      · simp [hp, hne]
      · simp [hp]
    calc l = l.filter (fun p => p.1 = k) ++ l.filter (fun p => !decide (p.1 = k)) :=
          (filter_append_filter_not hpair).symm
      _ = group l k ++ keys.flatMap (group (l.filter fun p => !decide (p.1 = k))) := by rw [← hrest]; rfl
      _ = group l k ++ keys.flatMap (group l) := by rw [List.flatMap_congr hgroups]
      _ = (k :: keys).flatMap (group l) := List.flatMap_cons.symm

/-- the pairs a map from keys to lists stands for -/
def pairs (entries : List (κ × List α)) : List (κ × α) := entries.flatMap fun e => e.2.map fun a => (e.1, a)

omit [Ord κ] [Std.TransOrd κ] [Std.LawfulEqOrd κ] in
theorem group_pairs_of_ne {entries : List (κ × List α)} {k : κ} (h : ∀ e ∈ entries, e.1 ≠ k) :
    group (pairs entries) k = [] := by
  refine List.filter_eq_nil_iff.2 fun p hp => ?_
  obtain ⟨e, he, hp⟩ := List.mem_flatMap.1 hp
  obtain ⟨a, -, rfl⟩ := List.mem_map.1 hp
  simpa using h e he

omit [Ord κ] [Std.TransOrd κ] [Std.LawfulEqOrd κ] in
theorem group_pairs {entries : List (κ × List α)} (hnodup : (entries.map Prod.fst).Nodup) {k : κ} {as : List α}
    (hmem : (k, as) ∈ entries) : group (pairs entries) k = as.map fun a => (k, a) := by
  induction entries with
  | nil => cases hmem
  | cons e entries ih =>
    obtain ⟨hfresh, hnodup⟩ := List.nodup_cons.1 hnodup
    have hsplit : group (pairs (e :: entries)) k =
        (e.2.map fun a => (e.1, a)).filter (fun p => p.1 = k) ++ group (pairs entries) k := by
      rw [group, pairs, List.flatMap_cons, List.filter_append]
      rfl
    rw [hsplit]
    rcases List.mem_cons.1 hmem with rfl | hmem
    · have hhead : ((as.map fun a => (k, a)).filter fun p => p.1 = k) = as.map fun a => (k, a) := by
        refine List.filter_eq_self.2 fun p hp => ?_
        obtain ⟨a, -, rfl⟩ := List.mem_map.1 hp
        exact decide_eq_true rfl
      rw [hhead, group_pairs_of_ne, List.append_nil]
      intro e he heq
      exact hfresh (List.mem_map.2 ⟨e, he, heq⟩)
    · have hne : e.1 ≠ k := fun heq => hfresh (heq ▸ List.mem_map_of_mem (f := Prod.fst) hmem)
      have hhead : ((e.2.map fun a => (e.1, a)).filter fun p => p.1 = k) = [] := by
        refine List.filter_eq_nil_iff.2 fun p hp => ?_
        obtain ⟨a, -, rfl⟩ := List.mem_map.1 hp
        simpa using hne
      rw [hhead, List.nil_append, ih hnodup hmem]

/-- the keys of a map that satisfy a predicate, ascending -/
def keysIn (m : Std.ExtTreeMap κ (List α)) (p : κ → Bool) : List κ := m.keys.filter p

omit [DecidableEq κ] in
theorem mem_keysIn {m : Std.ExtTreeMap κ (List α)} {p : κ → Bool} {k : κ} :
    k ∈ keysIn m p ↔ k ∈ m ∧ p k = true := by
  rw [keysIn, List.mem_filter, Std.ExtTreeMap.mem_keys]

omit [Std.LawfulEqOrd κ] [DecidableEq κ] in
theorem keysIn_sorted (m : Std.ExtTreeMap κ (List α)) (p : κ → Bool) :
    (keysIn m p).Pairwise fun a b => compare a b = .lt := Std.ExtTreeMap.ordered_keys.filter _

/-- **A range of a map from keys to lists.** Listed in any order, restricted to some keys, flattened and sorted, the
map gives the lists of these keys in the order of the keys, each in some order. -/
theorem sort_groups (order : Listing κ (List α)) (sort : KeySort κ α) (m : Std.ExtTreeMap κ (List α)) (p : κ → Bool) :
    let hits := sort.sort (pairs ((order.list m).filter fun e => p e.1))
    hits = (keysIn m p).flatMap (group hits) ∧
      ∀ k ∈ keysIn m p, ((group hits k).map Prod.snd).Perm (bucketOf m k) := by
  intro hits
  set entries := (order.list m).filter fun e => p e.1 with hentries
  have hperm : hits.Perm (pairs entries) := sort.perm _
  have hmem : ∀ e, e ∈ entries ↔ m[e.1]? = some e.2 ∧ p e.1 = true := by
    intro e
    rw [hentries, List.mem_filter, (order.perm m).mem_iff, Std.ExtTreeMap.mem_toList_iff_getElem?_eq_some]
  have hnodup : (entries.map Prod.fst).Nodup :=
    (((order.perm m).map Prod.fst).nodup_iff.2 (TreeMap.nodup_fst m)).sublist (List.filter_sublist.map _)
  constructor
  · refine eq_flatMap_groups (sort.sorted _) (keysIn_sorted m p) fun q hq => ?_
    obtain ⟨e, he, hq⟩ := List.mem_flatMap.1 (hperm.mem_iff.1 hq)
    obtain ⟨a, -, rfl⟩ := List.mem_map.1 hq
    obtain ⟨hget, hp⟩ := (hmem e).1 he
    exact mem_keysIn.2 ⟨(TreeMap.mem_iff_get m e.1).2 ⟨e.2, hget⟩, hp⟩
  · intro k hk
    obtain ⟨hkm, hp⟩ := mem_keysIn.1 hk
    obtain ⟨as, has⟩ := (TreeMap.mem_iff_get m k).1 hkm
    have hgroup := group_pairs hnodup ((hmem (k, as)).2 ⟨has, hp⟩)
    have hbucket : bucketOf m k = as := by rw [bucketOf, has, Option.getD_some]
    calc ((group hits k).map Prod.snd).Perm ((group (pairs entries) k).map Prod.snd) :=
          (hperm.filter _).map _
      _ = as := by rw [hgroup, List.map_map]; exact List.map_id as
      _ = bucketOf m k := hbucket.symm

end KeyedSort

end WtBenchmarks
