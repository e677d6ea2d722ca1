/-
Items grouped by a key.

`groupBy key l` is the list of the groups of `l`, each in the order of `l`; the groups stand in the order of their first
items. `tally step default entries` is the ordered map that folds, under each key, the values that come with it.

- `all_groups_iff`: a check that every group is uniform is a check on pairs of items with one key;
- `tally_get`, `collect_get`: what the map holds under a key.
-/
import WtBenchmarks.Core.TreeMap

namespace WtBenchmarks.Grouping

variable {α κ ν : Type}

/-! ## Lists of groups -/

section Groups

variable [DecidableEq κ]

def groupBy (key : α → κ) (l : List α) : List (List α) :=
  (l.map key).dedup.map fun k => l.filter fun a => key a = k

theorem mem_groupBy {key : α → κ} {l g : List α} :
    g ∈ groupBy key l ↔ ∃ a ∈ l, g = l.filter fun b => key b = key a := by
  rw [groupBy, List.mem_map]
  constructor
  · intro h
    obtain ⟨k, hk, rfl⟩ := h
    obtain ⟨a, ha, rfl⟩ := List.mem_map.1 (List.mem_dedup.1 hk)
    exact ⟨a, ha, rfl⟩
  · intro h
    obtain ⟨a, ha, rfl⟩ := h
    exact ⟨key a, List.mem_dedup.2 (List.mem_map_of_mem ha), rfl⟩

/-- a list with one value -/
def uniform [DecidableEq ν] (value : α → ν) (l : List α) : Bool := (l.map value).dedup.length == 1

theorem uniform_iff [DecidableEq ν] {value : α → ν} {l : List α} {a : α} (ha : a ∈ l) :
    uniform value l = true ↔ ∀ b ∈ l, value b = value a := by
  have hmem : value a ∈ (l.map value).dedup := List.mem_dedup.2 (List.mem_map_of_mem ha)
  rw [uniform, beq_iff_eq, List.length_eq_one_iff]
  constructor
  · intro h b hb
    obtain ⟨v, hv⟩ := h
    have hb' : value b ∈ (l.map value).dedup := List.mem_dedup.2 (List.mem_map_of_mem hb)
    rw [hv, List.mem_singleton] at hmem hb'
    rw [hb', hmem]
  · intro h
    have hone : ∀ v ∈ (l.map value).dedup, v = value a := fun v hv => by
      obtain ⟨b, hb, rfl⟩ := List.mem_map.1 (List.mem_dedup.1 hv)
      exact h b hb
    obtain ⟨n, hn⟩ : ∃ n, (l.map value).dedup = List.replicate n (value a) := ⟨_, List.eq_replicate_iff.2 ⟨rfl, hone⟩⟩
    have hnodup := List.nodup_dedup (l.map value)
    rw [hn] at hmem hnodup ⊢
    have hle := List.nodup_replicate.1 hnodup
    have hpos := (List.mem_replicate.1 hmem).1
    obtain rfl : n = 1 := by omega
    exact ⟨_, rfl⟩

/-- **Uniform groups.** Every group has one value exactly if items with one key have one value. -/
theorem all_groups_iff [DecidableEq ν] {key : α → κ} {value : α → ν} {l : List α} :
    (groupBy key l).all (uniform value) = true ↔ ∀ a ∈ l, ∀ b ∈ l, key a = key b → value a = value b := by
  rw [List.all_eq_true]
  have hin : ∀ {a b : α}, b ∈ l → key b = key a → b ∈ l.filter fun b => key b = key a := fun hb hkey =>
    List.mem_filter.2 ⟨hb, decide_eq_true hkey⟩
  constructor
  · intro h a ha b hb hkey
    have huniform := h _ (mem_groupBy.2 ⟨a, ha, rfl⟩)
    exact ((uniform_iff (hin ha rfl)).1 huniform b (hin hb hkey.symm)).symm
  · intro h g hg
    obtain ⟨a, ha, rfl⟩ := mem_groupBy.1 hg
    refine (uniform_iff (hin ha rfl)).2 fun b hb => ?_
    obtain ⟨hb, hkey⟩ := List.mem_filter.1 hb
    exact h b hb a ha (of_decide_eq_true hkey)

end Groups

/-! ## Maps of groups -/

section Tally

variable {β γ : Type} [Ord κ] [Std.TransOrd κ]

/-- an update of `map.entry(key).or_insert(default)` -/
def entryOr (step : γ → β → γ) (default : γ) (map : Std.ExtTreeMap κ γ) (entry : κ × β) : Std.ExtTreeMap κ γ :=
  map.insert entry.1 (step ((map[entry.1]?).getD default) entry.2)

/-- the map after all entries -/
def tally (step : γ → β → γ) (default : γ) (entries : List (κ × β)) : Std.ExtTreeMap κ γ :=
  entries.foldl (entryOr step default) ∅

/-- `map.entry(key).or_default().push(value)` -/
def push : Std.ExtTreeMap κ (List β) → κ × β → Std.ExtTreeMap κ (List β) :=
  entryOr (fun values value => values ++ [value]) []

def collect (entries : List (κ × β)) : Std.ExtTreeMap κ (List β) := entries.foldl push ∅

variable [Std.LawfulEqOrd κ] [DecidableEq κ]

/-- the values under one key, in order -/
def under (k : κ) (entries : List (κ × β)) : List β := (entries.filter fun e => e.1 = k).map Prod.snd

section Under

omit [Ord κ] [Std.TransOrd κ] [Std.LawfulEqOrd κ]

theorem under_append (k : κ) (entries entries' : List (κ × β)) :
    under k (entries ++ entries') = under k entries ++ under k entries' := by
  rw [under, under, under, List.filter_append, List.map_append]

theorem under_singleton (k : κ) (e : κ × β) : under k [e] = if e.1 = k then [e.2] else [] := by
  by_cases h : e.1 = k
  · simp [under, h]
  · simp [under, h]

theorem under_perm {entries entries' : List (κ × β)} (h : entries.Perm entries') (k : κ) :
    (under k entries).Perm (under k entries') := (h.filter _).map _

end Under

/-- **Entries of a tally.** What it holds under a key is the fold over the values of that key, and nothing if there are
none. -/
theorem tally_get (step : γ → β → γ) (default : γ) (entries : List (κ × β)) (k : κ) :
    (tally step default entries)[k]? =
      if under k entries = [] then none else some ((under k entries).foldl step default) := by
  unfold tally
  -- the entries are taken from the back: the last one is put in last
  induction entries using List.reverseRecOn with
  | nil => simp [under]
  | append_singleton entries e ih =>
    rw [List.foldl_append, List.foldl_cons, List.foldl_nil, entryOr, TreeMap.get_insert, under_append, under_singleton]
    by_cases h : e.1 = k
    · subst h
      have hne : under e.1 entries ++ [e.2] ≠ [] := List.append_ne_nil_of_right_ne_nil _ (List.cons_ne_nil _ _)
      rw [if_pos rfl, if_pos rfl, if_neg hne, ih, List.foldl_append]
      by_cases hnil : under e.1 entries = []
      · rw [if_pos hnil, hnil]
        rfl
      · rw [if_neg hnil]
        rfl
    · rw [if_neg h, if_neg h, List.append_nil, ih]

omit [Ord κ] [Std.TransOrd κ] [Std.LawfulEqOrd κ] [DecidableEq κ] in
theorem foldl_concat (l acc : List β) : l.foldl (fun values value => values ++ [value]) acc = acc ++ l := by
  induction l generalizing acc with
  | nil => rw [List.foldl_nil, List.append_nil]
  | cons b l ih => rw [List.foldl_cons, ih, List.append_assoc, List.singleton_append]

theorem collect_get (entries : List (κ × β)) (k : κ) :
    (collect entries)[k]? = if under k entries = [] then none else some (under k entries) := by
  have h := tally_get (fun (values : List β) value => values ++ [value]) [] entries k
  rwa [foldl_concat, List.nil_append] at h

/-- a map into which entries were inserted holds the last value of each key -/
theorem insertAll_get (entries : List (κ × β)) (k : κ) :
    (entries.foldl (fun map e => map.insert e.1 e.2) (∅ : Std.ExtTreeMap κ β))[k]? = (under k entries).getLast? := by
  induction entries using List.reverseRecOn with
  | nil => simp [under]
  | append_singleton entries e ih =>
    rw [List.foldl_append, List.foldl_cons, List.foldl_nil, TreeMap.get_insert, under_append, under_singleton]
    by_cases h : e.1 = k
    · rw [if_pos h, if_pos h, List.getLast?_concat]
    · rw [if_neg h, if_neg h, List.append_nil, ih]

end Tally

end WtBenchmarks.Grouping
