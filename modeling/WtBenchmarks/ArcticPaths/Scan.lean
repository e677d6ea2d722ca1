/-
The path keys and the prefix scan of the path benchmarks (`benches/arctic_paths.rs`; the keys also of
`benches/probe_order.rs` and `benches/arctic_concurrent.rs`).

A key names a unit, padded to six digits, and one of its three loops. The comparison trees scan a prefix by going from
it on until a key does not start with it; the radix tree is asked for the prefix itself. It belongs to another crate and
is known by what its operations do (`Arctic`).

- `scan_eq_filter`: what a scan of a comparison tree finds, in every map and for every prefix;
- `arcticPath_some`, `prefixed_eq_scan`: a radix tree with the same entries, and its scans;
- `pathKeys_nodup`, `pathKeys_sorted_iff`: the keys are different, and in lexicographic order up to three million of
  them;
- `scan_guard`: what the scan of a unit finds, and that the check before the timing passes.
-/
import Mathlib.Data.String.Basic
import WtBenchmarks.Core.Decimal
import WtBenchmarks.Core.Numeral
import WtBenchmarks.Core.Text
import WtBenchmarks.Core.TreeMap
import WtBenchmarks.Core.Window

namespace WtBenchmarks.ArcticPaths

/-! ## Keys and maps -/

def pathKey (i : ℕ) : String := "fn:unit" ++ zeroPadded 6 (i / 3) ++ "/loop:" ++ toString (i % 3)

def pathKeys (n : ℕ) : List String := (List.range n).map pathKey

def scanPrefix (i : ℕ) : String := "fn:unit" ++ zeroPadded 6 i ++ "/"

/-- `Str<NonNull>` -/
abbrev NonNullStr := { s : String // '\x00' ∉ s.toList }

/-- `Str::<NonNull>::new` -/
def nonNull (s : String) : Option NonNullStr := if h : '\x00' ∈ s.toList then none else some ⟨s, h⟩

/-- a map from keys to their positions -/
abbrev PathMap := Std.ExtTreeMap String UInt64

/-- `insert` of the comparison trees -/
def btreeInsert (map : PathMap) (entry : String × ℕ) : PathMap := map.insert entry.1 (UInt64.ofNat entry.2)

/-- `btree_path`, and `wti_path` alike -/
def btreePath (paths : List String) : PathMap := paths.zipIdx.foldl btreeInsert ∅

/-- `key.starts_with(p)` -/
def startsWith (key p : String) : Bool := p.toList.isPrefixOf key.toList

/-- `map.range(p..).take_while(|(k, _)| k.starts_with(p))` -/
def scan (map : PathMap) (p : String) : List (String × UInt64) :=
  (map.toList.filter fun entry => decide (p ≤ entry.1)).takeWhile fun entry => startsWith entry.1 p

/-- what the radix tree is asked to scan: a validated key, or any string -/
inductive Prefix where
  | validated (p : NonNullStr)
  | bare (p : String)

def Prefix.text : Prefix → String
  | .validated p => p.val
  | .bare p => p

/-- a radix tree, with what its operations are documented to do -/
structure Arctic where
  Map : Type
  new : Map
  /-- refused for a key in use -/
  insert : Map → NonNullStr → UInt64 → Option Map
  upsert : Map → NonNullStr → UInt64 → Map
  get : Map → NonNullStr → Option UInt64
  /-- the entries under a prefix in ascending order -/
  prefixed : Map → Prefix → List (NonNullStr × UInt64)
  get_new : ∀ key, get new key = none
  insert_new : ∀ {map key} v, get map key = none → ∃ map', insert map key v = some map' ∧
    ∀ key', get map' key' = if key = key' then some v else get map key'
  get_upsert : ∀ map key v key', get (upsert map key v) key' = if key = key' then some v else get map key'
  mem_prefixed : ∀ {map p key v}, (key, v) ∈ prefixed map p ↔ get map key = some v ∧ startsWith key.val p.text = true
  prefixed_sorted : ∀ map p, (prefixed map p).Pairwise fun a b => a.1.val < b.1.val

section

variable (A : Arctic)

/-- `arctic_path`; `none` is a panic -/
def arcticPath (paths : List String) : Option A.Map :=
  paths.zipIdx.foldlM (fun map entry => do
    let key ← nonNull entry.1
    -- a refused insert is not looked at
    some ((A.insert map key (UInt64.ofNat entry.2)).getD map)) A.new

/-- the load of `benches/arctic_concurrent.rs`, where no insert may be refused -/
def arcticLoad (keys : List NonNullStr) : Option A.Map :=
  keys.zipIdx.foldlM (fun map entry => A.insert map entry.1 (UInt64.ofNat entry.2)) A.new

/-- the hits of the scans, if the checks before the timing pass -/
def scanGuard (n : ℕ) : Option ℕ := do
  let arctic ← arcticPath A (pathKeys n)
  let p := scanPrefix (n / 3 / 2)
  let validated ← nonNull p
  let arcticHits := (A.prefixed arctic (.validated validated)).length
  let bareHits := (A.prefixed arctic (.bare p)).length
  let btreeHits := (scan (btreePath (pathKeys n)) p).length
  guard (arcticHits = bareHits)
  guard (0 < arcticHits ∧ arcticHits = btreeHits)
  some arcticHits

end

/-! ## The scan of a map -/

theorem startsWith_iff (key p : String) : startsWith key p = true ↔ p.toList <+: key.toList :=
  List.isPrefixOf_iff_prefix

theorem toList_sorted (map : PathMap) : map.toList.Pairwise fun a b => a.1 < b.1 := by
  refine Std.ExtTreeMap.ordered_keys_toList.imp fun {a b} h => ?_
  exact compare_lt_iff_lt.1 h

theorem le_of_startsWith {key p : String} (h : startsWith key p = true) : p ≤ key := by
  rw [← not_lt, String.lt_iff_toList_lt]
  exact Text.not_lt_of_prefix ((startsWith_iff key p).1 h)

/-- **The scan.** Among the keys from the prefix on, those that start with it come first. -/
theorem scan_eq_filter (map : PathMap) (p : String) :
    scan map p = map.toList.filter fun entry => startsWith entry.1 p := by
  have hfirst : (map.toList.filter fun entry => decide (p ≤ entry.1)).Pairwise
      fun a b => startsWith b.1 p = true → startsWith a.1 p = true := by
    refine (List.Pairwise.and (List.pairwise_filter.2 ((toList_sorted map).imp fun h _ _ => h))
      (List.Pairwise.and_mem.1 ((toList_sorted map).filter _))).imp fun {a b} h hb => ?_
    obtain ⟨-, ha, -, hlt⟩ := h
    have hle : ¬ a.1 < p := not_lt.2 (of_decide_eq_true (List.mem_filter.1 ha).2)
    rw [startsWith_iff] at hb ⊢
    rw [String.lt_iff_toList_lt] at hle hlt
    exact Text.prefix_of_between hle hlt hb
  rw [scan, takeWhile_eq_filter hfirst, List.filter_filter]
  refine List.filter_congr fun entry _ => ?_
  cases hstarts : startsWith entry.1 p with
  | false => rfl
  | true => simpa using le_of_startsWith hstarts

/-! ## The keys -/

/-- the part of a key before its slash, and the part after it -/
def unit (i : ℕ) : List Char := ['f', 'n', ':', 'u', 'n', 'i', 't'] ++ (zeroPadded 6 i).toList

def loop (i : ℕ) : List Char := ['l', 'o', 'o', 'p', ':'] ++ Nat.toDigits 10 i

theorem pathKey_toList (i : ℕ) : (pathKey i).toList = unit (i / 3) ++ '/' :: loop (i % 3) := by
  have hunit : "fn:unit".toList = ['f', 'n', ':', 'u', 'n', 'i', 't'] := String.toList_ofList
  have hloop : "/loop:".toList = '/' :: ['l', 'o', 'o', 'p', ':'] := String.toList_ofList
  have hdigits : (toString (i % 3)).toList = Nat.toDigits 10 (i % 3) := by
    rw [Nat.toString_eq_ofList_toDigits, String.toList_ofList]
  simp only [pathKey, String.toList_append, hunit, hloop, hdigits, unit, loop, List.append_assoc, List.cons_append]

theorem scanPrefix_toList (i : ℕ) : (scanPrefix i).toList = unit i ++ ['/'] := by
  have hunit : "fn:unit".toList = ['f', 'n', ':', 'u', 'n', 'i', 't'] := String.toList_ofList
  have hslash : "/".toList = ['/'] := String.toList_ofList
  rw [scanPrefix, String.toList_append, String.toList_append, hunit, hslash, unit]

theorem isDigit_of_mem_zeroPadded {width i : ℕ} {c : Char} (h : c ∈ (zeroPadded width i).toList) : c.isDigit := by
  rw [zeroPadded, String.toList_ofList, List.leftpad, List.mem_append] at h
  rcases h with h | h
  · rw [List.eq_of_mem_replicate h]
    rfl
  · exact Nat.isDigit_of_mem_toDigits (by decide) (by decide) h

theorem slash_notMem_unit (i : ℕ) : '/' ∉ unit i := by
  rw [unit, List.mem_append]
  rintro (h | h)
  · revert h
    decide
  · exact absurd (isDigit_of_mem_zeroPadded h) (by decide)

theorem unit_inj {i j : ℕ} (h : unit i = unit j) : i = j :=
  zeroPadded_injective 6 (String.toList_inj.1 (List.append_cancel_left h))

/-- **A prefix is a unit.** -/
theorem startsWith_scanPrefix (i u : ℕ) : startsWith (pathKey i) (scanPrefix u) = true ↔ i / 3 = u := by
  rw [startsWith_iff, scanPrefix_toList, pathKey_toList,
    Text.append_cons_prefix_iff (slash_notMem_unit u) (slash_notMem_unit (i / 3))]
  refine ⟨fun h => (unit_inj h.1).symm, fun h => ⟨by rw [h], List.nil_prefix⟩⟩

theorem loop_inj {i j : ℕ} (h : loop i = loop j) : i = j := by
  have hdigits := congrArg (fun digits => Nat.ofDigitChars 10 digits 0) (List.append_cancel_left h)
  simpa only [Nat.ofDigitChars_ten_toDigits] using hdigits

theorem pathKey_injective : Function.Injective pathKey := by
  intro i j h
  have hlist := congrArg String.toList h
  rw [pathKey_toList, pathKey_toList] at hlist
  have hprefix : unit (i / 3) ++ '/' :: loop (i % 3) <+: unit (j / 3) ++ '/' :: loop (j % 3) := by rw [hlist]
  obtain ⟨hunits, -⟩ := (Text.append_cons_prefix_iff (slash_notMem_unit _) (slash_notMem_unit _)).1 hprefix
  rw [hunits, List.append_cancel_left_eq, List.cons.injEq] at hlist
  have hdiv := unit_inj hunits
  have hmod := loop_inj hlist.2
  omega

theorem pathKeys_nodup (n : ℕ) : (pathKeys n).Nodup := List.nodup_range.map pathKey_injective

theorem null_notMem_unit (i : ℕ) : '\x00' ∉ unit i := by
  rw [unit, List.mem_append]
  rintro (h | h)
  · revert h
    decide
  · exact absurd (isDigit_of_mem_zeroPadded h) (by decide)

/-- a key passes `Str::<NonNull>::new` -/
theorem null_notMem_pathKey (i : ℕ) : '\x00' ∉ (pathKey i).toList := by
  rw [pathKey_toList, loop, List.mem_append, List.mem_cons, List.mem_append]
  rintro (h | h | h | h)
  · exact null_notMem_unit _ h
  · exact absurd h (by decide)
  · revert h
    decide
  · exact absurd (Nat.isDigit_of_mem_toDigits (by decide) (by decide) h) (by decide)

theorem null_notMem_pathKeys {n : ℕ} : ∀ key ∈ pathKeys n, '\x00' ∉ key.toList := by
  intro key hkey
  obtain ⟨i, -, rfl⟩ := List.mem_map.1 hkey
  exact null_notMem_pathKey i

/-- and so does a prefix -/
theorem null_notMem_scanPrefix (i : ℕ) : '\x00' ∉ (scanPrefix i).toList := by
  rw [scanPrefix_toList, List.mem_append]
  rintro (h | h)
  · exact null_notMem_unit _ h
  · revert h
    decide

/-! ## Their order -/

theorem unit_lt_iff {i j : ℕ} (hi : i < 1000000) (hj : j < 1000000) : unit i < unit j ↔ i < j := by
  have hnumeral : ∀ k, (zeroPadded 6 k).toList = Numeral.padded 10 6 k := fun k => String.toList_ofList
  rw [unit, unit, Text.append_lt_append_iff rfl, hnumeral, hnumeral,
    Numeral.padded_lt_iff (by decide) (by decide) hi hj]
  simp

theorem length_unit {i : ℕ} (hi : i < 1000000) : (unit i).length = 13 := by
  have hpadded : (Numeral.padded 10 6 i).length = 6 := Numeral.padded_length (by decide) (by decide) hi
  rw [unit, List.length_append, zeroPadded, String.toList_ofList, ← Numeral.padded, hpadded]
  rfl

theorem loop_lt_iff {i j : ℕ} (hi : i < 3) (hj : j < 3) : loop i < loop j ↔ i < j := by
  have hten : ∀ k < 3, k < 10 := fun k hk => hk.trans (by decide)
  have hdigit : ∀ k < 3, Nat.toDigits 10 k = Numeral.padded 10 1 k := by
    intro k hk
    rw [Nat.toDigits_of_lt_base (hten k hk), Numeral.padded_one (hten k hk)]
  rw [loop, loop, Text.append_lt_append_iff rfl, hdigit i hi, hdigit j hj,
    Numeral.padded_lt_iff (by decide) (by decide) (hten i hi) (hten j hj)]
  simp

/-- while the units have six digits, keys are ordered as their positions are -/
theorem pathKey_lt_iff {i j : ℕ} (hi : i < 3000000) (hj : j < 3000000) : pathKey i < pathKey j ↔ i < j := by
  have hunit : ∀ k < 3000000, k / 3 < 1000000 := by
    intro k hk
    omega
  have hlength : (unit (i / 3)).length = (unit (j / 3)).length := by
    rw [length_unit (hunit i hi), length_unit (hunit j hj)]
  have hsame : unit (i / 3) = unit (j / 3) ↔ i / 3 = j / 3 := ⟨unit_inj, congrArg unit⟩
  have horder : i < j ↔ i / 3 < j / 3 ∨ i / 3 = j / 3 ∧ i % 3 < j % 3 := Numeral.lt_iff_div_mod i j
  rw [String.lt_iff_toList_lt, pathKey_toList, pathKey_toList, Text.append_lt_append_iff hlength,
    unit_lt_iff (hunit i hi) (hunit j hj), hsame, List.cons_lt_cons_iff,
    loop_lt_iff (Nat.mod_lt i (by decide)) (Nat.mod_lt j (by decide)), horder]
  simp

/-- **Generation order.** -/
theorem pathKeys_sorted_iff (n : ℕ) : (pathKeys n).Pairwise (· < ·) ↔ n ≤ 3000000 := by
  constructor
  · intro hsorted
    by_contra hn
    -- the first unit with seven digits
    have hcross : pathKey 2999999 < pathKey 3000000 := by
      have hpairs := List.pairwise_iff_getElem.1 hsorted 2999999 3000000 (by simp [pathKeys]; omega)
        (by simp [pathKeys]; omega) (by decide)
      simpa only [pathKeys, List.getElem_map, List.getElem_range] using hpairs
    exact absurd hcross (by decide +kernel)
  · intro hn
    refine List.pairwise_map.2 (List.pairwise_lt_range.imp_of_mem fun {i j} hi hj hij => ?_)
    rw [List.mem_range] at hi hj
    exact (pathKey_lt_iff (by omega) (by omega)).2 hij

/-- the keys of one unit are in order, however many digits it has -/
theorem pathKey_lt_of_unit {i j : ℕ} (hunit : i / 3 = j / 3) (h : i < j) : pathKey i < pathKey j := by
  have hloop : loop (i % 3) < loop (j % 3) := (loop_lt_iff (Nat.mod_lt i (by decide)) (Nat.mod_lt j (by decide))).2
    (by omega)
  rw [String.lt_iff_toList_lt, pathKey_toList, pathKey_toList, hunit, Text.append_lt_append_iff rfl]
  exact Or.inr ⟨rfl, List.cons_lt_cons_iff.2 (Or.inr ⟨rfl, hloop⟩)⟩

/-! ## The loaded maps -/

/-- the entries that a list of keys is loaded as -/
def entries (paths : List String) : List (String × UInt64) := paths.zipIdx.map fun e => (e.1, UInt64.ofNat e.2)

theorem btreePath_concat (paths : List String) (key : String) :
    btreePath (paths ++ [key]) = (btreePath paths).insert key (UInt64.ofNat paths.length) := by
  rw [btreePath, List.zipIdx_append, List.foldl_append, Nat.zero_add]
  rfl

theorem entries_concat (paths : List String) (key : String) :
    entries (paths ++ [key]) = entries paths ++ [(key, UInt64.ofNat paths.length)] := by
  rw [entries, List.zipIdx_append, List.map_append, Nat.zero_add]
  rfl

theorem map_fst_entries (paths : List String) : (entries paths).map Prod.fst = paths := by
  rw [entries, List.map_map]
  exact List.zipIdx_map_fst 0 paths

theorem btreePath_get {paths : List String} (hpaths : paths.Nodup) (key : String) (v : UInt64) :
    (btreePath paths)[key]? = some v ↔ (key, v) ∈ entries paths := by
  induction paths using List.reverseRecOn with
  | nil => simp [btreePath, entries]
  | append_singleton paths last ih =>
    obtain ⟨hinit, -, hnew⟩ := List.nodup_append.1 hpaths
    have hlast : ∀ v, (last, v) ∉ entries paths := by
      intro v hmem
      have hkey : last ∈ (entries paths).map Prod.fst := List.mem_map_of_mem hmem
      rw [map_fst_entries] at hkey
      exact hnew last hkey last (List.mem_singleton.2 rfl) rfl
    rw [btreePath_concat, TreeMap.get_insert, entries_concat, List.mem_append, List.mem_singleton, Prod.mk.injEq]
    split_ifs with h
    · subst h
      simp [hlast, eq_comm]
    · rw [ih hinit]
      simp [Ne.symm h]

theorem mem_btreePath {paths : List String} (hpaths : paths.Nodup) (key : String) :
    key ∈ btreePath paths ↔ key ∈ paths := by
  rw [TreeMap.mem_iff_get]
  simp only [btreePath_get hpaths]
  rw [← map_fst_entries paths, List.mem_map]
  simp [map_fst_entries]

theorem nonNull_some {s : String} (h : '\x00' ∉ s.toList) : nonNull s = some ⟨s, h⟩ := dif_neg h

theorem nonNull_val (key : NonNullStr) : nonNull key.val = some key := nonNull_some key.property

theorem val_of_nonNull {s : String} {key : NonNullStr} (h : nonNull s = some key) : key.val = s := by
  unfold nonNull at h
  split_ifs at h
  cases h
  rfl

/-- strings that are keys of the radix tree -/
theorem mapM_nonNull {paths : List String} (h : ∀ p ∈ paths, '\x00' ∉ p.toList) :
    ∃ keys, paths.mapM nonNull = some keys ∧ keys.map Subtype.val = paths := by
  induction paths with
  | nil => exact ⟨[], rfl, rfl⟩
  | cons p paths ih =>
    rw [List.forall_mem_cons] at h
    obtain ⟨keys, hkeys, hval⟩ := ih h.2
    exact ⟨⟨p, h.1⟩ :: keys, by simp [nonNull_some h.1, hkeys], by rw [List.map_cons, hval]⟩

section

variable (A : Arctic)

/-- **One population.** No insert of different keys is refused, and the radix tree has the entries of the others. -/
theorem load_some {keys : List NonNullStr} (hkeys : keys.Nodup) :
    ∃ arctic, arcticLoad A keys = some arctic ∧ arcticPath A (keys.map Subtype.val) = some arctic ∧
      ∀ key, A.get arctic key = (btreePath (keys.map Subtype.val))[key.val]? := by
  induction keys using List.reverseRecOn with
  | nil => exact ⟨A.new, rfl, rfl, fun key => by rw [A.get_new]; simp [btreePath]⟩
  | append_singleton keys last ih =>
    obtain ⟨hinit, -, hnew⟩ := List.nodup_append.1 hkeys
    obtain ⟨arctic, hload, hpath, hget⟩ := ih hinit
    have hinj : (keys.map Subtype.val).Nodup := hinit.map Subtype.val_injective
    have hlast : A.get arctic last = none := by
      rw [hget, TreeMap.get_none, mem_btreePath hinj, List.mem_map]
      rintro ⟨key, hkey, hval⟩
      exact hnew key hkey last (List.mem_singleton.2 rfl) (Subtype.val_injective hval)
    obtain ⟨arctic', hinsert, hget'⟩ := A.insert_new (UInt64.ofNat keys.length) hlast
    refine ⟨arctic', ?_, ?_, fun key => ?_⟩
    · rw [arcticLoad] at hload ⊢
      simp [List.zipIdx_append, hload, hinsert]
    · rw [arcticPath] at hpath ⊢
      rw [List.map_append, List.zipIdx_append, List.foldlM_append, hpath]
      simp [nonNull_val, hinsert]
    · rw [hget', hget, List.map_append, List.map_singleton, btreePath_concat, TreeMap.get_insert, List.length_map]
      exact if_congr Subtype.ext_iff rfl rfl

theorem arcticPath_some {paths : List String} (hpaths : paths.Nodup) (hnull : ∀ p ∈ paths, '\x00' ∉ p.toList) :
    ∃ arctic, arcticPath A paths = some arctic ∧ ∀ key, A.get arctic key = (btreePath paths)[key.val]? := by
  obtain ⟨keys, -, rfl⟩ := mapM_nonNull hnull
  obtain ⟨arctic, -, hpath, hget⟩ := load_some A (hpaths.of_map Subtype.val)
  exact ⟨arctic, hpath, hget⟩

variable {A}

/-- **The scan of the radix tree** finds what that of a comparison tree with its entries does. -/
theorem prefixed_eq_scan {arctic : A.Map} {map : PathMap} (hnull : ∀ key ∈ map, '\x00' ∉ key.toList)
    (hget : ∀ key, A.get arctic key = map[key.val]?) (p : Prefix) :
    ((A.prefixed arctic p).map fun entry => (entry.1.val, entry.2)) = scan map p.text := by
  have hsorted : ((A.prefixed arctic p).map fun entry => (entry.1.val, entry.2)).Pairwise fun a b => a.1 < b.1 :=
    List.pairwise_map.2 (A.prefixed_sorted arctic p)
  have hsorted' : (scan map p.text).Pairwise fun a b => a.1 < b.1 := by
    rw [scan_eq_filter]
    exact (toList_sorted map).filter _
  have hnodup : ∀ {l : List (String × UInt64)}, l.Pairwise (fun a b => a.1 < b.1) → l.Nodup :=
    fun h => h.imp fun h => ne_of_apply_ne Prod.fst h.ne
  refine List.Perm.eq_of_pairwise (fun a b _ _ hab hba => absurd hab (not_lt_of_gt hba)) hsorted hsorted'
    ((List.perm_ext_iff_of_nodup (hnodup hsorted) (hnodup hsorted')).2 fun ⟨key, v⟩ => ?_)
  rw [scan_eq_filter, List.mem_filter, Std.ExtTreeMap.mem_toList_iff_getElem?_eq_some, List.mem_map]
  constructor
  · rintro ⟨⟨key', v'⟩, hmem, heq⟩
    cases heq
    obtain ⟨hkey, hstarts⟩ := A.mem_prefixed.1 hmem
    exact ⟨(hget key').symm.trans hkey, hstarts⟩
  · rintro ⟨hkey, hstarts⟩
    have hmem : key ∈ map := (TreeMap.mem_iff_get _ _).2 ⟨v, hkey⟩
    exact ⟨(⟨key, hnull key hmem⟩, v), A.mem_prefixed.2 ⟨(hget _).trans hkey, hstarts⟩, rfl⟩

end

theorem toList_btreePath {paths : List String} (hpaths : paths.Nodup) :
    (btreePath paths).toList.Perm (entries paths) := by
  refine TreeMap.toList_perm _ ?_ fun key v => btreePath_get hpaths key v
  rwa [map_fst_entries]

/-! ## What a scan finds -/

theorem entries_pathKeys (n : ℕ) : entries (pathKeys n) = (List.range n).map fun i => (pathKey i, UInt64.ofNat i) := by
  induction n with
  | zero => rfl
  | succ n ih =>
    have hlength : (pathKeys n).length = n := by simp [pathKeys]
    have hkeys : pathKeys (n + 1) = pathKeys n ++ [pathKey n] := by
      rw [pathKeys, List.range_succ, List.map_append]
      rfl
    rw [hkeys, entries_concat, ih, hlength, List.range_succ, List.map_append]
    rfl

/-- **The loops of one unit**, in order and with their positions. -/
theorem scan_unit (n u : ℕ) :
    scan (btreePath (pathKeys n)) (scanPrefix u) =
      ((List.range n).filter fun i => i / 3 = u).map fun i => (pathKey i, UInt64.ofNat i) := by
  have hfilter : (entries (pathKeys n)).filter (fun entry => startsWith entry.1 (scanPrefix u)) =
      ((List.range n).filter fun i => i / 3 = u).map fun i => (pathKey i, UInt64.ofNat i) := by
    rw [entries_pathKeys, List.filter_map]
    congr 1
    refine List.filter_congr fun i _ => ?_
    rw [Function.comp_apply, Bool.eq_iff_iff, startsWith_scanPrefix, decide_eq_true_eq]
  have hperm := (toList_btreePath (pathKeys_nodup n)).filter fun entry => startsWith entry.1 (scanPrefix u)
  rw [hfilter] at hperm
  rw [scan_eq_filter]
  refine hperm.eq_of_pairwise (fun a b _ _ hab hba => absurd hab (not_lt_of_gt hba)) ((toList_sorted _).filter _) ?_
  refine List.pairwise_map.2 ((List.pairwise_lt_range.filter _).imp_of_mem fun {i j} hi hj hij => ?_)
  have hunit : i / 3 = j / 3 := by
    rw [of_decide_eq_true (List.mem_filter.1 hi).2, of_decide_eq_true (List.mem_filter.1 hj).2]
  exact pathKey_lt_of_unit hunit hij

theorem length_unit_loops (n u : ℕ) : ((List.range n).filter fun i => i / 3 = u).length = min 3 (n - 3 * u) := by
  have hperm : ((List.range n).filter fun i => i / 3 = u).Perm (List.range' (3 * u) (min 3 (n - 3 * u))) := by
    refine (List.perm_ext_iff_of_nodup (List.nodup_range.filter _) List.nodup_range').2 fun i => ?_
    rw [List.mem_filter, List.mem_range, List.mem_range'_1, decide_eq_true_eq]
    omega
  rw [hperm.length_eq, List.length_range']

/-- **The guard.** -/
theorem scan_guard (A : Arctic) (n : ℕ) :
    (pathKeys n).Nodup ∧ (∀ key ∈ pathKeys n, '\x00' ∉ key.toList) ∧
      ((pathKeys n).Pairwise (· < ·) ↔ n ≤ 3000000) ∧
      (∀ (map : PathMap) (p : String), scan map p = map.toList.filter fun entry => startsWith entry.1 p) ∧
      (∃ arctic, arcticPath A (pathKeys n) = some arctic ∧
        (∀ key, A.get arctic key = (btreePath (pathKeys n))[key.val]?) ∧
        ∀ p, ((A.prefixed arctic p).map fun entry => (entry.1.val, entry.2)) =
          scan (btreePath (pathKeys n)) p.text) ∧
      (∀ u, scan (btreePath (pathKeys n)) (scanPrefix u) =
        ((List.range n).filter fun i => i / 3 = u).map fun i => (pathKey i, UInt64.ofNat i)) ∧
      scanGuard A n = if n = 0 then none else some (min 3 n) := by
  obtain ⟨arctic, hload, hget⟩ := arcticPath_some A (pathKeys_nodup n) null_notMem_pathKeys
  have hscan := prefixed_eq_scan
    (fun key hkey => null_notMem_pathKeys key ((mem_btreePath (pathKeys_nodup n) key).1 hkey)) hget
  have hbtree : (scan (btreePath (pathKeys n)) (scanPrefix (n / 3 / 2))).length = min 3 n := by
    rw [scan_unit, List.length_map, length_unit_loops]
    omega
  have hhits : ∀ p : Prefix, p.text = scanPrefix (n / 3 / 2) → (A.prefixed arctic p).length = min 3 n := by
    intro p hp
    rw [← hbtree, ← hp, ← hscan, List.length_map]
  refine ⟨pathKeys_nodup n, null_notMem_pathKeys, pathKeys_sorted_iff n, scan_eq_filter, ⟨arctic, hload, hget, hscan⟩,
    scan_unit n, ?_⟩
  have hbare := hhits (.bare (scanPrefix (n / 3 / 2))) rfl
  have hvalidated := hhits (.validated ⟨scanPrefix (n / 3 / 2), null_notMem_scanPrefix _⟩) rfl
  simp only [scanGuard, hload, nonNull_some (null_notMem_scanPrefix _), Option.bind_eq_bind, Option.bind_some, hbare,
    hvalidated, hbtree, guard, and_true, if_true]
  by_cases hn : n = 0
  · subst hn
    rfl
  · rw [if_neg hn, if_pos (by omega)]
    rfl

/-- a comparison tree as the radix tree -/
def sortedArctic : Arctic where
  Map := PathMap
  new := ∅
  insert map key v := if key.val ∈ map then none else some (map.insert key.val v)
  upsert map key v := map.insert key.val v
  get map key := map[key.val]?
  prefixed map p := (map.toList.filter fun entry => startsWith entry.1 p.text).filterMap fun entry =>
    (nonNull entry.1).map fun key => (key, entry.2)
  get_new key := by simp
  insert_new {map key} v h := by
    refine ⟨map.insert key.val v, if_neg ((TreeMap.get_none _ _).1 h), fun key' => ?_⟩
    rw [TreeMap.get_insert]
    exact if_congr Subtype.ext_iff.symm rfl rfl
  get_upsert map key v key' := by
    rw [TreeMap.get_insert]
    exact if_congr Subtype.ext_iff.symm rfl rfl
  mem_prefixed {map p key v} := by
    rw [List.mem_filterMap]
    constructor
    · rintro ⟨⟨s, v'⟩, hentry, hkey⟩
      obtain ⟨key', hkey', heq⟩ := Option.map_eq_some_iff.1 hkey
      cases heq
      obtain rfl := val_of_nonNull hkey'
      rwa [List.mem_filter, Std.ExtTreeMap.mem_toList_iff_getElem?_eq_some] at hentry
    · intro h
      refine ⟨(key.val, v), ?_, by rw [nonNull_val]; rfl⟩
      rwa [List.mem_filter, Std.ExtTreeMap.mem_toList_iff_getElem?_eq_some]
  prefixed_sorted map p := by
    refine List.pairwise_filterMap.2 (((toList_sorted map).filter _).imp fun {a b} hlt e he e' he' => ?_)
    obtain ⟨key, hkey, rfl⟩ := Option.map_eq_some_iff.1 he
    obtain ⟨key', hkey', rfl⟩ := Option.map_eq_some_iff.1 he'
    rwa [← val_of_nonNull hkey, ← val_of_nonNull hkey'] at hlt

/-- the smallest size of the benchmark -/
theorem scan_guard_sorted : scanGuard sortedArctic 163 = some 3 := (scan_guard sortedArctic 163).2.2.2.2.2.2

end WtBenchmarks.ArcticPaths
