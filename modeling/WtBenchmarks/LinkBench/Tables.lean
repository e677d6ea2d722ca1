/-
The two tables of the LinkBench port (`src/bin/linkbench-worktable.rs`), and the packing of a link into its key.

A link is a source, a type and a target. Its row is kept under one packed word and listed in a secondary index by source
and type. Packing is checked: an overflow is a panic, here a `none`, and so is the insertion of a link whose key is in
use. The tables are maps, so none of the backend's other errors occurs. Nodes have a table of their own.

- `linkKey_inj`: two links of the configuration's domain never share a key.
- `sourceType_inj`: the index column determines source and type.
- `Holds`: a table whose rows are a set of live links; `Holds.put` and `Holds.delete` are its updates.
- `Holds.countLinks_eq`: through the index, the live links of one source and type are counted.
-/
import WtBenchmarks.Core.GroupTable
import WtBenchmarks.Core.Word
import WtBenchmarks.Kv.Config

namespace WtBenchmarks.LinkBench

open Kv (textValue)

/-! ## Configuration -/

structure Config where
  nodes : UInt64
  linksPerNode : UInt64
  linkTypes : UInt64
  operations : UInt64
  repetitions : ℕ
  payloadBytes : ℕ
  listLimit : ℕ
  sampleEvery : UInt64
  seed : UInt64

/-- the last check of `from_args` -/
def Config.validate (config : Config) : Except String Unit :=
  if config.nodes = 0 ∨ config.linksPerNode = 0 ∨ config.linkTypes = 0 ∨ config.operations = 0 ∨
      config.repetitions = 0 ∨ config.payloadBytes = 0 ∨ config.listLimit = 0 ∨ config.sampleEvery = 0 then
    .error "counts, repetitions, sizes, and sampling interval must be non-zero"
  else .ok ()

/-- what an accepted configuration guarantees -/
structure Config.Accepted (config : Config) : Prop where
  nodes : 0 < config.nodes.toNat
  linksPerNode : 0 < config.linksPerNode.toNat
  linkTypes : 0 < config.linkTypes.toNat
  operations : 0 < config.operations.toNat

theorem Config.accepted_of_validate {config : Config} (h : config.validate = .ok ()) : config.Accepted := by
  unfold validate at h
  split_ifs at h with hzero
  simp only [not_or] at hzero
  obtain ⟨hnodes, hlinks, htypes, hops, -⟩ := hzero
  exact ⟨toNat_pos_of_ne hnodes, toNat_pos_of_ne hlinks, toNat_pos_of_ne htypes, toNat_pos_of_ne hops⟩

/-! ## Keys -/

def linkKey (config : Config) (id1 linkType id2 : UInt64) : Option UInt64 := do
  let targetSpan ← checkedAdd config.nodes config.operations
  let value ← checkedMul id1 config.linkTypes
  let value ← checkedAdd value linkType
  let value ← checkedMul value targetSpan
  checkedAdd value id2

def sourceType (id1 linkType : UInt64) : BitVec 128 :=
  (id1.toBitVec.setWidth 128 <<< 64) ||| linkType.toBitVec.setWidth 128

/-- the word `existing_target` reduces; its products and sums wrap -/
def targetWord (id1 linkType slot : UInt64) : UInt64 := id1 * 1000003 + linkType * 65537 + slot

def existingTarget (nodes id1 linkType slot : UInt64) : UInt64 := targetWord id1 linkType slot % nodes

structure Link where
  id1 : UInt64
  linkType : UInt64
  id2 : UInt64
deriving DecidableEq, Repr

def Link.key (config : Config) (l : Link) : Option UInt64 := linkKey config l.id1 l.linkType l.id2

/-- the links a configuration speaks of -/
structure Link.InDomain (config : Config) (l : Link) : Prop where
  id1 : l.id1 < config.nodes
  linkType : l.linkType < config.linkTypes
  id2 : l.id2.toNat < config.nodes.toNat + config.operations.toNat

/-- a key is a number in mixed radix -/
theorem linkKey_toNat {config : Config} {id1 linkType id2 k : UInt64} (h : linkKey config id1 linkType id2 = some k) :
    k.toNat = (id1.toNat * config.linkTypes.toNat + linkType.toNat) *
      (config.nodes.toNat + config.operations.toNat) + id2.toNat := by
  obtain ⟨span, hspan, h⟩ := Option.bind_eq_some_iff.1 h
  obtain ⟨source, hsource, h⟩ := Option.bind_eq_some_iff.1 h
  obtain ⟨typed, htyped, h⟩ := Option.bind_eq_some_iff.1 h
  obtain ⟨scaled, hscaled, h⟩ := Option.bind_eq_some_iff.1 h
  rw [checkedAdd_toNat h, checkedMul_toNat hscaled, checkedAdd_toNat htyped, checkedMul_toNat hsource,
    checkedAdd_toNat hspan]

/-- the quotient and the remainder of a number in mixed radix are determined by it -/
theorem radix_inj {r a a' b b' : ℕ} (hb : b < r) (hb' : b' < r) (h : a * r + b = a' * r + b') : a = a' ∧ b = b' := by
  have hmod : b = b' := by
    have := congrArg (· % r) h
    simpa [Nat.mul_comm _ r, Nat.mul_add_mod, Nat.mod_eq_of_lt hb, Nat.mod_eq_of_lt hb'] using this
  subst hmod
  exact ⟨Nat.eq_of_mul_eq_mul_right (Nat.zero_lt_of_lt hb) (Nat.add_right_cancel h), rfl⟩

/-- **Packing is injective.** Links of the domain that are packed into the same key are the same. -/
theorem linkKey_inj {config : Config} {l l' : Link} (hl : l.InDomain config) (hl' : l'.InDomain config) {k : UInt64}
    (h : l.key config = some k) (h' : l'.key config = some k) : l = l' := by
  have htype := UInt64.lt_iff_toNat_lt.1 hl.linkType
  have htype' := UInt64.lt_iff_toNat_lt.1 hl'.linkType
  obtain ⟨hsource, hid2⟩ := radix_inj hl.id2 hl'.id2 ((linkKey_toNat h).symm.trans (linkKey_toNat h'))
  obtain ⟨hid1, hlinkType⟩ := radix_inj htype htype' hsource
  cases l
  cases l'
  exact congr (congr (congrArg Link.mk (UInt64.toNat_inj.1 hid1)) (UInt64.toNat_inj.1 hlinkType))
    (UInt64.toNat_inj.1 hid2)

theorem sourceType_toNat (id1 linkType : UInt64) :
    (sourceType id1 linkType).toNat = id1.toNat * 2 ^ 64 + linkType.toNat := by
  have hid1 := id1.toNat_lt
  have htype := linkType.toNat_lt
  have hhigh : (id1.toBitVec.setWidth 128 <<< 64).toNat = id1.toNat <<< 64 := by
    rw [BitVec.toNat_shiftLeft, BitVec.toNat_setWidth, UInt64.toNat_toBitVec, Nat.mod_eq_of_lt (by omega),
      Nat.shiftLeft_eq, Nat.shiftLeft_eq, Nat.mod_eq_of_lt (by omega)]
  have hlow : (linkType.toBitVec.setWidth 128).toNat = linkType.toNat := by
    rw [BitVec.toNat_setWidth, UInt64.toNat_toBitVec, Nat.mod_eq_of_lt (by omega)]
  rw [sourceType, BitVec.toNat_or, hhigh, hlow, ← Nat.shiftLeft_add_eq_or_of_lt htype, Nat.shiftLeft_eq]

theorem sourceType_inj {id1 id1' linkType linkType' : UInt64}
    (h : sourceType id1 linkType = sourceType id1' linkType') : id1 = id1' ∧ linkType = linkType' := by
  have hnat := congrArg BitVec.toNat h
  rw [sourceType_toNat, sourceType_toNat] at hnat
  obtain ⟨hid1, htype⟩ := radix_inj linkType.toNat_lt linkType'.toNat_lt hnat
  exact ⟨UInt64.toNat_inj.1 hid1, UInt64.toNat_inj.1 htype⟩

/-! ## Tables -/

/-- `LinkBenchLinkRow` -/
structure LinkRow where
  id : UInt64
  id1 : UInt64
  linkType : UInt64
  id2 : UInt64
  sourceType : BitVec 128
  time : UInt64
  version : UInt64
  data : List UInt8

/-- `LinkBenchNodeRow` -/
structure NodeRow where
  id : UInt64
  version : UInt64
  time : UInt64
  data : List UInt8

def LinkRow.link (r : LinkRow) : Link := ⟨r.id1, r.linkType, r.id2⟩

/-- `Driver` -/
structure Tables where
  links : GroupTable UInt64 (BitVec 128) LinkRow LinkRow.sourceType
  nodes : Std.ExtTreeMap UInt64 NodeRow

def Tables.empty : Tables := ⟨GroupTable.empty _, ∅⟩

/-- the row a link is stored as -/
def linkRow (k : UInt64) (l : Link) (time version : UInt64) (data : List UInt8) : LinkRow :=
  ⟨k, l.id1, l.linkType, l.id2, LinkBench.sourceType l.id1 l.linkType, time, version, data⟩

namespace Tables

def insertNode (tables : Tables) (id time : UInt64) (data : List UInt8) : Option Tables :=
  if id ∈ tables.nodes then none else some { tables with nodes := tables.nodes.insert id ⟨id, 0, time, data⟩ }

def insertLink (tables : Tables) (config : Config) (l : Link) (time version : UInt64) (data : List UInt8) :
    Option Tables := do
  let k ← l.key config
  if h : k ∈ tables.links.rows then none
  else some { tables with links := tables.links.insertNew k (linkRow k l time version data) h }

def upsertLink (tables : Tables) (config : Config) (l : Link) (time version : UInt64) (data : List UInt8) :
    Option (Tables × UInt64) := do
  let k ← l.key config
  some ({ tables with links := tables.links.upsert k (linkRow k l time version data) }, 1)

def deleteLink (tables : Tables) (config : Config) (l : Link) : Option (Tables × UInt64) := do
  let k ← l.key config
  if k ∈ tables.links.rows then some ({ tables with links := tables.links.erase k }, 1) else some (tables, 0)

def countLinks (tables : Tables) (id1 linkType : UInt64) : UInt64 :=
  UInt64.ofNat (tables.links.selectByGroup (LinkBench.sourceType id1 linkType)).length

def getLink (tables : Tables) (config : Config) (l : Link) : Option UInt64 := do
  let k ← l.key config
  some (if k ∈ tables.links.rows then 1 else 0)

/-- the rows are also sorted by time, which their number does not depend on -/
def getLinkList (tables : Tables) (id1 linkType minimumTime : UInt64) (limit : ℕ) : UInt64 :=
  let rows := (tables.links.selectByGroup (LinkBench.sourceType id1 linkType)).filter fun row =>
    decide (minimumTime ≤ row.time)
  UInt64.ofNat (min rows.length limit)

def addNode (tables : Tables) (id time : UInt64) (data : List UInt8) : Tables × UInt64 :=
  ({ tables with nodes := tables.nodes.insert id ⟨id, 0, time, data⟩ }, 1)

def updateNode (tables : Tables) (id time : UInt64) (data : List UInt8) : Tables × UInt64 :=
  if id ∈ tables.nodes then ({ tables with nodes := tables.nodes.insert id ⟨id, time, time, data⟩ }, 1) else (tables, 0)

def deleteNode (tables : Tables) (id : UInt64) : Tables × UInt64 :=
  if id ∈ tables.nodes then ({ tables with nodes := tables.nodes.erase id }, 1) else (tables, 0)

def getNode (tables : Tables) (id : UInt64) : UInt64 := if id ∈ tables.nodes then 1 else 0

end Tables

/-! ## Live links -/

/-- the rows are the live links, each under its key, with its source and type in the index column -/
structure Holds (config : Config) (tables : Tables) (live : Finset Link) : Prop where
  stored : ∀ k l, (∃ r, tables.links.rows[k]? = some r ∧ r.link = l) ↔ l ∈ live ∧ l.key config = some k
  typed : ∀ (k : UInt64) r, tables.links.rows[k]? = some r → r.sourceType = sourceType r.id1 r.linkType
  domain : ∀ l ∈ live, l.InDomain config
  packed : ∀ l ∈ live, ∃ k, l.key config = some k

namespace Holds

variable {config : Config} {tables : Tables} {live : Finset Link}

theorem empty (config : Config) : Holds config Tables.empty ∅ := by
  refine ⟨fun k l => ?_, fun k r h => ?_, by simp, by simp⟩
  · simp [Tables.empty]
  · simp [Tables.empty] at h

/-- a link is live exactly if its key is in use -/
theorem mem_iff (h : Holds config tables live) {l : Link} (hl : l.InDomain config) {k : UInt64}
    (hk : l.key config = some k) : k ∈ tables.links.rows ↔ l ∈ live := by
  rw [TreeMap.mem_iff_get]
  constructor
  · intro hmem
    obtain ⟨r, hr⟩ := hmem
    obtain ⟨hlive, hkey⟩ := (h.stored k r.link).1 ⟨r, hr, rfl⟩
    rwa [← linkKey_inj (h.domain _ hlive) hl hkey hk]
  · intro hlive
    obtain ⟨r, hr, -⟩ := (h.stored k l).2 ⟨hlive, hk⟩
    exact ⟨r, hr⟩

/-- only the links matter -/
theorem of_links (h : Holds config tables live) {tables' : Tables} (heq : tables'.links = tables.links) :
    Holds config tables' live := ⟨heq ▸ h.stored, heq ▸ h.typed, h.domain, h.packed⟩

/-- **A row enters.** Whether its key was free or not, the link is live afterwards and no other link is touched. -/
theorem put (h : Holds config tables live) {l : Link} (hl : l.InDomain config) {k : UInt64}
    (hk : l.key config = some k) {tables' : Tables} (time version : UInt64) (data : List UInt8)
    (hrows : ∀ k' : UInt64, tables'.links.rows[k']? =
      if k = k' then some (linkRow k l time version data) else tables.links.rows[k']?) :
    Holds config tables' (insert l live) := by
  refine ⟨fun k' l' => ?_, fun k' r hr => ?_, fun l' hl' => ?_, fun l' hl' => ?_⟩
  · rw [hrows k', Finset.mem_insert]
    by_cases hkk : k = k'
    · subst hkk
      rw [if_pos rfl]
      constructor
      · intro hex
        obtain ⟨r, hr, rfl⟩ := hex
        cases hr
        exact ⟨Or.inl rfl, hk⟩
      · intro hlive
        obtain ⟨rfl | hlive, hkey⟩ := hlive
        · exact ⟨_, rfl, rfl⟩
        · exact ⟨_, rfl, linkKey_inj hl (h.domain _ hlive) hk hkey⟩
    · rw [if_neg hkk, h.stored k' l']
      constructor
      · intro hlive
        exact ⟨Or.inr hlive.1, hlive.2⟩
      · intro hlive
        obtain ⟨rfl | hlive, hkey⟩ := hlive
        · exact absurd (Option.some.inj (hk.symm.trans hkey)) hkk
        · exact ⟨hlive, hkey⟩
  · rw [hrows k'] at hr
    split_ifs at hr
    · cases hr
      rfl
    · exact h.typed k' r hr
  · rcases Finset.mem_insert.1 hl' with rfl | hl'
    · exact hl
    · exact h.domain l' hl'
  · rcases Finset.mem_insert.1 hl' with rfl | hl'
    · exact ⟨k, hk⟩
    · exact h.packed l' hl'

/-- **A row leaves**, if there was one. -/
theorem delete (h : Holds config tables live) {l : Link} (hl : l.InDomain config) {k : UInt64}
    (hk : l.key config = some k) {tables' : Tables}
    (hrows : ∀ k' : UInt64, tables'.links.rows[k']? = if k = k' then none else tables.links.rows[k']?) :
    Holds config tables' (live.erase l) := by
  refine ⟨fun k' l' => ?_, fun k' r hr => ?_, fun l' hl' => h.domain l' (Finset.mem_of_mem_erase hl'),
    fun l' hl' => h.packed l' (Finset.mem_of_mem_erase hl')⟩
  · rw [hrows k', Finset.mem_erase]
    by_cases hkk : k = k'
    · subst hkk
      rw [if_pos rfl]
      constructor
      · intro hex
        obtain ⟨r, hr, -⟩ := hex
        cases hr
      · intro hlive
        obtain ⟨⟨hne, hlive⟩, hkey⟩ := hlive
        exact absurd (linkKey_inj (h.domain _ hlive) hl hkey hk) hne
    · rw [if_neg hkk, h.stored k' l']
      constructor
      · intro hlive
        refine ⟨⟨?_, hlive.1⟩, hlive.2⟩
        rintro rfl
        exact hkk (Option.some.inj (hk.symm.trans hlive.2))
      · intro hlive
        exact ⟨hlive.1.2, hlive.2⟩
  · rw [hrows k'] at hr
    split_ifs at hr
    exact h.typed k' r hr

/-! ### One operation -/

/-- an insertion succeeds exactly if the link is new -/
theorem insertLink (h : Holds config tables live) {l : Link} (hl : l.InDomain config) {k : UInt64}
    (hk : l.key config = some k) (time version : UInt64) (data : List UInt8) :
    (l ∉ live → ∃ tables', tables.insertLink config l time version data = some tables' ∧
        Holds config tables' (insert l live) ∧ tables'.nodes = tables.nodes) ∧
      (l ∈ live → tables.insertLink config l time version data = none) := by
  have hmem := h.mem_iff hl hk
  simp only [Tables.insertLink, hk, Option.bind_eq_bind, Option.bind_some]
  constructor
  · intro hnew
    have hfree : k ∉ tables.links.rows := fun hin => hnew (hmem.1 hin)
    rw [dif_neg hfree]
    refine ⟨_, rfl, h.put hl hk time version data fun k' => ?_, rfl⟩
    rw [GroupTable.insertNew_rows, TreeMap.get_insert]
  · intro hold
    rw [dif_pos (hmem.2 hold)]

theorem upsertLink (h : Holds config tables live) {l : Link} (hl : l.InDomain config) {k : UInt64}
    (hk : l.key config = some k) (time version : UInt64) (data : List UInt8) :
    ∃ tables', tables.upsertLink config l time version data = some (tables', 1) ∧
      Holds config tables' (insert l live) := by
  simp only [Tables.upsertLink, hk, Option.bind_eq_bind, Option.bind_some]
  exact ⟨_, rfl, h.put hl hk time version data fun k' => GroupTable.upsert_get _ _ _ _⟩

theorem deleteLink (h : Holds config tables live) {l : Link} (hl : l.InDomain config) {k : UInt64}
    (hk : l.key config = some k) :
    ∃ r, tables.deleteLink config l = some r ∧ Holds config r.1 (live.erase l) := by
  simp only [Tables.deleteLink, hk, Option.bind_eq_bind, Option.bind_some]
  split_ifs with hmem
  · refine ⟨_, rfl, h.delete hl hk fun k' => ?_⟩
    rw [GroupTable.erase_rows _ hmem, TreeMap.get_erase]
  · refine ⟨_, rfl, ?_⟩
    rwa [Finset.erase_eq_of_notMem fun hlive => hmem ((h.mem_iff hl hk).2 hlive)]

/-! ### Counting -/

/-- the live links of one source and type -/
def ofSource (live : Finset Link) (id1 linkType : UInt64) : Finset Link :=
  live.filter fun l => l.id1 = id1 ∧ l.linkType = linkType

/-- the index lists a row for each live link of a source and type -/
theorem select_length (h : Holds config tables live) (id1 linkType : UInt64) :
    (tables.links.selectByGroup (sourceType id1 linkType)).length = (ofSource live id1 linkType).card := by
  rw [GroupTable.selectByGroup_length, List.countP_eq_length_filter, ← List.length_map (fun e => e.2.link)]
  have hnodup : ((tables.links.rows.toList.filter
      fun e => decide (e.2.sourceType = sourceType id1 linkType)).map fun e => e.2.link).Nodup := by
    have hkeys := TreeMap.nodup_fst tables.links.rows
    refine List.Nodup.map_on (fun e he e' he' hlink => ?_) (hkeys.of_map.filter _)
    have hget := Std.ExtTreeMap.mem_toList_iff_getElem?_eq_some.1 (List.mem_of_mem_filter he)
    have hget' := Std.ExtTreeMap.mem_toList_iff_getElem?_eq_some.1 (List.mem_of_mem_filter he')
    have hkey := ((h.stored e.1 e.2.link).1 ⟨_, hget, rfl⟩).2
    have hkey' := ((h.stored e'.1 e'.2.link).1 ⟨_, hget', rfl⟩).2
    rw [hlink, hkey'] at hkey
    have hk : e'.1 = e.1 := Option.some.inj hkey
    rw [← hk, hget'] at hget
    exact Prod.ext hk.symm (Option.some.inj hget).symm
  rw [← List.toFinset_card_of_nodup hnodup]
  congr 1
  ext l
  simp only [List.mem_toFinset, List.mem_map, List.mem_filter, decide_eq_true_eq, ofSource, Finset.mem_filter]
  constructor
  · intro hex
    obtain ⟨e, ⟨he, htype⟩, rfl⟩ := hex
    have hget := Std.ExtTreeMap.mem_toList_iff_getElem?_eq_some.1 he
    rw [h.typed e.1 e.2 hget] at htype
    exact ⟨((h.stored e.1 e.2.link).1 ⟨_, hget, rfl⟩).1, sourceType_inj htype⟩
  · intro hlive
    obtain ⟨hlive, rfl, rfl⟩ := hlive
    obtain ⟨k, hk⟩ := h.packed l hlive
    obtain ⟨r, hr, rfl⟩ := (h.stored k l).2 ⟨hlive, hk⟩
    exact ⟨(k, r), ⟨Std.ExtTreeMap.mem_toList_iff_getElem?_eq_some.2 hr, h.typed k r hr⟩, rfl⟩

/-- the live links of one source and type are told apart by their targets -/
theorem ofSource_card_lt (h : Holds config tables live) (id1 linkType : UInt64)
    (hfit : config.nodes.toNat + config.operations.toNat < 2 ^ 64) : (ofSource live id1 linkType).card < 2 ^ 64 := by
  refine lt_of_le_of_lt ?_ hfit
  rw [← Finset.card_range (config.nodes.toNat + config.operations.toNat)]
  refine Finset.card_le_card_of_injOn (fun l => l.id2.toNat) (fun l hl => ?_) fun l hl l' hl' he => ?_
  · exact Finset.mem_coe.2 (Finset.mem_range.2 (h.domain l (Finset.mem_filter.1 hl).1).id2)
  · obtain ⟨-, hid1, htype⟩ := Finset.mem_filter.1 hl
    obtain ⟨-, hid1', htype'⟩ := Finset.mem_filter.1 hl'
    cases l
    cases l'
    exact congr (congr (congrArg Link.mk (hid1.trans hid1'.symm)) (htype.trans htype'.symm)) (UInt64.toNat_inj.1 he)

/-- **The count is exact.** -/
theorem countLinks_eq (h : Holds config tables live) (id1 linkType : UInt64)
    (hfit : config.nodes.toNat + config.operations.toNat < 2 ^ 64) :
    (tables.countLinks id1 linkType).toNat = (ofSource live id1 linkType).card := by
  rw [Tables.countLinks, h.select_length, ofNat_toNat_of_lt (h.ofSource_card_lt id1 linkType hfit)]

end Holds

end WtBenchmarks.LinkBench
