/-
Loading the LinkBench tables (`load`, `src/bin/linkbench-worktable.rs`).

The slots of a node are dealt round-robin to the link types; the slots of one type get consecutive targets, modulo the
number of nodes. A key that is inserted twice is a panic.

- `mem_slotsOf`: how many slots a type gets.
- `load_iff`: load succeeds exactly if every run of targets fits the nodes, and its rows are the loaded links.
- `load_fresh_iff`: the same of the keys, and what it means for the numbers of nodes, slots and types.
-/
import WtBenchmarks.Core.Residues
import WtBenchmarks.Core.Total
import WtBenchmarks.LinkBench.Tables

namespace WtBenchmarks.LinkBench

open Kv (textValue)
open Residues

/-! ## Model -/

/-- the link `load` inserts for a slot of a node -/
def loadedLink (config : Config) (id : UInt64) (slot : ℕ) : Link :=
  let linkType := UInt64.ofNat slot % config.linkTypes
  let typeSlot := UInt64.ofNat slot / config.linkTypes
  ⟨id, linkType, existingTarget config.nodes id linkType typeSlot⟩

def loadSlot (config : Config) (id : UInt64) (tables : Tables) (slot : ℕ) : Option Tables :=
  let l := loadedLink config id slot
  tables.insertLink config l 0 0 (textValue (id ^^^ l.id2) config.payloadBytes)

def loadNode (config : Config) (tables : Tables) (id : ℕ) : Option Tables := do
  let tables ← tables.insertNode (UInt64.ofNat id) 0 (textValue (UInt64.ofNat id) config.payloadBytes)
  (List.range config.linksPerNode.toNat).foldlM (loadSlot config (UInt64.ofNat id)) tables

def load (config : Config) : Option Tables := (List.range config.nodes.toNat).foldlM (loadNode config) Tables.empty

/-! ## Slots of a type -/

/-- the number of slots below `links` that are dealt to a type -/
def slotsOf (links types linkType : ℕ) : ℕ := (links + (types - 1 - linkType)) / types

theorem mem_slotsOf {links types linkType s : ℕ} (h : linkType < types) :
    s < slotsOf links types linkType ↔ s * types + linkType < links := by
  rw [slotsOf, ← Nat.succ_le_iff, Nat.le_div_iff_mul_le (Nat.zero_lt_of_lt h), Nat.succ_mul]
  omega

theorem slotsOf_le {links types linkType : ℕ} (h : linkType < types) : slotsOf links types linkType ≤ links := by
  by_contra hlt
  have hmem := (mem_slotsOf h).1 (Nat.not_le.1 hlt)
  have := Nat.le_mul_of_pos_right links (Nat.zero_lt_of_lt h)
  omega

/-- the first type has the most slots -/
theorem slotsOf_le_first (links types linkType : ℕ) : slotsOf links types linkType ≤ slotsOf links types 0 :=
  Nat.div_le_div_right (by omega)

/-! ## Targets -/

variable {config : Config}

theorem existingTarget_toNat (nodes id1 linkType slot : UInt64) : (existingTarget nodes id1 linkType slot).toNat =
    wrapped (2 ^ 64) nodes.toNat ((targetWord id1 linkType 0).toNat + slot.toNat) := by
  have hword : targetWord id1 linkType slot = targetWord id1 linkType 0 + slot := by
    rw [targetWord, targetWord, UInt64.add_zero]
  rw [existingTarget, UInt64.toNat_mod, hword, UInt64.toNat_add, wrapped]

/-- a slot, as a number -/
theorem slot_toNat {slot : ℕ} (h : slot < config.linksPerNode.toNat) : (UInt64.ofNat slot).toNat = slot :=
  ofNat_toNat_of_lt (h.trans config.linksPerNode.toNat_lt)

theorem loadedLink_inDomain (hok : config.Accepted) {id : ℕ} (hid : id < config.nodes.toNat) (slot : ℕ) :
    (loadedLink config (UInt64.ofNat id) slot).InDomain config := by
  refine ⟨?_, ?_, ?_⟩
  · rw [UInt64.lt_iff_toNat_lt]
    exact (ofNat_toNat_of_lt (hid.trans config.nodes.toNat_lt)).symm ▸ hid
  · rw [UInt64.lt_iff_toNat_lt]
    exact (UInt64.toNat_mod _ _).symm ▸ Nat.mod_lt _ hok.linkTypes
  · have htarget : (loadedLink config (UInt64.ofNat id) slot).id2.toNat < config.nodes.toNat :=
      (UInt64.toNat_mod _ _).symm ▸ Nat.mod_lt _ hok.nodes
    omega

/-- two slots of a node get the same link if they have the same type and their targets meet -/
theorem loadedLink_eq_iff {id : UInt64} {i j : ℕ} (hi : i < config.linksPerNode.toNat)
    (hj : j < config.linksPerNode.toNat) : loadedLink config id i = loadedLink config id j ↔
      i % config.linkTypes.toNat = j % config.linkTypes.toNat ∧
        wrapped (2 ^ 64) config.nodes.toNat ((targetWord id (UInt64.ofNat (i % config.linkTypes.toNat)) 0).toNat +
            i / config.linkTypes.toNat) =
          wrapped (2 ^ 64) config.nodes.toNat ((targetWord id (UInt64.ofNat (i % config.linkTypes.toNat)) 0).toNat +
            j / config.linkTypes.toNat) := by
  have htype : ∀ {s : ℕ}, s < config.linksPerNode.toNat →
      UInt64.ofNat s % config.linkTypes = UInt64.ofNat (s % config.linkTypes.toNat) := by
    intro s hs
    apply UInt64.toNat_inj.1
    rw [UInt64.toNat_mod, slot_toNat hs,
      ofNat_toNat_of_lt ((Nat.mod_le _ _).trans_lt (hs.trans config.linksPerNode.toNat_lt))]
  have hslot : ∀ {s : ℕ}, s < config.linksPerNode.toNat →
      (UInt64.ofNat s / config.linkTypes).toNat = s / config.linkTypes.toNat := by
    intro s hs
    rw [UInt64.toNat_div, slot_toNat hs]
  rw [loadedLink, loadedLink, Link.mk.injEq, htype hi, htype hj]
  constructor
  · intro h
    obtain ⟨-, hmod, htarget⟩ := h
    have hmod' := congrArg UInt64.toNat hmod
    rw [ofNat_toNat_of_lt ((Nat.mod_le _ _).trans_lt (hi.trans config.linksPerNode.toNat_lt)),
      ofNat_toNat_of_lt ((Nat.mod_le _ _).trans_lt (hj.trans config.linksPerNode.toNat_lt))] at hmod'
    rw [← hmod, ← UInt64.toNat_inj, existingTarget_toNat, existingTarget_toNat, hslot hi, hslot hj] at htarget
    exact ⟨hmod', htarget⟩
  · intro h
    obtain ⟨hmod, htarget⟩ := h
    refine ⟨rfl, by rw [hmod], ?_⟩
    rw [← hmod, ← UInt64.toNat_inj, existingTarget_toNat, existingTarget_toNat, hslot hi, hslot hj]
    exact htarget

/-- the targets of every type of every node differ -/
def SlotsFit (config : Config) : Prop :=
  ∀ id < config.nodes.toNat, ∀ linkType < config.linkTypes.toNat,
    RunFits (2 ^ 64) config.nodes.toNat (targetWord (UInt64.ofNat id) (UInt64.ofNat linkType) 0).toNat
      (slotsOf config.linksPerNode.toNat config.linkTypes.toNat linkType)

instance (config : Config) : Decidable (SlotsFit config) := by
  unfold SlotsFit
  infer_instance

theorem loadedLink_injOn (hok : config.Accepted) (id : UInt64) :
    Set.InjOn (loadedLink config id) (Set.Iio config.linksPerNode.toNat) ↔ ∀ linkType < config.linkTypes.toNat,
      RunFits (2 ^ 64) config.nodes.toNat (targetWord id (UInt64.ofNat linkType) 0).toNat
        (slotsOf config.linksPerNode.toNat config.linkTypes.toNat linkType) := by
  have hlinks := config.linksPerNode.toNat_lt
  constructor
  · intro h linkType ht
    rw [← wrapped_injOn hok.nodes (UInt64.toNat_lt _) ((slotsOf_le ht).trans_lt hlinks)]
    intro s hs s' hs' heq
    have hslot := (mem_slotsOf ht).1 hs
    have hslot' := (mem_slotsOf ht).1 hs'
    have hmod : ∀ s : ℕ, (s * config.linkTypes.toNat + linkType) % config.linkTypes.toNat = linkType := by
      intro s
      rw [Nat.mul_add_mod_self_right, Nat.mod_eq_of_lt ht]
    have hdiv : ∀ s : ℕ, (s * config.linkTypes.toNat + linkType) / config.linkTypes.toNat = s := by
      intro s
      rw [Nat.mul_comm, Nat.mul_add_div hok.linkTypes, Nat.div_eq_of_lt ht, Nat.add_zero]
    have hlink : loadedLink config id (s * config.linkTypes.toNat + linkType) =
        loadedLink config id (s' * config.linkTypes.toNat + linkType) := by
      rw [loadedLink_eq_iff hslot hslot', hmod, hmod, hdiv, hdiv]
      exact ⟨rfl, heq⟩
    have hsame := h hslot hslot' hlink
    rw [← hdiv s, hsame, hdiv]
  · intro h i hi j hj hlink
    obtain ⟨hmod, htarget⟩ := (loadedLink_eq_iff hi hj).1 hlink
    have ht := Nat.mod_lt i hok.linkTypes
    have hinj := (wrapped_injOn hok.nodes (UInt64.toNat_lt _) ((slotsOf_le ht).trans_lt hlinks)).2 (h _ ht)
    have hmem : ∀ s : ℕ, s < config.linksPerNode.toNat → s % config.linkTypes.toNat = i % config.linkTypes.toNat →
        s / config.linkTypes.toNat < slotsOf config.linksPerNode.toNat config.linkTypes.toNat
          (i % config.linkTypes.toNat) := by
      intro s hs hsmod
      rw [mem_slotsOf ht, ← hsmod, Nat.div_add_mod']
      exact hs
    have hdiv := hinj (hmem i hi rfl) (hmem j hj hmod.symm) htarget
    rw [← Nat.div_add_mod i config.linkTypes.toNat, ← Nat.div_add_mod j config.linkTypes.toNat, hmod, hdiv]

/-! ## Loading -/

/-- the links of the first `count` slots of a node -/
def slotLinks (config : Config) (id : UInt64) (count : ℕ) : Finset Link :=
  (Finset.range count).image (loadedLink config id)

/-- the links of the first `count` nodes -/
def nodeLinks (config : Config) (count : ℕ) : Finset Link :=
  (Finset.range count).biUnion fun id => slotLinks config (UInt64.ofNat id) config.linksPerNode.toNat

def loadedLinks (config : Config) : Finset Link := nodeLinks config config.nodes.toNat

theorem mem_loadedLinks {l : Link} : l ∈ loadedLinks config ↔
    ∃ id < config.nodes.toNat, ∃ slot < config.linksPerNode.toNat, loadedLink config (UInt64.ofNat id) slot = l := by
  simp only [loadedLinks, nodeLinks, slotLinks, Finset.mem_biUnion, Finset.mem_image, Finset.mem_range]

theorem slotLinks_succ (id : UInt64) (count : ℕ) :
    slotLinks config id (count + 1) = insert (loadedLink config id count) (slotLinks config id count) := by
  rw [slotLinks, Finset.range_add_one, Finset.image_insert]
  rfl

theorem nodeLinks_succ (count : ℕ) : nodeLinks config (count + 1) =
    nodeLinks config count ∪ slotLinks config (UInt64.ofNat count) config.linksPerNode.toNat := by
  rw [nodeLinks, Finset.range_add_one, Finset.biUnion_insert, Finset.union_comm]
  rfl

/-- different items, one after the other -/
theorem injOn_iff_fresh {β : Type} [DecidableEq β] (f : ℕ → β) (n : ℕ) :
    Set.InjOn f (Set.Iio n) ↔ ∀ j < n, f j ∉ (Finset.range j).image f := by
  constructor
  · intro h j hj hmem
    obtain ⟨i, hi, heq⟩ := Finset.mem_image.1 hmem
    have hij := Finset.mem_range.1 hi
    exact absurd (h (hij.trans hj) hj heq) (Nat.ne_of_lt hij)
  · intro h i hi j hj heq
    rcases Nat.lt_trichotomy i j with hlt | hij | hlt
    · exact absurd (Finset.mem_image.2 ⟨i, Finset.mem_range.2 hlt, heq⟩) (h j hj)
    · exact hij
    · exact absurd (Finset.mem_image.2 ⟨j, Finset.mem_range.2 hlt, heq.symm⟩) (h i hi)

/-- the links of earlier nodes have other sources -/
theorem loadedLink_notMem {id : ℕ} (hid : id < config.nodes.toNat) (slot : ℕ) :
    loadedLink config (UInt64.ofNat id) slot ∉ nodeLinks config id := by
  intro hmem
  simp only [nodeLinks, slotLinks, Finset.mem_biUnion, Finset.mem_image, Finset.mem_range] at hmem
  obtain ⟨id', hid', slot', -, heq⟩ := hmem
  have hsource : UInt64.ofNat id' = UInt64.ofNat id := congrArg Link.id1 heq
  have hnat := congrArg UInt64.toNat hsource
  rw [ofNat_toNat_of_lt ((hid'.trans hid).trans config.nodes.toNat_lt),
    ofNat_toNat_of_lt (hid.trans config.nodes.toNat_lt)] at hnat
  omega

/-- a node enters under a new key -/
theorem insertNode_spec {id : ℕ} (hid : id < config.nodes.toNat) {t : Tables} {live : Finset Link}
    {data : List UInt8} (h : Holds config t live ∧ ∀ k ∈ t.nodes, k.toNat < id) :
    ∃ t', t.insertNode (UInt64.ofNat id) 0 data = some t' ∧ Holds config t' live ∧
      ∀ k ∈ t'.nodes, k.toNat < id + 1 := by
  obtain ⟨hholds, hnodes⟩ := h
  have hnat := ofNat_toNat_of_lt (hid.trans config.nodes.toNat_lt)
  have hnew : UInt64.ofNat id ∉ t.nodes := by
    intro hmem
    have := hnodes _ hmem
    omega
  refine ⟨_, if_neg hnew, hholds.of_links rfl, fun k hk => ?_⟩
  rcases (TreeMap.mem_insert t.nodes _ k _).1 hk with rfl | hk
  · omega
  · exact (hnodes k hk).trans (Nat.lt_succ_self id)

section Loops

variable (hok : config.Accepted)
  (hfit : ∀ id < config.nodes.toNat, ∀ slot < config.linksPerNode.toNat,
    ∃ k, (loadedLink config (UInt64.ofNat id) slot).key config = some k)

include hok hfit

/-- one slot: the link enters if it is new -/
theorem loadSlot_spec {id slot : ℕ} (hid : id < config.nodes.toNat) (hslot : slot < config.linksPerNode.toNat)
    {tables : Tables} {live : Finset Link} (h : Holds config tables live) :
    (loadedLink config (UInt64.ofNat id) slot ∉ live → ∃ tables', loadSlot config (UInt64.ofNat id) tables slot =
        some tables' ∧ Holds config tables' (insert (loadedLink config (UInt64.ofNat id) slot) live) ∧
        tables'.nodes = tables.nodes) ∧
      (loadedLink config (UInt64.ofNat id) slot ∈ live →
        loadSlot config (UInt64.ofNat id) tables slot = none) := by
  obtain ⟨k, hk⟩ := hfit id hid slot hslot
  exact h.insertLink (loadedLink_inDomain hok hid slot) hk 0 0 _

/-- the slots of one node -/
theorem loadSlots_spec {id : ℕ} (hid : id < config.nodes.toNat) {tables : Tables}
    (h : Holds config tables (nodeLinks config id)) :
    ((∃ tables', (List.range config.linksPerNode.toNat).foldlM (loadSlot config (UInt64.ofNat id)) tables =
        some tables') ↔ Set.InjOn (loadedLink config (UInt64.ofNat id)) (Set.Iio config.linksPerNode.toNat)) ∧
      ∀ tables', (List.range config.linksPerNode.toNat).foldlM (loadSlot config (UInt64.ofNat id)) tables =
        some tables' → Holds config tables' (nodeLinks config (id + 1)) ∧ tables'.nodes = tables.nodes := by
  rw [injOn_iff_fresh]
  have hnotMem : ∀ slot, loadedLink config (UInt64.ofNat id) slot ∈
      nodeLinks config id ∪ slotLinks config (UInt64.ofNat id) slot ↔
        loadedLink config (UInt64.ofNat id) slot ∈ slotLinks config (UInt64.ofNat id) slot := by
    intro slot
    rw [Finset.mem_union, or_iff_right (loadedLink_notMem hid slot)]
  have hloop := foldlM_range_checks (I := fun slot (t : Tables) =>
      Holds config t (nodeLinks config id ∪ slotLinks config (UInt64.ofNat id) slot) ∧ t.nodes = tables.nodes)
    (C := fun slot => loadedLink config (UInt64.ofNat id) slot ∉ slotLinks config (UInt64.ofNat id) slot)
    (f := loadSlot config (UInt64.ofNat id)) config.linksPerNode.toNat ?_ ?_ tables ?_
  · rw [nodeLinks_succ]
    exact hloop
  · intro slot t hslot hI hnew
    obtain ⟨t', ht', hholds, hnodes⟩ :=
      (loadSlot_spec hok hfit hid hslot hI.1).1 fun hmem => hnew ((hnotMem slot).1 hmem)
    rw [← Finset.union_insert, ← slotLinks_succ] at hholds
    exact ⟨t', ht', hholds, hnodes.trans hI.2⟩
  · intro slot t hslot hI hold
    exact (loadSlot_spec hok hfit hid hslot hI.1).2 ((hnotMem slot).2 (not_not.1 hold))
  · refine ⟨?_, rfl⟩
    rwa [slotLinks, Finset.range_zero, Finset.image_empty, Finset.union_empty]

/-- **Load.** It succeeds exactly if the targets of every type of every node differ, and leaves the loaded links. -/
theorem load_iff : ((∃ tables, load config = some tables) ↔ SlotsFit config) ∧
    ∀ tables, load config = some tables → Holds config tables (loadedLinks config) := by
  have hloop := foldlM_range_checks (I := fun id (t : Tables) =>
      Holds config t (nodeLinks config id) ∧ ∀ k ∈ t.nodes, k.toNat < id)
    (C := fun id => Set.InjOn (loadedLink config (UInt64.ofNat id)) (Set.Iio config.linksPerNode.toNat))
    (f := loadNode config) config.nodes.toNat ?_ ?_ Tables.empty ?_
  · refine ⟨hloop.1.trans ⟨fun h id hid => ?_, fun h id hid => ?_⟩, fun tables ht => (hloop.2 tables ht).1⟩
    · exact (loadedLink_injOn hok _).1 (h id hid)
    · exact (loadedLink_injOn hok _).2 (h id hid)
  · intro id t hid hI hinj
    obtain ⟨t', ht', hholds, hnodes⟩ := insertNode_spec hid hI
    obtain ⟨hiff, hafter⟩ := loadSlots_spec hok hfit hid hholds
    obtain ⟨t'', ht''⟩ := hiff.2 hinj
    obtain ⟨hholds', hnodes'⟩ := hafter t'' ht''
    exact ⟨t'', by rw [loadNode, ht']; exact ht'', hholds', fun k hk => hnodes k (hnodes' ▸ hk)⟩
  · intro id t hid hI hinj
    obtain ⟨t', ht', hholds, -⟩ := insertNode_spec hid hI
    rw [loadNode, ht', Option.bind_eq_bind, Option.bind_some]
    rw [← Option.not_isSome_iff_eq_none, Option.isSome_iff_exists, (loadSlots_spec hok hfit hid hholds).1]
    exact hinj
  · refine ⟨Holds.empty config, fun k hk => ?_⟩
    simp [Tables.empty] at hk

/-- the keys of the loaded links differ exactly if the targets of every type of every node do -/
theorem keys_injOn : Set.InjOn (fun p : ℕ × ℕ => (loadedLink config (UInt64.ofNat p.1) p.2).key config)
    {p | p.1 < config.nodes.toNat ∧ p.2 < config.linksPerNode.toNat} ↔ SlotsFit config := by
  have hnodes : ∀ id < config.nodes.toNat, Set.InjOn (loadedLink config (UInt64.ofNat id))
      (Set.Iio config.linksPerNode.toNat) ↔ ∀ linkType < config.linkTypes.toNat,
        RunFits (2 ^ 64) config.nodes.toNat (targetWord (UInt64.ofNat id) (UInt64.ofNat linkType) 0).toNat
          (slotsOf config.linksPerNode.toNat config.linkTypes.toNat linkType) := fun id _ => loadedLink_injOn hok _
  constructor
  · intro h id hid
    refine (hnodes id hid).1 fun i hi j hj heq => ?_
    have hmem : (id, i) ∈ {p : ℕ × ℕ | p.1 < config.nodes.toNat ∧ p.2 < config.linksPerNode.toNat} := ⟨hid, hi⟩
    have hmem' : (id, j) ∈ {p : ℕ × ℕ | p.1 < config.nodes.toNat ∧ p.2 < config.linksPerNode.toNat} := ⟨hid, hj⟩
    exact congrArg Prod.snd (h hmem hmem' (congrArg (fun l => Link.key config l) heq))
  · intro h p hp q hq heq
    obtain ⟨k, hk⟩ := hfit p.1 hp.1 p.2 hp.2
    have hlink := linkKey_inj (loadedLink_inDomain hok hp.1 p.2) (loadedLink_inDomain hok hq.1 q.2) hk
      (heq.symm.trans hk)
    have hsource := congrArg UInt64.toNat (congrArg Link.id1 hlink)
    have hp1 := ofNat_toNat_of_lt (hp.1.trans config.nodes.toNat_lt)
    have hq1 := ofNat_toNat_of_lt (hq.1.trans config.nodes.toNat_lt)
    have hid : p.1 = q.1 := hp1.symm.trans (hsource.trans hq1)
    rw [← hid] at hlink
    exact Prod.ext hid ((hnodes p.1 hp.1).2 (h p.1 hp.1) hp.2 hq.2 hlink)

end Loops

/-! ## Main result -/

/-- no sum of a target wraps -/
def TargetsUnwrapped (config : Config) : Prop :=
  (config.nodes.toNat - 1) * 1000003 + (config.linkTypes.toNat - 1) * 65537 +
    (divCeil config.linksPerNode config.linkTypes).toNat ≤ 2 ^ 64

theorem targetWord_le {id linkType : ℕ} (hid : id < config.nodes.toNat) (ht : linkType < config.linkTypes.toNat) :
    (targetWord (UInt64.ofNat id) (UInt64.ofNat linkType) 0).toNat ≤
      (config.nodes.toNat - 1) * 1000003 + (config.linkTypes.toNat - 1) * 65537 := by
  have hid' := ofNat_toNat_of_lt (hid.trans config.nodes.toNat_lt)
  have ht' := ofNat_toNat_of_lt (ht.trans config.linkTypes.toNat_lt)
  rw [targetWord, UInt64.add_zero, UInt64.toNat_add, UInt64.toNat_mul, UInt64.toNat_mul, hid', ht']
  have hmul : id * 1000003 ≤ (config.nodes.toNat - 1) * 1000003 := Nat.mul_le_mul_right _ (by omega)
  have hmul' : linkType * 65537 ≤ (config.linkTypes.toNat - 1) * 65537 := Nat.mul_le_mul_right _ (by omega)
  have hmod := Nat.mod_le (id * (1000003 : UInt64).toNat) (2 ^ 64)
  have hmod' := Nat.mod_le (linkType * (65537 : UInt64).toNat) (2 ^ 64)
  exact (Nat.mod_le _ _).trans (Nat.add_le_add (hmod.trans hmul) (hmod'.trans hmul'))

/-- as long as no target wraps, only the first type counts -/
theorem slotsFit_iff (hok : config.Accepted) (hunwrapped : TargetsUnwrapped config) :
    SlotsFit config ↔ divCeil config.linksPerNode config.linkTypes ≤ config.nodes := by
  have hfirst : (divCeil config.linksPerNode config.linkTypes).toNat =
      slotsOf config.linksPerNode.toNat config.linkTypes.toNat 0 := divCeil_toNat hok.linkTypes
  rw [UInt64.le_iff_toNat_le, hfirst]
  have hrun : ∀ id < config.nodes.toNat, ∀ linkType < config.linkTypes.toNat,
      (targetWord (UInt64.ofNat id) (UInt64.ofNat linkType) 0).toNat +
        slotsOf config.linksPerNode.toNat config.linkTypes.toNat linkType ≤ 2 ^ 64 := by
    intro id hid linkType ht
    have hbase := targetWord_le hid ht
    have hslots := slotsOf_le_first config.linksPerNode.toNat config.linkTypes.toNat linkType
    unfold TargetsUnwrapped at hunwrapped
    omega
  constructor
  · intro h
    have h0 := h 0 hok.nodes 0 hok.linkTypes
    rwa [RunFits, if_pos (hrun 0 hok.nodes 0 hok.linkTypes)] at h0
  · intro h id hid linkType ht
    rw [RunFits, if_pos (hrun id hid linkType ht)]
    exact (slotsOf_le_first _ _ _).trans h

/-- **When the keys are fresh.** For an accepted configuration whose loaded links can be packed, the loaded keys differ,
and load succeeds, exactly if the consecutive targets of every type of every node differ modulo the number of nodes:
there are at most as many slots of the type as nodes, or, where the targets pass the last word, at most one more than
the residue of that word. As long as no target wraps, a type has at most as many slots as there are nodes. -/
theorem load_fresh_iff (config : Config) (hvalid : config.validate = .ok ())
    (hfit : ∀ id < config.nodes.toNat, ∀ slot < config.linksPerNode.toNat,
      ∃ k, (loadedLink config (UInt64.ofNat id) slot).key config = some k) :
    (Set.InjOn (fun p : ℕ × ℕ => (loadedLink config (UInt64.ofNat p.1) p.2).key config)
        {p | p.1 < config.nodes.toNat ∧ p.2 < config.linksPerNode.toNat} ↔ SlotsFit config) ∧
      ((∃ tables, load config = some tables) ↔ SlotsFit config) ∧
      (TargetsUnwrapped config →
        (SlotsFit config ↔ divCeil config.linksPerNode config.linkTypes ≤ config.nodes)) := by
  have hok := Config.accepted_of_validate hvalid
  exact ⟨keys_injOn hok hfit, (load_iff hok hfit).1, slotsFit_iff hok⟩

/-- two links of one type from each of two nodes -/
def twoNodes : Config := ⟨2, 2, 1, 1, 1, 1, 1, 1, 42⟩

theorem load_fresh_iff_twoNodes : ∃ tables, load twoNodes = some tables := by
  have hfit : ∀ id < twoNodes.nodes.toNat, ∀ slot < twoNodes.linksPerNode.toNat,
      ∃ k, (loadedLink twoNodes (UInt64.ofNat id) slot).key twoNodes = some k := by
    have hsome : ∀ id < twoNodes.nodes.toNat, ∀ slot < twoNodes.linksPerNode.toNat,
        ((loadedLink twoNodes (UInt64.ofNat id) slot).key twoNodes).isSome := by decide
    exact fun id hid slot hslot => Option.isSome_iff_exists.1 (hsome id hid slot hslot)
  exact (load_fresh_iff twoNodes rfl hfit).2.1.2 (by decide)

/-- two links of one type from a single node -/
def oneNode : Config := ⟨1, 2, 1, 1, 1, 1, 1, 1, 42⟩

/-- with one node all targets are the same, and load panics -/
theorem load_duplicate : oneNode.validate = .ok () ∧
    (loadedLink oneNode 0 0).key oneNode = some 0 ∧ (loadedLink oneNode 0 1).key oneNode = some 0 ∧
    load oneNode = none := by
  have hfit : ∀ id < oneNode.nodes.toNat, ∀ slot < oneNode.linksPerNode.toNat,
      ∃ k, (loadedLink oneNode (UInt64.ofNat id) slot).key oneNode = some k := by
    have hsome : ∀ id < oneNode.nodes.toNat, ∀ slot < oneNode.linksPerNode.toNat,
        ((loadedLink oneNode (UInt64.ofNat id) slot).key oneNode).isSome := by decide
    exact fun id hid slot hslot => Option.isSome_iff_exists.1 (hsome id hid slot hslot)
  refine ⟨rfl, by decide, by decide, ?_⟩
  rw [← Option.not_isSome_iff_eq_none, Option.isSome_iff_exists,
    (load_iff (Config.accepted_of_validate rfl) hfit).1]
  decide

end WtBenchmarks.LinkBench
