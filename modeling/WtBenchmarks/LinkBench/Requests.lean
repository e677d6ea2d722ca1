/-
The request stream of the LinkBench port (`generate_operations`, `src/bin/linkbench-worktable.rs`).

Every operation draws its kind, its source from a Zipf distribution, a link type, and a slot below
`links_per_node.div_ceil(link_types)`; the slot names the link that deletions, updates and lookups aim at. The kind is
decided by comparing binary64 numbers, as the source does. The overflow of `nodes + index` is a panic.

- `generateOne_existing`: an operation aims at an existing link exactly if its kind draw says so, and then at the drawn
  one.
- `mem_loadedLinks_iff`: when a drawn link was loaded. The generator offers every type as many slots as the first one
  has; `load` deals the later types one slot less unless the division is exact.
- `requests_hit_iff`: when all aimed requests of a run hit loaded links.
-/
import WtBenchmarks.LinkBench.Load
import WtBenchmarks.LinkBench.Zipf

namespace WtBenchmarks.LinkBench

open Kv (textValue)
open Residues
open Rng (below unitF64)

/-! ## Model -/

inductive Kind where
  | addLink | deleteLink | updateLink | countLinks | getLink | getLinkList | addNode | updateNode | deleteNode | getNode
deriving DecidableEq, Repr

inductive Operation where
  | linkUpsert (kind : Kind) (l : Link) (time version : UInt64) (data : List UInt8)
  | deleteLink (l : Link)
  | countLinks (id1 linkType : UInt64)
  | getLink (l : Link)
  | getLinkList (id1 linkType minimumTime : UInt64)
  | addNode (id time : UInt64) (data : List UInt8)
  | updateNode (id time : UInt64) (data : List UInt8)
  | deleteNode (id : UInt64)
  | getNode (id : UInt64)
deriving DecidableEq, Repr

namespace Operation

def kind : Operation → Kind
  | .linkUpsert kind .. => kind
  | .deleteLink _ => .deleteLink
  | .countLinks .. => .countLinks
  | .getLink _ => .getLink
  | .getLinkList .. => .getLinkList
  | .addNode .. => .addNode
  | .updateNode .. => .updateNode
  | .deleteNode _ => .deleteNode
  | .getNode _ => .getNode

/-- the link an operation names, if it names one -/
def link : Operation → Option Link
  | .linkUpsert _ l .. => some l
  | .deleteLink l => some l
  | .getLink l => some l
  | _ => none

/-- the link a deletion, an update or a lookup is aimed at -/
def existing (op : Operation) : Option Link :=
  if op.kind = .deleteLink ∨ op.kind = .updateLink ∨ op.kind = .getLink then op.link else none

end Operation

/-- what an operation draws before its kind is looked at -/
structure Drawn where
  choice : Float
  id1 : UInt64
  linkType : UInt64
  slot : UInt64

def draw (config : Config) (zipf : ZipfCdf) : Draw Drawn := do
  let unit ← unitF64
  let choice := unit * 100.0
  let id1 ← zipf.sample
  let linkType ← below config.linkTypes
  let slotCount := divCeil config.linksPerNode config.linkTypes
  let slot ← below slotCount
  pure ⟨choice, id1, linkType, slot⟩

/-- the link a draw names -/
def Drawn.target (config : Config) (d : Drawn) : Link :=
  ⟨d.id1, d.linkType, existingTarget config.nodes d.id1 d.linkType d.slot⟩

/-- the operation a draw stands for -/
def operationOf (config : Config) (zipf : ZipfCdf) (index : UInt64) (d : Drawn) : Draw Operation :=
  let data := textValue index config.payloadBytes
  if d.choice < 8.9886601 then do
    let id2 ← checkedAdd config.nodes index
    pure (.linkUpsert .addLink ⟨d.id1, d.linkType, id2⟩ index 0 data)
  else if d.choice < 11.9794265 then pure (.deleteLink (d.target config))
  else if d.choice < 19.991639 then pure (.linkUpsert .updateLink (d.target config) index index data)
  else if d.choice < 24.8779957 then pure (.countLinks d.id1 d.linkType)
  else if d.choice < 25.4041099 then pure (.getLink (d.target config))
  else if d.choice < 76.1160244 then pure (.getLinkList d.id1 d.linkType (saturatingSub index 10000))
  else if d.choice < 78.6893033 then do
    let id ← checkedAdd config.nodes index
    pure (.addNode id index data)
  else if d.choice < 86.0557403 then do
    let id ← below config.nodes
    pure (.updateNode id index data)
  else if d.choice < 87.0673317 then do
    let id ← below config.nodes
    pure (.deleteNode id)
  else do
    let id ← zipf.sample
    pure (.getNode id)

def generateOne (config : Config) (zipf : ZipfCdf) (index : ℕ) : Draw Operation := do
  let d ← draw config zipf
  operationOf config zipf (UInt64.ofNat index) d

/-- the table the sources are drawn from -/
def zipfOf (pow : Powf) (config : Config) : ZipfCdf := ZipfCdf.new pow config.nodes.toNat 0.8

/-- the first `count` operations, and the generator after them -/
def generate (pow : Powf) (config : Config) (count : ℕ) : Option (List Operation × Rng) :=
  ((List.range count).mapM (generateOne config (zipfOf pow config))).run (Rng.new config.seed)

def generateOperations (pow : Powf) (config : Config) : Option (List Operation) :=
  (generate pow config config.operations.toNat).map Prod.fst

/-! ## Draws -/

variable {pow : Powf} {config : Config}

/-- a sampled source is one of the nodes -/
theorem sample_total (pow : Powf) (hok : config.Accepted) :
    Total (fun id => id < config.nodes) (zipfOf pow config).sample := ZipfCdf.sample_total pow 0.8 hok.nodes

/-- what is drawn stays inside the configuration -/
structure Drawn.InRange (config : Config) (d : Drawn) : Prop where
  id1 : d.id1 < config.nodes
  linkType : d.linkType < config.linkTypes
  slot : d.slot < divCeil config.linksPerNode config.linkTypes

theorem slotCount_toNat (hok : config.Accepted) : (divCeil config.linksPerNode config.linkTypes).toNat =
    slotsOf config.linksPerNode.toNat config.linkTypes.toNat 0 := divCeil_toNat hok.linkTypes

theorem slotCount_pos (hok : config.Accepted) : 0 < divCeil config.linksPerNode config.linkTypes := by
  rw [UInt64.lt_iff_toNat_lt, slotCount_toNat hok]
  refine (mem_slotsOf hok.linkTypes).2 ?_
  rw [UInt64.toNat_zero, Nat.zero_mul]
  exact hok.linksPerNode

theorem draw_total (pow : Powf) (hok : config.Accepted) :
    Total (Drawn.InRange config) (draw config (zipfOf pow config)) := by
  refine unitF64_total.bind fun unit _ => ?_
  refine (sample_total pow hok).bind fun id1 hid1 => ?_
  refine (Rng.below_total _ (UInt64.lt_iff_toNat_lt.2 hok.linkTypes)).bind fun linkType ht => ?_
  refine (Rng.below_total _ (slotCount_pos hok)).bind fun slot hslot => ?_
  exact Total.pure ⟨hid1, ht, hslot⟩

theorem draw_inRange (hok : config.Accepted) {d : Drawn} {rng rng' : Rng}
    (h : (draw config (zipfOf pow config)).run rng = some (d, rng')) : d.InRange config := by
  obtain ⟨d', rng'', hd', hrange⟩ := draw_total pow hok rng
  rw [h] at hd'
  cases hd'
  exact hrange

/-! ## Aims -/

/-- the kind draws of deletions, updates and lookups -/
def Aimed (choice : Float) : Prop :=
  (¬ choice < 8.9886601 ∧ choice < 19.991639) ∨ (¬ choice < 24.8779957 ∧ choice < 25.4041099)

/-- what an operation aims at follows from its draw -/
theorem operationOf_existing {zipf : ZipfCdf} {index : UInt64} {d : Drawn} {rng rng' : Rng} {op : Operation}
    (h : (operationOf config zipf index d).run rng = some (op, rng')) :
    (Aimed d.choice → op.existing = some (d.target config)) ∧ (¬ Aimed d.choice → op.existing = none) := by
  unfold operationOf at h
  rcases run_ite_some h with ⟨h1, h⟩ | ⟨h1, h⟩
  · obtain ⟨id2, t, -, h⟩ := run_bind_some h
    cases h
    refine ⟨fun haim => ?_, fun _ => rfl⟩
    rcases haim with haim | haim
    · exact absurd h1 haim.1
    · exact absurd (Binary64.lt_trans h1 (by decide)) haim.1
  rcases run_ite_some h with ⟨h2, h⟩ | ⟨-, h⟩
  · cases h
    exact ⟨fun _ => rfl, fun hno => absurd (Or.inl ⟨h1, Binary64.lt_trans h2 (by decide)⟩) hno⟩
  rcases run_ite_some h with ⟨h3, h⟩ | ⟨h3, h⟩
  · cases h
    exact ⟨fun _ => rfl, fun hno => absurd (Or.inl ⟨h1, h3⟩) hno⟩
  rcases run_ite_some h with ⟨h4, h⟩ | ⟨h4, h⟩
  · cases h
    refine ⟨fun haim => ?_, fun _ => rfl⟩
    rcases haim with haim | haim
    · exact absurd haim.2 h3
    · exact absurd h4 haim.1
  rcases run_ite_some h with ⟨h5, h⟩ | ⟨h5, h⟩
  · cases h
    exact ⟨fun _ => rfl, fun hno => absurd (Or.inr ⟨h4, h5⟩) hno⟩
  -- the draws past the lookups aim at nothing
  have hno : ¬ Aimed d.choice := by
    intro haim
    rcases haim with haim | haim
    · exact absurd haim.2 h3
    · exact absurd haim.2 h5
  refine ⟨fun haim => absurd haim hno, fun _ => ?_⟩
  rcases run_ite_some h with ⟨-, h⟩ | ⟨-, h⟩
  · cases h
    rfl
  rcases run_ite_some h with ⟨-, h⟩ | ⟨-, h⟩
  · obtain ⟨id, t, -, h⟩ := run_bind_some h
    cases h
    rfl
  rcases run_ite_some h with ⟨-, h⟩ | ⟨-, h⟩
  · obtain ⟨id, t, -, h⟩ := run_bind_some h
    cases h
    rfl
  rcases run_ite_some h with ⟨-, h⟩ | ⟨-, h⟩
  · obtain ⟨id, t, -, h⟩ := run_bind_some h
    cases h
    rfl
  · obtain ⟨id, t, -, h⟩ := run_bind_some h
    cases h
    rfl

/-! ## Loaded links -/

/-- the drawn slot was dealt to the drawn type, or the target it names comes back to one that was -/
def Drawn.Covered (config : Config) (d : Drawn) : Prop :=
  d.slot.toNat < slotsOf config.linksPerNode.toNat config.linkTypes.toNat d.linkType.toNat ∨
    Repeats (2 ^ 64) config.nodes.toNat (targetWord d.id1 d.linkType 0).toNat d.slot.toNat

/-- the first type has at most one slot more than any other -/
theorem slotsOf_first_le {links types linkType : ℕ} (h : linkType < types) :
    slotsOf links types 0 ≤ slotsOf links types linkType + 1 := by
  have hpos := Nat.zero_lt_of_lt h
  rw [slotsOf, slotsOf, ← Nat.add_div_right _ hpos]
  exact Nat.div_le_div_right (by omega)

/-- the targets of a type that were loaded -/
theorem mem_loadedLinks_target (hok : config.Accepted) {id1 linkType id2 : UInt64} (hid : id1 < config.nodes)
    (ht : linkType < config.linkTypes) : (⟨id1, linkType, id2⟩ : Link) ∈ loadedLinks config ↔
      ∃ s < slotsOf config.linksPerNode.toNat config.linkTypes.toNat linkType.toNat,
        wrapped (2 ^ 64) config.nodes.toNat ((targetWord id1 linkType 0).toNat + s) = id2.toNat := by
  rw [UInt64.lt_iff_toNat_lt] at hid ht
  have htarget : ∀ slot < config.linksPerNode.toNat, UInt64.ofNat slot % config.linkTypes = linkType →
      (loadedLink config id1 slot).id2.toNat =
        wrapped (2 ^ 64) config.nodes.toNat ((targetWord id1 linkType 0).toNat + slot / config.linkTypes.toNat) := by
    intro slot hslot hmod
    rw [loadedLink, hmod, existingTarget_toNat, UInt64.toNat_div, slot_toNat hslot]
  rw [mem_loadedLinks]
  constructor
  · intro hex
    obtain ⟨id, -, slot, hslot, heq⟩ := hex
    have hsource : UInt64.ofNat id = id1 := congrArg Link.id1 heq
    have htype : UInt64.ofNat slot % config.linkTypes = linkType := congrArg Link.linkType heq
    have hmod : slot % config.linkTypes.toNat = linkType.toNat := by
      rw [← htype, UInt64.toNat_mod, slot_toNat hslot]
    rw [hsource] at heq
    refine ⟨slot / config.linkTypes.toNat, ?_, ?_⟩
    · rw [mem_slotsOf ht, ← hmod, Nat.div_add_mod']
      exact hslot
    · rw [← htarget slot hslot htype, heq]
  · intro hex
    obtain ⟨s, hs, heq⟩ := hex
    have hslot := (mem_slotsOf ht).1 hs
    have htype : UInt64.ofNat (s * config.linkTypes.toNat + linkType.toNat) % config.linkTypes = linkType := by
      apply UInt64.toNat_inj.1
      rw [UInt64.toNat_mod, slot_toNat hslot, Nat.mul_add_mod_self_right, Nat.mod_eq_of_lt ht]
    have hdiv : (s * config.linkTypes.toNat + linkType.toNat) / config.linkTypes.toNat = s := by
      rw [Nat.mul_comm, Nat.mul_add_div hok.linkTypes, Nat.div_eq_of_lt ht, Nat.add_zero]
    refine ⟨id1.toNat, hid, _, hslot, ?_⟩
    rw [UInt64.ofNat_toNat]
    have hid2 := htarget _ hslot htype
    rw [hdiv, heq] at hid2
    exact congr (congr (congrArg Link.mk rfl) htype) (UInt64.toNat_inj.1 hid2)

/-- **When a drawn link was loaded.** -/
theorem mem_loadedLinks_iff (hok : config.Accepted) {d : Drawn} (hd : d.InRange config) :
    d.target config ∈ loadedLinks config ↔ d.Covered config := by
  have ht := UInt64.lt_iff_toNat_lt.1 hd.linkType
  have hslot := UInt64.lt_iff_toNat_lt.1 hd.slot
  rw [slotCount_toNat hok] at hslot
  have hfirst : slotsOf config.linksPerNode.toNat config.linkTypes.toNat 0 ≤
      slotsOf config.linksPerNode.toNat config.linkTypes.toNat d.linkType.toNat + 1 := slotsOf_first_le ht
  have hrepeats := wrapped_repeats (b := (targetWord d.id1 d.linkType 0).toNat) hok.nodes (UInt64.toNat_lt _)
    d.slot.toNat_lt
  rw [Drawn.target, mem_loadedLinks_target hok hd.id1 hd.linkType, existingTarget_toNat, Drawn.Covered]
  constructor
  · intro hex
    obtain ⟨s, hs, heq⟩ := hex
    by_cases hlt : d.slot.toNat < slotsOf config.linksPerNode.toNat config.linkTypes.toNat d.linkType.toNat
    · exact Or.inl hlt
    · exact Or.inr (hrepeats.1 ⟨s, by omega, heq⟩)
  · intro hor
    by_cases hlt : d.slot.toNat < slotsOf config.linksPerNode.toNat config.linkTypes.toNat d.linkType.toNat
    · exact ⟨d.slot.toNat, hlt, rfl⟩
    · obtain ⟨s, hs, heq⟩ := hrepeats.2 (hor.resolve_left hlt)
      exact ⟨s, by omega, heq⟩

/-- if the types share the slots evenly, every draw is covered -/
theorem covered_of_dvd (hok : config.Accepted) (hdvd : config.linkTypes.toNat ∣ config.linksPerNode.toNat)
    {d : Drawn} (hd : d.InRange config) : d.Covered config := by
  have ht := UInt64.lt_iff_toNat_lt.1 hd.linkType
  have hslot := UInt64.lt_iff_toNat_lt.1 hd.slot
  rw [slotCount_toNat hok, mem_slotsOf hok.linkTypes] at hslot
  refine Or.inl ((mem_slotsOf ht).2 ?_)
  obtain ⟨q, hq⟩ := hdvd
  rw [hq] at hslot ⊢
  have hlt : d.slot.toNat < q := by
    rw [Nat.mul_comm config.linkTypes.toNat] at hslot
    exact lt_of_mul_lt_mul_right (by omega) (Nat.zero_le _)
  calc d.slot.toNat * config.linkTypes.toNat + d.linkType.toNat
      < d.slot.toNat * config.linkTypes.toNat + config.linkTypes.toNat := Nat.add_lt_add_left ht _
    _ = (d.slot.toNat + 1) * config.linkTypes.toNat := (Nat.succ_mul _ _).symm
    _ ≤ q * config.linkTypes.toNat := Nat.mul_le_mul_right _ hlt
    _ = config.linkTypes.toNat * q := Nat.mul_comm _ _

/-! ## Main result -/

/-- an operation is drawn, and aimed if its draw says so -/
theorem generateOne_some {index : ℕ} {rng rng' : Rng} {op : Operation}
    (h : (generateOne config (zipfOf pow config) index).run rng = some (op, rng')) :
    ∃ d t, (draw config (zipfOf pow config)).run rng = some (d, t) ∧
      (Aimed d.choice → op.existing = some (d.target config)) ∧ (¬ Aimed d.choice → op.existing = none) := by
  obtain ⟨d, t, hd, h⟩ := run_bind_some h
  exact ⟨d, t, hd, operationOf_existing h⟩

/-- an operation hits a loaded link, if it is aimed at one, exactly if its draw is covered -/
theorem generateOne_hits (hok : config.Accepted) {index : ℕ} {rng rng' : Rng} {op : Operation}
    (h : (generateOne config (zipfOf pow config) index).run rng = some (op, rng')) :
    (∀ l, op.existing = some l → l ∈ loadedLinks config) ↔ ∀ d t,
      (draw config (zipfOf pow config)).run rng = some (d, t) → Aimed d.choice → d.Covered config := by
  obtain ⟨d, t, hd, haim, hno⟩ := generateOne_some h
  have hloaded := mem_loadedLinks_iff hok (draw_inRange hok hd)
  constructor
  · intro hhit d' t' hd' ha
    rw [hd] at hd'
    cases hd'
    exact hloaded.1 (hhit _ (haim ha))
  · intro hcovered l hl
    by_cases ha : Aimed d.choice
    · rw [haim ha] at hl
      exact Option.some.inj hl ▸ hloaded.2 (hcovered d t hd ha)
    · rw [hno ha] at hl
      cases hl

/-- **When the aimed requests hit.** In a generated stream every deletion, update and lookup names a loaded link exactly
if, in every state of the generator from which one of them is drawn, the drawn slot was dealt to the drawn type or its
target comes back to one that was. If the number of types divides the number of slots, this is so for every seed. -/
theorem requests_hit_iff (pow : Powf) (config : Config) (ops : List Operation)
    (hvalid : config.validate = .ok ()) (hgen : generateOperations pow config = some ops) :
    ((∀ op ∈ ops, ∀ l, op.existing = some l → l ∈ loadedLinks config) ↔
        ∀ i < config.operations.toNat, ∀ before rng d rng', generate pow config i = some (before, rng) →
          (draw config (zipfOf pow config)).run rng = some (d, rng') → Aimed d.choice → d.Covered config) ∧
      (config.linkTypes.toNat ∣ config.linksPerNode.toNat →
        ∀ op ∈ ops, ∀ l, op.existing = some l → l ∈ loadedLinks config) := by
  have hok := Config.accepted_of_validate hvalid
  obtain ⟨⟨ops', rng'⟩, hrun, rfl⟩ := Option.map_eq_some_iff.1 hgen
  obtain ⟨hlen, hall⟩ := run_mapM_range _ hrun
  have hstates : ∀ op ∈ ops', ∃ i < config.operations.toNat, ∃ before rng rng'',
      generate pow config i = some (before, rng) ∧
        (generateOne config (zipfOf pow config) i).run rng = some (op, rng'') := by
    intro op hop
    obtain ⟨i, hi⟩ := List.mem_iff_getElem?.1 hop
    have hlt : i < config.operations.toNat := hlen ▸ (List.getElem?_eq_some_iff.1 hi).1
    obtain ⟨before, rng, op', rng'', hbefore, hone, hget, -⟩ := hall i hlt
    rw [hi] at hget
    cases hget
    exact ⟨i, hlt, before, rng, rng'', hbefore, hone⟩
  refine ⟨⟨?_, ?_⟩, ?_⟩
  · intro hhit i hi before rng d t hbefore hd
    obtain ⟨before', rng₁, op, rng'', hbefore', hone, hget, -⟩ := hall i hi
    have hsame := Option.some.inj (hbefore.symm.trans hbefore')
    cases hsame
    exact (generateOne_hits hok hone).1 (hhit op (List.mem_of_getElem? hget)) d t hd
  · intro hcovered op hop
    obtain ⟨i, hi, before, rng, rng'', hbefore, hone⟩ := hstates op hop
    exact (generateOne_hits hok hone).2 fun d t hd => hcovered i hi before rng d t hbefore hd
  · intro hdvd op hop
    obtain ⟨i, hi, before, rng, rng'', hbefore, hone⟩ := hstates op hop
    exact (generateOne_hits hok hone).2 fun d t hd _ => covered_of_dvd hok hdvd (draw_inRange hok hd)

/-- the powers of one -/
def onePow : Powf := ⟨fun _ _ => 1, fun _ _ _ => by decide⟩

/-- one link from a single node -/
def oneType : Config := ⟨1, 1, 1, 1, 1, 1, 1, 1, 1000000000001⟩

theorem requests_hit_iff_oneType : ∃ ops, generateOperations onePow oneType = some ops ∧ ops.length = 1 ∧
    ∀ op ∈ ops, ∀ l, op.existing = some l → l ∈ loadedLinks oneType := by
  have hgen : generateOperations onePow oneType = some [.getLink ⟨0, 0, 0⟩] := by decide +kernel
  exact ⟨_, hgen, rfl, (requests_hit_iff onePow oneType _ rfl hgen).2 (by decide)⟩

/-- one link from a single node, and a type more than there are links -/
def twoTypes : Config := ⟨1, 1, 2, 1, 1, 1, 1, 1, 1000000000001⟩

/-- a lookup of a link that was never loaded -/
theorem request_misses : twoTypes.validate = .ok () ∧
    generateOperations onePow twoTypes = some [.getLink ⟨0, 1, 0⟩] ∧ (⟨0, 1, 0⟩ : Link) ∉ loadedLinks twoTypes :=
  ⟨rfl, by decide +kernel, by decide +kernel⟩

/-- a lookup whose draw rounds up to the bound below which links are counted -/
example : generateOperations onePow { twoTypes with seed := 9945056611577197414 } = some [.getLink ⟨0, 1, 0⟩] := by
  decide +kernel

end WtBenchmarks.LinkBench
