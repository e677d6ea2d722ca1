/-
Running the generated operations on the loaded tables (`execute`, `run_repetition`,
`src/bin/linkbench-worktable.rs`).

The live links are the loaded ones, with every upsert adding its link and every deletion removing its own. The table
holds exactly these after every prefix of the stream, and a link that is added names a target past all earlier ones.

- `execute_holds`: one operation.
- `generated_inDomain`: the links the stream names stay inside the domain, added ones at their own targets.
- `run_holds`: the table after any prefix.
- `links_exact`: packing is injective, added links are new, and counts are exact.
-/
import WtBenchmarks.LinkBench.Requests

namespace WtBenchmarks.LinkBench

/-! ## Model -/

def execute (config : Config) (tables : Tables) : Operation → Option (Tables × UInt64)
  | .linkUpsert _ l time version data => tables.upsertLink config l time version data
  | .deleteLink l => tables.deleteLink config l
  | .countLinks id1 linkType => some (tables, tables.countLinks id1 linkType)
  | .getLink l => (tables.getLink config l).map fun value => (tables, value)
  | .getLinkList id1 linkType minimumTime => some (tables, tables.getLinkList id1 linkType minimumTime config.listLimit)
  | .addNode id time data => some (tables.addNode id time data)
  | .updateNode id time data => some (tables.updateNode id time data)
  | .deleteNode id => some (tables.deleteNode id)
  | .getNode id => some (tables, tables.getNode id)

/-- one turn of the measured loop: the tables and the checksum -/
def turn (config : Config) (s : Tables × UInt64) (op : Operation) : Option (Tables × UInt64) := do
  let r ← execute config s.1 op
  some (r.1, s.2 + r.2)

def runOperations (config : Config) (tables : Tables) (ops : List Operation) : Option (Tables × UInt64) :=
  ops.foldlM (turn config) (tables, 0)

/-! ## Live links -/

/-- what an operation does to the live links -/
def liveStep (live : Finset Link) : Operation → Finset Link
  | .linkUpsert _ l .. => insert l live
  | .deleteLink l => live.erase l
  | _ => live

/-- the live links after some operations -/
def liveAfter (config : Config) (ops : List Operation) : Finset Link := ops.foldl liveStep (loadedLinks config)

/-- every link of the domain can be packed -/
def PackingFits (config : Config) : Prop := ∀ l : Link, l.InDomain config → ∃ k, l.key config = some k

variable {config : Config}

/-- the number of packed keys fits a word -/
theorem packingFits_of_le (hspan : config.nodes.toNat + config.operations.toNat < 2 ^ 64)
    (hkeys : config.nodes.toNat * config.linkTypes.toNat * (config.nodes.toNat + config.operations.toNat) ≤ 2 ^ 64) :
    PackingFits config := by
  intro l hl
  have hid1 := UInt64.lt_iff_toNat_lt.1 hl.id1
  have htype := UInt64.lt_iff_toNat_lt.1 hl.linkType
  have hsource : l.id1.toNat * config.linkTypes.toNat + l.linkType.toNat + 1 ≤
      config.nodes.toNat * config.linkTypes.toNat :=
    calc l.id1.toNat * config.linkTypes.toNat + l.linkType.toNat + 1
        ≤ l.id1.toNat * config.linkTypes.toNat + config.linkTypes.toNat := by omega
      _ = (l.id1.toNat + 1) * config.linkTypes.toNat := (Nat.succ_mul _ _).symm
      _ ≤ config.nodes.toNat * config.linkTypes.toNat := Nat.mul_le_mul_right _ hid1
  have hkey : (l.id1.toNat * config.linkTypes.toNat + l.linkType.toNat) *
      (config.nodes.toNat + config.operations.toNat) + l.id2.toNat < 2 ^ 64 :=
    calc (l.id1.toNat * config.linkTypes.toNat + l.linkType.toNat) *
          (config.nodes.toNat + config.operations.toNat) + l.id2.toNat
        < (l.id1.toNat * config.linkTypes.toNat + l.linkType.toNat) *
          (config.nodes.toNat + config.operations.toNat) + (config.nodes.toNat + config.operations.toNat) :=
          Nat.add_lt_add_left hl.id2 _
      _ = (l.id1.toNat * config.linkTypes.toNat + l.linkType.toNat + 1) *
          (config.nodes.toNat + config.operations.toNat) := (Nat.succ_mul _ _).symm
      _ ≤ config.nodes.toNat * config.linkTypes.toNat * (config.nodes.toNat + config.operations.toNat) :=
          Nat.mul_le_mul_right _ hsource
      _ ≤ 2 ^ 64 := hkeys
  have hspan1 : 0 < config.nodes.toNat + config.operations.toNat := by omega
  have hscale := Nat.le_mul_of_pos_right (l.id1.toNat * config.linkTypes.toNat + l.linkType.toNat) hspan1
  obtain ⟨span, hspan', hspanNat⟩ := checkedAdd_some hspan
  obtain ⟨source, hsource', hsourceNat⟩ := checkedMul_some (a := l.id1) (b := config.linkTypes) (by omega)
  obtain ⟨typed, htyped', htypedNat⟩ := checkedAdd_some (a := source) (b := l.linkType) (by omega)
  obtain ⟨scaled, hscaled', hscaledNat⟩ := checkedMul_some (a := typed) (b := span) (by
    rw [htypedNat, hsourceNat, hspanNat]
    omega)
  obtain ⟨k, hk', -⟩ := checkedAdd_some (a := scaled) (b := l.id2) (by
    rw [hscaledNat, htypedNat, hsourceNat, hspanNat]
    exact hkey)
  refine ⟨k, ?_⟩
  simp only [Link.key, linkKey, hspan', hsource', htyped', hscaled', hk', Option.bind_eq_bind, Option.bind_some]

/-- the span of the targets can be computed, or nothing could be packed -/
theorem span_lt (hok : config.Accepted) (hpack : PackingFits config) :
    config.nodes.toNat + config.operations.toNat < 2 ^ 64 := by
  have hdomain : (⟨0, 0, 0⟩ : Link).InDomain config := by
    refine ⟨UInt64.lt_iff_toNat_lt.2 hok.nodes, UInt64.lt_iff_toNat_lt.2 hok.linkTypes, ?_⟩
    show 0 < config.nodes.toNat + config.operations.toNat
    exact Nat.add_pos_left hok.nodes _
  obtain ⟨k, hk⟩ := hpack _ hdomain
  obtain ⟨span, hspan, -⟩ := Option.bind_eq_some_iff.1 hk
  rw [← checkedAdd_toNat hspan]
  exact span.toNat_lt

/-! ## One operation -/

/-- **One operation.** If the link it names is in the domain, the live links follow. -/
theorem execute_holds (hpack : PackingFits config) {tables : Tables} {live : Finset Link} {op : Operation}
    (h : Holds config tables live) (hop : ∀ l, op.link = some l → l.InDomain config) :
    ∃ r, execute config tables op = some r ∧ Holds config r.1 (liveStep live op) := by
  cases op with
  | linkUpsert kind l time version data =>
    obtain ⟨k, hk⟩ := hpack l (hop l rfl)
    obtain ⟨tables', htables', hholds⟩ := h.upsertLink (hop l rfl) hk time version data
    exact ⟨_, htables', hholds⟩
  | deleteLink l =>
    obtain ⟨k, hk⟩ := hpack l (hop l rfl)
    exact h.deleteLink (hop l rfl) hk
  | countLinks id1 linkType => exact ⟨_, rfl, h⟩
  | getLink l =>
    obtain ⟨k, hk⟩ := hpack l (hop l rfl)
    refine ⟨(tables, if k ∈ tables.links.rows then 1 else 0), ?_, h⟩
    simp only [execute, Tables.getLink, hk, Option.bind_eq_bind, Option.bind_some, Option.map_some]
  | getLinkList id1 linkType minimumTime => exact ⟨_, rfl, h⟩
  | addNode id time data => exact ⟨_, rfl, h.of_links rfl⟩
  | updateNode id time data =>
    refine ⟨_, rfl, h.of_links ?_⟩
    rw [Tables.updateNode]
    split_ifs <;> rfl
  | deleteNode id =>
    refine ⟨_, rfl, h.of_links ?_⟩
    rw [Tables.deleteNode]
    split_ifs <;> rfl
  | getNode id => exact ⟨_, rfl, h⟩

/-! ## The stream -/

/-- what the `index`-th operation may name: a target below its own, or, if it adds a link, its own -/
structure Operation.At (config : Config) (index : ℕ) (op : Operation) : Prop where
  domain : ∀ l, op.link = some l → l.InDomain config
  below : ∀ l, op.link = some l → l.id2.toNat < config.nodes.toNat + (index + 1)
  added : op.kind = .addLink → ∃ l, op.link = some l ∧ l.id2.toNat = config.nodes.toNat + index

/-- an operation that names no link -/
theorem Operation.At.of_none {index : ℕ} {op : Operation} (hlink : op.link = none) (hkind : op.kind ≠ .addLink) :
    op.At config index := by
  refine ⟨fun l hl => ?_, fun l hl => ?_, fun hadd => absurd hadd hkind⟩
  · rw [hlink] at hl
    cases hl
  · rw [hlink] at hl
    cases hl

/-- an operation that names the drawn link -/
theorem Operation.At.of_target (hok : config.Accepted) {d : Drawn} (hd : d.InRange config) {index : ℕ}
    {op : Operation} (hlink : op.link = some (d.target config)) (hkind : op.kind ≠ .addLink) :
    op.At config index := by
  have htarget : (d.target config).id2.toNat < config.nodes.toNat :=
    (UInt64.toNat_mod _ _).symm ▸ Nat.mod_lt _ hok.nodes
  refine ⟨fun l hl => ?_, fun l hl => ?_, fun hadd => absurd hadd hkind⟩
  · rw [hlink] at hl
    cases hl
    exact ⟨hd.id1, hd.linkType, by omega⟩
  · rw [hlink] at hl
    cases hl
    omega

/-- every draw stands for an operation, and names what it may name -/
theorem operationOf_total (pow : Powf) (hok : config.Accepted)
    (hspan : config.nodes.toNat + config.operations.toNat < 2 ^ 64) {index : ℕ}
    (hindex : index < config.operations.toNat) {d : Drawn} (hd : d.InRange config) :
    Total (Operation.At config index) (operationOf config (zipfOf pow config) (UInt64.ofNat index) d) := by
  have hnat := ofNat_toNat_of_lt (hindex.trans config.operations.toNat_lt)
  obtain ⟨fresh, hfresh, hfreshNat⟩ := checkedAdd_some (a := config.nodes) (b := UInt64.ofNat index) (by omega)
  have hnodes : 0 < config.nodes := UInt64.lt_iff_toNat_lt.2 hok.nodes
  unfold operationOf
  refine Total.ite (fun _ => ?_) fun _ => ?_
  · refine (Total.lift (P := fun id2 => id2 = fresh) ⟨fresh, hfresh, rfl⟩).bind fun id2 hid2 => Total.pure ?_
    subst hid2
    refine ⟨fun l hl => ?_, fun l hl => ?_, fun _ => ⟨_, rfl, by rw [hfreshNat, hnat]⟩⟩
    · cases hl
      exact ⟨hd.id1, hd.linkType, by rw [hfreshNat, hnat]; omega⟩
    · cases hl
      show id2.toNat < _
      omega
  refine Total.ite (fun _ => ?_) fun _ => ?_
  · exact Total.pure (Operation.At.of_target hok hd rfl (by simp [Operation.kind]))
  refine Total.ite (fun _ => ?_) fun _ => ?_
  · exact Total.pure (Operation.At.of_target hok hd rfl (by simp [Operation.kind]))
  refine Total.ite (fun _ => ?_) fun _ => ?_
  · exact Total.pure (Operation.At.of_none rfl (by simp [Operation.kind]))
  refine Total.ite (fun _ => ?_) fun _ => ?_
  · exact Total.pure (Operation.At.of_target hok hd rfl (by simp [Operation.kind]))
  refine Total.ite (fun _ => ?_) fun _ => ?_
  · exact Total.pure (Operation.At.of_none rfl (by simp [Operation.kind]))
  refine Total.ite (fun _ => ?_) fun _ => ?_
  · refine (Total.lift (P := fun _ => True) ⟨fresh, hfresh, trivial⟩).bind fun id _ => Total.pure ?_
    exact Operation.At.of_none rfl (by simp [Operation.kind])
  refine Total.ite (fun _ => ?_) fun _ => ?_
  · refine (Rng.below_total _ hnodes).bind fun id _ => Total.pure ?_
    exact Operation.At.of_none rfl (by simp [Operation.kind])
  refine Total.ite (fun _ => ?_) fun _ => ?_
  · refine (Rng.below_total _ hnodes).bind fun id _ => Total.pure ?_
    exact Operation.At.of_none rfl (by simp [Operation.kind])
  · refine (sample_total pow hok).bind fun id _ => Total.pure ?_
    exact Operation.At.of_none rfl (by simp [Operation.kind])

/-- **The stream.** It is generated without a panic, and its operations name what they may name. -/
theorem generated_inDomain (pow : Powf) (hok : config.Accepted)
    (hspan : config.nodes.toNat + config.operations.toNat < 2 ^ 64) :
    ∃ ops, generateOperations pow config = some ops ∧ ops.length = config.operations.toNat ∧
      ∀ (i : ℕ) (op : Operation), ops[i]? = some op → op.At config i := by
  have htotal := Total.mapM (P := fun i op => Operation.At config i op) (List.range config.operations.toNat)
    fun i hi => (draw_total pow hok).bind fun d hd =>
      operationOf_total pow hok hspan (List.mem_range.1 hi) hd
  obtain ⟨ops, rng, hops, hall⟩ := htotal (Rng.new config.seed)
  refine ⟨ops, congrArg (Option.map Prod.fst) hops, by rw [← hall.length_eq, List.length_range], fun i op hi => ?_⟩
  obtain ⟨hlt, rfl⟩ := List.getElem?_eq_some_iff.1 hi
  have hget := (List.forall₂_iff_get.1 hall).2 i (by rw [hall.length_eq]; exact hlt) hlt
  rwa [List.get_eq_getElem, List.getElem_range] at hget

/-! ## The run -/

/-- the live links after a prefix lie below the next target -/
theorem liveAfter_lt (hok : config.Accepted) {ops : List Operation}
    (hops : ∀ (i : ℕ) (op : Operation), ops[i]? = some op → op.At config i) (i : ℕ) (hi : i ≤ ops.length) :
    ∀ l ∈ liveAfter config (ops.take i), l.id2.toNat < config.nodes.toNat + i := by
  induction i with
  | zero =>
    intro l hl
    obtain ⟨id, -, slot, -, rfl⟩ := mem_loadedLinks.1 hl
    exact (UInt64.toNat_mod _ _).symm ▸ Nat.mod_lt _ hok.nodes
  | succ i ih =>
    have hget := List.getElem?_eq_getElem (l := ops) (show i < ops.length by omega)
    have hat := hops i _ hget
    have hlive := ih (by omega)
    intro l hl
    rw [← List.take_append_getElem (show i < ops.length by omega), liveAfter, List.foldl_append] at hl
    have hcases : l ∈ liveAfter config (ops.take i) ∨ ops[i].link = some l := by
      revert hl
      cases ops[i] with
      | linkUpsert kind l' time version data =>
        intro hl
        rcases Finset.mem_insert.1 hl with rfl | hl
        · exact Or.inr rfl
        · exact Or.inl hl
      | deleteLink l' => exact fun hl => Or.inl (Finset.mem_of_mem_erase hl)
      | countLinks id1 linkType => exact Or.inl
      | getLink l' => exact Or.inl
      | getLinkList id1 linkType minimumTime => exact Or.inl
      | addNode id time data => exact Or.inl
      | updateNode id time data => exact Or.inl
      | deleteNode id => exact Or.inl
      | getNode id => exact Or.inl
    rcases hcases with hl | hl
    · have := hlive l hl
      omega
    · exact hat.below l hl

/-- **The run.** Every prefix is executed without a panic, and the table holds the live links. -/
theorem run_holds (hpack : PackingFits config) {ops : List Operation}
    (hops : ∀ (i : ℕ) (op : Operation), ops[i]? = some op → op.At config i) {tables : Tables}
    (hload : Holds config tables (loadedLinks config)) (i : ℕ) (hi : i ≤ ops.length) :
    ∃ r, runOperations config tables (ops.take i) = some r ∧ Holds config r.1 (liveAfter config (ops.take i)) := by
  induction i with
  | zero => exact ⟨(tables, 0), rfl, hload⟩
  | succ i ih =>
    obtain ⟨r, hr, hholds⟩ := ih (by omega)
    have hat := hops i _ (List.getElem?_eq_getElem (show i < ops.length by omega))
    obtain ⟨r', hr', hholds'⟩ := execute_holds hpack hholds hat.domain
    rw [← List.take_append_getElem (show i < ops.length by omega)]
    refine ⟨(r'.1, r.2 + r'.2), ?_, ?_⟩
    · rw [runOperations, List.foldlM_append, ← runOperations, hr, Option.bind_eq_bind, Option.bind_some,
        List.foldlM_cons, turn, hr']
      rfl
    · rw [liveAfter, List.foldl_append]
      exact hholds'

/-! ## Main result -/

/-- **Links are exact.** If the packing fits, no two links of the domain share a key, and no two pairs share an index
value. The stream is generated; on any loaded tables every prefix of it is executed, the table then holds the live
links, a link that is added next is not one of them and its key is free, and the count for any source and type is the
number of live links with them. -/
theorem links_exact (pow : Powf) (config : Config) (hvalid : config.validate = .ok ())
    (hpack : PackingFits config) :
    (∀ l l' : Link, l.InDomain config → l'.InDomain config → l.key config = l'.key config → l = l') ∧
      (∀ id1 linkType id1' linkType' : UInt64,
        sourceType id1 linkType = sourceType id1' linkType' → id1 = id1' ∧ linkType = linkType') ∧
      ∃ ops, generateOperations pow config = some ops ∧ ops.length = config.operations.toNat ∧
        ∀ tables, load config = some tables → ∀ i ≤ ops.length, ∃ tables' checksum,
          runOperations config tables (ops.take i) = some (tables', checksum) ∧
          Holds config tables' (liveAfter config (ops.take i)) ∧
          (∀ op, ops[i]? = some op → op.kind = .addLink → ∃ l k, op.link = some l ∧ l.key config = some k ∧
            l ∉ liveAfter config (ops.take i) ∧ k ∉ tables'.links.rows) ∧
          ∀ id1 linkType, (tables'.countLinks id1 linkType).toNat =
            ((liveAfter config (ops.take i)).filter fun l => l.id1 = id1 ∧ l.linkType = linkType).card := by
  have hok := Config.accepted_of_validate hvalid
  have hspan := span_lt hok hpack
  refine ⟨fun l l' hl hl' hkey => ?_, fun id1 linkType id1' linkType' => sourceType_inj, ?_⟩
  · obtain ⟨k, hk⟩ := hpack l hl
    exact linkKey_inj hl hl' hk (hkey.symm.trans hk)
  obtain ⟨ops, hgen, hlen, hops⟩ := generated_inDomain pow hok hspan
  refine ⟨ops, hgen, hlen, fun tables hload i hi => ?_⟩
  have hloaded := (load_iff hok fun id hid slot _ => hpack _ (loadedLink_inDomain hok hid slot)).2 tables hload
  obtain ⟨⟨tables', checksum⟩, hrun, hholds⟩ := run_holds hpack hops hloaded i hi
  refine ⟨tables', checksum, hrun, hholds, fun op hop hadd => ?_, fun id1 linkType => ?_⟩
  · obtain ⟨l, hl, hid2⟩ := (hops i op hop).added hadd
    obtain ⟨k, hk⟩ := hpack l ((hops i op hop).domain l hl)
    have hnew : l ∉ liveAfter config (ops.take i) := by
      intro hlive
      have := liveAfter_lt hok hops i hi l hlive
      omega
    exact ⟨l, k, hl, hk, hnew, fun hmem => hnew ((hholds.mem_iff ((hops i op hop).domain l hl) hk).1 hmem)⟩
  · exact hholds.countLinks_eq id1 linkType hspan

/-- a node with one link, and one operation, which adds another -/
def addOne : Config := ⟨1, 1, 1, 1, 1, 1, 1, 1, 42⟩

theorem links_exact_addOne : ∃ ops tables tables' checksum, generateOperations onePow addOne = some ops ∧
    load addOne = some tables ∧ runOperations addOne tables ops = some (tables', checksum) ∧
    (tables'.countLinks 0 0).toNat = 2 := by
  have hpack : PackingFits addOne := packingFits_of_le (by decide) (by decide)
  have hfit : ∀ id < addOne.nodes.toNat, ∀ slot < addOne.linksPerNode.toNat,
      ∃ k, (loadedLink addOne (UInt64.ofNat id) slot).key addOne = some k := fun id hid slot _ =>
    hpack _ (loadedLink_inDomain (Config.accepted_of_validate rfl) hid slot)
  obtain ⟨tables, hload⟩ := (load_iff (Config.accepted_of_validate rfl) hfit).1.2 (by decide)
  obtain ⟨-, -, ops, hgen, hlen, hall⟩ := links_exact onePow addOne rfl hpack
  obtain ⟨tables', checksum, hrun, -, -, hcount⟩ := hall tables hload ops.length le_rfl
  rw [List.take_length] at hrun hcount
  refine ⟨ops, tables, tables', checksum, hgen, hload, hrun, (hcount 0 0).trans ?_⟩
  have hops : generateOperations onePow addOne = some [.linkUpsert .addLink ⟨0, 0, 1⟩ 0 0 [95]] := by decide +kernel
  rw [Option.some.inj (hgen.symm.trans hops)]
  decide +kernel

end WtBenchmarks.LinkBench
