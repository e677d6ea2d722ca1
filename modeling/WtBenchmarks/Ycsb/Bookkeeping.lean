/-
The bookkeeping of the YCSB generator (`generate_streams`, `src/ycsb/generator.rs`).

The loop of `generate_streams` is run beside the same loop without streams, which collects the operations in the order
in which they are drawn. The streams are those operations dealt in turn; the keys of the inserts among them count
upwards from `records`, and the key count at each turn is `records` and the inserts before it.

- `Counted`: what a turn of the collecting loop keeps;
- `loops_in_step`: both loops draw the same numbers;
- `generateStreams_bookkeeping`: the streams of an accepted configuration.
-/
import WtBenchmarks.Core.RoundRobin
import WtBenchmarks.Ycsb.Generator

namespace WtBenchmarks.Ycsb

open RoundRobin

variable {K : Type} [Field K] [LinearOrder K] [IsStrictOrderedRing K] {pow : ExactPow K}

/-! ## The operations in the order of the draws -/

/-- the loop's local variables, with one list for all streams -/
structure Drawing (pow : ExactPow K) where
  zipf : ZipfCdf pow
  keyCount : UInt64
  operations : List Operation

def drawTurn (config : Config K) (st : Drawing pow) (_ : ℕ) : Draw (Drawing pow) := do
  let zipf := st.zipf.ensure st.keyCount.toNat
  let next ← nextOperation config zipf st.keyCount
  pure ⟨zipf, next.1, st.operations ++ [next.2]⟩

/-- the generated sequence -/
def drawOperations (pow : ExactPow K) (config : Config K) : Draw (List Operation) := do
  let start : Drawing pow := ⟨ZipfCdf.new pow config.records.toNat config.zipfTheta, config.records, []⟩
  let st ← (List.range config.operations.toNat).foldlM (drawTurn config) start
  pure st.operations

/-! ## Keys and key counts -/

/-- every sampled key is below `records` and the inserts before it -/
def SampledBelow (records : ℕ) (ops : List Operation) : Prop :=
  ∀ i op key, ops[i]? = some op → op.sampledKey = some key →
    key.toNat < records + (insertKeys (ops.take i)).length

/-- the sequence after `n` turns, against its key count -/
structure Counted (config : Config K) (keyCount : UInt64) (ops : List Operation) : Prop where
  keyCount : keyCount.toNat = config.records.toNat + (insertKeys ops).length
  inserts : (insertKeys ops).map UInt64.toNat = List.range' config.records.toNat (insertKeys ops).length
  sampled : SampledBelow config.records.toNat ops

theorem insertKeys_concat (ops : List Operation) (op : Operation) :
    insertKeys (ops ++ [op]) = insertKeys ops ++ op.insertKey.toList := by
  rw [insertKeys_append]
  cases op <;> rfl

theorem insertKeys_length_le (ops : List Operation) : (insertKeys ops).length ≤ ops.length :=
  List.length_filterMap_le _ _

theorem SampledBelow.append {records : ℕ} {ops : List Operation} {op : Operation} (h : SampledBelow records ops)
    (hop : ∀ key, op.sampledKey = some key → key.toNat < records + (insertKeys ops).length) :
    SampledBelow records (ops ++ [op]) := by
  intro i op' key hi hkey
  rcases Nat.lt_trichotomy i ops.length with hlt | heq | hgt
  · rw [List.getElem?_append_left hlt] at hi
    rw [List.take_append_of_le_length hlt.le]
    exact h i op' key hi hkey
  · subst heq
    rw [List.getElem?_concat_length] at hi
    cases hi
    rw [List.take_left']
    · exact hop key hkey
    · rfl
  · rw [List.getElem?_eq_none (by simp; omega)] at hi
    cases hi

section Turn

variable {config : Config K} {keyCount : UInt64} {ops : List Operation}

omit [Field K] [LinearOrder K] [IsStrictOrderedRing K] in
theorem Counted.start (config : Config K) : Counted config config.records [] :=
  ⟨rfl, rfl, fun i op key hi => by simp at hi⟩

omit [Field K] [LinearOrder K] [IsStrictOrderedRing K] in
/-- **One operation more.** -/
theorem Counted.next (h : Counted config keyCount ops) {next : UInt64 × Operation}
    (hnext : NextFits config keyCount next) : Counted config next.1 (ops ++ [next.2]) := by
  have hsampled : SampledBelow config.records.toNat (ops ++ [next.2]) := by
    refine h.sampled.append fun key hkey => ?_
    rw [← h.keyCount]
    exact UInt64.lt_iff_toNat_lt.1 (hnext.sampled key hkey)
  rcases hnext.count with ⟨hsame, hnone⟩ | ⟨hmore, hkey⟩
  · have hkeys : insertKeys (ops ++ [next.2]) = insertKeys ops := by
      rw [insertKeys_concat, hnone, Option.toList_none, List.append_nil]
    refine ⟨?_, ?_, hsampled⟩
    · rw [hkeys, hsame, h.keyCount]
    · rw [hkeys, h.inserts]
  · have hkeys : insertKeys (ops ++ [next.2]) = insertKeys ops ++ [keyCount] := by
      rw [insertKeys_concat, hkey, Option.toList_some]
    refine ⟨?_, ?_, hsampled⟩
    · rw [hkeys, hmore, h.keyCount, List.length_append, List.length_singleton, Nat.add_assoc]
    · rw [hkeys, List.map_append, List.map_singleton, h.inserts, h.keyCount, List.length_append,
        List.length_singleton, List.range'_concat, Nat.one_mul]

end Turn

/-! ## The two loops -/

/-- the two loops after `n` turns -/
structure InStep (config : Config K) (n : ℕ) (st : Generating pow) (seq : Drawing pow) : Prop where
  zipf : seq.zipf = st.zipf
  keyCount : seq.keyCount = st.keyCount
  length : seq.operations.length = n
  dealt : Dealt config.threads seq.operations st.streams
  counted : Counted config seq.keyCount seq.operations

variable {config : Config K}

theorem InStep.start (pow : ExactPow K) (config : Config K) :
    InStep config 0
      (⟨ZipfCdf.new pow config.records.toNat config.zipfTheta, config.records,
        List.replicate config.threads []⟩ : Generating pow)
      ⟨ZipfCdf.new pow config.records.toNat config.zipfTheta, config.records, []⟩ :=
  ⟨rfl, rfl, rfl, Dealt.nil _, Counted.start config⟩

/-- **One turn of both loops.** -/
theorem turn_in_step (hacc : config.Accepted) {n : ℕ} (hn : n < config.operations.toNat) {st : Generating pow}
    {seq : Drawing pow} (h : InStep config n st seq) (rng : Rng) :
    ∃ st' seq' rng', (generateTurn config st n).run rng = some (st', rng') ∧
      (drawTurn config seq n).run rng = some (seq', rng') ∧ InStep config (n + 1) st' seq' := by
  have hrecords := hacc.records
  have hfits := hacc.fits
  have hcount := h.counted.keyCount
  have hkeys := insertKeys_length_le seq.operations
  rw [h.length] at hkeys
  rw [h.keyCount] at hcount
  obtain ⟨next, rng', hrun, hnext⟩ := nextOperation_fits hacc.scanMax (by omega) (by omega)
    (by rw [ZipfCdf.ensure_length]; omega : st.keyCount.toNat ≤ (st.zipf.ensure st.keyCount.toNat).cumulative.length)
    rng
  have hindex : n % config.threads < st.streams.length := by
    rw [h.dealt.count]
    exact Nat.mod_lt n hacc.threads
  have hpush : pushAt st.streams (n % config.threads) next.2 =
      some (st.streams.modify (n % config.threads) (· ++ [next.2])) := if_pos hindex
  refine ⟨⟨st.zipf.ensure st.keyCount.toNat, next.1, st.streams.modify (n % config.threads) (· ++ [next.2])⟩,
    ⟨st.zipf.ensure st.keyCount.toNat, next.1, seq.operations ++ [next.2]⟩, rng', ?_, ?_, rfl, rfl, ?_, ?_, ?_⟩
  · simp [generateTurn, StateT.run_bind, hrun, hpush]
  · simp [drawTurn, h.zipf, h.keyCount, hrun]
  · rw [List.length_append, List.length_singleton, h.length]
  · have hdealt := h.dealt.push next.2
    rwa [h.length] at hdealt
  · exact h.counted.next (h.keyCount ▸ hnext)

theorem loops_in_step (pow : ExactPow K) (hacc : config.Accepted) (rng : Rng) :
    ∃ (st : Generating pow) (seq : Drawing pow) (rng' : Rng),
      ((List.range config.operations.toNat).foldlM (generateTurn config)
        (⟨ZipfCdf.new pow config.records.toNat config.zipfTheta, config.records,
          List.replicate config.threads []⟩ : Generating pow)).run rng = some (st, rng') ∧
      ((List.range config.operations.toNat).foldlM (drawTurn config)
        (⟨ZipfCdf.new pow config.records.toNat config.zipfTheta, config.records, []⟩ : Drawing pow)).run rng =
        some (seq, rng') ∧
      InStep config config.operations.toNat st seq :=
  Total.range_both (R := InStep config) _ (fun _ _ _ rng hn h => turn_in_step hacc hn h rng) _ _ _
    (InStep.start pow config)

/-- the workload keeps the streams of the loop -/
theorem generateStreams_of_loop (T : Type) (hacc : config.Accepted) {rng rng' : Rng} {st : Generating pow}
    (h : ((List.range config.operations.toNat).foldlM (generateTurn config)
      (⟨ZipfCdf.new pow config.records.toNat config.zipfTheta, config.records,
        List.replicate config.threads []⟩ : Generating pow)).run rng = some (st, rng')) :
    ∃ gen, (generateStreams T pow config).run rng = some (gen, rng') ∧ gen.streams = st.streams := by
  by_cases hD : config.workload = .D
  · have hpos : 0 < config.records := UInt64.lt_iff_toNat_lt.2 hacc.records
    obtain ⟨ks, hks⟩ : ∃ ks : Keyspace T, Keyspace.new config.records = some ks := ⟨_, if_pos hpos⟩
    exact ⟨⟨st.streams, some ⟨ks, st.zipf.ensure st.keyCount.toNat⟩⟩, by simp [generateStreams, h, hD, hks], rfl⟩
  · exact ⟨⟨st.streams, none⟩, by simp [generateStreams, h, hD], rfl⟩

/-! ## The streams -/

/-- the streams against the generated sequence -/
structure Bookkept (config : Config K) (ops : List Operation) (streams : List (List Operation)) : Prop where
  length : ops.length = config.operations.toNat
  count : streams.length = config.threads
  lengths : ∀ stream ∈ streams, stream.length = config.operations.toNat / config.threads ∨
    stream.length = (config.operations.toNat + config.threads - 1) / config.threads
  merged : merge streams = ops
  inserts : (insertKeys ops).map UInt64.toNat = List.range' config.records.toNat (insertKeys ops).length
  increasing : ∀ stream ∈ streams, (insertKeys stream).Pairwise (· < ·)
  sampled : SampledBelow config.records.toNat ops

/-- keys that count upwards increase -/
theorem increasing_of_consecutive {keys : List UInt64} {first : ℕ}
    (h : keys.map UInt64.toNat = List.range' first keys.length) : keys.Pairwise (· < ·) := by
  have hmap : (keys.map UInt64.toNat).Pairwise (· < ·) := by
    rw [h]
    exact List.pairwise_lt_range'
  rw [List.pairwise_map] at hmap
  exact hmap.imp UInt64.lt_iff_toNat_lt.2

omit [Field K] [LinearOrder K] [IsStrictOrderedRing K] in
theorem bookkept_of_dealt (hthreads : 0 < config.threads) {ops : List Operation} {streams : List (List Operation)}
    {keyCount : UInt64} (hlength : ops.length = config.operations.toNat) (hdealt : Dealt config.threads ops streams)
    (hcounted : Counted config keyCount ops) : Bookkept config ops streams := by
  refine ⟨hlength, hdealt.count, fun stream hstream => ?_, hdealt.merge_eq hthreads, hcounted.inserts,
    fun stream hstream => ?_, hcounted.sampled⟩
  · obtain ⟨t, ht⟩ := List.mem_iff_getElem?.1 hstream
    rw [hdealt.stream_length ht, hlength]
    exact share_cases hthreads _ t
  · have hsub : (insertKeys stream).Sublist (insertKeys ops) := (hdealt.sublist hthreads hstream).filterMap _
    exact (increasing_of_consecutive hcounted.inserts).sublist hsub

/-- a small Workload E configuration with three threads -/
def smallConfig : Config ℝ := ⟨.E, 2, 5, 3, 1, 1, 42, 1, 4, 0, none⟩

/-- **Bookkeeping of the generator.** For every accepted configuration generation returns, and draws the same numbers as
the loop that collects the operations: the streams are those operations dealt in turn, the inserts among them number the
keys from `records` on, in each stream upwards, and what is sampled at a turn lies below the key count of that turn. -/
theorem generateStreams_bookkeeping (T : Type) (pow : ExactPow K) (config : Config K) (h : config.validate = .ok ()) :
    ∃ gen ops rng, (generateStreams T pow config).run (Rng.new config.seed) = some (gen, rng) ∧
      (drawOperations pow config).run (Rng.new config.seed) = some (ops, rng) ∧ Bookkept config ops gen.streams := by
  have hacc := Config.accepted_of_validate h
  obtain ⟨st, seq, rng, hst, hseq, hstep⟩ := loops_in_step pow hacc (Rng.new config.seed)
  have hbook := bookkept_of_dealt hacc.threads hstep.length hstep.dealt hstep.counted
  have hdraw : (drawOperations pow config).run (Rng.new config.seed) = some (seq.operations, rng) := by
    simp [drawOperations, hseq]
  obtain ⟨gen, hrun, hstreams⟩ := generateStreams_of_loop T hacc hst
  exact ⟨gen, seq.operations, rng, hrun, hdraw, hstreams ▸ hbook⟩

theorem generateStreams_bookkeeping_small :
    smallConfig.validate = .ok () ∧ ∃ gen ops rng,
      (generateStreams (Fin 2) realPow smallConfig).run (Rng.new smallConfig.seed) = some (gen, rng) ∧
      (drawOperations realPow smallConfig).run (Rng.new smallConfig.seed) = some (ops, rng) ∧
      Bookkept smallConfig ops gen.streams := by
  have hv : smallConfig.validate = .ok () := by
    simp [Config.validate, smallConfig, checkedAdd]
  exact ⟨hv, generateStreams_bookkeeping (Fin 2) realPow smallConfig hv⟩

end WtBenchmarks.Ycsb
