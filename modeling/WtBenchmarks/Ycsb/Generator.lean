/-
The YCSB workload generator (`generate_streams`, `sample_key`, `make_fields`, `src/ycsb/generator.rs`) and the key a
Workload D read resolves to (`AcknowledgedKeyspace::resolve`).

One pass draws the operations in order, numbers the inserts upwards from `records`, and deals the operations round
robin to the worker streams. Every panic of the source is a `none`: a sample outside the Zipf table, an underflow, a
modulo by zero, an overflow of the key count, a stream index out of range.

- `sampleKey_total`: a sampled key exists and is below the key count.
- `generateStreams_total`: for an accepted configuration generation never panics; `Generated` says what it returns.
- `resolve_le`: a read resolves, and to a key at or below the frontier.
-/
import WtBenchmarks.Rng
import WtBenchmarks.Core.Word
import WtBenchmarks.Ycsb.Config
import WtBenchmarks.Ycsb.Keyspace
import WtBenchmarks.Ycsb.Zipf

namespace WtBenchmarks.Ycsb

/-! ## Model -/

def fieldCount : ℕ := 10

/-- the ten payloads of a row, as bytes -/
abbrev Fields := Fin fieldCount → List UInt8

inductive OperationKind where
  | read | update | insert | scan | readModifyWrite
deriving DecidableEq, Repr

def OperationKind.all : List OperationKind := [.read, .update, .insert, .scan, .readModifyWrite]

inductive Operation where
  | read (key : UInt64)
  | readAcknowledged (sample : UInt64) (distribution : Distribution)
  | update (key : UInt64) (field : UInt8) (value : List UInt8)
  | insert (key : UInt64) (fields : Fields)
  | scan (start length : UInt64)
  | readModifyWrite (key : UInt64) (field : UInt8) (value : List UInt8)

def Operation.kind : Operation → OperationKind
  | .read _ | .readAcknowledged _ _ => .read
  | .update _ _ _ => .update
  | .insert _ _ => .insert
  | .scan _ _ => .scan
  | .readModifyWrite _ _ _ => .readModifyWrite

def makeValue (seed : UInt64) (length : ℕ) : List UInt8 := Rng.printable seed length

def makeFields (seed : UInt64) (fieldBytes : ℕ) : Fields :=
  fun index => makeValue (seed + UInt64.ofNat index * 0x9e3779b9) fieldBytes

section Generator

variable {K : Type} [Field K] [LinearOrder K] [IsStrictOrderedRing K] {pow : ExactPow K}

def sampleKey (zipf : ZipfCdf pow) (distribution : Distribution) (keyCount : UInt64) : Draw UInt64 :=
  match distribution with
  | .uniform => Rng.below keyCount
  | .zipfian => do
    let token ← Rng.nextU64
    let rank ← zipf.sampleToken token keyCount.toNat
    checkedMod (mix64 (UInt64.ofNat rank)) keyCount
  | .latest => do
    let newest ← checkedSub keyCount 1
    let token ← Rng.nextU64
    let rank ← zipf.sampleToken token keyCount.toNat
    checkedSub newest (UInt64.ofNat rank)

def read (zipf : ZipfCdf pow) (distribution : Distribution) (keyCount : UInt64) : Draw Operation := do
  let key ← sampleKey zipf distribution keyCount
  pure (.read key)

def update (zipf : ZipfCdf pow) (distribution : Distribution) (keyCount : UInt64) (fieldBytes : ℕ) :
    Draw Operation := do
  let key ← sampleKey zipf distribution keyCount
  let field ← Rng.below 10
  let value ← Rng.nextU64
  pure (.update key field.toUInt8 (makeValue value fieldBytes))

/-- the insert of Workloads D and E: the next key, and the key count after it -/
def insert (config : Config K) (keyCount : UInt64) : Draw (UInt64 × Operation) := do
  let next ← checkedAdd keyCount 1
  pure (next, .insert keyCount (makeFields (keyCount ^^^ config.seed) config.fieldBytes))

/-- the operation of one turn of the loop, and the key count after it -/
def nextOperation (config : Config K) (zipf : ZipfCdf pow) (keyCount : UInt64) : Draw (UInt64 × Operation) := do
  let distribution := config.distribution
  let choice ← Rng.below 10000
  match config.workload with
  | .A =>
    if choice < 5000 then (keyCount, ·) <$> read zipf distribution keyCount
    else (keyCount, ·) <$> update zipf distribution keyCount config.fieldBytes
  | .B =>
    if choice < 9500 then (keyCount, ·) <$> read zipf distribution keyCount
    else (keyCount, ·) <$> update zipf distribution keyCount config.fieldBytes
  | .C => (keyCount, ·) <$> read zipf distribution keyCount
  | .D =>
    if choice < 9500 then do
      let sample ← Rng.nextU64
      pure (keyCount, .readAcknowledged sample distribution)
    else insert config keyCount
  | .E =>
    if choice < 9500 then do
      let start ← sampleKey zipf distribution keyCount
      let length ← Rng.below config.scanMax
      let length ← checkedAdd 1 length
      pure (keyCount, .scan start length)
    else insert config keyCount
  | .F =>
    if choice < 5000 then (keyCount, ·) <$> read zipf distribution keyCount
    else do
      let key ← sampleKey zipf distribution keyCount
      let field ← Rng.below 10
      let value ← Rng.nextU64
      pure (keyCount, .readModifyWrite key field.toUInt8 (makeValue value config.fieldBytes))

/-- `streams[index].push(operation)` -/
def pushAt (streams : List (List Operation)) (index : ℕ) (operation : Operation) : Option (List (List Operation)) :=
  if index < streams.length then some (streams.modify index (· ++ [operation])) else none

/-- the local variables of `generate_streams` -/
structure Generating (pow : ExactPow K) where
  zipf : ZipfCdf pow
  keyCount : UInt64
  streams : List (List Operation)

def generateTurn (config : Config K) (st : Generating pow) (operationIndex : ℕ) : Draw (Generating pow) := do
  let zipf := st.zipf.ensure st.keyCount.toNat
  let next ← nextOperation config zipf st.keyCount
  let streams ← pushAt st.streams (operationIndex % config.threads) next.2
  pure ⟨zipf, next.1, streams⟩

/-- the keyspace of a Workload D run, with the table its reads sample from -/
structure AcknowledgedKeyspace (T : Type) (pow : ExactPow K) where
  ks : Keyspace T
  zipf : ZipfCdf pow

structure GeneratedWorkload (T : Type) (pow : ExactPow K) where
  streams : List (List Operation)
  acknowledged : Option (AcknowledgedKeyspace T pow)

def generateStreams (T : Type) (pow : ExactPow K) (config : Config K) : Draw (GeneratedWorkload T pow) := do
  let start : Generating pow :=
    ⟨ZipfCdf.new pow config.records.toNat config.zipfTheta, config.records, List.replicate config.threads []⟩
  let st ← (List.range config.operations.toNat).foldlM (generateTurn config) start
  let zipf := st.zipf.ensure st.keyCount.toNat
  if config.workload = .D then do
    let ks ← Keyspace.new config.records
    pure ⟨st.streams, some ⟨ks, zipf⟩⟩
  else pure ⟨st.streams, none⟩

/-- `AcknowledgedKeyspace::resolve` -/
def resolve {T : Type} (acknowledged : AcknowledgedKeyspace T pow) (sample : UInt64) (distribution : Distribution) :
    Option UInt64 := do
  let frontier := acknowledged.ks.frontier
  let keyCount ← checkedAdd frontier 1
  match distribution with
  | .uniform => some (Rng.mulHigh sample keyCount)
  | .zipfian => do
    let rank ← acknowledged.zipf.sampleToken sample keyCount.toNat
    checkedMod (mix64 (UInt64.ofNat rank)) keyCount
  | .latest => do
    let rank ← acknowledged.zipf.sampleToken sample keyCount.toNat
    checkedSub frontier (UInt64.ofNat rank)

/-! ## Sampling -/

theorem sampleToken_some (zipf : ZipfCdf pow) (keyCount token : UInt64) (h0 : 0 < keyCount.toNat)
    (hz : keyCount.toNat ≤ zipf.cumulative.length) :
    ∃ rank, zipf.sampleToken token keyCount.toNat = some rank ∧ rank < keyCount.toNat :=
  zipf.sampleToken_lt token _ h0 hz

/-- a scattered rank is a key below the count -/
theorem scatter_some (keyCount : UInt64) (rank : ℕ) (h0 : 0 < keyCount.toNat) :
    ∃ key, checkedMod (mix64 (UInt64.ofNat rank)) keyCount = some key ∧ key < keyCount := by
  obtain ⟨key, hkey, hv⟩ := checkedMod_some (a := mix64 (UInt64.ofNat rank)) h0
  exact ⟨key, hkey, by rw [UInt64.lt_iff_toNat_lt, hv]; exact Nat.mod_lt _ h0⟩

/-- counting a rank back from `newest` does not underflow -/
theorem latest_some (newest : UInt64) (rank : ℕ) (h : rank ≤ newest.toNat) :
    ∃ key, checkedSub newest (UInt64.ofNat rank) = some key ∧ key ≤ newest := by
  have hr : (UInt64.ofNat rank).toNat = rank := ofNat_toNat_of_lt (lt_of_le_of_lt h newest.toNat_lt)
  obtain ⟨key, hkey, hv⟩ := checkedSub_some (a := newest) (b := UInt64.ofNat rank) (by omega)
  exact ⟨key, hkey, by rw [UInt64.le_iff_toNat_le, hv]; omega⟩

/-- **A sampled key is below the key count**, for every distribution, and sampling never panics. -/
theorem sampleKey_total (zipf : ZipfCdf pow) (distribution : Distribution) (keyCount : UInt64)
    (h0 : 0 < keyCount.toNat) (hz : keyCount.toNat ≤ zipf.cumulative.length) :
    Total (fun key => key < keyCount) (sampleKey zipf distribution keyCount) := by
  cases distribution with
  | uniform => exact Rng.below_total keyCount (UInt64.lt_iff_toNat_lt.2 h0)
  | zipfian =>
    refine Rng.nextU64_total.bind fun token _ => ?_
    refine (Total.lift (sampleToken_some zipf keyCount token h0 hz)).bind fun rank _ => ?_
    exact Total.lift (scatter_some keyCount rank h0)
  | latest =>
    refine (Total.lift (checkedSub_some (b := 1) h0)).bind fun newest hn => ?_
    refine Rng.nextU64_total.bind fun token _ => ?_
    refine (Total.lift (sampleToken_some zipf keyCount token h0 hz)).bind fun rank hr => ?_
    rw [UInt64.toNat_one] at hn
    refine Total.lift ?_
    obtain ⟨key, hkey, hle⟩ := latest_some newest rank (by omega)
    exact ⟨key, hkey, by rw [UInt64.le_iff_toNat_le] at hle; rw [UInt64.lt_iff_toNat_lt]; omega⟩

/-- **A read resolves at or below the frontier.** Neither the table index nor the subtraction is out of range. -/
theorem resolve_le {T : Type} (acknowledged : AcknowledgedKeyspace T pow) (sample : UInt64)
    (distribution : Distribution) (hmax : acknowledged.ks.frontier.toNat + 1 < 2 ^ 64)
    (hz : acknowledged.ks.frontier.toNat + 1 ≤ acknowledged.zipf.cumulative.length) :
    ∃ key, resolve acknowledged sample distribution = some key ∧ key ≤ acknowledged.ks.frontier := by
  obtain ⟨keyCount, hcount, hv⟩ := checkedAdd_some (a := acknowledged.ks.frontier) (b := 1) hmax
  rw [UInt64.toNat_one] at hv
  have h0 : 0 < keyCount.toNat := by omega
  have below : ∀ key : UInt64, key < keyCount → key ≤ acknowledged.ks.frontier := by
    intro key hk; rw [UInt64.lt_iff_toNat_lt] at hk; rw [UInt64.le_iff_toNat_le]; omega
  obtain ⟨rank, hrank, hlt⟩ := sampleToken_some acknowledged.zipf keyCount sample h0 (by omega)
  cases distribution with
  | uniform =>
    refine ⟨Rng.mulHigh sample keyCount, by simp [resolve, hcount], below _ ?_⟩
    exact Rng.mulHigh_lt _ _ (UInt64.lt_iff_toNat_lt.2 h0)
  | zipfian =>
    obtain ⟨key, hkey, hk⟩ := scatter_some keyCount rank h0
    exact ⟨key, by simp [resolve, hcount, hrank, hkey], below key hk⟩
  | latest =>
    obtain ⟨key, hkey, hk⟩ := latest_some acknowledged.ks.frontier rank (by omega)
    exact ⟨key, by simp [resolve, hcount, hrank, hkey], hk⟩

/-! ## One generated operation -/

/-- the workloads whose mix has an insert -/
def Workload.Inserts (w : Workload) : Prop := w = .D ∨ w = .E

def Operation.insertKey : Operation → Option UInt64
  | .insert key _ => some key
  | _ => none

def insertKeys (stream : List Operation) : List UInt64 := stream.filterMap Operation.insertKey

theorem insertKeys_append (a b : List Operation) : insertKeys (a ++ b) = insertKeys a ++ insertKeys b :=
  List.filterMap_append

/-- what the run needs of an operation generated before the key count reached `n`: existing keys are read and updated,
inserts bring new ones -/
def OpOk (config : Config K) (n : UInt64) : Operation → Prop
  | .read key => key < config.records
  | .readAcknowledged _ _ => config.workload = .D
  | .update key field _ | .readModifyWrite key field _ => key < config.records ∧ field < 10
  | .insert key _ => config.records ≤ key ∧ key < n
  | .scan _ _ => True

omit [Field K] [LinearOrder K] [IsStrictOrderedRing K] in
theorem OpOk.mono {config : Config K} {n n' : UInt64} (h : n ≤ n') {op : Operation} (hop : OpOk config n op) :
    OpOk config n' op := by
  cases op with
  | insert key fields =>
    refine ⟨hop.1, ?_⟩
    have := hop.2
    rw [UInt64.lt_iff_toNat_lt] at this ⊢; rw [UInt64.le_iff_toNat_le] at h; omega
  | _ => exact hop

/-- one operation against the key count before it: an insert takes the next key, anything else leaves the count -/
def NextOk (config : Config K) (keyCount : UInt64) (next : UInt64 × Operation) : Prop :=
  OpOk config next.1 next.2 ∧
    (next.1 = keyCount ∧ next.2.insertKey = none ∨
      next.1.toNat = keyCount.toNat + 1 ∧ next.2.insertKey = some keyCount ∧ config.workload.Inserts)

theorem field_total : Total (fun field : UInt64 => field.toUInt8 < 10) (Rng.below 10 : Draw UInt64) := by
  refine (Rng.below_total 10 (by decide)).mono fun field h => ?_
  rw [UInt64.lt_iff_toNat_lt] at h
  rw [UInt8.lt_iff_toNat_lt, UInt64.toNat_toUInt8]
  have h10 : (10 : UInt64).toNat = 10 := rfl
  have h10' : (10 : UInt8).toNat = 10 := rfl
  omega

/-- the key or the scan start that was sampled for an operation -/
def Operation.sampledKey : Operation → Option UInt64
  | .read key | .update key _ _ | .readModifyWrite key _ _ => some key
  | .scan start _ => some start
  | .readAcknowledged _ _ | .insert _ _ => none

/-- an operation that fits its workload -/
def Suits (config : Config K) : Operation → Prop
  | .read _ => ¬ config.workload.Inserts
  | .readAcknowledged _ _ => config.workload = .D
  | .update _ field _ | .readModifyWrite _ field _ => ¬ config.workload.Inserts ∧ field < 10
  | .insert _ _ => config.workload.Inserts
  | .scan _ _ => True

/-- one operation against the key count before it: what was sampled is below the count, an insert takes the next key -/
structure NextFits (config : Config K) (keyCount : UInt64) (next : UInt64 × Operation) : Prop where
  suits : Suits config next.2
  sampled : ∀ key, next.2.sampledKey = some key → key < keyCount
  count : next.1 = keyCount ∧ next.2.insertKey = none ∨ next.1.toNat = keyCount.toNat + 1 ∧
    next.2.insertKey = some keyCount

omit [Field K] [LinearOrder K] [IsStrictOrderedRing K] in
/-- an operation with a sampled key -/
theorem NextFits.of_sampled {config : Config K} {keyCount key : UInt64} {op : Operation} (hsuits : Suits config op)
    (hkey : op.sampledKey = some key) (hlt : key < keyCount) : NextFits config keyCount (keyCount, op) := by
  refine ⟨hsuits, fun key' hkey' => ?_, Or.inl ⟨rfl, ?_⟩⟩
  · rw [hkey] at hkey'
    cases hkey'
    exact hlt
  · cases op <;> first | rfl | cases hkey

variable {config : Config K} {zipf : ZipfCdf pow} {keyCount : UInt64}

theorem read_total (h0 : 0 < keyCount.toNat) (hz : keyCount.toNat ≤ zipf.cumulative.length)
    (hw : ¬ config.workload.Inserts) :
    Total (NextFits config keyCount) ((keyCount, ·) <$> read zipf config.distribution keyCount) := by
  refine Total.map (P := NextFits config keyCount ∘ (keyCount, ·)) ?_ fun _ h => h
  exact (sampleKey_total zipf _ keyCount h0 hz).bind fun key hk => Total.pure (NextFits.of_sampled hw rfl hk)

theorem update_total (h0 : 0 < keyCount.toNat) (hz : keyCount.toNat ≤ zipf.cumulative.length)
    (hw : ¬ config.workload.Inserts) :
    Total (NextFits config keyCount)
      ((keyCount, ·) <$> update zipf config.distribution keyCount config.fieldBytes) := by
  refine Total.map (P := NextFits config keyCount ∘ (keyCount, ·)) ?_ fun _ h => h
  refine (sampleKey_total zipf _ keyCount h0 hz).bind fun key hk => ?_
  refine field_total.bind fun field hf => Rng.nextU64_total.bind fun _ _ => Total.pure ?_
  exact NextFits.of_sampled ⟨hw, hf⟩ rfl hk

omit [Field K] [LinearOrder K] [IsStrictOrderedRing K] in
theorem insert_total (hw : config.workload.Inserts) (hfit : keyCount.toNat + 1 < 2 ^ 64) :
    Total (NextFits config keyCount) (insert config keyCount) := by
  refine (Total.lift (checkedAdd_some (b := 1) hfit)).bind fun next hn => Total.pure ?_
  rw [UInt64.toNat_one] at hn
  exact ⟨hw, nofun, Or.inr ⟨hn, rfl⟩⟩

/-- **One turn of the generator.** It never panics and its operation fits the key count. -/
theorem nextOperation_fits (hscan : 0 < config.scanMax) (h0 : 0 < keyCount.toNat)
    (hfit : keyCount.toNat + 1 < 2 ^ 64) (hz : keyCount.toNat ≤ zipf.cumulative.length) :
    Total (NextFits config keyCount) (nextOperation config zipf keyCount) := by
  unfold nextOperation
  refine (Rng.below_total 10000 (by decide)).bind fun choice _ => ?_
  split
  · rename_i h
    have hw : ¬ config.workload.Inserts := by simp [Workload.Inserts, h]
    split_ifs
    · exact read_total h0 hz hw
    · exact update_total h0 hz hw
  · rename_i h
    have hw : ¬ config.workload.Inserts := by simp [Workload.Inserts, h]
    split_ifs
    · exact read_total h0 hz hw
    · exact update_total h0 hz hw
  · rename_i h
    exact read_total h0 hz (by simp [Workload.Inserts, h])
  · rename_i h
    split_ifs
    · exact Rng.nextU64_total.bind fun _ _ => Total.pure ⟨h, nofun, Or.inl ⟨rfl, rfl⟩⟩
    · exact insert_total (Or.inl h) hfit
  · rename_i h
    split_ifs
    · refine (sampleKey_total zipf _ keyCount h0 hz).bind fun start hstart => ?_
      refine (Rng.below_total config.scanMax hscan).bind fun length hl => ?_
      refine (Total.lift (checkedAdd_some ?_)).bind fun _ _ => Total.pure (NextFits.of_sampled trivial rfl hstart)
      have := config.scanMax.toNat_lt
      rw [UInt64.lt_iff_toNat_lt] at hl
      rw [UInt64.toNat_one]; omega
    · exact insert_total (Or.inr h) hfit
  · rename_i h
    have hw : ¬ config.workload.Inserts := by simp [Workload.Inserts, h]
    split_ifs
    · exact read_total h0 hz hw
    · refine (sampleKey_total zipf _ keyCount h0 hz).bind fun key hk => ?_
      refine field_total.bind fun field hf => Rng.nextU64_total.bind fun _ _ => Total.pure ?_
      exact NextFits.of_sampled ⟨hw, hf⟩ rfl hk

omit [Field K] [LinearOrder K] [IsStrictOrderedRing K] in
/-- what fits the key count fits the table -/
theorem NextFits.ok {next : UInt64 × Operation} (h : NextFits config keyCount next) (hle : config.records ≤ keyCount)
    (hw : ¬ config.workload.Inserts → keyCount = config.records) : NextOk config keyCount next := by
  obtain ⟨hsuits, hsampled, hcount⟩ := h
  obtain ⟨count, op⟩ := next
  have hbelow : ∀ key, ¬ config.workload.Inserts → op.sampledKey = some key → key < config.records := by
    intro key hnone hkey
    rw [← hw hnone]
    exact hsampled key hkey
  cases op with
  | read key => exact ⟨hbelow key hsuits rfl, hcount.imp id nofun⟩
  | readAcknowledged => exact ⟨hsuits, hcount.imp id nofun⟩
  | update key => exact ⟨⟨hbelow key hsuits.1 rfl, hsuits.2⟩, hcount.imp id nofun⟩
  | readModifyWrite key => exact ⟨⟨hbelow key hsuits.1 rfl, hsuits.2⟩, hcount.imp id nofun⟩
  | scan => exact ⟨trivial, hcount.imp id nofun⟩
  | insert key fields =>
    rcases hcount with ⟨-, hnone⟩ | ⟨hnext, hkey⟩
    · cases hnone
    · cases hkey
      refine ⟨⟨hle, ?_⟩, Or.inr ⟨hnext, rfl, hsuits⟩⟩
      rw [UInt64.lt_iff_toNat_lt]
      exact hnext ▸ Nat.lt_succ_self _

theorem nextOperation_total (hacc : config.Accepted) (hle : config.records ≤ keyCount)
    (hw : ¬ config.workload.Inserts → keyCount = config.records) (hfit : keyCount.toNat + 1 < 2 ^ 64)
    (hz : keyCount.toNat ≤ zipf.cumulative.length) :
    Total (NextOk config keyCount) (nextOperation config zipf keyCount) := by
  have h0 : 0 < keyCount.toNat := by
    have hrecords := hacc.records
    rw [UInt64.le_iff_toNat_le] at hle
    omega
  exact (nextOperation_fits hacc.scanMax h0 hfit hz).mono fun next h => h.ok hle hw

/-! ## Dealing the operations -/

omit [Field K] [LinearOrder K] [IsStrictOrderedRing K] in
/-- dealing an operation to one stream adds it once, and leaves the number of streams alone -/
theorem pushAt_some {streams : List (List Operation)} {index : ℕ} (op : Operation) (h : index < streams.length) :
    ∃ streams', pushAt streams index op = some streams' ∧ streams'.length = streams.length ∧
      streams'.flatten.Perm (op :: streams.flatten) := by
  refine ⟨_, if_pos h, List.length_modify _ _ _, ?_⟩
  induction streams generalizing index with
  | nil => exact absurd h (by simp)
  | cons stream streams ih =>
    cases index with
    | zero =>
      simp only [List.modify_zero_cons, List.flatten_cons, List.append_assoc, List.singleton_append]
      exact List.perm_middle
    | succ index =>
      simp only [List.modify_succ_cons, List.flatten_cons]
      calc stream ++ (streams.modify index (· ++ [op])).flatten
          |>.Perm (stream ++ op :: streams.flatten) := (ih (by simpa using h)).append_left stream
        _ |>.Perm (op :: (stream ++ streams.flatten)) := List.perm_middle

/-- the state of the loop after `n` turns -/
structure GeneratingInv (config : Config K) (n : ℕ) (st : Generating pow) : Prop where
  count : st.streams.length = config.threads
  total : st.streams.flatten.length = n
  base : config.records ≤ st.keyCount
  fit : st.keyCount.toNat ≤ config.records.toNat + n
  noInserts : ¬ config.workload.Inserts → st.keyCount = config.records
  ops : ∀ op ∈ st.streams.flatten, OpOk config st.keyCount op
  fresh : (insertKeys st.streams.flatten).Nodup

omit [Field K] [LinearOrder K] [IsStrictOrderedRing K] in
theorem insertKeys_lt {n : UInt64} {ops : List Operation} (h : ∀ op ∈ ops, OpOk config n op) :
    ∀ k ∈ insertKeys ops, config.records ≤ k ∧ k < n := by
  intro k hk
  obtain ⟨op, hop, hkey⟩ := List.mem_filterMap.1 hk
  cases op with
  | insert key fields => cases hkey; exact h _ hop
  | _ => cases hkey

theorem generateTurn_total (hacc : config.Accepted) {n : ℕ} (hn : n < config.operations.toNat) {st : Generating pow}
    (h : GeneratingInv config n st) : Total (GeneratingInv config (n + 1)) (generateTurn config st n) := by
  have hfits := hacc.fits
  have hfit := h.fit
  unfold generateTurn
  refine (nextOperation_total hacc h.base h.noInserts (by omega)
    (by rw [ZipfCdf.ensure_length]; omega)).bind fun next hnext => ?_
  have hidx : n % config.threads < st.streams.length := by rw [h.count]; exact Nat.mod_lt _ hacc.threads
  refine (Total.lift (pushAt_some next.2 hidx)).bind fun streams hs => Total.pure ?_
  obtain ⟨hcount, hperm⟩ := hs
  obtain ⟨hop, hkey⟩ := hnext
  have hgrow : st.keyCount ≤ next.1 := by
    rw [UInt64.le_iff_toNat_le]
    rcases hkey with ⟨he, -⟩ | ⟨he, -, -⟩
    · rw [he]
    · omega
  refine ⟨hcount.trans h.count, ?_, UInt64.le_trans h.base hgrow, ?_, ?_, ?_, ?_⟩
  · rw [hperm.length_eq, List.length_cons, h.total]
  · rcases hkey with ⟨he, -⟩ | ⟨he, -, -⟩
    · show next.1.toNat ≤ _
      rw [he]; omega
    · show next.1.toNat ≤ _
      omega
  · intro hni
    rcases hkey with ⟨he, -⟩ | ⟨-, -, hi⟩
    · exact he.trans (h.noInserts hni)
    · exact absurd hi hni
  · intro op hmem
    rcases List.mem_cons.1 (hperm.mem_iff.1 hmem) with rfl | hmem
    · exact hop
    · exact (h.ops op hmem).mono hgrow
  · have hnodup : (insertKeys (next.2 :: st.streams.flatten)).Nodup := by
      rcases hkey with ⟨-, hk⟩ | ⟨-, hk, -⟩
      · rw [insertKeys, List.filterMap_cons_none hk]; exact h.fresh
      · rw [insertKeys, List.filterMap_cons_some hk]
        refine List.nodup_cons.2 ⟨fun hmem => ?_, h.fresh⟩
        have := (insertKeys_lt h.ops _ hmem).2
        rw [UInt64.lt_iff_toNat_lt] at this; omega
    exact ((hperm.filterMap _).nodup_iff).2 hnodup

/-! ## The whole workload -/

/-- what generation returns: all operations, dealt to one stream per thread, every one fit for a table that holds the
initial records and gains the inserted keys, which are new and pairwise different -/
structure Generated {T : Type} (config : Config K) (n : UInt64) (gen : GeneratedWorkload T pow) : Prop where
  count : gen.streams.length = config.threads
  total : gen.streams.flatten.length = config.operations.toNat
  base : config.records ≤ n
  ops : ∀ op ∈ gen.streams.flatten, OpOk config n op
  fresh : (insertKeys gen.streams.flatten).Nodup
  keyspace : ∀ ak, gen.acknowledged = some ak →
    Keyspace.new config.records = some ak.ks ∧ n.toNat ≤ ak.zipf.cumulative.length
  isSome : config.workload = .D → gen.acknowledged.isSome

/-- the loop starts with empty streams -/
theorem generating_start (pow : ExactPow K) (config : Config K) :
    GeneratingInv config 0 (⟨ZipfCdf.new pow config.records.toNat config.zipfTheta, config.records,
      List.replicate config.threads []⟩ : Generating pow) :=
  ⟨by simp, by simp, UInt64.le_refl _, by simp, fun _ => rfl, by simp, by simp [insertKeys]⟩

theorem generateStreams_total (T : Type) (pow : ExactPow K) {config : Config K} (hacc : config.Accepted) :
    Total (fun gen => ∃ n, Generated config n gen) (generateStreams T pow config) := by
  unfold generateStreams
  refine (Total.range _ (fun n st hn hst => generateTurn_total hacc hn hst) _ (generating_start pow config)).bind
    fun st hst => ?_
  have hz : st.keyCount.toNat ≤ (st.zipf.ensure st.keyCount.toNat).cumulative.length := by
    rw [ZipfCdf.ensure_length]; exact le_max_right _ _
  split_ifs with hD
  · have hpos : 0 < config.records := UInt64.lt_iff_toNat_lt.2 hacc.records
    refine (Total.lift (P := fun ks => Keyspace.new config.records = some ks) ⟨_, if_pos hpos, if_pos hpos⟩).bind
      fun ks hks => Total.pure ⟨st.keyCount, hst.count, hst.total, hst.base, hst.ops, hst.fresh, ?_, fun _ => rfl⟩
    rintro ak ⟨⟩
    exact ⟨hks, hz⟩
  · exact Total.pure ⟨st.keyCount, hst.count, hst.total, hst.base, hst.ops, hst.fresh, by simp, fun h => absurd h hD⟩

end Generator

end WtBenchmarks.Ycsb
