/-
The load phase of the TATP runner: random subsets without repetition, and the rows inserted under them.

A load draws from one generator in the source's order and panics (`none`) where an insert is refused. `Loading` says
which keys the tables hold while the load runs; every insert it makes is under a key that is still free, because a
random subset has no repetitions and the packed keys determine their parts.

- `randomSubset_samples`: a random subset never panics, lists as many distinct members of its source as it is asked for,
  and draws once more than that;
- `load_total`: the load never panics, and the tables it leaves satisfy `Loaded`.
-/
import WtBenchmarks.Rng
import WtBenchmarks.Tatp.Tables

namespace WtBenchmarks.Tatp

open Rng (below nextU64 Counted)

/-! ## The loader -/

/-- `values.swap(i, j)` -/
def swap (values : Array UInt8) (i j : ℕ) : Option (Array UInt8) :=
  if h : i < values.size ∧ j < values.size then some (values.swap i j h.1 h.2) else none

def randomSubset (source : List UInt8) (minimum maximum : ℕ) : Draw (List UInt8) := do
  let extra ← below (UInt64.ofNat (maximum - minimum + 1))
  let length := minimum + extra.toNat
  let values ← (List.range length).foldlM (fun (values : Array UInt8) index => do
    let offset ← below (UInt64.ofNat (values.size - index))
    liftM (swap values index (index + offset.toNat))) source.toArray
  pure (values.toList.take length)

def alphaString (length : ℕ) : Draw String := do
  let letters ← (List.range length).mapM fun _ => below 26
  pure (String.ofList (letters.map fun b => Char.ofUInt8 (65 + b.toUInt8)))

def numericString (length : ℕ) : Draw String := do
  let digits ← (List.range length).mapM fun _ => below 10
  pure (String.ofList (digits.map fun b => Char.ofUInt8 (48 + b.toUInt8)))

structure LoadCounts where
  subscribers : ℕ
  accessInfo : ℕ
  specialFacilities : ℕ
  callForwarding : ℕ
deriving DecidableEq, Repr

abbrev Progress := Tables × LoadCounts

def drawSubscriber (sId : UInt64) : Draw SubscriberRow := do
  let bit1 ← below 2
  let bitRest ← (List.range 9).mapM fun _ => below 2
  let hexValues ← (List.range 10).mapM fun _ => below 16
  let byte2Values ← (List.range 10).mapM fun _ => below 256
  let mscLocation ← nextU64
  let vlrLocation ← nextU64
  pure ⟨sId, subscriberNumber sId, bit1.toUInt8, bitRest.map (·.toUInt8), hexValues.map (·.toUInt8),
    byte2Values.map (·.toUInt16), mscLocation.toUInt32, vlrLocation.toUInt32⟩

def drawAccessInfo (sId : UInt64) (aiType : UInt8) : Draw AccessInfoRow := do
  let data1 ← below 256
  let data2 ← below 256
  let data3 ← alphaString 3
  let data4 ← alphaString 5
  pure ⟨facilityKey sId aiType, sId, aiType, data1.toUInt16, data2.toUInt16, data3, data4⟩

def drawFacility (sId : UInt64) (sfType : UInt8) : Draw SpecialFacilityRow := do
  let active ← below 100
  let errorControl ← below 256
  let dataA ← below 256
  let dataB ← alphaString 5
  pure ⟨facilityKey sId sfType, sId, sfType, if active < 85 then 1 else 0, errorControl.toUInt16, dataA.toUInt16, dataB⟩

def drawForwarding (sId : UInt64) (sfType startTime : UInt8) : Draw CallForwardingRow := do
  let length ← below 8
  let numberx ← numericString 15
  pure ⟨callForwardingKey sId sfType startTime, sId, sfType, startTime, facilityKey sId sfType,
    startTime + 1 + length.toUInt8, numberx⟩

def insertSubscriber (p : Progress) (row : SubscriberRow) : Option Progress := do
  let subscribers ← p.1.subscribers.insert row.sId row
  some ({ p.1 with subscribers }, { p.2 with subscribers := p.2.subscribers + 1 })

def insertAccessInfo (p : Progress) (row : AccessInfoRow) : Option Progress :=
  if row.id ∈ p.1.accessInfo then none
  else some ({ p.1 with accessInfo := p.1.accessInfo.insert row.id row },
    { p.2 with accessInfo := p.2.accessInfo + 1 })

def insertFacility (p : Progress) (row : SpecialFacilityRow) : Option Progress :=
  if row.id ∈ p.1.specialFacilities then none
  else some ({ p.1 with specialFacilities := p.1.specialFacilities.insert row.id row },
    { p.2 with specialFacilities := p.2.specialFacilities + 1 })

def insertForwarding (p : Progress) (row : CallForwardingRow) : Option Progress :=
  if h : row.id ∈ p.1.callForwarding.rows then none
  else some ({ p.1 with callForwarding := p.1.callForwarding.insertNew row.id row h },
    { p.2 with callForwarding := p.2.callForwarding + 1 })

/-- one turn of the loop over the subscribers -/
def loadSubscriber (p : Progress) (sId : UInt64) : Draw Progress := do
  let row ← drawSubscriber sId
  let p ← liftM (insertSubscriber p row)
  let aiTypes ← randomSubset [1, 2, 3, 4] 1 4
  let p ← aiTypes.foldlM (fun p aiType => do
    let row ← drawAccessInfo sId aiType
    liftM (insertAccessInfo p row)) p
  let sfTypes ← randomSubset [1, 2, 3, 4] 1 4
  sfTypes.foldlM (fun p sfType => do
    let row ← drawFacility sId sfType
    let p ← liftM (insertFacility p row)
    let startTimes ← randomSubset [0, 8, 16] 0 3
    startTimes.foldlM (fun p startTime => do
      let row ← drawForwarding sId sfType startTime
      liftM (insertForwarding p row)) p) p

def load (config : Config) : Option Progress :=
  (((List.range config.subscribers.toNat).foldlM (fun p i => loadSubscriber p (UInt64.ofNat (i + 1)))
    (Tables.default, ⟨0, 0, 0, 0⟩)).run (Rng.new (config.seed ^^^ 0x74617470))).map Prod.fst

/-! ## Random subsets -/

theorem below_lt {n : ℕ} (hpos : 0 < n) (hn : n < 2 ^ 64) :
    Counted (fun x d => x.toNat < n ∧ d = 1) (below (UInt64.ofNat n) : Draw UInt64) := by
  have hvalue := ofNat_toNat_of_lt hn
  have hbound : 0 < UInt64.ofNat n := by
    rw [UInt64.lt_iff_toNat_lt, hvalue]
    exact hpos
  refine (Counted.below hbound).mono fun x d hx => ?_
  rwa [UInt64.lt_iff_toNat_lt, hvalue] at hx

/-- a list of different bytes is short -/
theorem length_le_of_nodup {source : List UInt8} (h : source.Nodup) : source.length ≤ 256 := by
  have hvalues : (source.map UInt8.toNat).Nodup := h.map fun _ _ heq => UInt8.toNat_inj.1 heq
  have hsub : source.map UInt8.toNat ⊆ List.range 256 := by
    intro n hn
    obtain ⟨b, -, rfl⟩ := List.mem_map.1 hn
    exact List.mem_range.2 b.toNat_lt
  have hle := (List.Nodup.subperm hvalues hsub).length_le
  rwa [List.length_map, List.length_range] at hle

/-- **The loop of swaps.** Every turn draws once, stays within the array and permutes it. -/
theorem swaps_counted {source : List UInt8} {length : ℕ} (hlength : length ≤ source.length)
    (hsmall : source.length ≤ 256) :
    Counted (fun values d => values.toList.Perm source ∧ d = length * 1)
      ((List.range length).foldlM (fun (values : Array UInt8) index => do
        let offset ← below (UInt64.ofNat (values.size - index))
        liftM (swap values index (index + offset.toNat))) source.toArray : Draw (Array UInt8)) := by
  refine Counted.range (I := fun _ (values : Array UInt8) => values.toList.Perm source) 1 length
    (fun index values hindex hperm => ?_) _ (List.Perm.refl _)
  have hsize : values.size = source.length := by
    rw [← Array.length_toList, hperm.length_eq]
  refine (below_lt (by omega) (by omega)).bind fun offset d hoffset => Counted.lift ?_
  obtain ⟨hoffset, rfl⟩ := hoffset
  have hin : index < values.size ∧ index + offset.toNat < values.size := by omega
  refine ⟨values.swap index (index + offset.toNat) hin.1 hin.2, dif_pos hin, ?_, rfl⟩
  exact (Array.perm_iff_toList_perm.1 (Array.swap_perm hin.1 hin.2)).trans hperm

theorem randomSubset_counted {source : List UInt8} {minimum maximum : ℕ} (hnodup : source.Nodup)
    (hmin : minimum ≤ maximum) (hmax : maximum ≤ source.length) :
    Counted (fun values d => (values.Nodup ∧ ∀ x ∈ values, x ∈ source) ∧
      (minimum ≤ values.length ∧ values.length ≤ maximum) ∧ d = values.length + 1)
      (randomSubset source minimum maximum) := by
  have hsmall := length_le_of_nodup hnodup
  refine (below_lt (Nat.succ_pos _) (by omega)).bind fun extra d hextra => ?_
  obtain ⟨hextra, rfl⟩ := hextra
  have hlength : minimum + extra.toNat ≤ source.length := by omega
  refine (swaps_counted hlength hsmall).bind fun values d hvalues => Counted.pure ?_
  obtain ⟨hperm, rfl⟩ := hvalues
  have hnodup' := hperm.nodup_iff.2 hnodup
  have htake : (values.toList.take (minimum + extra.toNat)).length = minimum + extra.toNat := by
    rw [List.length_take, hperm.length_eq]
    exact min_eq_left hlength
  refine ⟨⟨hnodup'.sublist (List.take_sublist _ _), fun x hx => hperm.mem_iff.1 (List.mem_of_mem_take hx)⟩, ?_, ?_⟩
  · rw [htake]
    omega
  · rw [htake]
    omega

/-- **Sampling without replacement.** From every generator and every list without repetitions, a random subset never
indexes out of range; it has different members of the list, a number of them that is within its bounds, and one more
draw than that advances the generator. -/
theorem randomSubset_samples (rng : Rng) (source : List UInt8) (minimum maximum : ℕ) (hnodup : source.Nodup)
    (hmin : minimum ≤ maximum) (hmax : maximum ≤ source.length) :
    ∃ values, (randomSubset source minimum maximum).run rng = some (values, rng.advance (values.length + 1)) ∧
      values.Nodup ∧ (∀ x ∈ values, x ∈ source) ∧ minimum ≤ values.length ∧ values.length ≤ maximum := by
  obtain ⟨values, d, hrun, ⟨hnodup', hmem⟩, ⟨hlow, hhigh⟩, rfl⟩ := randomSubset_counted hnodup hmin hmax rng
  exact ⟨values, hrun, hnodup', hmem, hlow, hhigh⟩

theorem randomSubset_samples_types : ∃ values, (randomSubset [1, 2, 3, 4] 1 4).run (Rng.new 7) =
    some (values, (Rng.new 7).advance (values.length + 1)) ∧ values.Nodup := by
  obtain ⟨values, hrun, hnodup, -⟩ :=
    randomSubset_samples (Rng.new 7) [1, 2, 3, 4] 1 4 (by decide) (by decide) (by decide)
  exact ⟨values, hrun, hnodup⟩

theorem randomSubset_total {source : List UInt8} {minimum maximum : ℕ} (hnodup : source.Nodup)
    (hmin : minimum ≤ maximum) (hmax : maximum ≤ source.length) :
    Total (fun values => values.Nodup ∧ ∀ x ∈ values, x ∈ source) (randomSubset source minimum maximum) :=
  (randomSubset_counted hnodup hmin hmax).total fun _ _ h => h.1

/-! ## Rows -/

theorem below_draws {upper : UInt64} (h : 0 < upper) (n : ℕ) :
    Total (fun _ => True) ((List.range n).mapM fun _ => (below upper : Draw UInt64)) :=
  (Total.mapM _ fun _ _ => Rng.below_total upper h).mono fun _ _ => trivial

theorem alphaString_total (length : ℕ) : Total (fun _ => True) (alphaString length) :=
  (below_draws (by decide) length).bind fun _ _ => Total.pure trivial

theorem numericString_total (length : ℕ) : Total (fun _ => True) (numericString length) :=
  (below_draws (by decide) length).bind fun _ _ => Total.pure trivial

theorem drawSubscriber_total (sId : UInt64) :
    Total (fun row => row.sId = sId ∧ row.subNbr = subscriberNumber sId) (drawSubscriber sId) := by
  unfold drawSubscriber
  refine (Rng.below_total 2 (by decide)).bind fun _ _ => ?_
  refine (below_draws (by decide) 9).bind fun _ _ => ?_
  refine (below_draws (by decide) 10).bind fun _ _ => ?_
  refine (below_draws (by decide) 10).bind fun _ _ => ?_
  refine Rng.nextU64_total.bind fun _ _ => ?_
  refine Rng.nextU64_total.bind fun _ _ => ?_
  exact Total.pure ⟨rfl, rfl⟩

theorem drawAccessInfo_total (sId : UInt64) (aiType : UInt8) :
    Total (fun row => row.id = facilityKey sId aiType) (drawAccessInfo sId aiType) := by
  unfold drawAccessInfo
  refine (Rng.below_total 256 (by decide)).bind fun _ _ => ?_
  refine (Rng.below_total 256 (by decide)).bind fun _ _ => ?_
  refine (alphaString_total 3).bind fun _ _ => ?_
  refine (alphaString_total 5).bind fun _ _ => ?_
  exact Total.pure rfl

theorem drawFacility_total (sId : UInt64) (sfType : UInt8) :
    Total (fun row => row.id = facilityKey sId sfType ∧ row.sId = sId ∧ row.sfType = sfType)
      (drawFacility sId sfType) := by
  unfold drawFacility
  refine (Rng.below_total 100 (by decide)).bind fun _ _ => ?_
  refine (Rng.below_total 256 (by decide)).bind fun _ _ => ?_
  refine (Rng.below_total 256 (by decide)).bind fun _ _ => ?_
  refine (alphaString_total 5).bind fun _ _ => ?_
  exact Total.pure ⟨rfl, rfl, rfl⟩

theorem drawForwarding_total (sId : UInt64) (sfType startTime : UInt8) :
    Total (fun row => row.id = callForwardingKey sId sfType startTime ∧ row.facility = facilityKey sId sfType ∧
      row.sId = sId ∧ row.sfType = sfType ∧ row.startTime = startTime) (drawForwarding sId sfType startTime) := by
  unfold drawForwarding
  refine (Rng.below_total 8 (by decide)).bind fun _ _ => ?_
  refine (numericString_total 15).bind fun _ _ => ?_
  exact Total.pure ⟨rfl, rfl, rfl, rfl, rfl⟩

/-! ## What the tables hold -/

/-- a facility row is stored under its packed key -/
structure FacilityRow (k : Key) (row : SpecialFacilityRow) : Prop where
  id : row.id = k
  packed : k = facilityKey row.sId row.sfType

/-- a call-forwarding row is stored under its packed key and names its facility -/
structure ForwardingRow (k : Key) (row : CallForwardingRow) : Prop where
  id : row.id = k
  packed : k = callForwardingKey row.sId row.sfType row.startTime
  facility : row.facility = facilityKey row.sId row.sfType

/-- the tables while they are loaded: the subscribers `1..=n` are in, and access-info rows, facilities and forwardings
only for the arguments in `access`, `facility` and `forwarding` -/
structure Loading (n : ℕ) (access facility : UInt64 → UInt8 → Prop) (forwarding : UInt64 → UInt8 → UInt8 → Prop)
    (p : Progress) : Prop where
  subscriberKeys : ∀ k : UInt64, k ∈ p.1.subscribers.rows ↔ 1 ≤ k.toNat ∧ k.toNat ≤ n
  subscribers : ∀ (k : UInt64) row, p.1.subscribers.rows[k]? = some row →
    row.sId = k ∧ row.subNbr = subscriberNumber k
  accessInfo : ∀ k ∈ p.1.accessInfo, ∃ s t, access s t ∧ k = facilityKey s t
  facilities : ∀ (k : Key) row, p.1.specialFacilities[k]? = some row → FacilityRow k row ∧ facility row.sId row.sfType
  forwardings : ∀ (k : Key) row, p.1.callForwarding.rows[k]? = some row →
    ForwardingRow k row ∧ row.facility ∈ p.1.specialFacilities ∧ forwarding row.sId row.sfType row.startTime
  counts : p.2 = ⟨p.1.subscribers.rows.size, p.1.accessInfo.size, p.1.specialFacilities.size,
    p.1.callForwarding.rows.size⟩

namespace Loading

variable {n : ℕ} {A F A' F' : UInt64 → UInt8 → Prop} {C C' : UInt64 → UInt8 → UInt8 → Prop} {p : Progress}

theorem mono (hA : ∀ s t, A s t → A' s t) (hF : ∀ s t, F s t → F' s t) (hC : ∀ s t u, C s t u → C' s t u)
    (h : Loading n A F C p) : Loading n A' F' C' p where
  subscriberKeys := h.subscriberKeys
  subscribers := h.subscribers
  accessInfo k hk := by
    obtain ⟨s, t, hst, heq⟩ := h.accessInfo k hk
    exact ⟨s, t, hA s t hst, heq⟩
  facilities k row hk := ⟨(h.facilities k row hk).1, hF _ _ (h.facilities k row hk).2⟩
  forwardings k row hk :=
    ⟨(h.forwardings k row hk).1, (h.forwardings k row hk).2.1, hC _ _ _ (h.forwardings k row hk).2.2⟩
  counts := h.counts

theorem default : Loading 0 A F C (Tables.default, ⟨0, 0, 0, 0⟩) where
  subscriberKeys k := by
    simp only [Tables.default, UniqueTable.empty, Std.ExtTreeMap.not_mem_empty, false_iff]
    omega
  subscribers k row hk := by simp [Tables.default, UniqueTable.empty] at hk
  accessInfo k hk := by simp [Tables.default] at hk
  facilities k row hk := by simp [Tables.default] at hk
  forwardings k row hk := by simp [Tables.default, GroupTable.empty] at hk
  counts := rfl

/-- the next subscriber -/
theorem insertSubscriber (h : Loading n A F C p) (hn : n + 1 < 2 ^ 64) {row : SubscriberRow}
    (hid : row.sId = UInt64.ofNat (n + 1)) (hnbr : row.subNbr = subscriberNumber row.sId) :
    ∃ p', Tatp.insertSubscriber p row = some p' ∧ Loading (n + 1) A F C p' := by
  have hvalue : row.sId.toNat = n + 1 := by
    rw [hid, ofNat_toNat_of_lt hn]
  have hnew : row.sId ∉ p.1.subscribers.rows := by
    rw [h.subscriberKeys, hvalue]
    omega
  have hunique : ∀ (k' : UInt64) r', p.1.subscribers.rows[k']? = some r' → r'.subNbr ≠ row.subNbr := by
    intro k' r' hr' heq
    rw [(h.subscribers k' r' hr').2, hnbr] at heq
    rw [← subscriberNumber_injective heq] at hnew
    exact hnew ((TreeMap.mem_iff_get _ _).2 ⟨r', hr'⟩)
  obtain ⟨t', ht', hrows⟩ := UniqueTable.insert_some hnew hunique
  refine ⟨({ p.1 with subscribers := t' }, { p.2 with subscribers := p.2.subscribers + 1 }), ?_, ?_, ?_, h.accessInfo,
    h.facilities, h.forwardings, ?_⟩
  · unfold Tatp.insertSubscriber
    rw [ht']
    rfl
  · intro k
    simp only [hrows, TreeMap.mem_insert, h.subscriberKeys]
    rw [← UInt64.toNat_inj, hvalue]
    omega
  · intro k r hr
    simp only [hrows, TreeMap.get_insert] at hr
    split_ifs at hr with hk
    · cases hr
      subst hk
      exact ⟨rfl, hnbr⟩
    · exact h.subscribers k r hr
  · simp only [hrows, TreeMap.size_insert_new _ hnew, h.counts]

/-- an access-info row under a free key -/
theorem insertAccessInfo (h : Loading n A F C p) {s : UInt64} {t : UInt8} (hfree : ¬ A s t) {row : AccessInfoRow}
    (hid : row.id = facilityKey s t) :
    ∃ p', Tatp.insertAccessInfo p row = some p' ∧ Loading n (fun s' t' => A s' t' ∨ s' = s ∧ t' = t) F C p' := by
  have hnew : row.id ∉ p.1.accessInfo := by
    intro hmem
    obtain ⟨s', t', hA, heq⟩ := h.accessInfo _ hmem
    obtain ⟨rfl, rfl⟩ := facilityKey_inj (hid.symm.trans heq)
    exact hfree hA
  refine ⟨_, if_neg hnew, h.subscriberKeys, h.subscribers, ?_, h.facilities, h.forwardings, ?_⟩
  · intro k hk
    rcases (TreeMap.mem_insert _ _ _ _).1 hk with rfl | hk
    · exact ⟨s, t, Or.inr ⟨rfl, rfl⟩, hid⟩
    · obtain ⟨s', t', hA, heq⟩ := h.accessInfo k hk
      exact ⟨s', t', Or.inl hA, heq⟩
  · simp only [TreeMap.size_insert_new _ hnew, h.counts]

/-- a facility under a free key -/
theorem insertFacility (h : Loading n A F C p) {row : SpecialFacilityRow} (hfree : ¬ F row.sId row.sfType)
    (hid : row.id = facilityKey row.sId row.sfType) :
    ∃ p', Tatp.insertFacility p row = some p' ∧ facilityKey row.sId row.sfType ∈ p'.1.specialFacilities ∧
      Loading n A (fun s' t' => F s' t' ∨ s' = row.sId ∧ t' = row.sfType) C p' := by
  have hnew : row.id ∉ p.1.specialFacilities := by
    intro hmem
    obtain ⟨row', hrow'⟩ := (TreeMap.mem_iff_get _ _).1 hmem
    obtain ⟨hrow, hF⟩ := h.facilities _ row' hrow'
    obtain ⟨hs, ht⟩ := facilityKey_inj (hid.symm.trans hrow.packed)
    rw [hs, ht] at hfree
    exact hfree hF
  refine ⟨_, if_neg hnew, ?_, h.subscriberKeys, h.subscribers, h.accessInfo, ?_, ?_, ?_⟩
  · exact (TreeMap.mem_insert _ _ _ _).2 (Or.inl hid)
  · intro k r hr
    simp only [TreeMap.get_insert] at hr
    split_ifs at hr with hk
    · cases hr
      exact ⟨⟨hk, hk ▸ hid⟩, Or.inr ⟨rfl, rfl⟩⟩
    · obtain ⟨hrow, hF⟩ := h.facilities k r hr
      exact ⟨hrow, Or.inl hF⟩
  · intro k r hr
    obtain ⟨hrow, hmem, hC⟩ := h.forwardings k r hr
    exact ⟨hrow, (TreeMap.mem_insert _ _ _ _).2 (Or.inr hmem), hC⟩
  · simp only [TreeMap.size_insert_new _ hnew, h.counts]

/-- a call-forwarding row under a free key, for a loaded facility -/
theorem insertForwarding (h : Loading n A F C p) {row : CallForwardingRow}
    (hfree : ¬ C row.sId row.sfType row.startTime)
    (hid : row.id = callForwardingKey row.sId row.sfType row.startTime)
    (hfacility : row.facility = facilityKey row.sId row.sfType) (hmem : row.facility ∈ p.1.specialFacilities) :
    ∃ p', Tatp.insertForwarding p row = some p' ∧ p'.1.specialFacilities = p.1.specialFacilities ∧
      Loading n A F (fun s' t' u' => C s' t' u' ∨ s' = row.sId ∧ t' = row.sfType ∧ u' = row.startTime) p' := by
  have hnew : row.id ∉ p.1.callForwarding.rows := by
    intro hmem
    obtain ⟨row', hrow'⟩ := (TreeMap.mem_iff_get _ _).1 hmem
    obtain ⟨hrow, -, hC⟩ := h.forwardings _ row' hrow'
    obtain ⟨hs, ht, hu⟩ := callForwardingKey_inj (hid.symm.trans hrow.packed)
    rw [hs, ht, hu] at hfree
    exact hfree hC
  refine ⟨_, dif_neg hnew, rfl, h.subscriberKeys, h.subscribers, h.accessInfo, h.facilities, ?_, ?_⟩
  · intro k r hr
    simp only [GroupTable.insertNew_rows, TreeMap.get_insert] at hr
    split_ifs at hr with hk
    · cases hr
      exact ⟨⟨hk, hk ▸ hid, hfacility⟩, hmem, Or.inr ⟨rfl, rfl, rfl⟩⟩
    · obtain ⟨hrow, hmem, hC⟩ := h.forwardings k r hr
      exact ⟨hrow, hmem, Or.inl hC⟩
  · simp only [GroupTable.insertNew_rows, TreeMap.size_insert_new _ hnew, h.counts]

end Loading

/-! ## The load -/

/-- the tables after the first `n` subscribers -/
abbrev Loaded (n : ℕ) (p : Progress) : Prop :=
  Loading n (fun s _ => s.toNat ≤ n) (fun s _ => s.toNat ≤ n) (fun s _ _ => s.toNat ≤ n) p

section Turn

variable {n : ℕ} {A F : UInt64 → UInt8 → Prop} {C : UInt64 → UInt8 → UInt8 → Prop} {p : Progress} {sId : UInt64}

theorem not_mem_of_nodup {α : Type} {l pre post : List α} {x : α} (hnodup : l.Nodup) (hl : l = pre ++ x :: post) :
    x ∉ pre := by
  rw [hl] at hnodup
  intro hx
  exact List.disjoint_of_nodup_append hnodup hx List.mem_cons_self

/-- the access-info rows of one subscriber -/
theorem loadAccessInfo_total (h : Loading n A F C p) (hfree : ∀ t, ¬ A sId t) {types : List UInt8}
    (hnodup : types.Nodup) :
    Total (Loading n (fun s t => A s t ∨ s = sId ∧ t ∈ types) F C) (types.foldlM (fun p aiType => do
      let row ← drawAccessInfo sId aiType
      liftM (insertAccessInfo p row)) p) := by
  refine Total.foldlM (I := fun pre => Loading n (fun s t => A s t ∨ s = sId ∧ t ∈ pre) F C) types ?_ p
    (h.mono (fun _ _ => Or.inl) (fun _ _ => id) fun _ _ _ => id)
  intro pre x post p hl hI
  refine (drawAccessInfo_total sId x).bind fun row hid => Total.lift ?_
  have hx : ¬ (A sId x ∨ sId = sId ∧ x ∈ pre) := by
    rintro (hA | ⟨-, hmem⟩)
    · exact hfree x hA
    · exact not_mem_of_nodup hnodup hl hmem
  obtain ⟨p', hp', hI'⟩ := hI.insertAccessInfo hx hid
  refine ⟨p', hp', hI'.mono (fun s t hst => ?_) (fun _ _ => id) fun _ _ _ => id⟩
  rcases hst with (hA | ⟨hs, hmem⟩) | ⟨hs, ht⟩
  · exact Or.inl hA
  · exact Or.inr ⟨hs, List.mem_append_left _ hmem⟩
  · exact Or.inr ⟨hs, by simp [ht]⟩

/-- the call-forwarding rows of one facility -/
theorem loadForwardings_total {sfType : UInt8} (h : Loading n A F C p)
    (hmem : facilityKey sId sfType ∈ p.1.specialFacilities) (hfree : ∀ u, ¬ C sId sfType u) {times : List UInt8}
    (hnodup : times.Nodup) :
    Total (Loading n A F fun s t u => C s t u ∨ s = sId ∧ t = sfType ∧ u ∈ times)
      (times.foldlM (fun p startTime => do
        let row ← drawForwarding sId sfType startTime
        liftM (insertForwarding p row)) p) := by
  refine (Total.foldlM (I := fun pre p => facilityKey sId sfType ∈ p.1.specialFacilities ∧
    Loading n A F (fun s t u => C s t u ∨ s = sId ∧ t = sfType ∧ u ∈ pre) p) times ?_ p
    ⟨hmem, h.mono (fun _ _ => id) (fun _ _ => id) fun _ _ _ => Or.inl⟩).mono fun _ hp => hp.2
  intro pre x post p hl ⟨hmem, hI⟩
  refine (drawForwarding_total sId sfType x).bind fun row hrow => Total.lift ?_
  rcases hrow with ⟨hid, hfacility, rfl, rfl, rfl⟩
  have hx : ¬ (C row.sId row.sfType row.startTime ∨ row.sId = row.sId ∧ row.sfType = row.sfType ∧
      row.startTime ∈ pre) := by
    rintro (hC | ⟨-, -, hmem⟩)
    · exact hfree _ hC
    · exact not_mem_of_nodup hnodup hl hmem
  obtain ⟨p', hp', hspecial, hI'⟩ := hI.insertForwarding hx hid hfacility (hfacility ▸ hmem)
  refine ⟨p', hp', hspecial ▸ hmem, hI'.mono (fun _ _ => id) (fun _ _ => id) fun s t u hst => ?_⟩
  rcases hst with (hC | ⟨hs, ht, hmem⟩) | ⟨hs, ht, hu⟩
  · exact Or.inl hC
  · exact Or.inr ⟨hs, ht, List.mem_append_left _ hmem⟩
  · exact Or.inr ⟨hs, ht, by simp [hu]⟩

/-- the facilities of one subscriber, with their call-forwarding rows -/
theorem loadFacilities_total (h : Loading n A F C p) (hF : ∀ t, ¬ F sId t) (hC : ∀ t u, ¬ C sId t u)
    {types : List UInt8} (hnodup : types.Nodup) :
    Total (Loading n A (fun s t => F s t ∨ s = sId) fun s t u => C s t u ∨ s = sId) (types.foldlM (fun p sfType => do
      let row ← drawFacility sId sfType
      let p ← liftM (insertFacility p row)
      let startTimes ← randomSubset [0, 8, 16] 0 3
      startTimes.foldlM (fun p startTime => do
        let row ← drawForwarding sId sfType startTime
        liftM (insertForwarding p row)) p) p) := by
  refine (Total.foldlM (I := fun pre => Loading n A (fun s t => F s t ∨ s = sId ∧ t ∈ pre)
    fun s t u => C s t u ∨ s = sId ∧ t ∈ pre) types ?_ p
    (h.mono (fun _ _ => id) (fun _ _ => Or.inl) fun _ _ _ => Or.inl)).mono fun p hp =>
      hp.mono (fun _ _ => id) (fun _ _ => Or.imp_right And.left) fun _ _ _ => Or.imp_right And.left
  intro pre x post p hl hI
  have hx := not_mem_of_nodup hnodup hl
  refine (drawFacility_total sId x).bind fun row hrow => ?_
  rcases hrow with ⟨hid, rfl, rfl⟩
  have hfree : ¬ (F row.sId row.sfType ∨ row.sId = row.sId ∧ row.sfType ∈ pre) := by
    rintro (hF' | ⟨-, hmem⟩)
    · exact hF _ hF'
    · exact hx hmem
  obtain ⟨p', hp', hmem, hI'⟩ := hI.insertFacility hfree hid
  refine Total.bind (P := fun q => q = p') (Total.lift ⟨p', hp', rfl⟩) fun q hq => ?_
  subst hq
  refine (randomSubset_total (by decide) (by decide) (by decide)).bind fun times htimes => ?_
  have hfreeC : ∀ u, ¬ (C row.sId row.sfType u ∨ row.sId = row.sId ∧ row.sfType ∈ pre) := by
    rintro u (hC' | ⟨-, hmem⟩)
    · exact hC _ _ hC'
    · exact hx hmem
  refine (loadForwardings_total hI' hmem hfreeC htimes.1).mono fun r hr => hr.mono (fun _ _ => id) ?_ ?_
  · rintro s t ((hF' | ⟨hs, hmem⟩) | ⟨hs, ht⟩)
    · exact Or.inl hF'
    · exact Or.inr ⟨hs, List.mem_append_left _ hmem⟩
    · exact Or.inr ⟨hs, by simp [ht]⟩
  · rintro s t u ((hC' | ⟨hs, hmem⟩) | ⟨hs, ht, -⟩)
    · exact Or.inl hC'
    · exact Or.inr ⟨hs, List.mem_append_left _ hmem⟩
    · exact Or.inr ⟨hs, by simp [ht]⟩

end Turn

theorem loadSubscriber_total {n : ℕ} {p : Progress} (h : Loaded n p) (hn : n + 1 < 2 ^ 64) :
    Total (Loaded (n + 1)) (loadSubscriber p (UInt64.ofNat (n + 1))) := by
  have hvalue := ofNat_toNat_of_lt hn
  have hnew : ¬ (UInt64.ofNat (n + 1)).toNat ≤ n := by omega
  unfold loadSubscriber
  refine (drawSubscriber_total _).bind fun row hrow => ?_
  obtain ⟨p₁, hp₁, h₁⟩ := h.insertSubscriber hn hrow.1 (hrow.1 ▸ hrow.2)
  refine Total.bind (P := fun q => q = p₁) (Total.lift ⟨p₁, hp₁, rfl⟩) fun q hq => ?_
  subst hq
  refine (randomSubset_total (by decide) (by decide) (by decide)).bind fun aiTypes hai => ?_
  refine (loadAccessInfo_total h₁ (fun _ => hnew) hai.1).bind fun p₂ h₂ => ?_
  refine (randomSubset_total (by decide) (by decide) (by decide)).bind fun sfTypes hsf => ?_
  refine (loadFacilities_total h₂ (fun _ => hnew) (fun _ _ => hnew) hsf.1).mono fun p₃ h₃ => h₃.mono ?_ ?_ ?_
  · rintro s t (hs | ⟨rfl, -⟩) <;> omega
  · rintro s t (hs | rfl) <;> omega
  · rintro s t u (hs | rfl) <;> omega

/-- **The load never panics**, and it leaves the tables of all subscribers. -/
theorem load_total {config : Config} (hacc : config.Accepted) :
    ∃ p, load config = some p ∧ Loaded config.subscribers.toNat p := by
  have hfits := hacc.fits
  have hloop : Total (Loaded config.subscribers.toNat)
      ((List.range config.subscribers.toNat).foldlM (fun p i => loadSubscriber p (UInt64.ofNat (i + 1)))
        (Tables.default, ⟨0, 0, 0, 0⟩)) := by
    refine Total.range (I := Loaded) _ (fun i p hi hI => loadSubscriber_total hI (by omega)) _ ?_
    exact Loading.default
  obtain ⟨p, rng, hrun, hp⟩ := hloop (Rng.new (config.seed ^^^ 0x74617470))
  exact ⟨p, by rw [load, hrun]; rfl, hp⟩

end WtBenchmarks.Tatp
