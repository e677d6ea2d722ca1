/-
The three engines of the embedded-JSON workload agree.

Each is compared with one map from keys to accounts: the WorkTable holds it as rows, redb and LMDB as documents, LMDB
under other keys. The map says what the operations are for, and a driver `Implements` it when each of its operations
does what the map's does.

- `updateBalance_get`: of the map, an update changes the balances of the listed keys and nothing else;
- `wtDoc_implements`, `document_implements`: the drivers;
- `Implements.run`: what holds of one call holds of a run;
- `engines_agree`: after any load and any calls that insert fresh keys and address present ones, the engines have
  returned the same checksums, return the same from then on, and an update changes the balances and nothing else.
-/
import WtBenchmarks.Core.Json
import WtBenchmarks.Core.Presents
import WtBenchmarks.KvJson.Engines

namespace WtBenchmarks.KvJson

/-! ## Specification -/

abbrev Accounts := Std.ExtTreeMap UInt64 Account

namespace Accounts

def create (D : Accounts) (k : UInt64) : Accounts := D.insert k (Account.make k)

def loadTo (n : ℕ) : Accounts := (List.range n).foldl (fun D k => create D (UInt64.ofNat k)) ∅

def setBalance (D : Accounts) (k : UInt64) : Accounts :=
  match D[k]? with
  | some a => D.insert k { a with balance := newBalance k }
  | none => D

def updateBalance (D : Accounts) (keys : List UInt64) : Accounts := keys.foldl setBalance D

def pointGetChecksum (D : Accounts) (keys : List UInt64) : UInt64 :=
  keys.foldl (fun acc k => acc + D[k]?.elim 0 Account.checksum) 0

/-- the ids of the active accounts from an age on, added up -/
def addId (minAge : UInt32) (acc : UInt64) (a : Account) : UInt64 :=
  if a.active && decide (minAge ≤ a.age) then acc + a.id else acc

def queryActiveOverAgeChecksum (D : Accounts) (minAge : UInt32) : UInt64 :=
  D.toList.foldl (fun acc q => addId minAge acc q.2) 0

def call (D : Accounts) : Call → Accounts × Option UInt64
  | .insert k => (D.create k, none)
  | .updateBalance keys => (D.updateBalance keys, none)
  | .pointGetChecksum keys => (D, some (D.pointGetChecksum keys))
  | .queryActiveOverAgeChecksum minAge => (D, some (D.queryActiveOverAgeChecksum minAge))

def calls (D : Accounts) : List Call → Accounts × List (Option UInt64)
  | [] => (D, [])
  | c :: cs => ((calls (D.call c).1 cs).1, (D.call c).2 :: (calls (D.call c).1 cs).2)

/-! ### What the operations do to an account -/

theorem setBalance_get (D : Accounts) (k a : UInt64) :
    (D.setBalance k)[a]? = if k = a then D[a]?.map (fun b => { b with balance := newBalance k }) else D[a]? := by
  unfold setBalance
  cases hk : D[k]? with
  | some b =>
    simp only [TreeMap.get_insert]
    by_cases hka : k = a
    · subst hka
      simp [hk]
    · simp [hka]
  | none =>
    by_cases hka : k = a
    · subst hka
      simp [hk]
    · simp [hka]

/-- **Only the balance.** -/
theorem updateBalance_get (D : Accounts) (keys : List UInt64) (a : UInt64) :
    (D.updateBalance keys)[a]? =
      D[a]?.map fun b => if a ∈ keys then { b with balance := newBalance a } else b := by
  unfold updateBalance
  induction keys generalizing D with
  | nil => simp
  | cons k keys ih =>
    rw [List.foldl_cons, ih, setBalance_get]
    by_cases hka : k = a
    · subst hka
      simp [Option.map_map, Function.comp_def]
    · have hak : ¬ a = k := fun hc => hka hc.symm
      simp [hka, hak]

theorem mem_updateBalance (D : Accounts) (keys : List UInt64) (a : UInt64) : a ∈ D.updateBalance keys ↔ a ∈ D := by
  rw [Std.ExtTreeMap.mem_iff_isSome_getElem?, Std.ExtTreeMap.mem_iff_isSome_getElem?, updateBalance_get,
    Option.isSome_map]

theorem mem_create (D : Accounts) (k a : UInt64) : a ∈ D.create k ↔ k = a ∨ a ∈ D := TreeMap.mem_insert D k a _

theorem loadTo_succ (n : ℕ) : loadTo (n + 1) = (loadTo n).create (UInt64.ofNat n) := by
  simp [loadTo, List.range_succ]

theorem mem_loadTo (n : ℕ) (a : UInt64) : a ∈ loadTo n ↔ a ∈ (List.range n).map UInt64.ofNat := by
  induction n with
  | zero => simp [loadTo]
  | succ n ih =>
    rw [loadTo_succ, mem_create, ih, List.range_succ, List.map_append, List.mem_append, List.map_singleton,
      List.mem_singleton, or_comm, eq_comm]

end Accounts

/-! ## Accounts that are stored -/

/-- the account of a key as it was made, or with its balance updated -/
def Stored (k : UInt64) (a : Account) : Prop :=
  a = Account.make k ∨ a = { Account.make k with balance := newBalance k }

/-- what is stored is written, and read back as it was -/
def SerdeJson.RoundTrips {Blob : Type} (serde : SerdeJson Blob) : Prop :=
  ∀ k a, Stored k a → ∃ bytes, serde.toVec a = some bytes ∧ serde.fromSlice bytes = some a

theorem Stored.update {k : UInt64} {a : Account} (h : Stored k a) :
    Stored k { a with balance := newBalance k } := by
  rcases h with rfl | rfl
  · exact Or.inr rfl
  · exact Or.inr rfl

def Accounts.AllStored (D : Accounts) : Prop := ∀ k a, D[k]? = some a → Stored k a

theorem allStored_empty : Accounts.AllStored ∅ := by
  intro k a h
  simp at h

theorem allStored_insert {D : Accounts} (h : D.AllStored) {k : UInt64} {a : Account} (ha : Stored k a) :
    Accounts.AllStored (D.insert k a) := by
  intro k' a' ha'
  rw [TreeMap.get_insert] at ha'
  split_ifs at ha' with hk
  · cases ha'
    exact hk ▸ ha
  · exact h k' a' ha'

/-! ## Drivers -/

/-- each operation of a driver does what the operation of the map does -/
structure Implements {S : Type} (d : Driver S) (R : S → Accounts → Prop) : Prop where
  load : ∀ rows, ∃ s, d.load rows = some s ∧ R s (Accounts.loadTo rows.toNat)
  insert : ∀ s D k, R s D → k ∉ D → ∃ s', d.insert s k = some s' ∧ R s' (D.create k)
  select : ∀ s D k, R s D → d.select s k = D[k]?
  pointGetChecksum : ∀ s D keys, R s D → (∀ k ∈ keys, k ∈ D) →
    d.pointGetChecksum s keys = some (D.pointGetChecksum keys)
  updateBalance : ∀ s D keys, R s D → (∀ k ∈ keys, k ∈ D) →
    ∃ s', d.updateBalance s keys = some s' ∧ R s' (D.updateBalance keys)
  queryActiveOverAgeChecksum : ∀ s D minAge, R s D →
    d.queryActiveOverAgeChecksum s minAge = some (D.queryActiveOverAgeChecksum minAge)

/-! ### The loops of a driver -/

section Loops

variable {S : Type} {R : S → Accounts → Prop}

theorem load_loop {insert : S → UInt64 → Option S} {s : S} (hempty : R s ∅)
    (hinsert : ∀ s D k, R s D → k ∉ D → ∃ s', insert s k = some s' ∧ R s' (D.create k)) (rows : UInt64) :
    ∃ s', (List.range rows.toNat).foldlM (fun t k => insert t (UInt64.ofNat k)) s = some s' ∧
      R s' (Accounts.loadTo rows.toNat) := by
  apply exists_foldlM_range (I := fun n s => R s (Accounts.loadTo n))
  · intro i s hi hs
    have hfresh : UInt64.ofNat i ∉ Accounts.loadTo i := by
      intro hmem
      obtain ⟨j, hj, hij⟩ := List.mem_map.1 ((Accounts.mem_loadTo i _).1 hmem)
      have hrows := rows.toNat_lt
      have hlt := List.mem_range.1 hj
      have hnat := congrArg UInt64.toNat hij
      rw [UInt64.toNat_ofNat', UInt64.toNat_ofNat'] at hnat
      omega
    rw [Accounts.loadTo_succ]
    exact hinsert s _ _ hs hfresh
  · exact hempty

theorem pointGet_loop {select : UInt64 → Option Account} {D : Accounts} (hselect : ∀ k, select k = D[k]?)
    (keys : List UInt64) (hkeys : ∀ k ∈ keys, k ∈ D) :
    keys.foldlM (fun acc k => do
      let a ← select k
      some (acc + a.checksum)) 0 = some (D.pointGetChecksum keys) := by
  apply foldlM_eq_some
  intro acc k hk
  obtain ⟨a, ha⟩ := (TreeMap.mem_iff_get D k).1 (hkeys k hk)
  simp [hselect, ha]

theorem update_loop {update : S → UInt64 → Option S}
    (hupdate : ∀ s D k, R s D → k ∈ D → ∃ s', update s k = some s' ∧ R s' (D.setBalance k)) {s : S} {D : Accounts}
    (hs : R s D) (keys : List UInt64) (hkeys : ∀ k ∈ keys, k ∈ D) :
    ∃ s', keys.foldlM update s = some s' ∧ R s' (D.updateBalance keys) := by
  obtain ⟨s', hrun, hR, -⟩ := foldlM_simulates (fun s D => R s D ∧ ∀ k ∈ keys, k ∈ D) keys
    (fun s D k hk hR => by
      obtain ⟨s', hs', hR'⟩ := hupdate s D k hR.1 (hR.2 k hk)
      exact ⟨s', hs', hR', fun k' hk' => (Accounts.mem_updateBalance D [k] k').2 (hR.2 k' hk')⟩) s D ⟨hs, hkeys⟩
  exact ⟨s', hrun, hR⟩

end Loops

/-! ### WorkTable -/

/-- the rows are the accounts -/
def WtDoc.Holds (t : AccountDocWorkTable) (D : Accounts) : Prop :=
  Presents id (fun r : AccountDocRow => some r.account) t D

theorem WtDoc.insert_holds (t : AccountDocWorkTable) (D : Accounts) (k : UInt64) (h : Holds t D) (hk : k ∉ D) :
    ∃ t', insert t k = some t' ∧ Holds t' (D.create k) := by
  have hfresh : k ∉ t := fun hmem => hk ((h.mem_iff k).1 hmem)
  exact ⟨_, if_neg hfresh, h.insert Function.injective_id k rfl⟩

theorem WtDoc.select_holds (t : AccountDocWorkTable) (D : Accounts) (k : UInt64) (h : Holds t D) :
    select t k = D[k]? := by
  unfold select
  cases hk : D[k]? with
  | none =>
    have hget := h.get_none hk
    simp only [id] at hget
    simp [hget]
  | some a =>
    obtain ⟨r, hget, hr⟩ := h.get_some hk
    simp only [id] at hget
    simp [hget, Option.some.inj hr]

theorem WtDoc.update_holds (t : AccountDocWorkTable) (D : Accounts) (k : UInt64) (h : Holds t D) (hk : k ∈ D) :
    ∃ t', (do
      let r ← t[k]?
      some (t.insert k { r with balance := newBalance k })) = some t' ∧ Holds t' (D.setBalance k) := by
  obtain ⟨a, ha⟩ := (TreeMap.mem_iff_get D k).1 hk
  obtain ⟨r, hget, hr⟩ := h.get_some ha
  simp only [id] at hget
  cases hr
  have hset : D.setBalance k = D.insert k { r.account with balance := newBalance k } := by
    simp only [Accounts.setBalance, ha]
  rw [hget, hset]
  exact ⟨_, rfl, h.insert Function.injective_id k rfl⟩

theorem addId_comm (minAge : UInt32) (acc : UInt64) (a b : Account) :
    Accounts.addId minAge (Accounts.addId minAge acc a) b = Accounts.addId minAge (Accounts.addId minAge acc b) a := by
  unfold Accounts.addId
  split_ifs
  · rw [UInt64.add_assoc, UInt64.add_comm a.id, UInt64.add_assoc]
  · rfl
  · rfl
  · rfl

theorem WtDoc.query_holds (all : SelectAll) (t : AccountDocWorkTable) (D : Accounts) (minAge : UInt32)
    (h : Holds t D) : queryActiveOverAgeChecksum all t minAge = some (D.queryActiveOverAgeChecksum minAge) := by
  have hkeyOrder : t.toList.foldl (fun acc p => Accounts.addId minAge acc p.2.account) 0 =
      D.queryActiveOverAgeChecksum minAge := h.foldl_eq Function.injective_id (addId_comm minAge) 0
  have horder := (all.perm t).foldl_eq'
    (f := fun acc r => Accounts.addId minAge acc r.account)
    (fun a _ b _ acc => addId_comm minAge acc a.account b.account) 0
  rw [List.foldl_map, hkeyOrder] at horder
  rw [queryActiveOverAgeChecksum, List.foldl_filter, ← horder]
  rfl

theorem wtDoc_implements (all : SelectAll) : Implements (WtDoc all) WtDoc.Holds where
  load := load_loop Presents.empty WtDoc.insert_holds
  insert := WtDoc.insert_holds
  select := WtDoc.select_holds
  pointGetChecksum t D keys h hkeys := pointGet_loop (fun k => WtDoc.select_holds t D k h) keys hkeys
  updateBalance _ _ keys h hkeys := update_loop WtDoc.update_holds h keys hkeys
  queryActiveOverAgeChecksum := WtDoc.query_holds all

/-! ### JSON documents -/

namespace Document

variable {Blob κ : Type} [Ord κ] [Std.TransOrd κ] (serde : SerdeJson Blob) (codec : KeyCodec κ)

/-- the documents read as the accounts, and only accounts of the workload are stored -/
def Holds (t : Std.ExtTreeMap κ Blob) (D : Accounts) : Prop :=
  Presents codec.encode serde.fromSlice t D ∧ D.AllStored

variable {serde codec}

theorem get_holds (t : Std.ExtTreeMap κ Blob) (D : Accounts) (k : UInt64) (h : Holds serde codec t D) :
    get serde codec t k = D[k]? := by
  unfold get
  cases hk : D[k]? with
  | none => simp [h.1.get_none hk]
  | some a =>
    obtain ⟨v, hget, hv⟩ := h.1.get_some hk
    simp [hget, hv]

theorem query_holds [Std.LawfulEqOrd κ] (t : Std.ExtTreeMap κ Blob) (D : Accounts) (minAge : UInt32)
    (h : Holds serde codec t D) :
    queryActiveOverAgeChecksum serde codec t minAge = some (D.queryActiveOverAgeChecksum minAge) := by
  apply h.1.foldlM_eq codec.encode_injective (addId_comm minAge)
  intro acc k v a hv
  simp [codec.decode_encode, hv, Accounts.addId]

variable [Std.LawfulEqOrd κ] [DecidableEq κ]

theorem put_holds (hserde : serde.RoundTrips) {t : Std.ExtTreeMap κ Blob} {D : Accounts} (h : Holds serde codec t D)
    {k : UInt64} {a : Account} (ha : Stored k a) :
    ∃ t', put serde codec t k a = some t' ∧ Holds serde codec t' (D.insert k a) := by
  obtain ⟨bytes, hto, hfrom⟩ := hserde k a ha
  exact ⟨_, by simp [put, hto], h.1.insert codec.encode_injective k hfrom,
    allStored_insert h.2 ha⟩

theorem insert_holds (hserde : serde.RoundTrips) (t : Std.ExtTreeMap κ Blob) (D : Accounts) (k : UInt64)
    (h : Holds serde codec t D) : ∃ t', insert serde codec t k = some t' ∧ Holds serde codec t' (D.create k) :=
  put_holds hserde h (Or.inl rfl)

theorem update_holds (hserde : serde.RoundTrips) (t : Std.ExtTreeMap κ Blob) (D : Accounts) (k : UInt64)
    (h : Holds serde codec t D) (hk : k ∈ D) :
    ∃ t', (do
      let a ← get serde codec t k
      put serde codec t k { a with balance := newBalance k }) = some t' ∧ Holds serde codec t' (D.setBalance k) := by
  obtain ⟨a, ha⟩ := (TreeMap.mem_iff_get D k).1 hk
  have hset : D.setBalance k = D.insert k { a with balance := newBalance k } := by
    simp only [Accounts.setBalance, ha]
  rw [get_holds t D k h, ha, hset]
  exact put_holds hserde h (h.2 k a ha).update

theorem document_implements (hserde : serde.RoundTrips) : Implements (driver serde codec) (Holds serde codec) where
  load := load_loop ⟨Presents.empty, allStored_empty⟩ fun t D k h _ => insert_holds hserde t D k h
  insert t D k h _ := insert_holds hserde t D k h
  select := get_holds
  pointGetChecksum t D keys h hkeys := pointGet_loop (fun k => get_holds t D k h) keys hkeys
  updateBalance _ _ keys h hkeys := update_loop (update_holds hserde) h keys hkeys
  queryActiveOverAgeChecksum := query_holds

end Document

/-! ## Runs -/

/-- the keys a load puts in -/
def loaded (rows : UInt64) : List UInt64 := (List.range rows.toNat).map UInt64.ofNat

/-- inserts are of fresh keys, updates and point reads of present ones -/
def Valid (ks : List UInt64) : List Call → Prop
  | [] => True
  | .insert k :: cs => k ∉ ks ∧ Valid (k :: ks) cs
  | .updateBalance keys :: cs => (∀ k ∈ keys, k ∈ ks) ∧ Valid ks cs
  | .pointGetChecksum keys :: cs => (∀ k ∈ keys, k ∈ ks) ∧ Valid ks cs
  | .queryActiveOverAgeChecksum _ :: cs => Valid ks cs

/-- the keys present after some calls -/
def present (ks : List UInt64) : List Call → List UInt64
  | [] => ks
  | .insert k :: cs => present (k :: ks) cs
  | _ :: cs => present ks cs

theorem Implements.calls {S : Type} {d : Driver S} {R : S → Accounts → Prop} (h : Implements d R) {s : S}
    {D : Accounts} (hs : R s D) {ks : List UInt64} (hks : ∀ k, k ∈ D ↔ k ∈ ks) (cs : List Call) (hcs : Valid ks cs) :
    ∃ s', d.calls s cs = some (s', (D.calls cs).2) ∧ R s' (D.calls cs).1 ∧
      ∀ k, k ∈ (D.calls cs).1 ↔ k ∈ present ks cs := by
  induction cs generalizing s D ks with
  | nil => exact ⟨s, rfl, hs, hks⟩
  | cons c cs ih =>
    cases c with
    | insert k =>
      obtain ⟨hfresh, hcs⟩ := hcs
      obtain ⟨s₁, hrun, hs₁⟩ := h.insert s D k hs (fun hmem => hfresh ((hks k).1 hmem))
      have hks₁ : ∀ a, a ∈ D.create k ↔ a ∈ k :: ks := by
        intro a
        rw [Accounts.mem_create, hks, List.mem_cons, eq_comm]
      obtain ⟨s', hrun', hs', hmem⟩ := ih hs₁ hks₁ hcs
      exact ⟨s', by simp [Driver.calls, Driver.call, hrun, hrun', Accounts.calls, Accounts.call], hs', hmem⟩
    | updateBalance keys =>
      obtain ⟨hkeys, hcs⟩ := hcs
      obtain ⟨s₁, hrun, hs₁⟩ := h.updateBalance s D keys hs (fun k hk => (hks k).2 (hkeys k hk))
      have hks₁ : ∀ a, a ∈ D.updateBalance keys ↔ a ∈ ks := by
        intro a
        rw [Accounts.mem_updateBalance, hks]
      obtain ⟨s', hrun', hs', hmem⟩ := ih hs₁ hks₁ hcs
      exact ⟨s', by simp [Driver.calls, Driver.call, hrun, hrun', Accounts.calls, Accounts.call], hs', hmem⟩
    | pointGetChecksum keys =>
      obtain ⟨hkeys, hcs⟩ := hcs
      have hrun := h.pointGetChecksum s D keys hs (fun k hk => (hks k).2 (hkeys k hk))
      obtain ⟨s', hrun', hs', hmem⟩ := ih hs hks hcs
      exact ⟨s', by simp [Driver.calls, Driver.call, hrun, hrun', Accounts.calls, Accounts.call], hs', hmem⟩
    | queryActiveOverAgeChecksum minAge =>
      have hrun := h.queryActiveOverAgeChecksum s D minAge hs
      obtain ⟨s', hrun', hs', hmem⟩ := ih hs hks hcs
      exact ⟨s', by simp [Driver.calls, Driver.call, hrun, hrun', Accounts.calls, Accounts.call], hs', hmem⟩

/-- **A run.** The driver returns what the map returns, and ends with what the map holds. -/
theorem Implements.run {S : Type} {d : Driver S} {R : S → Accounts → Prop} (h : Implements d R) {rows : UInt64}
    {cs : List Call} (hcs : Valid (loaded rows) cs) :
    ∃ s, d.run rows cs = some (s, ((Accounts.loadTo rows.toNat).calls cs).2) ∧
      R s ((Accounts.loadTo rows.toNat).calls cs).1 ∧
      ∀ k, k ∈ ((Accounts.loadTo rows.toNat).calls cs).1 ↔ k ∈ present (loaded rows) cs := by
  obtain ⟨s, hload, hs⟩ := h.load rows
  obtain ⟨s', hcalls, hs', hmem⟩ := h.calls hs (fun k => Accounts.mem_loadTo rows.toNat k) cs hcs
  exact ⟨s', by simp [Driver.run, hload, hcalls], hs', hmem⟩

/-- an update of present keys succeeds, and changes the balances of these keys and nothing else -/
def ChangesBalances {S : Type} (d : Driver S) (s : S) (keys : List UInt64) : Prop :=
  ∃ s', d.updateBalance s keys = some s' ∧ ∀ k, d.select s' k =
    (d.select s k).map fun a => if k ∈ keys then { a with balance := newBalance k } else a

theorem Implements.changesBalances {S : Type} {d : Driver S} {R : S → Accounts → Prop} (h : Implements d R) {s : S}
    {D : Accounts} (hs : R s D) {keys : List UInt64} (hkeys : ∀ k ∈ keys, k ∈ D) : ChangesBalances d s keys := by
  obtain ⟨s', hrun, hs'⟩ := h.updateBalance s D keys hs hkeys
  refine ⟨s', hrun, fun k => ?_⟩
  rw [h.select s' _ k hs', h.select s D k hs, Accounts.updateBalance_get]

/-- the runs return the same answers, and the stores they end with answer alike -/
def EnginesAgree {Blob : Type} (serde : SerdeJson Blob) (all : SelectAll) (e : NativeEndian) (rows : UInt64)
    (cs : List Call) : Prop :=
  ∃ wt redb lmdb answers, (WtDoc all).run rows cs = some (wt, answers) ∧
    (RedbJson serde).run rows cs = some (redb, answers) ∧ (LmdbJson serde e).run rows cs = some (lmdb, answers) ∧
    (∀ keys : List UInt64, (∀ k ∈ keys, k ∈ present (loaded rows) cs) →
      (∃ c, (WtDoc all).pointGetChecksum wt keys = some c ∧ (RedbJson serde).pointGetChecksum redb keys = some c ∧
        (LmdbJson serde e).pointGetChecksum lmdb keys = some c) ∧
      ChangesBalances (WtDoc all) wt keys ∧ ChangesBalances (RedbJson serde) redb keys ∧
      ChangesBalances (LmdbJson serde e) lmdb keys) ∧
    ∀ minAge : UInt32, ∃ c, (WtDoc all).queryActiveOverAgeChecksum wt minAge = some c ∧
      (RedbJson serde).queryActiveOverAgeChecksum redb minAge = some c ∧
      (LmdbJson serde e).queryActiveOverAgeChecksum lmdb minAge = some c

/-- **The engines agree.** -/
theorem engines_agree {Blob : Type} (serde : SerdeJson Blob) (hserde : serde.RoundTrips) (all : SelectAll)
    (e : NativeEndian) (rows : UInt64) (cs : List Call) (hcs : Valid (loaded rows) cs) :
    EnginesAgree serde all e rows cs := by
  have hWt := wtDoc_implements all
  have hRedb : Implements (RedbJson serde) (Document.Holds serde redbKeys) := Document.document_implements hserde
  have hLmdb : Implements (LmdbJson serde e) (Document.Holds serde (lmdbKeys e)) :=
    Document.document_implements hserde
  obtain ⟨wt, hwt, hwtR, hmem⟩ := hWt.run hcs
  obtain ⟨redb, hredb, hredbR, -⟩ := hRedb.run hcs
  obtain ⟨lmdb, hlmdb, hlmdbR, -⟩ := hLmdb.run hcs
  refine ⟨wt, redb, lmdb, _, hwt, hredb, hlmdb, fun keys hkeys => ?_, fun minAge => ?_⟩
  · have hpresent := fun k hk => (hmem k).2 (hkeys k hk)
    exact ⟨⟨_, hWt.pointGetChecksum _ _ keys hwtR hpresent, hRedb.pointGetChecksum _ _ keys hredbR hpresent,
      hLmdb.pointGetChecksum _ _ keys hlmdbR hpresent⟩, hWt.changesBalances hwtR hpresent,
      hRedb.changesBalances hredbR hpresent, hLmdb.changesBalances hlmdbR hpresent⟩
  · exact ⟨_, hWt.queryActiveOverAgeChecksum _ _ minAge hwtR, hRedb.queryActiveOverAgeChecksum _ _ minAge hredbR,
      hLmdb.queryActiveOverAgeChecksum _ _ minAge hlmdbR⟩

/-! ### A run -/

/-- the derived `Serialize`, on a finite balance -/
def Account.toJson (a : Account) : Json := .obj [
  ("id", Json.ofU64 a.id),
  ("name", .str a.name),
  ("email", .str a.email),
  ("age", Json.ofU32 a.age),
  ("balance", .float a.balance),
  ("active", .bool a.active)]

/-- the derived `Deserialize`, which reads a balance as it was printed -/
def Account.fromJson : Json → Option Account
  | .obj fields => do
    let id ← Json.requiredField fields "id" Json.asU64
    let name ← Json.requiredField fields "name" Json.asString
    let email ← Json.requiredField fields "email" Json.asString
    let age ← Json.requiredField fields "age" Json.asU32
    let balance ← Json.requiredField fields "balance" (Json.asF64 fun bits => bits)
    let active ← Json.requiredField fields "active" Json.asBool
    some ⟨id, name, email, age, balance, active⟩
  | _ => none

/-- documents as JSON values -/
def jsonValues : SerdeJson Json := ⟨fun a => some a.toJson, Account.fromJson⟩

theorem jsonValues_roundTrips : jsonValues.RoundTrips := by
  intro k a _
  exact ⟨a.toJson, rfl, by
    simp [jsonValues, Account.fromJson, Account.toJson, Json.requiredField, Json.values, Json.asU64_ofU64,
      Json.asU32_ofU32, Json.asString, Json.asF64, Json.asBool]⟩

/-- rows in key order, as the WorkTables index lists them -/
def keyOrder : SelectAll := ⟨fun t => t.toList.map Prod.snd, fun _ => List.Perm.refl _⟩

theorem loaded_three : loaded 3 = [0, 1, 2] := rfl

/-- three loaded accounts, a fourth inserted, two of them updated, one of them twice -/
theorem engines_agree_fourAccounts : EnginesAgree jsonValues keyOrder .little 3
    [.insert 7, .updateBalance [1, 7, 1], .pointGetChecksum [0, 7], .queryActiveOverAgeChecksum 20] :=
  engines_agree jsonValues jsonValues_roundTrips keyOrder .little 3 _ (by simp [Valid, loaded_three])

end WtBenchmarks.KvJson
