/-
What the steps of a `DynTable` client do to the linearization under construction.

A slot is pending until its insert publishes it, live while the index finds it, and dead once another insert has moved
its key. Operations on a live slot take effect at their access. An operation that still holds the index of a dead slot
belongs just before the insert that replaced the slot: it was invoked before it, and the insert overwrites what it did.

- `TableOk`: the table against the batches; `Guar`: what a step of a client may change;
- `observe_ok`: an operation on an absent key takes effect;
- `publish_ok`: an insert takes effect, and a slot dies;
- `touch_ok`: an operation on a slot takes effect, now or before the insert that replaced the slot.
-/
import WtBenchmarks.Contention.DynTable
import WtBenchmarks.Core.TreeMap

namespace WtBenchmarks.Contention

open Linearizability

variable {T : Type}

/-! ## Rows -/

/-- rows of the bench columns whose strings the codec can express -/
structure GoodRow (row : List Value) : Prop where
  width : row.length = cols.length
  short : ∀ v ∈ row, v.Short

theorem GoodRow.set {row : List Value} (h : GoodRow row) {v : Value} (hv : v.Short) (pos : ℕ) :
    GoodRow (row.set pos v) := by
  refine ⟨by rw [List.length_set, h.width], fun w hw => ?_⟩
  rcases List.mem_or_eq_of_mem_set hw with hold | rfl
  · exact h.short w hold
  · exact hv

theorem GoodRow.encode_inj {a b : List Value} (ha : GoodRow a) (hb : GoodRow b) (h : encode a = encode b) : a = b := by
  have hdecode := decode_encode ha.short
  rw [h, decode_encode hb.short] at hdecode
  exact (Option.some_inj.1 hdecode).symm

theorem catalogGet_lt {col : String} {pos : ℕ} (h : catalogGet col = some pos) : pos < cols.length :=
  (List.idxOf?_eq_some_iff.1 h).1

/-! ## The ghost state -/

inductive Status (T : Type) where
  | pending (t : T)
  | live (pk : UInt64)
  | dead (pk : UInt64) (batch : ℕ)

/-- the linearization so far, and the status of each slot -/
structure Ghost (T : Type) where
  batches : List (Batch (T × ℕ) Op Ret)
  status : List (Status T)

/-- the empty map -/
def noRows : RowMap := fun _ => none

/-- the map after all operations that have taken effect -/
def Ghost.now (γ : Ghost T) : RowMap := after mapApply noRows (order γ.batches)

/-- the map before a batch -/
def Ghost.before (γ : Ghost T) (n : ℕ) : RowMap := Linearizability.before mapApply noRows γ.batches n

/-- a slot holds the encoding of a row -/
structure Holds (g : Shared T) (i : ℕ) (row : List Value) : Prop where
  good : GoodRow row
  bytes : g.table.slots[i]? = some (encode row)

theorem Holds.eq {g : Shared T} {i : ℕ} {a b : List Value} (ha : Holds g i a) (hb : Holds g i b) : a = b := by
  have h := ha.bytes
  rw [hb.bytes] at h
  exact (hb.good.encode_inj ha.good (Option.some_inj.1 h)).symm

/-- a dead slot holds the row that its key had just before the insert that replaced the slot -/
def Replaced (g : Shared T) (γ : Ghost T) (i : ℕ) (pk : UInt64) (n : ℕ) : Prop :=
  ∃ (row : List Value) (b : Batch (T × ℕ) Op Ret) (newer : List Value), Holds g i row ∧ γ.batches[n]? = some b ∧
    b.main.op = .insert pk newer ∧ after mapApply (γ.before n) b.early pk = some row

/-- the table against the batches -/
structure TableOk (g : Shared T) (γ : Ghost T) : Prop where
  explains : Explains mapApply noRows g.history γ.batches
  length : γ.status.length = g.table.slots.length
  index : ∀ (pk : UInt64) (i : ℕ), g.table.pkIndex[pk]? = some i ↔ γ.status[i]? = some (.live pk)
  live : ∀ (i : ℕ) pk, γ.status[i]? = some (.live pk) → ∃ row, Holds g i row ∧ γ.now pk = some row
  absent : ∀ pk : UInt64, g.table.pkIndex[pk]? = none → γ.now pk = none
  dead : ∀ (i : ℕ) pk n, γ.status[i]? = some (.dead pk n) → Replaced g γ i pk n
  deadInj : ∀ (i j : ℕ) pk pk' n, γ.status[i]? = some (.dead pk n) → γ.status[j]? = some (.dead pk' n) → i = j

/-! ## What a client knows of a call -/

/-- a call that has neither taken effect nor responded -/
structure Unused (t : T) (n : ℕ) (g : Shared T) (γ : Ghost T) : Prop where
  effect : (t, n) ∉ (order γ.batches).map Entry.id
  response : ∀ ret, Event.respond (t, n) ret ∉ g.history

/-- an invoked call that has not taken effect -/
structure Pending (t : T) (n : ℕ) (op : Op) (g : Shared T) (γ : Ghost T) : Prop where
  invoked : Event.invoke (t, n) op ∈ g.history
  unused : Unused t n g γ

/-- a call that has taken effect but not responded -/
structure Taken (t : T) (n : ℕ) (ret : Ret) (g : Shared T) (γ : Ghost T) : Prop where
  effect : ∃ e ∈ order γ.batches, e.id = (t, n) ∧ e.ret = ret
  response : ∀ ret, Event.respond (t, n) ret ∉ g.history

/-- a call has read the index of a slot: the slot is live, or it was when the call read it -/
def Found (t : T) (n idx : ℕ) (pk : UInt64) (g : Shared T) (γ : Ghost T) : Prop :=
  γ.status[idx]? = some (.live pk) ∨ ∃ (k : ℕ) (b : Batch (T × ℕ) Op Ret), γ.status[idx]? = some (.dead pk k) ∧
    γ.batches[k]? = some b ∧ ∀ (q : ℕ) op, g.history[q]? = some (.invoke (t, n) op) → q < b.stamp

/-! ## What a step may change -/

/-- what a client may do to the table and the batches -/
structure Guar (t : T) (g : Shared T) (γ : Ghost T) (g' : Shared T) (γ' : Ghost T) : Prop where
  history : ∃ own, g'.history = g.history ++ own ∧ ∀ event ∈ own, event.id.1 = t
  effects : ∀ e : Entry (T × ℕ) Op Ret, e.id.1 ≠ t → (e ∈ order γ'.batches ↔ e ∈ order γ.batches)
  pending : ∀ (i : ℕ) u, u ≠ t → γ.status[i]? = some (.pending u) →
    γ'.status[i]? = some (.pending u) ∧ g'.table.slots[i]? = g.table.slots[i]?
  live : ∀ (i : ℕ) pk, γ.status[i]? = some (.live pk) → γ'.status[i]? = some (.live pk) ∨
    ∃ (k : ℕ) (b : Batch (T × ℕ) Op Ret), γ'.status[i]? = some (.dead pk k) ∧ γ'.batches[k]? = some b ∧
      g.history.length ≤ b.stamp
  dead : ∀ (i : ℕ) pk (k : ℕ) b, γ.status[i]? = some (.dead pk k) → γ.batches[k]? = some b →
    ∃ b' : Batch (T × ℕ) Op Ret, γ'.status[i]? = some (.dead pk k) ∧ γ'.batches[k]? = some b' ∧ b'.stamp = b.stamp

/-- a step that leaves slots, batches and statuses alone -/
theorem Guar.of_eq {t : T} {g g' : Shared T} (γ : Ghost T) (hslots : g'.table.slots = g.table.slots)
    (hhistory : ∃ own, g'.history = g.history ++ own ∧ ∀ event ∈ own, event.id.1 = t) : Guar t g γ g' γ where
  history := hhistory
  effects _ _ := Iff.rfl
  pending _ _ _ h := ⟨h, by rw [hslots]⟩
  live _ _ h := Or.inl h
  dead _ _ _ b h hb := ⟨b, h, hb, rfl⟩

section Frame

variable {t u : T} (hne : u ≠ t) {g g' : Shared T} {γ γ' : Ghost T} (hguar : Guar t g γ g' γ')
include hne hguar

/-- an event of another client was there before -/
theorem Guar.event_old {q : ℕ} {event : Event (T × ℕ) Op Ret} (hid : event.id.1 = u)
    (h : g'.history[q]? = some event) : g.history[q]? = some event := by
  obtain ⟨own, hhistory, hown⟩ := hguar.history
  rw [hhistory] at h
  by_cases hq : q < g.history.length
  · rwa [List.getElem?_append_left hq] at h
  · rw [List.getElem?_append_right (Nat.not_lt.1 hq)] at h
    exact absurd (hid.symm.trans (hown event (List.mem_of_getElem? h))) hne

theorem Guar.response_old {n : ℕ} (h : ∀ ret, Event.respond (u, n) ret ∉ g.history) (ret : Ret) :
    Event.respond (u, n) ret ∉ g'.history := by
  intro hmem
  obtain ⟨q, hq⟩ := List.mem_iff_getElem?.1 hmem
  exact h ret (List.mem_of_getElem? (hguar.event_old hne rfl hq))

theorem Unused.frame {n : ℕ} (h : Unused u n g γ) : Unused u n g' γ' := by
  refine ⟨fun hmem => h.effect ?_, hguar.response_old hne h.response⟩
  obtain ⟨e, he, hid⟩ := List.mem_map.1 hmem
  have hclient : e.id.1 ≠ t := by
    rw [hid]
    exact hne
  exact List.mem_map.2 ⟨e, (hguar.effects e hclient).1 he, hid⟩

theorem Pending.frame {n : ℕ} {op : Op} (h : Pending u n op g γ) : Pending u n op g' γ' := by
  obtain ⟨own, hhistory, -⟩ := hguar.history
  refine ⟨?_, h.unused.frame hne hguar⟩
  rw [hhistory]
  exact List.mem_append_left _ h.invoked

theorem Taken.frame {n : ℕ} {ret : Ret} (h : Taken u n ret g γ) : Taken u n ret g' γ' := by
  obtain ⟨e, he, hid, hret⟩ := h.effect
  have hclient : e.id.1 ≠ t := by
    rw [hid]
    exact hne
  exact ⟨⟨e, (hguar.effects e hclient).2 he, hid, hret⟩, hguar.response_old hne h.response⟩

theorem Found.frame {n idx : ℕ} {pk : UInt64} (h : Found u n idx pk g γ) : Found u n idx pk g' γ' := by
  rcases h with hlive | ⟨k, b, hdead, hb, hstamp⟩
  · rcases hguar.live idx pk hlive with hlive' | ⟨k, b, hdead, hb, hstamp⟩
    · exact Or.inl hlive'
    · refine Or.inr ⟨k, b, hdead, hb, fun q op hq => ?_⟩
      have hold := hguar.event_old hne rfl hq
      exact (List.getElem?_eq_some_iff.1 hold).1.trans_le hstamp
  · obtain ⟨b', hdead', hb', hstamp'⟩ := hguar.dead idx pk k b hdead hb
    refine Or.inr ⟨k, b', hdead', hb', fun q op hq => ?_⟩
    rw [hstamp']
    exact hstamp q op (hguar.event_old hne rfl hq)

end Frame

/-! ## Taking effect -/

/-- one more operation has taken effect -/
def Effect (t : T) (n : ℕ) (op : Op) (ret : Ret) (γ γ' : Ghost T) : Prop :=
  (order γ'.batches).Perm (⟨(t, n), op, ret⟩ :: order γ.batches)

section Effect

variable {t : T} {n : ℕ} {op : Op} {ret : Ret} {g g' : Shared T} {γ γ' : Ghost T} (heffect : Effect t n op ret γ γ')
include heffect

theorem Effect.effects (e : Entry (T × ℕ) Op Ret) (he : e.id.1 ≠ t) : e ∈ order γ'.batches ↔ e ∈ order γ.batches := by
  rw [List.Perm.mem_iff heffect, List.mem_cons]
  constructor
  · rintro (rfl | hold)
    · exact absurd rfl he
    · exact hold
  · exact Or.inr

theorem Effect.taken (hhistory : g'.history = g.history) (hunused : Unused t n g γ) : Taken t n ret g' γ' := by
  refine ⟨⟨_, (List.Perm.mem_iff heffect).2 List.mem_cons_self, rfl, rfl⟩, ?_⟩
  rw [hhistory]
  exact hunused.response

theorem Effect.later (hhistory : g'.history = g.history) {m : ℕ} (hm : n < m) (h : Unused t m g γ) :
    Unused t m g' γ' := by
  refine ⟨fun hmem => ?_, by rw [hhistory]; exact h.response⟩
  rw [List.Perm.mem_iff (List.Perm.map Entry.id heffect), List.map_cons, List.mem_cons] at hmem
  rcases hmem with heq | hold
  · exact absurd (congrArg Prod.snd heq) (Nat.ne_of_gt hm)
  · exact h.effect hold

end Effect

/-- the ghost state after an operation that takes effect now -/
def Ghost.append (γ : Ghost T) (e : Entry (T × ℕ) Op Ret) (stamp : ℕ) (status : List (Status T)) : Ghost T :=
  ⟨γ.batches ++ [⟨[], e, stamp⟩], status⟩

section Append

variable (γ : Ghost T) (e : Entry (T × ℕ) Op Ret) (stamp : ℕ) (status : List (Status T))

theorem Ghost.append_order : order (γ.append e stamp status).batches = order γ.batches ++ [e] := by
  unfold append
  rw [order_append]
  rfl

theorem Ghost.append_effect (t : T) (n : ℕ) (op : Op) (ret : Ret) :
    Effect t n op ret γ (γ.append ⟨(t, n), op, ret⟩ stamp status) := by
  unfold Effect
  rw [Ghost.append_order]
  exact List.perm_append_singleton _ _

theorem Ghost.append_now : (γ.append e stamp status).now = (mapApply γ.now e.op).1 := by
  unfold Ghost.now
  rw [Ghost.append_order, after_append, after_cons, after_nil]

theorem Ghost.append_get {k : ℕ} {b : Batch (T × ℕ) Op Ret} (hb : γ.batches[k]? = some b) :
    (γ.append e stamp status).batches[k]? = some b := by
  unfold append
  rw [List.getElem?_append_left (List.getElem?_eq_some_iff.1 hb).1]
  exact hb

theorem Ghost.append_before {k : ℕ} (hk : k ≤ γ.batches.length) : (γ.append e stamp status).before k = γ.before k :=
  before_append mapApply noRows hk _

/-- a dead slot that is left alone is still replaced -/
theorem Replaced.append {g g' : Shared T} {i : ℕ} {pk : UInt64} {k : ℕ} (h : Replaced g γ i pk k)
    (hslot : g'.table.slots[i]? = g.table.slots[i]?) : Replaced g' (γ.append e stamp status) i pk k := by
  obtain ⟨row, b, newer, hholds, hb, hop, hrow⟩ := h
  refine ⟨row, b, newer, ⟨hholds.good, hslot.trans hholds.bytes⟩, γ.append_get e stamp status hb, hop, ?_⟩
  rw [γ.append_before e stamp status (List.getElem?_eq_some_iff.1 hb).1.le]
  exact hrow

end Append

section Steps

variable {t : T} {n : ℕ} {op : Op} {g : Shared T} {γ : Ghost T} (hg : TableOk g γ) (hpending : Pending t n op g γ)
include hg hpending

theorem append_explains {ret : Ret} (hret : (mapApply γ.now op).2 = ret) (status : List (Status T)) :
    Explains mapApply noRows g.history (γ.append ⟨(t, n), op, ret⟩ g.history.length status).batches :=
  hg.explains.append hpending.unused.effect hpending.invoked hpending.unused.response hret

/-- **An operation that changes nothing takes effect.** -/
theorem observe_ok {ret : Ret} (hmap : mapApply γ.now op = (γ.now, ret)) :
    ∃ γ', TableOk g γ' ∧ Guar t g γ g γ' ∧ Effect t n op ret γ γ' := by
  have hnow : (γ.append ⟨(t, n), op, ret⟩ g.history.length γ.status).now = γ.now := by
    rw [Ghost.append_now, hmap]
  refine ⟨γ.append ⟨(t, n), op, ret⟩ g.history.length γ.status, ?_, ?_, γ.append_effect _ _ _ _ _ _⟩
  · refine ⟨append_explains hg hpending (by rw [hmap]) _, hg.length, hg.index, ?_, ?_, ?_, hg.deadInj⟩
    · rw [hnow]
      exact hg.live
    · rw [hnow]
      exact hg.absent
    · exact fun i pk k hdead => (hg.dead i pk k hdead).append _ _ _ _ rfl
  · refine ⟨⟨[], (List.append_nil _).symm, nofun⟩, (γ.append_effect _ _ _ _ _ _).effects, fun _ _ _ h => ⟨h, rfl⟩,
      fun _ _ h => Or.inl h, fun i pk k b hdead hb => ⟨b, hdead, γ.append_get _ _ _ hb, rfl⟩⟩

end Steps

/-! ## Publishing -/

/-- the statuses after a publication: the published slot is live, and a slot it replaces is dead -/
def publishStatus (γ : Ghost T) (old : Option ℕ) (pk : UInt64) (idx : ℕ) : List (Status T) :=
  match old with
  | none => γ.status.set idx (.live pk)
  | some i => (γ.status.set i (.dead pk γ.batches.length)).set idx (.live pk)

theorem publishStatus_length (γ : Ghost T) (old : Option ℕ) (pk : UInt64) (idx : ℕ) :
    (publishStatus γ old pk idx).length = γ.status.length := by
  unfold publishStatus
  cases old with
  | none => rw [List.length_set]
  | some i => rw [List.length_set, List.length_set]

theorem publishStatus_get (γ : Ghost T) (old : Option ℕ) (pk : UInt64) {idx : ℕ} (hidx : idx < γ.status.length)
    (hold : ∀ i, old = some i → i < γ.status.length) (i : ℕ) :
    (publishStatus γ old pk idx)[i]? =
      if i = idx then some (.live pk) else if old = some i then some (.dead pk γ.batches.length) else γ.status[i]? := by
  unfold publishStatus
  cases old with
  | none =>
    by_cases hi : i = idx
    · subst hi
      rw [if_pos rfl]
      exact List.getElem?_set_self hidx
    · rw [if_neg hi, if_neg nofun]
      exact List.getElem?_set_ne (Ne.symm hi)
  | some i₀ =>
    by_cases hi : i = idx
    · subst hi
      rw [if_pos rfl]
      exact List.getElem?_set_self (by rwa [List.length_set])
    · rw [if_neg hi]
      dsimp only
      rw [List.getElem?_set_ne (Ne.symm hi)]
      by_cases hi₀ : i₀ = i
      · subst hi₀
        rw [if_pos rfl]
        exact List.getElem?_set_self (hold i₀ rfl)
      · rw [if_neg fun h => hi₀ (Option.some_inj.1 h)]
        exact List.getElem?_set_ne hi₀

section Publish

variable {t : T} {n : ℕ} {g : Shared T} {γ : Ghost T} (hg : TableOk g γ) {pk : UInt64} {idx : ℕ}
  (hstatus : γ.status[idx]? = some (.pending t))
include hg hstatus

theorem published_get (i : ℕ) : (publishStatus γ g.table.pkIndex[pk]? pk idx)[i]? =
    if i = idx then some (.live pk)
    else if g.table.pkIndex[pk]? = some i then some (.dead pk γ.batches.length) else γ.status[i]? :=
  publishStatus_get γ _ pk (List.getElem?_eq_some_iff.1 hstatus).1
    (fun i hi => (List.getElem?_eq_some_iff.1 ((hg.index pk i).1 hi)).1) i

/-- a slot with another status than the key's live one keeps it -/
theorem published_keep {i : ℕ} {s : Status T} (hs : γ.status[i]? = some s) (hi : i ≠ idx) (hlive : s ≠ .live pk) :
    (publishStatus γ g.table.pkIndex[pk]? pk idx)[i]? = some s := by
  rw [published_get hg hstatus, if_neg hi, if_neg ?_, hs]
  intro hold
  rw [(hg.index pk i).1 hold] at hs
  exact hlive (Option.some_inj.1 hs).symm

theorem published_live {i : ℕ} {pk' : UInt64}
    (h : (publishStatus γ g.table.pkIndex[pk]? pk idx)[i]? = some (.live pk')) :
    pk = pk' ∧ i = idx ∨ pk ≠ pk' ∧ γ.status[i]? = some (.live pk') := by
  rw [published_get hg hstatus] at h
  split_ifs at h with hi hold
  · cases h
    exact Or.inl ⟨rfl, hi⟩
  · cases h
  · refine Or.inr ⟨?_, h⟩
    rintro rfl
    exact hold ((hg.index pk i).2 h)

theorem published_dead {i : ℕ} {pk' : UInt64} {k : ℕ}
    (h : (publishStatus γ g.table.pkIndex[pk]? pk idx)[i]? = some (.dead pk' k)) :
    pk' = pk ∧ k = γ.batches.length ∧ g.table.pkIndex[pk]? = some i ∨ γ.status[i]? = some (.dead pk' k) := by
  rw [published_get hg hstatus] at h
  split_ifs at h with hi hold
  · cases h
  · cases h
    exact Or.inl ⟨rfl, rfl, hold⟩
  · exact Or.inr h

omit hg in
/-- the published slot had no other status -/
theorem pending_ne {i : ℕ} {s : Status T} (hs : γ.status[i]? = some s) (hne : s ≠ .pending t) : i ≠ idx := by
  rintro rfl
  rw [hstatus] at hs
  exact hne (Option.some_inj.1 hs).symm

omit hstatus in
theorem dead_lt {i : ℕ} {pk' : UInt64} {k : ℕ} (h : γ.status[i]? = some (.dead pk' k)) : k < γ.batches.length := by
  obtain ⟨-, b, -, -, hb, -⟩ := hg.dead i pk' k h
  exact (List.getElem?_eq_some_iff.1 hb).1

variable {row : List Value}

/-- the table after a publication -/
theorem publish_table (hpending : Pending t n (.insert pk row) g γ) (hslot : Holds g idx row) :
    TableOk { g with table := { g.table with pkIndex := g.table.pkIndex.insert pk idx } }
      (γ.append ⟨(t, n), .insert pk row, .insert pk⟩ g.history.length
        (publishStatus γ g.table.pkIndex[pk]? pk idx)) := by
  have hnow := γ.append_now ⟨(t, n), .insert pk row, .insert pk⟩ g.history.length
    (publishStatus γ g.table.pkIndex[pk]? pk idx)
  change _ = Function.update γ.now pk (some row) at hnow
  refine ⟨append_explains hg hpending rfl _, (publishStatus_length γ _ pk idx).trans hg.length, fun pk' i => ?_,
    fun i pk' hs => ?_, fun pk' hnone => ?_, fun i pk' k hs => ?_, fun i j pk' pk'' k hi hj => ?_⟩
  · change (g.table.pkIndex.insert pk idx)[pk']? = some i ↔
      (publishStatus γ g.table.pkIndex[pk]? pk idx)[i]? = some (.live pk')
    rw [TreeMap.get_insert]
    by_cases hpk : pk = pk'
    · subst hpk
      rw [if_pos rfl]
      constructor
      · intro heq
        cases heq
        rw [published_get hg hstatus, if_pos rfl]
      · intro hs
        rcases published_live hg hstatus hs with ⟨-, rfl⟩ | ⟨hne, -⟩
        · rfl
        · exact absurd rfl hne
    · rw [if_neg hpk, hg.index]
      constructor
      · intro hs
        refine published_keep hg hstatus hs (pending_ne hstatus hs nofun) fun heq => ?_
        cases heq
        exact hpk rfl
      · intro hs
        rcases published_live hg hstatus hs with ⟨heq, -⟩ | ⟨-, hold⟩
        · exact absurd heq hpk
        · exact hold
  · rw [hnow]
    rcases published_live hg hstatus hs with ⟨rfl, rfl⟩ | ⟨hne, hold⟩
    · exact ⟨row, ⟨hslot.good, hslot.bytes⟩, Function.update_self _ _ _⟩
    · obtain ⟨row', hholds, hrow'⟩ := hg.live i pk' hold
      exact ⟨row', ⟨hholds.good, hholds.bytes⟩, by rw [Function.update_of_ne (Ne.symm hne), hrow']⟩
  · change (g.table.pkIndex.insert pk idx)[pk']? = none at hnone
    rw [TreeMap.get_insert] at hnone
    split_ifs at hnone with hpk
    rw [hnow, Function.update_of_ne (Ne.symm hpk)]
    exact hg.absent pk' hnone
  · rcases published_dead hg hstatus hs with ⟨rfl, rfl, hold⟩ | hold
    · obtain ⟨row', hholds, hrow'⟩ := hg.live i pk' ((hg.index pk' i).1 hold)
      refine ⟨row', _, row, ⟨hholds.good, hholds.bytes⟩, List.getElem?_concat_length, rfl, ?_⟩
      rw [after_nil, γ.append_before _ _ _ le_rfl]
      unfold Ghost.before Linearizability.before
      rw [List.take_length]
      exact hrow'
    · exact (hg.dead i pk' k hold).append _ _ _ _ rfl
  · rcases published_dead hg hstatus hi with ⟨-, rfl, holdi⟩ | holdi
    · rcases published_dead hg hstatus hj with ⟨-, -, holdj⟩ | holdj
      · exact Option.some_inj.1 (holdi.symm.trans holdj)
      · exact absurd (dead_lt hg holdj) (lt_irrefl _)
    · rcases published_dead hg hstatus hj with ⟨-, rfl, holdj⟩ | holdj
      · exact absurd (dead_lt hg holdi) (lt_irrefl _)
      · exact hg.deadInj i j pk' pk'' k holdi holdj

/-- **A publication** makes the insert take effect. -/
theorem publish_ok (hpending : Pending t n (.insert pk row) g γ) (hslot : Holds g idx row) :
    ∃ γ', TableOk { g with table := { g.table with pkIndex := g.table.pkIndex.insert pk idx } } γ' ∧
      Guar t g γ { g with table := { g.table with pkIndex := g.table.pkIndex.insert pk idx } } γ' ∧
      Effect t n (.insert pk row) (.insert pk) γ γ' := by
  have heffect := γ.append_effect g.history.length (publishStatus γ g.table.pkIndex[pk]? pk idx) t n (.insert pk row)
    (.insert pk)
  refine ⟨_, publish_table hg hstatus hpending hslot, ⟨⟨[], (List.append_nil _).symm, nofun⟩, heffect.effects,
    fun i u hu hs => ⟨published_keep hg hstatus hs ?_ nofun, rfl⟩, fun i pk' hs => ?_, fun i pk' k b hs hb => ?_⟩,
    heffect⟩
  · refine pending_ne hstatus hs fun heq => ?_
    cases heq
    exact hu rfl
  · by_cases hpk : pk = pk'
    · subst hpk
      refine Or.inr ⟨γ.batches.length, _, ?_, List.getElem?_concat_length, le_rfl⟩
      exact (published_get hg hstatus i).trans
        ((if_neg (pending_ne hstatus hs nofun)).trans (if_pos ((hg.index pk i).2 hs)))
    · refine Or.inl (published_keep hg hstatus hs (pending_ne hstatus hs nofun) fun heq => ?_)
      cases heq
      exact hpk rfl
  · exact ⟨b, published_keep hg hstatus hs (pending_ne hstatus hs nofun) nofun, γ.append_get _ _ _ hb, rfl⟩

end Publish

/-! ## Operations on a slot -/

/-- an operation that finds a row under its key, and leaves a row there -/
def Acts (op : Op) (pk : UInt64) (row row' : List Value) (ret : Ret) : Prop :=
  ∀ m : RowMap, m pk = some row → mapApply m op = (Function.update m pk (some row'), ret)

theorem select_acts (pk : UInt64) (row : List Value) : Acts (.select pk) pk row row (.select (some row)) := by
  intro m hm
  change (m, Ret.select (m pk)) = _
  rw [hm, ← hm, Function.update_eq_self, hm]

theorem updateField_acts {col : String} {pos : ℕ} (hcol : catalogGet col = some pos) (pk : UInt64) (row : List Value)
    (v : Value) : Acts (.updateField pk col v) pk row (row.set pos v) (.updateField (some ())) := by
  intro m hm
  simp only [mapApply, hm, hcol]

/-- an insert overwrites what was under its key -/
theorem insert_overwrites (m : RowMap) (pk : UInt64) (row : Option (List Value)) (newer : List Value) :
    mapApply (Function.update m pk row) (.insert pk newer) = mapApply m (.insert pk newer) := by
  simp only [mapApply, Function.update_idem]

section Touch

variable {t : T} {n : ℕ} {g g' : Shared T} {γ : Ghost T} (hg : TableOk g γ) {op : Op} {pk : UInt64} {idx : ℕ}
  {row row' : List Value} {ret : Ret} (hpending : Pending t n op g γ) (hacts : Acts op pk row row' ret)
  (hrow : Holds g idx row) (hrow' : Holds g' idx row') (hhistory : g'.history = g.history)
  (hindex : g'.table.pkIndex = g.table.pkIndex) (hlength : g'.table.slots.length = g.table.slots.length)
  (hslots : ∀ i, i ≠ idx → g'.table.slots[i]? = g.table.slots[i]?)
include hg hpending hacts hrow hrow' hhistory hindex hlength hslots

/-- an operation on a live slot takes effect now -/
theorem touch_live (hlive : γ.status[idx]? = some (.live pk)) :
    ∃ γ', TableOk g' γ' ∧ Guar t g γ g' γ' ∧ Effect t n op ret γ γ' := by
  have heffect := γ.append_effect g.history.length γ.status t n op ret
  obtain ⟨row₀, hholds₀, hnow₀⟩ := hg.live idx pk hlive
  obtain rfl := hholds₀.eq hrow
  have hmap := hacts γ.now hnow₀
  have hnow : (γ.append ⟨(t, n), op, ret⟩ g.history.length γ.status).now = Function.update γ.now pk (some row') := by
    rw [Ghost.append_now, hmap]
  have hother : ∀ (i : ℕ) s, γ.status[i]? = some s → s ≠ .live pk → i ≠ idx := by
    rintro i s hs hne rfl
    rw [hlive] at hs
    exact hne (Option.some_inj.1 hs).symm
  have hret : (mapApply γ.now op).2 = ret := by rw [hmap]
  refine ⟨γ.append ⟨(t, n), op, ret⟩ g.history.length γ.status,
    ⟨?_, ?_, ?_, fun i pk' hs => ?_, fun pk' hnone => ?_, fun i pk' k hs => ?_, hg.deadInj⟩,
    ⟨⟨[], by rw [hhistory, List.append_nil], nofun⟩, heffect.effects,
      fun i u hu hs => ⟨hs, hslots i (hother i _ hs nofun)⟩, fun _ _ hs => Or.inl hs,
      fun i pk' k b hs hb => ⟨b, hs, γ.append_get _ _ _ hb, rfl⟩⟩, heffect⟩
  · rw [hhistory]
    exact append_explains hg hpending hret _
  · rw [hlength]
    exact hg.length
  · rw [hindex]
    exact hg.index
  · rw [hnow]
    by_cases hpk : pk' = pk
    · subst hpk
      have hsame := ((hg.index pk' i).2 hs).symm.trans ((hg.index pk' idx).2 hlive)
      obtain rfl := Option.some_inj.1 hsame
      exact ⟨row', hrow', Function.update_self _ _ _⟩
    · obtain ⟨r, hholds, hr⟩ := hg.live i pk' hs
      have hne := hother i _ hs fun heq => hpk (by cases heq; rfl)
      exact ⟨r, ⟨hholds.good, (hslots i hne).trans hholds.bytes⟩, by rw [Function.update_of_ne hpk, hr]⟩
  · rw [hindex] at hnone
    have hpk : pk' ≠ pk := by
      rintro rfl
      rw [(hg.index pk' idx).2 hlive] at hnone
      cases hnone
    rw [hnow, Function.update_of_ne hpk]
    exact hg.absent pk' hnone
  · exact (hg.dead i pk' k hs).append _ _ _ _ (hslots i (hother i _ hs nofun))

/-- an operation on a dead slot takes effect just before the insert that replaced the slot -/
theorem touch_dead {k : ℕ} {b : Batch (T × ℕ) Op Ret} (hdead : γ.status[idx]? = some (.dead pk k))
    (hb : γ.batches[k]? = some b) (hstamp : ∀ (q : ℕ) op, g.history[q]? = some (.invoke (t, n) op) → q < b.stamp) :
    ∃ γ', TableOk g' γ' ∧ Guar t g γ g' γ' ∧ Effect t n op ret γ γ' := by
  let e : Entry (T × ℕ) Op Ret := ⟨(t, n), op, ret⟩
  have heffect : Effect t n op ret γ ⟨γ.batches.modify k (Batch.add e), γ.status⟩ :=
    order_modify_perm (List.getElem?_eq_some_iff.1 hb).1 e
  obtain ⟨row₀, b₀, newer, hholds₀, hb₀, hop, hstate⟩ := hg.dead idx pk k hdead
  obtain rfl := hholds₀.eq hrow
  rw [hb] at hb₀
  obtain rfl := Option.some_inj.1 hb₀
  have hmap := hacts _ hstate
  have hret : (mapApply (after mapApply (γ.before k) b.early) op).2 = ret := by rw [hmap]
  have hover : Overwritten mapApply (γ.before k) e b := by
    unfold Overwritten
    rw [hmap, hop]
    exact insert_overwrites _ pk _ newer
  have hnow : Ghost.now ⟨γ.batches.modify k (Batch.add e), γ.status⟩ = γ.now := after_modify hb hover
  have hother : ∀ (i : ℕ) s, γ.status[i]? = some s → s ≠ .dead pk k → i ≠ idx := by
    rintro i s hs hne rfl
    rw [hdead] at hs
    exact hne (Option.some_inj.1 hs).symm
  have hget : ∀ k' b', γ.batches[k']? = some b' → (γ.batches.modify k (Batch.add e))[k']? =
      some (if k = k' then b'.add e else b') := by
    intro k' b' hb'
    rw [List.getElem?_modify, hb']
    by_cases hk : k = k' <;> simp [hk]
  refine ⟨⟨γ.batches.modify k (Batch.add e), γ.status⟩, ⟨?_, ?_, ?_, fun i pk' hs => ?_, fun pk' hnone => ?_,
    fun i pk' k' hs => ?_, hg.deadInj⟩, ⟨⟨[], by rw [hhistory, List.append_nil], nofun⟩, heffect.effects,
    fun i u hu hs => ⟨hs, hslots i (hother i _ hs nofun)⟩, fun _ _ hs => Or.inl hs, fun i pk' k' b' hs hb' =>
      ⟨_, hs, hget k' b' hb', ?_⟩⟩, heffect⟩
  · rw [hhistory]
    exact hg.explains.insert hpending.unused.effect hpending.invoked hpending.unused.response hb hret hover hstamp
  · rw [hlength]
    exact hg.length
  · rw [hindex]
    exact hg.index
  · rw [hnow]
    obtain ⟨r, hholds, hr⟩ := hg.live i pk' hs
    exact ⟨r, ⟨hholds.good, (hslots i (hother i _ hs nofun)).trans hholds.bytes⟩, hr⟩
  · rw [hindex] at hnone
    rw [hnow]
    exact hg.absent pk' hnone
  · obtain ⟨r, b', newer', hholds, hb', hop', hr⟩ := hg.dead i pk' k' hs
    have hbefore : Ghost.before ⟨γ.batches.modify k (Batch.add e), γ.status⟩ k' = γ.before k' :=
      before_modify hb hover k'
    by_cases hk : k = k'
    · subst hk
      obtain rfl := hg.deadInj idx i pk pk' k hdead hs
      rw [hdead] at hs
      cases hs
      rw [hb] at hb'
      obtain rfl := Option.some_inj.1 hb'
      refine ⟨row', b.add e, newer', hrow', (hget k b hb).trans (by rw [if_pos rfl]), hop', ?_⟩
      rw [hbefore]
      unfold Batch.add
      rw [after_append, after_cons, after_nil, hmap]
      exact Function.update_self _ _ _
    · have hne := hother i _ hs fun heq => hk (by cases heq; rfl)
      refine ⟨r, b', newer', ⟨hholds.good, (hslots i hne).trans hholds.bytes⟩,
        (hget k' b' hb').trans (by rw [if_neg hk]), hop', ?_⟩
      rw [hbefore]
      exact hr
  · split_ifs
    · rfl
    · rfl

/-- **An operation on a slot** that the index gave takes effect. -/
theorem touch_ok (hfound : Found t n idx pk g γ) :
    ∃ γ', TableOk g' γ' ∧ Guar t g γ g' γ' ∧ Effect t n op ret γ γ' := by
  rcases hfound with hlive | ⟨k, b, hdead, hb, hstamp⟩
  · exact touch_live hg hpending hacts hrow hrow' hhistory hindex hlength hslots hlive
  · exact touch_dead hg hpending hacts hrow hrow' hhistory hindex hlength hslots hdead hb hstamp

end Touch

/-- a slot that the index gave holds a row -/
theorem Found.holds {t : T} {n idx : ℕ} {pk : UInt64} {g : Shared T} {γ : Ghost T} (hg : TableOk g γ)
    (h : Found t n idx pk g γ) : ∃ row, Holds g idx row := by
  rcases h with hlive | ⟨k, b, hdead, -, -⟩
  · obtain ⟨row, hholds, -⟩ := hg.live idx pk hlive
    exact ⟨row, hholds⟩
  · obtain ⟨row, -, -, hholds, -⟩ := hg.dead idx pk k hdead
    exact ⟨row, hholds⟩

end WtBenchmarks.Contention
