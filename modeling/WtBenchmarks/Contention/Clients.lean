/-
The clients of a `DynTable`: what each knows, and the thread-modular proof.

What a client knows of its current call follows where it is in it (`PcOk`). Each of its steps keeps that, the table and
the batches in order, and leaves the other clients' knowledge alone.

- `effect_ok`, `locks_ok`, `record_ok`: the three kinds of steps;
- `step_ok`: no step panics, and every step keeps the invariant;
- `outline`: the proof outline.
-/
import WtBenchmarks.Contention.Effects

namespace WtBenchmarks.Contention

open Linearizability

variable {T : Type}

/-! ## Calls -/

/-- inserted rows have the bench columns and a `U64` primary key -/
def Call.Bench : Call → Prop
  | .insert row => row.length = cols.length ∧ ∃ pk rest, row = .u64 pk :: rest
  | .select _ => True
  | .updateField _ col _ => col ∈ cols

/-- all strings are shorter than `2 ^ 32` bytes -/
def Call.Short : Call → Prop
  | .insert row => ∀ v ∈ row, v.Short
  | .select _ => True
  | .updateField _ _ v => v.Short

/-! ## What a client knows -/

/-- what a client knows at each step of a call -/
def PcOk (t : T) (n : ℕ) (g : Shared T) (γ : Ghost T) : Pc → Prop
  | .idle => Unused t n g γ
  | .push pk buf => ∃ row, GoodRow row ∧ buf = encode row ∧ Pending t n (.insert pk row) g γ
  | .publish pk idx => ∃ row, Holds g idx row ∧ γ.status[idx]? = some (.pending t) ∧ Pending t n (.insert pk row) g γ
  | .lookup pk => Pending t n (.select pk) g γ
  | .read idx => ∃ pk, Pending t n (.select pk) g γ ∧ Found t n idx pk g γ
  | .lockTable pk col v => v.Short ∧ Pending t n (.updateField pk col v) g γ
  | .lockRow pk col v _ => v.Short ∧ Pending t n (.updateField pk col v) g γ
  | .find pk col v _ => v.Short ∧ Pending t n (.updateField pk col v) g γ
  | .write idx pos v _ => ∃ pk col, v.Short ∧ catalogGet col = some pos ∧ Pending t n (.updateField pk col v) g γ ∧
      Found t n idx pk g γ
  | .unlock _ done => Taken t n (.updateField done) g γ
  | .respond ret => Taken t n ret g γ
  | .unwind _ => False
  | .panicked => False

structure ClientOk (t : T) (g : Shared T) (γ : Ghost T) (c : Client) : Prop where
  calls : ∀ call ∈ c.calls, call.Bench ∧ call.Short
  later : ∀ n, c.turn < n → Unused t n g γ
  pc : PcOk t c.turn g γ c.pc

section Frame

variable {t u : T} (hne : u ≠ t) {g g' : Shared T} {γ γ' : Ghost T} (hguar : Guar t g γ g' γ')
include hne hguar

theorem PcOk.frame {n : ℕ} {pc : Pc} (h : PcOk u n g γ pc) : PcOk u n g' γ' pc := by
  cases pc with
  | idle => exact Unused.frame hne hguar h
  | push pk buf =>
    obtain ⟨row, hrow, hbuf, hpending⟩ := h
    exact ⟨row, hrow, hbuf, hpending.frame hne hguar⟩
  | publish pk idx =>
    obtain ⟨row, hholds, hstatus, hpending⟩ := h
    obtain ⟨hstatus', hslot⟩ := hguar.pending idx u hne hstatus
    exact ⟨row, ⟨hholds.good, hslot.trans hholds.bytes⟩, hstatus', hpending.frame hne hguar⟩
  | lookup pk => exact Pending.frame hne hguar h
  | read idx =>
    obtain ⟨pk, hpending, hfound⟩ := h
    exact ⟨pk, hpending.frame hne hguar, hfound.frame hne hguar⟩
  | lockTable pk col v => exact ⟨h.1, h.2.frame hne hguar⟩
  | lockRow pk col v mutex => exact ⟨h.1, h.2.frame hne hguar⟩
  | find pk col v mutex => exact ⟨h.1, h.2.frame hne hguar⟩
  | write idx pos v mutex =>
    obtain ⟨pk, col, hv, hcol, hpending, hfound⟩ := h
    exact ⟨pk, col, hv, hcol, hpending.frame hne hguar, hfound.frame hne hguar⟩
  | unlock mutex done => exact Taken.frame hne hguar h
  | respond ret => exact Taken.frame hne hguar h
  | unwind mutex => exact h
  | panicked => exact h

theorem ClientOk.frame {c : Client} (h : ClientOk u g γ c) : ClientOk u g' γ' c :=
  ⟨h.calls, fun n hn => (h.later n hn).frame hne hguar, h.pc.frame hne hguar⟩

end Frame

/-! ## Steps that only touch locks or the history -/

/-- a step to a state, with the invariant there -/
def StepsTo (t : T) (g : Shared T) (γ : Ghost T) (g' : Shared T) (c' : Client) : Prop :=
  ∃ γ', TableOk g' γ' ∧ ClientOk t g' γ' c' ∧ Guar t g γ g' γ'

theorem Unused.of_history {t : T} {n : ℕ} {g g' : Shared T} {γ : Ghost T} (h : Unused t n g γ)
    (hhistory : g'.history = g.history) : Unused t n g' γ := by
  refine ⟨h.effect, ?_⟩
  rw [hhistory]
  exact h.response

theorem Pending.of_history {t : T} {n : ℕ} {op : Op} {g g' : Shared T} {γ : Ghost T} (h : Pending t n op g γ)
    (hhistory : g'.history = g.history) : Pending t n op g' γ := by
  refine ⟨?_, h.unused.of_history hhistory⟩
  rw [hhistory]
  exact h.invoked

theorem Taken.of_history {t : T} {n : ℕ} {ret : Ret} {g g' : Shared T} {γ : Ghost T} (h : Taken t n ret g γ)
    (hhistory : g'.history = g.history) : Taken t n ret g' γ := by
  refine ⟨h.effect, ?_⟩
  rw [hhistory]
  exact h.response

/-- the invariant does not speak of locks -/
theorem TableOk.of_eq {g g' : Shared T} {γ : Ghost T} (h : TableOk g γ) (hhistory : g'.history = g.history)
    (hslots : g'.table.slots = g.table.slots) (hindex : g'.table.pkIndex = g.table.pkIndex) : TableOk g' γ := by
  have hholds : ∀ i row, Holds g i row → Holds g' i row := fun i row hrow => ⟨hrow.good, by rw [hslots, hrow.bytes]⟩
  refine ⟨?_, ?_, ?_, fun i pk hs => ?_, ?_, fun i pk n hs => ?_, h.deadInj⟩
  · rw [hhistory]
    exact h.explains
  · rw [hslots]
    exact h.length
  · rw [hindex]
    exact h.index
  · obtain ⟨row, hrow, hnow⟩ := h.live i pk hs
    exact ⟨row, hholds i row hrow, hnow⟩
  · rw [hindex]
    exact h.absent
  · obtain ⟨row, b, newer, hrow, hb⟩ := h.dead i pk n hs
    exact ⟨row, b, newer, hholds i row hrow, hb⟩

section Client

variable {t : T} {g g' : Shared T} {γ : Ghost T} {c : Client} (hg : TableOk g γ) (hc : ClientOk t g γ c)
include hg hc

/-- a step that changes locks alone -/
theorem locks_ok {pc' : Pc} (hhistory : g'.history = g.history) (hslots : g'.table.slots = g.table.slots)
    (hindex : g'.table.pkIndex = g.table.pkIndex) (hpc' : PcOk t c.turn g' γ pc') :
    StepsTo t g γ g' { c with pc := pc' } :=
  ⟨γ, hg.of_eq hhistory hslots hindex, ⟨hc.calls, fun n hn => (hc.later n hn).of_history hhistory, hpc'⟩,
    Guar.of_eq γ hslots ⟨[], by rw [hhistory, List.append_nil], nofun⟩⟩

omit hc in
/-- a step that records an event of the client's call -/
theorem record_ok {event : Event (T × ℕ) Op Ret} {c' : Client} (hevent : event.id = (t, c.turn))
    (hexplains : Explains mapApply noRows (g.record event).history γ.batches)
    (hc' : ClientOk t (g.record event) γ c') : StepsTo t g γ (g.record event) c' := by
  refine ⟨γ, ⟨hexplains, hg.length, hg.index, fun i pk hs => ?_, hg.absent, fun i pk n hs => ?_, hg.deadInj⟩, hc',
    Guar.of_eq γ rfl ⟨[event], rfl, fun e he => ?_⟩⟩
  · obtain ⟨row, hrow, hnow⟩ := hg.live i pk hs
    exact ⟨row, ⟨hrow.good, hrow.bytes⟩, hnow⟩
  · obtain ⟨row, b, newer, hrow, hb⟩ := hg.dead i pk n hs
    exact ⟨row, b, newer, ⟨hrow.good, hrow.bytes⟩, hb⟩
  · rw [List.mem_singleton.1 he, hevent]

omit hg hc in
/-- an event of one call leaves the later ones unused -/
theorem Unused.record {n m : ℕ} (hnm : n ≠ m) {event : Event (T × ℕ) Op Ret} (hevent : event.id = (t, n))
    (h : Unused t m g γ) : Unused t m (g.record event) γ := by
  refine ⟨h.effect, fun ret hmem => ?_⟩
  rcases List.mem_append.1 hmem with hold | hnew
  · exact h.response ret hold
  · rw [← List.mem_singleton.1 hnew] at hevent
    exact hnm (congrArg Prod.snd hevent).symm

/-- the invocation of the next call -/
theorem invoke_ok {op : Op} {pc' : Pc} (hidle : c.pc = .idle)
    (hpc' : ∀ g', Pending t c.turn op g' γ → PcOk t c.turn g' γ pc') :
    StepsTo t g γ (g.record (.invoke (t, c.turn) op)) { c with pc := pc' } := by
  have hunused := hc.pc
  rw [hidle] at hunused
  refine record_ok hg rfl (hg.explains.invoke_snoc op hunused.effect)
    ⟨hc.calls, fun n hn => (hc.later n hn).record hn.ne rfl, hpc' _ ⟨?_, hunused.effect, fun ret hmem => ?_⟩⟩
  · exact List.mem_append_right _ (List.mem_singleton.2 rfl)
  · rcases List.mem_append.1 hmem with hold | hnew
    · exact hunused.response ret hold
    · cases List.mem_singleton.1 hnew

theorem idle_ok (hidle : c.pc = .idle) {call : Call} (hcall : c.calls[c.turn]? = some call) :
    StepsTo t g γ (invoke t g c call).1 (invoke t g c call).2 := by
  obtain ⟨hbench, hshort⟩ := hc.calls call (List.mem_of_getElem? hcall)
  cases call with
  | insert row =>
    obtain ⟨hwidth, pk, rest, rfl⟩ := hbench
    exact invoke_ok hg hc hidle fun g' h => ⟨_, ⟨hwidth, hshort⟩, rfl, h⟩
  | select pk => exact invoke_ok hg hc hidle fun g' h => h
  | updateField pk col v => exact invoke_ok hg hc hidle fun g' h => ⟨hshort, h⟩

theorem respond_ok {ret : Ret} (hpc : c.pc = .respond ret) :
    StepsTo t g γ (g.record (.respond (t, c.turn) ret)) { c with turn := c.turn + 1, pc := .idle } := by
  have htaken := hc.pc
  rw [hpc] at htaken
  obtain ⟨⟨e, he, hid, hret⟩, -⟩ := htaken
  have hexplains := hg.explains.respond_snoc he
  rw [hid, hret] at hexplains
  exact record_ok hg rfl hexplains ⟨hc.calls, fun n hn =>
    (hc.later n (Nat.lt_of_succ_lt hn)).record (Nat.lt_of_succ_lt hn).ne rfl,
    (hc.later _ (Nat.lt_succ_self _)).record (Nat.lt_succ_self _).ne rfl⟩

/-! ## Steps on slots and index -/

/-- the push of an insert: the new slot is pending -/
theorem push_ok {pk : UInt64} {buf : List UInt8} (hpc : c.pc = .push pk buf) :
    StepsTo t g γ { g with table := { g.table with slots := g.table.slots ++ [buf] } }
      { c with pc := .publish pk g.table.slots.length } := by
  have hat := hc.pc
  rw [hpc] at hat
  obtain ⟨row, hrow, rfl, hpending⟩ := hat
  let g' : Shared T := { g with table := { g.table with slots := g.table.slots ++ [encode row] } }
  have hslot : ∀ i bytes, g.table.slots[i]? = some bytes → g'.table.slots[i]? = some bytes := fun i bytes hi =>
    (List.getElem?_append_left (List.getElem?_eq_some_iff.1 hi).1).trans hi
  have hholds : ∀ i r, Holds g i r → Holds g' i r := fun i r h => ⟨h.good, hslot i _ h.bytes⟩
  have hnew : (γ.status ++ [Status.pending t])[g.table.slots.length]? = some (.pending t) := by
    rw [← hg.length]
    exact List.getElem?_concat_length
  have hold : ∀ (i : ℕ) s, γ.status[i]? = some s → (γ.status ++ [Status.pending t])[i]? = some s := fun i s hs =>
    (List.getElem?_append_left (List.getElem?_eq_some_iff.1 hs).1).trans hs
  have hback : ∀ (i : ℕ) s, (γ.status ++ [Status.pending t])[i]? = some s → s ≠ .pending t → γ.status[i]? = some s := by
    intro i s hs hne
    rcases Explains.getElem?_snoc hs with hs | ⟨-, heq⟩
    · exact hs
    · exact absurd heq.symm hne
  refine ⟨⟨γ.batches, γ.status ++ [.pending t]⟩, ⟨hg.explains, ?_, fun pk' i => ?_, fun i pk' hs => ?_, hg.absent,
    fun i pk' n hs => ?_, fun i j pk₁ pk₂ n hi hj => ?_⟩,
    ⟨hc.calls, fun n hn => ⟨(hc.later n hn).effect, (hc.later n hn).response⟩, row, ⟨hrow, ?_⟩, hnew,
      hpending.invoked, hpending.unused.effect, hpending.unused.response⟩,
    ⟨⟨[], (List.append_nil _).symm, nofun⟩, fun _ _ => Iff.rfl, fun i u _ hs => ⟨hold i _ hs, ?_⟩,
      fun i pk' hs => Or.inl (hold i _ hs), fun i pk' k b hs hb => ⟨b, hold i _ hs, hb, rfl⟩⟩⟩
  · rw [List.length_append, List.length_append, hg.length]
    rfl
  · exact ⟨fun hi => hold i _ ((hg.index pk' i).1 hi), fun hs => (hg.index pk' i).2 (hback i _ hs nofun)⟩
  · obtain ⟨r, hr, hnow⟩ := hg.live i pk' (hback i _ hs nofun)
    exact ⟨r, hholds i r hr, hnow⟩
  · obtain ⟨r, b, newer, hr, hb⟩ := hg.dead i pk' n (hback i _ hs nofun)
    exact ⟨r, b, newer, hholds i r hr, hb⟩
  · exact hg.deadInj i j pk₁ pk₂ n (hback i _ hi nofun) (hback j _ hj nofun)
  · exact List.getElem?_concat_length
  · have hi : i < g.table.slots.length := by
      rw [← hg.length]
      exact (List.getElem?_eq_some_iff.1 hs).1
    exact List.getElem?_append_left hi

omit hg in
/-- a step in which the client's operation takes effect -/
theorem effect_ok {op : Op} {ret : Ret} {pc' : Pc} (hpending : Pending t c.turn op g γ)
    (hhistory : g'.history = g.history)
    (heffect : ∃ γ', TableOk g' γ' ∧ Guar t g γ g' γ' ∧ Effect t c.turn op ret γ γ')
    (hpc' : ∀ γ', Taken t c.turn ret g' γ' → PcOk t c.turn g' γ' pc') : StepsTo t g γ g' { c with pc := pc' } := by
  obtain ⟨γ', hg', hguar, heffect⟩ := heffect
  exact ⟨γ', hg', ⟨hc.calls, fun n hn => heffect.later hhistory hn (hc.later n hn),
    hpc' γ' (heffect.taken hhistory hpending.unused)⟩, hguar⟩

theorem publish_pc_ok {pk : UInt64} {idx : ℕ} (hpc : c.pc = .publish pk idx) :
    StepsTo t g γ { g with table := { g.table with pkIndex := g.table.pkIndex.insert pk idx } }
      { c with pc := .respond (.insert pk) } := by
  have hat := hc.pc
  rw [hpc] at hat
  obtain ⟨row, hholds, hstatus, hpending⟩ := hat
  exact effect_ok hc hpending rfl (publish_ok hg hstatus hpending hholds) fun _ h => h

/-- a lookup of an absent key takes effect, one of a present key finds its slot -/
theorem lookup_ok {pk : UInt64} (hpc : c.pc = .lookup pk) :
    ∃ pc', step t g c = some (g, { c with pc := pc' }) ∧ StepsTo t g γ g { c with pc := pc' } := by
  have hpending := hc.pc
  rw [hpc] at hpending
  unfold step
  simp only [hpc]
  cases hidx : g.table.pkIndex[pk]? with
  | none =>
    have hmap : mapApply γ.now (.select pk) = (γ.now, .select none) := by
      change (γ.now, Ret.select (γ.now pk)) = _
      rw [hg.absent pk hidx]
    exact ⟨_, rfl, effect_ok hc hpending rfl (observe_ok hg hpending hmap) fun _ h => h⟩
  | some idx =>
    exact ⟨_, rfl, locks_ok hg hc rfl rfl rfl ⟨pk, hpending, Or.inl ((hg.index pk idx).1 hidx)⟩⟩

theorem read_ok {idx : ℕ} (hpc : c.pc = .read idx) :
    ∃ pc', step t g c = some (g, { c with pc := pc' }) ∧ StepsTo t g γ g { c with pc := pc' } := by
  have hat := hc.pc
  rw [hpc] at hat
  obtain ⟨pk, hpending, hfound⟩ := hat
  obtain ⟨row, hholds⟩ := hfound.holds hg
  unfold step
  simp only [hpc]
  rw [hholds.bytes, Option.bind_some, decode_encode hholds.good.short]
  exact ⟨_, rfl, effect_ok hc hpending rfl (touch_ok hg hpending (select_acts pk row) hholds hholds rfl rfl rfl
    (fun _ _ => rfl) hfound) fun _ h => h⟩

theorem find_ok {pk : UInt64} {col : String} {v : Value} {mutex : ℕ} (hpc : c.pc = .find pk col v mutex) :
    ∃ pc', step t g c = some (g, { c with pc := pc' }) ∧ StepsTo t g γ g { c with pc := pc' } := by
  have hat := hc.pc
  rw [hpc] at hat
  obtain ⟨hv, hpending⟩ := hat
  unfold step
  simp only [hpc]
  cases hidx : g.table.pkIndex[pk]? with
  | none =>
    have hmap : mapApply γ.now (.updateField pk col v) = (γ.now, .updateField none) := by
      simp only [mapApply, hg.absent pk hidx]
    exact ⟨_, rfl, effect_ok hc hpending rfl (observe_ok hg hpending hmap) fun _ h => h⟩
  | some idx =>
    cases hcol : catalogGet col with
    | none =>
      have hmap : mapApply γ.now (.updateField pk col v) = (γ.now, .updateField none) := by
        simp only [mapApply, hcol]
        cases γ.now pk <;> rfl
      exact ⟨_, rfl, effect_ok hc hpending rfl (observe_ok hg hpending hmap) fun _ h => h⟩
    | some pos =>
      exact ⟨_, rfl, locks_ok hg hc rfl rfl rfl ⟨pk, col, hv, hcol, hpending, Or.inl ((hg.index pk idx).1 hidx)⟩⟩

theorem write_ok {idx pos : ℕ} {v : Value} {mutex : ℕ} (hpc : c.pc = .write idx pos v mutex) :
    ∃ g' pc', step t g c = some (g', { c with pc := pc' }) ∧ StepsTo t g γ g' { c with pc := pc' } := by
  have hat := hc.pc
  rw [hpc] at hat
  obtain ⟨pk, col, hv, hcol, hpending, hfound⟩ := hat
  obtain ⟨row, hholds⟩ := hfound.holds hg
  have hidx := (List.getElem?_eq_some_iff.1 hholds.bytes).1
  have hpos : pos < row.length := by
    rw [hholds.good.width]
    exact catalogGet_lt hcol
  let table : DynTable := { g.table with slots := g.table.slots.set idx (encode (row.set pos v)) }
  have hwrite : writeSlot g.table idx pos v = some table := by
    unfold writeSlot
    rw [hholds.bytes, Option.bind_eq_bind, Option.bind_some, decode_encode hholds.good.short, Option.bind_eq_bind,
      Option.bind_some, if_pos hpos]
  have hholds' : Holds { g with table := table } idx (row.set pos v) :=
    ⟨hholds.good.set hv pos, List.getElem?_set_self hidx⟩
  unfold step
  simp only [hpc]
  rw [hwrite]
  exact ⟨{ g with table }, .unlock mutex (some ()), rfl, effect_ok hc hpending rfl (touch_ok hg hpending
    (updateField_acts hcol pk row v) hholds hholds' rfl rfl (by rw [List.length_set])
    (fun i hi => List.getElem?_set_ne (Ne.symm hi)) hfound) fun _ h => h⟩

/-- **No step panics, and every step keeps the invariant.** -/
theorem step_ok {c' : Client} (hstep : step t g c = some (g', c')) : StepsTo t g γ g' c' := by
  have hat := hc.pc
  have halone : (∃ pc', step t g c = some (g, { c with pc := pc' }) ∧ StepsTo t g γ g { c with pc := pc' }) →
      StepsTo t g γ g' c' := by
    rintro ⟨pc', heq, hok⟩
    rw [heq] at hstep
    cases hstep
    exact hok
  cases hpc : c.pc with
  | idle =>
    unfold step at hstep
    simp only [hpc, Option.map_eq_some_iff] at hstep
    obtain ⟨call, hcall, heq⟩ := hstep
    have hok := idle_ok hg hc hpc hcall
    rw [heq] at hok
    exact hok
  | push pk buf =>
    have hok := push_ok hg hc hpc
    simp only [step, hpc] at hstep
    cases hstep
    exact hok
  | publish pk idx =>
    have hok := publish_pc_ok hg hc hpc
    simp only [step, hpc] at hstep
    cases hstep
    exact hok
  | lookup pk => exact halone (lookup_ok hg hc hpc)
  | read idx => exact halone (read_ok hg hc hpc)
  | lockTable pk col v =>
    rw [hpc] at hat
    simp only [step, hpc] at hstep
    split at hstep
    · cases hstep
      exact locks_ok hg hc rfl rfl rfl hat
    · cases hstep
      exact locks_ok hg hc rfl rfl rfl ⟨hat.1, hat.2.of_history rfl⟩
  | lockRow pk col v mutex =>
    rw [hpc] at hat
    simp only [step, hpc] at hstep
    split_ifs at hstep
    cases hstep
    exact locks_ok hg hc rfl rfl rfl ⟨hat.1, hat.2.of_history rfl⟩
  | find pk col v mutex => exact halone (find_ok hg hc hpc)
  | write idx pos v mutex =>
    obtain ⟨g₁, pc₁, heq, hok⟩ := write_ok hg hc hpc
    rw [heq] at hstep
    cases hstep
    exact hok
  | unlock mutex done =>
    rw [hpc] at hat
    simp only [step, hpc] at hstep
    cases hstep
    exact locks_ok hg hc rfl rfl rfl (Taken.of_history hat rfl)
  | respond ret =>
    have hok := respond_ok hg hc hpc
    simp only [step, hpc] at hstep
    cases hstep
    exact hok
  | unwind mutex =>
    rw [hpc] at hat
    exact hat.elim
  | panicked =>
    rw [hpc] at hat
    exact hat.elim

end Client

/-- the thread-modular proof -/
def outline (T : Type) : Threads.GhostOutline (Ghost T) (step (T := T)) where
  Glob := TableOk
  Loc := ClientOk
  Guar := Guar
  step_ok _ _ _ _ _ _ hg hc hstep := step_ok hg hc hstep
  stable _ _ _ _ _ _ _ hne _ hguar hc := hc.frame hne hguar

theorem start_holds [DecidableEq T] (calls : T → List Call)
    (hcalls : ∀ t, ∀ call ∈ calls t, call.Bench ∧ call.Short) : (outline T).Holds (start calls) := by
  have hunused : ∀ (t : T) n, Unused t n ⟨DynTable.new, []⟩ ⟨[], []⟩ := fun t n => ⟨nofun, nofun⟩
  refine ⟨⟨[], []⟩, ⟨Explains.empty, rfl, fun pk i => ?_, nofun, fun _ _ => rfl, nofun, nofun⟩, fun t =>
    ⟨hcalls t, fun n _ => hunused t n, hunused t 0⟩⟩
  constructor
  · intro h
    change (∅ : Std.ExtTreeMap UInt64 ℕ)[pk]? = some i at h
    simp at h
  · nofun

end WtBenchmarks.Contention
