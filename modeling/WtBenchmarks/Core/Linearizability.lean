/-
Linearizability of a concurrent object against its sequential operations.

A history lists the invocations and responses that clients see. A linearization orders operations one by one so that
each returns what `apply` returns there, every response of the history is explained, and an operation that responded
before another was invoked comes first.

Where an operation takes effect may only be known later. A linearization under construction is a list of batches: the
operations that took effect at their own moment (`main`), each with the operations that are found to belong just before
it (`early`). The stamp of a batch is the length of the history at the moment of its main operation.

- `Explains.append`: an operation takes effect now;
- `Explains.insert`: an operation takes effect just before an earlier one that overwrites what it did;
- `Explains.invoke_snoc`, `Explains.respond_snoc`: the history grows;
- `Explains.linearization`: batches that explain a history are a linearization of it.
-/
import Mathlib.Data.List.Basic
import Mathlib.Tactic

namespace WtBenchmarks.Linearizability

variable {I Op Ret σ : Type}

/-! ## Histories -/

inductive Event (I Op Ret : Type) where
  | invoke (id : I) (op : Op)
  | respond (id : I) (ret : Ret)

def Event.id : Event I Op Ret → I
  | .invoke id _ => id
  | .respond id _ => id

/-- an operation that has taken effect -/
structure Entry (I Op Ret : Type) where
  id : I
  op : Op
  ret : Ret

section Sequential

variable (apply : σ → Op → σ × Ret)

/-- the state after operations one by one -/
def after (s : σ) (order : List (Entry I Op Ret)) : σ := order.foldl (fun s e => (apply s e.op).1) s

/-- every operation returned what it returns in this order -/
def Legal : σ → List (Entry I Op Ret) → Prop
  | _, [] => True
  | s, e :: rest => (apply s e.op).2 = e.ret ∧ Legal (apply s e.op).1 rest

@[simp] theorem after_nil (s : σ) : after apply s ([] : List (Entry I Op Ret)) = s := rfl

@[simp] theorem after_cons (s : σ) (e : Entry I Op Ret) (rest : List (Entry I Op Ret)) :
    after apply s (e :: rest) = after apply (apply s e.op).1 rest := rfl

theorem after_append (s : σ) (a b : List (Entry I Op Ret)) :
    after apply s (a ++ b) = after apply (after apply s a) b := by
  unfold after
  rw [List.foldl_append]

theorem legal_append (s : σ) (a b : List (Entry I Op Ret)) :
    Legal apply s (a ++ b) ↔ Legal apply s a ∧ Legal apply (after apply s a) b := by
  induction a generalizing s with
  | nil => exact ⟨fun h => ⟨trivial, h⟩, fun h => h.2⟩
  | cons e a ih =>
    rw [List.cons_append, Legal, Legal, ih, after_cons, and_assoc]

end Sequential

/-- operation `a` responded before operation `b` was invoked -/
def Precedes (history : List (Event I Op Ret)) (a b : I) : Prop :=
  ∃ (p q : ℕ) (ret : Ret) (op : Op), p < q ∧ history[p]? = some (.respond a ret) ∧ history[q]? = some (.invoke b op)

/-- a sequential order of operations, some of them still without a response, that explains the history -/
structure Linearization (apply : σ → Op → σ × Ret) (init : σ) (history : List (Event I Op Ret))
    (order : List (Entry I Op Ret)) : Prop where
  nodup : (order.map Entry.id).Nodup
  legal : Legal apply init order
  invoked : ∀ e ∈ order, Event.invoke e.id e.op ∈ history
  completed : ∀ id ret, Event.respond id ret ∈ history → ∃ e ∈ order, e.id = id ∧ e.ret = ret
  realTime : ∀ a ∈ order, ∀ b ∈ order, Precedes history a.id b.id → [a, b].Sublist order

/-! ## Batches -/

structure Batch (I Op Ret : Type) where
  early : List (Entry I Op Ret)
  main : Entry I Op Ret
  stamp : ℕ

namespace Batch

def entries (b : Batch I Op Ret) : List (Entry I Op Ret) := b.early ++ [b.main]

/-- one more operation just before the main one -/
def add (e : Entry I Op Ret) (b : Batch I Op Ret) : Batch I Op Ret := { b with early := b.early ++ [e] }

end Batch

/-- the operations of all batches -/
def order (batches : List (Batch I Op Ret)) : List (Entry I Op Ret) := batches.flatMap Batch.entries

@[simp] theorem order_cons (b : Batch I Op Ret) (rest : List (Batch I Op Ret)) :
    order (b :: rest) = b.entries ++ order rest := rfl

@[simp] theorem order_append (a b : List (Batch I Op Ret)) : order (a ++ b) = order a ++ order b := List.flatMap_append

theorem mem_order {batches : List (Batch I Op Ret)} {e : Entry I Op Ret} :
    e ∈ order batches ↔ ∃ b ∈ batches, e ∈ b.entries := List.mem_flatMap

theorem add_perm (e : Entry I Op Ret) (b : Batch I Op Ret) : (b.add e).entries.Perm (e :: b.entries) := by
  unfold Batch.add Batch.entries
  rw [List.append_assoc]
  exact List.perm_middle

theorem order_modify_perm {batches : List (Batch I Op Ret)} {n : ℕ} (hn : n < batches.length) (e : Entry I Op Ret) :
    (order (batches.modify n (Batch.add e))).Perm (e :: order batches) := by
  induction batches generalizing n with
  | nil => exact absurd hn (Nat.not_lt_zero n)
  | cons b batches ih =>
    cases n with
    | zero =>
      rw [List.modify_zero_cons, order_cons, order_cons]
      exact (add_perm e b).append_right _
    | succ n =>
      rw [List.modify_succ_cons, order_cons, order_cons]
      exact ((ih (Nat.lt_of_succ_lt_succ hn)).append_left _).trans List.perm_middle

theorem mem_modify {batches : List (Batch I Op Ret)} {n : ℕ} {f : Batch I Op Ret → Batch I Op Ret} {b' : Batch I Op Ret}
    (h : b' ∈ batches.modify n f) : b' ∈ batches ∨ ∃ b, batches[n]? = some b ∧ b' = f b := by
  obtain ⟨k, hk⟩ := List.mem_iff_getElem?.1 h
  rw [List.getElem?_modify] at hk
  obtain ⟨b, hb, rfl⟩ := Option.map_eq_some_iff.1 hk
  by_cases hn : n = k
  · subst hn
    rw [if_pos rfl]
    exact Or.inr ⟨b, hb, rfl⟩
  · rw [if_neg hn]
    exact Or.inl (List.mem_of_getElem? hb)

/-- batches with growing stamps list the entries of a smaller stamp first -/
theorem sublist_of_stamp {batches : List (Batch I Op Ret)} (hsorted : batches.Pairwise fun a b => a.stamp ≤ b.stamp)
    {A B : Batch I Op Ret} (hA : A ∈ batches) (hB : B ∈ batches) (hlt : A.stamp < B.stamp) {a b : Entry I Op Ret}
    (ha : a ∈ A.entries) (hb : b ∈ B.entries) : [a, b].Sublist (order batches) := by
  induction batches with
  | nil => cases hA
  | cons x rest ih =>
    rw [List.pairwise_cons] at hsorted
    rw [order_cons]
    rcases List.mem_cons.1 hA with rfl | hA'
    · rcases List.mem_cons.1 hB with rfl | hB'
      · exact absurd hlt (lt_irrefl _)
      · have hrest : b ∈ order rest := mem_order.2 ⟨B, hB', hb⟩
        exact (List.singleton_sublist.2 ha).append (List.singleton_sublist.2 hrest)
    · rcases List.mem_cons.1 hB with rfl | hB'
      · exact absurd (hsorted.1 A hA') (Nat.not_le.2 hlt)
      · exact (ih hsorted.2 hA' hB').trans (List.sublist_append_right _ _)

/-! ## States along the batches -/

section States

variable (apply : σ → Op → σ × Ret) (init : σ)

/-- the state before the batch at an index -/
def before (batches : List (Batch I Op Ret)) (n : ℕ) : σ := after apply init (order (batches.take n))

theorem before_append {batches : List (Batch I Op Ret)} {n : ℕ} (hn : n ≤ batches.length)
    (rest : List (Batch I Op Ret)) :
    before apply init (batches ++ rest) n = before apply init batches n := by
  unfold before
  rw [List.take_append_of_le_length hn]

/-- the main operation of a batch undoes what an early one does -/
def Overwritten (s : σ) (e : Entry I Op Ret) (b : Batch I Op Ret) : Prop :=
  apply (apply (after apply s b.early) e.op).1 b.main.op = apply (after apply s b.early) b.main.op

variable {apply init}

theorem Overwritten.after_add {s : σ} {e : Entry I Op Ret} {b : Batch I Op Ret} (h : Overwritten apply s e b) :
    after apply s (b.add e).entries = after apply s b.entries := by
  unfold Overwritten at h
  unfold Batch.add Batch.entries
  rw [after_append, after_append, after_append, after_cons, after_nil, after_cons, after_nil, after_cons, after_nil, h]

theorem after_modify {batches : List (Batch I Op Ret)} {n : ℕ} {b : Batch I Op Ret} (hb : batches[n]? = some b)
    {e : Entry I Op Ret} (h : Overwritten apply (before apply init batches n) e b) :
    after apply init (order (batches.modify n (Batch.add e))) = after apply init (order batches) := by
  induction batches generalizing n init with
  | nil => cases hb
  | cons x rest ih =>
    cases n with
    | zero =>
      cases hb
      have hsame : after apply init (b.add e).entries = after apply init b.entries := Overwritten.after_add h
      rw [List.modify_zero_cons, order_cons, order_cons, after_append, after_append, hsame]
    | succ n =>
      rw [List.modify_succ_cons, order_cons, order_cons, after_append, after_append]
      apply ih hb
      unfold before at h
      rw [List.take_succ_cons, order_cons, after_append] at h
      exact h

/-- an early insertion leaves the states before all batches unchanged -/
theorem before_modify {batches : List (Batch I Op Ret)} {n : ℕ} {b : Batch I Op Ret} (hb : batches[n]? = some b)
    {e : Entry I Op Ret} (h : Overwritten apply (before apply init batches n) e b) (k : ℕ) :
    before apply init (batches.modify n (Batch.add e)) k = before apply init batches k := by
  unfold before
  rw [List.take_modify]
  by_cases hk : n < k
  · have htake : (batches.take k)[n]? = some b := by rw [List.getElem?_take_of_lt hk, hb]
    apply after_modify htake
    have hsame : before apply init (batches.take k) n = before apply init batches n := by
      unfold before
      rw [List.take_take, Nat.min_eq_left hk.le]
    rw [hsame]
    exact h
  · have hlen : (batches.take k).length ≤ n := (List.length_take_le k batches).trans (Nat.not_lt.1 hk)
    rw [List.modify_eq_self hlen]

theorem legal_modify {batches : List (Batch I Op Ret)} {n : ℕ} {b : Batch I Op Ret} (hb : batches[n]? = some b)
    {e : Entry I Op Ret} (h : Overwritten apply (before apply init batches n) e b)
    (hret : (apply (after apply (before apply init batches n) b.early) e.op).2 = e.ret)
    (hlegal : Legal apply init (order batches)) : Legal apply init (order (batches.modify n (Batch.add e))) := by
  induction batches generalizing n init with
  | nil => cases hb
  | cons x rest ih =>
    cases n with
    | zero =>
      cases hb
      have hsame : after apply init (b.add e).entries = after apply init b.entries := Overwritten.after_add h
      rw [order_cons, legal_append] at hlegal
      rw [List.modify_zero_cons, order_cons, legal_append, hsame]
      refine ⟨?_, hlegal.2⟩
      have hentries := hlegal.1
      unfold Overwritten at h
      unfold Batch.entries at hentries
      unfold Batch.add Batch.entries
      rw [legal_append, Legal] at hentries
      rw [legal_append, legal_append, after_append, after_cons, after_nil, Legal, Legal, Legal]
      refine ⟨⟨hentries.1, hret, trivial⟩, ?_, trivial⟩
      change (apply (apply (after apply init b.early) e.op).1 b.main.op).2 = b.main.ret
      have hover : apply (apply (after apply init b.early) e.op).1 b.main.op =
        apply (after apply init b.early) b.main.op := h
      rw [hover]
      exact hentries.2.1
    | succ n =>
      have hstate : ∀ k, before apply init (x :: rest) (k + 1) = before apply (after apply init x.entries) rest k := by
        intro k
        unfold before
        rw [List.take_succ_cons, order_cons, after_append]
      rw [hstate] at h hret
      rw [order_cons, legal_append] at hlegal
      rw [List.modify_succ_cons, order_cons, legal_append]
      exact ⟨hlegal.1, ih hb h hret hlegal.2⟩

end States

/-! ## Explaining a history -/

/-- batches that explain a history: each operation was invoked before the stamp of its batch and responded after it -/
structure Explains (apply : σ → Op → σ × Ret) (init : σ) (history : List (Event I Op Ret))
    (batches : List (Batch I Op Ret)) : Prop where
  nodup : ((order batches).map Entry.id).Nodup
  legal : Legal apply init (order batches)
  sorted : batches.Pairwise fun a b => a.stamp ≤ b.stamp
  bound : ∀ b ∈ batches, b.stamp ≤ history.length
  invoked : ∀ b ∈ batches, ∀ e ∈ b.entries, Event.invoke e.id e.op ∈ history ∧
    ∀ q op, history[q]? = some (.invoke e.id op) → q < b.stamp
  responded : ∀ b ∈ batches, ∀ e ∈ b.entries, ∀ p ret, history[p]? = some (.respond e.id ret) → b.stamp ≤ p
  completed : ∀ id ret, Event.respond id ret ∈ history → ∃ e ∈ order batches, e.id = id ∧ e.ret = ret

namespace Explains

variable {apply : σ → Op → σ × Ret} {init : σ} {history : List (Event I Op Ret)} {batches : List (Batch I Op Ret)}

theorem empty : Explains apply init ([] : List (Event I Op Ret)) [] where
  nodup := List.nodup_nil
  legal := trivial
  sorted := List.Pairwise.nil
  bound := nofun
  invoked := nofun
  responded := nofun
  completed := nofun

/-- **Batches linearize.** -/
theorem linearization (h : Explains apply init history batches) :
    Linearization apply init history (order batches) where
  nodup := h.nodup
  legal := h.legal
  invoked e he := by
    obtain ⟨b, hb, he⟩ := mem_order.1 he
    exact (h.invoked b hb e he).1
  completed := h.completed
  realTime a ha b hb := by
    rintro ⟨p, q, ret, op, hlt, hrespond, hinvoke⟩
    obtain ⟨A, hA, ha⟩ := mem_order.1 ha
    obtain ⟨B, hB, hb⟩ := mem_order.1 hb
    have hp := h.responded A hA a ha p ret hrespond
    have hq := (h.invoked B hB b hb).2 q op hinvoke
    exact sublist_of_stamp h.sorted hA hB (by omega) ha hb

theorem getElem?_snoc {α : Type} {l : List α} {x y : α} {p : ℕ} (h : (l ++ [x])[p]? = some y) :
    l[p]? = some y ∨ p = l.length ∧ x = y := by
  rcases Nat.lt_trichotomy p l.length with hlt | heq | hgt
  · rw [List.getElem?_append_left hlt] at h
    exact Or.inl h
  · subst heq
    rw [List.getElem?_concat_length] at h
    exact Or.inr ⟨rfl, Option.some_inj.1 h⟩
  · rw [List.getElem?_eq_none (by simpa using hgt)] at h
    cases h

/-- an invocation -/
theorem invoke_snoc (h : Explains apply init history batches) {id : I} (op : Op)
    (hid : id ∉ (order batches).map Entry.id) : Explains apply init (history ++ [.invoke id op]) batches where
  nodup := h.nodup
  legal := h.legal
  sorted := h.sorted
  bound b hb := (h.bound b hb).trans (by simp)
  invoked b hb e he := by
    refine ⟨List.mem_append_left _ (h.invoked b hb e he).1, fun q op' hq => ?_⟩
    rcases getElem?_snoc hq with hq | ⟨-, heq⟩
    · exact (h.invoked b hb e he).2 q op' hq
    · cases heq
      exact absurd (List.mem_map.2 ⟨e, mem_order.2 ⟨b, hb, he⟩, rfl⟩) hid
  responded b hb e he p ret hp := by
    rcases getElem?_snoc hp with hp | ⟨-, heq⟩
    · exact h.responded b hb e he p ret hp
    · cases heq
  completed id' ret hmem := by
    rcases List.mem_append.1 hmem with hmem | hmem
    · exact h.completed id' ret hmem
    · cases List.mem_singleton.1 hmem

/-- a response of an operation that has taken effect -/
theorem respond_snoc (h : Explains apply init history batches) {e : Entry I Op Ret} (he : e ∈ order batches) :
    Explains apply init (history ++ [.respond e.id e.ret]) batches where
  nodup := h.nodup
  legal := h.legal
  sorted := h.sorted
  bound b hb := (h.bound b hb).trans (by simp)
  invoked b hb e' he' := by
    refine ⟨List.mem_append_left _ (h.invoked b hb e' he').1, fun q op hq => ?_⟩
    rcases getElem?_snoc hq with hq | ⟨-, heq⟩
    · exact (h.invoked b hb e' he').2 q op hq
    · cases heq
  responded b hb e' he' p ret hp := by
    rcases getElem?_snoc hp with hp | ⟨rfl, -⟩
    · exact h.responded b hb e' he' p ret hp
    · exact h.bound b hb
  completed id' ret hmem := by
    rcases List.mem_append.1 hmem with hmem | hmem
    · exact h.completed id' ret hmem
    · cases List.mem_singleton.1 hmem
      exact ⟨e, he, rfl, rfl⟩

section Effect

variable {e : Entry I Op Ret} (hid : e.id ∉ (order batches).map Entry.id) (hinvoked : Event.invoke e.id e.op ∈ history)
  (hopen : ∀ ret, Event.respond e.id ret ∉ history)
include hid hinvoked hopen

/-- **An operation takes effect now.** -/
theorem append (h : Explains apply init history batches)
    (hret : (apply (after apply init (order batches)) e.op).2 = e.ret) :
    Explains apply init history (batches ++ [⟨[], e, history.length⟩]) := by
  have horder : order (batches ++ [⟨[], e, history.length⟩]) = order batches ++ [e] := by
    rw [order_append]
    rfl
  refine ⟨?_, ?_, ?_, fun b hb => ?_, fun b hb e' he' => ?_, fun b hb e' he' p ret hp => ?_, fun id ret hmem => ?_⟩
  · rw [horder, List.map_append, List.nodup_append]
    refine ⟨h.nodup, List.nodup_singleton _, ?_⟩
    rintro a ha b hb rfl
    rw [List.map_singleton, List.mem_singleton] at hb
    exact hid (hb ▸ ha)
  · rw [horder, legal_append]
    exact ⟨h.legal, hret, trivial⟩
  · rw [List.pairwise_append]
    refine ⟨h.sorted, List.pairwise_singleton _ _, fun a ha b hb => ?_⟩
    rw [List.mem_singleton.1 hb]
    exact h.bound a ha
  · rcases List.mem_append.1 hb with hb | hb
    · exact h.bound b hb
    · rw [List.mem_singleton.1 hb]
  · rcases List.mem_append.1 hb with hb | hb
    · exact h.invoked b hb e' he'
    · rw [List.mem_singleton.1 hb] at he' ⊢
      cases List.mem_singleton.1 he'
      exact ⟨hinvoked, fun q op hq => (List.getElem?_eq_some_iff.1 hq).1⟩
  · rcases List.mem_append.1 hb with hb | hb
    · exact h.responded b hb e' he' p ret hp
    · rw [List.mem_singleton.1 hb] at he'
      cases List.mem_singleton.1 he'
      exact absurd (List.mem_of_getElem? hp) (hopen ret)
  · obtain ⟨e', he', hmatch⟩ := h.completed id ret hmem
    refine ⟨e', ?_, hmatch⟩
    rw [horder]
    exact List.mem_append_left _ he'

/-- **An operation takes effect just before an earlier one** that overwrites what it did. -/
theorem insert (h : Explains apply init history batches) {n : ℕ} {b : Batch I Op Ret} (hb : batches[n]? = some b)
    (hret : (apply (after apply (before apply init batches n) b.early) e.op).2 = e.ret)
    (hover : Overwritten apply (before apply init batches n) e b)
    (hbefore : ∀ q op, history[q]? = some (.invoke e.id op) → q < b.stamp) :
    Explains apply init history (batches.modify n (Batch.add e)) := by
  have hperm := order_modify_perm (List.getElem?_eq_some_iff.1 hb).1 e
  have hmem := List.mem_of_getElem? hb
  have hcases : ∀ b' ∈ batches.modify n (Batch.add e), b' ∈ batches ∨ b' = b.add e := by
    intro b' hb'
    rcases mem_modify hb' with hold | ⟨x, hx, rfl⟩
    · exact Or.inl hold
    · rw [hb] at hx
      cases hx
      exact Or.inr rfl
  have hentries : ∀ e' ∈ (b.add e).entries, e' = e ∨ e' ∈ b.entries := fun e' he' =>
    List.mem_cons.1 ((add_perm e b).mem_iff.1 he')
  refine ⟨?_, legal_modify hb hover hret h.legal, ?_, fun b' hb' => ?_, fun b' hb' e' he' => ?_,
    fun b' hb' e' he' p ret hp => ?_, fun id ret hmem' => ?_⟩
  · rw [(hperm.map Entry.id).nodup_iff, List.map_cons, List.nodup_cons]
    exact ⟨hid, h.nodup⟩
  · have hstamps : (batches.modify n (Batch.add e)).map Batch.stamp = batches.map Batch.stamp := by
      apply List.ext_getElem?
      intro k
      rw [List.getElem?_map, List.getElem?_modify, List.getElem?_map]
      cases batches[k]? with
      | none => rfl
      | some x =>
        by_cases hk : n = k
        · subst hk
          simp [Batch.add]
        · simp [hk]
    have hpairs := List.pairwise_map.2 h.sorted
    rw [← hstamps] at hpairs
    exact List.pairwise_map.1 hpairs
  · rcases hcases b' hb' with hold | rfl
    · exact h.bound b' hold
    · exact h.bound b hmem
  · rcases hcases b' hb' with hold | rfl
    · exact h.invoked b' hold e' he'
    · rcases hentries e' he' with rfl | hold
      · exact ⟨hinvoked, hbefore⟩
      · exact h.invoked b hmem e' hold
  · rcases hcases b' hb' with hold | rfl
    · exact h.responded b' hold e' he' p ret hp
    · rcases hentries e' he' with rfl | hold
      · exact absurd (List.mem_of_getElem? hp) (hopen ret)
      · exact h.responded b hmem e' hold p ret hp
  · obtain ⟨e', he', hmatch⟩ := h.completed id ret hmem'
    exact ⟨e', hperm.mem_iff.2 (List.mem_cons_of_mem _ he'), hmatch⟩

end Effect

end Explains

end WtBenchmarks.Linearizability
