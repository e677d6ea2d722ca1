/-
Stateful computations that may panic, and what holds of all their outcomes.

`StateT σ Option α` threads a state (a random number generator) and stops at a panic (`none`). `Total P m` says that
`m` panics from no state and that every value it returns satisfies `P`. The rules follow the shape of the program:
`pure`, `bind`, conditionals, `guard`-like checks, and loops over a list (`foldlM`, `mapM`) with an invariant. A result
with an error (`Except`) has the same rules for its loops, and two computations that panic together have a rule for
sequences and one for loops (`rel_bind`, `rel_foldlM`). A loop of equal turns may be cut anywhere (`turns_add`).
-/
import Mathlib.Data.List.Basic
import Mathlib.Data.List.Forall2
import Mathlib.Data.List.Induction
import Mathlib.Control.Monad.Basic

namespace WtBenchmarks

variable {σ α β : Type}

/-- from every state `m` returns, and with a value in `P` -/
def Total (P : α → Prop) (m : StateT σ Option α) : Prop := ∀ s, ∃ a s', m.run s = some (a, s') ∧ P a

namespace Total

theorem pure {P : α → Prop} {a : α} (h : P a) : Total (σ := σ) P (Pure.pure a) := fun s => ⟨a, s, rfl, h⟩

theorem bind {P : α → Prop} {Q : β → Prop} {m : StateT σ Option α} {f : α → StateT σ Option β} (hm : Total P m)
    (hf : ∀ a, P a → Total Q (f a)) : Total Q (m >>= f) := by
  intro s
  obtain ⟨a, s', hs, ha⟩ := hm s
  obtain ⟨b, s'', hb, hQ⟩ := hf a ha s'
  exact ⟨b, s'', by simp [StateT.run_bind, hs, hb], hQ⟩

/-- a step that may panic but leaves the state alone -/
theorem lift {P : α → Prop} {o : Option α} (h : ∃ a, o = some a ∧ P a) : Total (σ := σ) P (liftM o) := by
  obtain ⟨a, rfl, ha⟩ := h
  exact fun s => ⟨a, s, rfl, ha⟩

/-- both branches of a conditional -/
theorem ite {P : α → Prop} {c : Prop} [Decidable c] {m m' : StateT σ Option α} (hm : c → Total P m)
    (hm' : ¬ c → Total P m') : Total P (if c then m else m') := by
  by_cases hc : c
  · rw [if_pos hc]
    exact hm hc
  · rw [if_neg hc]
    exact hm' hc

theorem mono {P Q : α → Prop} {m : StateT σ Option α} (h : ∀ a, P a → Q a) (hm : Total P m) : Total Q m := by
  intro s
  obtain ⟨a, s', hs, ha⟩ := hm s
  exact ⟨a, s', hs, h a ha⟩

/-- two properties of the same computation -/
theorem and {P Q : α → Prop} {m : StateT σ Option α} (hP : Total P m) (hQ : Total Q m) :
    Total (fun a => P a ∧ Q a) m := by
  intro s
  obtain ⟨a, s', hs, ha⟩ := hP s
  obtain ⟨b, s'', hs', hb⟩ := hQ s
  rw [hs] at hs'
  cases hs'
  exact ⟨a, s', hs, ha, hb⟩

theorem map {P : α → Prop} {Q : β → Prop} {m : StateT σ Option α} {f : α → β} (hm : Total P m)
    (hf : ∀ a, P a → Q (f a)) : Total Q (f <$> m) := by
  intro s
  obtain ⟨a, s', hs, ha⟩ := hm s
  exact ⟨f a, s', by simp [StateT.run_map, hs], hf a ha⟩

/-- **Loop rule.** An invariant on the accumulator and the items already processed. -/
theorem foldlM {I : List α → β → Prop} {f : β → α → StateT σ Option β} (l : List α)
    (hf : ∀ pre x post b, l = pre ++ x :: post → I pre b → Total (I (pre ++ [x])) (f b x)) (b : β) (hb : I [] b) :
    Total (I l) (l.foldlM f b) := by
  suffices h : ∀ (done rest : List α) (b : β), l = done ++ rest → I done b → Total (I l) (rest.foldlM f b) from
    h [] l b rfl hb
  intro done rest
  induction rest generalizing done with
  | nil =>
    intro b hl hI
    rw [List.append_nil] at hl
    rw [hl]
    exact Total.pure hI
  | cons x rest ih =>
    intro b hl hI
    rw [List.foldlM_cons]
    exact (hf done x rest b hl hI).bind fun b' hb' => ih (done ++ [x]) b' (by simp [hl]) hb'

/-- **Counted loop.** An invariant indexed by the turns made so far. -/
theorem range {I : ℕ → β → Prop} {f : β → ℕ → StateT σ Option β} (n : ℕ)
    (hf : ∀ i b, i < n → I i b → Total (I (i + 1)) (f b i)) (b : β) (hb : I 0 b) :
    Total (I n) ((List.range n).foldlM f b) := by
  induction n with
  | zero => exact Total.pure hb
  | succ n ih =>
    rw [List.range_succ, List.foldlM_append]
    refine (ih fun i b hi => hf i b (Nat.lt_succ_of_lt hi)).bind fun b' hb' => ?_
    rw [List.foldlM_cons]
    exact (hf n b' (Nat.lt_succ_self n) hb').bind fun b'' hb'' => Total.pure hb''

/-- **Two loops in step.** If each turn of both loops takes them from one state to one state, so do the loops. -/
theorem range_both {γ : Type} {R : ℕ → β → γ → Prop} {f : β → ℕ → StateT σ Option β} {g : γ → ℕ → StateT σ Option γ}
    (n : ℕ) (hstep : ∀ i b c s, i < n → R i b c →
      ∃ b' c' s', (f b i).run s = some (b', s') ∧ (g c i).run s = some (c', s') ∧ R (i + 1) b' c')
    (b : β) (c : γ) (s : σ) (h : R 0 b c) :
    ∃ b' c' s', ((List.range n).foldlM f b).run s = some (b', s') ∧
      ((List.range n).foldlM g c).run s = some (c', s') ∧ R n b' c' := by
  induction n with
  | zero => exact ⟨b, c, s, rfl, rfl, h⟩
  | succ n ih =>
    obtain ⟨b', c', s', hf, hg, hR⟩ := ih fun i b c s hi => hstep i b c s (Nat.lt_succ_of_lt hi)
    obtain ⟨b'', c'', s'', hf', hg', hR'⟩ := hstep n b' c' s' (Nat.lt_succ_self n) hR
    exact ⟨b'', c'', s'', by simp [List.range_succ, hf, hf'], by simp [List.range_succ, hg, hg'], hR'⟩

/-- a loop that collects one value for each item -/
theorem mapM {P : α → β → Prop} {f : α → StateT σ Option β} (l : List α) (hf : ∀ x ∈ l, Total (P x) (f x)) :
    Total (fun bs => List.Forall₂ P l bs) (l.mapM f) := by
  induction l with
  | nil => exact Total.pure List.Forall₂.nil
  | cons x l ih =>
    rw [List.mapM_cons]
    refine (hf x List.mem_cons_self).bind fun b hb => ?_
    refine (ih fun y hy => hf y (List.mem_cons_of_mem x hy)).bind fun bs hbs => ?_
    exact Total.pure (List.Forall₂.cons hb hbs)

end Total

/-- what a sequence of two computations returned came from both -/
theorem run_bind_some {m : StateT σ Option α} {f : α → StateT σ Option β} {s : σ} {r : β × σ}
    (h : (m >>= f).run s = some r) : ∃ a t, m.run s = some (a, t) ∧ (f a).run t = some r := by
  rw [StateT.run_bind, Option.bind_eq_bind, Option.bind_eq_some_iff] at h
  obtain ⟨⟨a, t⟩, ha, hr⟩ := h
  exact ⟨a, t, ha, hr⟩

/-- what a step without the state returned, it returns from any -/
theorem run_lift_some {o : Option α} {s : σ} {r : α × σ} (h : (liftM o : StateT σ Option α).run s = some r) :
    o = some r.1 := by
  cases o with
  | none => cases h
  | some a =>
    cases h
    rfl

/-- what a conditional returned came from the branch taken -/
theorem run_ite_some {c : Prop} [Decidable c] {m m' : StateT σ Option α} {s : σ} {r : α × σ}
    (h : (if c then m else m').run s = some r) : c ∧ m.run s = some r ∨ ¬ c ∧ m'.run s = some r := by
  by_cases hc : c
  · rw [if_pos hc] at h
    exact Or.inl ⟨hc, h⟩
  · rw [if_neg hc] at h
    exact Or.inr ⟨hc, h⟩

/-- an input that passed a check -/
theorem check_ok {ε : Type} {c : Prop} [Decidable c] {e : ε} {x : Except ε α} {a : α}
    (h : (if c then .error e else x) = .ok a) : ¬ c ∧ x = .ok a := by
  by_cases hc : c
  · rw [if_pos hc] at h
    cases h
  · rw [if_neg hc] at h
    exact ⟨hc, h⟩

/-! ## Results with an error -/

section Except

variable {ε : Type}

@[simp] theorem ok_bind (a : α) (f : α → Except ε β) : (Except.ok a >>= f) = f a := rfl

@[simp] theorem error_bind (e : ε) (f : α → Except ε β) : (Except.error e >>= f) = .error e := rfl

/-- what a sequence of two computations returned came from both -/
theorem bind_eq_ok {x : Except ε α} {f : α → Except ε β} {b : β} :
    (x >>= f) = .ok b ↔ ∃ a, x = .ok a ∧ f a = .ok b := by
  cases x with
  | error e => simp
  | ok a => simp

/-- **A loop that collects** returns the results of its turns, if all of them have one. -/
theorem mapM_eq_ok {f : α → Except ε β} {l : List α} {bs : List β} :
    l.mapM f = .ok bs ↔ List.Forall₂ (fun a b => f a = .ok b) l bs := by
  induction l generalizing bs with
  | nil =>
    rw [List.mapM_nil, List.forall₂_nil_left_iff]
    constructor
    · intro h
      cases h
      rfl
    · intro h
      rw [h]
      rfl
  | cons a l ih =>
    rw [List.mapM_cons, bind_eq_ok, List.forall₂_cons_left_iff]
    constructor
    · intro h
      obtain ⟨b, hb, h⟩ := h
      obtain ⟨rest, hrest, h⟩ := bind_eq_ok.1 h
      cases h
      exact ⟨b, rest, hb, ih.1 hrest, rfl⟩
    · intro h
      obtain ⟨b, rest, hb, hrest, rfl⟩ := h
      exact ⟨b, hb, bind_eq_ok.2 ⟨rest, ih.2 hrest, rfl⟩⟩

theorem exists_mapM_eq_ok {f : α → Except ε β} {l : List α} :
    (∃ bs, l.mapM f = .ok bs) ↔ ∀ a ∈ l, ∃ b, f a = .ok b := by
  simp only [mapM_eq_ok]
  induction l with
  | nil => exact ⟨fun _ => nofun, fun _ => ⟨[], List.Forall₂.nil⟩⟩
  | cons a l ih =>
    simp only [List.forall₂_cons_left_iff, List.forall_mem_cons, ← ih]
    constructor
    · intro h
      obtain ⟨-, b, bs, hb, hbs, -⟩ := h
      exact ⟨⟨b, hb⟩, bs, hbs⟩
    · intro h
      obtain ⟨⟨b, hb⟩, bs, hbs⟩ := h
      exact ⟨b :: bs, b, bs, hb, hbs, rfl⟩

/-- each result of a loop is the result of one of its turns -/
theorem mapM_ok {f : α → Except ε β} (l : List α) {bs : List β} (h : l.mapM f = .ok bs) :
    ∀ b ∈ bs, ∃ a ∈ l, f a = .ok b := by
  have hall := mapM_eq_ok.1 h
  clear h
  induction hall with
  | nil => exact nofun
  | cons hb _ ih =>
    intro b' hb'
    rcases List.mem_cons.1 hb' with rfl | hb'
    · exact ⟨_, List.mem_cons_self, hb⟩
    · obtain ⟨a, ha, hf⟩ := ih b' hb'
      exact ⟨a, List.mem_cons_of_mem _ ha, hf⟩

/-- the error of a loop is the error of one of its turns -/
theorem mapM_error {f : α → Except ε β} (l : List α) {e : ε} (h : l.mapM f = .error e) :
    ∃ a ∈ l, f a = .error e := by
  induction l with
  | nil => cases h
  | cons a l ih =>
    rw [List.mapM_cons] at h
    cases ha : f a with
    | error e' =>
      rw [ha] at h
      cases h
      exact ⟨a, List.mem_cons_self, ha⟩
    | ok b =>
      rw [ha, ok_bind] at h
      cases hl : l.mapM f with
      | error e' =>
        rw [hl] at h
        cases h
        obtain ⟨a', ha', hf⟩ := ih hl
        exact ⟨a', List.mem_cons_of_mem _ ha', hf⟩
      | ok rest =>
        rw [hl] at h
        cases h

end Except

/-! ## Loops -/

/-- `for _ in 0..n` -/
def turns (f : β → StateT σ Option β) : ℕ → β → StateT σ Option β
  | 0, b => pure b
  | n + 1, b => f b >>= turns f n

/-- two loops in a row are one loop -/
theorem turns_add (f : β → StateT σ Option β) (n k : ℕ) (b : β) :
    turns f (n + k) b = turns f n b >>= turns f k := by
  induction n generalizing b with
  | zero => rw [Nat.zero_add, turns, pure_bind]
  | succ n ih =>
    rw [Nat.succ_add, turns, turns, bind_assoc]
    exact congrArg (f b >>= ·) (funext ih)

theorem mapM_range_succ (f : ℕ → StateT σ Option β) (n : ℕ) :
    (List.range (n + 1)).mapM f = (List.range n).mapM f >>= fun bs => f n >>= fun b => pure (bs ++ [b]) := by
  rw [List.range_succ, List.mapM_append]
  simp

/-- **A counted loop that collects.** Each value it returned was computed from the state after the values before it. -/
theorem run_mapM_range {f : ℕ → StateT σ Option β} {s : σ} (n : ℕ) {bs : List β} {s' : σ}
    (h : ((List.range n).mapM f).run s = some (bs, s')) :
    bs.length = n ∧ ∀ i < n, ∃ pre t b t', ((List.range i).mapM f).run s = some (pre, t) ∧
      (f i).run t = some (b, t') ∧ bs[i]? = some b ∧ pre = bs.take i := by
  induction n generalizing bs s' with
  | zero =>
    cases h
    exact ⟨rfl, fun i hi => absurd hi (Nat.not_lt_zero i)⟩
  | succ n ih =>
    rw [mapM_range_succ] at h
    obtain ⟨pre, t, hpre, h⟩ := run_bind_some h
    obtain ⟨b, t', hb, h⟩ := run_bind_some h
    cases h
    obtain ⟨hlen, hall⟩ := ih hpre
    refine ⟨by simp [hlen], fun i hi => ?_⟩
    rcases Nat.lt_succ_iff_lt_or_eq.1 hi with hi | rfl
    · obtain ⟨pre', u, b', u', hpre', hb', hget, htake⟩ := hall i hi
      refine ⟨pre', u, b', u', hpre', hb', ?_, ?_⟩
      · rw [List.getElem?_append_left (by omega), hget]
      · rw [List.take_append_of_le_length (by omega), htake]
    · refine ⟨pre, t, b, s', hpre, hb, ?_, ?_⟩
      · rw [← hlen, List.getElem?_concat_length]
      · rw [← hlen, List.take_left]

/-- a counted loop that may fail, with an invariant indexed by the turns made so far -/
theorem exists_foldlM_range_pure {m : Type → Type} [Monad m] [LawfulMonad m] {I : ℕ → β → Prop} {f : β → ℕ → m β}
    (n : ℕ) (hf : ∀ i b, i < n → I i b → ∃ b', f b i = pure b' ∧ I (i + 1) b') (b : β) (hb : I 0 b) :
    ∃ b', (List.range n).foldlM f b = pure b' ∧ I n b' := by
  induction n with
  | zero => exact ⟨b, rfl, hb⟩
  | succ n ih =>
    obtain ⟨b', hb', hI⟩ := ih fun i b hi => hf i b (Nat.lt_succ_of_lt hi)
    obtain ⟨b'', hb'', hI'⟩ := hf n b' (Nat.lt_succ_self n) hI
    exact ⟨b'', by simp [List.range_succ, List.foldlM_append, hb', hb''], hI'⟩

theorem exists_foldlM_range {I : ℕ → β → Prop} {f : β → ℕ → Option β} (n : ℕ)
    (hf : ∀ i b, i < n → I i b → ∃ b', f b i = some b' ∧ I (i + 1) b') (b : β) (hb : I 0 b) :
    ∃ b', (List.range n).foldlM f b = some b' ∧ I n b' := exists_foldlM_range_pure n hf b hb

/-- **Counted loop with checks.** A loop whose turn panics exactly if its check fails returns exactly if no check
fails. -/
theorem foldlM_range_checks {I : ℕ → β → Prop} {C : ℕ → Prop} {f : β → ℕ → Option β} (n : ℕ)
    (hok : ∀ i b, i < n → I i b → C i → ∃ b', f b i = some b' ∧ I (i + 1) b')
    (hno : ∀ i b, i < n → I i b → ¬ C i → f b i = none) (b : β) (hb : I 0 b) :
    ((∃ b', (List.range n).foldlM f b = some b') ↔ ∀ i < n, C i) ∧
      ∀ b', (List.range n).foldlM f b = some b' → I n b' := by
  induction n with
  | zero => exact ⟨⟨fun _ i hi => absurd hi (Nat.not_lt_zero i), fun _ => ⟨b, rfl⟩⟩, fun b' h => Option.some.inj h ▸ hb⟩
  | succ n ih =>
    obtain ⟨hiff, hI⟩ := ih (fun i b hi => hok i b (Nat.lt_succ_of_lt hi)) fun i b hi => hno i b (Nat.lt_succ_of_lt hi)
    have hstep : (List.range (n + 1)).foldlM f b = (List.range n).foldlM f b >>= fun b' => f b' n := by
      simp [List.range_succ, List.foldlM_append]
    rw [hstep]
    by_cases hbefore : ∀ i < n, C i
    · obtain ⟨b', hb'⟩ := hiff.2 hbefore
      rw [hb', Option.bind_eq_bind, Option.bind_some]
      by_cases hn : C n
      · obtain ⟨b'', hb'', hI'⟩ := hok n b' (Nat.lt_succ_self n) (hI b' hb') hn
        rw [hb'']
        refine ⟨⟨fun _ i hi => ?_, fun _ => ⟨b'', rfl⟩⟩, fun c hc => Option.some.inj hc ▸ hI'⟩
        rcases Nat.lt_succ_iff_lt_or_eq.1 hi with hi | rfl
        · exact hbefore i hi
        · exact hn
      · rw [hno n b' (Nat.lt_succ_self n) (hI b' hb') hn]
        exact ⟨⟨fun h => by simp at h, fun h => absurd (h n (Nat.lt_succ_self n)) hn⟩, fun c hc => by cases hc⟩
    · have hnone : (List.range n).foldlM f b = none := by
        rw [← Option.not_isSome_iff_eq_none, Option.isSome_iff_exists, hiff]
        exact hbefore
      rw [hnone]
      exact ⟨⟨fun h => by simp at h, fun h => absurd (fun i hi => h i (Nat.lt_succ_of_lt hi)) hbefore⟩,
        fun c hc => by cases hc⟩

/-- a counted loop that starts at `s` -/
theorem exists_foldlM_range' {I : ℕ → β → Prop} {f : β → ℕ → Option β} (s n : ℕ)
    (hf : ∀ i b, i < n → I i b → ∃ b', f b (s + i) = some b' ∧ I (i + 1) b') (b : β) (hb : I 0 b) :
    ∃ b', (List.range' s n).foldlM f b = some b' ∧ I n b' := by
  rw [List.range'_eq_map_range, List.foldlM_map]
  exact exists_foldlM_range n hf b hb

/-- **A sequence of calls.** An invariant of the state and of the calls made so far, which every call that returns
keeps, holds after every sequence that returns. -/
theorem foldlM_history {σ κ : Type} {I : List κ → σ → Prop} {f : σ → κ → Option σ} {s : σ} (hs : I [] s)
    (hstep : ∀ done k s s', I done s → f s k = some s' → I (done ++ [k]) s') {keys : List κ} {s' : σ}
    (h : keys.foldlM f s = some s') : I keys s' := by
  induction keys using List.reverseRecOn generalizing s' with
  | nil =>
    cases h
    exact hs
  | append_singleton keys k ih =>
    rw [List.foldlM_append, Option.bind_eq_bind, Option.bind_eq_some_iff] at h
    obtain ⟨before, hbefore, h⟩ := h
    rw [List.foldlM_cons, Option.bind_eq_bind, Option.bind_eq_some_iff] at h
    obtain ⟨after, hafter, h⟩ := h
    cases h
    exact hstep keys k before s' (ih hbefore) hafter

/-- a loop none of whose turns panics -/
theorem foldlM_eq_some {σ κ : Type} {f : σ → κ → Option σ} {g : σ → κ → σ} (keys : List κ)
    (h : ∀ s, ∀ k ∈ keys, f s k = some (g s k)) (s : σ) : keys.foldlM f s = some (keys.foldl g s) := by
  induction keys generalizing s with
  | nil => rfl
  | cons k keys ih =>
    rw [List.foldlM_cons, h s k List.mem_cons_self]
    exact ih (fun s k hk => h s k (List.mem_cons_of_mem _ hk)) (g s k)

/-- a loop none of whose turns changes the state -/
theorem foldlM_fixed {σ κ : Type} {f : σ → κ → Option σ} {s : σ} (keys : List κ) (h : ∀ k ∈ keys, f s k = some s) :
    keys.foldlM f s = some s := by
  induction keys with
  | nil => rfl
  | cons k keys ih =>
    rw [List.foldlM_cons, h k List.mem_cons_self]
    exact ih fun k hk => h k (List.mem_cons_of_mem _ hk)

/-- a loop one of whose turns panics from every state -/
theorem foldlM_eq_none {σ κ : Type} {f : σ → κ → Option σ} {k : κ} {keys : List κ} (hk : k ∈ keys)
    (h : ∀ s, f s k = none) (s : σ) : keys.foldlM f s = none := by
  induction keys generalizing s with
  | nil => cases hk
  | cons k' keys ih =>
    rw [List.foldlM_cons]
    rcases List.mem_cons.1 hk with rfl | hk
    · rw [h s]
      rfl
    · cases hs : f s k' with
      | none => rfl
      | some s' => exact ih hk s'

/-- a loop over results none of which is missing -/
theorem mapM_eq_some {κ τ : Type} {f : κ → Option τ} {g : κ → τ} (keys : List κ) (h : ∀ k ∈ keys, f k = some (g k)) :
    keys.mapM f = some (keys.map g) := by
  induction keys with
  | nil => rfl
  | cons k keys ih =>
    rw [List.mapM_cons, h k List.mem_cons_self, ih fun k hk => h k (List.mem_cons_of_mem _ hk)]
    rfl

/-- **Loop simulation.** A loop that may panic follows a loop that does not, when each of its turns does. -/
theorem foldlM_simulates {σ τ κ : Type} (R : σ → τ → Prop) {f : σ → κ → Option σ} {g : τ → κ → τ} (keys : List κ)
    (h : ∀ s t, ∀ k ∈ keys, R s t → ∃ s', f s k = some s' ∧ R s' (g t k)) (s : σ) (t : τ) (hR : R s t) :
    ∃ s', keys.foldlM f s = some s' ∧ R s' (keys.foldl g t) := by
  induction keys generalizing s t with
  | nil => exact ⟨s, rfl, hR⟩
  | cons k keys ih =>
    obtain ⟨s', hs, hR'⟩ := h s t k List.mem_cons_self hR
    obtain ⟨s'', hs', hR''⟩ := ih (fun s t k hk => h s t k (List.mem_cons_of_mem _ hk)) s' (g t k) hR'
    exact ⟨s'', by rw [List.foldlM_cons, hs]; exact hs', hR''⟩

/-- a loop over a list that keeps an invariant and does not panic where it holds -/
theorem exists_foldlM {σ κ : Type} {I : σ → Prop} {f : σ → κ → Option σ} (keys : List κ)
    (h : ∀ s, ∀ k ∈ keys, I s → ∃ s', f s k = some s' ∧ I s') (s : σ) (hI : I s) :
    ∃ s', keys.foldlM f s = some s' ∧ I s' :=
  foldlM_simulates (fun s (_ : Unit) => I s) (g := fun _ _ => ()) keys (fun s _ k hk => h s k hk) s () hI

/-- a loop none of whose turns panics, whatever they return -/
theorem exists_foldlM_some {σ κ : Type} {f : σ → κ → Option σ} (keys : List κ)
    (h : ∀ s, ∀ k ∈ keys, ∃ s', f s k = some s') (s : σ) : ∃ s', keys.foldlM f s = some s' := by
  obtain ⟨s', hrun, -⟩ := exists_foldlM (I := fun _ => True) keys
    (fun s k hk _ => (h s k hk).imp fun _ hs => ⟨hs, trivial⟩) s trivial
  exact ⟨s', hrun⟩

/-! ## Two computations that panic together -/

section Rel

variable {γ δ : Type} {R : α → β → Prop} {S : γ → δ → Prop}

theorem rel_mono {R' : α → β → Prop} {x : Option α} {y : Option β} (h : ∀ a b, R a b → R' a b)
    (hx : Option.Rel R x y) : Option.Rel R' x y := by
  cases hx with
  | none => exact Option.Rel.none
  | some hab => exact Option.Rel.some (h _ _ hab)

theorem rel_bind {x : Option α} {y : Option β} {f : α → Option γ} {g : β → Option δ} (hx : Option.Rel R x y)
    (hf : ∀ a b, R a b → Option.Rel S (f a) (g b)) : Option.Rel S (x >>= f) (y >>= g) := by
  cases hx with
  | none => exact Option.Rel.none
  | some h => exact hf _ _ h

/-- **Loops in step.** -/
theorem rel_foldlM {κ : Type} {f : α → κ → Option α} {g : β → κ → Option β} (keys : List κ)
    (h : ∀ a b k, R a b → Option.Rel R (f a k) (g b k)) {a : α} {b : β} (hab : R a b) :
    Option.Rel R (keys.foldlM f a) (keys.foldlM g b) := by
  induction keys generalizing a b with
  | nil => exact Option.Rel.some hab
  | cons k keys ih => exact rel_bind (h a b k hab) fun a' b' hab' => ih hab'

end Rel

end WtBenchmarks
