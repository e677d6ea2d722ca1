/-
Checksums that add up a digest of each row read.

The rows are the answers to a list of requests, each of which may fail. What such a sum can tell apart is a matter of
how the digest of a row mixes its key with its value: a digest that is a sum itself does not know which value came with
which key.

- `foldlM_total`: a loop over requests that adds up digests;
- `total_exchange`: the sum when two keys answer with each other's values;
- `exchange_noticed`, `exchange_unnoticed`: when a digest that adds a part of the key to a part of the value shows it;
- `nsmul_inj_of_low`: a word with a low bit weighs differently when it is counted differently often.
-/
import Mathlib.Algebra.BigOperators.Group.List.Basic
import Mathlib.Data.Nat.Prime.Basic
import Mathlib.Data.UInt
import Mathlib.Tactic

namespace WtBenchmarks.Aggregate

variable {α ρ G : Type} [AddCommGroup G]

/-- the sum of the digests of some rows -/
def total (digest : α → G) (rows : List α) : G := (rows.map digest).sum

@[simp] theorem total_nil (digest : α → G) : total digest [] = 0 := rfl

@[simp] theorem total_cons (digest : α → G) (r : α) (rows : List α) :
    total digest (r :: rows) = digest r + total digest rows := by
  rw [total, List.map_cons, List.sum_cons]
  rfl

@[simp] theorem total_append (digest : α → G) (rows rows' : List α) :
    total digest (rows ++ rows') = total digest rows + total digest rows' := by
  rw [total, List.map_append, List.sum_append]
  rfl

theorem foldl_total (digest : α → G) (rows : List α) (sum : G) :
    rows.foldl (fun sum r => sum + digest r) sum = sum + total digest rows := by
  induction rows generalizing sum with
  | nil => simp
  | cons r rows ih => rw [List.foldl_cons, ih, total_cons, add_assoc]

/-! ## Requests -/

/-- the rows that answer a list of requests -/
def answers (fetch : ρ → Option (List α)) (requests : List ρ) : Option (List α) :=
  (requests.mapM fetch).map List.flatten

@[simp] theorem answers_nil (fetch : ρ → Option (List α)) : answers fetch [] = some [] := rfl

@[simp] theorem answers_cons (fetch : ρ → Option (List α)) (request : ρ) (requests : List ρ) :
    answers fetch (request :: requests) =
      (fetch request).bind fun rows => (answers fetch requests).map fun rest => rows ++ rest := by
  unfold answers
  rw [List.mapM_cons]
  cases fetch request with
  | none => rfl
  | some rows =>
    cases requests.mapM fetch with
    | none => rfl
    | some rest => rfl

/-- **Adding up as the answers come in.** -/
theorem foldlM_total (digest : α → G) (fetch : ρ → Option (List α)) (requests : List ρ) (sum : G) :
    requests.foldlM (fun sum request => (fetch request).map fun rows => sum + total digest rows) sum =
      (answers fetch requests).map fun rows => sum + total digest rows := by
  induction requests generalizing sum with
  | nil => simp
  | cons request requests ih =>
    rw [List.foldlM_cons, answers_cons]
    cases fetch request with
    | none => rfl
    | some rows =>
      rw [Option.map_some, Option.bind_eq_bind, Option.bind_some, ih, Option.bind_some, Option.map_map]
      congr 1
      funext rest
      rw [Function.comp_apply, total_append, add_assoc]

/-- answers that are changed row by row -/
theorem answers_map {fetch fetch' : ρ → Option (List α)} (f : α → α)
    (h : ∀ request, fetch' request = (fetch request).map (List.map f)) (requests : List ρ) :
    answers fetch' requests = (answers fetch requests).map (List.map f) := by
  induction requests with
  | nil => rfl
  | cons request requests ih =>
    rw [answers_cons, answers_cons, h, ih]
    cases fetch request with
    | none => rfl
    | some rows =>
      cases answers fetch requests with
      | none => rfl
      | some rest =>
        rw [Option.map_some, Option.bind_some, Option.map_some, Option.map_some, Option.bind_some, Option.map_some,
          Option.map_some, List.map_append]

/-- what holds of the rows of each answer -/
theorem answers_forall {fetch : ρ → Option (List α)} {P : α → Prop}
    (h : ∀ request rows, fetch request = some rows → ∀ r ∈ rows, P r) {requests : List ρ} {rows : List α}
    (hrows : answers fetch requests = some rows) : ∀ r ∈ rows, P r := by
  induction requests generalizing rows with
  | nil =>
    cases hrows
    intro r hr
    exact absurd hr List.not_mem_nil
  | cons request requests ih =>
    rw [answers_cons] at hrows
    obtain ⟨first, hfirst, hrows⟩ := Option.bind_eq_some_iff.1 hrows
    obtain ⟨rest, hrest, rfl⟩ := Option.map_eq_some_iff.1 hrows
    intro r hr
    rcases List.mem_append.1 hr with hr | hr
    · exact h request first hfirst r hr
    · exact ih hrest r hr

/-! ## Exchanged values -/

section Exchange

variable {κ β : Type} [DecidableEq κ] {k₁ k₂ : κ} {p₁ p₂ : β} {rows : List (κ × β)}

/-- the value of a key, when two keys have exchanged theirs -/
def exchange (k₁ k₂ : κ) (p₁ p₂ : β) (k : κ) (p : β) : β := if k = k₁ then p₂ else if k = k₂ then p₁ else p

/-- **An exchange** shifts the sum once for each time either key is read. -/
theorem total_exchange (digest : κ × β → G) (hne : k₁ ≠ k₂) (h₁ : ∀ r ∈ rows, r.1 = k₁ → r.2 = p₁)
    (h₂ : ∀ r ∈ rows, r.1 = k₂ → r.2 = p₂) :
    total digest (rows.map fun r => (r.1, exchange k₁ k₂ p₁ p₂ r.1 r.2)) = total digest rows +
      ((rows.map Prod.fst).count k₁ • (digest (k₁, p₂) - digest (k₁, p₁)) +
        (rows.map Prod.fst).count k₂ • (digest (k₂, p₁) - digest (k₂, p₂))) := by
  induction rows with
  | nil => simp
  | cons r rows ih =>
    have ih := ih (fun r hr => h₁ r (List.mem_cons_of_mem _ hr)) fun r hr => h₂ r (List.mem_cons_of_mem _ hr)
    obtain ⟨k, p⟩ := r
    have hfirst₁ : k = k₁ → p = p₁ := h₁ (k, p) List.mem_cons_self
    have hfirst₂ : k = k₂ → p = p₂ := h₂ (k, p) List.mem_cons_self
    rw [List.map_cons, total_cons, ih, total_cons, List.map_cons, List.count_cons, List.count_cons]
    by_cases hk₁ : k = k₁
    · subst hk₁
      rw [hfirst₁ rfl]
      simp only [exchange, if_true, beq_self_eq_true, beq_iff_eq, if_neg hne, add_nsmul, one_nsmul, add_zero]
      abel
    · by_cases hk₂ : k = k₂
      · subst hk₂
        rw [hfirst₂ rfl]
        simp only [exchange, if_neg hk₁, if_true, beq_self_eq_true, beq_iff_eq, add_nsmul, one_nsmul, add_zero]
        abel
      · simp only [exchange, if_neg hk₁, if_neg hk₂, beq_iff_eq, add_zero]
        abel

/-- **When an exchange shows** in a digest that adds a part of the key to a part of the value. -/
theorem exchange_noticed (c : κ → G) (h : β → G) (hne : k₁ ≠ k₂) (h₁ : ∀ r ∈ rows, r.1 = k₁ → r.2 = p₁)
    (h₂ : ∀ r ∈ rows, r.1 = k₂ → r.2 = p₂) :
    total (fun r => h r.2 + c r.1) (rows.map fun r => (r.1, exchange k₁ k₂ p₁ p₂ r.1 r.2)) ≠
        total (fun r => h r.2 + c r.1) rows ↔
      (rows.map Prod.fst).count k₁ • (h p₂ - h p₁) ≠ (rows.map Prod.fst).count k₂ • (h p₂ - h p₁) := by
  rw [total_exchange _ hne h₁ h₂, add_sub_add_right_eq_sub, add_sub_add_right_eq_sub, ne_eq, add_eq_left, ne_eq,
    ← neg_sub (h p₂) (h p₁), smul_neg, ← sub_eq_add_neg, sub_eq_zero]

/-- two keys read equally often -/
theorem exchange_unnoticed (c : κ → G) (h : β → G) (hne : k₁ ≠ k₂) (h₁ : ∀ r ∈ rows, r.1 = k₁ → r.2 = p₁)
    (h₂ : ∀ r ∈ rows, r.1 = k₂ → r.2 = p₂)
    (hcount : (rows.map Prod.fst).count k₁ = (rows.map Prod.fst).count k₂) :
    total (fun r => h r.2 + c r.1) (rows.map fun r => (r.1, exchange k₁ k₂ p₁ p₂ r.1 r.2)) =
      total (fun r => h r.2 + c r.1) rows := by
  by_contra hnoticed
  exact (exchange_noticed c h hne h₁ h₂).1 hnoticed (by rw [hcount])

end Exchange

/-! ## Few copies of a word -/

/-- a factor takes few twos out of a product, if it has a low bit -/
theorem pow_dvd_of_mul {a d k m : ℕ} (hd : ¬ 2 ^ (k + 1) ∣ d) (h : 2 ^ (m + k) ∣ a * d) : 2 ^ m ∣ a := by
  induction k generalizing d with
  | zero =>
    have hodd : Nat.Coprime 2 d := Nat.prime_two.coprime_iff_not_dvd.2 hd
    exact (hodd.pow_left m).dvd_of_dvd_mul_right h
  | succ k ih =>
    by_cases heven : 2 ∣ d
    · obtain ⟨d', rfl⟩ := heven
      refine ih (d := d') (fun hd' => hd ?_) ?_
      · rw [Nat.pow_succ, Nat.mul_comm]
        exact Nat.mul_dvd_mul_left 2 hd'
      · rw [← Nat.add_assoc, Nat.pow_succ, Nat.mul_left_comm, Nat.mul_comm] at h
        exact Nat.dvd_of_mul_dvd_mul_left Nat.two_pos h
    · have hodd : Nat.Coprime 2 d := Nat.prime_two.coprime_iff_not_dvd.2 heven
      exact (Nat.pow_dvd_pow 2 (Nat.le_add_right m (k + 1))).trans ((hodd.pow_left _).dvd_of_dvd_mul_right h)

theorem toNat_nsmul (n : ℕ) (x : UInt64) : (n • x).toNat = n * x.toNat % 2 ^ 64 := by
  rw [← UInt64.toNat_toBitVec, UInt64.toBitVec_nsmul]
  simp [nsmul_eq_mul]

/-- **Few copies of a word with a low bit** differ if there are more of the one than of the other. -/
theorem nsmul_inj_of_low {m k : ℕ} (hmk : m + k = 64) {d : UInt64} (hd : ¬ 2 ^ (k + 1) ∣ d.toNat) {a b : ℕ}
    (ha : a < 2 ^ m) (hb : b < 2 ^ m) (h : a • d = b • d) : a = b := by
  wlog hle : a ≤ b generalizing a b
  · exact (this hb ha h.symm (Nat.le_of_not_le hle)).symm
  have hsub : (b - a) • d = 0 := by rw [sub_nsmul d hle, h, add_neg_cancel]
  have hdvd : 2 ^ 64 ∣ (b - a) * d.toNat := by
    have hval := congrArg UInt64.toNat hsub
    rw [toNat_nsmul, UInt64.toNat_zero] at hval
    exact Nat.dvd_of_mod_eq_zero hval
  rw [← hmk] at hdvd
  have hzero := Nat.eq_zero_of_dvd_of_lt (pow_dvd_of_mul hd hdvd) (by omega)
  omega

end WtBenchmarks.Aggregate
