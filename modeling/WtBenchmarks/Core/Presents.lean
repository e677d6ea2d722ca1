/-
A map that presents another: the same keys under an injective renaming, each value in a form that a partial `view`
reads back.

The two maps may list their entries in different orders, since the renamed keys have an order of their own.

- `empty`, `insert`: presenting is kept by matching insertions;
- `mem_iff`, `get_some`: lookups agree;
- `pairs_perm`, `views_perm`: the entries read back are the entries presented, up to order;
- `toList_eq`: in the same order, if the renaming keeps the order of the keys;
- `foldlM_eq`, `foldl_eq`: a loop over the presenting map, whose result does not depend on the order, returns what the
  loop over the presented map returns.
-/
import WtBenchmarks.Core.Total
import WtBenchmarks.Core.TreeMap

namespace WtBenchmarks

variable {κ κ' β β' γ : Type} [Ord κ] [Std.TransOrd κ] [Ord κ'] [Std.TransOrd κ']

structure Presents (key : κ → κ') (view : β' → Option β) (t : Std.ExtTreeMap κ' β') (D : Std.ExtTreeMap κ β) :
    Prop where
  get : ∀ k, t[key k]?.map view = D[k]?.map some
  only : ∀ k', k' ∈ t → ∃ k, key k = k'

namespace Presents

variable {key : κ → κ'} {view : β' → Option β} {t : Std.ExtTreeMap κ' β'} {D : Std.ExtTreeMap κ β}

theorem empty : Presents key view ∅ (∅ : Std.ExtTreeMap κ β) := by
  constructor
  · intro k
    simp
  · intro k' hk'
    simp at hk'

theorem mem_iff (h : Presents key view t D) (k : κ) : key k ∈ t ↔ k ∈ D := by
  have hsome := congrArg Option.isSome (h.get k)
  simp only [Option.isSome_map] at hsome
  rw [Std.ExtTreeMap.mem_iff_isSome_getElem?, Std.ExtTreeMap.mem_iff_isSome_getElem?, hsome]

theorem get_none (h : Presents key view t D) {k : κ} (hk : D[k]? = none) : t[key k]? = none := by
  have hget := h.get k
  rw [hk] at hget
  simpa using hget

theorem get_some (h : Presents key view t D) {k : κ} {b : β} (hk : D[k]? = some b) :
    ∃ b', t[key k]? = some b' ∧ view b' = some b := by
  have hget := h.get k
  rw [hk] at hget
  simpa using hget

theorem insert [Std.LawfulEqOrd κ] [DecidableEq κ] [Std.LawfulEqOrd κ'] [DecidableEq κ']
    (hkey : Function.Injective key) (h : Presents key view t D) (k : κ) {b' : β'} {b : β}
    (hview : view b' = some b) : Presents key view (t.insert (key k) b') (D.insert k b) := by
  constructor
  · intro a
    rw [TreeMap.get_insert, TreeMap.get_insert]
    by_cases hka : k = a
    · subst hka
      simp [hview]
    · rw [if_neg fun hc => hka (hkey hc), if_neg hka, h.get a]
  · intro k' hk'
    rcases (TreeMap.mem_insert t (key k) k' b').1 hk' with hk' | hk'
    · exact ⟨k, hk'⟩
    · exact h.only k' hk'

/-! ## Listing the entries -/

theorem view_of_mem [Std.LawfulEqOrd κ'] (h : Presents key view t D) {p : κ' × β'} (hp : p ∈ t.toList) :
    ∃ k b, p.1 = key k ∧ view p.2 = some b ∧ D[k]? = some b := by
  have hget := Std.ExtTreeMap.mem_toList_iff_getElem?_eq_some.1 hp
  obtain ⟨k, hk⟩ := h.only p.1 ((TreeMap.mem_iff_get t p.1).2 ⟨p.2, hget⟩)
  have hview := h.get k
  rw [hk, hget] at hview
  cases hD : D[k]? with
  | none => simp [hD] at hview
  | some b => exact ⟨k, b, hk.symm, by simpa [hD] using hview, hD⟩

variable [Std.LawfulEqOrd κ] [Std.LawfulEqOrd κ']

/-- the entries of a map are pairwise different, also with their values seen through a function -/
theorem nodup_views {α β δ : Type} [Ord α] [Std.TransOrd α] [Std.LawfulEqOrd α] (t : Std.ExtTreeMap α β) (f : β → δ) :
    (t.toList.map fun p => (p.1, f p.2)).Nodup := by
  apply List.Nodup.of_map Prod.fst
  rw [List.map_map]
  exact List.pairwise_map.2 (t.distinct_keys_toList.imp fun hpq heq => hpq (Std.LawfulEqOrd.compare_eq_iff_eq.2 heq))

/-- **The same entries.** -/
theorem pairs_perm (hkey : Function.Injective key) (h : Presents key view t D) :
    (t.toList.map fun p => (p.1, view p.2)).Perm (D.toList.map fun q => (key q.1, some q.2)) := by
  rw [List.perm_ext_iff_of_nodup (nodup_views t view)]
  · rintro ⟨k', o⟩
    simp only [List.mem_map, Prod.mk.injEq]
    constructor
    · rintro ⟨p, hp, rfl, rfl⟩
      obtain ⟨k, b, hk, hview, hD⟩ := view_of_mem h hp
      exact ⟨(k, b), Std.ExtTreeMap.mem_toList_iff_getElem?_eq_some.2 hD, hk.symm, hview.symm⟩
    · rintro ⟨q, hq, rfl, rfl⟩
      obtain ⟨b', hb', hview⟩ := h.get_some (Std.ExtTreeMap.mem_toList_iff_getElem?_eq_some.1 hq)
      exact ⟨(key q.1, b'), Std.ExtTreeMap.mem_toList_iff_getElem?_eq_some.2 hb', rfl, hview⟩
  · have hmap : (D.toList.map fun q => (key q.1, some q.2)) =
        (D.toList.map fun q => (q.1, some q.2)).map (Prod.map key id) := by
      rw [List.map_map]
      rfl
    rw [hmap]
    exact (nodup_views D some).map (hkey.prodMap Function.injective_id)

theorem views_perm (hkey : Function.Injective key) (h : Presents key view t D) :
    (t.toList.map fun p => view p.2).Perm (D.toList.map fun q => some q.2) := by
  simpa [List.map_map, Function.comp_def] using (pairs_perm hkey h).map Prod.snd

/-- **The same order.** If the renaming keeps the order of the keys, both maps list their entries in it. -/
theorem toList_eq (hkey : ∀ a b, compare (key a) (key b) = compare a b) (h : Presents key view t D) :
    (t.toList.map fun p => (p.1, view p.2)) = D.toList.map fun q => (key q.1, some q.2) := by
  have hinj : Function.Injective key := by
    intro a b hab
    have hcompare := hkey a b
    rw [hab, Std.compare_self] at hcompare
    exact Std.LawfulEqOrd.compare_eq_iff_eq.1 hcompare.symm
  have hleft : (t.toList.map fun p => (p.1, view p.2)).Pairwise fun p q => compare p.1 q.1 = .lt :=
    List.pairwise_map.2 t.ordered_keys_toList
  have hright : (D.toList.map fun q => (key q.1, some q.2)).Pairwise fun p q => compare p.1 q.1 = .lt := by
    refine List.pairwise_map.2 (D.ordered_keys_toList.imp fun {p q} hpq => ?_)
    rw [hkey]
    exact hpq
  refine List.Perm.eq_of_pairwise (fun p q _ _ hpq hqp => ?_) hleft hright (pairs_perm hinj h)
  rw [Std.OrientedOrd.eq_swap (a := q.1), hpq] at hqp
  cases hqp

/-- **Loops over the entries.** -/
theorem foldlM_eq (hkey : Function.Injective key) (h : Presents key view t D) {f : γ → β → γ}
    (hcomm : ∀ c a b, f (f c a) b = f (f c b) a) {step : γ → κ' × β' → Option γ}
    (hstep : ∀ c k b' b, view b' = some b → step c (key k, b') = some (f c b)) (c : γ) :
    t.toList.foldlM step c = some (D.toList.foldl (fun c q => f c q.2) c) := by
  -- the loop with the values already read
  let g : γ → Option β → γ := fun c o => o.elim c (f c)
  have hrun : t.toList.foldlM step c = some (t.toList.foldl (fun c p => g c (view p.2)) c) := by
    apply foldlM_eq_some
    intro c p hp
    obtain ⟨k, b, hk, hview, -⟩ := view_of_mem h hp
    have hp' : p = (key k, p.2) := by rw [← hk]
    rw [hp', hstep c k p.2 b hview]
    simp [g, hview]
  have hg : ∀ a b c, g (g c a) b = g (g c b) a := by
    intro a b c
    cases a <;> cases b <;> simp [g, hcomm]
  calc t.toList.foldlM step c = some ((t.toList.map fun p => view p.2).foldl g c) := by rw [hrun, List.foldl_map]
    _ = some ((D.toList.map fun q => some q.2).foldl g c) := by
      rw [(views_perm hkey h).foldl_eq' (fun a _ b _ c => hg a b c)]
    _ = some (D.toList.foldl (fun c q => f c q.2) c) := by rw [List.foldl_map]; rfl

/-- the same of a view that always succeeds -/
theorem foldl_eq (hkey : Function.Injective key) {g : β' → β} (h : Presents key (fun b' => some (g b')) t D)
    {f : γ → β → γ} (hcomm : ∀ c a b, f (f c a) b = f (f c b) a) (c : γ) :
    t.toList.foldl (fun c p => f c (g p.2)) c = D.toList.foldl (fun c q => f c q.2) c := by
  have hloop : t.toList.foldlM (fun c p => some (f c (g p.2))) c = some (D.toList.foldl (fun c q => f c q.2) c) :=
    h.foldlM_eq hkey hcomm (fun c k b' b hb => by rw [Option.some.inj hb]) c
  have hrun : t.toList.foldlM (fun c p => some (f c (g p.2))) c = some (t.toList.foldl (fun c p => f c (g p.2)) c) :=
    foldlM_eq_some _ (fun _ _ _ => rfl) c
  exact Option.some.inj (hrun.symm.trans hloop)

end Presents

end WtBenchmarks
