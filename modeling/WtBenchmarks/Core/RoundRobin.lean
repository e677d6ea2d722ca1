/-
Work dealt out among `k` workers, one turn after another.

Item `i` of `n` goes to worker `i % k`, as that worker's item number `i / k`. A worker's share is a quotient, and one
more for the first of them; the items of a worker are those of one residue class.

- `share_sum`: the shares add up to all items;
- `mem_stride`, `stride_perm`: the residue classes partition `0..n`;
- `Dealt.push`: appending item `n` to stream `n % k` deals one item more;
- `Dealt.stream_length`, `Dealt.merge_eq`, `Dealt.sublist`: streams have the lengths of the shares, taking items from
  them in turn gives back the items in order, and each stream keeps that order;
- `foldlM_rotate`: a loop over the offsets from a start goes through a rotation.
-/
import Mathlib.Data.List.NodupEquivFin
import Mathlib.Data.List.Nodup
import Mathlib.Tactic

namespace WtBenchmarks.RoundRobin

/-! ## Shares -/

/-- the number of items of worker `t` -/
def share (n k t : ℕ) : ℕ := n / k + if t < n % k then 1 else 0

/-- the items of worker `t` -/
def stride (n k t : ℕ) : List ℕ := List.range' t ((n - t + k - 1) / k) k

variable {n k t : ℕ}

theorem lt_share (ht : t < k) (j : ℕ) : j < share n k t ↔ j * k + t < n := by
  have hsplit := Nat.div_add_mod n k
  have hmod : n % k < k := Nat.mod_lt n (by omega)
  unfold share
  constructor
  · intro hj
    rcases Nat.lt_or_ge j (n / k) with hlt | hge
    · have hmul := Nat.mul_le_mul_right k (Nat.succ_le_of_lt hlt)
      rw [Nat.succ_mul, Nat.mul_comm (n / k)] at hmul
      omega
    · split_ifs at hj with hrest
      · have hj' : j = n / k := by omega
        rw [hj', Nat.mul_comm]
        omega
      · omega
  · intro hj
    by_contra hge
    split_ifs at hge with hrest
    · have hmul := Nat.mul_le_mul_right k (Nat.not_lt.1 hge)
      rw [Nat.succ_mul, Nat.mul_comm (n / k)] at hmul
      omega
    · have hmul := Nat.mul_le_mul_right k (Nat.not_lt.1 hge)
      rw [Nat.add_zero, Nat.mul_comm (n / k)] at hmul
      omega

theorem share_pos (ht : t < k) : 0 < share n k t ↔ t < n := by
  rw [lt_share ht, Nat.zero_mul, Nat.zero_add]

/-- no share is more than everything -/
theorem share_le (ht : t < k) : share n k t ≤ n := by
  by_contra hlt
  have hitem := (lt_share ht n).1 (Nat.not_le.1 hlt)
  have hmul : n ≤ n * k := Nat.le_mul_of_pos_right n (by omega)
  omega

/-- a share is the quotient, rounded down or up -/
theorem share_cases (hk : 0 < k) (n t : ℕ) : share n k t = n / k ∨ share n k t = (n + k - 1) / k := by
  unfold share
  split_ifs with ht
  · right
    have hsplit := Nat.div_add_mod n k
    have hmod := Nat.mod_lt n hk
    obtain ⟨r, hr⟩ : ∃ r, n % k = r + 1 := ⟨n % k - 1, by omega⟩
    have hsum : n + k - 1 = r + k * (n / k + 1) := by
      rw [Nat.mul_succ]
      omega
    rw [hsum, Nat.add_mul_div_left _ _ hk, Nat.div_eq_of_lt (show r < k by omega), Nat.zero_add]
  · exact Or.inl rfl

/-- the first shares have one item more, as long as there is a remainder -/
theorem share_sum_le (n k m : ℕ) : ((List.range m).map (share n k)).sum = m * (n / k) + min m (n % k) := by
  induction m with
  | zero => simp
  | succ m ih =>
    rw [List.range_succ, List.map_append, List.sum_append, ih, List.map_singleton, List.sum_singleton, Nat.succ_mul,
      share]
    split_ifs with hm <;> omega

/-- **The shares add up.** -/
theorem share_sum (hk : 0 < k) : ((List.range k).map (share n k)).sum = n := by
  rw [share_sum_le, Nat.min_eq_right (Nat.mod_lt n hk).le]
  exact Nat.div_add_mod n k

/-! ## Residue classes -/

theorem stride_length (ht : t < k) : (stride n k t).length = share n k t := by
  unfold stride
  rw [List.length_range']
  refine eq_of_forall_lt_iff fun j => ?_
  rw [lt_share ht, ← Nat.succ_le_iff, Nat.le_div_iff_mul_le (by omega), Nat.succ_mul]
  omega

theorem mem_stride (ht : t < k) {i : ℕ} : i ∈ stride n k t ↔ i < n ∧ i % k = t := by
  have hlen := stride_length (n := n) ht
  unfold stride at hlen ⊢
  rw [List.length_range'] at hlen
  rw [List.mem_range', hlen]
  constructor
  · intro h
    obtain ⟨j, hj, rfl⟩ := h
    rw [lt_share ht, Nat.mul_comm] at hj
    rw [Nat.add_mul_mod_self_left, Nat.mod_eq_of_lt ht]
    exact ⟨by omega, rfl⟩
  · intro h
    obtain ⟨hi, hmod⟩ := h
    have hsplit := Nat.div_add_mod i k
    refine ⟨i / k, (lt_share ht _).2 ?_, by omega⟩
    rw [Nat.mul_comm]
    omega

theorem stride_nodup (n : ℕ) (ht : t < k) : (stride n k t).Nodup := by
  unfold stride
  exact List.nodup_range' k (by omega)

/-- **The residue classes partition the items.** -/
theorem stride_perm (n : ℕ) (hk : 0 < k) : ((List.range k).flatMap (stride n k)).Perm (List.range n) := by
  have hdisjoint : ((List.range k).flatMap (stride n k)).Nodup := by
    rw [List.nodup_flatMap]
    refine ⟨fun t ht => stride_nodup n (List.mem_range.1 ht), ?_⟩
    refine List.Pairwise.imp_of_mem ?_ (List.pairwise_lt_range (n := k))
    intro t u ht hu hlt i hi hi'
    have h := ((mem_stride (List.mem_range.1 ht)).1 hi).2
    have h' := ((mem_stride (List.mem_range.1 hu)).1 hi').2
    omega
  refine (List.perm_ext_iff_of_nodup hdisjoint List.nodup_range).2 fun i => ?_
  rw [List.mem_flatMap, List.mem_range]
  constructor
  · intro h
    obtain ⟨t, ht, hi⟩ := h
    exact ((mem_stride (List.mem_range.1 ht)).1 hi).1
  · intro hi
    have hmod := Nat.mod_lt i hk
    exact ⟨i % k, List.mem_range.2 hmod, (mem_stride hmod).2 ⟨hi, rfl⟩⟩

/-! ## Dealt items -/

section Deal

variable {α : Type*} {ops : List α} {streams : List (List α)}

/-- the item at a turn of a stream -/
def item (streams : List (List α)) (t j : ℕ) : Option α := streams[t]?.bind (·[j]?)

/-- the items, dealt to `k` streams in turn -/
structure Dealt (k : ℕ) (ops : List α) (streams : List (List α)) : Prop where
  count : streams.length = k
  items : ∀ t j, t < k → item streams t j = ops[j * k + t]?

/-- the items of the streams, taken in turn -/
def merge (streams : List (List α)) : List α :=
  (List.range streams.flatten.length).filterMap fun i => item streams (i % streams.length) (i / streams.length)

theorem lt_length_iff {l : List α} {j : ℕ} : j < l.length ↔ l[j]?.isSome := by simp

/-- a list read index by index -/
theorem filterMap_range (l : List α) : (List.range l.length).filterMap (l[·]?) = l := by
  induction l using List.reverseRecOn with
  | nil => rfl
  | append_singleton l x ih =>
    have hbefore : ∀ i ∈ List.range l.length, (l ++ [x])[i]? = l[i]? := fun i hi =>
      List.getElem?_append_left (List.mem_range.1 hi)
    rw [List.length_append, List.length_singleton, List.range_succ, List.filterMap_append,
      List.filterMap_congr hbefore, ih]
    simp

theorem Dealt.nil (k : ℕ) : Dealt k ([] : List α) (List.replicate k []) := by
  refine ⟨List.length_replicate, fun t j ht => ?_⟩
  simp [item, ht]

/-- **One more item**, for the stream whose turn it is. -/
theorem Dealt.push (h : Dealt k ops streams) (x : α) :
    Dealt k (ops ++ [x]) (streams.modify (ops.length % k) (· ++ [x])) := by
  refine ⟨(List.length_modify _ _ _).trans h.count, fun t j ht => ?_⟩
  have hlast : ops.length % k + k * (ops.length / k) = ops.length := Nat.mod_add_div _ _
  obtain ⟨stream, hstream⟩ : ∃ stream, streams[t]? = some stream :=
    ⟨_, List.getElem?_eq_getElem (by rw [h.count]; exact ht)⟩
  have hitems : ∀ j, stream[j]? = ops[j * k + t]? := by
    intro j
    have hj := h.items t j ht
    rwa [item, hstream, Option.bind_some] at hj
  have hlen : ∀ j, j < stream.length ↔ j * k + t < ops.length := by
    intro j
    rw [lt_length_iff, lt_length_iff, hitems]
  rw [item, List.getElem?_modify, hstream]
  simp only [Option.map_eq_map, Option.map_some, Option.bind_some]
  split_ifs with hturn
  · -- the stream has the turns before this one, and this one is its next
    have hat : stream.length * k + t = ops.length := by
      have hnot := mt (hlen stream.length).2 (lt_irrefl _)
      have hdiv : stream.length ≤ ops.length / k := by
        by_contra hlt
        have hj := (hlen (ops.length / k)).1 (Nat.not_le.1 hlt)
        rw [Nat.mul_comm] at hj
        omega
      have hmul := Nat.mul_le_mul_right k hdiv
      rw [Nat.mul_comm (ops.length / k)] at hmul
      omega
    rcases lt_trichotomy j stream.length with hj | hj | hj
    · rw [List.getElem?_append_left hj, hitems, List.getElem?_append_left ((hlen j).1 hj)]
    · rw [hj, hat, List.getElem?_concat_length, List.getElem?_concat_length]
    · have hmul := Nat.mul_le_mul_right k (Nat.succ_le_of_lt hj)
      rw [Nat.succ_mul] at hmul
      rw [List.getElem?_eq_none (by simp; omega), List.getElem?_eq_none (by simp; omega)]
  · have hne : j * k + t ≠ ops.length := by
      intro heq
      apply hturn
      rw [← heq, Nat.mul_comm, Nat.mul_add_mod, Nat.mod_eq_of_lt ht]
    rw [hitems]
    rcases Nat.lt_or_gt_of_ne hne with hj | hj
    · rw [List.getElem?_append_left hj]
    · rw [List.getElem?_eq_none hj.le, List.getElem?_eq_none (by simp; omega)]

section Reading

variable (h : Dealt k ops streams)
include h

theorem Dealt.getElem {stream : List α} (hstream : streams[t]? = some stream) (j : ℕ) :
    stream[j]? = ops[j * k + t]? := by
  have ht : t < k := by
    rw [← h.count]
    exact (List.getElem?_eq_some_iff.1 hstream).1
  have hitem := h.items t j ht
  rwa [item, hstream, Option.bind_some] at hitem

/-- **Lengths of the streams.** -/
theorem Dealt.stream_length {stream : List α} (hstream : streams[t]? = some stream) :
    stream.length = share ops.length k t := by
  have ht : t < k := by
    rw [← h.count]
    exact (List.getElem?_eq_some_iff.1 hstream).1
  refine eq_of_forall_lt_iff fun j => ?_
  rw [lt_share ht, lt_length_iff, lt_length_iff, h.getElem hstream]

theorem Dealt.lengths : streams.map List.length = (List.range k).map (share ops.length k) := by
  refine List.ext_getElem? fun t => ?_
  rw [List.getElem?_map, List.getElem?_map]
  rcases Nat.lt_or_ge t k with ht | ht
  · obtain ⟨stream, hstream⟩ : ∃ stream, streams[t]? = some stream :=
      ⟨_, List.getElem?_eq_getElem (by rw [h.count]; exact ht)⟩
    rw [hstream, List.getElem?_range ht, Option.map_some, Option.map_some, h.stream_length hstream]
  · rw [List.getElem?_eq_none (h.count ▸ ht), List.getElem?_eq_none (by simpa using ht)]
    rfl

theorem Dealt.flatten_length (hk : 0 < k) : streams.flatten.length = ops.length := by
  rw [List.length_flatten, h.lengths, share_sum hk]

/-- **Taking the items in turn** gives back what was dealt. -/
theorem Dealt.merge_eq (hk : 0 < k) : merge streams = ops := by
  have hitem : ∀ i, item streams (i % streams.length) (i / streams.length) = ops[i]? := by
    intro i
    rw [h.count, h.items _ _ (Nat.mod_lt i hk), Nat.mul_comm, Nat.div_add_mod]
  unfold merge
  rw [h.flatten_length hk, List.filterMap_congr fun i _ => hitem i]
  exact filterMap_range ops

/-- **Order.** A stream has its items in the order of the deal. -/
theorem Dealt.sublist {stream : List α} (hk : 0 < k) (hstream : stream ∈ streams) : stream.Sublist ops := by
  obtain ⟨t, hstream⟩ := List.mem_iff_getElem?.1 hstream
  have hmono : StrictMono fun j => j * k + t := by
    intro i j hij
    exact Nat.add_lt_add_right (Nat.mul_lt_mul_of_pos_right hij hk) t
  exact List.sublist_of_orderEmbedding_getElem?_eq (OrderEmbedding.ofStrictMono _ hmono) (h.getElem hstream)

end Reading

end Deal

/-! ## Rotated orders -/

/-- **A rotated order.** Picking every offset from a start, around the end of a list, goes through its rotation. -/
theorem foldlM_rotate {α β : Type} (l : List α) (start : ℕ) (f : β → α → Option β) (b : β) :
    (List.range l.length).foldlM (fun b offset => do f b (← l[(start + offset) % l.length]?)) b =
      (l.rotate start).foldlM f b := by
  have hpick : (List.range l.length).map (fun offset => l[(start + offset) % l.length]?) =
      (l.rotate start).map some := by
    refine List.ext_getElem (by simp) fun i hi _ => ?_
    rw [List.length_map, List.length_range] at hi
    have hlt : (start + i) % l.length < l.length := Nat.mod_lt _ (Nat.zero_lt_of_lt hi)
    rw [List.getElem_map, List.getElem_range, List.getElem_map, List.getElem_rotate, List.getElem?_eq_getElem hlt]
    simp only [Nat.add_comm]
  calc (List.range l.length).foldlM (fun b offset => do f b (← l[(start + offset) % l.length]?)) b
      = ((List.range l.length).map fun offset => l[(start + offset) % l.length]?).foldlM
          (fun b a => do f b (← a)) b := by
        rw [List.foldlM_map]
    _ = (l.rotate start).foldlM f b := by
        rw [hpick, List.foldlM_map]
        rfl

end WtBenchmarks.RoundRobin
