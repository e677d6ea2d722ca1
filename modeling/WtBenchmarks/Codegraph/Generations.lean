/-
Generations side by side (`src/codegraph.rs`, and the `incremental` group of `benches/codegraph.rs`).

A store keeps every generation that was published into it. The digests of a row come from the lowest word of the
generation's key, so rows of different generations may have one digest, and the publish that brings the second of them
is a panic.

- `publish_stores`, `publishAll_iff`: one publish and a run of them, over the rows that are there;
- `publishAll_complete_iff`: a run goes through exactly if no two of its generations clash;
- `generations_side_by_side`: after such a run a scan finds the rows of its own generation, a walk those of all of them,
  and no generation can be published again.
-/
import WtBenchmarks.Codegraph.Publish

namespace WtBenchmarks.Codegraph

local instance transOrdU128 : Std.TransOrd U128 := inferInstanceAs (Std.TransOrd (BitVec 128))

local instance lawfulEqOrdU128 : Std.LawfulEqOrd U128 := inferInstanceAs (Std.LawfulEqOrd (BitVec 128))

/-! ## Model -/

/-- `CHANGED_FILES` -/
def changedFiles : UInt64 := 1

/-- generations published one after the other, and how many rows each of them wrote -/
def Store.publishAll (store : Store) : List Generation → Option (Store × List UInt64)
  | [] => some (store, [])
  | generation :: generations => do
    let (store, written) ← store.publish generation
    let (store, more) ← store.publishAll generations
    some (store, written :: more)

/-- what `incremental` publishes into one store -/
def incremental (files : UInt64) (iters : ℕ) : List Generation :=
  Generation.new 0 files :: (List.range iters).map fun i => Generation.new (UInt64.ofNat i + 1) changedFiles

/-- rows of one table that have the same digest -/
def SameDigest (key key' : U128) (file ordinal file' ordinal' : ℕ) : Prop :=
  spread (seedOf key file ordinal) = spread (seedOf key' file' ordinal') ∨
    spread (seedOf key file ordinal ^^^ 0x1EFE) = spread (seedOf key' file' ordinal' ^^^ 0x1EFE) ∨
    spread (seedOf key file ordinal ^^^ 0xED6E) = spread (seedOf key' file' ordinal' ^^^ 0xED6E)

/-- the generations have rows with the same digest -/
def Clash (generation generation' : Generation) : Prop :=
  ∃ file < generation.files.toNat, ∃ ordinal < 18, ∃ file' < generation'.files.toNat, ∃ ordinal' < 18,
    SameDigest generation.key generation'.key file ordinal file' ordinal'

instance decidableSameDigest (key key' : U128) (file ordinal file' ordinal' : ℕ) :
    Decidable (SameDigest key key' file ordinal file' ordinal') := inferInstanceAs (Decidable (_ ∨ _))

instance decidableClash (generation generation' : Generation) : Decidable (Clash generation generation') :=
  inferInstanceAs (Decidable (∃ _, _ ∧ _))

/-! ## One publish -/

/-- the rows of the tables -/
structure Holds (store : Store) (postings : List SymbolPostingRow) (lexemes : List SymbolLexemeRow)
    (edges : List DependencyFactRow) : Prop where
  postings : store.postings.table.Stores SymbolPostingRow.id postings
  lexemes : store.lexemes.table.Stores SymbolLexemeRow.id lexemes
  edges : store.edges.table.Stores DependencyFactRow.id edges

theorem holds_new (p l e : UInt64) : Holds (Store.new p l e) [] [] [] :=
  ⟨UniqueTable.stores_empty _, UniqueTable.stores_empty _, UniqueTable.stores_empty _⟩

/-- no primary key and no digest is repeated -/
structure Apart (postings : List SymbolPostingRow) (lexemes : List SymbolLexemeRow)
    (edges : List DependencyFactRow) : Prop where
  postings : (postings.map SymbolPostingRow.id).Nodup ∧ (postings.map SymbolPostingRow.postingHash).Nodup
  lexemes : (lexemes.map SymbolLexemeRow.id).Nodup ∧ (lexemes.map SymbolLexemeRow.lexemeKey).Nodup
  edges : (edges.map DependencyFactRow.id).Nodup ∧ (edges.map DependencyFactRow.edgeHash).Nodup

/-- and so is a part of them -/
theorem Apart.start {postings more : List SymbolPostingRow} {lexemes more' : List SymbolLexemeRow}
    {edges more'' : List DependencyFactRow} (h : Apart (postings ++ more) (lexemes ++ more') (edges ++ more'')) :
    Apart postings lexemes edges := by
  have hkeep : ∀ {ρ α : Type} {f : ρ → α} {rows more : List ρ}, ((rows ++ more).map f).Nodup → (rows.map f).Nodup := by
    intro ρ α f rows more h
    rw [List.map_append] at h
    exact h.of_append_left
  exact ⟨⟨hkeep h.postings.1, hkeep h.postings.2⟩, ⟨hkeep h.lexemes.1, hkeep h.lexemes.2⟩,
    ⟨hkeep h.edges.1, hkeep h.edges.2⟩⟩

section Publish

variable {store store' : Store} {postings : List SymbolPostingRow} {lexemes : List SymbolLexemeRow}
  {edges : List DependencyFactRow} {generation : Generation}

/-- the rows that are stored are apart -/
theorem Holds.apart (h : Holds store postings lexemes edges) : Apart postings lexemes edges :=
  ⟨⟨h.postings.keys_nodup, h.postings.values_nodup⟩, ⟨h.lexemes.keys_nodup, h.lexemes.values_nodup⟩,
    ⟨h.edges.keys_nodup, h.edges.values_nodup⟩⟩

/-- what a store is after a publish -/
structure Published (store : Store) (generation : Generation) (store' : Store) (written : UInt64)
    (postings : List SymbolPostingRow) (lexemes : List SymbolLexemeRow) (edges : List DependencyFactRow) : Prop where
  holds : Holds store'
    (postings ++ numbered (byFile (postingRow generation)) store.postings.nextPk (generation.files.toNat * 18))
    (lexemes ++ numbered (byFile (lexemeRow generation)) store.lexemes.nextPk (generation.files.toNat * 18))
    (edges ++ numbered (byFile (edgeRow generation)) store.edges.nextPk (generation.files.toNat * 18))
  nextPosting : store'.postings.nextPk = store.postings.nextPk + UInt64.ofNat (generation.files.toNat * 18)
  nextLexeme : store'.lexemes.nextPk = store.lexemes.nextPk + UInt64.ofNat (generation.files.toNat * 18)
  nextEdge : store'.edges.nextPk = store.edges.nextPk + UInt64.ofNat (generation.files.toNat * 18)
  written : written = UInt64.ofNat (generation.files.toNat * 54)

/-- **A publish** that is accepted adds the rows of its generation. -/
theorem publish_stores (h : Holds store postings lexemes edges) {written : UInt64}
    (hpublish : store.publish generation = some (store', written)) :
    Published store generation store' written postings lexemes edges := by
  unfold Store.publish at hpublish
  rw [batch_eq] at hpublish
  simp only [rowsOf, Option.bind_eq_bind, Option.bind_eq_some_iff, numbered_length] at hpublish
  obtain ⟨tablePostings, hpostings, tableLexemes, hlexemes, tableEdges, hedges, heq⟩ := hpublish
  cases heq
  refine ⟨⟨h.postings.insertMany _ hpostings, h.lexemes.insertMany _ hlexemes, h.edges.insertMany _ hedges⟩, rfl, rfl,
    rfl, congrArg UInt64.ofNat ?_⟩
  omega

/-- it is accepted exactly if its rows and those that are there are apart -/
theorem publish_isSome (generation : Generation) (h : Holds store postings lexemes edges) :
    (∃ r, store.publish generation = some r) ↔
      Apart
        (postings ++ numbered (byFile (postingRow generation)) store.postings.nextPk (generation.files.toNat * 18))
        (lexemes ++ numbered (byFile (lexemeRow generation)) store.lexemes.nextPk (generation.files.toNat * 18))
        (edges ++ numbered (byFile (edgeRow generation)) store.edges.nextPk (generation.files.toNat * 18)) := by
  constructor
  · rintro ⟨⟨store', written⟩, hpublish⟩
    exact (publish_stores h hpublish).holds.apart
  · rintro ⟨hpostings, hlexemes, hedges⟩
    obtain ⟨tablePostings, hpostings, -⟩ := (UniqueTable.insertMany_stores h.postings _).2 hpostings
    obtain ⟨tableLexemes, hlexemes, -⟩ := (UniqueTable.insertMany_stores h.lexemes _).2 hlexemes
    obtain ⟨tableEdges, hedges, -⟩ := (UniqueTable.insertMany_stores h.edges _).2 hedges
    unfold Store.publish
    rw [batch_eq]
    simp only [rowsOf, hpostings, hlexemes, hedges, Option.bind_eq_bind, Option.bind_some]
    exact ⟨_, rfl⟩

end Publish

/-! ## A run of publishes -/

section Run

variable {ρ : Type} (row : Generation → ℕ → ℕ → UInt64 → ρ)

/-- the rows of the generations, numbered on -/
def numberedAll (p : UInt64) : List Generation → List ρ
  | [] => []
  | generation :: generations =>
    numbered (byFile (row generation)) p (generation.files.toNat * 18) ++
      numberedAll (p + UInt64.ofNat (generation.files.toNat * 18)) generations

/-- how many rows of a table the generations have -/
def rowCount (generations : List Generation) : ℕ := (generations.map fun generation => generation.files.toNat * 18).sum

theorem rowCount_cons (generation : Generation) (generations : List Generation) :
    rowCount (generation :: generations) = generation.files.toNat * 18 + rowCount generations := by
  rw [rowCount, List.map_cons, List.sum_cons]
  rfl

/-- the rows are numbered from `p` on, whatever generation they are of -/
theorem numberedAll_ids {id : ρ → UInt64} (hid : ∀ generation file ordinal w, id (row generation file ordinal w) = w)
    (p : UInt64) (generations : List Generation) :
    (numberedAll row p generations).map id =
      (List.range (rowCount generations)).map fun i => p + UInt64.ofNat i := by
  induction generations generalizing p with
  | nil => rfl
  | cons generation generations ih =>
    rw [numberedAll, List.map_append, ih, rowCount_cons, List.range_add, List.map_append, numbered, List.map_map,
      List.map_map]
    congr 1
    · exact List.map_congr_left fun i _ => hid _ _ _ _
    · refine List.map_congr_left fun i _ => ?_
      rw [Function.comp_apply, UInt64.ofNat_add, UInt64.add_assoc]

theorem numberedAll_ids_nodup {id : ρ → UInt64}
    (hid : ∀ generation file ordinal w, id (row generation file ordinal w) = w) (p : UInt64)
    {generations : List Generation} (hcount : rowCount generations < 2 ^ 64) :
    ((numberedAll row p generations).map id).Nodup := by
  rw [numberedAll_ids row hid]
  refine List.nodup_range.map_on fun i hi j hj heq => ?_
  have hi := (List.mem_range.1 hi).trans hcount
  have hj := (List.mem_range.1 hj).trans hcount
  rw [← ofNat_toNat_of_lt hi, (UInt64.add_right_inj p).1 heq, ofNat_toNat_of_lt hj]

theorem mem_numbered_byFile {digest : ρ → U128} {row : ℕ → ℕ → UInt64 → ρ} {d : ℕ → ℕ → U128} {p : UInt64} {files : ℕ}
    (hdigest : ∀ file ordinal w, digest (row file ordinal w) = d file ordinal) {x : U128} :
    x ∈ (numbered (byFile row) p (files * 18)).map digest ↔ ∃ file < files, ∃ ordinal < 18, d file ordinal = x := by
  rw [numbered, List.map_map, List.mem_map]
  constructor
  · rintro ⟨i, hi, rfl⟩
    have hi := List.mem_range.1 hi
    exact ⟨i / 18, by omega, i % 18, by omega, (hdigest _ _ _).symm⟩
  · rintro ⟨file, hfile, ordinal, hordinal, rfl⟩
    refine ⟨file * 18 + ordinal, List.mem_range.2 (by omega), ?_⟩
    rw [Function.comp_apply, byFile, hdigest, show (file * 18 + ordinal) / 18 = file by omega,
      show (file * 18 + ordinal) % 18 = ordinal by omega]

variable {row} {digest : ρ → U128} {mask : UInt64}

theorem mem_numberedAll
    (hdigest : ∀ generation file ordinal w,
      digest (row generation file ordinal w) = spread (seedOf generation.key file ordinal ^^^ mask))
    {p : UInt64} {generations : List Generation} {x : U128} :
    x ∈ (numberedAll row p generations).map digest ↔ ∃ generation ∈ generations,
      ∃ file < generation.files.toNat, ∃ ordinal < 18, spread (seedOf generation.key file ordinal ^^^ mask) = x := by
  induction generations generalizing p with
  | nil => simp [numberedAll]
  | cons generation generations ih =>
    rw [numberedAll, List.map_append, List.mem_append, ih, List.exists_mem_cons_iff,
      mem_numbered_byFile fun file ordinal w => hdigest generation file ordinal w]

/-- **A digest column** of the whole run: within one generation nothing is repeated. -/
theorem numberedAll_digests (row : Generation → ℕ → ℕ → UInt64 → ρ) (digest : ρ → U128) (mask : UInt64)
    (hmask : mask.toNat < 2 ^ 48)
    (hdigest : ∀ generation file ordinal w,
      digest (row generation file ordinal w) = spread (seedOf generation.key file ordinal ^^^ mask))
    (p : UInt64) (generations : List Generation)
    (hfiles : ∀ generation ∈ generations, generation.files.toNat < 2 ^ 40) :
    ((numberedAll row p generations).map digest).Nodup ↔
      generations.Pairwise fun generation generation' =>
        ∀ file < generation.files.toNat, ∀ ordinal < 18, ∀ file' < generation'.files.toNat, ∀ ordinal' < 18,
          spread (seedOf generation.key file ordinal ^^^ mask) ≠
            spread (seedOf generation'.key file' ordinal' ^^^ mask) := by
  induction generations generalizing p with
  | nil => simp [numberedAll]
  | cons generation generations ih =>
    rw [List.forall_mem_cons] at hfiles
    have hown := digests_nodup (p := p) hfiles.1 generation.key mask digest hmask (hdigest generation)
    have hrest : _ ↔ _ := ih (p + UInt64.ofNat (generation.files.toNat * 18)) hfiles.2
    rw [numberedAll, List.map_append, List.nodup_append', List.pairwise_cons, hrest, and_iff_right hown, and_comm]
    refine and_congr_left fun _ => ⟨fun hdisjoint generation' hgeneration' => ?_, fun hne x hx hx' => ?_⟩
    · intro file hfile ordinal hordinal file' hfile' ordinal' hordinal' heq
      refine hdisjoint ((mem_numbered_byFile fun file ordinal w => hdigest generation file ordinal w).2
        ⟨file, hfile, ordinal, hordinal, rfl⟩) ((mem_numberedAll hdigest).2 ?_)
      exact ⟨generation', hgeneration', file', hfile', ordinal', hordinal', heq.symm⟩
    · obtain ⟨file, hfile, ordinal, hordinal, rfl⟩ :=
        (mem_numbered_byFile fun file ordinal w => hdigest generation file ordinal w).1 hx
      obtain ⟨generation', hgeneration', file', hfile', ordinal', hordinal', heq⟩ := (mem_numberedAll hdigest).1 hx'
      exact hne generation' hgeneration' file hfile ordinal hordinal file' hfile' ordinal' hordinal' heq.symm

end Run

section PublishAll

variable {store store' : Store} {postings : List SymbolPostingRow} {lexemes : List SymbolLexemeRow}
  {edges : List DependencyFactRow}

/-- **A run** of publishes that is accepted adds the rows of its generations. -/
theorem publishAll_stores (h : Holds store postings lexemes edges) (generations : List Generation)
    {written : List UInt64} (hpublish : store.publishAll generations = some (store', written)) :
    Holds store' (postings ++ numberedAll postingRow store.postings.nextPk generations)
      (lexemes ++ numberedAll lexemeRow store.lexemes.nextPk generations)
      (edges ++ numberedAll edgeRow store.edges.nextPk generations) ∧
    written = generations.map fun generation => UInt64.ofNat (generation.files.toNat * 54) := by
  induction generations generalizing store postings lexemes edges written with
  | nil =>
    cases hpublish
    simpa only [numberedAll, List.append_nil] using ⟨h, rfl⟩
  | cons generation generations ih =>
    rw [Store.publishAll, Option.bind_eq_bind, Option.bind_eq_some_iff] at hpublish
    obtain ⟨⟨store₁, first⟩, hfirst, hrest⟩ := hpublish
    dsimp only at hrest
    rw [Option.bind_eq_bind, Option.bind_eq_some_iff] at hrest
    obtain ⟨⟨store₂, more⟩, hmore, heq⟩ := hrest
    cases heq
    have hone := publish_stores h hfirst
    obtain ⟨hholds, hwritten⟩ := ih hone.holds hmore
    rw [hone.nextPosting, hone.nextLexeme, hone.nextEdge] at hholds
    simp only [numberedAll, ← List.append_assoc]
    refine ⟨hholds, ?_⟩
    rw [List.map_cons, hone.written, hwritten]

/-- it is accepted exactly if all the rows are apart -/
theorem publishAll_iff (h : Holds store postings lexemes edges) (generations : List Generation) :
    (∃ r, store.publishAll generations = some r) ↔
      Apart (postings ++ numberedAll postingRow store.postings.nextPk generations)
        (lexemes ++ numberedAll lexemeRow store.lexemes.nextPk generations)
        (edges ++ numberedAll edgeRow store.edges.nextPk generations) := by
  constructor
  · rintro ⟨⟨store', written⟩, hpublish⟩
    exact (publishAll_stores h generations hpublish).1.apart
  · intro hapart
    induction generations generalizing store postings lexemes edges with
    | nil => exact ⟨_, rfl⟩
    | cons generation generations ih =>
      simp only [numberedAll, ← List.append_assoc] at hapart
      obtain ⟨⟨store₁, first⟩, hfirst⟩ := (publish_isSome generation h).2 hapart.start
      have hone := publish_stores h hfirst
      rw [← hone.nextPosting, ← hone.nextLexeme, ← hone.nextEdge] at hapart
      obtain ⟨⟨store₂, more⟩, hmore⟩ := ih hone.holds hapart
      refine ⟨(store₂, first :: more), ?_⟩
      simp only [Store.publishAll, hfirst, hmore, Option.bind_eq_bind, Option.bind_some]

end PublishAll

/-! ## What goes through, and what is found -/

section Complete

variable {generations : List Generation}

/-- the conditions on the three digest columns are one condition -/
theorem pairwise_clash :
    generations.Pairwise (fun generation generation' => ¬ Clash generation generation') ↔
      ∀ mask : UInt64, mask = 0 ∨ mask = 0x1EFE ∨ mask = 0xED6E →
        generations.Pairwise fun generation generation' =>
          ∀ file < generation.files.toNat, ∀ ordinal < 18, ∀ file' < generation'.files.toNat, ∀ ordinal' < 18,
            spread (seedOf generation.key file ordinal ^^^ mask) ≠
              spread (seedOf generation'.key file' ordinal' ^^^ mask) := by
  constructor
  · intro h mask hmask
    refine h.imp fun hclash file hfile ordinal hordinal file' hfile' ordinal' hordinal' heq => ?_
    refine hclash ⟨file, hfile, ordinal, hordinal, file', hfile', ordinal', hordinal', ?_⟩
    rcases hmask with rfl | rfl | rfl
    · rw [UInt64.xor_zero, UInt64.xor_zero] at heq
      exact Or.inl heq
    · exact Or.inr (Or.inl heq)
    · exact Or.inr (Or.inr heq)
  · intro h
    have hzero := h 0 (Or.inl rfl)
    have hlexeme := h 0x1EFE (Or.inr (Or.inl rfl))
    have hedge := h 0xED6E (Or.inr (Or.inr rfl))
    refine ((hzero.and hlexeme).and hedge).imp fun hne hclash => ?_
    obtain ⟨file, hfile, ordinal, hordinal, file', hfile', ordinal', hordinal', heq⟩ := hclash
    rcases heq with heq | heq | heq
    · refine hne.1.1 file hfile ordinal hordinal file' hfile' ordinal' hordinal' ?_
      rwa [UInt64.xor_zero, UInt64.xor_zero]
    · exact hne.1.2 file hfile ordinal hordinal file' hfile' ordinal' hordinal' heq
    · exact hne.2 file hfile ordinal hordinal file' hfile' ordinal' hordinal' heq

/-- **What goes through.** A run of publishes into a new store is accepted exactly if no two generations clash. -/
theorem publishAll_complete_iff (p l e : UInt64) (hfiles : ∀ generation ∈ generations, generation.files.toNat < 2 ^ 40)
    (hcount : rowCount generations < 2 ^ 64) :
    (∃ r, (Store.new p l e).publishAll generations = some r) ↔
      generations.Pairwise fun generation generation' => ¬ Clash generation generation' := by
  have hpostings := numberedAll_digests postingRow SymbolPostingRow.postingHash 0 (by decide)
    (fun _ _ _ _ => by rw [UInt64.xor_zero]; rfl) p generations hfiles
  have hlexemes := numberedAll_digests lexemeRow SymbolLexemeRow.lexemeKey 0x1EFE (by decide)
    (fun _ _ _ _ => rfl) l generations hfiles
  have hedges := numberedAll_digests edgeRow DependencyFactRow.edgeHash 0xED6E (by decide)
    (fun _ _ _ _ => rfl) e generations hfiles
  rw [publishAll_iff (holds_new p l e), pairwise_clash]
  simp only [List.nil_append]
  constructor
  · intro hapart mask hmask
    rcases hmask with rfl | rfl | rfl
    · exact hpostings.1 hapart.postings.2
    · exact hlexemes.1 hapart.lexemes.2
    · exact hedges.1 hapart.edges.2
  · intro h
    exact ⟨⟨numberedAll_ids_nodup postingRow (fun _ _ _ _ => rfl) p hcount, hpostings.2 (h _ (Or.inl rfl))⟩,
      ⟨numberedAll_ids_nodup lexemeRow (fun _ _ _ _ => rfl) l hcount, hlexemes.2 (h _ (Or.inr (Or.inl rfl)))⟩,
      ⟨numberedAll_ids_nodup edgeRow (fun _ _ _ _ => rfl) e hcount, hedges.2 (h _ (Or.inr (Or.inr rfl)))⟩⟩

/-- generations with files and one key clash in their first row -/
theorem clash_of_key {generation generation' : Generation} (hkey : generation.key = generation'.key)
    (h : 0 < generation.files.toNat) (h' : 0 < generation'.files.toNat) : Clash generation generation' :=
  ⟨0, h, 0, by decide, 0, h', 0, by decide, Or.inl (by rw [hkey])⟩

/-- the rows of a generation, when no other one with files has its key -/
theorem filter_numberedAll {generation : Generation} (hmem : generation ∈ generations)
    (hpos : 0 < generation.files.toNat)
    (hapart : generations.Pairwise fun generation generation' => ¬ Clash generation generation') (l : UInt64) :
    ∃ l', (numberedAll lexemeRow l generations).filter (fun r => r.snapshotKey = generation.key) =
      numbered (byFile (lexemeRow generation)) l' (generation.files.toNat * 18) := by
  have hall : ∀ (g : Generation) (p : UInt64) n r, r ∈ numbered (byFile (lexemeRow g)) p n → r.snapshotKey = g.key := by
    intro g p n r hr
    obtain ⟨i, -, rfl⟩ := List.mem_map.1 hr
    rfl
  have hnone : ∀ (generations : List Generation) (l : UInt64),
      (∀ g ∈ generations, 0 < g.files.toNat → g.key ≠ generation.key) →
        (numberedAll lexemeRow l generations).filter (fun r => r.snapshotKey = generation.key) = [] := by
    intro generations
    induction generations with
    | nil => exact fun _ _ => rfl
    | cons first generations ih =>
      intro l hne
      rw [List.forall_mem_cons] at hne
      rw [numberedAll, List.filter_append, ih _ hne.2, List.append_nil, List.filter_eq_nil_iff]
      intro r hr hkey
      obtain ⟨i, hi, -⟩ := List.mem_map.1 hr
      have hi := List.mem_range.1 hi
      exact hne.1 (by omega) ((hall _ _ _ r hr).symm.trans (of_decide_eq_true hkey))
  induction generations generalizing l with
  | nil => cases hmem
  | cons first generations ih =>
    rw [List.pairwise_cons] at hapart
    rw [numberedAll, List.filter_append]
    rcases List.mem_cons.1 hmem with rfl | hlater
    · refine ⟨l, ?_⟩
      rw [hnone generations _ fun g hg hposg hkey => hapart.1 g hg (clash_of_key hkey.symm hpos hposg), List.append_nil,
        List.filter_eq_self.2 fun r hr => decide_eq_true (hall _ _ _ r hr)]
    · obtain ⟨l', hl'⟩ := ih hlater hapart.2 (l + UInt64.ofNat (first.files.toNat * 18))
      refine ⟨l', ?_⟩
      rw [hl', List.filter_eq_nil_iff.2, List.nil_append]
      intro r hr hkey
      obtain ⟨i, hi, -⟩ := List.mem_map.1 hr
      have hi := List.mem_range.1 hi
      exact hapart.1 generation hlater
        (clash_of_key ((hall _ _ _ r hr).symm.trans (of_decide_eq_true hkey)) (by omega) hpos)

/-- the rows of all generations that hold one node's key, `shift` after their own file -/
theorem countP_numberedAll {ρ : Type} {row : Generation → ℕ → ℕ → UInt64 → ρ} (f shift : ℕ) {q : ρ → Bool}
    {holds : Generation → Bool} (p : UInt64)
    (hq : ∀ generation ∈ generations, ∀ file < generation.files.toNat, ∀ ordinal w,
      q (row generation file ordinal w) = true ↔ file + shift = f)
    (hholds : ∀ generation ∈ generations,
      holds generation = true ↔ shift ≤ f ∧ f < generation.files.toNat + shift) :
    (numberedAll row p generations).countP q = 18 * generations.countP holds := by
  induction generations generalizing p with
  | nil => rfl
  | cons first generations ih =>
    rw [List.forall_mem_cons] at hq hholds
    rw [numberedAll, List.countP_append, ih _ hq.2 hholds.2, List.countP_cons]
    by_cases hf : shift ≤ f ∧ f < first.files.toNat + shift
    · have hfile : ∀ file < first.files.toNat, ∀ ordinal w, q (row first file ordinal w) = true ↔ file = f - shift :=
        fun file hfile ordinal w => (hq.1 file hfile ordinal w).trans (by omega)
      rw [if_pos (hholds.1.2 hf), List.countP_eq_length_filter, select_length (List.Perm.refl _) (by omega) hfile]
      omega
    · rw [if_neg fun h => hf (hholds.1.1 h), List.countP_eq_zero.2]
      · omega
      · intro r hr hr'
        obtain ⟨i, hi, rfl⟩ := List.mem_map.1 hr
        have hi := List.mem_range.1 hi
        have := (hq.1 (i / 18) (by omega) _ _).1 hr'
        omega

/-- a walk finds the edges that leave and enter the node, in all generations that have them -/
theorem walk_numberedAll {store : Store} {e node : UInt64}
    (hfiles : ∀ generation ∈ generations, generation.files.toNat < 2 ^ 40)
    (hedges : store.edges.rows.Perm (numberedAll edgeRow e generations)) (hnode : node.toNat ≤ 2 ^ 40) :
    store.dependencyWalk (spread (0x4E0D ^^^ node)) =
      18 * generations.countP (fun generation => node < generation.files) +
        18 * generations.countP (fun generation => 1 ≤ node ∧ node ≤ generation.files) := by
  rw [Store.dependencyWalk, Store.selectBySourceKey, Store.selectByTargetKey, ← List.countP_eq_length_filter,
    ← List.countP_eq_length_filter, hedges.countP_eq, hedges.countP_eq]
  congr 1
  · refine countP_numberedAll node.toNat 0 e (fun generation hgeneration file hfile ordinal w => ?_)
      fun generation _ => ?_
    · have hlt := hfiles generation hgeneration
      have hword : (UInt64.ofNat file).toNat = file := ofNat_toNat_of_lt (by omega)
      rw [decide_eq_true_iff]
      exact (node_inj (by omega) hnode).trans (by omega)
    · rw [decide_eq_true_iff, UInt64.lt_iff_toNat_lt]
      omega
  · refine countP_numberedAll node.toNat 1 e (fun generation hgeneration file hfile ordinal w => ?_)
      fun generation _ => ?_
    · have hlt := hfiles generation hgeneration
      have hword : (UInt64.ofNat file).toNat = file := ofNat_toNat_of_lt (by omega)
      have hnext : (UInt64.ofNat file + 1).toNat = file + 1 := by
        rw [toNat_add_of_lt (by rw [hword, UInt64.toNat_one]; omega), hword, UInt64.toNat_one]
      rw [decide_eq_true_iff]
      exact (node_inj (by omega) hnode).trans (by omega)
    · rw [decide_eq_true_iff, UInt64.le_iff_toNat_le, UInt64.le_iff_toNat_le, UInt64.toNat_one]
      omega

/-- what a run leaves in a new store -/
theorem publishAll_new {store : Store} {p l e : UInt64} {written : List UInt64}
    (h : (Store.new p l e).publishAll generations = some (store, written)) :
    Holds store (numberedAll postingRow p generations) (numberedAll lexemeRow l generations)
      (numberedAll edgeRow e generations) ∧
    written = generations.map fun generation => UInt64.ofNat (generation.files.toNat * 54) := by
  have hstores := publishAll_stores (holds_new p l e) generations h
  simp only [List.nil_append] at hstores
  exact hstores

/-- a generation with files whose key is in the store is refused -/
theorem publish_again {store : Store} {postings : List SymbolPostingRow} {lexemes : List SymbolLexemeRow}
    {edges : List DependencyFactRow} {p : UInt64} {generation generation' : Generation}
    (h : Holds store postings lexemes edges) (hpostings : postings = numberedAll postingRow p generations)
    (hmem : generation ∈ generations) (hpos : 0 < generation.files.toNat) (hkey : generation'.key = generation.key)
    (hpos' : 0 < generation'.files.toNat) : store.publish generation' = none := by
  cases hpublish : store.publish generation' with
  | none => rfl
  | some result =>
    have hnodup := (publish_stores h hpublish).holds.postings.values_nodup
    have hdigest : ∀ generation file ordinal w, (postingRow generation file ordinal w).postingHash =
        spread (seedOf generation.key file ordinal ^^^ 0) := fun _ _ _ _ => by rw [UInt64.xor_zero]; rfl
    rw [List.map_append, List.nodup_append', hpostings] at hnodup
    refine (hnodup.2.2 ((mem_numberedAll hdigest).2 ⟨generation, hmem, 0, hpos, 0, by decide, rfl⟩) ?_).elim
    exact (mem_numbered_byFile (hdigest generation')).2 ⟨0, hpos', 0, by decide, by rw [hkey]⟩

end Complete

/-- **Generations side by side.** A run of publishes into a new store goes through exactly if no two of its generations
clash. Then each of them has written the rows of its generation, and the scan of a generation finds these rows and no
others; a walk adds up the edges of all generations that have the node; and no generation with files can be published a
second time. -/
theorem generations_side_by_side (generations : List Generation) (p l e : UInt64)
    (hfiles : ∀ generation ∈ generations, generation.files.toNat < 2 ^ 40) (hcount : rowCount generations < 2 ^ 64) :
    ((∃ r, (Store.new p l e).publishAll generations = some r) ↔
      generations.Pairwise fun generation generation' => ¬ Clash generation generation') ∧
    ∀ store written, (Store.new p l e).publishAll generations = some (store, written) →
      written.map some = generations.map (fun generation => rowsPerGeneration generation.files) ∧
      (∀ generation ∈ generations, 0 < generation.files → ∃ first,
        (store.selectBySnapshotKey generation.key).Perm
          (numbered (byFile (lexemeRow generation)) first (generation.files.toNat * 18)) ∧
        store.generationScan generation = generation.files.toNat * 18) ∧
      (∀ node : UInt64, node.toNat ≤ 2 ^ 40 → store.dependencyWalk (spread (0x4E0D ^^^ node)) =
        18 * generations.countP (fun generation => node < generation.files) +
          18 * generations.countP (fun generation => 1 ≤ node ∧ node ≤ generation.files)) ∧
      ∀ generation ∈ generations, 0 < generation.files → ∀ generation' : Generation,
        generation'.key = generation.key → 0 < generation'.files → store.publish generation' = none := by
  have haccepted := publishAll_complete_iff p l e hfiles hcount
  refine ⟨haccepted, fun store written h => ?_⟩
  obtain ⟨hholds, hwritten⟩ := publishAll_new h
  have hapart := haccepted.1 ⟨_, h⟩
  refine ⟨?_, fun generation hmem hpos => ?_, fun node hnode => ?_,
    fun generation hmem hpos generation' hkey hpos' => ?_⟩
  · rw [hwritten, List.map_map]
    refine List.map_congr_left fun generation hgeneration => ?_
    obtain ⟨rows, hrows, hvalue⟩ := rowsPerGeneration_some (hfiles generation hgeneration)
    rw [Function.comp_apply, hrows, ← hvalue, UInt64.ofNat_toNat]
  · obtain ⟨first, hfirst⟩ := filter_numberedAll hmem (UInt64.lt_iff_toNat_lt.1 hpos) hapart l
    have hperm : (store.selectBySnapshotKey generation.key).Perm
        (numbered (byFile (lexemeRow generation)) first (generation.files.toNat * 18)) := by
      rw [← hfirst]
      exact hholds.lexemes.rows_perm.filter _
    exact ⟨first, hperm, hperm.length_eq.trans (numbered_length _ _ _)⟩
  · exact walk_numberedAll hfiles hholds.edges.rows_perm hnode
  · exact publish_again hholds rfl hmem (UInt64.lt_iff_toNat_lt.1 hpos) hkey (UInt64.lt_iff_toNat_lt.1 hpos')

/-- one update of a repository with one file: the walk from its only file finds the edges of both generations -/
theorem generations_side_by_side_update : ∃ store written,
    (Store.new 0 0 0).publishAll (incremental 1 1) = some (store, written) ∧ written = [54, 54] ∧
    store.generationScan (Generation.new 1 1) = 18 ∧ store.dependencyWalk (Generation.new 1 1).probeNode = 36 ∧
    store.publish (Generation.new 1 5) = none := by
  obtain ⟨haccepted, hrun⟩ := generations_side_by_side (incremental 1 1) 0 0 0 (by decide) (by decide)
  obtain ⟨⟨store, written⟩, h⟩ := haccepted.2 (by
    refine List.pairwise_pair.2 ?_
    decide +kernel)
  obtain ⟨hwritten, hscan, hwalk, hagain⟩ := hrun store written h
  have hmem : Generation.new 1 1 ∈ incremental 1 1 := List.mem_cons_of_mem _ List.mem_cons_self
  obtain ⟨-, -, hscan⟩ := hscan _ hmem (by decide)
  refine ⟨store, written, h, ?_, hscan, hwalk 0 (by decide), hagain _ hmem (by decide) _ rfl (by decide)⟩
  exact List.map_injective_iff.2 (Option.some_injective _) (hwritten.trans (by decide))

end WtBenchmarks.Codegraph
