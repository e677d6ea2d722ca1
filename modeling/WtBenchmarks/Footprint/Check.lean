/-
What the checks of the storage footprint programs notice of a wrong payload (`campaigns/footprint/src`).

WorkTable and SQLite compare the payload of row 1 with the updated one. redb compares a checksum of the encoded row, and
a payload enters it with its length only: the bytes are never looked at.

- `fails_bind_verify`: a run that starts with a check fails at the check or after it.
- `verifyState_notices_iff`: exactly when redb's check fails on a row with another payload; the two others always do.
- `lostUpdate`: the row as it was loaded passes redb's check.
-/
import WtBenchmarks.Footprint.Agreement

namespace WtBenchmarks.Footprint

/-! ## Runs that fail -/

section Fails

variable {α : Type}

def Fails (run : Run α) : Prop := ∃ fault, run = .error fault

theorem fails_error (fault : Fault) : Fails (.error fault : Run α) := ⟨fault, rfl⟩

theorem not_fails_ok (a : α) : ¬ Fails (.ok a : Run α) := by
  rintro ⟨fault, h⟩
  cases h

theorem fails_verify {ok : Prop} [Decidable ok] (message : String) : Fails (verify ok message) ↔ ¬ ok := by
  by_cases h : ok
  · rw [verify_ok h]
    exact ⟨fun hfails => absurd hfails (not_fails_ok ()), fun hno => absurd h hno⟩
  · rw [verify, if_neg h]
    exact ⟨fun _ => h, fun _ => fails_error _⟩

/-- **A check first.** The run fails at the check, or after it. -/
theorem fails_bind_verify {ok : Prop} [Decidable ok] (message : String) (next : Unit → Run α) :
    Fails (verify ok message >>= next) ↔ ¬ ok ∨ Fails (next ()) := by
  by_cases h : ok
  · rw [verify_ok h, ok_bind]
    exact ⟨Or.inr, fun hor => hor.resolve_left (not_not_intro h)⟩
  · rw [verify, if_neg h, error_bind]
    exact ⟨fun _ => Or.inl h, fun _ => fails_error _⟩

end Fails

/-! ## The payloads of row 1 -/

variable {config : StorageConfig}

/-- the updated payload of row 1 -/
abbrev updatedPayload (config : StorageConfig) : List UInt8 := payload 1000001 config.payloadBytes

/-- a row that is not empty does not keep its payload -/
theorem loadedPayload_ne (hbytes : 0 < config.payloadBytes) : payload 1 config.payloadBytes ≠ updatedPayload config :=
  fun h => payload_ne (show 1 < 2 ^ 63 by decide) hbytes h.symm

/-! ## WorkTable and SQLite -/

section

variable (hrows : 1 < config.rows) (expected : UInt64) {p : List UInt8} (hp : p ≠ updatedPayload config)

include hrows hp

theorem Worktable.verifyReloaded_fails {table : Worktable.Table} {row : Worktable.Row}
    (hget : table.rows[(1 : UInt64)]? = some row) (hrow : row.payload = p) :
    Fails (Worktable.verifyReloaded table config expected) := by
  have hwrong : ¬ row.payload = updatedPayload config := fun h => hp (hrow.symm.trans h)
  unfold Worktable.verifyReloaded
  rw [fails_bind_verify, fails_bind_verify, if_pos hrows]
  simp only [hget]
  rw [fails_bind_verify]
  exact Or.inr (Or.inr (Or.inl hwrong))

theorem Sqlite.verifyState_fails {table : Sqlite.Table} {row : Sqlite.Row}
    (hget : table.rows[(1 : Int64)]? = some row) (hrow : row.payload = p) :
    Fails (Sqlite.verifyState table config expected) := by
  have hwrong : ¬ row.payload = updatedPayload config := fun h => hp (hrow.symm.trans h)
  unfold Sqlite.verifyState
  dsimp only
  rw [fails_bind_verify, fails_bind_verify, if_pos hrows]
  refine Or.inr (Or.inr ?_)
  by_cases haccount : row.accountId = 1
  · have hfound : (table.rows[(1 : Int64)]?.filter fun row => row.accountId = 1) = some row := by
      rw [hget, Option.filter_some, if_pos (decide_eq_true haccount)]
    simp only [hfound]
    rw [fails_verify]
    exact hwrong
  · have hmissed : (table.rows[(1 : Int64)]?.filter fun row => row.accountId = 1) = none := by
      rw [hget, Option.filter_some, if_neg (by rw [decide_eq_true_iff]; exact haccount)]
    simp only [hmissed]
    exact fails_error _

end

/-! ## redb -/

/-- a check of redb that does not look at row 1 fails -/
def Redb.Broken (table : Redb.Table) (expected : UInt64) : Prop :=
  UInt64.ofNat table.rows.size ≠ expected ∨ 0 ∈ table.rows ∨ ((1 : UInt64), (1 : UInt64)) ∉ table.index

/-- the checksum tells rows of one header apart by their lengths only -/
theorem Header.digest_inj (header : Header) {m n : ℕ} :
    header.digest m = header.digest n ↔ UInt64.ofNat m = UInt64.ofNat n := UInt64.xor_right_inj _

theorem Redb.verifyState_fails_iff (hrows : 1 < config.rows) (expected : UInt64) {p : List UInt8} {table : Redb.Table}
    {header : Header} (hget : table.rows[(1 : UInt64)]? = some (header.row p)) :
    Fails (Redb.verifyState table config expected) ↔
      Redb.Broken table expected ∨ header.digest p.length ≠ (Header.ofId 1).digest config.payloadBytes := by
  have hexpected := encodedChecksum_encoded 1 1000001 config.payloadBytes
  unfold Redb.verifyState
  dsimp only
  rw [fails_bind_verify, fails_bind_verify, if_pos hrows]
  simp only [hget, header.encodedChecksum_row p, hexpected, orPanic]
  rw [ok_bind, fails_bind_verify, fails_verify, not_not, Redb.Broken]
  tauto

/-- **A wrong payload.** WorkTable and SQLite always notice one in row 1. redb notices one by its length only, unless
another of its checks fails; in particular it does not notice the row as it was loaded. -/
theorem verifyState_notices_iff (config : StorageConfig) (hrows : 1 < config.rows) (expected : UInt64) :
    (∀ p, p ≠ updatedPayload config →
      (∀ table : Redb.Table, table.rows[(1 : UInt64)]? = some ((Header.ofId 1).row p) →
        (Fails (Redb.verifyState table config expected) ↔
          Redb.Broken table expected ∨ UInt64.ofNat p.length ≠ UInt64.ofNat config.payloadBytes)) ∧
      (∀ (table : Redb.Table) (header : Header), table.rows[(1 : UInt64)]? = some (header.row p) →
        (Fails (Redb.verifyState table config expected) ↔
          Redb.Broken table expected ∨ header.digest p.length ≠ (Header.ofId 1).digest config.payloadBytes)) ∧
      (∀ (table : Worktable.Table) (row : Worktable.Row), table.rows[(1 : UInt64)]? = some row → row.payload = p →
        Fails (Worktable.verifyReloaded table config expected)) ∧
      (∀ (table : Sqlite.Table) (row : Sqlite.Row), table.rows[(1 : Int64)]? = some row → row.payload = p →
        Fails (Sqlite.verifyState table config expected))) ∧
    (0 < config.payloadBytes → payload 1 config.payloadBytes ≠ updatedPayload config ∧
      ∀ table : Redb.Table, table.rows[(1 : UInt64)]? = some (encodedRow 1 config.payloadBytes) →
        (Fails (Redb.verifyState table config expected) ↔ Redb.Broken table expected)) := by
  refine ⟨fun p hp => ⟨fun table hget => ?_, fun table header hget => ?_, fun table row hget hrow => ?_,
    fun table row hget hrow => ?_⟩, fun hbytes => ⟨loadedPayload_ne hbytes, fun table hget => ?_⟩⟩
  · rw [Redb.verifyState_fails_iff hrows expected hget, Ne, Header.digest_inj]
  · exact Redb.verifyState_fails_iff hrows expected hget
  · exact Worktable.verifyReloaded_fails hrows expected hp hget hrow
  · exact Sqlite.verifyState_fails hrows expected hp hget hrow
  · have hlength : (payload 1 config.payloadBytes).length = config.payloadBytes := List.length_replicate
    rw [Redb.verifyState_fails_iff hrows expected (hget.trans (congrArg some (encoded_eq_row 1 1 _))), hlength]
    exact or_iff_left (not_not_intro rfl)

/-- two rows with one byte of payload -/
def twoRows : StorageConfig := ⟨2, 1, 1⟩

/-- what is left of them, with a payload for row 1 -/
def rowOne (p : List UInt8) : Redb.Table :=
  ⟨(∅ : Std.ExtTreeMap UInt64 (List UInt8)).insert 1 ((Header.ofId 1).row p), {(1, 1)}⟩

theorem rowOne_get (p : List UInt8) : (rowOne p).rows[(1 : UInt64)]? = some ((Header.ofId 1).row p) :=
  Std.ExtTreeMap.getElem?_insert_self

theorem rowOne_not_broken (p : List UInt8) : ¬ Redb.Broken (rowOne p) (liveRowsAfterChurn twoRows.rows) := by
  have hone : (rowOne p).rows.size = 1 := by rw [rowOne, Std.ExtTreeMap.size_insert]; rfl
  rintro (hsize | hzero | hindex)
  · rw [hone] at hsize
    exact hsize rfl
  · rw [rowOne, Std.ExtTreeMap.mem_insert] at hzero
    rcases hzero with heq | hempty
    · exact absurd heq (by decide)
    · exact Std.ExtTreeMap.not_mem_empty hempty
  · exact hindex (Finset.mem_singleton_self _)

/-- a payload of two bytes is noticed -/
theorem verifyState_notices_iff_longer :
    Fails (Redb.verifyState (rowOne [98, 98]) twoRows (liveRowsAfterChurn twoRows.rows)) :=
  (((verifyState_notices_iff twoRows (by decide) _).1 [98, 98] (by decide)).1 _ (rowOne_get _)).2 (Or.inr (by decide))

/-- **A lost update.** The row as it was loaded passes the check of redb. -/
theorem lostUpdate : twoRows.validate = .ok () ∧ 1 < twoRows.rows ∧ 0 < twoRows.payloadBytes ∧
    (rowOne (payload 1 1)).rows[(1 : UInt64)]? = some (encodedRow 1 twoRows.payloadBytes) ∧
    payload 1 1 ≠ updatedPayload twoRows ∧
    ¬ Fails (Redb.verifyState (rowOne (payload 1 1)) twoRows (liveRowsAfterChurn twoRows.rows)) := by
  refine ⟨rfl, by decide, by decide, rowOne_get _, by decide, fun hfails => ?_⟩
  rcases (Redb.verifyState_fails_iff (by decide) _ (rowOne_get _)).1 hfails with hbroken | hdigest
  · exact rowOne_not_broken _ hbroken
  · exact hdigest rfl

end WtBenchmarks.Footprint
