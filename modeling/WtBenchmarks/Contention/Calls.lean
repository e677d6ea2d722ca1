/-
The calls of `DynTable` (`campaigns/contention/src/dynamic.rs`) made one after the other.

`insert`, `select` and `updateField` are the methods as functions of the table. A client that is alone with a table
whose row mutexes are free does in its steps what these functions say (`call_alone`).

The primary index is written by `insert` alone, while `update_field` writes any column of a row, the id among them.

- `head_of_decode`: the first value of a row, also where the rest does not decode as it was encoded.
- `id_column_eq`: the id column of the row under a key.
-/
import WtBenchmarks.Contention.DynTable
import WtBenchmarks.Core.Total
import WtBenchmarks.Core.TreeMap
import Mathlib.Logic.Relation

namespace WtBenchmarks.Contention

/-! ## Methods -/

namespace DynTable

def insert (table : DynTable) (row : List Value) : Option (DynTable × UInt64) :=
  match row with
  | .u64 pk :: _ =>
    let idx := table.slots.length
    some ({ table with slots := table.slots ++ [encode row], pkIndex := table.pkIndex.insert pk idx }, pk)
  | _ => none

def select (table : DynTable) (pk : UInt64) : Option (Option (List Value)) :=
  match table.pkIndex[pk]? with
  | none => some none
  | some idx => (table.slots[idx]?.bind decode).map some

/-- `locks.entry(pk).or_insert_with(..)` -/
def lockEntry (table : DynTable) (pk : UInt64) : DynTable :=
  match table.locks[pk]? with
  | some _ => table
  | none =>
    { table with locks := table.locks.insert pk table.mutexes.length, mutexes := table.mutexes ++ [false] }

def updateField (table : DynTable) (pk : UInt64) (col : String) (v : Value) : Option (DynTable × Option Unit) :=
  let table := table.lockEntry pk
  match table.pkIndex[pk]?, catalogGet col with
  | some idx, some pos => (writeSlot table idx pos v).map fun table => (table, some ())
  | _, _ => some (table, none)

def call (table : DynTable) : Call → Option (DynTable × Ret)
  | .insert row => (table.insert row).map fun r => (r.1, .insert r.2)
  | .select pk => (table.select pk).map fun row => (table, .select row)
  | .updateField pk col v => (table.updateField pk col v).map fun r => (r.1, .updateField r.2)

end DynTable

/-- a sequence of calls on a new table -/
def runCalls (calls : List Call) : Option DynTable :=
  calls.foldlM (fun table call => (table.call call).map Prod.fst) DynTable.new

/-! ## A client alone -/

section Alone

variable {T : Type} {t : T} {g : Shared T} {c : Client} {call : Call}

/-- a client moves, and nobody else does -/
def Goes (t : T) : Shared T × Client → Shared T × Client → Prop :=
  Relation.ReflTransGen fun a b => step t a.1 a.2 = some b

/-- every row mutex the lock table knows is there and free -/
def Free (table : DynTable) : Prop :=
  ∀ (pk : UInt64) (mutex : ℕ), table.locks[pk]? = some mutex → table.mutexes[mutex]? = some false

theorem Free.new : Free DynTable.new := by
  intro pk mutex h
  simp [DynTable.new] at h

theorem Free.lockEntry {table : DynTable} (h : Free table) (pk : UInt64) :
    Free (table.lockEntry pk) ∧ ∃ mutex, (table.lockEntry pk).locks[pk]? = some mutex := by
  unfold DynTable.lockEntry
  cases hlock : table.locks[pk]? with
  | some mutex => exact ⟨h, mutex, hlock⟩
  | none =>
    refine ⟨fun pk' mutex hget => ?_, table.mutexes.length, ?_⟩
    · dsimp only at hget ⊢
      rw [TreeMap.get_insert] at hget
      split_ifs at hget
      · cases hget
        exact List.getElem?_concat_length
      · have hold := h pk' mutex hget
        rw [List.getElem?_append_left (List.getElem?_eq_some_iff.1 hold).1]
        exact hold
    · dsimp only
      rw [TreeMap.get_insert, if_pos rfl]

theorem Goes.step {a : Shared T × Client} {g' : Shared T} {c' : Client} (h : step t g c = some (g', c'))
    (hrest : Goes t (g', c') a) : Goes t (g, c) a := Relation.ReflTransGen.head h hrest

/-- the turn of the client ends -/
theorem goes_respond {calls : List Call} {turn : ℕ} {ret : Ret} :
    Goes t (g, ⟨calls, turn, .respond ret⟩) (g.record (.respond (t, turn) ret), ⟨calls, turn + 1, .idle⟩) :=
  Goes.step rfl Relation.ReflTransGen.refl

/-- the table while a client holds a row mutex -/
def held (table : DynTable) (mutex : ℕ) : DynTable := { table with mutexes := table.mutexes.set mutex true }

theorem release_held {table : DynTable} {mutex : ℕ} (h : table.mutexes[mutex]? = some false) :
    { held table mutex with mutexes := (held table mutex).mutexes.set mutex false } = table := by
  obtain ⟨hlt, hval⟩ := List.getElem?_eq_some_iff.1 h
  have hsame : table.mutexes.set mutex table.mutexes[mutex] = table.mutexes := List.set_getElem_self hlt
  rw [hval] at hsame
  simp only [held, List.set_set, hsame]

theorem writeSlot_held (table : DynTable) (mutex idx pos : ℕ) (v : Value) :
    writeSlot (held table mutex) idx pos v = (writeSlot table idx pos v).map fun table => held table mutex := by
  unfold writeSlot held
  dsimp only
  cases table.slots[idx]? with
  | none => rfl
  | some bytes =>
    simp only [Option.bind_eq_bind, Option.bind_some]
    cases decode bytes with
    | none => rfl
    | some row =>
      simp only [Option.bind_some]
      split_ifs
      · rfl
      · rfl

theorem writeSlot_some {table table' : DynTable} {idx pos : ℕ} {v : Value}
    (h : writeSlot table idx pos v = some table') :
    ∃ bytes row, table.slots[idx]? = some bytes ∧ decode bytes = some row ∧ pos < row.length ∧
      table' = { table with slots := table.slots.set idx (encode (row.set pos v)) } := by
  obtain ⟨bytes, hbytes, h⟩ := Option.bind_eq_some_iff.1 h
  obtain ⟨row, hrow, h⟩ := Option.bind_eq_some_iff.1 h
  split_ifs at h with hpos
  cases h
  exact ⟨bytes, row, hbytes, hrow, hpos, rfl⟩

/-- the client releases the row and its turn ends -/
theorem goes_unlock {table : DynTable} {history : List (Linearizability.Event (T × ℕ) Op Ret)} {calls : List Call}
    {turn mutex : ℕ} {done : Option Unit} (hmutex : table.mutexes[mutex]? = some false) :
    Goes t (⟨held table mutex, history⟩, ⟨calls, turn, .unlock mutex done⟩)
      ((⟨table, history⟩ : Shared T).record (.respond (t, turn) (.updateField done)), ⟨calls, turn + 1, .idle⟩) := by
  have hunlock : step t (⟨held table mutex, history⟩ : Shared T) ⟨calls, turn, .unlock mutex done⟩ =
      some (⟨table, history⟩, ⟨calls, turn, .respond (.updateField done)⟩) := by
    simp only [step, release_held hmutex]
  exact Goes.step hunlock goes_respond

/-- the client takes the row mutex -/
theorem goes_find (t : T) {table : DynTable} (history : List (Linearizability.Event (T × ℕ) Op Ret))
    (calls : List Call) (turn : ℕ) (pk : UInt64) (col : String) (v : Value) (hfree : Free table) :
    ∃ mutex, (table.lockEntry pk).mutexes[mutex]? = some false ∧
      ∀ a, Goes t (⟨held (table.lockEntry pk) mutex, history⟩, ⟨calls, turn, .find pk col v mutex⟩) a →
        Goes t (⟨table, history⟩, ⟨calls, turn, .lockTable pk col v⟩) a := by
  obtain ⟨hfree', mutex, hget⟩ := hfree.lockEntry pk
  have hmutex := hfree' pk mutex hget
  have hlock : step t ⟨table, history⟩ ⟨calls, turn, .lockTable pk col v⟩ =
      some (⟨table.lockEntry pk, history⟩, ⟨calls, turn, .lockRow pk col v mutex⟩) := by
    unfold DynTable.lockEntry at hget ⊢
    simp only [step]
    cases hold : table.locks[pk]? with
    | some old =>
      rw [hold] at hget
      dsimp only at hget
      rw [hold] at hget
      cases hget
      rfl
    | none =>
      rw [hold] at hget
      dsimp only at hget
      rw [TreeMap.get_insert, if_pos rfl] at hget
      cases hget
      rfl
  have hrow : step t (⟨table.lockEntry pk, history⟩ : Shared T) ⟨calls, turn, .lockRow pk col v mutex⟩ =
      some (⟨held (table.lockEntry pk) mutex, history⟩, ⟨calls, turn, .find pk col v mutex⟩) := if_pos hmutex
  exact ⟨mutex, hmutex, fun a hgoes => Goes.step hlock (Goes.step hrow hgoes)⟩

/-- a row or a column that is not there -/
theorem step_find_none {table : DynTable} {history : List (Linearizability.Event (T × ℕ) Op Ret)} {calls : List Call}
    {turn mutex : ℕ} {pk : UInt64} {col : String} {v : Value}
    (h : table.pkIndex[pk]? = none ∨ catalogGet col = none) :
    step t (⟨held table mutex, history⟩ : Shared T) ⟨calls, turn, .find pk col v mutex⟩ =
      some (⟨held table mutex, history⟩, ⟨calls, turn, .unlock mutex none⟩) := by
  have hindex : (held table mutex).pkIndex = table.pkIndex := rfl
  simp only [step, hindex]
  split
  · rename_i hidx hcol
    rcases h with h | h
    · rw [h] at hidx
      cases hidx
    · rw [h] at hcol
      cases hcol
  · rfl

theorem step_find_some {table : DynTable} {history : List (Linearizability.Event (T × ℕ) Op Ret)} {calls : List Call}
    {turn mutex idx pos : ℕ} {pk : UInt64} {col : String} {v : Value} (hidx : table.pkIndex[pk]? = some idx)
    (hcol : catalogGet col = some pos) :
    step t (⟨held table mutex, history⟩ : Shared T) ⟨calls, turn, .find pk col v mutex⟩ =
      some (⟨held table mutex, history⟩, ⟨calls, turn, .write idx pos v mutex⟩) := by
  have hidx' : (held table mutex).pkIndex[pk]? = some idx := hidx
  simp only [step, hidx', hcol]

/-- how a client ends its turn: with the table left free, or in a panic -/
def Ends (t : T) (start : Shared T × Client) (calls : List Call) (turn : ℕ) : Option DynTable → Prop
  | some table => Free table ∧ ∃ history, Goes t start (⟨table, history⟩, ⟨calls, turn + 1, .idle⟩)
  | none => ∃ g, Goes t start (g, ⟨calls, turn, .panicked⟩)

theorem Ends.step {calls : List Call} {turn : ℕ} {g' : Shared T} {c' : Client} {result : Option DynTable}
    (h : step t g c = some (g', c')) (hrest : Ends t (g', c') calls turn result) :
    Ends t (g, c) calls turn result := by
  cases result with
  | none =>
    obtain ⟨g'', hgoes⟩ := hrest
    exact ⟨g'', hgoes.step h⟩
  | some table =>
    obtain ⟨hfree, history, hgoes⟩ := hrest
    exact ⟨hfree, history, hgoes.step h⟩

theorem updateField_alone {table : DynTable} {history : List (Linearizability.Event (T × ℕ) Op Ret)}
    {calls : List Call} {turn : ℕ} {pk : UInt64} {col : String} {v : Value} (hfree : Free table) :
    Ends t (⟨table, history⟩, ⟨calls, turn, .lockTable pk col v⟩) calls turn
      ((table.updateField pk col v).map Prod.fst) := by
  obtain ⟨mutex, hmutex, hgoes⟩ := goes_find t history calls turn pk col v hfree
  have hfree' := (hfree.lockEntry pk).1
  unfold DynTable.updateField
  dsimp only
  cases hidx : (table.lockEntry pk).pkIndex[pk]? with
  | none => exact ⟨hfree', _, hgoes _ (Goes.step (step_find_none (Or.inl hidx)) (goes_unlock hmutex))⟩
  | some idx =>
    cases hcol : catalogGet col with
    | none => exact ⟨hfree', _, hgoes _ (Goes.step (step_find_none (Or.inr hcol)) (goes_unlock hmutex))⟩
    | some pos =>
      have hfind : step t (⟨held (table.lockEntry pk) mutex, history⟩ : Shared T) ⟨calls, turn, .find pk col v mutex⟩ =
          some (⟨held (table.lockEntry pk) mutex, history⟩, ⟨calls, turn, .write idx pos v mutex⟩) :=
        step_find_some hidx hcol
      cases hwrite : writeSlot (table.lockEntry pk) idx pos v with
      | none =>
        have hpanic : step t (⟨held (table.lockEntry pk) mutex, history⟩ : Shared T)
            ⟨calls, turn, .write idx pos v mutex⟩ =
              some (⟨held (table.lockEntry pk) mutex, history⟩, ⟨calls, turn, .unwind mutex⟩) := by
          simp only [step, writeSlot_held, hwrite, Option.map_none]
        simp only [hwrite, Option.map_none]
        exact ⟨_, hgoes _ (Goes.step hfind (Goes.step hpanic (Goes.step rfl Relation.ReflTransGen.refl)))⟩
      | some table' =>
        obtain ⟨bytes, row, -, -, -, rfl⟩ := writeSlot_some hwrite
        have hwritten : step t (⟨held (table.lockEntry pk) mutex, history⟩ : Shared T)
            ⟨calls, turn, .write idx pos v mutex⟩ =
              some (⟨held { table.lockEntry pk with
                slots := (table.lockEntry pk).slots.set idx (encode (row.set pos v)) } mutex, history⟩,
                ⟨calls, turn, .unlock mutex (some ())⟩) := by
          simp only [step, writeSlot_held, hwrite, Option.map_some]
        simp only [hwrite, Option.map_some]
        exact ⟨hfree', _, hgoes _ (Goes.step hfind (Goes.step hwritten (goes_unlock hmutex)))⟩

/-- **A call made alone.** A client that is alone with a table does in its steps what the method says: it ends its turn
with the table of the method, or it panics where the method does. -/
theorem call_alone (hfree : Free g.table) (hidle : c.pc = .idle) (hcall : c.calls[c.turn]? = some call) :
    Ends t (g, c) c.calls c.turn ((g.table.call call).map Prod.fst) := by
  obtain ⟨calls, turn, pc⟩ := c
  dsimp only at hidle hcall ⊢
  subst hidle
  have hinvoke : step t g ⟨calls, turn, .idle⟩ = some (invoke t g ⟨calls, turn, .idle⟩ call) := by
    simp only [step, hcall, Option.map_some]
  refine Ends.step hinvoke ?_
  cases call with
  | insert row =>
    rcases row with _ | ⟨v, values⟩
    · exact ⟨g, Relation.ReflTransGen.refl⟩
    · cases v with
      | u64 pk => exact ⟨hfree, _, Goes.step rfl (Goes.step rfl goes_respond)⟩
      | f64 x => exact ⟨g, Relation.ReflTransGen.refl⟩
      | str x => exact ⟨g, Relation.ReflTransGen.refl⟩
  | select pk =>
    let g' := g.record (.invoke (t, turn) (.select pk))
    show Ends t (g', ⟨calls, turn, .lookup pk⟩) calls turn ((g.table.call (.select pk)).map Prod.fst)
    cases hidx : g.table.pkIndex[pk]? with
    | none =>
      have hresult : (g.table.call (.select pk)).map Prod.fst = some g.table := by
        simp [DynTable.call, DynTable.select, hidx]
      have hlookup : step t g' ⟨calls, turn, .lookup pk⟩ = some (g', ⟨calls, turn, .respond (.select none)⟩) := by
        simp only [step, g', Shared.record, hidx]
      rw [hresult]
      exact ⟨hfree, _, Goes.step hlookup goes_respond⟩
    | some idx =>
      have hlookup : step t g' ⟨calls, turn, .lookup pk⟩ = some (g', ⟨calls, turn, .read idx⟩) := by
        simp only [step, g', Shared.record, hidx]
      refine Ends.step hlookup ?_
      cases hvalues : g.table.slots[idx]?.bind decode with
      | none =>
        have hresult : (g.table.call (.select pk)).map Prod.fst = none := by
          simp only [DynTable.call, DynTable.select, hidx, hvalues, Option.map_none]
        have hread : step t g' ⟨calls, turn, .read idx⟩ = some (g', ⟨calls, turn, .panicked⟩) := by
          simp only [step, g', Shared.record, hvalues]
        rw [hresult]
        exact ⟨g', Goes.step hread Relation.ReflTransGen.refl⟩
      | some values =>
        have hresult : (g.table.call (.select pk)).map Prod.fst = some g.table := by
          simp only [DynTable.call, DynTable.select, hidx, hvalues, Option.map_some]
        have hread : step t g' ⟨calls, turn, .read idx⟩ =
            some (g', ⟨calls, turn, .respond (.select (some values))⟩) := by
          simp only [step, g', Shared.record, hvalues]
        rw [hresult]
        exact ⟨hfree, _, Goes.step hread goes_respond⟩
  | updateField pk col v =>
    have halone : Ends t (g.record (.invoke (t, turn) (.updateField pk col v)), ⟨calls, turn, .lockTable pk col v⟩)
        calls turn ((g.table.updateField pk col v).map Prod.fst) := updateField_alone hfree
    rw [DynTable.call, Option.map_map]
    exact halone

end Alone

/-! ## The id column -/

/-- `mk_dyn_row` -/
def mkDynRow (pk v : UInt64) : List Value :=
  [.u64 pk, .u64 v, .u64 v, .u64 v, .f64 v.toFloat.toBits, .str "payloadpayload"]

inductive Kind where
  | u64 | f64 | str
deriving DecidableEq

def Value.kind : Value → Kind
  | .u64 _ => .u64
  | .f64 _ => .f64
  | .str _ => .str

/-- the types of the catalog's columns, as the rows of the benchmark have them -/
def columnKinds : List Kind := (mkDynRow 0 0).map Value.kind

/-- an update gives a column a value of its type -/
def Call.Typed : Call → Prop
  | .updateField _ col v => ∀ pos, catalogGet col = some pos → columnKinds[pos]? = some v.kind
  | _ => True

/-- what a call leaves in the id column of the row under a key, given what was there -/
def idAfter (pk : UInt64) (old : Option Value) : Call → Option Value
  | .insert row => if row[0]? = some (.u64 pk) then some (.u64 pk) else old
  | .select _ => old
  | .updateField pk' col v => if pk' = pk ∧ catalogGet col = some 0 then old.map fun _ => v else old

/-- the value that a sequence of calls wrote last to the id column of the row under a key -/
def lastId (calls : List Call) (pk : UInt64) : Option Value := calls.foldl (idAfter pk) none

theorem lastId_append (calls : List Call) (call : Call) (pk : UInt64) :
    lastId (calls ++ [call]) pk = idAfter pk (lastId calls pk) call := by
  rw [lastId, List.foldl_append]
  rfl

/-- the bytes of a word and what follows determine the word -/
theorem valueBytes_head {x : UInt64} {rest more : List UInt8} {v : Value}
    (h : valueBytes v ++ more = valueBytes (.u64 x) ++ rest) : v = .u64 x := by
  have hword : ∀ y : UInt64, valueBytes (.u64 y) = 0 :: leBytes 8 y.toNat := fun _ => rfl
  have htag : (valueBytes v ++ more).head? = some 0 := by rw [h, hword]; rfl
  cases v with
  | u64 y =>
    rw [hword, hword, List.cons_append, List.cons_append, List.cons.injEq] at h
    have hbytes := (List.append_inj h.2 (by simp)).1
    rw [← word_leBytes y, hbytes, word_leBytes]
  | f64 y => cases htag
  | str s => cases htag

/-- **The first value** of an encoded row is read back, whatever becomes of the others. -/
theorem head_of_decode {x : UInt64} {rest : List UInt8} {row : List Value}
    (h : decode (valueBytes (.u64 x) ++ rest) = some row) : row[0]? = some (.u64 x) := by
  have hbytes := (decode_some h).1
  cases row with
  | nil => simp [valueBytes_ne_nil] at hbytes
  | cons v row =>
    rw [List.flatMap_cons] at hbytes
    rw [valueBytes_head hbytes.symm]
    rfl

/-- the row under a key starts with the word written to its id column last, and no two keys share a row -/
structure IdsOk (calls : List Call) (table : DynTable) : Prop where
  starts : ∀ (pk : UInt64) (idx : ℕ), table.pkIndex[pk]? = some idx →
    ∃ x rest, table.slots[idx]? = some (valueBytes (.u64 x) ++ rest) ∧ lastId calls pk = some (.u64 x)
  absent : ∀ pk, table.pkIndex[pk]? = none → lastId calls pk = none
  apart : ∀ (pk pk' : UInt64) (idx : ℕ), table.pkIndex[pk]? = some idx → table.pkIndex[pk']? = some idx → pk = pk'

theorem idsOk_new : IdsOk [] DynTable.new where
  starts pk idx h := by simp [DynTable.new] at h
  absent _ _ := rfl
  apart pk pk' idx h := by simp [DynTable.new] at h

section IdColumn

variable {calls : List Call} {table table' : DynTable}

theorem IdsOk.lt (h : IdsOk calls table) {pk : UInt64} {idx : ℕ} (hidx : table.pkIndex[pk]? = some idx) :
    idx < table.slots.length := by
  obtain ⟨x, rest, hslot, -⟩ := h.starts pk idx hidx
  exact (List.getElem?_eq_some_iff.1 hslot).1

theorem IdsOk.insert (h : IdsOk calls table) {row : List Value} {pk : UInt64}
    (hcall : table.insert row = some (table', pk)) : IdsOk (calls ++ [.insert row]) table' := by
  unfold DynTable.insert at hcall
  split at hcall
  · rename_i pk₀ values
    cases hcall
    have hlast : ∀ pk', lastId (calls ++ [.insert (.u64 pk :: values)]) pk' =
        if pk = pk' then some (.u64 pk') else lastId calls pk' := by
      intro pk'
      rw [lastId_append, idAfter]
      simp
    have hget : ∀ pk' : UInt64, (table.pkIndex.insert pk table.slots.length)[pk']? =
        if pk = pk' then some table.slots.length else table.pkIndex[pk']? := fun pk' => TreeMap.get_insert _ _ _ _
    refine ⟨fun pk' idx hidx => ?_, fun pk' hnone => ?_, fun pk' pk'' idx hidx hidx' => ?_⟩
    · dsimp only at hidx ⊢
      rw [hget] at hidx
      rw [hlast]
      split_ifs at hidx ⊢ with hpk
      · cases hidx
        refine ⟨pk, values.flatMap valueBytes, ?_, by rw [hpk]⟩
        rw [List.getElem?_concat_length, encode_eq, List.flatMap_cons]
      · obtain ⟨x, rest, hslot, hold⟩ := h.starts pk' idx hidx
        exact ⟨x, rest, (List.getElem?_append_left (h.lt hidx)).trans hslot, hold⟩
    · dsimp only at hnone
      rw [hget] at hnone
      rw [hlast]
      split_ifs at hnone ⊢
      exact h.absent pk' hnone
    · dsimp only at hidx hidx'
      rw [hget] at hidx hidx'
      split_ifs at hidx hidx' with hpk hpk' hpk'
      · exact hpk.symm.trans hpk'
      · cases hidx
        exact absurd (h.lt hidx') (Nat.lt_irrefl _)
      · cases hidx'
        exact absurd (h.lt hidx) (Nat.lt_irrefl _)
      · exact h.apart pk' pk'' idx hidx hidx'
  · cases hcall

theorem lockEntry_slots (table : DynTable) (pk : UInt64) : (table.lockEntry pk).slots = table.slots := by
  unfold DynTable.lockEntry
  split <;> rfl

theorem lockEntry_pkIndex (table : DynTable) (pk : UInt64) : (table.lockEntry pk).pkIndex = table.pkIndex := by
  unfold DynTable.lockEntry
  split <;> rfl

/-- calls that change neither rows nor the id columns -/
theorem IdsOk.of_same (h : IdsOk calls table) {calls' : List Call} (hslots : table'.slots = table.slots)
    (hindex : table'.pkIndex = table.pkIndex) (hlast : ∀ pk, lastId calls' pk = lastId calls pk) :
    IdsOk calls' table' := by
  refine ⟨fun pk idx hidx => ?_, fun pk hnone => ?_, fun pk pk' idx hidx hidx' => ?_⟩
  · rw [hslots, hlast]
    exact h.starts pk idx (hindex ▸ hidx)
  · rw [hlast]
    exact h.absent pk (hindex ▸ hnone)
  · exact h.apart pk pk' idx (hindex ▸ hidx) (hindex ▸ hidx')

/-- a call that writes one live row back, and with it the id that stands at the row's start -/
theorem IdsOk.set (h : IdsOk calls table) {calls' : List Call} {pk y : UInt64} {idx : ℕ} {rest : List UInt8}
    (hidx : table.pkIndex[pk]? = some idx)
    (hslots : table'.slots = table.slots.set idx (valueBytes (.u64 y) ++ rest))
    (hindex : table'.pkIndex = table.pkIndex) (hlast : lastId calls' pk = some (.u64 y))
    (hothers : ∀ pk', pk ≠ pk' → lastId calls' pk' = lastId calls pk') : IdsOk calls' table' := by
  refine ⟨fun pk' idx' hidx' => ?_, fun pk' hnone => ?_, fun pk' pk'' idx' hidx' hidx'' => ?_⟩
  · rw [hindex] at hidx'
    rw [hslots]
    by_cases hsame : idx' = idx
    · subst hsame
      obtain rfl := h.apart pk pk' idx' hidx hidx'
      exact ⟨y, rest, List.getElem?_set_self (h.lt hidx), hlast⟩
    · have hne : pk ≠ pk' := fun heq => hsame (by rw [← heq, hidx] at hidx'; exact (Option.some.inj hidx').symm)
      rw [List.getElem?_set_ne (Ne.symm hsame), hothers pk' hne]
      exact h.starts pk' idx' hidx'
  · rw [hindex] at hnone
    have hne : pk ≠ pk' := fun heq => by rw [← heq, hidx] at hnone; cases hnone
    rw [hothers pk' hne]
    exact h.absent pk' hnone
  · exact h.apart pk' pk'' idx' (hindex ▸ hidx') (hindex ▸ hidx'')

/-- the id column of a row that is written back -/
theorem encode_set (x : UInt64) (values : List Value) {pos : ℕ} {col : String} {v : Value}
    (hcol : catalogGet col = some pos) (htyped : columnKinds[pos]? = some v.kind) :
    ∃ y rest, encode ((Value.u64 x :: values).set pos v) = valueBytes (.u64 y) ++ rest ∧
      (if catalogGet col = some 0 then v else .u64 x) = .u64 y := by
  rw [hcol]
  cases pos with
  | zero =>
    have hkind : v.kind = .u64 := (Option.some.inj htyped).symm
    cases v with
    | u64 y =>
      refine ⟨y, values.flatMap valueBytes, ?_, if_pos rfl⟩
      rw [List.set_cons_zero, encode_eq, List.flatMap_cons]
    | f64 y => cases hkind
    | str s => cases hkind
  | succ pos =>
    refine ⟨x, (values.set pos v).flatMap valueBytes, ?_, if_neg (by simp)⟩
    rw [List.set_cons_succ, encode_eq, List.flatMap_cons]

theorem IdsOk.updateField (h : IdsOk calls table) {pk : UInt64} {col : String} {v : Value} {done : Option Unit}
    (htyped : (Call.updateField pk col v).Typed) (hcall : table.updateField pk col v = some (table', done)) :
    IdsOk (calls ++ [.updateField pk col v]) table' := by
  unfold DynTable.updateField at hcall
  dsimp only at hcall
  rw [lockEntry_pkIndex] at hcall
  have hlast : ∀ pk', lastId (calls ++ [.updateField pk col v]) pk' =
      if pk = pk' ∧ catalogGet col = some 0 then (lastId calls pk').map fun _ => v else lastId calls pk' :=
    fun pk' => lastId_append _ _ _
  cases hidx : table.pkIndex[pk]? with
  | none =>
    rw [hidx] at hcall
    cases hcall
    refine h.of_same (lockEntry_slots _ _) (lockEntry_pkIndex _ _) fun pk' => ?_
    rw [hlast]
    split_ifs with hpk
    · rw [← hpk.1, h.absent pk hidx]
      rfl
    · rfl
  | some idx =>
    cases hcol : catalogGet col with
    | none =>
      rw [hidx, hcol] at hcall
      cases hcall
      refine h.of_same (lockEntry_slots _ _) (lockEntry_pkIndex _ _) fun pk' => ?_
      rw [hlast, if_neg]
      rw [hcol]
      rintro ⟨-, hzero⟩
      cases hzero
    | some pos =>
      rw [hidx, hcol] at hcall
      obtain ⟨written, hwrite, heq⟩ := Option.map_eq_some_iff.1 hcall
      cases heq
      obtain ⟨bytes, row, hbytes, hrow, hpos, rfl⟩ := writeSlot_some hwrite
      rw [lockEntry_slots] at hbytes
      obtain ⟨x, rest, hslot, hold⟩ := h.starts pk idx hidx
      obtain rfl := Option.some.inj (hslot.symm.trans hbytes)
      have hhead := head_of_decode hrow
      cases row with
      | nil => cases hhead
      | cons first values =>
        cases hhead
        obtain ⟨y, rest', hencode, hval⟩ := encode_set x values hcol (htyped pos hcol)
        refine h.set hidx (by rw [lockEntry_slots, hencode]) (lockEntry_pkIndex _ _) ?_ fun pk' hne => ?_
        · rw [hlast, ← hval, hold]
          by_cases hid : catalogGet col = some 0
          · simp [hid]
          · simp [hid]
        · rw [hlast, if_neg fun hc => hne hc.1]

theorem idsOk_run {calls : List Call} (htyped : ∀ call ∈ calls, call.Typed) {table : DynTable}
    (h : runCalls calls = some table) : IdsOk calls table := by
  -- the calls made so far are typed, so the table is as they left it
  refine foldlM_history (I := fun done table => (∀ call ∈ done, call.Typed) → IdsOk done table) (fun _ => idsOk_new)
    (fun done call before table hbefore hafter htyped => ?_) h htyped
  have hids := hbefore fun c hc => htyped c (List.mem_append_left _ hc)
  obtain ⟨r, hcall, rfl⟩ := Option.map_eq_some_iff.1 hafter
  cases call with
  | insert row =>
    obtain ⟨r', hr, rfl⟩ := Option.map_eq_some_iff.1 hcall
    exact hids.insert hr
  | select pk =>
    obtain ⟨row, -, rfl⟩ := Option.map_eq_some_iff.1 hcall
    exact hids.of_same rfl rfl fun pk' => lastId_append _ _ _
  | updateField pk col v =>
    obtain ⟨r', hr, rfl⟩ := Option.map_eq_some_iff.1 hcall
    exact hids.updateField (htyped _ (List.mem_append_right _ (List.mem_singleton_self _))) hr

end IdColumn

/-- **The id column.** After any sequence of calls with values of the columns' types, the id column of the row under a
key holds what was written to it last: the key itself, by the insert of the row, or the value of a later update of the
column. -/
theorem id_column_eq (calls : List Call) (htyped : ∀ call ∈ calls, call.Typed) (table : DynTable)
    (h : runCalls calls = some table) (pk : UInt64) (row : List Value) (hrow : table.select pk = some (some row)) :
    row[0]? = lastId calls pk := by
  have hids := idsOk_run htyped h
  unfold DynTable.select at hrow
  cases hidx : table.pkIndex[pk]? with
  | none =>
    rw [hidx] at hrow
    cases hrow
  | some idx =>
    rw [hidx] at hrow
    obtain ⟨values, hvalues, heq⟩ := Option.map_eq_some_iff.1 hrow
    cases heq
    obtain ⟨x, rest, hslot, hlast⟩ := hids.starts pk idx hidx
    rw [hslot, Option.bind_some] at hvalues
    rw [hlast]
    exact head_of_decode hvalues

/-- a row is inserted, and its id column overwritten -/
def renamed : List Call :=
  [.insert [.u64 0, .u64 0, .u64 0, .u64 0, .f64 0, .str "payload"], .updateField 0 "id" (.u64 1)]

theorem renamed_typed : ∀ call ∈ renamed, call.Typed := by
  intro call hcall
  fin_cases hcall
  · trivial
  · intro pos hpos
    cases hpos
    rfl

theorem id_column_eq_renamed : ∃ table row, runCalls renamed = some table ∧ table.select 0 = some (some row) ∧
    row[0]? = lastId renamed 0 :=
  ⟨_, _, rfl, rfl, id_column_eq renamed renamed_typed _ rfl 0 _ rfl⟩

/-- the row under key 0 then has another id -/
theorem renamed_id : ¬ ∀ (calls : List Call) (table : DynTable) (pk : UInt64) (row : List Value),
    (∀ call ∈ calls, call.Typed) → runCalls calls = some table → table.select pk = some (some row) →
      row[0]? = some (.u64 pk) := by
  intro h
  have hid := h renamed _ 0 _ renamed_typed rfl rfl
  revert hid
  decide

end WtBenchmarks.Contention
