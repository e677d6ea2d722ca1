/-
Cutting texts: prefixes and suffixes, the first occurrence of a pattern, lines, and fields between blanks.

A text is a list over any alphabet; what counts as a blank is a parameter.

- `splitOnce_append`: a text is cut at a pattern written after a part without it, unless the pattern overlaps itself;
- `lines_render`: the lines of a text written line by line;
- `fields_intercalate`: the fields of fields written with one blank between them;
- `append_cons_prefix_iff`: texts that end a first part with the same sign begin alike exactly if the parts are equal
  and the rests begin alike;
- `prefix_of_between`: in lexicographic order, the texts with one beginning have no other text between them.
-/
import Mathlib.Data.List.Lex
import Mathlib.Tactic

namespace WtBenchmarks.Text

variable {α : Type} [DecidableEq α]

/-! ## Prefixes and suffixes -/

/-- `text.strip_prefix(pattern)` -/
def stripPrefix (pattern text : List α) : Option (List α) :=
  if pattern <+: text then some (text.drop pattern.length) else none

/-- `text.strip_suffix(pattern)` -/
def stripSuffix (pattern text : List α) : Option (List α) :=
  if pattern <:+ text then some (text.take (text.length - pattern.length)) else none

@[simp] theorem stripPrefix_append (pattern rest : List α) : stripPrefix pattern (pattern ++ rest) = some rest := by
  rw [stripPrefix, if_pos (List.prefix_append _ _), List.drop_left]

@[simp] theorem stripSuffix_append (rest pattern : List α) : stripSuffix pattern (rest ++ pattern) = some rest := by
  rw [stripSuffix, if_pos (List.suffix_append _ _), List.length_append, Nat.add_sub_cancel, List.take_left]

/-! ## The first occurrence -/

/-- `text.split_once(pattern)` -/
def splitOnce (pattern : List α) : List α → Option (List α × List α)
  | [] => if pattern = [] then some ([], []) else none
  | c :: text =>
    if pattern <+: c :: text then some ([], (c :: text).drop pattern.length)
    else (splitOnce pattern text).map fun cut => (c :: cut.1, cut.2)

/-- no proper beginning of the pattern ends it -/
def Unbordered (pattern : List α) : Prop :=
  ∀ k, 0 < k → k < pattern.length → pattern.drop k ≠ pattern.take (pattern.length - k)

instance decidableUnbordered (pattern : List α) : Decidable (Unbordered pattern) :=
  decidable_of_iff (∀ k < pattern.length, 0 < k → pattern.drop k ≠ pattern.take (pattern.length - k))
    ⟨fun h k hpos hk => h k hk hpos, fun h k hk hpos => h k hpos hk⟩

/-- **Cutting at a pattern.** -/
theorem splitOnce_append {pattern : List α} (hne : pattern ≠ []) (hpattern : Unbordered pattern) {before : List α}
    (hbefore : ¬ pattern <:+: before) (after : List α) :
    splitOnce pattern (before ++ pattern ++ after) = some (before, after) := by
  induction before with
  | nil =>
    obtain ⟨c, rest, rfl⟩ := List.exists_cons_of_ne_nil hne
    rw [List.nil_append, List.cons_append, splitOnce, if_pos (by rw [← List.cons_append]; exact List.prefix_append _ _),
      ← List.cons_append, List.drop_left]
  | cons c before ih =>
    have hnot : ¬ pattern <+: c :: (before ++ pattern ++ after) := by
      intro h
      rw [← List.cons_append, ← List.cons_append] at h
      have htake := List.prefix_iff_eq_take.1 h
      by_cases hlen : pattern.length ≤ (c :: before).length
      · -- the occurrence would lie in the part before
        rw [List.append_assoc, List.take_append_of_le_length hlen] at htake
        exact hbefore (htake ▸ (List.take_prefix _ _).isInfix)
      · -- or it would overlap the pattern itself
        have hlt : (c :: before).length < pattern.length := Nat.lt_of_not_le hlen
        refine hpattern (c :: before).length (Nat.succ_pos _) hlt ?_
        have hdrop := congrArg (List.drop (c :: before).length) htake
        rw [List.append_assoc, List.drop_take, List.drop_left] at hdrop
        rw [hdrop, List.take_append_of_le_length (Nat.sub_le _ _)]
    rw [List.cons_append, List.cons_append, splitOnce, if_neg hnot,
      ih fun h => hbefore (h.trans (List.suffix_cons c before).isInfix)]
    rfl

/-! ## Lines -/

/-- the pieces of a text, each with the separator that ends it -/
def splitInclusive (sep : α) : List α → List (List α)
  | [] => []
  | c :: text =>
    if c = sep then [c] :: splitInclusive sep text
    else
      match splitInclusive sep text with
      | [] => [[c]]
      | piece :: pieces => (c :: piece) :: pieces

/-- a piece without the separator, and without the other character that may come before it -/
def chomp (sep extra : α) (piece : List α) : List α :=
  match stripSuffix [sep] piece with
  | none => piece
  | some line => (stripSuffix [extra] line).getD line

/-- `text.lines()` -/
def lines (newline carriageReturn : α) (text : List α) : List (List α) :=
  (splitInclusive newline text).map (chomp newline carriageReturn)

theorem splitInclusive_append {sep : α} {line : List α} (h : sep ∉ line) (text : List α) :
    splitInclusive sep (line ++ sep :: text) = (line ++ [sep]) :: splitInclusive sep text := by
  induction line with
  | nil => rw [List.nil_append, splitInclusive, if_pos rfl, List.nil_append]
  | cons c line ih =>
    rw [List.mem_cons, not_or] at h
    rw [List.cons_append, splitInclusive, if_neg (Ne.symm h.1), ih h.2]
    rfl

/-- a line of its own -/
structure IsLine (newline carriageReturn : α) (line : List α) : Prop where
  noBreak : newline ∉ line
  noReturn : ¬ [carriageReturn] <:+ line

/-- **Lines written one by one.** -/
theorem lines_render {newline carriageReturn : α} {ls : List (List α)} (h : ∀ l ∈ ls, IsLine newline carriageReturn l) :
    lines newline carriageReturn (ls.flatMap fun l => l ++ [newline]) = ls := by
  unfold lines
  induction ls with
  | nil => rfl
  | cons l ls ih =>
    have hl := h l List.mem_cons_self
    have hchomp : chomp newline carriageReturn (l ++ [newline]) = l := by
      rw [chomp, stripSuffix_append]
      exact congrArg (fun rest => Option.getD rest l) (if_neg hl.noReturn)
    rw [List.flatMap_cons, List.append_assoc, List.singleton_append, splitInclusive_append hl.noBreak, List.map_cons,
      hchomp, ih fun l' hl' => h l' (List.mem_cons_of_mem l hl')]

/-! ## Fields -/

section Fields

omit [DecidableEq α]

variable (blank : α → Bool)

/-- `text.split_whitespace()` -/
def fields (text : List α) : List (List α) := (text.splitOnP blank).filter fun field => !field.isEmpty

/-- a field is not empty and holds no blank -/
structure IsField (field : List α) : Prop where
  nonempty : field ≠ []
  solid : ∀ c ∈ field, blank c = false

variable {blank}

theorem IsField.of_all {field : List α} (hne : field ≠ []) (h : field.all (fun c => !blank c) = true) :
    IsField blank field :=
  ⟨hne, fun c hc => by simpa using List.all_eq_true.1 h c hc⟩

theorem fields_singleton {field : List α} (h : IsField blank field) : fields blank field = [field] := by
  have hne : field.isEmpty = false := List.isEmpty_eq_false_iff.2 h.nonempty
  rw [fields, List.splitOnP_eq_singleton h.solid, List.filter_cons_of_pos (by rw [hne]; rfl), List.filter_nil]

theorem fields_cons {field : List α} (h : IsField blank field) {sep : α} (hsep : blank sep = true) (rest : List α) :
    fields blank (field ++ sep :: rest) = field :: fields blank rest := by
  have hne : field.isEmpty = false := List.isEmpty_eq_false_iff.2 h.nonempty
  rw [fields, List.splitOnP_append_cons_of_forall_mem h.solid sep hsep, List.filter_cons_of_pos (by rw [hne]; rfl)]
  rfl

/-- **Fields with one blank between them.** -/
theorem fields_intercalate {sep : α} (hsep : blank sep = true) {ls : List (List α)} (h : ∀ l ∈ ls, IsField blank l) :
    fields blank ([sep].intercalate ls) = ls := by
  induction ls with
  | nil => rfl
  | cons l ls ih =>
    have hl := h l List.mem_cons_self
    cases ls with
    | nil => rw [List.intercalate_singleton, fields_singleton hl]
    | cons l' ls =>
      rw [List.intercalate_cons_cons, List.append_assoc, List.singleton_append, fields_cons hl hsep,
        ih fun m hm => h m (List.mem_cons_of_mem l hm)]

theorem mem_intercalate {sep c : α} {ls : List (List α)} (h : c ∈ [sep].intercalate ls) :
    c = sep ∨ ∃ l ∈ ls, c ∈ l := by
  induction ls with
  | nil => cases h
  | cons l ls ih =>
    cases ls with
    | nil =>
      rw [List.intercalate_singleton] at h
      exact Or.inr ⟨l, List.mem_cons_self, h⟩
    | cons l' ls =>
      rw [List.intercalate_cons_cons, List.append_assoc, List.mem_append, List.singleton_append, List.mem_cons] at h
      rcases h with h | h | h
      · exact Or.inr ⟨l, List.mem_cons_self, h⟩
      · exact Or.inl h
      · exact (ih h).imp_right fun ⟨m, hm, hc⟩ => ⟨m, List.mem_cons_of_mem l hm, hc⟩

end Fields

/-! ## Texts with a common beginning -/

omit [DecidableEq α] in
/-- **Beginnings up to a sign.** Induction on the first part; the sign ends both. -/
theorem append_cons_prefix_iff {c : α} {a b rest rest' : List α} (ha : c ∉ a) (hb : c ∉ b) :
    a ++ c :: rest <+: b ++ c :: rest' ↔ a = b ∧ rest <+: rest' := by
  induction a generalizing b with
  | nil =>
    cases b with
    | nil => simp
    | cons e b =>
      have hne : c ≠ e := fun h => hb (h ▸ List.mem_cons_self)
      simp [List.cons_prefix_cons, hne]
  | cons d a ih =>
    cases b with
    | nil =>
      have hne : d ≠ c := fun h => ha (h ▸ List.mem_cons_self)
      simp [List.cons_prefix_cons, hne]
    | cons e b =>
      have hrest := ih (fun h => ha (List.mem_cons_of_mem d h)) (b := b) fun h => hb (List.mem_cons_of_mem e h)
      rw [List.cons_append, List.cons_append, List.cons_prefix_cons, hrest, List.cons.injEq]
      exact and_assoc.symm

section Order

variable {β : Type} [LinearOrder β]

/-- no text that begins with `p` comes before `p` -/
theorem not_lt_of_prefix {p x : List β} (h : p <+: x) : ¬ x < p := by
  induction p generalizing x with
  | nil => exact List.not_lt_nil x
  | cons c p ih =>
    obtain ⟨rest, rfl⟩ := h
    rw [List.cons_append, List.cons_lt_cons_iff]
    rintro (hlt | ⟨-, hlt⟩)
    · exact lt_irrefl c hlt
    · exact ih (List.prefix_append p rest) hlt

/-- **Between.** A text from `p` on and before a text that begins with `p` begins with `p`. -/
theorem prefix_of_between {p x y : List β} (hx : ¬ x < p) (hxy : x < y) (hy : p <+: y) : p <+: x := by
  induction p generalizing x y with
  | nil => exact List.nil_prefix
  | cons c p ih =>
    obtain ⟨rest, rfl⟩ := hy
    cases x with
    | nil => exact absurd (List.nil_lt_cons c p) hx
    | cons d x =>
      rw [List.cons_lt_cons_iff] at hx
      rw [List.cons_append, List.cons_lt_cons_iff] at hxy
      rcases hxy with hlt | ⟨rfl, hlt⟩
      · exact absurd (Or.inl hlt) hx
      · rw [List.cons_prefix_cons]
        exact ⟨rfl, ih (fun h => hx (Or.inr ⟨rfl, h⟩)) hlt (List.prefix_append p rest)⟩

/-- texts with beginnings of one length are compared by them first -/
theorem append_lt_append_iff {as bs : List β} (hlength : as.length = bs.length) (xs ys : List β) :
    as ++ xs < bs ++ ys ↔ as < bs ∨ as = bs ∧ xs < ys := by
  induction as generalizing bs with
  | nil =>
    obtain rfl := List.eq_nil_of_length_eq_zero hlength.symm
    simp
  | cons a as ih =>
    cases bs with
    | nil => cases hlength
    | cons b bs =>
      rw [List.cons_append, List.cons_append, List.cons_lt_cons_iff, List.cons_lt_cons_iff,
        ih (Nat.succ.inj hlength), List.cons.injEq]
      tauto

end Order

end WtBenchmarks.Text
