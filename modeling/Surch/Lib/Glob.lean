import Mathlib.Computability.Language

/-! Patterns whose symbols take one letter each, and wild ones that stand for any text. A greedy matcher
goes back to the last wild symbol only: what an earlier one could have read, a later one reads too. -/
namespace Surch.Lib.Glob

section Spells

variable {σ α : Type*} (takes : σ → α → Prop) (wild : σ → Prop)

/- A symbol takes a letter where it can; a wild one stands for any text where it cannot. -/
def Spells : List σ → List α → Prop
  | [], text => text = []
  | c :: pattern, text =>
    (∃ x rest, text = x :: rest ∧ takes c x ∧ Spells pattern rest) ∨
      wild c ∧ (∀ x ∈ text.head?, ¬takes c x) ∧ ∃ rest, rest <:+ text ∧ Spells pattern rest

variable {takes wild} {c : σ} {x : α} {pattern front : List σ} {text taken start : List α}

theorem spells_take (taking : takes c x) :
    Spells takes wild (c :: pattern) (x :: text) ↔ Spells takes wild pattern text := by
  simp [Spells, taking]

theorem spells_open (opens : wild c) (stuck : ∀ x ∈ text.head?, ¬takes c x) :
    Spells takes wild (c :: pattern) text ↔ ∃ rest, rest <:+ text ∧ Spells takes wild pattern rest := by
  rw [Spells, or_iff_right]
  · exact ⟨fun opened => opened.2.2, fun read => ⟨opens, stuck, read⟩⟩
  · rintro ⟨x, rest, rfl, taking, -⟩
    exact stuck x rfl taking

theorem not_spells (stuck : ¬takes c x) (fixed : ¬wild c) :
    ¬Spells takes wild (c :: pattern) (x :: text) := by
  rintro (⟨y, rest, same, taking, -⟩ | ⟨opens, -⟩)
  · cases same
    exact stuck taking
  · exact fixed opens

theorem spells_end : Spells takes wild pattern [] ↔ ∀ c ∈ pattern, wild c := by
  induction pattern with
  | nil => simp [Spells]
  | cons c pattern ih => simp [Spells, ih]

/-- What is read of a suffix of the letters that the front takes, is read no earlier than behind them. -/
theorem spells_after (front_takes : List.Forall₂ takes front taken)
    (read : Spells takes wild (front ++ pattern) start) (later : start <:+ taken ++ text) :
    ∃ rest, rest <:+ text ∧ Spells takes wild pattern rest := by
  induction front_takes generalizing start with
  | nil => exact ⟨start, later, read⟩
  | @cons c x front taken taking _ ih =>
    rcases read with ⟨y, rest, rfl, -, read⟩ | ⟨-, stuck, rest, behind, read⟩
    · rcases List.suffix_cons_iff.mp later with same | later
      · cases same
        exact ih read List.suffix_rfl
      · exact ih read ((List.suffix_cons y rest).trans later)
    · rcases List.suffix_cons_iff.mp later with rfl | later
      · exact absurd taking (stuck x rfl)
      · exact ih read (behind.trans later)

/-- So a wild symbol that is reached covers all that the ones before it could still read. -/
theorem spells_of_spells_after (opens : wild c) (stuck : ∀ x ∈ text.head?, ¬takes c x)
    (front_takes : List.Forall₂ takes front taken)
    (read : Spells takes wild (front ++ c :: pattern) start) (later : start <:+ taken ++ text) :
    Spells takes wild (c :: pattern) text := by
  obtain ⟨rest, behind, read⟩ := spells_after front_takes read later
  rw [spells_open opens stuck]
  rcases read with ⟨y, last, rfl, -, read⟩ | ⟨-, -, last, inside, read⟩
  · exact ⟨last, (List.suffix_cons y last).trans behind, read⟩
  · exact ⟨last, inside.trans behind, read⟩

end Spells

section Languages

variable {σ α : Type*} (denotes : σ → Language α)

def letters (α : Type*) : Language α := {text | ∃ x, text = [x]}

theorem mem_letters {text : List α} : text ∈ letters α ↔ ∃ x, text = [x] := Iff.rfl

def language (pattern : List σ) : Language α := (pattern.map denotes).prod

variable {denotes}

theorem mem_language_cons {c : σ} {pattern : List σ} {text : List α} :
    text ∈ language denotes (c :: pattern) ↔
      ∃ front ∈ denotes c, ∃ rest ∈ language denotes pattern, front ++ rest = text := by
  rw [language, List.map_cons, List.prod_cons]
  exact Language.mem_mul

/-- Reading gives a text of the pattern where a letter that is taken is one of its symbol's texts. -/
theorem mem_language_of_spells {takes : σ → α → Prop} {wild : σ → Prop}
    (letters : ∀ c x, takes c x → [x] ∈ denotes c) (free : ∀ c, wild c → denotes c = ⊤)
    {pattern : List σ} {text : List α} (read : Spells takes wild pattern text) :
    text ∈ language denotes pattern := by
  induction pattern generalizing text with
  | nil =>
    obtain rfl : text = [] := read
    exact Language.nil_mem_one
  | cons c pattern ih =>
    rw [mem_language_cons]
    rcases read with ⟨x, rest, rfl, taking, read⟩ | ⟨opens, -, rest, ⟨front, rfl⟩, read⟩
    · exact ⟨[x], letters c x taking, rest, ih read, rfl⟩
    · refine ⟨front, ?_, rest, ih read, rfl⟩
      rw [free c opens]
      exact Set.mem_univ front

/-- And the other way round where no letter of the text is taken by a wild symbol. -/
theorem spells_of_mem_language {takes : σ → α → Prop} {wild : σ → Prop} {text : List α}
    (symbols : ∀ c, wild c ∨ ∀ front ∈ denotes c, ∃ x, front = [x] ∧ takes c x)
    (letters : ∀ x ∈ text, ∀ c, wild c → ¬takes c x) {pattern : List σ}
    (member : text ∈ language denotes pattern) : Spells takes wild pattern text := by
  induction pattern generalizing text with
  | nil => exact member
  | cons c pattern ih =>
    obtain ⟨front, denoted, rest, later, rfl⟩ := mem_language_cons.mp member
    have read := ih (fun x inside => letters x (List.mem_append_right _ inside)) later
    rcases symbols c with opens | single
    · exact .inr ⟨opens, fun x first => letters x (List.mem_of_mem_head? first) c opens, rest,
        List.suffix_append _ _, read⟩
    · obtain ⟨x, rfl, taking⟩ := single front denoted
      exact .inl ⟨x, rest, rfl, taking, read⟩

end Languages

section Tables

variable {α : Type*}

open Classical in
/- Which texts are in a language, of those that begin with some letters and end inside the following. -/
noncomputable def memberships (L : Language α) (start : List α) : List α → List Bool
  | [] => []
  | x :: rest => decide (start ++ [x] ∈ L) :: memberships L (start ++ [x]) rest

open Classical in
theorem getLastD_memberships (L : Language α) (start text : List α) (default : Bool) :
    (decide (start ∈ L) :: memberships L start text).getLastD default = decide (start ++ text ∈ L) := by
  induction text generalizing start default with
  | nil => simp [memberships]
  | cons x rest ih =>
    rw [memberships, List.getLastD_cons, ih, List.append_assoc]
    rfl

theorem append_mem_mul_top {L : Language α} {start : List α} {x : α} :
    start ++ [x] ∈ L * ⊤ ↔ start ++ [x] ∈ L ∨ start ∈ L * ⊤ := by
  rw [Language.mem_mul, Language.mem_mul]
  constructor
  · rintro ⟨front, member, rest, -, same⟩
    rcases List.eq_nil_or_concat rest with rfl | ⟨rest, last, rfl⟩
    · rw [List.append_nil] at same
      exact .inl (same ▸ member)
    · rw [List.concat_eq_append, ← List.append_assoc] at same
      exact .inr ⟨front, member, rest, Set.mem_univ _, (List.append_inj' same rfl).1⟩
  · rintro (member | ⟨front, member, rest, -, rfl⟩)
    · exact ⟨_, member, [], Set.mem_univ _, List.append_nil _⟩
    · exact ⟨front, member, rest ++ [x], Set.mem_univ _, (List.append_assoc _ _ _).symm⟩

theorem nil_mem_mul_top {L : Language α} : [] ∈ L * ⊤ ↔ [] ∈ L := by
  rw [Language.mem_mul]
  constructor
  · rintro ⟨front, member, rest, -, same⟩
    rwa [(List.append_eq_nil_iff.mp same).1] at member
  · exact fun member => ⟨[], member, [], Set.mem_univ _, rfl⟩

theorem append_mem_mul_letters {L M : Language α} (letters : ∀ text ∈ M, ∃ y, text = [y])
    {start : List α} {x : α} : start ++ [x] ∈ L * M ↔ start ∈ L ∧ [x] ∈ M := by
  rw [Language.mem_mul]
  constructor
  · rintro ⟨front, member, rest, single, same⟩
    obtain ⟨y, rfl⟩ := letters rest single
    obtain ⟨rfl, one⟩ := List.append_inj' same rfl
    exact ⟨member, one ▸ single⟩
  · rintro ⟨member, single⟩
    exact ⟨start, member, [x], single, rfl⟩

theorem nil_not_mem_mul_letters {L M : Language α} (letters : ∀ text ∈ M, ∃ y, text = [y]) :
    [] ∉ L * M := by
  rw [Language.mem_mul]
  rintro ⟨front, -, rest, single, same⟩
  obtain ⟨y, rfl⟩ := letters rest single
  simp at same

end Tables

end Surch.Lib.Glob
