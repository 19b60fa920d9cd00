import Mathlib.Data.List.TakeWhile
import Surch.Lib.Glob
import Surch.Api.Catalog

/-! The two matchers of wildcard patterns: the loop of `wildcard_pattern_matches`, which goes back to the
last star, and the table of `index_pattern_matches`. The loop compares a letter before it looks for a
star, so that a star of the pattern takes a star of the text for itself. -/
namespace Surch.Api
open Surch.Lib Surch.Lib.Glob

section Semantics

def patternTexts (c : Char) : Language Char :=
  if c = '*' then ⊤ else if c = '?' then letters Char else {[c]}

/- The texts that come of a pattern by replacing each `?` by one character and each `*` by a string. -/
def glob (pattern : List Char) : Language Char := language patternTexts pattern

def TakesChar (c x : Char) : Prop := c = '?' ∨ c = x

instance (c x : Char) : Decidable (TakesChar c x) := inferInstanceAs (Decidable (_ ∨ _))

/- The text comes of the pattern with every star that stands where the text has a star replaced by just
that star. -/
def SpellsStars : List Char → List Char → Prop := Spells TakesChar (· = '*')

theorem mem_glob_of_spellsStars {pattern text : List Char} (read : SpellsStars pattern text) :
    text ∈ glob pattern := by
  refine mem_language_of_spells (fun c x taking => ?_) (fun c star => ?_) read
  · rw [patternTexts]
    split
    · exact Set.mem_univ _
    · split
      · exact mem_letters.mpr ⟨x, rfl⟩
      · rename_i single
        rcases taking with question | rfl
        · exact absurd question single
        · exact Set.mem_singleton _
  · rw [patternTexts, if_pos star]

theorem patternTexts_single {c : Char} (plain : c ≠ '*') :
    ∀ text ∈ patternTexts c, ∃ x, text = [x] ∧ TakesChar c x := by
  intro text member
  rw [patternTexts, if_neg plain] at member
  split at member
  · rename_i question
    obtain ⟨x, rfl⟩ := mem_letters.mp member
    exact ⟨x, rfl, .inl question⟩
  · obtain rfl := Set.mem_singleton_iff.mp member
    exact ⟨c, rfl, .inr rfl⟩

theorem spellsStars_of_mem_glob {pattern text : List Char} (plain : '*' ∉ text)
    (member : text ∈ glob pattern) : SpellsStars pattern text := by
  refine spells_of_mem_language (fun c => ?_) ?_ member
  · by_cases star : c = '*'
    · exact .inl star
    · exact .inr (patternTexts_single star)
  · rintro x inside c rfl (question | rfl)
    · exact absurd question (by decide)
    · exact plain inside

end Semantics

section Table

variable {L : Language Char} {index : List Char}

open Classical in
theorem patternCells_memberships (c : Char) (start index : List Char) :
    patternCells c (decide (start ∈ L)) (decide (start ∈ L * patternTexts c)) index
        (memberships L start index) =
      memberships (L * patternTexts c) start index := by
  induction index generalizing start with
  | nil => rfl
  | cons x rest ih =>
    have cell : (if c = '*' then
          decide (start ++ [x] ∈ L) || decide (start ∈ L * patternTexts c)
        else if c = '?' then decide (start ∈ L)
        else c == x && decide (start ∈ L)) = decide (start ++ [x] ∈ L * patternTexts c) := by
      by_cases star : c = '*'
      · rw [if_pos star, patternTexts, if_pos star, Bool.or_eq_decide]
        simp only [decide_eq_true_eq, append_mem_mul_top]
      · have letters : ∀ text ∈ patternTexts c, ∃ y, text = [y] := fun text member =>
          (patternTexts_single star text member).imp fun _ => And.left
        simp only [if_neg star, append_mem_mul_letters letters]
        by_cases question : c = '?'
        · simp [question, patternTexts, mem_letters]
        · have single : [x] ∈ patternTexts c ↔ c = x := by
            rw [patternTexts, if_neg star, if_neg question]
            exact Set.mem_singleton_iff.trans (by simp [eq_comm])
          simp [question, single, and_comm, Bool.decide_and, beq_eq_decide]
    rw [memberships, patternCells, memberships]
    simp only [cell, ih]

open Classical in
/-- A row of the table says which beginnings of the index the pattern so far denotes. -/
theorem patternRow_memberships (c : Char) :
    patternRow index (decide ([] ∈ L) :: memberships L [] index) c =
      decide ([] ∈ L * patternTexts c) :: memberships (L * patternTexts c) [] index := by
  have first : (c == '*' && decide ([] ∈ L)) = decide ([] ∈ L * patternTexts c) := by
    by_cases star : c = '*'
    · simp [star, patternTexts, nil_mem_mul_top]
    · have letters : ∀ text ∈ patternTexts c, ∃ y, text = [y] := fun text member =>
        (patternTexts_single star text member).imp fun _ => And.left
      simp [star, nil_not_mem_mul_letters letters]
  rw [patternRow]
  simp only [first, patternCells_memberships]

open Classical in
theorem foldl_patternRow (pattern : List Char) :
    pattern.foldl (patternRow index) (decide ([] ∈ L) :: memberships L [] index) =
      decide ([] ∈ L * glob pattern) :: memberships (L * glob pattern) [] index := by
  induction pattern generalizing L with
  | nil =>
    have nothing : L * glob [] = L := mul_one L
    rw [nothing]
    rfl
  | cons c pattern ih =>
    have split : L * glob (c :: pattern) = L * patternTexts c * glob pattern := by
      rw [glob, language, List.map_cons, List.prod_cons, ← mul_assoc]
      rfl
    rw [List.foldl_cons, patternRow_memberships, ih, split]

theorem indexPatternMatches_iff (pattern index : String) :
    indexPatternMatches pattern index = true ↔ index.toList ∈ glob pattern.toList := by
  classical
  have start : (true :: index.toList.map fun _ => false) =
      decide ([] ∈ (1 : Language Char)) :: memberships 1 [] index.toList := by
    have none : ∀ (front text : List Char), memberships 1 front text = text.map fun _ => false := by
      intro front text
      induction text generalizing front with
      | nil => rfl
      | cons x rest ih => simp [memberships, ih, Language.mem_one]
    rw [none, decide_eq_true Language.nil_mem_one]
  rw [indexPatternMatches, start, foldl_patternRow, getLastD_memberships, one_mul, decide_eq_true_eq,
    List.nil_append]

end Table

section Loop

structure WildcardState where
  pi : Nat
  ti : Nat
  starPi : Option Nat
  starTi : Nat
deriving DecidableEq

variable (pattern text : List Char)

def onlyStars (pi : Nat) : Bool := ((pattern.drop pi).dropWhile (· == '*')).isEmpty

/- The loop over the text; nothing while it has not ended. -/
def wildcardLoop : (fuel : Nat) → WildcardState → Option Bool
  | 0, _ => none
  | fuel + 1, state =>
    match text[state.ti]? with
    | none => some (onlyStars pattern state.pi)
    | some x =>
      if (pattern[state.pi]?).any fun c => decide (TakesChar c x) then
        wildcardLoop fuel { state with pi := state.pi + 1, ti := state.ti + 1 }
      else if pattern[state.pi]? = some '*' then
        wildcardLoop fuel
          { state with starPi := some state.pi, starTi := state.ti, pi := state.pi + 1 }
      else
        match state.starPi with
        | some sp =>
          wildcardLoop fuel
            { state with pi := sp + 1, starTi := state.starTi + 1, ti := state.starTi + 1 }
        | none => some false

/- Enough turns: the last star moves on over the pattern, its reading over the text. -/
def wildcardTurns : Nat := (pattern.length + 2) * (text.length + 2) * (text.length + 2)

def wildcardPatternMatches : Option Bool :=
  wildcardLoop pattern text (wildcardTurns pattern text) ⟨0, 0, none, 0⟩

end Loop

section Correctness

variable {pattern text : List Char}

theorem onlyStars_iff (pi : Nat) : onlyStars pattern pi = true ↔ SpellsStars (pattern.drop pi) [] := by
  rw [SpellsStars, spells_end, onlyStars, List.isEmpty_iff, List.dropWhile_eq_nil_iff]
  simp

theorem suffix_drop_iff {rest : List Char} {i : Nat} (inside : i ≤ text.length) :
    rest <:+ text.drop i ↔ ∃ j, i ≤ j ∧ j ≤ text.length ∧ rest = text.drop j := by
  constructor
  · rintro ⟨front, same⟩
    refine ⟨i + front.length, Nat.le_add_right _ _, ?_, ?_⟩
    · have length := congrArg List.length same
      rw [List.length_append, List.length_drop] at length
      omega
    · rw [← List.drop_drop, ← same, List.drop_left]
  · rintro ⟨j, above, -, rfl⟩
    obtain ⟨k, rfl⟩ := Nat.exists_eq_add_of_le above
    rw [← List.drop_drop]
    exact List.drop_suffix _ _

namespace WildcardState

/- The text is read from here on, or from a later place behind the last star. -/
def Matches (pattern text : List Char) (state : WildcardState) : Prop :=
  SpellsStars (pattern.drop state.pi) (text.drop state.ti) ∨
    ∃ sp, state.starPi = some sp ∧ ∃ j, state.starTi < j ∧ j ≤ text.length ∧
      SpellsStars (pattern.drop (sp + 1)) (text.drop j)

/- What has been passed behind the last star was taken letter by letter. -/
structure Sound (pattern text : List Char) (state : WildcardState) : Prop where
  ti_le : state.ti ≤ text.length
  starTi_le : state.starTi ≤ state.ti
  since : ∀ sp, state.starPi = some sp → sp < state.pi ∧ ∃ front taken,
    List.Forall₂ TakesChar front taken ∧ pattern.drop (sp + 1) = front ++ pattern.drop state.pi ∧
      text.drop state.starTi = taken ++ text.drop state.ti

/- How many turns are left: the star moves on first, then the place it is tried at, then the text. -/
def turnsLeft (pattern text : List Char) (state : WildcardState) : Nat :=
  (pattern.length + 1 - (state.starPi.map (· + 1)).getD 0) * ((text.length + 2) * (text.length + 2)) +
    (text.length + 1 - state.starTi) * (text.length + 2) + (text.length - state.ti)

variable {state : WildcardState}

theorem Sound.earlier (sound : state.Sound pattern text) {sp j : Nat} (star : state.starPi = some sp)
    (above : state.starTi < j) (inside : j ≤ text.length)
    (read : SpellsStars (pattern.drop (sp + 1)) (text.drop j)) :
    ∃ front taken, List.Forall₂ TakesChar front taken ∧
      SpellsStars (front ++ pattern.drop state.pi) (text.drop j) ∧
      text.drop j <:+ taken ++ text.drop state.ti := by
  obtain ⟨-, front, taken, takes, ahead, behind⟩ := sound.since sp star
  refine ⟨front, taken, takes, ahead ▸ read, ?_⟩
  rw [← behind, suffix_drop_iff (sound.starTi_le.trans sound.ti_le)]
  exact ⟨j, above.le, inside, rfl⟩

theorem Sound.matches_end (sound : state.Sound pattern text) (ended : text.length ≤ state.ti) :
    state.Matches pattern text ↔ SpellsStars (pattern.drop state.pi) [] := by
  have nothing : text.drop state.ti = [] := List.drop_eq_nil_of_le ended
  constructor
  · rintro (read | ⟨sp, star, j, above, inside, read⟩)
    · rwa [nothing] at read
    · obtain ⟨front, taken, takes, read, later⟩ := sound.earlier star above inside read
      obtain ⟨rest, behind, read⟩ := spells_after takes read later
      rw [nothing, List.suffix_nil] at behind
      rwa [behind] at read
  · intro read
    rw [← nothing] at read
    exact .inl read

theorem drop_pi {c : Char} (symbol : pattern[state.pi]? = some c) :
    pattern.drop state.pi = c :: pattern.drop (state.pi + 1) := by
  obtain ⟨inside, rfl⟩ := List.getElem?_eq_some_iff.mp symbol
  exact List.drop_eq_getElem_cons inside

section Turns

variable {x c : Char} (here : text[state.ti]? = some x)
include here

theorem drop_ti : text.drop state.ti = x :: text.drop (state.ti + 1) := by
  obtain ⟨inside, rfl⟩ := List.getElem?_eq_some_iff.mp here
  exact List.drop_eq_getElem_cons inside

theorem Sound.take (sound : state.Sound pattern text) (symbol : pattern[state.pi]? = some c)
    (taking : TakesChar c x) :
    let next := { state with pi := state.pi + 1, ti := state.ti + 1 }
    next.Sound pattern text ∧ (next.Matches pattern text ↔ state.Matches pattern text) ∧
      next.turnsLeft pattern text < state.turnsLeft pattern text := by
  have inside := (List.getElem?_eq_some_iff.mp here).1
  have letter := drop_ti here
  have pattern_symbol : pattern.drop state.pi = c :: pattern.drop (state.pi + 1) := drop_pi symbol
  refine ⟨⟨inside, sound.starTi_le.trans (Nat.le_succ _), ?_⟩, ?_, ?_⟩
  · intro sp star
    obtain ⟨before, front, taken, takes, ahead, behind⟩ := sound.since sp star
    refine ⟨before.trans (Nat.lt_succ_self _), front ++ [c], taken ++ [x],
      List.rel_append takes (.cons taking .nil), ?_, ?_⟩
    · rw [ahead, pattern_symbol, List.append_assoc]
      rfl
    · rw [behind, letter, List.append_assoc]
      rfl
  · rw [Matches, Matches, pattern_symbol, letter, SpellsStars, spells_take taking]
  · simp only [turnsLeft]
    omega

theorem Sound.star (sound : state.Sound pattern text) (symbol : pattern[state.pi]? = some '*')
    (stuck : ¬TakesChar '*' x) :
    let next := { state with starPi := some state.pi, starTi := state.ti, pi := state.pi + 1 }
    next.Sound pattern text ∧ (next.Matches pattern text ↔ state.Matches pattern text) ∧
      next.turnsLeft pattern text < state.turnsLeft pattern text := by
  have inside := (List.getElem?_eq_some_iff.mp here).1
  have letter := drop_ti here
  have pattern_symbol : pattern.drop state.pi = '*' :: pattern.drop (state.pi + 1) :=
    drop_pi symbol
  have head : ∀ y ∈ (text.drop state.ti).head?, ¬TakesChar '*' y := by
    rw [letter]
    rintro y same
    cases same
    exact stuck
  refine ⟨⟨sound.ti_le, le_rfl, ?_⟩, ?_, ?_⟩
  · rintro sp same
    cases same
    exact ⟨Nat.lt_succ_self _, [], [], .nil, rfl, rfl⟩
  · have covered : state.Matches pattern text ↔
        SpellsStars ('*' :: pattern.drop (state.pi + 1)) (text.drop state.ti) := by
      rw [← pattern_symbol]
      constructor
      · rintro (read | ⟨sp, star, j, above, last, read⟩)
        · exact read
        · obtain ⟨front, taken, takes, read, later⟩ := sound.earlier star above last read
          rw [pattern_symbol] at read ⊢
          exact spells_of_spells_after rfl head takes read later
      · exact .inl
    rw [covered, SpellsStars, @spells_open _ _ _ (· = '*') _ _ _ rfl head]
    constructor
    · rintro (read | ⟨sp, same, j, above, last, read⟩)
      · exact ⟨_, List.suffix_rfl, read⟩
      · cases same
        exact ⟨_, (suffix_drop_iff sound.ti_le).mpr ⟨j, above.le, last, rfl⟩, read⟩
    · rintro ⟨rest, behind, read⟩
      obtain ⟨j, above, last, rfl⟩ := (suffix_drop_iff sound.ti_le).mp behind
      rcases above.eq_or_lt with rfl | above
      · exact .inl read
      · exact .inr ⟨state.pi, rfl, j, above, last, read⟩
  · have bound := (List.getElem?_eq_some_iff.mp symbol).1
    have below : (state.starPi.map (· + 1)).getD 0 ≤ state.pi := by
      cases star : state.starPi with
      | none => exact Nat.zero_le _
      | some sp => exact (sound.since sp star).1
    have fewer : (pattern.length + 1 - (state.pi + 1)) * ((text.length + 2) * (text.length + 2)) +
        (text.length + 2) * (text.length + 2) ≤
        (pattern.length + 1 - (state.starPi.map (· + 1)).getD 0) *
          ((text.length + 2) * (text.length + 2)) := by
      rw [← Nat.succ_mul]
      exact Nat.mul_le_mul_right _ (by omega)
    have positive : 0 < (text.length + 2) * (text.length + 2) := Nat.mul_pos (by omega) (by omega)
    have tried : (text.length + 1 - state.ti) * (text.length + 2) ≤
        (text.length + 1 - state.starTi) * (text.length + 2) :=
      Nat.mul_le_mul_right _ (Nat.sub_le_sub_left sound.starTi_le _)
    simp only [turnsLeft, Option.map_some, Option.getD_some]
    omega

theorem not_spells_here
    (stuck : ∀ c, pattern[state.pi]? = some c → ¬TakesChar c x ∧ c ≠ '*') :
    ¬SpellsStars (pattern.drop state.pi) (text.drop state.ti) := by
  rw [drop_ti here]
  cases symbol : pattern[state.pi]? with
  | none =>
    rw [List.drop_eq_nil_of_le (List.getElem?_eq_none_iff.mp symbol)]
    exact List.cons_ne_nil _ _
  | some c =>
    rw [drop_pi symbol]
    exact not_spells (stuck c symbol).1 (stuck c symbol).2

theorem Sound.again (sound : state.Sound pattern text) {sp : Nat} (star : state.starPi = some sp)
    (stuck : ∀ c, pattern[state.pi]? = some c → ¬TakesChar c x ∧ c ≠ '*') :
    let next := { state with pi := sp + 1, starTi := state.starTi + 1, ti := state.starTi + 1 }
    next.Sound pattern text ∧ (next.Matches pattern text ↔ state.Matches pattern text) ∧
      next.turnsLeft pattern text < state.turnsLeft pattern text := by
  have inside := (List.getElem?_eq_some_iff.mp here).1
  have starTi_le := sound.starTi_le
  refine ⟨⟨show state.starTi + 1 ≤ _ by omega, le_rfl, ?_⟩, ?_, ?_⟩
  · intro sp' same
    cases star.symm.trans same
    exact ⟨Nat.lt_succ_self _, [], [], .nil, rfl, rfl⟩
  · have not_here := not_spells_here here stuck
    rw [Matches, Matches, or_iff_right not_here]
    constructor
    · rintro (read | ⟨sp', same, j, above, last, read⟩)
      · exact ⟨sp, star, state.starTi + 1, Nat.lt_succ_self _, by omega, read⟩
      · exact ⟨sp', same, j, (Nat.lt_succ_self _).trans above, last, read⟩
    · rintro ⟨sp', same, j, above, last, read⟩
      cases star.symm.trans same
      rcases Nat.eq_or_lt_of_le (Nat.succ_le_of_lt above) with rfl | above
      · exact .inl read
      · exact .inr ⟨sp, same, j, above, last, read⟩
  · have fewer : (text.length + 1 - (state.starTi + 1)) * (text.length + 2) + (text.length + 2) =
        (text.length + 1 - state.starTi) * (text.length + 2) := by
      rw [← Nat.succ_mul]
      congr 1
      omega
    simp only [turnsLeft]
    omega

end Turns

end WildcardState

theorem wildcardLoop_spec {fuel : Nat} {state : WildcardState} (sound : state.Sound pattern text)
    (enough : state.turnsLeft pattern text < fuel) :
    ∃ matched, wildcardLoop pattern text fuel state = some matched ∧
      (matched = true ↔ state.Matches pattern text) := by
  induction fuel generalizing state with
  | zero => exact absurd enough (Nat.not_lt_zero _)
  | succ fuel ih =>
    rw [wildcardLoop]
    cases here : text[state.ti]? with
    | none =>
      refine ⟨_, rfl, ?_⟩
      rw [onlyStars_iff, sound.matches_end (List.getElem?_eq_none_iff.mp here)]
    | some x =>
      dsimp only
      have symbol_takes : (pattern[state.pi]?).any (fun c => decide (TakesChar c x)) = true ↔
          ∃ c, pattern[state.pi]? = some c ∧ TakesChar c x := by
        cases pattern[state.pi]? <;> simp
      by_cases taken : (pattern[state.pi]?).any (fun c => decide (TakesChar c x)) = true
      · rw [if_pos taken]
        obtain ⟨c, symbol, taking⟩ := symbol_takes.mp taken
        obtain ⟨next, same, fewer⟩ := sound.take here symbol taking
        obtain ⟨matched, run, spells⟩ := ih next (by omega)
        exact ⟨matched, run, spells.trans same⟩
      · rw [if_neg taken]
        by_cases star : pattern[state.pi]? = some '*'
        · rw [if_pos star]
          obtain ⟨next, same, fewer⟩ := sound.star here star fun taking =>
            taken (symbol_takes.mpr ⟨_, star, taking⟩)
          obtain ⟨matched, run, spells⟩ := ih next (by omega)
          exact ⟨matched, run, spells.trans same⟩
        · rw [if_neg star]
          have stuck : ∀ c, pattern[state.pi]? = some c → ¬TakesChar c x ∧ c ≠ '*' :=
            fun c symbol => ⟨fun taking => taken (symbol_takes.mpr ⟨c, symbol, taking⟩),
              fun same => star (same ▸ symbol)⟩
          cases last : state.starPi with
          | none =>
            refine ⟨false, rfl, iff_of_false Bool.false_ne_true ?_⟩
            rintro (read | ⟨sp, same, -⟩)
            · exact WildcardState.not_spells_here here stuck read
            · rw [last] at same
              cases same
          | some sp =>
            obtain ⟨next, same, fewer⟩ := sound.again here last stuck
            rw [last] at next same fewer
            obtain ⟨matched, run, spells⟩ := ih next (by omega)
            exact ⟨matched, run, spells.trans same⟩

/-- What the loop decides: the text comes of the pattern, stars at stars replaced by themselves. -/
theorem wildcardPatternMatches_spec (pattern text : List Char) :
    ∃ matched, wildcardPatternMatches pattern text = some matched ∧
      (matched = true ↔ SpellsStars pattern text) := by
  have sound : (⟨0, 0, none, 0⟩ : WildcardState).Sound pattern text :=
    ⟨Nat.zero_le _, le_rfl, fun sp none => nomatch none⟩
  have enough : (⟨0, 0, none, 0⟩ : WildcardState).turnsLeft pattern text <
      wildcardTurns pattern text := by
    simp only [WildcardState.turnsLeft, wildcardTurns, Option.map_none, Option.getD_none, Nat.sub_zero]
    ring_nf
    omega
  obtain ⟨matched, run, spells⟩ := wildcardLoop_spec sound enough
  refine ⟨matched, run, spells.trans ?_⟩
  simp [WildcardState.Matches]

/-- The loop ends; the table decides whether the text comes of the pattern; the loop decides the same
exactly when the stars that stand at stars of the text may be replaced by themselves, so whenever the
text has no star. -/
theorem wildcard_matchers_glob (pattern text : String) :
    (indexPatternMatches pattern text = true ↔ text.toList ∈ glob pattern.toList) ∧
    ∃ matched, wildcardPatternMatches pattern.toList text.toList = some matched ∧
      ((matched = true ↔ text.toList ∈ glob pattern.toList) ↔
        (text.toList ∈ glob pattern.toList → SpellsStars pattern.toList text.toList)) ∧
      ('*' ∉ text.toList → matched = indexPatternMatches pattern text) := by
  obtain ⟨matched, run, decides⟩ := wildcardPatternMatches_spec pattern.toList text.toList
  have table := indexPatternMatches_iff pattern text
  refine ⟨table, matched, run, ?_, fun plain => ?_⟩
  · rw [decides]
    exact ⟨fun same member => same.mpr member, fun spells => ⟨mem_glob_of_spellsStars, spells⟩⟩
  · rw [Bool.eq_iff_iff, decides, table]
    exact ⟨mem_glob_of_spellsStars, spellsStars_of_mem_glob plain⟩

/- The star takes the star of the text, and is not there for the letter behind it. -/
theorem not_wildcard_matchers_glob :
    wildcardPatternMatches "*".toList "*a".toList = some false ∧ indexPatternMatches "*" "*a" = true ∧
      "*a".toList ∈ glob "*".toList := by
  have table : indexPatternMatches "*" "*a" = true := by decide +kernel
  exact ⟨by decide +kernel, table, (indexPatternMatches_iff _ _).mp table⟩

end Correctness

end Surch.Api
