import Mathlib.Data.List.Basic

/-! Lines of text: how a text is cut at its line ends, and that lines written one after the other are
read back. -/
namespace Surch.Lib

/- A carriage return before the line end belongs to it. -/
def stripReturn (line : List Char) : List Char :=
  if line.getLast? = some '\r' then line.dropLast else line

/- The pieces between line ends; nothing after the last one is no line. -/
def lines (text : List Char) : List (List Char) :=
  let pieces := text.splitOn '\n'
  (if pieces.getLast? = some [] then pieces.dropLast else pieces).map stripReturn

/- The same where the last piece, which has no end, keeps its carriage return. -/
def textLines (text : List Char) : List (List Char) :=
  let pieces := text.splitOn '\n'
  pieces.dropLast.map stripReturn ++ (pieces.getLast?.filter fun last => last ≠ []).toList

def trimmed (blank : Char → Bool) (text : List Char) : List Char :=
  ((text.dropWhile blank).reverse.dropWhile blank).reverse

def unlines (written : List (List Char)) : List Char := written.flatMap fun line => line ++ ['\n']

/- A line that stands by itself: in one piece, and nothing blank at its ends. -/
structure IsLine (blank : Char → Bool) (line : List Char) : Prop where
  whole : '\n' ∉ line
  first : ∀ c ∈ line.head?, blank c = false
  last : ∀ c ∈ line.getLast?, blank c = false
  nonempty : line ≠ []

theorem isLine_iff (blank : Char → Bool) (line : List Char) :
    ('\n' ∉ line ∧ line.head?.all (fun c => !blank c) ∧ line.getLast?.all (fun c => !blank c) ∧
      line ≠ []) ↔ IsLine blank line := by
  simp only [Option.all_eq_true, Bool.not_eq_true']
  constructor
  · rintro ⟨whole, first, last, nonempty⟩
    exact ⟨whole, first, last, nonempty⟩
  · intro isLine
    exact ⟨isLine.whole, isLine.first, isLine.last, isLine.nonempty⟩

/- Without a quantifier over characters, all of which might be tried. -/
instance (blank : Char → Bool) (line : List Char) : Decidable (IsLine blank line) :=
  decidable_of_iff _ (isLine_iff blank line)

variable {blank : Char → Bool} {line : List Char}

theorem splitOn_unlines {written : List (List Char)} (whole : ∀ line ∈ written, '\n' ∉ line) :
    (unlines written).splitOn '\n' = written ++ [[]] := by
  induction written with
  | nil => rfl
  | cons line rest ih =>
    have here : unlines (line :: rest) = line ++ '\n' :: unlines rest := by
      simp [unlines]
    rw [here, List.splitOn_append_cons_self_of_not_mem (whole line List.mem_cons_self),
      ih fun other member => whole other (List.mem_cons_of_mem _ member)]
    rfl

theorem IsLine.stripReturn (isLine : IsLine blank line) (stripped : blank '\r' = true) :
    stripReturn line = line := by
  apply if_neg
  intro ends
  have kept := isLine.last '\r' ends
  rw [stripped] at kept
  cases kept

theorem dropWhile_of_head {text : List Char} (first : ∀ c ∈ text.head?, blank c = false) :
    text.dropWhile blank = text := by
  cases text with
  | nil => rfl
  | cons c rest => exact List.dropWhile_cons_of_neg (by simp [first c rfl])

theorem IsLine.trimmed (isLine : IsLine blank line) : trimmed blank line = line := by
  have back : ∀ c ∈ line.reverse.head?, blank c = false := by
    rw [List.head?_reverse]
    exact isLine.last
  rw [Surch.Lib.trimmed, dropWhile_of_head isLine.first, dropWhile_of_head back, List.reverse_reverse]

theorem lines_unlines (stripped : blank '\r' = true) {written : List (List Char)}
    (standing : ∀ line ∈ written, IsLine blank line) : lines (unlines written) = written := by
  rw [lines, splitOn_unlines fun line member => (standing line member).whole]
  rw [if_pos List.getLast?_concat, List.dropLast_concat]
  have same : ∀ line ∈ written, Surch.Lib.stripReturn line = line := fun line member =>
    (standing line member).stripReturn stripped
  exact List.map_congr_left same |>.trans (List.map_id _)

end Surch.Lib
