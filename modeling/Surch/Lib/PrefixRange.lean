import Mathlib.Data.List.Lex
import Mathlib.Order.Lattice

/-! The words that start with a prefix as a range of the lexicographic order: from the prefix up to the
least word above all of its extensions. -/
namespace Surch.Lib

variable {α : Type} (next : α → Option α)

/- The last letter that has a next one is raised, and those behind it are dropped; the word is given
from its end. -/
def raiseLast : List α → Option (List α)
  | [] => none
  | letter :: before =>
    match next letter with
    | some raised => some (raised :: before).reverse
    | none => raiseLast before

def upperBound (start : List α) : Option (List α) := raiseLast next start.reverse

variable [LinearOrder α]

variable {next}

end Surch.Lib
