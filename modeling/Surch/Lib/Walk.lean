import Mathlib.Data.List.Basic
import Mathlib.Order.Basic
import Mathlib.Data.List.Sort

/-! Forward search in an ascending list, and observations of two transition systems that
read the same inputs. `firstFrom` is characterised by what lies before it and at it, so
every searching strategy is compared with it through the same uniqueness lemma. -/
namespace Surch.Lib

/-- The outputs of a transition system along a list of inputs. -/
def trace {S A B : Type*} (step : S → A → B × S) : S → List A → List B
  | _, [] => []
  | s, a :: rest => (step s a).1 :: trace step (step s a).2 rest

/-- The state after a list of inputs. -/
def finalState {S A B : Type*} (step : S → A → B × S) : S → List A → S
  | s, [] => s
  | s, a :: rest => finalState step (step s a).2 rest

theorem finalState_invariant {S A B : Type*} {step : S → A → B × S} {holds : S → Prop}
    (preserves : ∀ s a, holds s → holds (step s a).2) {s : S} (initial : holds s)
    (inputs : List A) : holds (finalState step s inputs) := by
  induction inputs generalizing s with
  | nil => exact initial
  | cons a rest ih => exact ih (preserves s a initial)

theorem trace_append {S A B : Type*} (step : S → A → B × S) (s : S) (before after : List A) :
    trace step s (before ++ after) =
      trace step s before ++ trace step (finalState step s before) after := by
  induction before generalizing s with
  | nil => rfl
  | cons a before ih => simp [trace, finalState, ih]

/-- Two systems related up to the last input emit the same outputs on ordered inputs. -/
theorem trace_eq_of_relation {S T A B : Type*} (stepS : S → A → B × S) (stepT : T → A → B × T)
    (order : A → A → Prop) (R : A → S → T → Prop)
    (preserves : ∀ a b s t, R a s t → order a b →
      (stepS s b).1 = (stepT t b).1 ∧ R b (stepS s b).2 (stepT t b).2)
    {s : S} {t : T} {a : A} (initial : R a s t) (inputs : List A)
    (ordered : (a :: inputs).IsChain order) :
    trace stepS s inputs = trace stepT t inputs ∧
      ∃ b, R b (finalState stepS s inputs) (finalState stepT t inputs) := by
  induction inputs generalizing s t a with
  | nil => exact ⟨rfl, a, initial⟩
  | cons b rest ih =>
    rw [List.isChain_cons_cons] at ordered
    obtain ⟨same, next⟩ := preserves a b s t initial ordered.1
    obtain ⟨outputs, final⟩ := ih next ordered.2
    exact ⟨by rw [trace, trace, same, outputs], final⟩

variable {α : Type*} [LinearOrder α]

/-- The first position at or after `start` whose element is at least `target`. -/
def firstFrom (docs : List α) (target : α) (start : Nat) : Nat :=
  start + (docs.drop start).findIdx fun d => target ≤ d

theorem le_firstFrom (docs : List α) (target : α) (start : Nat) :
    start ≤ firstFrom docs target start := Nat.le_add_right _ _

theorem firstFrom_le (docs : List α) (target : α) {start : Nat} (inside : start ≤ docs.length) :
    firstFrom docs target start ≤ docs.length := by
  have bound : (docs.drop start).findIdx (fun d => decide (target ≤ d)) ≤ (docs.drop start).length :=
    List.findIdx_le_length
  rw [List.length_drop] at bound
  unfold firstFrom
  omega

theorem lt_of_lt_firstFrom (docs : List α) (target : α) {start i : Nat} (after : start ≤ i)
    (before : i < firstFrom docs target start) (inside : i < docs.length) : docs[i] < target := by
  have early : i - start < (docs.drop start).findIdx fun d => decide (target ≤ d) := by
    unfold firstFrom at before
    omega
  have missed := List.not_of_lt_findIdx early
  have same : start + (i - start) = i := by omega
  simp only [List.getElem_drop, same, decide_eq_false_iff_not, not_le] at missed
  exact missed

theorem firstFrom_le_getElem (docs : List α) (target : α) {start : Nat}
    (found : firstFrom docs target start < docs.length) :
    target ≤ docs[firstFrom docs target start] := by
  have early : (docs.drop start).findIdx (fun d => decide (target ≤ d)) <
      (docs.drop start).length := by
    rw [List.length_drop]
    unfold firstFrom at found
    omega
  have hit := List.findIdx_getElem (w := early)
  simp only [List.getElem_drop, decide_eq_true_eq] at hit
  exact hit

/-- Nothing smaller than the target may be skipped, and the search stops at the first element
that is not smaller: this determines the position. -/
theorem eq_firstFrom (docs : List α) (target : α) {start q : Nat} (after : start ≤ q)
    (bounded : q ≤ docs.length)
    (below : ∀ i, start ≤ i → i < q → ∀ inside : i < docs.length, docs[i] < target)
    (stops : ∀ inside : q < docs.length, target ≤ docs[q]) :
    firstFrom docs target start = q := by
  have reach := firstFrom_le docs target (after.trans bounded)
  rcases Nat.lt_trichotomy (firstFrom docs target start) q with early | same | late
  · have small := below _ (le_firstFrom docs target start) early (early.trans_le bounded)
    have large := firstFrom_le_getElem docs target (early.trans_le bounded)
    exact absurd large (not_le.mpr small)
  · exact same
  · have inside : q < docs.length := by omega
    have small := lt_of_lt_firstFrom docs target after late inside
    exact absurd (stops inside) (not_le.mpr small)

/-- Starting later, past elements below the target only, finds the same position. -/
theorem firstFrom_skip (docs : List α) (target : α) {start later : Nat} (ahead : start ≤ later)
    (bounded : later ≤ docs.length)
    (below : ∀ i, start ≤ i → i < later → ∀ inside : i < docs.length, docs[i] < target) :
    firstFrom docs target start = firstFrom docs target later := by
  have ahead' := le_firstFrom docs target later
  apply eq_firstFrom docs target (ahead.trans ahead') (firstFrom_le docs target bounded)
  · intro i after before inside
    by_cases early : i < later
    · exact below i after early inside
    · exact lt_of_lt_firstFrom docs target (by omega) before inside
  · exact firstFrom_le_getElem docs target

theorem lt_of_getElem? {docs : List α} (ascending : docs.Pairwise (· < ·)) {i j : Nat} {x y : α}
    (at_i : docs[i]? = some x) (at_j : docs[j]? = some y) (ordered : i < j) : x < y := by
  obtain ⟨inside_i, rfl⟩ := List.getElem?_eq_some_iff.mp at_i
  obtain ⟨inside_j, rfl⟩ := List.getElem?_eq_some_iff.mp at_j
  exact List.pairwise_iff_getElem.mp ascending i j inside_i inside_j ordered

/-- In an ascending list everything up to an element below the target is below it. -/
theorem lt_of_le_of_lt_getElem {docs : List α} {target : α} (ascending : docs.Pairwise (· < ·))
    {i j : Nat} (ordered : i ≤ j) (inside : j < docs.length) (below : docs[j] < target) :
    docs[i] < target := by
  rcases Nat.eq_or_lt_of_le ordered with rfl | earlier
  · exact below
  · exact (List.pairwise_iff_getElem.mp ascending i j (by omega) inside earlier).trans below

end Surch.Lib
