import Surch.Lib.Walk
import Mathlib.Data.List.Sort

/-! A forward cursor that consumes the entry it lands on, asked for ascending keys. A key of its
list is still there when it is asked for exactly when the list kept pace: between every earlier
question and the key it holds as many entries as were asked for. -/
namespace Surch.Lib.Pace
open Surch.Lib

variable {α : Type} [LinearOrder α]

/- The entries from one key up to, but not including, another. -/
def countWithin (list : List α) (low high : α) : Nat :=
  list.countP fun entry => decide (low ≤ entry) && decide (entry < high)

def countBelow (list : List α) (key : α) : Nat := list.countP fun entry => entry < key

def KeepsPace (asked list : List α) (key : α) : Prop :=
  ∀ earlier ∈ asked, earlier < key → countWithin asked earlier key ≤ countWithin list earlier key

instance (asked list : List α) (key : α) : Decidable (KeepsPace asked list key) :=
  inferInstanceAs (Decidable (∀ earlier ∈ asked,
    earlier < key → countWithin asked earlier key ≤ countWithin list earlier key))

def answered (asked list : List α) : List α :=
  asked.filter fun key => key ∈ list ∧ KeepsPace asked list key

def answeredByAll (asked : List α) (lists : List (List α)) : List α := lists.foldl answered asked

def PacedThrough (key : α) : (asked : List α) → List (List α) → Prop
  | _, [] => True
  | asked, list :: lists => KeepsPace asked list key ∧ PacedThrough key (answered asked list) lists

theorem mem_answered {asked list : List α} {key : α} :
    key ∈ answered asked list ↔ key ∈ asked ∧ key ∈ list ∧ KeepsPace asked list key := by
  simp [answered]

theorem mem_answeredByAll {asked : List α} {lists : List (List α)} {key : α} :
    key ∈ answeredByAll asked lists ↔
      key ∈ asked ∧ (∀ list ∈ lists, key ∈ list) ∧ PacedThrough key asked lists := by
  induction lists generalizing asked with
  | nil => simp [answeredByAll, PacedThrough]
  | cons list lists ih =>
    have step : answeredByAll asked (list :: lists) = answeredByAll (answered asked list) lists := rfl
    rw [step, ih, mem_answered, PacedThrough, List.forall_mem_cons]
    tauto

theorem answeredByAll_sublist (asked : List α) (lists : List (List α)) :
    (answeredByAll asked lists).Sublist asked := by
  induction lists generalizing asked with
  | nil => exact List.Sublist.refl _
  | cons list lists ih => exact (ih _).trans List.filter_sublist

section Counts

variable {list : List α} {key : α}

theorem countBelow_le_length (list : List α) (key : α) : countBelow list key ≤ list.length :=
  List.countP_le_length

theorem countWithin_add (list : List α) {low high : α} (ordered : low ≤ high) :
    countBelow list low + countWithin list low high = countBelow list high := by
  induction list with
  | nil => rfl
  | cons entry list ih =>
    simp only [countBelow, countWithin, List.countP_cons] at ih ⊢
    by_cases below : entry < low
    · have under : entry < high := below.trans_le ordered
      simp [below, under, not_le.mpr below]
      omega
    · have above : low ≤ entry := not_lt.mp below
      by_cases under : entry < high
      · simp [below, above, under]
        omega
      · simp [below, under]
        omega

theorem lt_countBelow_iff (ascending : list.Pairwise (· < ·)) {i : Nat} (inside : i < list.length) :
    i < countBelow list key ↔ list[i] < key := by
  induction list generalizing i with
  | nil => simp at inside
  | cons entry list ih =>
    obtain ⟨first, rest⟩ := List.pairwise_cons.mp ascending
    by_cases below : entry < key
    · have counted : countBelow (entry :: list) key = countBelow list key + 1 := by
        simp [countBelow, below]
      rw [counted]
      cases i with
      | zero => simp [below]
      | succ i =>
        have later := ih rest (Nat.lt_of_succ_lt_succ inside)
        simpa using later
    · have nothing : countBelow (entry :: list) key = 0 := by
        simp only [countBelow, List.countP_eq_zero, decide_eq_true_eq]
        intro other member
        rcases List.mem_cons.mp member with rfl | later
        · exact below
        · exact fun less => below ((first other later).trans less)
      have above : ¬ (entry :: list)[i] < key := by
        have bounds : entry ≤ (entry :: list)[i] := by
          cases i with
          | zero => exact le_rfl
          | succ i => exact (first _ (List.getElem_mem _)).le
        exact fun less => below (bounds.trans_lt less)
      simp [nothing, above]

theorem countBelow_getElem (ascending : list.Pairwise (· < ·)) {i : Nat} (inside : i < list.length) :
    countBelow list list[i] = i := by
  rcases Nat.lt_trichotomy (countBelow list list[i]) i with less | same | more
  · have below : list[countBelow list list[i]] < list[i] :=
      List.pairwise_iff_getElem.mp ascending _ _ _ _ less
    exact absurd ((lt_countBelow_iff ascending (less.trans inside)).mpr below) (lt_irrefl _)
  · exact same
  · exact absurd ((lt_countBelow_iff ascending inside).mp more) (lt_irrefl _)

theorem getElem?_countBelow_iff (ascending : list.Pairwise (· < ·)) :
    list[countBelow list key]? = some key ↔ key ∈ list := by
  constructor
  · exact List.mem_of_getElem?
  · intro member
    obtain ⟨i, inside, rfl⟩ := List.getElem_of_mem member
    rw [countBelow_getElem ascending inside, List.getElem?_eq_getElem inside]

theorem firstFrom_eq_max (ascending : list.Pairwise (· < ·)) {start : Nat}
    (inside : start ≤ list.length) :
    firstFrom list key start = max start (countBelow list key) := by
  have few := countBelow_le_length list key
  apply eq_firstFrom
  · exact le_max_left _ _
  · exact max_le inside few
  · intro i low high bound
    exact (lt_countBelow_iff ascending bound).mp (by omega)
  · intro bound
    by_contra less
    have early := (lt_countBelow_iff ascending bound).mpr (not_le.mp less)
    omega

end Counts

/- Where a cursor over an ascending list stands after these questions. -/
structure Consumed (list asked : List α) (position : Nat) : Prop where
  bounded : position ≤ list.length
  reaches : ∀ n < list.length, position ≤ n ↔
    ∀ earlier ∈ asked, countBelow list earlier + asked.countP (fun key => earlier ≤ key) ≤ n

namespace Consumed

variable {list asked : List α} {position : Nat} {key : α}

theorem start (list : List α) : Consumed list [] 0 where
  bounded := Nat.zero_le _
  reaches n _ := by simp

theorem ask (consumed : Consumed list asked position) (ascending : list.Pairwise (· < ·))
    (later : ∀ earlier ∈ asked, earlier < key) :
    Consumed list (asked ++ [key]) (min (firstFrom list key position + 1) list.length) where
  bounded := Nat.min_le_right _ _
  reaches := by
    intro n inside
    have before : ∀ earlier ∈ asked, (asked ++ [key]).countP (fun other => earlier ≤ other) =
        asked.countP (fun other => earlier ≤ other) + 1 := by
      intro earlier member
      simp [List.countP_append, (later earlier member).le]
    have own : (asked ++ [key]).countP (fun other => key ≤ other) = 1 := by
      have none_later : asked.countP (fun other => key ≤ other) = 0 := by
        rw [List.countP_eq_zero]
        intro earlier member
        simpa using later earlier member
      simp [List.countP_append, none_later]
    rw [firstFrom_eq_max ascending consumed.bounded]
    simp only [List.forall_mem_append, List.forall_mem_singleton, own]
    cases n with
    | zero =>
      constructor
      · intro impossible
        omega
      · rintro ⟨-, impossible⟩
        omega
    | succ n =>
      have previous := consumed.reaches n (by omega)
      constructor
      · intro reached
        have kept := previous.mp (by omega)
        refine ⟨fun earlier member => ?_, by omega⟩
        have bound := kept earlier member
        rw [before earlier member]
        omega
      · rintro ⟨all, last⟩
        have kept : position ≤ n := previous.mpr fun earlier member => by
          have bound := all earlier member
          rw [before earlier member] at bound
          omega
        omega

theorem hit_iff (consumed : Consumed list asked position) (ascending : list.Pairwise (· < ·))
    (later : ∀ earlier ∈ asked, earlier < key) :
    list[firstFrom list key position]? = some key ↔ key ∈ list ∧ KeepsPace asked list key := by
  rw [firstFrom_eq_max ascending consumed.bounded]
  have all_within : ∀ earlier ∈ asked,
      asked.countP (fun other => earlier ≤ other) = countWithin asked earlier key := by
    intro earlier member
    apply List.countP_congr
    intro other member'
    simp [later other member']
  have pace : ∀ (member : key ∈ list), position ≤ countBelow list key ↔ KeepsPace asked list key := by
    intro member
    obtain ⟨i, inside, rfl⟩ := List.getElem_of_mem member
    have place : countBelow list list[i] < list.length := by
      rwa [countBelow_getElem ascending inside]
    rw [consumed.reaches _ place]
    apply forall₂_congr
    intro earlier asked_earlier
    have below := later earlier asked_earlier
    have total := countWithin_add list below.le
    rw [all_within earlier asked_earlier]
    simp only [below, true_implies]
    omega
  constructor
  · intro found
    have member := List.mem_of_getElem? found
    refine ⟨member, (pace member).mp ?_⟩
    obtain ⟨inside, value⟩ := List.getElem?_eq_some_iff.mp found
    have exact_place := countBelow_getElem ascending inside
    rw [value] at exact_place
    omega
  · rintro ⟨member, kept⟩
    rw [max_eq_right ((pace member).mpr kept)]
    exact (getElem?_countBelow_iff ascending).mpr member

end Consumed

section Questions

variable {asked later list : List α} {key : α}

theorem keepsPace_append (most : ∀ other ∈ later, key ≤ other) :
    KeepsPace (asked ++ later) list key ↔ KeepsPace asked list key := by
  have counts : ∀ low, countWithin (asked ++ later) low key = countWithin asked low key := by
    intro low
    have nothing : countWithin later low key = 0 := by
      simp only [countWithin, List.countP_eq_zero, Bool.and_eq_true, decide_eq_true_eq, not_and,
        not_lt]
      exact fun other member _ => most other member
    simp only [countWithin, List.countP_append] at nothing ⊢
    omega
  simp only [KeepsPace, List.forall_mem_append, counts]
  constructor
  · exact fun kept => kept.1
  · exact fun kept => ⟨kept, fun other member below => absurd below (not_lt.mpr (most other member))⟩

theorem answered_append (ordered : ∀ earlier ∈ asked, ∀ other ∈ later, earlier < other) :
    ∃ more, answered (asked ++ later) list = answered asked list ++ more ∧ more.Sublist later := by
  refine ⟨later.filter fun key => key ∈ list ∧ KeepsPace (asked ++ later) list key, ?_,
    List.filter_sublist⟩
  rw [answered, List.filter_append]
  congr 1
  apply List.filter_congr
  intro earlier member
  have same := @keepsPace_append _ _ asked later list earlier fun other member' =>
    (ordered earlier member other member').le
  simp [same]

theorem answered_snoc (ordered : ∀ earlier ∈ asked, earlier < key) :
    answered (asked ++ [key]) list =
      answered asked list ++ if key ∈ list ∧ KeepsPace asked list key then [key] else [] := by
  have own := @keepsPace_append _ _ asked [key] list key (by simp)
  have before : answered asked list =
      asked.filter fun other => other ∈ list ∧ KeepsPace (asked ++ [key]) list other := by
    apply List.filter_congr
    intro earlier member
    have same := @keepsPace_append _ _ asked [key] list earlier (by simpa using (ordered earlier member).le)
    simp [same]
  rw [before, answered, List.filter_append, List.filter_singleton]
  simp [own]

/-- A key that was asked for is answered by all lists or not, whatever is asked afterwards. -/
theorem mem_answeredByAll_append {lists : List (List α)}
    (ordered : ∀ earlier ∈ asked, ∀ other ∈ later, earlier < other) (member : key ∈ asked) :
    key ∈ answeredByAll (asked ++ later) lists ↔ key ∈ answeredByAll asked lists := by
  have fresh : key ∉ later := fun inside => lt_irrefl key (ordered key member key inside)
  clear member
  induction lists generalizing asked later with
  | nil => simp [answeredByAll, fresh]
  | cons list lists ih =>
    obtain ⟨more, split, part⟩ := @answered_append _ _ asked later list ordered
    have step : ∀ questions : List α, answeredByAll questions (list :: lists) =
        answeredByAll (answered questions list) lists := fun _ => rfl
    rw [step, step, split]
    apply ih
    · intro earlier inside other inside'
      exact ordered earlier (List.mem_filter.mp inside).1 other (part.subset inside')
    · exact fun inside => fresh (part.subset inside)

end Questions

end Surch.Lib.Pace
