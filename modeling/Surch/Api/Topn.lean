import Surch.Lib.BinarySearch
import Surch.Lib.TopN

/-! `topn.rs` and `topk.rs`: a bounded collector that keeps its items sorted, the order of scored pairs,
and the threshold that skips what the collector would refuse. -/
namespace Surch.Api.Topn
open Surch.Lib BinarySearch

section Collector

variable {α : Type}

structure TopN (α : Type) where
  capacity : Nat
  data : List α
  cmp : α → α → Ordering

namespace TopN

def new (capacity : Nat) (cmp : α → α → Ordering) : TopN α := { capacity, data := [], cmp }

@[simp] theorem new_capacity (capacity : Nat) (cmp : α → α → Ordering) :
    (new capacity cmp).capacity = capacity := rfl

@[simp] theorem new_cmp (capacity : Nat) (cmp : α → α → Ordering) : (new capacity cmp).cmp = cmp := rfl

variable (top : TopN α) (item : α)

def insert : List α :=
  top.data.insertIdx (BinarySearch.position (fun probe => top.cmp probe item) top.data) item

variable {top} in
theorem ne_nil_of_full (some : ¬ top.capacity = 0) (full : ¬ top.data.length < top.capacity) :
    top.data ≠ [] := by
  intro empty
  rw [empty, List.length_nil] at full
  omega

def push : TopN α :=
  if none : top.capacity = 0 then top
  else if room : top.data.length < top.capacity then { top with data := top.insert item }
  else if top.cmp item (top.data.getLast (ne_nil_of_full none room)) ≠ .lt then top
  else { top with data := (top.insert item).take top.capacity }

def worstWhenFull : Option α :=
  if top.capacity = 0 ∨ top.data.length < top.capacity then none else top.data.getLast?

def intoSortedVec : List α := top.data

def pushAll (items : List α) : TopN α := items.foldl push top

@[simp] theorem push_capacity : (top.push item).capacity = top.capacity := by
  unfold push
  split_ifs <;> rfl

@[simp] theorem push_cmp : (top.push item).cmp = top.cmp := by
  unfold push
  split_ifs <;> rfl

@[simp] theorem pushAll_capacity (items : List α) : (top.pushAll items).capacity = top.capacity := by
  induction items generalizing top with
  | nil => rfl
  | cons item rest ih => exact (ih (top.push item)).trans (push_capacity top item)

@[simp] theorem pushAll_cmp (items : List α) : (top.pushAll items).cmp = top.cmp := by
  induction items generalizing top with
  | nil => rfl
  | cons item rest ih => exact (ih (top.push item)).trans (push_cmp top item)

theorem pushAll_append (before after : List α) :
    top.pushAll (before ++ after) = (top.pushAll before).pushAll after :=
  List.foldl_append

theorem pushAll_concat (items : List α) :
    top.pushAll (items ++ [item]) = (top.pushAll items).push item :=
  top.pushAll_append items [item]

variable {top item} {front back : List α}

theorem insert_append (kept : top.data = front ++ back) (below : ∀ x ∈ front, top.cmp x item = .lt)
    (above : ∀ x ∈ back, top.cmp x item = .gt) : top.insert item = front ++ item :: back := by
  unfold insert
  rw [kept, BinarySearch.position_append below above]
  clear kept below above
  induction front with
  | nil => rfl
  | cons head tail ih =>
    rw [List.cons_append, List.length_cons, List.insertIdx_succ_cons, ih]
    rfl

/-- A push keeps the front of everything: of what was sorted, with the item between its parts. -/
theorem push_data (kept : top.data = (front ++ back).take top.capacity)
    (below : ∀ x ∈ front, top.cmp x item = .lt) (above : ∀ x ∈ back, top.cmp x item = .gt)
    (loses : ∀ x ∈ front, top.cmp item x ≠ .lt) (wins : ∀ x ∈ back, top.cmp item x = .lt) :
    (top.push item).data = (front ++ item :: back).take top.capacity := by
  have long : top.data.length = min top.capacity (front ++ back).length := by
    rw [kept, List.length_take]
  by_cases none : top.capacity = 0
  · rw [push, dif_pos none, kept, none, List.take_zero, List.take_zero]
  by_cases room : top.data.length < top.capacity
  · have short : (front ++ back).length < top.capacity := by omega
    rw [List.take_of_length_le short.le] at kept
    rw [push, dif_neg none, dif_pos room, List.take_of_length_le]
    · exact insert_append kept below above
    · rw [List.length_append, List.length_cons]
      rw [List.length_append] at short
      omega
  · rw [push, dif_neg none, dif_neg room]
    by_cases inside : top.capacity ≤ front.length
    · -- the last slot is before the item
      have last := List.getLast_mem (ne_nil_of_full none room)
      generalize top.data.getLast _ = worst at last ⊢
      rw [List.take_append_of_le_length inside] at kept ⊢
      rw [kept] at last
      rw [if_pos (loses worst (List.mem_of_mem_take last))]
      exact kept
    · obtain ⟨space, split⟩ := Nat.exists_eq_add_of_lt (Nat.lt_of_not_le inside)
      rw [List.length_append] at long
      have parts : top.data = front ++ back.take (space + 1) := by
        rw [kept, split, Nat.add_assoc, List.take_length_add_append]
      have nonempty : back.take (space + 1) ≠ [] := by
        intro empty
        rw [parts, empty, List.append_nil] at long room
        omega
      have last : top.data.getLast (ne_nil_of_full none room) ∈ back.take (space + 1) := by
        rw [List.getLast_congr _ (by simp [nonempty]) parts, List.getLast_append_of_ne_nil _ nonempty]
        exact List.getLast_mem nonempty
      have beats := wins _ (List.mem_of_mem_take last)
      rw [if_neg (not_not.mpr beats)]
      dsimp only
      rw [insert_append parts below fun x member => above x (List.mem_of_mem_take member)]
      rw [split, Nat.add_assoc, List.take_length_add_append, List.take_length_add_append,
        List.take_succ_cons, List.take_succ_cons, List.take_take, Nat.min_eq_left (Nat.le_succ space)]

theorem mem_push {x : α} (member : x ∈ (top.push item).data) : x = item ∨ x ∈ top.data := by
  have inserted : x ∈ top.insert item → x = item ∨ x ∈ top.data :=
    (List.mem_insertIdx BinarySearch.position_le).mp
  unfold push at member
  split_ifs at member
  · exact .inr member
  · exact inserted member
  · exact .inr member
  · exact inserted (List.mem_of_mem_take member)

theorem worstWhenFull_eq_none_iff :
    top.worstWhenFull = none ↔ top.capacity = 0 ∨ top.data.length < top.capacity := by
  unfold worstWhenFull
  split
  · rename_i short
    exact ⟨fun _ => short, fun _ => rfl⟩
  · rename_i long
    obtain ⟨some, room⟩ := not_or.mp long
    rw [List.getLast?_eq_some_getLast (ne_nil_of_full some room)]
    exact ⟨nofun, fun short => absurd short long⟩

theorem worstWhenFull_push (room : (top.push item).worstWhenFull = none) : top.worstWhenFull = none := by
  rw [worstWhenFull_eq_none_iff, push_capacity] at room
  rw [worstWhenFull_eq_none_iff]
  rcases room with none | short
  · exact .inl none
  · have inserted : (top.insert item).length = top.data.length + 1 :=
      List.length_insertIdx_of_le_length BinarySearch.position_le item
    unfold push at short
    split_ifs at short with none room
    · exact .inl none
    · exact .inr room
    · exact .inr short
    · dsimp only at short
      rw [List.length_take] at short
      omega

theorem mem_pushAll {items : List α} {x : α} (member : x ∈ (top.pushAll items).data) :
    x ∈ items ∨ x ∈ top.data := by
  induction items generalizing top with
  | nil => exact .inr member
  | cons head rest ih =>
    rcases ih member with later | kept
    · exact .inl (List.mem_cons_of_mem _ later)
    · rcases mem_push kept with rfl | before
      · exact .inl List.mem_cons_self
      · exact .inr before

end TopN

variable {cmp : α → α → Ordering} {capacity : Nat} {items : List α}

/-- After any run the collector holds the front of what was pushed, sorted. -/
theorem pushAll_data (order : StrictTotalOn cmp items) (distinct : items.Nodup) :
    ∃ sorted, Sorts cmp items sorted ∧
      ((TopN.new capacity cmp).pushAll items).data = sorted.take capacity := by
  induction items using List.reverseRecOn with
  | nil => exact ⟨[], ⟨.nil, .nil⟩, List.take_nil.symm⟩
  | append_singleton before item ih =>
    have earlier : StrictTotalOn cmp before := order.of_subset (List.subset_append_left _ _)
    obtain ⟨others, -, apart⟩ := List.nodup_append.mp distinct
    have new : item ∉ before := fun member => apart item member item List.mem_cons_self rfl
    obtain ⟨sorted, sorts, kept⟩ := ih earlier others
    have inside : ∀ x ∈ sorted, x ∈ before ++ [item] := fun x member =>
      List.mem_append_left _ (sorts.perm.subset member)
    have here : item ∈ before ++ [item] := by simp
    have around : StrictTotalOn cmp (item :: sorted) := order.of_subset (by
      intro x member
      rcases List.mem_cons.mp member with rfl | member
      · exact here
      · exact inside x member)
    obtain ⟨front, back, rfl, below, above⟩ :=
      exists_split around (fun member => new (sorts.perm.subset member)) sorts.ordered
    refine ⟨front ++ item :: back, sorts.insert order below above, ?_⟩
    rw [TopN.pushAll_concat]
    have placed := @TopN.push_data _ ((TopN.new capacity cmp).pushAll before) item front back
    rw [TopN.pushAll_capacity, TopN.pushAll_cmp] at placed
    refine placed kept below above ?_ ?_
    · intro x member less
      have more := (order.gt_iff (inside x (List.mem_append_left _ member)) here).mpr less
      rw [below x member] at more
      cases more
    · intro x member
      exact (order.gt_iff (inside x (List.mem_append_right _ member)) here).mp (above x member)

/-- What is pushed later leaves the sorted items in their order. -/
theorem exists_sorts_append {before after sorted : List α} (order : StrictTotalOn cmp (before ++ after))
    (distinct : (before ++ after).Nodup) (sorts : Sorts cmp before sorted) :
    ∃ all, Sorts cmp (before ++ after) all ∧ sorted.Sublist all := by
  induction after using List.reverseRecOn with
  | nil => exact ⟨sorted, by rwa [List.append_nil], .refl _⟩
  | append_singleton more item ih =>
    rw [← List.append_assoc] at order distinct ⊢
    obtain ⟨others, -, apart⟩ := List.nodup_append.mp distinct
    have new : item ∉ before ++ more := fun member => apart item member item List.mem_cons_self rfl
    obtain ⟨all, sorts', sub⟩ := ih (order.of_subset (List.subset_append_left _ _)) others
    have around : StrictTotalOn cmp (item :: all) := order.of_subset (by
      intro x member
      rcases List.mem_cons.mp member with rfl | member
      · simp
      · exact List.mem_append_left _ (sorts'.perm.subset member))
    obtain ⟨front, back, rfl, below, above⟩ :=
      exists_split around (fun member => new (sorts'.perm.subset member)) sorts'.ordered
    refine ⟨front ++ item :: back, sorts'.insert order below above, sub.trans ?_⟩
    exact (List.sublist_cons_self item back).append_left front

/-- The worst of a full collector is the item whose rank is the capacity. -/
theorem worstWhenFull_pushAll (order : StrictTotalOn cmp items) (distinct : items.Nodup) {sorted : List α}
    (sorts : Sorts cmp items sorted) :
    ((TopN.new capacity cmp).pushAll items).worstWhenFull =
      if capacity = 0 then none else sorted[capacity - 1]? := by
  obtain ⟨other, sorts', kept⟩ := @pushAll_data _ _ capacity _ order distinct
  obtain rfl := sorts.unique order sorts'
  unfold TopN.worstWhenFull
  rw [TopN.pushAll_capacity, TopN.new_capacity, kept]
  by_cases none : capacity = 0
  · rw [if_pos (.inl none), if_pos none]
  · rw [if_neg none]
    by_cases room : (sorted.take capacity).length < capacity
    · rw [if_pos (.inr room)]
      rw [List.length_take] at room
      rw [List.getElem?_eq_none (by omega)]
    · rw [if_neg (not_or.mpr ⟨none, room⟩), List.getLast?_eq_getElem?]
      rw [List.length_take] at room ⊢
      have full : min capacity sorted.length = capacity := by omega
      rw [full, List.getElem?_take_of_lt (by omega)]

structure BoundedSort (cmp : α → α → Ordering) (capacity : Nat) (items : List α) : Prop where
  result : ∃ sorted, Sorts cmp items sorted ∧
    ((TopN.new capacity cmp).pushAll items).intoSortedVec = sorted.take capacity
  armed : ∀ before after, items = before ++ after →
    (((TopN.new capacity cmp).pushAll before).worstWhenFull.isSome ↔
      1 ≤ capacity ∧ capacity ≤ before.length)
  kthBest : ∀ before after, items = before ++ after →
    ∀ worst ∈ ((TopN.new capacity cmp).pushAll before).worstWhenFull,
      ∃ sorted, Sorts cmp before sorted ∧ sorted[capacity - 1]? = some worst
  rises : ∀ before more after, items = before ++ more ++ after →
    ∀ worst ∈ ((TopN.new capacity cmp).pushAll before).worstWhenFull,
      ∃ later ∈ ((TopN.new capacity cmp).pushAll (before ++ more)).worstWhenFull, cmp later worst ≠ .gt

theorem boundedSort (order : StrictTotalOn cmp items) (distinct : items.Nodup) :
    BoundedSort cmp capacity items := by
  refine ⟨pushAll_data order distinct, ?_, ?_, ?_⟩
  · rintro before after rfl
    have order' : StrictTotalOn cmp before := order.of_subset (List.subset_append_left _ _)
    have distinct' := (List.nodup_append.mp distinct).1
    obtain ⟨sorted, sorts, -⟩ := @pushAll_data _ _ capacity _ order' distinct'
    rw [worstWhenFull_pushAll order' distinct' sorts]
    have same := sorts.perm.length_eq
    split
    · simp
      omega
    · rw [Option.isSome_iff_ne_none, Ne, List.getElem?_eq_none_iff]
      omega
  · rintro before after rfl worst full
    have order' : StrictTotalOn cmp before := order.of_subset (List.subset_append_left _ _)
    have distinct' := (List.nodup_append.mp distinct).1
    obtain ⟨sorted, sorts, -⟩ := @pushAll_data _ _ capacity _ order' distinct'
    rw [worstWhenFull_pushAll order' distinct' sorts] at full
    split at full
    · cases full
    · exact ⟨sorted, sorts, full⟩
  · rintro before more after rfl worst full
    have order' : StrictTotalOn cmp (before ++ more) := order.of_subset (List.subset_append_left _ _)
    have distinct' := (List.nodup_append.mp distinct).1
    have first : StrictTotalOn cmp before := order'.of_subset (List.subset_append_left _ _)
    have first' := (List.nodup_append.mp distinct').1
    obtain ⟨sorted, sorts, -⟩ := @pushAll_data _ _ capacity _ first first'
    obtain ⟨all, sorts', sub⟩ := exists_sorts_append order' distinct' sorts
    rw [worstWhenFull_pushAll first first' sorts] at full
    rw [worstWhenFull_pushAll order' distinct' sorts']
    split at full
    · cases full
    · rename_i some
      rw [if_neg some]
      exact rank_le_of_sublist (order'.of_subset sorts'.perm.subset) sorts'.ordered sub full

end Collector

section Pairs

variable {Score : Type}

/- What `PartialOrd` asks of the scores. A NaN compares with nothing. -/
structure PartialOrd (Score : Type) where
  partialCmp : Score → Score → Option Ordering
  dual : ∀ a b, partialCmp b a = (partialCmp a b).map Ordering.swap

namespace PartialOrd

variable (scores : PartialOrd Score)

def gt (a b : Score) : Bool := scores.partialCmp a b = some .gt

def scoredPairOrdering (a b : Score × Nat) : Ordering :=
  ((scores.partialCmp b.1 a.1).getD .eq).then (compare a.2 b.2)

def ofLinearOrder [LinearOrder Score] : PartialOrd Score where
  partialCmp a b := some (compare a b)
  dual _ _ := congrArg some Std.OrientedCmp.eq_swap

end PartialOrd

structure MinCompetitiveScore (Score : Type) where
  kthBest : Option Score

namespace MinCompetitiveScore

def unset : MinCompetitiveScore Score := ⟨none⟩

def observeKthBest (_ : MinCompetitiveScore Score) (kthBestScore : Score) : MinCompetitiveScore Score :=
  ⟨some kthBestScore⟩

def admits (scores : PartialOrd Score) (min : MinCompetitiveScore Score) (scoreUpperBound : Score) : Bool :=
  match min.kthBest with
  | none => true
  | some kthBest => scores.gt scoreUpperBound kthBest

end MinCompetitiveScore

structure Walk (Score : Type) where
  topn : TopN (Score × Nat)
  minCompetitive : MinCompetitiveScore Score

namespace Walk

variable (scores : PartialOrd Score)

def new (capacity : Nat) : Walk Score := ⟨.new capacity scores.scoredPairOrdering, .unset⟩

/- One pair. Where the walk looks at the threshold, it skips a pair that is not admitted. -/
def offer (walk : Walk Score) (turn : (Score × Nat) × Bool) : Walk Score :=
  if turn.2 && !walk.minCompetitive.admits scores turn.1.1 then walk
  else
    let topn := walk.topn.push turn.1
    { topn
      minCompetitive :=
        match topn.worstWhenFull with
        | some kthBest => walk.minCompetitive.observeKthBest kthBest.1
        | none => walk.minCompetitive }

end Walk

variable {scores : PartialOrd Score}

theorem strictTotalOn_scoredPairOrdering [LinearOrder Score] (pairs : List (Score × Nat)) :
    StrictTotalOn (@PartialOrd.ofLinearOrder Score _).scoredPairOrdering pairs where
  swap a _ b _ := by
    change (compare a.1 b.1).then (compare b.2 a.2) = ((compare b.1 a.1).then (compare a.2 b.2)).swap
    rw [Ordering.swap_then, ← Std.OrientedCmp.eq_swap, ← Std.OrientedCmp.eq_swap]
  eq_of a _ b _ same := by
    change (compare b.1 a.1).then (compare a.2 b.2) = .eq at same
    obtain ⟨score, docId⟩ := Ordering.then_eq_eq.mp same
    exact Prod.ext (compare_eq_iff_eq.mp score).symm (compare_eq_iff_eq.mp docId)
  trans a _ b _ c _ first second := by
    change (compare b.1 a.1).then (compare a.2 b.2) = .lt at first
    change (compare c.1 b.1).then (compare b.2 c.2) = .lt at second
    change (compare c.1 a.1).then (compare a.2 c.2) = .lt
    simp only [Ordering.then_eq_lt, compare_lt_iff_lt, compare_eq_iff_eq] at first second ⊢
    rcases first with more | ⟨same, less⟩ <;> rcases second with more' | ⟨same', less'⟩
    · exact .inl (more'.trans more)
    · exact .inl (same' ▸ more)
    · exact .inl (same ▸ more')
    · exact .inr ⟨same'.trans same, less.trans less'⟩

/-- A later pair that does not exceed the worst score is behind the worst pair. -/
theorem scoredPairOrdering_of_not_gt {item worst : Score × Nat} (later : worst.2 < item.2)
    (under : scores.gt item.1 worst.1 = false) : scores.scoredPairOrdering item worst ≠ .lt := by
  have more : compare item.2 worst.2 = .gt := compare_gt_iff_gt.mpr later
  have dual := scores.dual worst.1 item.1
  unfold PartialOrd.scoredPairOrdering
  rw [more]
  cases compared : scores.partialCmp worst.1 item.1 with
  | none => decide
  | some order =>
    cases order with
    | eq => decide
    | gt => decide
    | lt =>
      rw [compared] at dual
      unfold PartialOrd.gt at under
      rw [dual] at under
      exact absurd under (by decide)

theorem push_of_not_gt {top : TopN (Score × Nat)} {item worst : Score × Nat}
    (compares : top.cmp = scores.scoredPairOrdering) (full : top.worstWhenFull = some worst)
    (later : worst.2 < item.2) (under : scores.gt item.1 worst.1 = false) : top.push item = top := by
  unfold TopN.worstWhenFull at full
  split at full
  · cases full
  · rename_i long
    obtain ⟨some, room⟩ := not_or.mp long
    have last : top.data.getLast (TopN.ne_nil_of_full some room) = worst := by
      rw [List.getLast?_eq_some_getLast (TopN.ne_nil_of_full some room)] at full
      exact Option.some.inj full
    rw [TopN.push, dif_neg some, dif_neg room, last, compares]
    exact if_pos (scoredPairOrdering_of_not_gt later under)

/- What the walk keeps: the collector of all the pairs so far, and the score of its worst. -/
structure Follows (scores : PartialOrd Score) (capacity : Nat) (pairs : List (Score × Nat))
    (walk : Walk Score) : Prop where
  topn : walk.topn = (TopN.new capacity scores.scoredPairOrdering).pushAll pairs
  threshold : walk.minCompetitive.kthBest = walk.topn.worstWhenFull.map Prod.fst

theorem Follows.offer {capacity : Nat} {pairs : List (Score × Nat)} {walk : Walk Score}
    {item : Score × Nat} (follows : Follows scores capacity pairs walk)
    (later : ∀ pair ∈ pairs, pair.2 < item.2) (looks : Bool) :
    Follows scores capacity (pairs ++ [item]) (walk.offer scores (item, looks)) := by
  obtain ⟨topn, minCompetitive⟩ := walk
  obtain ⟨rfl, threshold⟩ := follows
  dsimp only at threshold
  unfold Walk.offer
  dsimp only
  split
  · -- the pair is skipped, and the collector would have refused it
    rename_i skipped
    have refused : minCompetitive.admits scores item.1 = false := by
      revert skipped
      cases looks <;> simp
    unfold MinCompetitiveScore.admits at refused
    rw [threshold] at refused
    cases full : ((TopN.new capacity scores.scoredPairOrdering).pushAll pairs).worstWhenFull with
    | none =>
      rw [full] at refused
      cases refused
    | some worst =>
      rw [full] at refused
      have inside : worst ∈ ((TopN.new capacity scores.scoredPairOrdering).pushAll pairs).data := by
        unfold TopN.worstWhenFull at full
        split at full
        · cases full
        · exact List.mem_of_getLast? full
      have offered : worst ∈ pairs := (TopN.mem_pushAll inside).resolve_right List.not_mem_nil
      have same := push_of_not_gt (TopN.pushAll_cmp _ _) full (later worst offered) refused
      refine ⟨?_, threshold⟩
      rw [TopN.pushAll_concat]
      exact same.symm
  · refine ⟨(TopN.pushAll_concat _ _ _).symm, ?_⟩
    dsimp only
    cases full : (TopN.push _ item).worstWhenFull with
    | none => rw [threshold, TopN.worstWhenFull_push full]
    | some worst => rfl

theorem follows_walk {capacity : Nat} (turns : List ((Score × Nat) × Bool))
    (ascending : (turns.map Prod.fst).Pairwise fun first second => first.2 < second.2) :
    Follows scores capacity (turns.map Prod.fst)
      (turns.foldl (Walk.offer scores) (Walk.new scores capacity)) := by
  induction turns using List.reverseRecOn with
  | nil =>
    refine ⟨rfl, ?_⟩
    have room : (TopN.new capacity scores.scoredPairOrdering).worstWhenFull = none := by
      rw [TopN.worstWhenFull_eq_none_iff]
      exact (Nat.eq_zero_or_pos capacity)
    change none = Option.map _ (TopN.new capacity scores.scoredPairOrdering).worstWhenFull
    rw [room]
    rfl
  | append_singleton before turn ih =>
    rw [List.map_append] at ascending ⊢
    obtain ⟨earlier, -, apart⟩ := List.pairwise_append.mp ascending
    rw [List.foldl_append]
    exact (ih earlier).offer (fun pair member => apart pair member turn.1 List.mem_cons_self) turn.2

end Pairs

/-- The collector is a bounded sort, for every strict total order, capacity and order of arrival; and for
pairs in ascending document order, pairs whose score does not exceed the worst score can be skipped. -/
theorem topn_bounded_sort :
    (∀ (α : Type) (cmp : α → α → Ordering) (capacity : Nat) (items : List α),
      StrictTotalOn cmp items → items.Nodup → BoundedSort cmp capacity items) ∧
    ∀ (Score : Type) (scores : PartialOrd Score) (capacity : Nat) (turns : List ((Score × Nat) × Bool)),
      (turns.map Prod.fst).Pairwise (fun first second => first.2 < second.2) →
      (turns.foldl (Walk.offer scores) (Walk.new scores capacity)).topn.intoSortedVec =
        ((TopN.new capacity scores.scoredPairOrdering).pushAll (turns.map Prod.fst)).intoSortedVec := by
  refine ⟨fun _ _ _ _ order distinct => boundedSort order distinct, ?_⟩
  intro Score scores capacity turns ascending
  rw [(follows_walk turns ascending).topn]

def scoredTurns : List ((Nat × Nat) × Bool) :=
  [((2, 0), false), ((3, 1), false), ((2, 4), true), ((3, 6), true), ((3, 9), true)]

theorem topn_bounded_sort_scoredTurns :
    BoundedSort (@PartialOrd.ofLinearOrder Nat _).scoredPairOrdering 2 (scoredTurns.map Prod.fst) ∧
      (scoredTurns.foldl (Walk.offer .ofLinearOrder) (Walk.new .ofLinearOrder 2)).topn.intoSortedVec =
        [(3, 1), (3, 6)] := by
  refine ⟨topn_bounded_sort.1 _ _ _ _ (strictTotalOn_scoredPairOrdering _) (by decide), ?_⟩
  rw [topn_bounded_sort.2 Nat .ofLinearOrder 2 scoredTurns (by decide)]
  decide +kernel

end Surch.Api.Topn
