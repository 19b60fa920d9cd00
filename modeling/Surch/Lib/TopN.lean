import Mathlib.Data.List.Induction
import Mathlib.Data.List.Sort

/-! A collector that keeps the least items of a stream, up to a capacity, in order. -/
namespace Surch.Lib.TopN

variable {α : Type} [LinearOrder α]

/- The item goes where a binary search puts it. When the collector is full it has to beat the
worst. -/
def push (capacity : Nat) (data : List α) (item : α) : List α :=
  if capacity = 0 then data
  else if data.length < capacity then data.orderedInsert (· ≤ ·) item
  else
    match data.getLast? with
    | some worst =>
      if item < worst then (data.orderedInsert (· ≤ ·) item).take capacity else data
    | none => data

def collect (capacity : Nat) (items : List α) : List α := items.foldl (push capacity) []

theorem take_orderedInsert (n : Nat) (item : α) (data : List α) :
    ((data.take n).orderedInsert (· ≤ ·) item).take n =
      (data.orderedInsert (· ≤ ·) item).take n := by
  induction data generalizing n with
  | nil => simp
  | cons head tail ih =>
    cases n with
    | zero => simp
    | succ n =>
      rw [List.take_succ_cons, List.orderedInsert_cons, List.orderedInsert_cons]
      split
      · cases n with
        | zero => simp
        | succ n => simp [List.take_take]
      · rw [List.take_succ_cons, List.take_succ_cons, ih]

theorem orderedInsert_of_forall_le {data : List α} {item : α} (sorted : data.Pairwise (· ≤ ·))
    (least : ∀ other ∈ data, other ≤ item) :
    data.orderedInsert (· ≤ ·) item = data ++ [item] := by
  refine List.Perm.eq_of_pairwise' (r := (· ≤ ·)) ?_ ?_ ?_
  · exact sorted.orderedInsert item data
  · rw [List.pairwise_append]
    exact ⟨sorted, List.pairwise_singleton _ _, by simpa using least⟩
  · exact (List.perm_orderedInsert (· ≤ ·) item data).trans (List.perm_append_singleton item data).symm

theorem push_take {capacity : Nat} {data : List α} (sorted : data.Pairwise (· ≤ ·)) (item : α) :
    push capacity (data.take capacity) item =
      (data.orderedInsert (· ≤ ·) item).take capacity := by
  unfold push
  split
  · rename_i none
    rw [none, List.take_zero, List.take_zero]
  · rename_i some
    split
    · rename_i room
      rw [List.length_take] at room
      have short : data.length < capacity := by omega
      rw [List.take_of_length_le short.le, List.take_of_length_le]
      rw [List.orderedInsert_length]
      omega
    · rename_i full
      rw [← take_orderedInsert capacity item data]
      have front : (data.take capacity).Pairwise (· ≤ ·) := sorted.sublist (List.take_sublist _ _)
      cases last : (data.take capacity).getLast? with
      | none =>
        rw [List.getLast?_eq_none_iff] at last
        rw [last] at full
        simp only [List.length_nil] at full
        omega
      | some worst =>
        dsimp only
        split
        · rfl
        · rename_i worse
          have under : ∀ other ∈ data.take capacity, other ≤ item := by
            intro other member
            refine le_trans ?_ (not_lt.mp worse)
            obtain ⟨init, split_last⟩ := List.getLast?_eq_some_iff.mp last
            rw [split_last] at member front
            rcases List.mem_append.mp member with member | member
            · exact (List.pairwise_append.mp front).2.2 other member worst List.mem_cons_self
            · rw [List.mem_singleton.mp member]
          rw [orderedInsert_of_forall_le front under]
          have exact_length : (data.take capacity).length = capacity := by
            rw [List.length_take] at full ⊢
            omega
          conv_rhs => rw [← exact_length]
          simp

theorem collect_eq (capacity : Nat) (items : List α) :
    collect capacity items = (items.insertionSort (· ≤ ·)).take capacity := by
  have fold : ∀ (items data : List α), data.Pairwise (· ≤ ·) →
      ∃ all : List α, all.Pairwise (· ≤ ·) ∧ all.Perm (data ++ items) ∧
        items.foldl (push capacity) (data.take capacity) = all.take capacity := by
    intro items
    induction items with
    | nil =>
      intro data sorted
      exact ⟨data, sorted, by simp, rfl⟩
    | cons item rest ih =>
      intro data sorted
      obtain ⟨all, sorted', permuted, kept⟩ :=
        ih (data.orderedInsert (· ≤ ·) item) (sorted.orderedInsert item data)
      refine ⟨all, sorted', permuted.trans ?_, ?_⟩
      · refine ((List.perm_orderedInsert (· ≤ ·) item data).append_right rest).trans ?_
        exact List.perm_middle.symm
      · rw [List.foldl_cons, push_take sorted]
        exact kept
  obtain ⟨all, sorted, permuted, kept⟩ := fold items [] .nil
  have same : all = items.insertionSort (· ≤ ·) :=
    List.Perm.eq_of_pairwise' sorted (List.pairwise_insertionSort (· ≤ ·) items)
      (permuted.trans (List.perm_insertionSort (· ≤ ·) items).symm)
  rw [List.take_nil] at kept
  rw [collect, ← same]
  exact kept

section Screen

def worstWhenFull (capacity : Nat) (data : List α) : Option α :=
  if capacity = 0 ∨ data.length < capacity then none else data.getLast?

omit [LinearOrder α] in
theorem worstWhenFull_some {capacity : Nat} {data : List α} {worst : α}
    (full : worstWhenFull capacity data = some worst) :
    capacity ≠ 0 ∧ ¬data.length < capacity ∧ data.getLast? = some worst := by
  unfold worstWhenFull at full
  split at full
  · cases full
  · rename_i room
    rw [not_or] at room
    exact ⟨room.1, room.2, full⟩

theorem push_of_worst_le {capacity : Nat} {data : List α} {worst item : α}
    (full : worstWhenFull capacity data = some worst) (loses : worst ≤ item) :
    push capacity data item = data := by
  obtain ⟨some, long, last⟩ := worstWhenFull_some full
  rw [push, if_neg some, if_neg long, last]
  exact if_neg (not_lt.mpr loses)

theorem collect_append (capacity : Nat) (items : List α) (item : α) :
    collect capacity (items ++ [item]) = push capacity (collect capacity items) item := by
  rw [collect, List.foldl_append]
  rfl

theorem mem_of_mem_collect {capacity : Nat} {items : List α} {item : α}
    (member : item ∈ collect capacity items) : item ∈ items := by
  rw [collect_eq] at member
  exact (List.mem_insertionSort (· ≤ ·)).mp (List.mem_of_mem_take member)

theorem length_collect (capacity : Nat) (items : List α) :
    (collect capacity items).length = min capacity items.length := by
  rw [collect_eq, List.length_take, List.length_insertionSort]

theorem countP_lt_of_mem_collect {capacity : Nat} {items : List α} {item : α}
    (kept : item ∈ collect capacity items) : items.countP (· < item) < capacity := by
  rw [collect_eq] at kept
  obtain ⟨i, inside, at_i⟩ := List.mem_iff_getElem.mp kept
  rw [List.length_take] at inside
  rw [List.getElem_take] at at_i
  have sorted := List.pairwise_insertionSort (· ≤ ·) items
  have later : ((items.insertionSort (· ≤ ·)).drop i).countP (· < item) = 0 := by
    refine List.countP_eq_zero.mpr fun other member => ?_
    obtain ⟨j, bound, rfl⟩ := List.mem_iff_getElem.mp member
    rw [List.length_drop] at bound
    rw [List.getElem_drop, decide_eq_true_eq, not_lt, ← at_i]
    rcases Nat.eq_zero_or_pos j with rfl | positive
    · exact le_rfl
    · exact List.pairwise_iff_getElem.mp sorted i (i + j) (by omega) (by omega) (by omega)
  have early := List.countP_le_length (p := (· < item)) (l := (items.insertionSort (· ≤ ·)).take i)
  rw [List.length_take] at early
  have same := (List.perm_insertionSort (· ≤ ·) items).countP_eq (· < item)
  rw [← List.take_append_drop i (items.insertionSort (· ≤ ·)), List.countP_append, later] at same
  omega

theorem worst_mem {capacity : Nat} {items : List α} {worst : α}
    (full : worstWhenFull capacity (collect capacity items) = some worst) : worst ∈ items :=
  mem_of_mem_collect (List.mem_of_getLast? (worstWhenFull_some full).2.2)

theorem length_push {capacity : Nat} {data : List α} (bounded : data.length ≤ capacity) (item : α) :
    (push capacity data item).length = min capacity (data.length + 1) := by
  by_cases none : capacity = 0
  · rw [push, if_pos none]
    omega
  · by_cases room : data.length < capacity
    · rw [push, if_neg none, if_pos room, List.orderedInsert_length]
      omega
    · rw [push, if_neg none, if_neg room]
      split
      · split
        · rw [List.length_take, List.orderedInsert_length]
        · omega
      · rename_i empty
        rw [List.getLast?_eq_none_iff.mp empty, List.length_nil] at room
        omega

theorem worstWhenFull_push {capacity : Nat} {data : List α} (bounded : data.length ≤ capacity) {item : α}
    (room : worstWhenFull capacity (push capacity data item) = none) :
    worstWhenFull capacity data = none := by
  have grown := length_push bounded item
  unfold worstWhenFull at room ⊢
  split at room
  · rename_i short
    rw [if_pos (by omega)]
  · rename_i long
    rw [List.getLast?_eq_none_iff.mp room, List.length_nil] at grown
    omega

variable {ι : Type} (capacity : Nat) (item : ι → Option α) (skip : α → ι → Bool)

/- One turn of a walk that looks at the item of an input only where the input may still beat the worst
of a full collector. -/
def screen (data : List α) (input : ι) : List α :=
  if (worstWhenFull capacity data).any fun worst => skip worst input then data
  else
    match item input with
    | none => data
    | some found => push capacity data found

theorem foldl_screen {inputs : List ι}
    (sound : ∀ before input after, inputs = before ++ input :: after → ∀ found ∈ item input,
      ∀ worst ∈ worstWhenFull capacity (collect capacity (before.filterMap item)),
        skip worst input = true → worst ≤ found) :
    inputs.foldl (screen capacity item skip) [] = collect capacity (inputs.filterMap item) := by
  induction inputs using List.reverseRecOn with
  | nil => rfl
  | append_singleton before input ih =>
    have earlier := ih fun first other rest split => by
      refine sound first other (rest ++ [input]) ?_
      rw [split, List.append_assoc, List.cons_append]
    rw [List.foldl_append, earlier, List.foldl_cons, List.foldl_nil, List.filterMap_append]
    have here := sound before input [] rfl
    cases found : item input with
    | none => simp [screen, found]
    | some offered =>
      have single : [input].filterMap item = [offered] := by simp [found]
      rw [single, collect_append, screen]
      split
      · rename_i skipped
        obtain ⟨worst, full, loses⟩ := (Option.any_eq_true _ _).mp skipped
        exact (push_of_worst_le full (here offered found worst full loses)).symm
      · rw [found]

end Screen

section Survivors

variable {β : Type} (f : β → α) (p : β → Bool)

/-- A run of equal values in front of a list that starts with a loss: the survivors line up with
equal values exactly when they are all of that value. -/
theorem zip_append_filter_iff (front list : List β) (nonempty : front ≠ []) (value : α)
    (equal : ∀ x ∈ front, f x = value) (below : ∀ x ∈ list, f x ≤ value)
    (descending : list.Pairwise fun x y => f y ≤ f x) :
    (∀ pair ∈ (front ++ list).zip (list.filter p), f pair.1 = f pair.2) ↔
      ∀ x ∈ list, p x = true → f x = value := by
  induction list generalizing front with
  | nil => simp
  | cons head tail ih =>
    obtain ⟨first, rest, rfl⟩ := List.exists_cons_of_ne_nil nonempty
    have head_below := below head List.mem_cons_self
    have tail_below : ∀ x ∈ tail, f x ≤ value := fun x member => below x (List.mem_cons_of_mem _ member)
    obtain ⟨under_head, descending⟩ := List.pairwise_cons.mp descending
    have first_equal := equal first List.mem_cons_self
    rw [List.forall_mem_cons]
    by_cases kept : p head = true
    · rw [List.filter_cons_of_pos kept, List.cons_append, List.zip_cons_cons, List.forall_mem_cons,
        first_equal]
      constructor
      · rintro ⟨here, later⟩
        have shifted := ih (rest ++ [head]) (by simp) (by
          intro x member
          rcases List.mem_append.mp member with member | member
          · exact equal x (List.mem_cons_of_mem _ member)
          · rw [List.mem_singleton.mp member, here]) tail_below descending
        rw [List.append_assoc, List.singleton_append] at shifted
        exact ⟨fun _ => here.symm, shifted.mp later⟩
      · rintro ⟨here, later⟩
        have here := (here kept).symm
        have shifted := ih (rest ++ [head]) (by simp) (by
          intro x member
          rcases List.mem_append.mp member with member | member
          · exact equal x (List.mem_cons_of_mem _ member)
          · rw [List.mem_singleton.mp member, here]) tail_below descending
        rw [List.append_assoc, List.singleton_append] at shifted
        exact ⟨here, shifted.mpr later⟩
    · rw [List.filter_cons_of_neg kept]
      rcases head_below.eq_or_lt with same | less
      · have shifted := ih (first :: rest ++ [head]) (by simp) (by
          intro x member
          rcases List.mem_append.mp member with member | member
          · exact equal x member
          · rw [List.mem_singleton.mp member, same]) tail_below descending
        rw [List.append_assoc, List.singleton_append] at shifted
        rw [shifted]
        simp [kept]
      · cases survivors : tail.filter p with
        | nil =>
          have none_left : ∀ x ∈ tail, ¬ p x = true := List.filter_eq_nil_iff.mp survivors
          simp only [List.zip_nil_right, List.not_mem_nil, false_implies, implies_true, true_iff]
          exact ⟨fun keeps => absurd keeps kept, fun x member keeps => absurd keeps (none_left x member)⟩
        | cons survivor others =>
          have member : survivor ∈ tail ∧ p survivor = true := by
            rw [← List.mem_filter, survivors]
            exact List.mem_cons_self
          have lower : f survivor < value := (under_head survivor member.1).trans_lt less
          rw [List.cons_append, List.zip_cons_cons, List.forall_mem_cons, first_equal]
          constructor
          · rintro ⟨here, _⟩
            exact absurd here lower.ne'
          · rintro ⟨_, all⟩
            exact absurd (all survivor member.1 member.2) lower.ne

/-- Survivors of a descending list, lined up with the list from its start, meet their own values
exactly when none of the lost ones had a higher value than a survivor. -/
theorem zip_filter_iff (list : List β) (descending : list.Pairwise fun x y => f y ≤ f x) :
    (∀ pair ∈ list.zip (list.filter p), f pair.1 = f pair.2) ↔
      ∀ lost ∈ list, p lost = false → ∀ kept ∈ list, p kept = true → ¬ f kept < f lost := by
  induction list with
  | nil => simp
  | cons head tail ih =>
    obtain ⟨under_head, descending⟩ := List.pairwise_cons.mp descending
    by_cases keeps : p head = true
    · rw [List.filter_cons_of_pos keeps, List.zip_cons_cons, List.forall_mem_cons, ih descending]
      simp only [List.forall_mem_cons, keeps, true_and, reduceCtorEq, false_implies]
      constructor
      · intro all lost member gone
        exact ⟨fun _ => not_lt.mpr (under_head lost member), all lost member gone⟩
      · intro all lost member gone
        exact (all lost member gone).2
    · have aligned := zip_append_filter_iff f p [head] tail (by simp) (f head) (by simp) under_head
        descending
      rw [List.filter_cons_of_neg keeps, ← List.singleton_append, aligned]
      rw [Bool.not_eq_true] at keeps
      simp only [List.singleton_append, List.forall_mem_cons, keeps, reduceCtorEq, false_implies,
        true_and, forall_const]
      constructor
      · intro all
        refine ⟨fun kept member live => not_lt.mpr (all kept member live).ge, ?_⟩
        intro lost member _ kept member' live
        rw [all kept member' live]
        exact not_lt.mpr (under_head lost member)
      · rintro ⟨all, _⟩ kept member live
        exact le_antisymm (under_head kept member) (not_lt.mp (all kept member live))

end Survivors

end Surch.Lib.TopN
