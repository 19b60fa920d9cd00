import Mathlib.Data.List.Basic
import Mathlib.Order.Basic

/-! Comparisons as a sort takes them. A comparison that is only sometimes decided may tie two items
with a third and still put one before the other; comparisons asked one after the other order some
items consistently exactly when every such triple is put in order by the later ones. A consistent
comparison has one stable sort. -/
namespace Surch.Lib.Comparison

variable {α : Type}

/- Both ways round it says the same, and what it decides is transitive. A tie need not be. -/
structure Partial (cmp : α → α → Ordering) : Prop where
  swap : ∀ x y, cmp y x = (cmp x y).swap
  strict : ∀ x y z, cmp x y = .lt → cmp y z = .lt → cmp x z = .lt

structure ConsistentOn (inside : α → Prop) (cmp : α → α → Ordering) : Prop where
  antisymm : ∀ x y, inside x → inside y → cmp y x = (cmp x y).swap
  trans : ∀ x y z, inside x → inside y → inside z → cmp x y ≠ .gt → cmp y z ≠ .gt → cmp x z ≠ .gt
  ties : ∀ x y z, inside x → inside y → inside z → cmp x y = .eq → cmp y z = .eq → cmp x z = .eq

/- The comparisons are asked in turn until one decides. -/
def inTurn : List (α → α → Ordering) → α → α → Ordering
  | [], _, _ => .eq
  | cmp :: rest, x, y => if cmp x y ≠ .eq then cmp x y else inTurn rest x y

/- The item in the middle ties with both, and they do not tie. -/
def Straddles (cmp : α → α → Ordering) (x y z : α) : Prop :=
  cmp x z = .lt ∧ cmp x y = .eq ∧ cmp y z = .eq

def TiesAll (cmp : α → α → Ordering) (x y z : α) : Prop :=
  cmp x y = .eq ∧ cmp y z = .eq ∧ cmp x z = .eq

variable {cmp : α → α → Ordering} {cmps rest : List (α → α → Ordering)}

theorem Partial.lt_iff (decides : Partial cmp) (x y : α) : cmp x y = .lt ↔ cmp y x = .gt := by
  rw [decides.swap x y]
  cases cmp x y <;> simp

theorem Partial.eq_comm (decides : Partial cmp) (x y : α) : cmp x y = .eq ↔ cmp y x = .eq := by
  rw [decides.swap x y]
  cases cmp x y <;> simp

theorem partial_compare [Ord α] [Std.TransOrd α] : Partial (compare : α → α → Ordering) :=
  ⟨fun _ _ => Std.OrientedCmp.eq_swap, fun _ _ _ => Std.TransCmp.lt_trans⟩

theorem inTurn_swap (decide : ∀ cmp ∈ cmps, Partial cmp) (x y : α) :
    inTurn cmps y x = (inTurn cmps x y).swap := by
  induction cmps with
  | nil => rfl
  | cons cmp rest ih =>
    have first := (decide cmp List.mem_cons_self).swap x y
    have later := ih fun other member => decide other (List.mem_cons_of_mem _ member)
    unfold inTurn
    rw [first, later]
    cases cmp x y <;> rfl

def Breaks (cmp : α → α → Ordering) (x y z : α) : Prop :=
  cmp x y ≠ .gt ∧ cmp y z ≠ .gt ∧ cmp x z = .gt

/- A triple that all earlier comparisons tie, one comparison tears, and the later ones do not mend. -/
def Torn (cmps : List (α → α → Ordering)) (x y z : α) : Prop :=
  ∃ earlier cmp later, cmps = earlier ++ cmp :: later ∧ TiesAll (inTurn earlier) x y z ∧
    Straddles cmp x y z ∧ inTurn later x y ≠ .lt ∧ inTurn later y z ≠ .lt

theorem inTurn_of_eq {x y : α} (tied : cmp x y = .eq) : inTurn (cmp :: rest) x y = inTurn rest x y := by
  simp [inTurn, tied]

theorem inTurn_of_ne {x y : α} (decided : cmp x y ≠ .eq) : inTurn (cmp :: rest) x y = cmp x y := by
  simp [inTurn, decided]

theorem inTurn_append (earlier later : List (α → α → Ordering)) (x y : α) :
    inTurn (earlier ++ later) x y =
      if inTurn earlier x y ≠ .eq then inTurn earlier x y else inTurn later x y := by
  induction earlier with
  | nil => simp [inTurn]
  | cons cmp earlier ih =>
    by_cases tied : cmp x y = .eq
    · rw [List.cons_append, inTurn_of_eq tied, inTurn_of_eq tied, ih]
    · rw [List.cons_append, inTurn_of_ne tied, inTurn_of_ne tied, if_pos tied]

theorem TiesAll.reorder (decides : Partial cmp) {x y z : α} (ties : TiesAll cmp x y z) :
    TiesAll cmp z y x ∧ TiesAll cmp x z y ∧ TiesAll cmp y x z := by
  obtain ⟨left, right, outer⟩ := ties
  have left' := (decides.eq_comm x y).mp left
  have right' := (decides.eq_comm y z).mp right
  have outer' := (decides.eq_comm x z).mp outer
  exact ⟨⟨right', left', outer'⟩, ⟨outer, right', left⟩, ⟨left', outer, right⟩⟩

theorem Torn.behind {x y z : α} (ties : TiesAll cmp x y z) (torn : Torn rest x y z) :
    Torn (cmp :: rest) x y z := by
  obtain ⟨earlier, other, later, rfl, tied, straddles, mended⟩ := torn
  refine ⟨cmp :: earlier, other, later, rfl, ?_, straddles, mended⟩
  unfold TiesAll
  rw [inTurn_of_eq ties.1, inTurn_of_eq ties.2.1, inTurn_of_eq ties.2.2]
  exact tied

theorem head_ne_gt {x y : α} (before : inTurn (cmp :: rest) x y ≠ .gt) : cmp x y ≠ .gt := by
  intro above
  rw [inTurn_of_ne (by simp [above])] at before
  exact before above

theorem inTurn_ne_lt (decide : ∀ cmp ∈ rest, Partial cmp) {x y : α}
    (before : inTurn rest x y ≠ .gt) : inTurn rest y x ≠ .lt := by
  rw [inTurn_swap decide x y]
  intro swapped
  exact before (Ordering.swap_eq_lt.mp swapped)

theorem torn_of_breaks (decide : ∀ cmp ∈ cmps, Partial cmp) {x y z : α}
    (breaks : Breaks (inTurn cmps) x y z) :
    Torn cmps z y x ∨ Torn cmps x z y ∨ Torn cmps y x z := by
  induction cmps with
  | nil => exact absurd breaks.2.2 (by simp [inTurn])
  | cons cmp rest ih =>
    have decides := decide cmp List.mem_cons_self
    have decide := fun other member => decide other (List.mem_cons_of_mem cmp member)
    have torn_here : ∀ {a b c : α}, Straddles cmp a b c → inTurn rest a b ≠ .lt →
        inTurn rest b c ≠ .lt → Torn (cmp :: rest) a b c := fun straddles left right =>
      ⟨[], cmp, rest, rfl, ⟨rfl, rfl, rfl⟩, straddles, left, right⟩
    obtain ⟨left, right, outer⟩ := breaks
    have left_head := head_ne_gt left
    have right_head := head_ne_gt right
    cases xz : cmp x z with
    | lt =>
      rw [inTurn_of_ne (by simp [xz]), xz] at outer
      cases outer
    | gt =>
      -- the middle cannot be put on either side of the ends, so it ties with both
      have zx : cmp z x = .lt := (decides.lt_iff z x).mpr xz
      have xy : cmp x y = .eq := by
        cases xy : cmp x y with
        | eq => rfl
        | lt => exact absurd ((decides.lt_iff z y).mp (decides.strict z x y zx xy)) right_head
        | gt => exact absurd xy left_head
      have yz : cmp y z = .eq := by
        cases yz : cmp y z with
        | eq => rfl
        | lt => exact absurd ((decides.lt_iff y x).mp (decides.strict y z x yz zx)) left_head
        | gt => exact absurd yz right_head
      rw [inTurn_of_eq xy] at left
      rw [inTurn_of_eq yz] at right
      have straddles : Straddles cmp z y x :=
        ⟨zx, (decides.eq_comm y z).mp yz, (decides.eq_comm x y).mp xy⟩
      exact .inl (torn_here straddles (inTurn_ne_lt decide right) (inTurn_ne_lt decide left))
    | eq =>
      rw [inTurn_of_eq xz] at outer
      have apart : inTurn rest x z ≠ .lt := by simp [outer]
      cases xy : cmp x y with
      | gt => exact absurd xy left_head
      | lt =>
        have yz : cmp y z = .eq := by
          cases yz : cmp y z with
          | eq => rfl
          | lt => rw [decides.strict x y z xy yz] at xz; cases xz
          | gt => exact absurd yz right_head
        rw [inTurn_of_eq yz] at right
        have straddles : Straddles cmp x z y := ⟨xy, xz, (decides.eq_comm y z).mp yz⟩
        exact .inr (.inl (torn_here straddles apart (inTurn_ne_lt decide right)))
      | eq =>
        rw [inTurn_of_eq xy] at left
        cases yz : cmp y z with
        | gt => exact absurd yz right_head
        | lt =>
          have straddles : Straddles cmp y x z := ⟨yz, (decides.eq_comm x y).mp xy, xz⟩
          exact .inr (.inr (torn_here straddles (inTurn_ne_lt decide left) apart))
        | eq =>
          rw [inTurn_of_eq yz] at right
          have ties : TiesAll cmp x y z := ⟨xy, yz, xz⟩
          obtain ⟨first, second, third⟩ := ties.reorder decides
          rcases ih decide ⟨left, right, outer⟩ with torn | torn | torn
          · exact .inl (torn.behind first)
          · exact .inr (.inl (torn.behind second))
          · exact .inr (.inr (torn.behind third))

theorem breaks_of_torn (decide : ∀ cmp ∈ cmps, Partial cmp) {x y z : α} (torn : Torn cmps x y z) :
    Breaks (inTurn cmps) z y x := by
  obtain ⟨earlier, cmp, later, rfl, ties, ⟨outer, left, right⟩, unmended, unmended'⟩ := torn
  have decides := decide cmp (by simp)
  have before : ∀ a b, inTurn earlier a b = .eq →
      inTurn (earlier ++ cmp :: later) b a = (inTurn (cmp :: later) a b).swap := by
    intro a b tied
    rw [inTurn_swap decide a b, inTurn_append, if_neg (by simp [tied])]
  refine ⟨?_, ?_, ?_⟩
  · rw [before y z ties.2.1, inTurn_of_eq right]
    simpa using unmended'
  · rw [before x y ties.1, inTurn_of_eq left]
    simpa using unmended
  · rw [before x z ties.2.2, inTurn_of_ne (by simp [outer]), outer]
    rfl

/-- Comparisons asked in turn order the items of a set consistently exactly when they leave no triple
of them torn. -/
theorem consistentOn_inTurn_iff (decide : ∀ cmp ∈ cmps, Partial cmp) (inside : α → Prop) :
    ConsistentOn inside (inTurn cmps) ↔
      ∀ x y z, inside x → inside y → inside z → ¬ Torn cmps x y z := by
  constructor
  · intro consistent x y z hx hy hz torn
    obtain ⟨left, right, outer⟩ := breaks_of_torn decide torn
    exact consistent.trans z y x hz hy hx left right outer
  · intro whole
    have trans : ∀ x y z, inside x → inside y → inside z → inTurn cmps x y ≠ .gt →
        inTurn cmps y z ≠ .gt → inTurn cmps x z ≠ .gt := by
      intro x y z hx hy hz left right outer
      rcases torn_of_breaks decide ⟨left, right, outer⟩ with torn | torn | torn
      · exact whole z y x hz hy hx torn
      · exact whole x z y hx hz hy torn
      · exact whole y x z hy hx hz torn
    refine ⟨fun x y _ _ => inTurn_swap decide x y, trans, ?_⟩
    intro x y z hx hy hz left right
    have forth := trans x y z hx hy hz (by simp [left]) (by simp [right])
    have left' : inTurn cmps y x = .eq := by rw [inTurn_swap decide x y, left]; rfl
    have right' : inTurn cmps z y = .eq := by rw [inTurn_swap decide y z, right]; rfl
    have back := trans z y x hz hy hx (by simp [right']) (by simp [left'])
    cases outer : inTurn cmps x z with
    | eq => rfl
    | gt => exact absurd outer forth
    | lt =>
      rw [inTurn_swap decide x z, outer] at back
      exact absurd rfl back

section Sorting

variable {inside : α → Prop}

/- A stable sort: the same items, none in front of a smaller one, and ties in their old order. -/
structure SortsStably (cmp : α → α → Ordering) (items sorted : List α) : Prop where
  perm : sorted.Perm items
  ordered : sorted.Pairwise fun x y => cmp x y ≠ .gt
  stable : ∀ x ∈ items, (sorted.filter fun y => cmp x y = .eq) = items.filter fun y => cmp x y = .eq

theorem ConsistentOn.refl (consistent : ConsistentOn inside cmp) {x : α} (hx : inside x) :
    cmp x x = .eq := by
  have same := consistent.antisymm x x hx hx
  cases h : cmp x x with
  | eq => rfl
  | lt => rw [h] at same; cases same
  | gt => rw [h] at same; cases same

theorem ConsistentOn.eq_of_classes (consistent : ConsistentOn inside cmp) (xs ys : List α)
    (left : ∀ x ∈ xs, inside x) (right : ∀ y ∈ ys, inside y)
    (ordered : xs.Pairwise fun x y => cmp x y ≠ .gt) (ordered' : ys.Pairwise fun x y => cmp x y ≠ .gt)
    (classes : ∀ x, inside x →
      (xs.filter fun y => cmp x y = .eq) = ys.filter fun y => cmp x y = .eq) : xs = ys := by
  have moves : ∀ {xs ys : List α} {x : α}, inside x → x ∈ xs →
      (xs.filter fun y => cmp x y = .eq) = (ys.filter fun y => cmp x y = .eq) → x ∈ ys := by
    intro xs ys x hx member same
    have kept : x ∈ xs.filter fun y => cmp x y = .eq :=
      List.mem_filter.mpr ⟨member, by simp [consistent.refl hx]⟩
    rw [same] at kept
    exact (List.mem_filter.mp kept).1
  induction xs generalizing ys with
  | nil =>
    cases ys with
    | nil => rfl
    | cons y ys =>
      have hy := right y List.mem_cons_self
      exact absurd (moves hy List.mem_cons_self (classes y hy).symm) List.not_mem_nil
  | cons x xs ih =>
    have hx := left x List.mem_cons_self
    have there := moves hx List.mem_cons_self (classes x hx)
    cases ys with
    | nil => cases there
    | cons y ys =>
      have hy := right y List.mem_cons_self
      have back := moves hy List.mem_cons_self (classes y hy).symm
      obtain ⟨above, tail_ordered⟩ := List.pairwise_cons.mp ordered
      obtain ⟨above', tail_ordered'⟩ := List.pairwise_cons.mp ordered'
      have not_above : cmp x y ≠ .gt := by
        rcases List.mem_cons.mp back with rfl | later
        · simp [consistent.refl hx]
        · exact above y later
      have not_below : cmp y x ≠ .gt := by
        rcases List.mem_cons.mp there with rfl | later
        · simp [consistent.refl hx]
        · exact above' x later
      have tied : cmp x y = .eq := by
        rw [consistent.antisymm x y hx hy] at not_below
        cases h : cmp x y with
        | eq => rfl
        | gt => exact absurd h not_above
        | lt => rw [h] at not_below; exact absurd rfl not_below
      have heads := classes x hx
      rw [List.filter_cons_of_pos (by simp [consistent.refl hx]),
        List.filter_cons_of_pos (by simp [tied])] at heads
      have same : x = y := (List.cons.inj heads).1
      subst same
      congr 1
      refine ih ys (fun z member => left z (List.mem_cons_of_mem _ member))
        (fun z member => right z (List.mem_cons_of_mem _ member)) tail_ordered tail_ordered' ?_
      intro z hz
      have whole := classes z hz
      by_cases kept : cmp z x = .eq
      · rw [List.filter_cons_of_pos (by simp [kept]), List.filter_cons_of_pos (by simp [kept])] at whole
        exact (List.cons.inj whole).2
      · rw [List.filter_cons_of_neg (by simp [kept]), List.filter_cons_of_neg (by simp [kept])] at whole
        exact whole

theorem ConsistentOn.sortsStably_unique {items sorted sorted' : List α}
    (consistent : ConsistentOn (· ∈ items) cmp) (stable : SortsStably cmp items sorted)
    (stable' : SortsStably cmp items sorted') : sorted = sorted' :=
  consistent.eq_of_classes sorted sorted' (fun _ member => stable.perm.mem_iff.mp member)
    (fun _ member => stable'.perm.mem_iff.mp member) stable.ordered stable'.ordered
    fun x hx => (stable.stable x hx).trans (stable'.stable x hx).symm

/-- A merge sort by a comparison that is consistent on the items sorts them stably. -/
theorem ConsistentOn.mergeSort_sortsStably {items : List α}
    (consistent : ConsistentOn (· ∈ items) cmp) :
    SortsStably cmp items (items.mergeSort fun x y => cmp x y ≠ .gt) := by
  have trans : ∀ x y z : { x // x ∈ items }, decide (cmp x.1 y.1 ≠ .gt) = true →
      decide (cmp y.1 z.1 ≠ .gt) = true → decide (cmp x.1 z.1 ≠ .gt) = true := by
    intro x y z left right
    exact decide_eq_true (consistent.trans _ _ _ x.2 y.2 z.2 (of_decide_eq_true left)
      (of_decide_eq_true right))
  have total : ∀ x y : { x // x ∈ items }, (decide (cmp x.1 y.1 ≠ .gt) ||
      decide (cmp y.1 x.1 ≠ .gt)) = true := by
    intro x y
    rw [consistent.antisymm x.1 y.1 x.2 y.2]
    cases cmp x.1 y.1 <;> rfl
  have attached : (items.attach.mergeSort fun x y => cmp x.1 y.1 ≠ .gt).map Subtype.val =
      items.mergeSort fun x y => cmp x y ≠ .gt := by
    rw [List.map_mergeSort (f := Subtype.val) (s := fun x y => decide (cmp x y ≠ .gt))
      fun _ _ _ _ => rfl, List.attach_map_subtype_val]
  have perm := List.mergeSort_perm items fun x y => decide (cmp x y ≠ .gt)
  have ordered := List.pairwise_mergeSort trans total items.attach
  refine ⟨perm, ?_, fun x hx => ?_⟩
  · rw [← attached, List.pairwise_map]
    exact ordered.imp fun before => of_decide_eq_true before
  · have class_ordered : (items.attach.filter fun y => cmp x y.1 = .eq).Pairwise
        fun y z => decide (cmp y.1 z.1 ≠ .gt) = true := by
      refine List.pairwise_of_forall_mem_list fun y hy z hz => ?_
      have left := of_decide_eq_true (List.mem_filter.mp hy).2
      have right := of_decide_eq_true (List.mem_filter.mp hz).2
      have back : cmp y.1 x = .eq := by rw [consistent.antisymm x y.1 hx y.2, left]; rfl
      simp [consistent.ties y.1 x z.1 y.2 hx z.2 back right]
    have attached_class : (items.attach.filter fun y => cmp x y.1 = .eq).map Subtype.val =
        items.filter fun y => cmp x y = .eq := by
      conv_rhs => rw [← List.attach_map_subtype_val items, List.filter_map]
      rfl
    have kept := (List.sublist_mergeSort trans total class_ordered List.filter_sublist).map
      Subtype.val
    rw [attached, attached_class] at kept
    have whole := kept.filter fun y => cmp x y = .eq
    rw [List.filter_filter] at whole
    simp only [Bool.and_self] at whole
    exact (whole.eq_of_length (perm.filter _).length_eq.symm).symm

end Sorting

end Surch.Lib.Comparison
