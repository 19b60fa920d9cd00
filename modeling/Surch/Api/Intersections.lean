import Mathlib.Data.List.ReduceOption
import Surch.Api.Conjunctions

/-! Every evaluator of a conjunction returns the documents all clauses have, in order, whichever list
drives and wherever the postings are. -/
namespace Surch.Api
open Surch.Lib Surch.Codec Surch.Postings Surch.Index

variable {Digest : Type}

section Sets

theorem mem_btreeSet {docIds : List Nat} {docId : Nat} : docId ∈ btreeSet docIds ↔ docId ∈ docIds := by
  rw [btreeSet, SortedMap.mem_keys_iff, SortedMap.ofKeys]
  simp only [SortedMap.get?_foldl_upsert]
  split <;> simp_all

theorem btreeSet_ascending (docIds : List Nat) : (btreeSet docIds).Pairwise (· < ·) :=
  (SortedMap.ofKeys docIds fun _ => ()).sorted

theorem btreeSet_of_ascending {docIds : List Nat} (ascending : docIds.Pairwise (· < ·)) :
    btreeSet docIds = docIds :=
  List.Pairwise.eq_of_mem_iff (btreeSet_ascending docIds) ascending fun _ => mem_btreeSet

end Sets

def docsOf (recorded : List Addition) (term : String × String) : List Nat :=
  (postingsFor recorded term.1 term.2).map Prod.fst

def listsOf (recorded : List Addition) (terms : List (String × String)) : List (List (Nat × Nat)) :=
  terms.map fun term => postingsFor recorded term.1 term.2

section Lists

variable {recorded : List Addition} {terms : List (String × String)}

theorem listsOf_ascending :
    ∀ list ∈ listsOf recorded terms, (list.map Prod.fst).Pairwise (· < ·) := by
  rw [listsOf, List.forall_mem_map]
  exact fun term _ => postingsFor_ascending recorded term.1 term.2

theorem common_listsOf_cons (term : String × String) :
    common (listsOf recorded (term :: terms)) =
      (docsOf recorded term).filter fun docId => terms.all fun other =>
        (docsOf recorded other).contains docId := by
  rw [listsOf, List.map_cons, common]
  refine List.filter_congr fun docId _ => ?_
  rw [List.all_map]
  refine List.all_congr rfl fun other => ?_
  rw [Bool.eq_iff_iff, Function.comp_apply, lookup_isSome, List.contains_iff_mem]
  rfl

theorem mem_common_listsOf {docId : Nat} :
    docId ∈ common (listsOf recorded terms) ↔
      terms ≠ [] ∧ ∀ term ∈ terms, docId ∈ docsOf recorded term := by
  rw [mem_common, listsOf, List.forall_mem_map, ne_eq, List.map_eq_nil_iff]
  rfl

theorem common_listsOf_nil {term : String × String} (member : term ∈ terms)
    (missing : postingsFor recorded term.1 term.2 = []) : common (listsOf recorded terms) = [] := by
  rw [List.eq_nil_iff_forall_not_mem]
  intro docId found
  have here := (mem_common_listsOf.mp found).2 term member
  rw [docsOf, missing] at here
  cases here

end Lists

section Disk

variable {settings : Settings Digest} {index : DocumentIndex Digest}
  {groups : List (List Addition)}

theorem decoded_docs (stores : Stores settings index groups)
    (onDisk : index.postingsDiskBacked = true) (term : String × String) :
    match index.decodeFromSegment term.1 term.2 with
    | none => docsOf groups.flatten term = []
    | some v => v.1 = docsOf groups.flatten term := by
  have decoded := stores.decodeFromSegment onDisk term.1 term.2
  cases found : index.decodeFromSegment term.1 term.2 with
  | none =>
    rw [found] at decoded
    rw [docsOf, decoded]
    rfl
  | some v =>
    rw [found] at decoded
    rw [docsOf, ← decoded.2, entries, List.map_fst_zip decoded.1.le]

theorem docsOf_ascending (recorded : List Addition) (term : String × String) :
    (docsOf recorded term).Pairwise (· < ·) := postingsFor_ascending recorded term.1 term.2

theorem conjunctionHitsMerged_some (stores : Stores settings index groups)
    (onDisk : index.postingsDiskBacked = true) (met : List Nat) (terms : List (String × String)) :
    conjunctionHitsMerged index (some met) terms =
      met.filter fun docId => terms.all fun term => (docsOf groups.flatten term).contains docId := by
  induction terms generalizing met with
  | nil => simp [conjunctionHitsMerged]
  | cons term rest ih =>
    have decoded := decoded_docs stores onDisk term
    rw [conjunctionHitsMerged]
    cases found : index.decodeFromSegment term.1 term.2 with
    | none =>
      rw [found] at decoded
      simp only
      symm
      rw [List.filter_eq_nil_iff]
      intro docId _
      simp [decoded]
    | some v =>
      rw [found] at decoded
      simp only [decoded, btreeSet_of_ascending (docsOf_ascending _ _), Option.map_some,
        Option.getD_some, ih, List.filter_filter, List.all_cons]
      split
      · rename_i empty
        symm
        rw [List.isEmpty_iff, List.filter_eq_nil_iff] at empty
        rw [List.filter_eq_nil_iff]
        intro docId member both
        rw [Bool.and_eq_true] at both
        exact empty docId member both.1
      · exact List.filter_congr fun docId _ => Bool.and_comm _ _

theorem conjunctionHitsMerged_eq (stores : Stores settings index groups)
    (onDisk : index.postingsDiskBacked = true) (terms : List (String × String)) :
    conjunctionHitsMerged index none terms = common (listsOf groups.flatten terms) := by
  cases terms with
  | nil => rfl
  | cons term rest =>
    have decoded := decoded_docs stores onDisk term
    rw [conjunctionHitsMerged, common_listsOf_cons]
    cases found : index.decodeFromSegment term.1 term.2 with
    | none =>
      rw [found] at decoded
      simp only [decoded, List.filter_nil]
    | some v =>
      rw [found] at decoded
      simp only [decoded, btreeSet_of_ascending (docsOf_ascending _ _), Option.map_none,
        Option.getD_none, conjunctionHitsMerged_some stores onDisk]
      split
      · rename_i empty
        rw [List.isEmpty_iff.mp empty, List.filter_nil]
      · rfl

theorem conjunction_listsOf (stores : Stores settings index groups)
    {terms : List (String × String)} (nonempty : terms ≠ []) :
    conjunction (listsOf groups.flatten terms) =
      groups.flatMap fun group => conjunction (listsOf group terms) := by
  have blocks : listsOf groups.flatten terms = terms.map fun term =>
      groups.flatMap fun group => postingsFor group term.1 term.2 :=
    List.map_congr_left fun term _ => postingsFor_flatten stores.ascending term.1 term.2
  rw [blocks]
  exact conjunction_flatMap nonempty
    (fun group _ term _ => postingsFor_ascending group term.1 term.2)
    (stores.blocks_apart.imp fun apart (term : String × String) _ (term' : String × String) _ =>
      apart term.1 term.2 term'.1 term'.2)

variable [DecidableEq Digest]

def Views (groups : List (List Addition)) (term : String × String) (view : SegmentedPostings) :
    Prop :=
  List.Forall₂
      (fun group cursor => Option.Rel Starts
        (find (PostingsBuilder.new.addAll group).invert term.1 term.2) cursor)
      groups view.perSegment ∧
    view.globalDf = (postingsFor groups.flatten term.1 term.2).length

theorem segmentedPostingsChecked_views (stores : Stores settings index groups)
    {term : String × String} {found : Option SegmentedPostings}
    (opened : index.segmentedPostingsChecked settings.hash term.1 term.2 = .ok found) :
    match found with
    | none => postingsFor groups.flatten term.1 term.2 = []
    | some view => Views groups term view := by
  have spec := segmentedPostingsChecked_spec stores.inverteds opened
  cases found with
  | none => exact (stores.flatMap_stored term.1 term.2).symm.trans spec
  | some view =>
    obtain ⟨places, total⟩ := spec
    rw [List.forall₂_map_left_iff] at places
    exact ⟨places, total.trans (congrArg List.length (stores.flatMap_stored term.1 term.2))⟩

theorem openTerms_spec (stores : Stores settings index groups) (terms : List (String × String)) :
    match openTerms settings.hash index terms with
    | .absent => ∃ term ∈ terms, postingsFor groups.flatten term.1 term.2 = []
    | .failed => True
    | .views views => List.Forall₂ (Views groups) terms views := by
  induction terms with
  | nil => exact .nil
  | cons term rest ih =>
    rw [openTerms]
    cases result : index.segmentedPostingsChecked settings.hash term.1 term.2 with
    | error e => trivial
    | ok found =>
      have view := segmentedPostingsChecked_views stores result
      cases found with
      | none => exact ⟨term, List.mem_cons_self, view⟩
      | some view' =>
        simp only
        cases later : openTerms settings.hash index rest with
        | absent =>
          rw [later] at ih
          obtain ⟨other, member, missing⟩ := ih
          exact ⟨other, List.mem_cons_of_mem _ member, missing⟩
        | failed => trivial
        | views views =>
          rw [later] at ih
          exact .cons view ih

theorem forall₂_getElem? {α β : Type} {R : α → β → Prop} {xs : List α} {ys : List β}
    (all : List.Forall₂ R xs ys) {i : Nat} {x : α} (here : xs[i]? = some x) :
    ∃ y, ys[i]? = some y ∧ R x y := by
  induction all generalizing i with
  | nil => cases here
  | cons first rest ih =>
    cases i with
    | zero =>
      cases here
      exact ⟨_, rfl, first⟩
    | succ i => exact ih here

/-- The cursors of one segment: all terms have one, or the segment has no common document. -/
theorem cursorsAt_spec {terms : List (String × String)} {views : List SegmentedPostings}
    (opened : List.Forall₂ (Views groups) terms views) {segmentIdx : Nat} {group : List Addition}
    (here : groups[segmentIdx]? = some group) :
    match cursorsAt views segmentIdx with
    | none => ∃ term ∈ terms, postingsFor group term.1 term.2 = []
    | some cursors => ∃ found, List.Forall₂ Starts found cursors ∧
        listsOf group terms = found.map entries := by
  induction opened with
  | nil => exact ⟨[], .nil, rfl⟩
  | @cons term view terms views first rest ih =>
    obtain ⟨place, at_place, stands⟩ := forall₂_getElem? first.1 here
    have cursor : view.perSegment[segmentIdx]?.join = place := by rw [at_place, Option.join_some]
    rw [cursorsAt, List.mapM_cons, cursor]
    cases stored : find (PostingsBuilder.new.addAll group).invert term.1 term.2 with
    | none =>
      rw [stored] at stands
      cases stands
      exact ⟨term, List.mem_cons_self, storedEntries_none stored⟩
    | some v =>
      rw [stored] at stands
      cases stands with
      | @some _ cursor starts =>
        rw [cursorsAt] at ih
        simp only [Option.bind_eq_bind, Option.bind_some]
        cases later : views.mapM fun view => view.perSegment[segmentIdx]?.join with
        | none =>
          rw [later] at ih
          obtain ⟨other, member, missing⟩ := ih
          exact ⟨other, List.mem_cons_of_mem _ member, missing⟩
        | some cursors =>
          rw [later] at ih
          obtain ⟨found, all, same⟩ := ih
          refine ⟨v :: found, .cons starts all, ?_⟩
          rw [listsOf, List.map_cons, List.map_cons, ← same]
          exact congrArg (· :: _) (storedEntries_some stored)

theorem starts_perm {found : List TermPostings} {cursors sorted : List SegmentPostingsCursor}
    (starts : List.Forall₂ Starts found cursors) (perm : sorted.Perm cursors) :
    ∃ reordered, List.Forall₂ Starts reordered sorted ∧ reordered.Perm found := by
  have flipped : List.Forall₂ (flip Starts) cursors found := List.Forall₂.flip starts
  obtain ⟨reordered, all, moved⟩ := List.perm_comp_forall₂ perm flipped
  exact ⟨reordered, all.flip, moved⟩

theorem conjunctionHitsSegment_eq {found : List TermPostings}
    {cursors : List SegmentPostingsCursor} (starts : List.Forall₂ Starts found cursors) :
    conjunctionHitsSegment cursors = .ok (common (found.map entries)) := by
  obtain ⟨reordered, all, moved⟩ := starts_perm starts (List.perm_insertionSort
    (fun a b : SegmentPostingsCursor => a.localDf ≤ b.localDf) cursors)
  have ascending : ∀ list ∈ reordered.map entries, (list.map Prod.fst).Pairwise (· < ·) := by
    rw [List.forall_mem_map]
    intro v member
    obtain ⟨i, here⟩ := List.mem_iff_getElem?.mp member
    obtain ⟨cursor, -, stands⟩ := forall₂_getElem? all here
    exact entries_ascending stands.postings
  rw [conjunctionHitsSegment, walk_spec all]
  simp only [Except.map, conjunction, List.map_map]
  rw [← common_perm (moved.map entries) ascending]
  exact congrArg Except.ok (List.map_id' _)

theorem segmentHits_eq {terms : List (String × String)} {views : List SegmentedPostings}
    (opened : List.Forall₂ (Views groups) terms views) {segmentIdx : Nat} {group : List Addition}
    (here : groups[segmentIdx]? = some group) :
    segmentHits views segmentIdx = .ok (common (listsOf group terms)) := by
  have cursors := cursorsAt_spec opened here
  rw [segmentHits]
  cases found : cursorsAt views segmentIdx with
  | none =>
    rw [found] at cursors
    obtain ⟨term, member, missing⟩ := cursors
    rw [common_listsOf_nil member missing]
  | some cursors' =>
    rw [found] at cursors
    obtain ⟨postings, starts, same⟩ := cursors
    rw [same]
    exact conjunctionHitsSegment_eq starts

theorem mapM_range {α β ε : Type} {f : Nat → Except ε β} {g : α → β} {xs : List α}
    (each : ∀ i x, xs[i]? = some x → f i = .ok (g x)) :
    (List.range xs.length).mapM f = .ok (xs.map g) := by
  induction xs generalizing f with
  | nil => rfl
  | cons x xs ih =>
    have rest := ih fun i y here => each (i + 1) y here
    rw [List.length_cons, List.range_succ_eq_map, List.mapM_cons, each 0 x rfl, List.mapM_map,
      Function.comp_def, rest]
    rfl

theorem conjunctionHitsDisk_eq (stores : Stores settings index groups)
    (onDisk : index.postingsDiskBacked = true) {terms : List (String × String)}
    (nonempty : terms ≠ []) :
    conjunctionHitsDisk settings.hash index terms = common (listsOf groups.flatten terms) := by
  have opened := openTerms_spec stores terms
  rw [conjunctionHitsDisk]
  cases result : openTerms settings.hash index terms with
  | absent =>
    rw [result] at opened
    obtain ⟨term, member, missing⟩ := opened
    exact (common_listsOf_nil member missing).symm
  | failed => exact conjunctionHitsMerged_eq stores onDisk terms
  | views views =>
    rw [result] at opened
    have count : index.segments.length = groups.length := stores.served.length_eq.symm
    have each : ∀ i group, groups[i]? = some group →
        segmentHits views i = .ok (common (listsOf group terms)) :=
      fun i group here => segmentHits_eq opened here
    simp only [count, mapM_range each]
    have whole := congrArg (List.map Prod.fst) (conjunction_listsOf stores nonempty)
    simp only [conjunction, List.map_flatMap, List.map_map, Function.comp_def, List.map_id'] at whole
    rw [whole]
    rfl

end Disk

section Resident

def residentAs (v : TermPostings) : PostingsList where
  docIds := v.1
  freqs := v.2
  blockMetas := buildBlockMetasFromFreqs v.2
  roaring := if v.1.length > termRoaringThreshold then some (RoaringDocSet.fromSorted v.1) else none

theorem residentCursor_starts {v : TermPostings} (postings : IsPostings v.1 v.2)
    (nonempty : v.1 ≠ []) : ∃ cursor, residentCursor (residentAs v) = some cursor ∧ Starts v cursor := by
  obtain ⟨iter, built, start⟩ :=
    skipIter_start (List.isChain_iff_pairwise.mp postings.increasing) nonempty
  refine ⟨.ram iter v.2 v.1.length, ?_, postings, ⟨rfl, start⟩, rfl⟩
  rw [residentCursor, residentAs, built]

variable {found : List TermPostings}

theorem mapM_residentCursor (postings : ∀ v ∈ found, IsPostings v.1 v.2 ∧ v.1 ≠ []) :
    ∃ cursors, (found.map residentAs).mapM residentCursor = some cursors ∧
      List.Forall₂ Starts found cursors := by
  induction found with
  | nil => exact ⟨[], rfl, .nil⟩
  | cons v rest ih =>
    obtain ⟨here, later⟩ := List.forall_mem_cons.mp postings
    obtain ⟨cursors, read, starts⟩ := ih later
    obtain ⟨cursor, first, stands⟩ := residentCursor_starts here.1 here.2
    refine ⟨cursor :: cursors, ?_, .cons stands starts⟩
    rw [List.map_cons, List.mapM_cons, first, read]
    rfl

theorem residentConjunction_eq (postings : ∀ v ∈ found, IsPostings v.1 v.2 ∧ v.1 ≠ []) :
    residentConjunction (found.map residentAs) = common (found.map entries) := by
  cases found with
  | nil => rfl
  | cons v rest =>
    obtain ⟨here, later⟩ := List.forall_mem_cons.mp postings
    obtain ⟨cursors, read, starts⟩ := mapM_residentCursor later
    obtain ⟨followers, held, follow⟩ := mapM_hold starts
    -- the driver's entries carry no frequency, which the documents do not depend on
    have keys : ((v.1.map fun docId => (docId, 0)).map Prod.fst) = v.1 := by
      rw [List.map_map]
      exact List.map_id' _
    have walked := leapfrog_answers probe_answers follow
      (by rw [keys]; exact List.isChain_iff_pairwise.mp here.1.increasing)
      (fun entry _ => Nat.zero_le entry.1)
    rw [List.map_cons, residentConjunction, read]
    simp only [held, residentAs, walked, conjunction, List.map_map]
    rw [Function.comp_def, List.map_id', common, List.map_cons, common, entries_docs here.1, keys]

theorem residentHits_eq (postings : ∀ v ∈ found, IsPostings v.1 v.2 ∧ v.1 ≠ []) :
    residentHits (found.map residentAs) = common (found.map entries) := by
  have walked := residentConjunction_eq postings
  unfold residentHits
  split
  · rename_i lists first second split
    obtain ⟨v, w, rfl⟩ : ∃ v w, found = [v, w] := by
      match found, split with
      | [v, w], _ => exact ⟨v, w, rfl⟩
    cases split
    split
    · rename_i r0 r1 frequent frequent'
      have sorted : ∀ u ∈ [v, w], u.1.Pairwise (· < ·) ∧ ∀ d ∈ u.1, d < 2 ^ 32 := fun u member =>
        ⟨List.isChain_iff_pairwise.mp (postings u member).1.increasing,
          (postings u member).1.docs_fit⟩
      have set_of : ∀ {u r}, (residentAs u).roaring = some r → r = RoaringDocSet.fromSorted u.1 := by
        intro u r found
        rw [residentAs] at found
        split at found
        · exact (Option.some.inj found).symm
        · cases found
      rw [set_of frequent, set_of frequent', intersectForEach_fromSorted (sorted v (by simp)).1
        (sorted v (by simp)).2 (sorted w (by simp)).1 (sorted w (by simp)).2]
      rw [List.map_cons, common, entries_docs (postings v (by simp)).1]
      refine List.filter_congr fun docId _ => ?_
      rw [Bool.eq_iff_iff, decide_eq_true_eq, List.map_singleton, List.all_cons, List.all_nil,
        Bool.and_true, lookup_isSome, entries_docs (postings w (by simp)).1]
    · exact walked
  · exact walked

variable {settings : Settings Digest} {index : DocumentIndex Digest}
  {groups : List (List Addition)}

theorem mapM_resident {recorded : List Addition} {read : String × String → Option PostingsList}
    (reads : ∀ term, read term =
      (find (PostingsBuilder.new.addAll recorded).invert term.1 term.2).map residentAs)
    (terms : List (String × String)) :
    match terms.mapM read with
    | none => ∃ term ∈ terms, postingsFor recorded term.1 term.2 = []
    | some lists => ∃ found : List TermPostings, lists = found.map residentAs ∧
        listsOf recorded terms = found.map entries ∧
        ∀ v ∈ found, IsPostings v.1 v.2 ∧ v.1 ≠ [] := by
  induction terms with
  | nil => exact ⟨[], rfl, rfl, by simp⟩
  | cons term rest ih =>
    rw [List.mapM_cons, reads]
    cases stored : find (PostingsBuilder.new.addAll recorded).invert term.1 term.2 with
    | none => exact ⟨term, List.mem_cons_self, storedEntries_none stored⟩
    | some v =>
      simp only [Option.map_some, Option.bind_eq_bind, Option.bind_some]
      cases later : rest.mapM read with
      | none =>
        rw [later] at ih
        obtain ⟨other, member, missing⟩ := ih
        exact ⟨other, List.mem_cons_of_mem _ member, missing⟩
      | some lists =>
        rw [later] at ih
        obtain ⟨found, rfl, same, postings⟩ := ih
        refine ⟨v :: found, rfl, ?_, List.forall_mem_cons.mpr ⟨invert_isPostings stored, postings⟩⟩
        rw [listsOf, List.map_cons, List.map_cons, ← same]
        exact congrArg (· :: _) (storedEntries_some stored)

theorem residentList_eq (stores : Stores settings index groups)
    (inMemory : index.postingsDiskBacked = false) (term : String × String) :
    residentList index term =
      (find (PostingsBuilder.new.addAll groups.flatten).invert term.1 term.2).map residentAs := by
  rw [residentList, stores.resident inMemory]
  cases stored : find (PostingsBuilder.new.addAll groups.flatten).invert term.1 term.2 with
  | none => rfl
  | some v =>
    have nonempty := (invert_isPostings stored).2
    simp only [Option.map_some, Option.filter_some, residentAs]
    rw [if_pos (by simpa using nonempty)]

theorem exists_map_of_perm {α β : Type} {f : α → β} {xs : List α} {ys : List β}
    (perm : ys.Perm (xs.map f)) : ∃ zs : List α, ys = zs.map f ∧ zs.Perm xs := by
  have image : List.Forall₂ (fun y x => y = f x) (xs.map f) xs :=
    List.forall₂_map_left_iff.mpr (List.forall₂_same.mpr fun _ _ => rfl)
  obtain ⟨zs, all, moved⟩ := List.perm_comp_forall₂ perm image
  refine ⟨zs, ?_, moved⟩
  rw [← List.forall₂_eq_eq_eq, List.forall₂_map_right_iff]
  exact all

variable [DecidableEq Digest]

/-- The documents of a conjunction, wherever the postings are. -/
theorem conjunctionHitsInternal_eq (stores : Stores settings index groups)
    (terms : List (String × String)) :
    conjunctionHitsInternal settings.hash index terms = common (listsOf groups.flatten terms) := by
  rw [conjunctionHitsInternal]
  split
  · rename_i empty
    rw [List.isEmpty_iff.mp empty]
    rfl
  · rename_i some_term
    have nonempty : terms ≠ [] := by simpa using some_term
    split
    · rename_i onDisk
      exact conjunctionHitsDisk_eq stores onDisk nonempty
    · rename_i inMemory
      rw [Bool.not_eq_true] at inMemory
      have read := mapM_resident (residentList_eq stores inMemory) terms
      cases lists : terms.mapM (residentList index) with
      | none =>
        rw [lists] at read
        obtain ⟨term, member, missing⟩ := read
        exact (common_listsOf_nil member missing).symm
      | some lists' =>
        rw [lists] at read
        obtain ⟨found, rfl, same, postings⟩ := read
        obtain ⟨reordered, sorted, moved⟩ := exists_map_of_perm (List.perm_insertionSort
          (fun a b : PostingsList => a.docIds.length ≤ b.docIds.length) (found.map residentAs))
        have postings' : ∀ v ∈ reordered, IsPostings v.1 v.2 ∧ v.1 ≠ [] :=
          fun v member => postings v (moved.mem_iff.mp member)
        simp only [sorted]
        rw [residentHits_eq postings', same]
        refine common_perm (moved.map entries) ?_
        rw [List.forall_mem_map]
        exact fun v member => entries_ascending (postings' v member).1

end Resident

section Matches

variable {settings : Settings Digest} {mapping : IndexMapping} {recorded : List Addition}

def Satisfies (settings : Settings Digest) (mapping : IndexMapping) (recorded : List Addition)
    (clause : MatchClause) (docId : Nat) : Prop :=
  let terms := normalizedTermsForField settings.unicode clause.value clause.field mapping
  if clause.requireAll then
    terms ≠ [] ∧ ∀ term ∈ terms, docId ∈ docsOf recorded (clause.field, term)
  else ∃ term ∈ terms, docId ∈ docsOf recorded (clause.field, term)

def Reads (recorded : List Addition) (read : String → String → Option (List Nat)) : Prop :=
  ∀ field term,
    match read field term with
    | none => docsOf recorded (field, term) = []
    | some docIds => docIds = docsOf recorded (field, term)

structure Tokens (settings : Settings Digest) (mapping : IndexMapping) (recorded : List Addition)
    (clause : MatchClause) (tokens : ClauseTokens) : Prop where
  ascending : ∀ docIds ∈ tokens.tokenDocIds, docIds.Pairwise (· < ·)
  nonempty : tokens.tokenDocIds ≠ []
  contains : ∀ docId, tokens.contains docId = true ↔ Satisfies settings mapping recorded clause docId

variable {read : String → String → Option (List Nat)}

theorem mem_tokenDocIds (reads : Reads recorded read) {field : String} {terms : List String}
    {docIds : List Nat} (member : docIds ∈ (terms.map (read field)).reduceOption) :
    ∃ term ∈ terms, docIds = docsOf recorded (field, term) := by
  rw [List.reduceOption_mem_iff, List.mem_map] at member
  obtain ⟨term, inside, found⟩ := member
  have known := reads field term
  rw [found] at known
  exact ⟨term, inside, known⟩

theorem read_of_mem (reads : Reads recorded read) {field term : String} {docId : Nat}
    (member : docId ∈ docsOf recorded (field, term)) :
    read field term = some (docsOf recorded (field, term)) := by
  have known := reads field term
  cases found : read field term with
  | none =>
    rw [found] at known
    rw [known] at member
    cases member
  | some docIds =>
    rw [found] at known
    rw [known]

theorem any_tokens (reads : Reads recorded read) (field : String) (terms : List String)
    (docId : Nat) :
    ((terms.map (read field)).reduceOption.any fun docIds => docIds.contains docId) = true ↔
      ∃ term ∈ terms, docId ∈ docsOf recorded (field, term) := by
  rw [List.any_eq_true]
  constructor
  · rintro ⟨docIds, member, inside⟩
    obtain ⟨term, listed, rfl⟩ := mem_tokenDocIds reads member
    exact ⟨term, listed, List.contains_iff_mem.mp inside⟩
  · rintro ⟨term, listed, inside⟩
    refine ⟨docsOf recorded (field, term), ?_, List.contains_iff_mem.mpr inside⟩
    rw [List.reduceOption_mem_iff, List.mem_map]
    exact ⟨term, listed, read_of_mem reads inside⟩

theorem all_tokens (reads : Reads recorded read) (field : String) {terms : List String}
    (present : ∀ term ∈ terms, (read field term).isNone = false) (docId : Nat) :
    ((terms.map (read field)).reduceOption.all fun docIds => docIds.contains docId) = true ↔
      ∀ term ∈ terms, docId ∈ docsOf recorded (field, term) := by
  rw [List.all_eq_true]
  constructor
  · intro every term listed
    have known := reads field term
    cases found : read field term with
    | none =>
      have here := present term listed
      rw [found] at here
      cases here
    | some docIds =>
      rw [found] at known
      subst known
      refine List.contains_iff_mem.mp (every _ ?_)
      rw [List.reduceOption_mem_iff, List.mem_map]
      exact ⟨term, listed, found⟩
  · intro every docIds member
    obtain ⟨term, listed, rfl⟩ := mem_tokenDocIds reads member
    exact List.contains_iff_mem.mpr (every term listed)

theorem clauseTokens_spec (reads : Reads recorded read) (clause : MatchClause) :
    match clauseTokens settings mapping read clause with
    | .error () => ∀ docId, ¬ Satisfies settings mapping recorded clause docId
    | .ok tokens => Tokens settings mapping recorded clause tokens := by
  obtain ⟨terms, resolved⟩ : ∃ terms, terms =
      normalizedTermsForField settings.unicode clause.value clause.field mapping := ⟨_, rfl⟩
  have satisfies : ∀ docId, Satisfies settings mapping recorded clause docId ↔
      if clause.requireAll then
        terms ≠ [] ∧ ∀ term ∈ terms, docId ∈ docsOf recorded (clause.field, term)
      else ∃ term ∈ terms, docId ∈ docsOf recorded (clause.field, term) := by
    intro docId
    rw [Satisfies, resolved]
  simp only [satisfies, clauseTokens, ← resolved]
  split
  · rename_i decided
    intro docId holds
    split at decided
    · rename_i empty
      rw [List.isEmpty_iff, List.map_eq_nil_iff] at empty
      rw [empty] at holds
      split at holds
      · exact holds.1 rfl
      · obtain ⟨term, member, -⟩ := holds
        cases member
    · split at decided
      · rename_i missing
        rw [Bool.and_eq_true, List.any_map, List.any_eq_true] at missing
        obtain ⟨every, term, member, absent⟩ := missing
        rw [if_pos every] at holds
        rw [Function.comp_apply, read_of_mem reads (holds.2 term member)] at absent
        cases absent
      · split at decided
        · rename_i nothing
          have present : ∃ term ∈ terms, docId ∈ docsOf recorded (clause.field, term) := by
            split at holds
            · obtain ⟨term, member⟩ := List.exists_mem_of_ne_nil terms holds.1
              exact ⟨term, member, holds.2 term member⟩
            · exact holds
          rw [← any_tokens reads, List.isEmpty_iff.mp nothing] at present
          cases present
        · cases decided
  · rename_i tokens decided
    split at decided
    · cases decided
    · split at decided
      · cases decided
      · split at decided
        · cases decided
        · rename_i some_term missing some_docs
          cases decided
          refine ⟨?_, by simpa using some_docs, fun docId => ?_⟩
          · intro docIds member
            obtain ⟨term, -, rfl⟩ := mem_tokenDocIds reads member
            exact docsOf_ascending recorded _
          · rw [satisfies, ClauseTokens.contains]
            cases every : clause.requireAll with
            | true =>
              have present : ∀ term ∈ terms, (read clause.field term).isNone = false := by
                rw [every, Bool.true_and, List.any_map, Bool.not_eq_true, List.any_eq_false]
                  at missing
                exact fun term member => Bool.not_eq_true _ ▸ missing term member
              rw [if_pos rfl, if_pos rfl, all_tokens reads clause.field present]
              have listed : terms ≠ [] := by simpa using some_term
              exact (and_iff_right listed).symm
            | false =>
              rw [if_neg Bool.false_ne_true, if_neg Bool.false_ne_true, any_tokens reads]

theorem foldl_retain (lists : List (List Nat)) (met : List Nat) :
    lists.foldl (fun met docIds => met.filter fun docId => (btreeSet docIds).contains docId) met =
      met.filter fun docId => lists.all fun docIds => docIds.contains docId := by
  induction lists generalizing met with
  | nil => simp
  | cons docIds rest ih =>
    rw [List.foldl_cons, ih, List.filter_filter]
    refine List.filter_congr fun docId _ => ?_
    rw [List.all_cons, Bool.and_comm]
    congr 1
    rw [Bool.eq_iff_iff, List.contains_iff_mem, List.contains_iff_mem, mem_btreeSet]

theorem docs_spec {clause : MatchClause} {tokens : ClauseTokens}
    (spec : Tokens settings mapping recorded clause tokens) :
    tokens.docs.Pairwise (· < ·) ∧
      ∀ docId, docId ∈ tokens.docs ↔ tokens.contains docId = true := by
  obtain ⟨requireAll, lists⟩ := tokens
  have ascending := spec.ascending
  have nonempty := spec.nonempty
  simp only at ascending nonempty
  unfold ClauseTokens.docs ClauseTokens.contains
  match lists with
  | [] => exact absurd rfl nonempty
  | [docIds] => simp [ascending docIds (by simp)]
  | first :: second :: rest =>
    cases requireAll with
    | true =>
      simp only [if_true, foldl_retain]
      refine ⟨(btreeSet_ascending first).filter _, fun docId => ?_⟩
      simp only [List.mem_filter, mem_btreeSet, List.all_cons, Bool.and_eq_true,
        List.contains_iff_mem]
    | false =>
      simp only [Bool.false_eq_true, if_false]
      refine ⟨btreeSet_ascending _, fun docId => ?_⟩
      rw [mem_btreeSet, List.mem_flatten, List.any_eq_true]
      simp only [List.contains_iff_mem]

theorem mapM_clauseTokens (reads : Reads recorded read) (clauses : List MatchClause) :
    match clauses.mapM (clauseTokens settings mapping read) with
    | .error () => ∃ clause ∈ clauses, ∀ docId, ¬ Satisfies settings mapping recorded clause docId
    | .ok tokens => List.Forall₂ (Tokens settings mapping recorded) clauses tokens := by
  induction clauses with
  | nil => exact .nil
  | cons clause rest ih =>
    have here := @clauseTokens_spec Digest settings mapping recorded read reads clause
    rw [List.mapM_cons]
    cases first : clauseTokens settings mapping read clause with
    | error e =>
      rw [first] at here
      exact ⟨clause, List.mem_cons_self, here⟩
    | ok tokens =>
      rw [first] at here
      simp only [bind, Except.bind]
      cases later : rest.mapM (clauseTokens settings mapping read) with
      | error e =>
        rw [later] at ih
        obtain ⟨other, member, never⟩ := ih
        exact ⟨other, List.mem_cons_of_mem _ member, never⟩
      | ok others =>
        rw [later] at ih
        exact .cons here ih

theorem least_mem (entries : List (Nat × Nat)) (best : Option (Nat × Nat)) :
    (best ≠ none ∨ entries ≠ []) →
    ∃ kept, entries.foldl keepLeast best = some kept ∧ (best = some kept ∨ kept ∈ entries) := by
  induction entries generalizing best with
  | nil =>
    intro some_left
    cases best with
    | none => simp at some_left
    | some kept => exact ⟨kept, rfl, .inl rfl⟩
  | cons entry rest ih =>
    intro _
    rw [List.foldl_cons]
    cases best with
    | none =>
      obtain ⟨kept, folded, source⟩ := ih (some entry) (.inl (by simp))
      refine ⟨kept, folded, .inr ?_⟩
      rcases source with same | later
      · exact Option.some.inj same ▸ List.mem_cons_self
      · exact List.mem_cons_of_mem _ later
    | some old =>
      rw [keepLeast]
      split
      · obtain ⟨kept, folded, source⟩ := ih (some entry) (.inl (by simp))
        refine ⟨kept, folded, .inr ?_⟩
        rcases source with same | later
        · exact Option.some.inj same ▸ List.mem_cons_self
        · exact List.mem_cons_of_mem _ later
      · obtain ⟨kept, folded, source⟩ := ih (some old) (.inl (by simp))
        exact ⟨kept, folded, source.imp id (List.mem_cons_of_mem _)⟩

theorem leastIndex_lt {keys : List Nat} (nonempty : keys ≠ []) : leastIndex keys < keys.length := by
  obtain ⟨kept, folded, source⟩ := least_mem keys.zipIdx none (.inr (by simpa using nonempty))
  rw [leastIndex, folded]
  rcases source with impossible | member
  · cases impossible
  · exact (List.mem_zipIdx_iff_getElem?.mp member) |> fun found =>
      (List.getElem?_eq_some_iff.mp found).1

theorem conjunctionOfTokens_spec {clauses : List MatchClause} {tokens : List ClauseTokens}
    (spec : List.Forall₂ (Tokens settings mapping recorded) clauses tokens)
    (nonempty : clauses ≠ []) :
    (conjunctionOfTokens tokens).Pairwise (· < ·) ∧
      ∀ docId, docId ∈ conjunctionOfTokens tokens ↔
        ∀ clause ∈ clauses, Satisfies settings mapping recorded clause docId := by
  have some_tokens : tokens.map ClauseTokens.estimate ≠ [] := by
    intro empty
    have size := spec.length_eq
    rw [List.map_eq_nil_iff.mp empty, List.length_nil, List.length_eq_zero_iff] at size
    exact nonempty size
  obtain ⟨driverIdx, chosen⟩ : ∃ driverIdx, driverIdx =
      leastIndex (tokens.map ClauseTokens.estimate) := ⟨_, rfl⟩
  have inside : driverIdx < tokens.length := by
    rw [chosen, ← List.length_map (f := ClauseTokens.estimate)]
    exact leastIndex_lt some_tokens
  have here : tokens[driverIdx]? = some tokens[driverIdx] := List.getElem?_eq_getElem inside
  obtain ⟨clause, -, driver⟩ := forall₂_getElem? spec.flip here
  obtain ⟨ascending, listed⟩ := docs_spec driver
  have every : ∀ docId, (∀ token ∈ tokens, token.contains docId = true) ↔
      ∀ clause ∈ clauses, Satisfies settings mapping recorded clause docId := by
    intro docId
    constructor
    · intro all clause member
      obtain ⟨i, at_i⟩ := List.mem_iff_getElem?.mp member
      obtain ⟨token, found, known⟩ := forall₂_getElem? spec at_i
      exact (known.contains docId).mp (all token (List.mem_of_getElem? found))
    · intro all token member
      obtain ⟨i, at_i⟩ := List.mem_iff_getElem?.mp member
      obtain ⟨clause, found, known⟩ := forall₂_getElem? spec.flip at_i
      exact (known.contains docId).mpr (all clause (List.mem_of_getElem? found))
  rw [conjunctionOfTokens, ← chosen, here]
  refine ⟨ascending.filter _, fun docId => ?_⟩
  rw [List.mem_filter, listed, ← every, List.all_eq_true]
  constructor
  · rintro ⟨first, others⟩ token member
    obtain ⟨i, at_i⟩ := List.mem_iff_getElem?.mp member
    have tested := others (token, i) (List.mem_zipIdx_iff_getElem?.mpr at_i)
    rw [Bool.or_eq_true, beq_iff_eq] at tested
    rcases tested with same | holds
    · subst same
      rw [here] at at_i
      cases at_i
      exact first
    · exact holds
  · intro all
    refine ⟨all _ (List.mem_of_getElem? here), ?_⟩
    rintro ⟨token, i⟩ member
    rw [Bool.or_eq_true]
    exact .inr (all token (List.mem_of_getElem? (List.mem_zipIdx_iff_getElem?.mp member)))

theorem conjunctionOfMatchesWith_spec (reads : Reads recorded read) {clauses : List MatchClause}
    (nonempty : clauses ≠ []) :
    (conjunctionOfMatchesWith settings mapping read clauses).Pairwise (· < ·) ∧
      ∀ docId, docId ∈ conjunctionOfMatchesWith settings mapping read clauses ↔
        ∀ clause ∈ clauses, Satisfies settings mapping recorded clause docId := by
  have tokens := @mapM_clauseTokens Digest settings mapping recorded read reads clauses
  rw [conjunctionOfMatchesWith]
  cases result : clauses.mapM (clauseTokens settings mapping read) with
  | error e =>
    rw [result] at tokens
    obtain ⟨clause, member, never⟩ := tokens
    refine ⟨List.Pairwise.nil, fun docId => iff_of_false List.not_mem_nil fun all => ?_⟩
    exact never docId (all clause member)
  | ok found =>
    rw [result] at tokens
    exact conjunctionOfTokens_spec tokens nonempty

/-- The documents every clause accepts, wherever the postings are. -/
theorem conjunctionOfMatches_spec {index : DocumentIndex Digest} {groups : List (List Addition)}
    (stores : Stores settings index groups) {clauses : List MatchClause} {docs : List Nat}
    (answered : conjunctionOfMatches settings mapping index clauses = some docs) :
    docs.Pairwise (· < ·) ∧ ∀ docId, docId ∈ docs ↔
      ∀ clause ∈ clauses, Satisfies settings mapping groups.flatten clause docId := by
  rw [conjunctionOfMatches] at answered
  split at answered
  · cases answered
  · rename_i some_clause
    have nonempty : clauses ≠ [] := by simpa using some_clause
    split at answered
    · rename_i onDisk
      cases answered
      refine conjunctionOfMatchesWith_spec (fun field term => ?_) nonempty
      have decoded := decoded_docs stores onDisk (field, term)
      cases found : index.decodeFromSegment field term with
      | none =>
        rw [found] at decoded
        exact decoded
      | some v =>
        rw [found] at decoded
        exact decoded
    · rename_i inMemory
      cases answered
      refine conjunctionOfMatchesWith_spec (fun field term => ?_) nonempty
      rw [Bool.not_eq_true] at inMemory
      rw [stores.resident inMemory]
      cases stored : find (PostingsBuilder.new.addAll groups.flatten).invert field term with
      | none => exact congrArg (List.map Prod.fst) (storedEntries_none stored)
      | some v =>
        exact (entries_docs (invert_isPostings stored).1).symm.trans
          (congrArg (List.map Prod.fst) (storedEntries_some stored).symm)

end Matches

end Surch.Api
