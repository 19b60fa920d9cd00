import Surch.Api.Intersections
import Surch.Index.CheckedRuns

/-! The fused scorers: the documents of the conjunction, each with the sum of what its terms
contribute at the frequencies that are stored. -/
namespace Surch.Api
open Surch.Lib Surch.Codec Surch.Postings Surch.Index

variable {Digest : Type}

section Gallop

def TermCtx.entries (term : TermCtx) : List (Nat × Nat) := term.docIds.zip term.freqs

structure TermCtx.Sound (term : TermCtx) : Prop where
  postings : IsPostings term.docIds term.freqs
  roaring : ∀ set, term.roaring = some set → set = RoaringDocSet.fromSorted term.docIds

theorem TermCtx.Sound.ascending {term : TermCtx} (sound : term.Sound) :
    (term.entries.map Prod.fst).Pairwise (· < ·) :=
  entries_ascending (v := (term.docIds, term.freqs)) sound.postings

def Gallops (list : List (Nat × Nat)) (bound : Nat) (follower : TermCtx × Nat) : Prop :=
  follower.1.Sound ∧ list = follower.1.entries ∧
    ∀ i < follower.2, ∀ inside : i < follower.1.docIds.length, follower.1.docIds[i] < bound

theorem gallopProbe_answers : Answers gallopProbe Gallops where
  later := by
    rintro list bound bound' follower ⟨sound, same, passed⟩ ordered
    exact ⟨sound, same, fun i early inside => (passed i early inside).trans_le ordered⟩
  probe := by
    rintro list bound ⟨term, cursor⟩ key ⟨sound, rfl, passed⟩ ordered
    have ascending : term.docIds.Pairwise (· < ·) :=
      List.isChain_iff_pairwise.mp sound.postings.increasing
    have moved := gallopOffset_drop term.docIds key cursor ascending
    have before : ∀ i < firstFrom term.docIds key cursor, ∀ inside : i < term.docIds.length,
        term.docIds[i] < key := by
      intro i early inside
      by_cases old : i < cursor
      · exact (passed i old inside).trans_le ordered
      · exact lt_of_lt_firstFrom term.docIds key (Nat.not_lt.mp old) early inside
    refine ⟨(term, firstFrom term.docIds key cursor), ?_, sound, rfl, before⟩
    simp only [gallopProbe, moved]
    cases found : term.docIds[firstFrom term.docIds key cursor]? with
    | none =>
      have past := List.getElem?_eq_none_iff.mp found
      have missing : term.entries.lookup key = none := by
        refine lookup_past (v := (term.docIds, term.freqs)) sound.postings fun docId member => ?_
        obtain ⟨i, inside, rfl⟩ := List.mem_iff_getElem.mp member
        exact before i (inside.trans_le past) inside
      rw [missing]
      rfl
    | some docId =>
      obtain ⟨inside, value⟩ := List.getElem?_eq_some_iff.mp found
      have reached := firstFrom_le_getElem term.docIds key inside
      rw [value] at reached
      have here := lookup_at (v := (term.docIds, term.freqs)) sound.postings before found reached
      rw [TermCtx.entries]
      rw [Index.entries] at here
      rw [here]
      simp only [Option.some.injEq]

theorem freqAt_eq {term : TermCtx} {cursor bound docId : Nat}
    (gallops : Gallops term.entries bound (term, cursor)) (ordered : bound ≤ docId) :
    ∃ cursor', freqAt term cursor docId = ((term.entries.lookup docId).getD 0, cursor') ∧
      Gallops term.entries docId (term, cursor') := by
  obtain ⟨⟨term', cursor'⟩, probed, stays⟩ :=
    gallopProbe_answers.probe term.entries bound (term, cursor) docId gallops ordered
  simp only [gallopProbe, Except.ok.injEq, Prod.mk.injEq] at probed
  obtain ⟨hit, rfl, rfl⟩ := probed
  refine ⟨_, ?_, stays⟩
  simp only [freqAt, ← hit]
  split <;> rfl

theorem sweepFreqs_eq {first second : TermCtx} {c0 c1 bound : Nat} {docIds : List Nat}
    (gallops : Gallops first.entries bound (first, c0))
    (gallops' : Gallops second.entries bound (second, c1)) (ascending : docIds.Pairwise (· < ·))
    (ordered : ∀ docId ∈ docIds, bound ≤ docId) :
    sweepFreqs first second c0 c1 docIds = docIds.map fun docId =>
      (docId, [(first.entries.lookup docId).getD 0, (second.entries.lookup docId).getD 0]) := by
  induction docIds generalizing c0 c1 bound with
  | nil => rfl
  | cons docId rest ih =>
    obtain ⟨below, later⟩ := List.pairwise_cons.mp ascending
    obtain ⟨c0', read, stays⟩ := freqAt_eq gallops (ordered docId List.mem_cons_self)
    obtain ⟨c1', read', stays'⟩ := freqAt_eq gallops' (ordered docId List.mem_cons_self)
    rw [sweepFreqs, read, read']
    simp only
    rw [ih stays stays' later fun other member => (below other member).le, List.map_cons]

theorem gallops_start {term : TermCtx} (sound : term.Sound) : Gallops term.entries 0 (term, 0) :=
  ⟨sound, rfl, fun i early => absurd early (Nat.not_lt_zero i)⟩

variable {terms : List TermCtx}

theorem gallopFreqs_eq (sound : ∀ term ∈ terms, term.Sound) :
    gallopFreqs terms = conjunction (terms.map TermCtx.entries) := by
  cases terms with
  | nil => rfl
  | cons driver followers =>
    obtain ⟨first, rest⟩ := List.forall_mem_cons.mp sound
    have standing : List.Forall₂ (fun list follower => Gallops list 0 follower)
        (followers.map TermCtx.entries) (followers.map fun term => (term, 0)) := by
      rw [List.forall₂_map_left_iff, List.forall₂_map_right_iff]
      exact List.forall₂_same.mpr fun term member => gallops_start (rest term member)
    have walked := leapfrog_answers gallopProbe_answers standing first.ascending
      fun entry _ => Nat.zero_le entry.1
    rw [TermCtx.entries] at walked
    rw [gallopFreqs, walked]
    rfl

/-- The documents of the conjunction with their frequencies, whichever walk is taken. -/
theorem residentFreqs_eq (sound : ∀ term ∈ terms, term.Sound) :
    residentFreqs terms = conjunction (terms.map TermCtx.entries) := by
  have walked := gallopFreqs_eq sound
  unfold residentFreqs
  split
  · rename_i first second
    obtain ⟨here, rest⟩ := List.forall_mem_cons.mp sound
    have here' := rest second List.mem_cons_self
    split
    · rename_i r0 r1 roaring roaring'
      have docs := entries_docs (v := (first.docIds, first.freqs)) here.postings
      have docs' := entries_docs (v := (second.docIds, second.freqs)) here'.postings
      have ascending : first.docIds.Pairwise (· < ·) :=
        List.isChain_iff_pairwise.mp here.postings.increasing
      have met : r0.intersectForEach r1 = common ([first, second].map TermCtx.entries) := by
        rw [here.roaring r0 roaring, here'.roaring r1 roaring',
          intersectForEach_fromSorted ascending here.postings.docs_fit
            (List.isChain_iff_pairwise.mp here'.postings.increasing) here'.postings.docs_fit]
        rw [List.map_cons, common]
        change _ = ((Index.entries (first.docIds, first.freqs)).map Prod.fst).filter _
        rw [docs]
        refine List.filter_congr fun docId _ => ?_
        rw [Bool.eq_iff_iff, decide_eq_true_eq, List.map_cons, List.map_nil, List.all_cons,
          List.all_nil, Bool.and_true, lookup_isSome]
        change _ ↔ docId ∈ (Index.entries (second.docIds, second.freqs)).map Prod.fst
        rw [docs']
      have all_ascending : ∀ list ∈ [first, second].map TermCtx.entries,
          (list.map Prod.fst).Pairwise (· < ·) := by
        rw [List.forall_mem_map]
        exact fun term member => (sound term member).ascending
      rw [met, sweepFreqs_eq (gallops_start here) (gallops_start here')
        (common_ascending all_ascending) fun docId _ => Nat.zero_le docId, conjunction]
      refine List.map_congr_left fun docId member => ?_
      have present := (mem_common.mp member).2
      rw [List.forall_mem_map] at present
      have hit := lookup_isSome.mpr (present first List.mem_cons_self)
      have hit' := lookup_isSome.mpr (present second (List.mem_cons_of_mem _ List.mem_cons_self))
      obtain ⟨freq, found⟩ := Option.isSome_iff_exists.mp hit
      obtain ⟨freq', found'⟩ := Option.isSome_iff_exists.mp hit'
      simp [found, found']
    · exact walked
  · exact walked

end Gallop

section Spec

variable (mapping : IndexMapping) (index : DocumentIndex Digest) (bm25 : Bm25)
  (mode : FusedConjunctionScoreMode) (recorded : List Addition)

def storedFreq (term : String × String) (docId : Nat) : Nat :=
  ((postingsFor recorded term.1 term.2).lookup docId).getD 0

def contribution (term : String × String) (docId freq : Nat) : ℚ :=
  match fieldScoringStats mapping index term.1 with
  | none => fusedBm25Contribution none mode
  | some stats =>
    termContrib bm25 mode stats (postingsFor recorded term.1 term.2).length docId freq

def conjunctionScores (terms : List (String × String)) : List (ℚ × Nat) :=
  (common (listsOf recorded terms)).map fun docId =>
    (finishSum (terms.map fun term => contribution mapping index bm25 mode recorded term docId
      (storedFreq recorded term docId)).sum, docId)

end Spec

section Sums

variable {α : Type} {entriesOf : α → List (Nat × Nat)} {xs : List α} {docId : Nat}

theorem filterMap_lookup (present : ∀ x ∈ xs, ((entriesOf x).lookup docId).isSome = true) :
    (xs.map entriesOf).filterMap (List.lookup docId) =
      xs.map fun x => ((entriesOf x).lookup docId).getD 0 := by
  induction xs with
  | nil => rfl
  | cons x rest ih =>
    obtain ⟨here, later⟩ := List.forall_mem_cons.mp present
    obtain ⟨freq, found⟩ := Option.isSome_iff_exists.mp here
    rw [List.map_cons, List.filterMap_cons, found, ih later, List.map_cons, found]
    rfl

theorem lookup_of_common (member : docId ∈ common (xs.map entriesOf)) :
    ∀ x ∈ xs, ((entriesOf x).lookup docId).isSome = true := by
  have present := (mem_common.mp member).2
  rw [List.forall_mem_map] at present
  exact fun x inside => lookup_isSome.mpr (present x inside)

theorem map_conjunction {β : Type} (f : Nat → List Nat → β) :
    (conjunction (xs.map entriesOf)).map (fun hit => f hit.1 hit.2) =
      (common (xs.map entriesOf)).map fun docId =>
        f docId (xs.map fun x => ((entriesOf x).lookup docId).getD 0) := by
  rw [conjunction, List.map_map]
  refine List.map_congr_left fun docId member => ?_
  rw [Function.comp_apply, filterMap_lookup (lookup_of_common member)]

variable {init : List Nat} {pairs : List (Nat × Nat)}

theorem foldl_set_apart {j : Nat} (apart : j ∉ pairs.map Prod.fst) :
    (pairs.foldl (fun values entry => values.set entry.1 entry.2) init)[j]? = init[j]? := by
  induction pairs generalizing init with
  | nil => rfl
  | cons entry rest ih =>
    rw [List.map_cons, List.mem_cons, not_or] at apart
    rw [List.foldl_cons, ih apart.2, List.getElem?_set_ne fun same => apart.1 same.symm]

theorem foldl_set_mem (nodup : (pairs.map Prod.fst).Nodup) {j value : Nat}
    (member : (j, value) ∈ pairs) (inside : j < init.length) :
    (pairs.foldl (fun values entry => values.set entry.1 entry.2) init)[j]? = some value := by
  induction pairs generalizing init with
  | nil => cases member
  | cons entry rest ih =>
    rw [List.map_cons, List.nodup_cons] at nodup
    rw [List.foldl_cons]
    rcases List.mem_cons.mp member with rfl | later
    · rw [foldl_set_apart nodup.1, List.getElem?_set_self inside]
    · exact ih nodup.2 later (by rwa [List.length_set])

theorem foldl_set_length :
    (pairs.foldl (fun values entry => values.set entry.1 entry.2) init).length = init.length := by
  induction pairs generalizing init with
  | nil => rfl
  | cons entry rest ih => rw [List.foldl_cons, ih, List.length_set]

theorem frequencies_eq {values : List Nat} {order : List (Nat × Nat)}
    (perm : order.Perm values.zipIdx) :
    frequencies values.length (order.map Prod.snd) (order.map Prod.fst) = values := by
  have zipped : (order.map Prod.snd).zip (order.map Prod.fst) = order.map Prod.swap := by
    rw [List.zip_map']
    rfl
  have nodup : ((order.map Prod.swap).map Prod.fst).Nodup := by
    rw [List.map_map]
    have keys : (order.map Prod.snd).Perm (List.range values.length) := by
      have moved := perm.map Prod.snd
      rwa [List.zipIdx_map_snd, ← List.range_eq_range'] at moved
    exact keys.nodup_iff.mpr List.nodup_range
  rw [frequencies, zipped]
  refine List.ext_getElem? fun j => ?_
  by_cases inside : j < values.length
  · rw [List.getElem?_eq_getElem inside]
    refine foldl_set_mem nodup ?_ (by rwa [List.length_replicate])
    refine List.mem_map.mpr ⟨(values[j], j), perm.mem_iff.mpr ?_, rfl⟩
    exact List.mem_zipIdx_iff_getElem?.mpr (List.getElem?_eq_getElem inside)
  · rw [List.getElem?_eq_none (by rw [foldl_set_length, List.length_replicate]; omega),
      List.getElem?_eq_none (by omega)]

end Sums

section Clauses

def Either {β ε : Type} (R : β → Prop) (E : ε → Prop) : Except ε β → Prop
  | .ok y => R y
  | .error e => E e

theorem mapM_either {α β γ ε : Type} {f : α → Except ε β} {R : γ → β → Prop} {E : γ → ε → Prop}
    {xs : List α} {ts : List γ} (each : List.Forall₂ (fun x t => Either (R t) (E t) (f x)) xs ts) :
    Either (List.Forall₂ R ts) (fun e => ∃ t ∈ ts, E t e) (xs.mapM f) := by
  induction each with
  | nil => exact .nil
  | @cons x t xs ts here rest ih =>
    rw [List.mapM_cons]
    cases first : f x with
    | error e =>
      rw [first] at here
      exact ⟨t, List.mem_cons_self, here⟩
    | ok y =>
      rw [first] at here
      cases later : xs.mapM f with
      | error e =>
        rw [later] at ih
        obtain ⟨other, member, decided⟩ := ih
        exact ⟨other, List.mem_cons_of_mem _ member, decided⟩
      | ok ys =>
        rw [later] at ih
        exact .cons here ih

theorem forall₂_of_mapM {α β : Type} {f : α → Option β} {xs : List α} {ys : List β}
    (all : xs.mapM f = some ys) : List.Forall₂ (fun x y => f x = some y) xs ys := by
  induction xs generalizing ys with
  | nil =>
    cases all
    exact .nil
  | cons x xs ih =>
    rw [List.mapM_cons] at all
    obtain ⟨y, first, rest⟩ := Option.bind_eq_some_iff.mp all
    obtain ⟨later, found, built⟩ := Option.bind_eq_some_iff.mp rest
    cases built
    exact .cons first (ih found)

variable {settings : Settings Digest} {mapping : IndexMapping} {index : DocumentIndex Digest}
  {groups : List (List Addition)}

theorem singleTerm_of_scoredToken {clause term : String × String} {token : String}
    (scored : scoredToken settings mapping clause = some token)
    (single : singleTerm settings mapping clause = some term) : term = (clause.1, token) := by
  unfold scoredToken at scored
  unfold singleTerm at single
  split at scored
  · rename_i resolved
    rw [resolved] at single
    split at scored
    · cases scored
      cases single
      rfl
    · cases scored
  · cases scored

structure CtxOf (mapping : IndexMapping) (index : DocumentIndex Digest) (recorded : List Addition)
    (term : String × String) (ctx : TermCtx) : Prop where
  sound : ctx.Sound
  entries : ctx.entries = postingsFor recorded term.1 term.2
  stats : fieldScoringStats mapping index term.1 = some ctx.fieldStats

def Decided (recorded : List Addition) (term : String × String)
    (answer : Option (List (ℚ × Nat))) : Prop :=
  answer = none ∨ answer = some [] ∧ postingsFor recorded term.1 term.2 = []

theorem residentClause_spec (stores : Stores settings index groups)
    (inMemory : index.postingsDiskBacked = false) {clause term : String × String}
    (single : singleTerm settings mapping clause = some term) :
    Either (CtxOf mapping index groups.flatten term) (Decided groups.flatten term)
      (residentClause settings mapping index clause) := by
  unfold residentClause
  cases scored : scoredToken settings mapping clause with
  | none => exact .inl rfl
  | some token =>
    have same := singleTerm_of_scoredToken scored single
    subst same
    have resident := stores.resident inMemory clause.1 token
    simp only [resident]
    cases stored : find (PostingsBuilder.new.addAll groups.flatten).invert clause.1 token with
    | none => exact .inr ⟨rfl, storedEntries_none stored⟩
    | some v =>
      obtain ⟨postings, nonempty⟩ := invert_isPostings stored
      have full : v.1.isEmpty = false := by simpa using nonempty
      simp only [Option.map_some, full, Bool.false_eq_true, if_false]
      cases found : fieldScoringStats mapping index clause.1 with
      | none => exact .inl rfl
      | some stats =>
        refine ⟨⟨postings, fun set kept => ?_⟩, (storedEntries_some stored).symm, found⟩
        simp only at kept
        split at kept
        · cases kept
          rfl
        · cases kept

variable [DecidableEq Digest]

structure ViewOf (mapping : IndexMapping) (index : DocumentIndex Digest)
    (groups : List (List Addition)) (term : String × String)
    (opened : FieldScoringStats × SegmentedPostings) : Prop where
  views : Views groups term opened.2
  stats : fieldScoringStats mapping index term.1 = some opened.1

theorem segmentedClause_spec (stores : Stores settings index groups)
    {clause term : String × String} (single : singleTerm settings mapping clause = some term) :
    Either (ViewOf mapping index groups term) (Decided groups.flatten term)
      (segmentedClause settings mapping index clause) := by
  unfold segmentedClause
  cases scored : scoredToken settings mapping clause with
  | none => exact .inl rfl
  | some token =>
    have same := singleTerm_of_scoredToken scored single
    subst same
    cases result : index.segmentedPostingsChecked settings.hash clause.1 token with
    | error e =>
      simp only [result]
      exact .inl rfl
    | ok found =>
      simp only [result]
      have views := @segmentedPostingsChecked_views Digest settings index groups _ stores (clause.1, token) _ result
      cases found with
      | none => exact .inr ⟨rfl, views⟩
      | some view =>
        cases known : fieldScoringStats mapping index clause.1 with
        | none => exact .inl rfl
        | some stats => exact ⟨views, known⟩

end Clauses

section Scores

theorem map_eq_of_forall₂ {α β γ : Type} {R : α → β → Prop} {f : α → γ} {g : β → γ} {xs : List α}
    {ys : List β} (all : List.Forall₂ R xs ys) (same : ∀ x y, R x y → f x = g y) :
    xs.map f = ys.map g := by
  induction all with
  | nil => rfl
  | cons first _ ih => rw [List.map_cons, List.map_cons, same _ _ first, ih]

theorem zipWith_eq_of_forall₂ {α β γ δ : Type} {R : α → β → Prop} {f : α → δ → γ} {g : β → δ → γ}
    {xs : List α} {ys : List β} (all : List.Forall₂ R xs ys)
    (same : ∀ x y z, R x y → f x z = g y z) (zs : List δ) :
    List.zipWith f xs zs = List.zipWith g ys zs := by
  induction all generalizing zs with
  | nil => rfl
  | cons first _ ih =>
    cases zs with
    | nil => rfl
    | cons z zs => rw [List.zipWith_cons_cons, List.zipWith_cons_cons, same _ _ z first, ih]

variable {settings : Settings Digest} {mapping : IndexMapping} {index : DocumentIndex Digest}
  {groups : List (List Addition)} {bm25 : Bm25} {mode : FusedConjunctionScoreMode}
  {terms clauses : List (String × String)} {scored : List (ℚ × Nat)}

theorem conjunctionScores_nil {recorded : List Addition} {term : String × String}
    (member : term ∈ terms) (missing : postingsFor recorded term.1 term.2 = []) :
    conjunctionScores mapping index bm25 mode recorded terms = [] := by
  rw [conjunctionScores, common_listsOf_nil member missing]
  rfl

theorem CtxOf.contrib {recorded : List Addition} {term : String × String} {ctx : TermCtx}
    (ctxOf : CtxOf mapping index recorded term ctx) (docId : Nat) :
    termContrib bm25 mode ctx.fieldStats ctx.docIds.length docId
        ((ctx.entries.lookup docId).getD 0) =
      contribution mapping index bm25 mode recorded term docId (storedFreq recorded term docId) := by
  have size : ctx.docIds.length = (postingsFor recorded term.1 term.2).length := by
    rw [← ctxOf.entries, TermCtx.entries, List.length_zip, ctxOf.sound.postings.aligned,
      Nat.min_self]
  rw [contribution, ctxOf.stats, storedFreq, ← ctxOf.entries, ← size.trans
    (congrArg List.length ctxOf.entries.symm)]

theorem fusedConjunctionScoresResident_eq (stores : Stores settings index groups)
    (inMemory : index.postingsDiskBacked = false)
    (single : clauses.mapM (singleTerm settings mapping) = some terms)
    (answered : fusedConjunctionScoresResident settings mapping index bm25 mode clauses = some scored) :
    scored = conjunctionScores mapping index bm25 mode groups.flatten terms := by
  have decided := mapM_either ((forall₂_of_mapM single).imp fun clause term single =>
    residentClause_spec stores inMemory single)
  rw [fusedConjunctionScoresResident] at answered
  cases result : clauses.mapM (residentClause settings mapping index) with
  | error answer =>
    rw [result] at decided answered
    obtain ⟨term, member, rfl | ⟨rfl, missing⟩⟩ := decided
    · cases answered
    · cases answered
      exact (conjunctionScores_nil member missing).symm
  | ok ctxs =>
    rw [result] at decided answered
    simp only [Option.some.injEq] at answered
    -- the contexts in the order of the walk, and the terms with them
    obtain ⟨sorted, order⟩ : ∃ sorted : List TermCtx, sorted =
      ctxs.insertionSort fun a b => a.docIds.length ≤ b.docIds.length := ⟨_, rfl⟩
    have perm : sorted.Perm ctxs := order ▸ List.perm_insertionSort _ ctxs
    obtain ⟨reordered, each, moved⟩ := List.perm_comp_forall₂ perm decided.flip
    have sound : ∀ ctx ∈ sorted, ctx.Sound := by
      intro ctx member
      obtain ⟨i, here⟩ := List.mem_iff_getElem?.mp member
      obtain ⟨term, -, ctxOf⟩ := forall₂_getElem? each here
      exact ctxOf.sound
    have lists : sorted.map TermCtx.entries = listsOf groups.flatten reordered :=
      map_eq_of_forall₂ each fun ctx term ctxOf => ctxOf.entries
    have met : common (sorted.map TermCtx.entries) = common (listsOf groups.flatten terms) := by
      rw [lists]
      exact common_perm (moved.map _) listsOf_ascending
    rw [← answered, ← order, residentFreqs_eq sound,
      map_conjunction fun docId freqs => (finishSum (List.zipWith (fun term freq =>
        termContrib bm25 mode term.fieldStats term.docIds.length docId freq) sorted freqs).sum, docId),
      met, conjunctionScores]
    refine List.map_congr_left fun docId _ => ?_
    have summed : (sorted.map fun ctx => termContrib bm25 mode ctx.fieldStats ctx.docIds.length docId
        ((ctx.entries.lookup docId).getD 0)).sum = (terms.map fun term =>
          contribution mapping index bm25 mode groups.flatten term docId
            (storedFreq groups.flatten term docId)).sum := by
      rw [map_eq_of_forall₂ each fun ctx term ctxOf => CtxOf.contrib ctxOf docId]
      exact (moved.map _).sum_eq
    rw [List.zipWith_map_right, List.zipWith_self, summed]

theorem conjunctionScores_eq (recorded : List Addition) :
    conjunctionScores mapping index bm25 mode recorded terms =
      (conjunction (listsOf recorded terms)).map fun hit =>
        (finishSum (List.zipWith (fun term freq =>
          contribution mapping index bm25 mode recorded term hit.1 freq) terms hit.2).sum, hit.1) := by
  rw [listsOf, map_conjunction fun docId freqs => (finishSum (List.zipWith (fun term freq =>
    contribution mapping index bm25 mode recorded term docId freq) terms freqs).sum, docId)]
  refine List.map_congr_left fun docId _ => ?_
  rw [List.zipWith_map_right, List.zipWith_self]
  rfl

theorem ViewOf.contrib {term : String × String} {opened : FieldScoringStats × SegmentedPostings}
    (viewOf : ViewOf mapping index groups term opened) (docId freq : Nat) :
    termContrib bm25 mode opened.1 opened.2.globalDf docId freq =
      contribution mapping index bm25 mode groups.flatten term docId freq := by
  rw [contribution, viewOf.stats, viewOf.views.2]

theorem walk_sorted {found : List TermPostings} {cursors : List SegmentPostingsCursor}
    (starts : List.Forall₂ Starts found cursors) {β : Type} (f : Nat → List Nat → β) :
    let sorted := cursors.zipIdx.insertionSort fun a b => a.1.localDf ≤ b.1.localDf
    (SegmentPostingsCursor.walk (sorted.map Prod.fst)).map (fun hits => hits.map fun hit =>
        f hit.1 (frequencies found.length (sorted.map Prod.snd) hit.2)) =
      .ok ((conjunction (found.map entries)).map fun hit => f hit.1 hit.2) := by
  intro sorted
  have indexed : List.Forall₂ (fun (v : TermPostings × Nat) (c : SegmentPostingsCursor × Nat) =>
      Starts v.1 c.1 ∧ v.2 = c.2) found.zipIdx cursors.zipIdx := by
    rw [List.forall₂_iff_get]
    refine ⟨by simp [starts.length_eq], fun i inside inside' => ?_⟩
    have here := (List.forall₂_iff_get.mp starts).2 i (by simpa using inside) (by simpa using inside')
    simpa using here
  have perm : sorted.Perm cursors.zipIdx := List.perm_insertionSort _ _
  obtain ⟨reordered, each, moved⟩ := List.perm_comp_forall₂ perm indexed.flip
  have starts' : List.Forall₂ Starts (reordered.map Prod.fst) (sorted.map Prod.fst) := by
    rw [List.forall₂_map_left_iff, List.forall₂_map_right_iff]
    exact each.flip.imp fun v cursor both => both.1
  have order : sorted.map Prod.snd = reordered.map Prod.snd :=
    map_eq_of_forall₂ each fun cursor v both => both.2.symm
  have ascending : ∀ list ∈ found.map entries, (list.map Prod.fst).Pairwise (· < ·) := by
    rw [List.forall_mem_map]
    intro v member
    obtain ⟨i, here⟩ := List.mem_iff_getElem?.mp member
    obtain ⟨cursor, -, stands⟩ := forall₂_getElem? starts here
    exact entries_ascending stands.postings
  have lists : (found.map entries).Perm (reordered.map fun v => entries v.1) := by
    have back := ((moved.map Prod.fst).map entries).symm
    rwa [List.zipIdx_map_fst, List.map_map] at back
  rw [walk_spec starts', List.map_map]
  simp only [Except.map, Except.ok.injEq]
  rw [Function.comp_def, map_conjunction fun docId freqs => f docId (frequencies found.length
      (sorted.map Prod.snd) freqs), map_conjunction f, ← common_perm lists ascending]
  refine List.map_congr_left fun docId _ => ?_
  have values : (reordered.map fun v => (((entries v.1).lookup docId).getD 0, v.2)).Perm
      (found.map fun v => ((entries v).lookup docId).getD 0).zipIdx := by
    rw [List.zipIdx_map]
    exact moved.map _
  have back := frequencies_eq values
  rw [List.map_map, List.map_map, List.length_map] at back
  rw [order]
  exact congrArg (f docId) back

theorem fusedSegment_eq {opened : List (FieldScoringStats × SegmentedPostings)}
    (each : List.Forall₂ (ViewOf mapping index groups) terms opened) {segmentIdx : Nat}
    {group : List Addition} (here : groups[segmentIdx]? = some group) :
    fusedSegment bm25 mode opened segmentIdx =
      .ok ((conjunction (listsOf group terms)).map fun hit =>
        (finishSum (List.zipWith (fun term freq =>
          contribution mapping index bm25 mode groups.flatten term hit.1 freq) terms hit.2).sum,
          hit.1)) := by
  have views : List.Forall₂ (Views groups) terms (opened.map Prod.snd) := by
    rw [List.forall₂_map_right_iff]
    exact each.imp fun term view viewOf => viewOf.views
  have cursors := cursorsAt_spec views here
  rw [fusedSegment]
  cases found : cursorsAt (opened.map Prod.snd) segmentIdx with
  | none =>
    rw [found] at cursors
    obtain ⟨term, member, missing⟩ := cursors
    rw [conjunction, common_listsOf_nil member missing]
    rfl
  | some cursors' =>
    rw [found] at cursors
    obtain ⟨stored, starts, lists⟩ := cursors
    have size : opened.length = stored.length := by
      have lengths := congrArg List.length lists
      rw [listsOf, List.length_map, List.length_map] at lengths
      rw [← each.length_eq, lengths]
    rw [lists, ← walk_sorted starts fun docId freqs => (finishSum (List.zipWith (fun term freq =>
      contribution mapping index bm25 mode groups.flatten term docId freq) terms freqs).sum, docId)]
    simp only [size]
    refine congrArg (fun score => Except.map (fun hits => List.map score hits) _) (funext fun hit => ?_)
    rw [zipWith_eq_of_forall₂ each fun term view freq viewOf =>
      (ViewOf.contrib viewOf hit.1 freq).symm]

variable [DecidableEq Digest]

theorem fusedConjunctionScoresDisk_eq (stores : Stores settings index groups)
    (single : clauses.mapM (singleTerm settings mapping) = some terms) (nonempty : terms ≠ [])
    (answered : fusedConjunctionScoresDisk settings mapping index bm25 mode clauses = some scored) :
    scored = conjunctionScores mapping index bm25 mode groups.flatten terms := by
  have decided := mapM_either ((forall₂_of_mapM single).imp fun clause term single =>
    segmentedClause_spec stores single)
  rw [fusedConjunctionScoresDisk] at answered
  cases result : clauses.mapM (segmentedClause settings mapping index) with
  | error answer =>
    rw [result] at decided answered
    obtain ⟨term, member, rfl | ⟨rfl, missing⟩⟩ := decided
    · cases answered
    · cases answered
      exact (conjunctionScores_nil member missing).symm
  | ok opened =>
    rw [result] at decided answered
    simp only at answered
    rw [← stores.served.length_eq, mapM_range fun i group here => fusedSegment_eq decided here]
      at answered
    cases answered
    rw [conjunctionScores_eq, conjunction_listsOf stores nonempty, List.map_flatMap,
      List.flatMap_def]

theorem fusedConjunctionScoresWithMode_eq (stores : Stores settings index groups)
    (single : clauses.mapM (singleTerm settings mapping) = some terms)
    (answered : fusedConjunctionScoresWithMode settings mapping index bm25 mode clauses = some scored) :
    scored = conjunctionScores mapping index bm25 mode groups.flatten terms := by
  rw [fusedConjunctionScoresWithMode] at answered
  split at answered
  · cases answered
  · rename_i some_clause
    have nonempty : terms ≠ [] := by
      have size := (forall₂_of_mapM single).length_eq
      rintro rfl
      rw [List.length_nil, List.length_eq_zero_iff] at size
      simp [size] at some_clause
    split at answered
    · exact fusedConjunctionScoresDisk_eq stores single nonempty answered
    · rename_i inMemory
      exact fusedConjunctionScoresResident_eq stores (Bool.eq_false_iff.mpr inMemory) single answered

end Scores

section Evaluators

variable {settings : Settings Digest} {mapping : IndexMapping} {index : DocumentIndex Digest}
  {groups : List (List Addition)} {terms clauses : List (String × String)}

theorem satisfies_single {recorded : List Addition} {clause term : String × String}
    (single : singleTerm settings mapping clause = some term) (requireAll : Bool) (docId : Nat) :
    Satisfies settings mapping recorded ⟨clause.1, clause.2, requireAll⟩ docId ↔
      docId ∈ docsOf recorded term := by
  unfold singleTerm at single
  split at single
  · rename_i token resolved
    cases single
    simp [Satisfies, resolved]
  · cases single

theorem mem_common_of_singles {recorded : List Addition}
    (singles : clauses.mapM (singleTerm settings mapping) = some terms) (nonempty : clauses ≠ [])
    (docId : Nat) :
    docId ∈ common (listsOf recorded terms) ↔
      ∀ clause ∈ clauses, Satisfies settings mapping recorded ⟨clause.1, clause.2, false⟩ docId := by
  have each := forall₂_of_mapM singles
  have some_term : terms ≠ [] := by
    rintro rfl
    exact nonempty (List.length_eq_zero_iff.mp each.length_eq)
  rw [mem_common_listsOf, and_iff_right some_term]
  clear singles nonempty some_term
  induction each with
  | nil => simp
  | cons first rest ih =>
    rw [List.forall_mem_cons, List.forall_mem_cons, satisfies_single first false]
    exact and_congr_right' ih

variable [DecidableEq Digest]

structure Intersects (settings : Settings Digest) (index : DocumentIndex Digest)
    (recorded : List Addition) : Prop where
  stored : ∀ field term, index.stored field term = postingsFor recorded field term
  leapfrog : ∀ mapping clauses docs, clauses ≠ [] →
    conjunctionLeapfrog settings mapping index clauses = some docs →
    docs.Pairwise (· < ·) ∧ ∀ docId, docId ∈ docs ↔
      ∀ clause ∈ clauses, Satisfies settings mapping recorded ⟨clause.1, clause.2, false⟩ docId
  fused : ∀ mapping bm25 mode clauses (terms : List (String × String)) scored,
    clauses.mapM (singleTerm settings mapping) = some terms →
    fusedConjunctionScoresWithMode settings mapping index bm25 mode clauses = some scored →
    (scored.map Prod.snd).Pairwise (· < ·) ∧
      (∀ docId, docId ∈ scored.map Prod.snd ↔
        ∀ clause ∈ clauses, Satisfies settings mapping recorded ⟨clause.1, clause.2, false⟩ docId) ∧
      ∀ entry ∈ scored, entry.1 = finishSum (terms.map fun term =>
        contribution mapping index bm25 mode recorded term entry.2
          (storedFreq recorded term entry.2)).sum
  matched : ∀ mapping clauses docs, conjunctionOfMatches settings mapping index clauses = some docs →
    docs.Pairwise (· < ·) ∧ ∀ docId, docId ∈ docs ↔
      ∀ clause ∈ clauses, Satisfies settings mapping recorded clause docId
  merged : ∀ terms, terms ≠ [] → index.postingsDiskBacked = true →
    conjunctionHitsDisk settings.hash index terms = conjunctionHitsMerged index none terms
  roaring : ∀ (terms : List (String × String)) lists, index.postingsDiskBacked = false →
    terms.mapM (residentList index) = some lists → residentHits lists = residentConjunction lists

theorem Stores.intersects (stores : Stores settings index groups) :
    Intersects settings index groups.flatten where
  stored field term := (stores.parts field term).1.symm
  leapfrog := by
    intro mapping clauses docs nonempty answered
    obtain ⟨terms, singles, rfl⟩ := Option.map_eq_some_iff.mp answered
    rw [conjunctionHitsInternal_eq stores]
    exact ⟨common_ascending listsOf_ascending, mem_common_of_singles singles nonempty⟩
  fused := by
    intro mapping bm25 mode clauses terms scored singles answered
    have nonempty : clauses ≠ [] := by
      rintro rfl
      cases answered
    have same := fusedConjunctionScoresWithMode_eq stores singles answered
    have docs : scored.map Prod.snd = common (listsOf groups.flatten terms) := by
      rw [same, conjunctionScores, List.map_map]
      exact List.map_id _
    rw [docs]
    refine ⟨common_ascending listsOf_ascending, mem_common_of_singles singles nonempty, ?_⟩
    intro entry member
    rw [same] at member
    obtain ⟨docId, -, rfl⟩ := List.mem_map.mp member
    rfl
  matched := fun _ _ _ answered => conjunctionOfMatches_spec stores answered
  merged := by
    intro terms nonempty onDisk
    rw [conjunctionHitsDisk_eq stores onDisk nonempty, conjunctionHitsMerged_eq stores onDisk]
  roaring := by
    intro terms lists inMemory resident
    have found := mapM_resident (residentList_eq stores inMemory) terms
    rw [resident] at found
    obtain ⟨found, rfl, -, postings⟩ := found
    rw [residentHits_eq postings, residentConjunction_eq postings]

theorem listsOf_congr {recorded others : List Addition}
    (same : ∀ field term, postingsFor recorded field term = postingsFor others field term) :
    listsOf recorded terms = listsOf others terms :=
  List.map_congr_left fun term _ => same term.1 term.2

/-- After every run whose steps fit, once the terms are there, each evaluator that answers gives the
intersection, and indices that store the same postings answer the same. -/
theorem evaluators_intersect {steps : List Step} (ready : index.termsDirty = false)
    (fits : DocumentIndex.Meets settings (DocumentIndex.StepFits settings) .new steps)
    (finished : DocumentIndex.new.run settings steps = some index) :
    (∃ recorded, Intersects settings index recorded) ∧
      ∀ (settings' : Settings Digest) (index' : DocumentIndex Digest) (steps' : List Step),
        index'.termsDirty = false →
        DocumentIndex.Meets settings' (DocumentIndex.StepFits settings') .new steps' →
        DocumentIndex.new.run settings' steps' = some index' →
        (∀ field term, index'.stored field term = index.stored field term) → ∀ terms,
        conjunctionHitsInternal settings'.hash index' terms =
          conjunctionHitsInternal settings.hash index terms := by
  obtain ⟨groups, stores⟩ := DocumentIndex.run_stores ready fits finished
  refine ⟨⟨groups.flatten, Stores.intersects stores⟩, ?_⟩
  intro settings' index' steps' ready' fits' finished' same terms
  obtain ⟨groups', stores'⟩ := DocumentIndex.run_stores ready' fits' finished'
  rw [conjunctionHitsInternal_eq stores, conjunctionHitsInternal_eq stores']
  refine congrArg common (listsOf_congr fun field term => ?_)
  rw [(stores.parts field term).1, (stores'.parts field term).1, same]

def threeDocumentRun : List Step :=
  [.addDocuments [sampleDocument 0 "rust", sampleDocument 1 "rust lean", sampleDocument 2 "lean"]
      .default true reliableFiles,
    .materializeTerms reliableFiles]

theorem addressable_of_entries {inverted : Inverted}
    (small : ∀ entry ∈ inverted.entries,
      (entry.2.entries.map fun entry => entry.2.1.length).sum < 2 ^ 32) :
    Addressable false inverted where
  total name terms found := small (name, terms) ((SortedMap.get?_eq_some_iff inverted name terms).mp found)
  payload onDisk := by cases onDisk

theorem threeDocumentRun_fits :
    DocumentIndex.Meets (sampleSettings false) (DocumentIndex.StepFits (sampleSettings false)) .new
      threeDocumentRun := by
  apply DocumentIndex.checkRun_fits
  · simp [threeDocumentRun, Step.Read, reliableFiles_read]
  · decide +kernel

theorem evaluators_intersect_three_documents :
    ∃ index, DocumentIndex.new.run (sampleSettings false) threeDocumentRun = some index ∧
      conjunctionLeapfrog (sampleSettings false) .default index
        [("title", "rust"), ("title", "lean")] = some [1] ∧
      ∃ recorded, Intersects (sampleSettings false) index recorded := by
  have ready : ((DocumentIndex.new.run (sampleSettings false) threeDocumentRun).map
      DocumentIndex.termsDirty) = some false := by decide +kernel
  have hits : ((DocumentIndex.new.run (sampleSettings false) threeDocumentRun).bind fun index =>
      conjunctionLeapfrog (sampleSettings false) .default index
        [("title", "rust"), ("title", "lean")]) = some [1] := by decide +kernel
  obtain ⟨index, finished, ready⟩ := Option.map_eq_some_iff.mp ready
  rw [finished, Option.bind_some] at hits
  exact ⟨index, finished, hits, (evaluators_intersect ready threeDocumentRun_fits finished).1⟩

/- No clause at all: every document satisfies it, and none is returned. -/
theorem no_clause_matches_nothing :
    ∃ index, DocumentIndex.new.run (sampleSettings false) threeDocumentRun = some index ∧
      index.termsDirty = false ∧ index.docIds = [0, 1, 2] ∧
      conjunctionLeapfrog (sampleSettings false) .default index [] = some [] ∧
      ¬ ∀ recorded docId, docId ∈ index.docIds → (docId ∈ ([] : List Nat) ↔
        ∀ clause ∈ ([] : List (String × String)),
          Satisfies (sampleSettings false) .default recorded ⟨clause.1, clause.2, false⟩ docId) := by
  have docs : ((DocumentIndex.new.run (sampleSettings false) threeDocumentRun).map
      fun index => (index.termsDirty, index.docIds)) = some (false, [0, 1, 2]) := by decide +kernel
  obtain ⟨index, finished, both⟩ := Option.map_eq_some_iff.mp docs
  obtain ⟨ready, docs⟩ := Prod.mk.inj both
  refine ⟨index, finished, ready, docs, rfl, fun exact_answer => ?_⟩
  have found := (exact_answer [] 0 (by simp [docs])).mpr (by simp)
  cases found

end Evaluators

end Surch.Api
