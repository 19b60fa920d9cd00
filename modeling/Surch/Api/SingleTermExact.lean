import Surch.Api.SingleTerm

/-! When passing documents over changes nothing: the streamed best documents of a term against all of
its scored documents, sorted. -/
namespace Surch.Api
open Surch.Lib Surch.Codec Surch.Postings Surch.Index

structure ScoredPosting where
  docId : Nat
  freq : Nat
  docLen : Nat
deriving DecidableEq

section Walk

variable {Score : Type} [LinearOrder Score] (stream : TermStream Score)

namespace TermStream

def scoredPosting (posting : Nat × Nat) : Option ScoredPosting :=
  if posting.2 = 0 then none else (stream.scoredLen posting.1).map fun docLen => ⟨posting.1, posting.2, docLen⟩

def ranked (posting : ScoredPosting) : Ranked Score :=
  .of (stream.score posting.freq posting.docLen) posting.docId

/- What the bound of its score says of a posting when the collector is full. -/
def passesOver (worst : Ranked Score) (posting : ScoredPosting) : Bool :=
  !decide (stream.score posting.freq stream.minDocLenBound > worst.score)

def screened (topn : List (Ranked Score)) (posting : ScoredPosting) : List (Ranked Score) :=
  TopN.screen stream.limit (fun posting => some (stream.ranked posting)) stream.passesOver topn posting

/- The threshold is the worst of the full collector. -/
structure Tracks (top : StreamedTop Score) : Prop where
  bounded : top.topn.length ≤ stream.limit
  threshold : top.minCompetitive.kthBest =
    (TopN.worstWhenFull stream.limit top.topn).map Ranked.score

variable {stream}

omit [LinearOrder Score] in
theorem tracks_start : stream.Tracks ⟨[], .unset, 0, 0⟩ := by
  refine ⟨Nat.zero_le _, ?_⟩
  have room : TopN.worstWhenFull stream.limit ([] : List (Ranked Score)) = none := by
    unfold TopN.worstWhenFull
    split <;> rfl
  rw [room]
  rfl

theorem Tracks.skips {top : StreamedTop Score} (tracks : stream.Tracks top) (bound : Score) :
    (top.minCompetitive.isArmed && !top.minCompetitive.admits bound) =
      (TopN.worstWhenFull stream.limit top.topn).any fun worst => !decide (bound > worst.score) := by
  rw [MinCompetitiveScore.isArmed, MinCompetitiveScore.admits, tracks.threshold]
  cases TopN.worstWhenFull stream.limit top.topn with
  | none => rfl
  | some worst => rfl

/-- One turn of the loop offers a scored posting to the collector, unless it is passed over. -/
theorem visit_tracks {top : StreamedTop Score} (tracks : stream.Tracks top) (posting : Nat × Nat) :
    stream.Tracks (stream.visit top posting.1 posting.2) ∧
      (stream.visit top posting.1 posting.2).topn =
        match stream.scoredPosting posting with
        | none => top.topn
        | some scored => stream.screened top.topn scored := by
  obtain ⟨docId, freq⟩ := posting
  by_cases absent : freq = 0
  · rw [visit, if_pos absent, scoredPosting, if_pos absent]
    exact ⟨tracks, rfl⟩
  · rw [visit, if_neg absent, tracks.skips, scoredPosting, if_neg absent]
    cases len : stream.scoredLen docId with
    | none =>
      split
      · exact ⟨⟨tracks.bounded, tracks.threshold⟩, rfl⟩
      · exact ⟨tracks, rfl⟩
    | some docLen =>
      have offered : stream.screened top.topn ⟨docId, freq, docLen⟩ =
          if (TopN.worstWhenFull stream.limit top.topn).any fun worst =>
              !decide (stream.score freq stream.minDocLenBound > worst.score) then top.topn
          else TopN.push stream.limit top.topn (.of (stream.score freq docLen) docId) := rfl
      rw [Option.map_some]
      dsimp only
      rw [offered]
      split
      · exact ⟨⟨tracks.bounded, tracks.threshold⟩, rfl⟩
      · refine ⟨⟨?_, ?_⟩, rfl⟩
        · rw [TopN.length_push tracks.bounded]
          omega
        · dsimp only
          split
          · rename_i worst full
            rw [full]
            rfl
          · rename_i room
            rw [room, tracks.threshold, TopN.worstWhenFull_push tracks.bounded room]

theorem foldl_visit {top : StreamedTop Score} (tracks : stream.Tracks top) (postings : List (Nat × Nat)) :
    stream.Tracks (postings.foldl (fun top posting => stream.visit top posting.1 posting.2) top) ∧
      (postings.foldl (fun top posting => stream.visit top posting.1 posting.2) top).topn =
        (postings.filterMap stream.scoredPosting).foldl stream.screened top.topn := by
  induction postings generalizing top with
  | nil => exact ⟨tracks, rfl⟩
  | cons posting rest ih =>
    obtain ⟨onward, offered⟩ := visit_tracks tracks posting
    obtain ⟨last, collected⟩ := ih onward
    refine ⟨last, ?_⟩
    rw [List.foldl_cons, collected, offered, List.filterMap_cons]
    cases stream.scoredPosting posting with
    | none => rfl
    | some scored => rfl

theorem walkSegment_eq {ahead : List (Nat × Nat)} {cursor : SegmentPostingsCursor} {bound target : Nat}
    {top : StreamedTop Score} {fuel : Nat} (drives : Drives ahead bound cursor) (ordered : bound ≤ target)
    (reach : ∀ entry ∈ ahead, target ≤ entry.1) (ascending : (ahead.map Prod.fst).Pairwise (· < ·))
    (fits : ∀ entry ∈ ahead, entry.1 < 2 ^ 32) (enough : ahead.length < fuel) :
    stream.walkSegment fuel cursor target top =
      some (ahead.foldl (fun top posting => stream.visit top posting.1 posting.2) top) := by
  induction ahead generalizing cursor bound target top fuel with
  | nil =>
    obtain ⟨fuel, rfl⟩ : ∃ less, fuel = less + 1 := ⟨fuel - 1, by omega⟩
    obtain ⟨last, exhausted⟩ := next_handsOut.done bound cursor target drives ordered
    rw [walkSegment, exhausted]
    rfl
  | cons entry rest ih =>
    obtain ⟨fuel, rfl⟩ : ∃ less, fuel = less + 1 := ⟨fuel - 1, by omega⟩
    obtain ⟨onward, found, left⟩ := next_handsOut.entry entry rest bound cursor target drives ordered
      (reach entry List.mem_cons_self)
    rw [List.map_cons, List.pairwise_cons] at ascending
    have small := fits entry List.mem_cons_self
    have further : target ≤ SegmentPostingsCursor.after entry.1 := by
      have here := reach entry List.mem_cons_self
      simp only [SegmentPostingsCursor.after]
      omega
    have beyond : ∀ other ∈ rest, SegmentPostingsCursor.after entry.1 ≤ other.1 := by
      intro other member
      have greater := ascending.1 other.1 (List.mem_map_of_mem member)
      simp only [SegmentPostingsCursor.after]
      omega
    rw [walkSegment, found, List.foldl_cons]
    exact ih left further beyond ascending.2
      (fun other member => fits other (List.mem_cons_of_mem _ member)) (Nat.lt_of_succ_lt_succ enough)

theorem Starts.walkSegment {v : TermPostings} {cursor : SegmentPostingsCursor} (starts : Starts v cursor)
    (top : StreamedTop Score) :
    stream.walkSegment (2 ^ 32 + 1) cursor 0 top =
      some ((entries v).foldl (fun top posting => stream.visit top posting.1 posting.2) top) := by
  have postings := starts.postings
  have fits : ∀ entry ∈ entries v, entry.1 < 2 ^ 32 := by
    intro entry member
    refine postings.docs_fit entry.1 ?_
    rw [← entries_docs postings]
    exact List.mem_map_of_mem member
  have few : (entries v).length < 2 ^ 32 + 1 := by
    have bound := length_le_of_fits (List.isChain_iff_pairwise.mp postings.increasing) postings.docs_fit
    rw [entries, List.length_zip]
    omega
  exact walkSegment_eq ⟨v, 0, postings, List.drop_zero.symm, starts.start⟩ le_rfl
    (fun _ _ => Nat.zero_le _) (entries_ascending postings) fits few

theorem walkSegments_eq {inverteds : List Inverted} {cursors : List (Option SegmentPostingsCursor)}
    {field term : String}
    (each : List.Forall₂ (fun inverted cursor => Option.Rel Starts (find inverted field term) cursor)
      inverteds cursors) (top : StreamedTop Score) :
    stream.walkSegments cursors top =
      some ((inverteds.flatMap (storedEntries field term)).foldl
        (fun top posting => stream.visit top posting.1 posting.2) top) := by
  induction each generalizing top with
  | nil => rfl
  | @cons inverted cursor inverteds cursors here rest ih =>
    rw [List.flatMap_cons, List.foldl_append]
    cases found : find inverted field term with
    | none =>
      rw [found] at here
      cases here
      rw [storedEntries_none found]
      exact ih top
    | some v =>
      rw [found] at here
      cases here with
      | some starts =>
        rw [storedEntries_some found, walkSegments, Starts.walkSegment starts, Option.bind_some]
        exact ih _

end TermStream

end Walk

section Exactness

variable {Score : Type} [LinearOrder Score]

/- More of the term, or a shorter document, scores no less. -/
structure MonotoneScore (score : Nat → Nat → Score) : Prop where
  freq : ∀ docLen freq freq', freq ≤ freq' → score freq docLen ≤ score freq' docLen
  docLen : ∀ freq docLen docLen', docLen ≤ docLen' → score freq docLen' ≤ score freq docLen

/- A later document is shorter than the bound says, and could beat an earlier one. -/
def Undercuts (bound : Nat) (scored : List ScoredPosting) : Prop :=
  ∃ earlier ∈ scored, ∃ later ∈ scored, earlier.docId < later.docId ∧ later.docLen < bound ∧
    (earlier.freq < later.freq ∨ later.docLen < earlier.docLen)

instance (bound : Nat) (scored : List ScoredPosting) : Decidable (Undercuts bound scored) :=
  inferInstanceAs (Decidable (∃ earlier ∈ scored, _))

theorem Ranked.le_of_score_le {score score' : Score} {docId docId' : Nat} (worse : score' ≤ score)
    (later : docId < docId') : Ranked.of score docId ≤ .of score' docId' := by
  refine Prod.Lex.le_iff.mpr ?_
  rcases worse.lt_or_eq with less | rfl
  · exact .inl less
  · exact .inr ⟨rfl, later.le⟩

namespace TermStream

variable {stream : TermStream Score} {scored : List ScoredPosting}

/-- Documents are rightly passed over where each is no better than the worst that is kept. -/
theorem foldl_screened_of
    (sound : ∀ before later after, scored = before ++ later :: after →
      ∀ worst ∈ TopN.worstWhenFull stream.limit
          (TopN.collect stream.limit (before.map stream.ranked)),
        stream.passesOver worst later = true → worst ≤ stream.ranked later) :
    scored.foldl stream.screened [] = TopN.collect stream.limit (scored.map stream.ranked) := by
  have all : ∀ list : List ScoredPosting,
      list.filterMap (fun posting => some (stream.ranked posting)) = list.map stream.ranked :=
    fun list => congrFun List.filterMap_eq_map' list
  have collected := @TopN.foldl_screen _ _ _ stream.limit (fun posting => some (stream.ranked posting))
    stream.passesOver scored fun before later after split found offered worst full passed => by
      rw [all] at full
      rw [← Option.some.inj offered]
      exact sound before later after split worst full passed
  rwa [all] at collected

/-- Where no document undercuts the bound, passing documents over changes nothing. -/
theorem foldl_screened (monotone : MonotoneScore stream.score)
    (ascending : (scored.map ScoredPosting.docId).Pairwise (· < ·))
    (safe : ¬Undercuts stream.minDocLenBound scored) :
    scored.foldl stream.screened [] = TopN.collect stream.limit (scored.map stream.ranked) := by
  refine foldl_screened_of fun before later after split worst full passed => ?_
  obtain ⟨earlier, member, rfl⟩ := List.mem_map.mp (TopN.worst_mem full)
  have apart : earlier.docId < later.docId := by
    rw [split, List.map_append, List.pairwise_append] at ascending
    exact ascending.2.2 _ (List.mem_map_of_mem member) _ List.mem_cons_self
  have ruled : stream.score later.freq stream.minDocLenBound ≤
      stream.score earlier.freq earlier.docLen := by
    simpa [passesOver, ranked] using passed
  refine Ranked.le_of_score_le ?_ apart
  by_cases bounded : stream.minDocLenBound ≤ later.docLen
  · exact (monotone.docLen later.freq _ _ bounded).trans ruled
  · -- below the bound, the later document has no more of the term and is no shorter
    have beaten : ¬(earlier.freq < later.freq ∨ later.docLen < earlier.docLen) := fun beats =>
      safe ⟨earlier, by simp [split, member], later, by simp [split], apart, not_le.mp bounded, beats⟩
    rw [not_or, not_lt, not_lt] at beaten
    exact (monotone.docLen later.freq _ _ beaten.2).trans
      (monotone.freq earlier.docLen _ _ beaten.1)

theorem foldl_screened_passed {data : List (Ranked Score)} {worst : Ranked Score}
    (full : TopN.worstWhenFull stream.limit data = some worst)
    (passed : ∀ posting ∈ scored, stream.passesOver worst posting = true) :
    scored.foldl stream.screened data = data := by
  induction scored with
  | nil => rfl
  | cons posting rest ih =>
    have here : stream.screened data posting = data := by
      rw [screened, TopN.screen, full, Option.any_some, if_pos (passed posting List.mem_cons_self)]
    rw [List.foldl_cons, here]
    exact ih fun other member => passed other (List.mem_cons_of_mem _ member)

theorem foldl_screened_short (short : scored.length ≤ stream.limit) :
    scored.foldl stream.screened [] = TopN.collect stream.limit (scored.map stream.ranked) := by
  refine foldl_screened_of fun before later after split worst full passed => ?_
  obtain ⟨_, long, _⟩ := TopN.worstWhenFull_some full
  rw [TopN.length_collect, List.length_map] at long
  rw [split, List.length_append, List.length_cons] at short
  omega

end TermStream

def matchesLater (later : ScoredPosting) (freq docLen : Nat) : Bool :=
  decide (later.freq ≤ freq ∧ docLen ≤ later.docLen)

theorem matchesLater_monotone (later : ScoredPosting) : MonotoneScore (matchesLater later) := by
  constructor
  · intro docLen freq freq' more holds
    simp only [matchesLater, decide_eq_true_eq] at holds ⊢
    exact ⟨holds.1.trans more, holds.2⟩
  · intro freq docLen docLen' shorter holds
    simp only [matchesLater, decide_eq_true_eq] at holds ⊢
    exact ⟨holds.1, shorter.trans holds.2⟩

/-- Where a document undercuts the bound, some score and some limit lose a document to one that is
worse. -/
theorem exists_inexact {bound : Nat} {scored : List ScoredPosting}
    (ascending : (scored.map ScoredPosting.docId).Pairwise (· < ·)) (undercuts : Undercuts bound scored) :
    ∃ (limit : Nat) (score : Nat → Nat → Bool), limit ≠ 0 ∧ MonotoneScore score ∧
      ∀ stream : TermStream Bool, stream.limit = limit → stream.score = score →
        stream.minDocLenBound = bound →
        scored.foldl stream.screened [] ≠ TopN.collect limit (scored.map stream.ranked) := by
  obtain ⟨earlier, first, later, second, apart, short, beats⟩ := undercuts
  let wins := fun posting : ScoredPosting => matchesLater later posting.freq posting.docLen
  have later_wins : wins later = true := by
    simp [wins, matchesLater]
  have earlier_loses : wins earlier = false := by
    simp only [wins, matchesLater, decide_eq_false_iff_not, not_and_or, not_le]
    exact beats
  -- the first document that loses is the one that fills the collector
  obtain ⟨loser, found⟩ : ∃ loser, scored.find? (fun posting => !wins posting) = some loser := by
    rw [← Option.isSome_iff_exists, List.find?_isSome]
    exact ⟨earlier, first, by rw [earlier_loses]; rfl⟩
  obtain ⟨loses, winners, rest, split, all_win⟩ := List.find?_eq_some_iff_append.mp found
  simp only [Bool.not_eq_true', Bool.not_not] at loses all_win
  have behind : later ∈ rest := by
    rw [split, List.map_append, List.map_cons, List.pairwise_append] at ascending
    have earlier_after : earlier = loser ∨ earlier ∈ rest := by
      rw [split] at first
      rcases List.mem_append.mp first with inside | inside
      · rw [all_win earlier inside] at earlier_loses
        cases earlier_loses
      · exact List.mem_cons.mp inside
    rw [split] at second
    rcases List.mem_append.mp second with inside | inside
    · have less := ascending.2.2 later.docId (List.mem_map_of_mem inside) earlier.docId
        (by rw [← List.map_cons]; exact List.mem_map_of_mem (List.mem_cons.mpr earlier_after))
      omega
    · rcases List.mem_cons.mp inside with rfl | inside
      · rw [later_wins] at loses
        cases loses
      · exact inside
  refine ⟨winners.length + 1, matchesLater later, Nat.succ_ne_zero _, matchesLater_monotone later,
    fun stream limit score bounded equal => ?_⟩
  have front : (winners ++ [loser]).foldl stream.screened [] =
      TopN.collect stream.limit ((winners ++ [loser]).map stream.ranked) :=
    TermStream.foldl_screened_short (by rw [limit, List.length_append, List.length_singleton])
  generalize kept : TopN.collect stream.limit ((winners ++ [loser]).map stream.ranked) = data at front
  have size : data.length = winners.length + 1 := by
    rw [← kept, TopN.length_collect, limit, List.length_map, List.length_append, List.length_singleton,
      Nat.min_self]
  have holds : stream.ranked loser ∈ data := by
    rw [← kept, TopN.collect_eq, List.take_of_length_le, List.mem_insertionSort]
    · simp
    · rw [List.length_insertionSort, limit, List.length_map, List.length_append, List.length_singleton]
  obtain ⟨worst, full⟩ : ∃ worst, TopN.worstWhenFull stream.limit data = some worst := by
    rw [TopN.worstWhenFull, if_neg (by omega), ← Option.isSome_iff_exists, List.getLast?_isSome]
    exact List.ne_nil_of_length_pos (by omega)
  have passed : ∀ posting ∈ rest, stream.passesOver worst posting = true := by
    intro posting _
    have ruled : stream.score posting.freq stream.minDocLenBound = false := by
      rw [score, bounded, matchesLater, decide_eq_false_iff_not, not_and, not_le]
      exact fun _ => short
    rw [TermStream.passesOver, ruled]
    simp
  have whole : scored.foldl stream.screened [] = data := by
    rw [split, List.append_cons, List.foldl_append, front]
    exact TermStream.foldl_screened_passed full passed
  have member : stream.ranked loser ∈ TopN.collect (winners.length + 1) (scored.map stream.ranked) := by
    rwa [← equal, whole]
  have below : ∀ posting, wins posting = true → stream.ranked posting < stream.ranked loser := by
    intro posting beats
    refine Prod.Lex.lt_iff.mpr (.inl ?_)
    change stream.score loser.freq loser.docLen < stream.score posting.freq posting.docLen
    rw [score]
    change wins loser < wins posting
    rw [loses, beats]
    exact Bool.false_lt_true
  have few := TopN.countP_lt_of_mem_collect member
  have early : winners.countP (fun posting => decide (stream.ranked posting < stream.ranked loser)) =
      winners.length :=
    List.countP_eq_length.mpr fun posting inside => decide_eq_true (below posting (all_win posting inside))
  have late : 0 < rest.countP fun posting => decide (stream.ranked posting < stream.ranked loser) :=
    List.countP_pos_iff.mpr ⟨later, behind, decide_eq_true (below later later_wins)⟩
  rw [List.countP_map, split, List.countP_append, List.countP_cons] at few
  simp only [Function.comp_def] at few
  omega

end Exactness

end Surch.Api
