import Surch.Index.Filing
import Surch.Lib.Leapfrog

/-! A term across the segments of an index: one cursor for each segment that has it, in memory or on
disk, and the walk that keeps a cursor's last answer until a greater document is asked for. -/
namespace Surch.Postings
open Surch.Lib Surch.Codec

/- `lookup_with_block_metas_checked`: a table that does not fit the others is not an absent term. -/
def FieldPostings.lookupWithBlockMetasChecked (field : FieldPostings) (term : String) :
    Except PostingsReadError (Option PostingsList) :=
  match field.fst.get? term with
  | none => .ok none
  | some idx =>
    let read : Option (PostingsList × Nat) := do
      let start ← field.offsets[idx]?
      let ending ← field.offsets[idx + 1]?
      let blockStart ← field.blockOffsets[idx]?
      let blockEnd ← field.blockOffsets[idx + 1]?
      let docIds ← slice field.docIdsFlat start ending
      let freqs ← slice field.freqsFlat start ending
      let expectedCount ← field.postingsCounts[idx]?
      let blockMetas ← slice field.blockMetasFlat blockStart blockEnd
      return (⟨docIds, freqs, blockMetas, field.lookupRoaring (idx % 2 ^ 32)⟩, expectedCount)
    match read with
    | none => .error .corrupt
    | some (list, expectedCount) =>
      if list.docIds.isEmpty || list.docIds.length != expectedCount ||
          list.freqs.length != expectedCount ||
          !((windows2 list.docIds).all fun pair => pair.1 < pair.2) ||
          list.blockMetas.length != (list.docIds.length + blockSize - 1) / blockSize then
        .error .corrupt
      else if idx ≥ 2 ^ 32 then .error .corrupt
      else .ok (some list)

def TermDictionary.postingsWithBlockMetasChecked {Digest : Type}
    (dictionary : TermDictionary Digest) (field term : String) :
    Except PostingsReadError (Option PostingsList) :=
  match dictionary.fields.get? field with
  | none => .ok none
  | some fieldPostings => fieldPostings.lookupWithBlockMetasChecked term

theorem FieldPostings.lookupWithBlockMetas_of_checked {field : FieldPostings} {term : String}
    {found : Option PostingsList} (checked : field.lookupWithBlockMetasChecked term = .ok found) :
    field.lookupWithBlockMetas term = found := by
  unfold lookupWithBlockMetasChecked at checked
  unfold lookupWithBlockMetas termRange
  split at checked
  · rename_i missing
    cases checked
    rw [missing]
    rfl
  · rename_i idx number
    simp only at checked
    split at checked
    · cases checked
    · rename_i list count read
      split at checked
      · cases checked
      · split at checked
        · cases checked
        · cases checked
          obtain ⟨start, at_start, read⟩ := Option.bind_eq_some_iff.mp read
          obtain ⟨ending, at_ending, read⟩ := Option.bind_eq_some_iff.mp read
          obtain ⟨blockStart, at_blockStart, read⟩ := Option.bind_eq_some_iff.mp read
          obtain ⟨blockEnd, at_blockEnd, read⟩ := Option.bind_eq_some_iff.mp read
          obtain ⟨docIds, at_docs, read⟩ := Option.bind_eq_some_iff.mp read
          obtain ⟨freqs, at_freqs, read⟩ := Option.bind_eq_some_iff.mp read
          obtain ⟨expected, -, read⟩ := Option.bind_eq_some_iff.mp read
          obtain ⟨blockMetas, at_metas, read⟩ := Option.bind_eq_some_iff.mp read
          cases read
          simp only [number, at_start, at_ending, at_blockStart, at_blockEnd, at_docs, at_freqs,
            at_metas, Option.bind_eq_bind, Option.bind_some, pure]

theorem TermDictionary.postingsWithBlockMetas_of_checked {Digest : Type}
    {dictionary : TermDictionary Digest} {field term : String} {found : Option PostingsList}
    (checked : dictionary.postingsWithBlockMetasChecked field term = .ok found) :
    dictionary.postingsWithBlockMetas field term = found := by
  unfold postingsWithBlockMetasChecked at checked
  unfold postingsWithBlockMetas
  split at checked
  · rename_i missing
    cases checked
    rw [missing]
    rfl
  · rename_i fieldPostings present
    rw [present]
    exact FieldPostings.lookupWithBlockMetas_of_checked checked

end Surch.Postings

namespace Surch.Index
open Surch.Lib Surch.Codec Surch.Postings

variable {Digest : Type}

inductive SegmentPostingsAdvance where
  | found (docId : Nat)
  | exhausted
  | error
deriving DecidableEq, Repr

inductive SegmentPostingsCursor where
  | disk (cursor : DiskPostingsCursor)
  | ram (iter : PostingsBlockSkipIter) (freqs : List Nat) (localDf : Nat)

namespace SegmentPostingsCursor

def localDf : SegmentPostingsCursor → Nat
  | .disk cursor => cursor.docFreq
  | .ram _ _ localDf => localDf

def advanceToWithStatus (target : Nat) :
    SegmentPostingsCursor → SegmentPostingsAdvance × SegmentPostingsCursor
  | .disk cursor =>
    match cursor.advanceToWithStatus target with
    | (.found docId, cursor) => (.found docId, .disk cursor)
    | (.exhausted, cursor) => (.exhausted, .disk cursor)
    | (.error, cursor) => (.error, .disk cursor)
  | .ram iter freqs localDf =>
    match iter.advanceTo target with
    | (some docId, iter) => (.found docId, .ram iter freqs localDf)
    | (none, iter) => (.exhausted, .ram iter freqs localDf)

def freq : SegmentPostingsCursor → Nat
  | .disk cursor => cursor.freq
  | .ram iter freqs _ => freqs.getD (iter.position - 1) 0

def hold (cursor : SegmentPostingsCursor) (target : Nat) :
    Except Unit (SegmentPostingsCursor × Option Nat) :=
  match cursor.advanceToWithStatus target with
  | (.found docId, cursor) => .ok (cursor, some docId)
  | (.exhausted, cursor) => .ok (cursor, none)
  | (.error, _) => .error ()

/- A follower moves only when its document lies below the target: `advance_to` consumes what it
returns. -/
def probe (follower : SegmentPostingsCursor × Option Nat) (target : Nat) :
    Except Unit (Option Nat × SegmentPostingsCursor × Option Nat) := do
  let follower ← if follower.2.any (· < target) then follower.1.hold target else .ok follower
  return (if follower.2 = some target then some follower.1.freq else none, follower)

def next (cursor : SegmentPostingsCursor) (target : Nat) :
    Except Unit (Option (Nat × Nat) × SegmentPostingsCursor) :=
  match cursor.advanceToWithStatus target with
  | (.found docId, cursor) => .ok (some (docId, cursor.freq), cursor)
  | (.exhausted, cursor) => .ok (none, cursor)
  | (.error, _) => .error ()

def after (docId : Nat) : Nat := min (docId + 1) (2 ^ 32 - 1)

/- The first cursor drives, the others are asked for its documents. Every answer of the driver is a
greater document, so there are at most 2³² of them. -/
def walk : List SegmentPostingsCursor → Except Unit (List (Nat × List Nat))
  | [] => .ok []
  | driver :: followers => do
    let followers ← followers.mapM fun follower => follower.hold 0
    drive probe next after (2 ^ 32 + 1) driver 0 followers

end SegmentPostingsCursor

structure SegmentedPostings where
  perSegment : List (Option SegmentPostingsCursor)
  globalDf : Nat

namespace DocumentIndex

variable (hash : List UInt8 → Digest) (index : DocumentIndex Digest)

def postingsDiskBacked : Bool := !index.sealedSegments.isEmpty || index.active.terms.diskBacked

def segmentCursor [DecidableEq Digest] (segment : Segment Digest) (field term : String) :
    Except PostingsReadError (Option SegmentPostingsCursor) :=
  if segment.terms.diskBacked then
    (segment.terms.diskCursorP2Checked hash field term).map fun cursor =>
      cursor.map SegmentPostingsCursor.disk
  else
    match segment.terms.postingsWithBlockMetasChecked field term with
    | .ok (some list) =>
      match skipIter list.docIds with
      | .ok (some iter) => .ok (some (.ram iter list.freqs list.docIds.length))
      | _ => .error .corrupt
    | .ok none => .ok none
    | .error error => .error error

/- The loop over the segments; the sum of the document frequencies must not overflow. -/
def collectCursors [DecidableEq Digest] (field term : String) :
    List (Segment Digest) → SegmentedPostings → Except PostingsReadError SegmentedPostings
  | [], view => .ok view
  | segment :: rest, view => do
    match ← segmentCursor hash segment field term with
    | none => collectCursors field term rest { view with perSegment := view.perSegment ++ [none] }
    | some cursor =>
      if view.globalDf + cursor.localDf ≥ 2 ^ 64 then .error .corrupt
      else
        collectCursors field term rest
          { perSegment := view.perSegment ++ [some cursor]
            globalDf := view.globalDf + cursor.localDf }

def segmentedPostingsChecked [DecidableEq Digest] (field term : String) :
    Except PostingsReadError (Option SegmentedPostings) :=
  let tables := index.segments.map fun segment => segment.terms.p2Integrity
  let integrityBytes := (tables.map P2IntegrityTable.bytes).foldl saturatingAddU64 0
  let fallbackFields := (tables.map P2IntegrityTable.fallbackFields).foldl saturatingAddU64 0
  if integrityBytes > p2IntegrityMaxBytes || fallbackFields != 0 then .error .corrupt
  else do
    let view ← collectCursors hash field term index.segments ⟨[], 0⟩
    return if view.perSegment.any Option.isSome then some view else none

end DocumentIndex

section Cursors

variable {v : TermPostings}

/- A cursor that has consumed `p` postings of a term, the last target having been `bound`. -/
def SegmentPostingsCursor.Consumed (v : TermPostings) (bound p : Nat) : SegmentPostingsCursor → Prop
  | .disk cursor => Opened v.1 v.2 cursor ∧ Cached v.1 v.2 cursor ∧ consumed v.1 cursor = p
  | .ram iter freqs _ => freqs = v.2 ∧ Lags v.1 bound iter p

theorem Consumed.later {bound bound' p : Nat} {cursor : SegmentPostingsCursor}
    (at_p : cursor.Consumed v bound p) (ordered : bound ≤ bound') : cursor.Consumed v bound' p := by
  cases cursor with
  | disk cursor => exact at_p
  | ram iter freqs localDf =>
    obtain ⟨same, lags⟩ := at_p
    exact ⟨same, lags.docs, lags.wellFormed, lags.bottom, lags.bounded, lags.behind,
      fun i low high inside => (lags.skipped i low high inside).trans_le ordered, lags.cursor,
      fun b early entry at_b => (lags.passed b early entry at_b).trans_le ordered⟩

/-- An advance stops at the first posting from the consumed ones on that reaches the target. -/
theorem advance_spec (postings : IsPostings v.1 v.2) {cursor : SegmentPostingsCursor}
    {bound p target : Nat} (at_p : cursor.Consumed v bound p) (ordered : bound ≤ target) :
    let q := firstFrom v.1 target p
    (v.1.length ≤ q ∧ ∃ cursor', cursor.advanceToWithStatus target = (.exhausted, cursor') ∧
        cursor'.Consumed v target v.1.length) ∨
      ∃ docId cursor', v.1[q]? = some docId ∧
        cursor.advanceToWithStatus target = (.found docId, cursor') ∧
        cursor'.freq = v.2.getD q 0 ∧ cursor'.Consumed v target (q + 1) := by
  intro q
  cases cursor with
  | disk cursor =>
    obtain ⟨opened, cached, rfl⟩ := at_p
    obtain ⟨opened', cached', outcome⟩ := advanceToWithStatus_spec postings target opened cached
    obtain ⟨status, next, result⟩ :
        ∃ status next, cursor.advanceToWithStatus target = (status, next) := ⟨_, _, rfl⟩
    rw [result] at opened' cached' outcome
    rcases outcome with ⟨all, exhausted, position⟩ | ⟨docId, found, answer, freq, position⟩
    · simp only at exhausted
      subst exhausted
      refine .inl ⟨all.ge, .disk next, ?_, opened', cached', position⟩
      simp only [SegmentPostingsCursor.advanceToWithStatus, result]
    · simp only at answer freq
      subst answer
      refine .inr ⟨docId, .disk next, found, ?_, freq, opened', cached', position⟩
      simp only [SegmentPostingsCursor.advanceToWithStatus, result]
  | ram iter freqs localDf =>
    obtain ⟨rfl, lags⟩ := at_p
    have ascending : v.1.Pairwise (· < ·) := List.isChain_iff_pairwise.mp postings.increasing
    obtain ⟨_, rfl, answer, position, lags'⟩ := advanceTo_spec ascending lags ordered
    obtain ⟨reply, iter', result⟩ :
        ∃ reply iter', iter.advanceTo target = (reply, iter') := ⟨_, _, rfl⟩
    rw [result] at answer position lags'
    simp only at answer position lags'
    cases found : v.1[firstFrom v.1 target p]? with
    | none =>
      have past := List.getElem?_eq_none_iff.mp found
      rw [found] at answer
      subst answer
      rw [Nat.min_eq_right (by omega)] at lags'
      refine .inl ⟨past, .ram iter' v.2 localDf, ?_, rfl, lags'⟩
      simp only [SegmentPostingsCursor.advanceToWithStatus, result]
    | some docId =>
      have inside := (List.getElem?_eq_some_iff.mp found).1
      rw [found] at answer
      subst answer
      rw [Nat.min_eq_left (by omega)] at lags'
      refine .inr ⟨docId, .ram iter' v.2 localDf, rfl, ?_, ?_, rfl, lags'⟩
      · simp only [SegmentPostingsCursor.advanceToWithStatus, result]
      · rw [SegmentPostingsCursor.freq, position inside, Nat.add_sub_cancel]

def entries (v : TermPostings) : List (Nat × Nat) := v.1.zip v.2

theorem entries_docs (postings : IsPostings v.1 v.2) : (entries v).map Prod.fst = v.1 :=
  List.map_fst_zip postings.aligned.le

theorem entries_ascending (postings : IsPostings v.1 v.2) :
    ((entries v).map Prod.fst).Pairwise (· < ·) := by
  rw [entries_docs postings]
  exact List.isChain_iff_pairwise.mp postings.increasing

theorem lookup_past (postings : IsPostings v.1 v.2) {key : Nat} (below : ∀ docId ∈ v.1, docId < key) :
    (entries v).lookup key = none := by
  rw [← Option.not_isSome_iff_eq_none, lookup_isSome, entries_docs postings]
  intro member
  exact lt_irrefl key (below key member)

theorem lookup_at (postings : IsPostings v.1 v.2) {key q docId : Nat}
    (below : ∀ i < q, ∀ inside : i < v.1.length, v.1[i] < key) (here : v.1[q]? = some docId)
    (reached : key ≤ docId) :
    (entries v).lookup key = if docId = key then some (v.2.getD q 0) else none := by
  have ascending : v.1.Pairwise (· < ·) := List.isChain_iff_pairwise.mp postings.increasing
  split
  · rename_i same
    refine SortedMap.lookup_of_mem (entries_ascending postings) (List.mem_iff_getElem?.mpr ⟨q, ?_⟩)
    rw [entries, entries_getElem? postings.aligned, here, ← same]
    rfl
  · rename_i differs
    rw [← Option.not_isSome_iff_eq_none, lookup_isSome, entries_docs postings]
    intro member
    obtain ⟨i, found⟩ := List.mem_iff_getElem?.mp member
    obtain ⟨inside, value⟩ := List.getElem?_eq_some_iff.mp found
    rcases Nat.lt_trichotomy i q with early | rfl | late
    · have less := below i early inside
      omega
    · rw [here] at found
      exact differs (Option.some.inj found)
    · have less := lt_of_getElem? ascending here found late
      omega

/- A follower that stands at the first posting it has not passed, or is past the last one. -/
def Follows (list : List (Nat × Nat)) (bound : Nat) (follower : SegmentPostingsCursor × Option Nat) :
    Prop :=
  ∃ v, IsPostings v.1 v.2 ∧ list = entries v ∧
    ((follower.2 = none ∧ ∀ docId ∈ v.1, docId < bound) ∨
      ∃ q docId, follower.2 = some docId ∧ v.1[q]? = some docId ∧
        follower.1.freq = v.2.getD q 0 ∧ follower.1.Consumed v bound (q + 1) ∧
        ∀ i < q, ∀ inside : i < v.1.length, v.1[i] < bound)

theorem hold_follows (postings : IsPostings v.1 v.2) {cursor : SegmentPostingsCursor}
    {bound p target : Nat} (at_p : cursor.Consumed v bound p) (ordered : bound ≤ target)
    (passed : ∀ i < p, ∀ inside : i < v.1.length, v.1[i] < target) :
    ∃ follower, cursor.hold target = .ok follower ∧ Follows (entries v) target follower ∧
      ∀ docId, follower.2 = some docId → target ≤ docId := by
  have before : ∀ i < firstFrom v.1 target p, ∀ inside : i < v.1.length, v.1[i] < target := by
    intro i early inside
    by_cases old : i < p
    · exact passed i old inside
    · exact lt_of_lt_firstFrom v.1 target (Nat.not_lt.mp old) early inside
  rcases advance_spec postings at_p ordered with
    ⟨all, cursor', advanced, -⟩ | ⟨docId, cursor', found, advanced, freq, at_q⟩
  · refine ⟨(cursor', none), by rw [SegmentPostingsCursor.hold, advanced],
      ⟨v, postings, rfl, .inl ⟨rfl, fun docId member => ?_⟩⟩, by simp⟩
    obtain ⟨i, inside, rfl⟩ := List.mem_iff_getElem.mp member
    exact before i (by omega) inside
  · obtain ⟨inside, value⟩ := List.getElem?_eq_some_iff.mp found
    refine ⟨(cursor', some docId), by rw [SegmentPostingsCursor.hold, advanced],
      ⟨v, postings, rfl, .inr ⟨_, docId, rfl, found, freq, at_q, before⟩⟩, ?_⟩
    rintro _ ⟨⟩
    rw [← value]
    exact firstFrom_le_getElem v.1 target inside

theorem probe_answers : Answers SegmentPostingsCursor.probe Follows where
  later := by
    rintro list bound bound' follower ⟨v, postings, rfl, stands⟩ ordered
    refine ⟨v, postings, rfl, ?_⟩
    rcases stands with ⟨past, below⟩ | ⟨q, docId, current, here, freq, at_q, before⟩
    · exact .inl ⟨past, fun docId member => (below docId member).trans_le ordered⟩
    · exact .inr ⟨q, docId, current, here, freq, Consumed.later at_q ordered,
        fun i early inside => (before i early inside).trans_le ordered⟩
  probe := by
    rintro list bound ⟨cursor, current⟩ key ⟨v, postings, rfl, stands⟩ ordered
    rcases stands with ⟨past, below⟩ | ⟨q, docId, here, found, freq, at_q, before⟩
    · simp only at past
      subst past
      refine ⟨(cursor, none), ?_, v, postings, rfl,
        .inl ⟨rfl, fun docId member => (below docId member).trans_le ordered⟩⟩
      rw [lookup_past postings fun docId member => (below docId member).trans_le ordered]
      rfl
    · simp only at here
      subst here
      have early : ∀ i < q, ∀ inside : i < v.1.length, v.1[i] < key :=
        fun i less inside => (before i less inside).trans_le ordered
      by_cases behind : docId < key
      · have passed : ∀ i < q + 1, ∀ inside : i < v.1.length, v.1[i] < key := by
          intro i less inside
          rcases Nat.lt_succ_iff_lt_or_eq.mp less with less | rfl
          · exact early i less inside
          · rw [List.getElem?_eq_getElem inside, Option.some.injEq] at found
            rwa [found]
        obtain ⟨follower, held, follows, reached⟩ := hold_follows postings at_q ordered passed
        refine ⟨follower, ?_, follows⟩
        have moved : SegmentPostingsCursor.probe (cursor, some docId) key =
            .ok (if follower.2 = some key then some follower.1.freq else none, follower) := by
          simp only [SegmentPostingsCursor.probe, Option.any_some, behind, decide_true, if_true,
            held, bind, Except.bind, pure, Except.pure]
        obtain ⟨v', postings', same, stood⟩ := follows
        rw [moved]
        rcases stood with ⟨past, below⟩ | ⟨q', docId', current, found', freq', -, before'⟩
        · rw [same, lookup_past postings' below, past]
          rfl
        · rw [same, lookup_at postings' before' found' (reached docId' current), current, freq']
          simp only [Option.some.injEq]
      · refine ⟨(cursor, some docId), ?_, v, postings, rfl,
          .inr ⟨q, docId, rfl, found, freq, Consumed.later at_q ordered, early⟩⟩
        rw [lookup_at postings early found (not_lt.mp behind)]
        simp only [SegmentPostingsCursor.probe, Option.any_some, behind, decide_false,
          Bool.false_eq_true, if_false, bind, Except.bind, pure, Except.pure, Option.some.injEq,
          freq]

def Drives (list : List (Nat × Nat)) (bound : Nat) (cursor : SegmentPostingsCursor) : Prop :=
  ∃ v p, IsPostings v.1 v.2 ∧ list = (entries v).drop p ∧ cursor.Consumed v bound p

theorem next_handsOut : HandsOut SegmentPostingsCursor.next Drives where
  entry := by
    rintro entry rest bound cursor target ⟨v, p, postings, split, at_p⟩ ordered reach
    have here : (entries v)[p]? = some entry := by
      have first : ((entries v).drop p)[0]? = some entry := by rw [← split, List.getElem?_cons_zero]
      rwa [List.getElem?_drop, Nat.add_zero] at first
    have tail : rest = (entries v).drop (p + 1) := by
      rw [← List.tail_drop, ← split]
      rfl
    have doc : v.1[p]? = some entry.1 ∧ v.2.getD p 0 = entry.2 := by
      rw [entries, entries_getElem? postings.aligned] at here
      obtain ⟨docId, found, same⟩ := Option.map_eq_some_iff.mp here
      rw [← same]
      exact ⟨found, rfl⟩
    have inside := (List.getElem?_eq_some_iff.mp doc.1).1
    have stop : firstFrom v.1 target p = p := by
      refine eq_firstFrom v.1 target le_rfl inside.le (fun i low high => by omega) fun _ => ?_
      rw [(List.getElem?_eq_some_iff.mp doc.1).2]
      exact reach
    rcases advance_spec postings at_p ordered with
      ⟨all, -⟩ | ⟨docId, cursor', found, advanced, freq, at_q⟩
    · omega
    · rw [stop] at found freq at_q
      obtain rfl : entry.1 = docId := Option.some.inj (doc.1.symm.trans found)
      refine ⟨cursor', ?_, v, p + 1, postings, tail, at_q⟩
      simp only [SegmentPostingsCursor.next, advanced, freq, doc.2]
  done := by
    rintro bound cursor target ⟨v, p, postings, split, at_p⟩ ordered
    have past : v.1.length ≤ p := by
      have size := List.drop_eq_nil_iff.mp split.symm
      rwa [entries, List.length_zip, postings.aligned, Nat.min_self, ← postings.aligned] at size
    rcases advance_spec postings at_p ordered with
      ⟨-, cursor', advanced, -⟩ | ⟨docId, cursor', found, -⟩
    · exact ⟨cursor', by rw [SegmentPostingsCursor.next, advanced]⟩
    · have inside := (List.getElem?_eq_some_iff.mp found).1
      have after := le_firstFrom v.1 target p
      omega

structure Starts (v : TermPostings) (cursor : SegmentPostingsCursor) : Prop where
  postings : IsPostings v.1 v.2
  start : cursor.Consumed v 0 0
  localDf : cursor.localDf = v.1.length

theorem length_le_of_fits {docs : List Nat} (ascending : docs.Pairwise (· < ·)) {bound : Nat}
    (fits : ∀ docId ∈ docs, docId < bound) : docs.length ≤ bound := by
  have sub : docs.Subset (List.range bound) := fun docId member =>
    List.mem_range.mpr (fits docId member)
  have nodup : docs.Nodup := ascending.imp fun less => less.ne
  simpa using (nodup.subperm sub).length_le

theorem mapM_hold {terms : List TermPostings} {cursors : List SegmentPostingsCursor}
    (starts : List.Forall₂ Starts terms cursors) :
    ∃ followers, (cursors.mapM fun cursor => cursor.hold 0) = .ok followers ∧
      List.Forall₂ (fun list follower => Follows list 0 follower) (terms.map entries) followers := by
  induction starts with
  | nil => exact ⟨[], rfl, .nil⟩
  | @cons v cursor terms cursors here rest ih =>
    obtain ⟨followers, held, follow⟩ := ih
    obtain ⟨follower, first, follows, -⟩ := hold_follows here.postings here.start le_rfl
      fun i early => absurd early (Nat.not_lt_zero i)
    refine ⟨follower :: followers, ?_, .cons follows follow⟩
    rw [List.mapM_cons, first, held]
    rfl

/-- Walking the cursors of some terms finds the documents all of them have, with every term's
frequency there. -/
theorem walk_spec {terms : List TermPostings} {cursors : List SegmentPostingsCursor}
    (starts : List.Forall₂ Starts terms cursors) :
    SegmentPostingsCursor.walk cursors = .ok (conjunction (terms.map entries)) := by
  cases starts with
  | nil => rfl
  | @cons v driver terms followers here rest =>
    obtain ⟨held, holding, follow⟩ := mapM_hold rest
    have postings := here.postings
    have fits : ∀ entry ∈ entries v, entry.1 < 2 ^ 32 := by
      intro entry member
      exact postings.docs_fit entry.1 (by
        rw [← entries_docs postings]
        exact List.mem_map.mpr ⟨entry, member, rfl⟩)
    have few : (entries v).length < 2 ^ 32 + 1 := by
      have bound := length_le_of_fits (List.isChain_iff_pairwise.mp postings.increasing)
        postings.docs_fit
      rw [entries, List.length_zip]
      omega
    rw [SegmentPostingsCursor.walk, holding]
    simp only [bind, Except.bind]
    rw [drive_eq_leapfrog next_handsOut (entries_ascending postings)
      (fun entry member => ?_) (fun entry _ other member less => ?_)
      ⟨v, 0, postings, (List.drop_zero).symm, here.start⟩ le_rfl (fun _ _ => Nat.zero_le _) few]
    · exact leapfrog_answers probe_answers follow (entries_ascending postings)
        fun _ _ => Nat.zero_le _
    · have small := fits entry member
      simp only [SegmentPostingsCursor.after]
      omega
    · have small := fits other member
      simp only [SegmentPostingsCursor.after]
      omega

end Cursors

section Views

variable {settings : Settings Digest} [DecidableEq Digest]

theorem diskCursorP2Checked_starts {inverted : Inverted} {dictionary : TermDictionary Digest}
    {field term : String} {found : Option DiskPostingsCursor}
    (serves : Serves settings.hash true inverted dictionary)
    (opened : dictionary.diskCursorP2Checked settings.hash field term = .ok found) :
    Option.Rel Starts (find inverted field term) (found.map .disk) := by
  obtain ⟨segment, present, readable⟩ := serves.intact rfl
  cases stored : find inverted field term with
  | none =>
    have absent : dictionary.diskCursorP2Checked settings.hash field term = .ok none := by
      rw [TermDictionary.diskCursorP2Checked]
      rcases serves.assembled.absent stored with gone | ⟨fieldPostings, at_field, gone⟩
      · rw [gone]
      · rw [at_field]
        dsimp only
        rw [gone]
    rw [absent] at opened
    cases opened
    exact .none
  | some v =>
    obtain ⟨fieldPostings, i, entry, at_field, number, postings, -, -, -, -⟩ :=
      serves.assembled.served serves.fits present readable stored
    cases published : fieldPostings.p2Integrity with
    | none =>
      -- a field without attestation cannot be opened this way
      rw [TermDictionary.diskCursorP2Checked, at_field] at opened
      dsimp only at opened
      rw [number, present] at opened
      simp only [FieldPostings.termEntryP2Verified, published, bind, Except.bind] at opened
      cases opened
    | some integrity =>
      have cursors := serves.assembled.diskCursorP2Checked_disk serves.fits (serves.payloads rfl)
        (serves.intact rfl) at_field (by rw [published]; simp) term
      rw [stored] at cursors
      obtain ⟨cursor, result, fresh, total⟩ := cursors
      rw [result] at opened
      cases opened
      exact .some ⟨postings, ⟨fresh.opened, fresh.cached, fresh.start⟩, total⟩

/-- A cursor that is handed out stands before the postings the segment has of the term. -/
theorem segmentCursor_spec {inverted : Inverted} {segment : Segment Digest} {field term : String}
    {found : Option SegmentPostingsCursor} (served : Served settings.hash inverted segment.terms)
    (opened : DocumentIndex.segmentCursor settings.hash segment field term = .ok found) :
    Option.Rel Starts (find inverted field term) found := by
  unfold DocumentIndex.segmentCursor at opened
  unfold Served at served
  cases placed : segment.terms.diskEnabled with
  | true =>
    rw [placed] at served
    rw [TermDictionary.diskBacked, placed, if_pos rfl] at opened
    cases result : segment.terms.diskCursorP2Checked settings.hash field term with
    | error e =>
      rw [result] at opened
      cases opened
    | ok cursor =>
      rw [result] at opened
      cases opened
      exact diskCursorP2Checked_starts served result
  | false =>
    rw [placed] at served
    rw [TermDictionary.diskBacked, placed, if_neg Bool.false_ne_true] at opened
    have resident := served.assembled.postingsWithBlockMetas_memory served.fits field term
    split at opened
    · rename_i list checked
      rw [TermDictionary.postingsWithBlockMetas_of_checked checked] at resident
      obtain ⟨v, stored, rfl⟩ := Option.map_eq_some_iff.mp resident.symm
      obtain ⟨terms, _, i, _, _, _, field_fits, _, value⟩ :=
        served.assembled.locate served.fits stored
      obtain ⟨postings, nonempty⟩ := field_fits.postings v (List.mem_of_getElem? value)
      obtain ⟨iter, built, start⟩ :=
        skipIter_start (List.isChain_iff_pairwise.mp postings.increasing) nonempty
      rw [built] at opened
      cases opened
      rw [stored]
      exact .some ⟨postings, ⟨rfl, start⟩, rfl⟩
    · rename_i checked
      cases opened
      rw [TermDictionary.postingsWithBlockMetas_of_checked checked] at resident
      rw [Option.map_eq_none_iff.mp resident.symm]
      exact .none
    · cases opened

def storedEntries (field term : String) (inverted : Inverted) : List (Nat × Nat) :=
  ((find inverted field term).map entries).getD []

theorem storedEntries_none {inverted : Inverted} {field term : String}
    (missing : find inverted field term = none) : storedEntries field term inverted = [] := by
  rw [storedEntries, missing]
  rfl

theorem storedEntries_some {inverted : Inverted} {field term : String} {v : TermPostings}
    (found : find inverted field term = some v) : storedEntries field term inverted = entries v := by
  rw [storedEntries, found]
  rfl

/-- The view of a term has one place for each segment, and counts the postings of all. -/
theorem collectCursors_spec {inverteds : List Inverted} {segments : List (Segment Digest)}
    {field term : String} {view final : SegmentedPostings}
    (served : List.Forall₂ (fun inverted segment => Served settings.hash inverted segment.terms)
      inverteds segments)
    (opened : DocumentIndex.collectCursors settings.hash field term segments view = .ok final) :
    ∃ cursors, final.perSegment = view.perSegment ++ cursors ∧
      List.Forall₂ (fun inverted cursor => Option.Rel Starts (find inverted field term) cursor)
        inverteds cursors ∧
      final.globalDf = view.globalDf + (inverteds.flatMap (storedEntries field term)).length := by
  induction served generalizing view with
  | nil =>
    cases opened
    exact ⟨[], (List.append_nil _).symm, .nil, rfl⟩
  | @cons inverted segment inverteds segments here rest ih =>
    rw [DocumentIndex.collectCursors] at opened
    cases result : DocumentIndex.segmentCursor settings.hash segment field term with
    | error e =>
      rw [result] at opened
      cases opened
    | ok found =>
      have starts := segmentCursor_spec here result
      rw [result] at opened
      simp only [bind, Except.bind] at opened
      cases found with
      | none =>
        obtain ⟨cursors, places, each, total⟩ := ih opened
        refine ⟨none :: cursors, ?_, .cons starts each, ?_⟩
        · rw [places, List.append_assoc]
          rfl
        · cases stored : find inverted field term with
          | none => rw [total, List.flatMap_cons, storedEntries_none stored, List.nil_append]
          | some v =>
            rw [stored] at starts
            cases starts
      | some cursor =>
        simp only at opened
        split at opened
        · cases opened
        · obtain ⟨cursors, places, each, total⟩ := ih opened
          refine ⟨some cursor :: cursors, ?_, .cons starts each, ?_⟩
          · rw [places, List.append_assoc]
            rfl
          · cases stored : find inverted field term with
            | none =>
              rw [stored] at starts
              cases starts
            | some v =>
              rw [stored] at starts
              cases starts with
              | some here =>
                have aligned := here.postings.aligned
                rw [total, List.flatMap_cons, storedEntries_some stored, List.length_append,
                  entries, List.length_zip, ← aligned, Nat.min_self, here.localDf, Nat.add_assoc]

theorem stored_nil_of_no_cursor {inverteds : List Inverted} {field term : String}
    {cursors : List (Option SegmentPostingsCursor)}
    (each : List.Forall₂
      (fun inverted cursor => Option.Rel Starts (find inverted field term) cursor) inverteds cursors)
    (nothing : ∀ cursor ∈ cursors, ¬ cursor.isSome = true) :
    inverteds.flatMap (storedEntries field term) = [] := by
  induction each with
  | nil => rfl
  | @cons inverted cursor inverteds cursors here rest ih =>
    obtain ⟨none_here, none_later⟩ := List.forall_mem_cons.mp nothing
    rw [Option.not_isSome_iff_eq_none] at none_here
    subst none_here
    have missing : find inverted field term = none := by
      cases stored : find inverted field term with
      | none => rfl
      | some v =>
        rw [stored] at here
        cases here
    rw [List.flatMap_cons, storedEntries_none missing, ih none_later]
    rfl

theorem segmentedPostingsChecked_spec {inverteds : List Inverted} {index : DocumentIndex Digest}
    {field term : String} {found : Option SegmentedPostings}
    (served : List.Forall₂ (fun inverted segment => Served settings.hash inverted segment.terms)
      inverteds index.segments)
    (opened : index.segmentedPostingsChecked settings.hash field term = .ok found) :
    match found with
    | none => inverteds.flatMap (storedEntries field term) = []
    | some view =>
      List.Forall₂ (fun inverted cursor => Option.Rel Starts (find inverted field term) cursor)
        inverteds view.perSegment ∧
      view.globalDf = (inverteds.flatMap (storedEntries field term)).length := by
  rw [DocumentIndex.segmentedPostingsChecked] at opened
  split at opened
  · cases opened
  · cases result : DocumentIndex.collectCursors settings.hash field term index.segments ⟨[], 0⟩ with
    | error e =>
      rw [result] at opened
      cases opened
    | ok view =>
      obtain ⟨cursors, places, each, total⟩ := collectCursors_spec served result
      rw [List.nil_append] at places
      rw [result] at opened
      simp only [bind, Except.bind, pure, Except.pure] at opened
      split at opened
      · cases opened
        rw [Nat.zero_add] at total
        exact ⟨places ▸ each, total⟩
      · rename_i nothing
        cases opened
        rw [places, Bool.not_eq_true, List.any_eq_false] at nothing
        exact stored_nil_of_no_cursor each nothing

end Views

end Surch.Index
