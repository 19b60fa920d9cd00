import Surch.Index.SegmentedPostings

/-! What an index stores of a term, and what each of its readers returns of it. -/
namespace Surch.Index
open Surch.Lib Surch.Codec Surch.Postings

variable {Digest : Type} {settings : Settings Digest}

def postingsFor (recorded : List Addition) (field term : String) : List (Nat × Nat) :=
  storedEntries field term (PostingsBuilder.new.addAll recorded).invert

theorem postingsFor_spec (recorded : List Addition) (field term : String) :
    ∃ v : TermPostings, IsPostings v.1 v.2 ∧ postingsFor recorded field term = entries v := by
  rw [postingsFor, storedEntries]
  cases found : find (PostingsBuilder.new.addAll recorded).invert field term with
  | none => exact ⟨([], []), ⟨rfl, by simp, by simp, by simp⟩, rfl⟩
  | some v => exact ⟨v, (invert_isPostings found).1, rfl⟩

theorem postingsFor_ascending (recorded : List Addition) (field term : String) :
    ((postingsFor recorded field term).map Prod.fst).Pairwise (· < ·) := by
  obtain ⟨v, postings, same⟩ := postingsFor_spec recorded field term
  rw [same]
  exact entries_ascending postings

theorem mem_postingsFor_term {recorded : List Addition} {field term : String} {docId : Nat}
    (member : docId ∈ (postingsFor recorded field term).map Prod.fst) :
    ∃ a ∈ recorded, a.field = field ∧ a.term = term ∧ a.docId = docId := by
  rw [postingsFor, storedEntries] at member
  cases found : find (PostingsBuilder.new.addAll recorded).invert field term with
  | none => simp [found] at member
  | some v =>
    rw [found] at member
    rw [Option.map_some, Option.getD_some, entries_docs (invert_isPostings found).1] at member
    rw [find_invert, find_addAll] at found
    split at found
    · cases found
    · cases found
      obtain ⟨p, inside, rfl⟩ := List.mem_map.mp (mem_settle_docIds member)
      obtain ⟨a, here, value⟩ := List.mem_filterMap.mp inside
      split at value
      · rename_i adds
        cases value
        exact ⟨a, here, adds.2.1, adds.2.2, rfl⟩
      · cases value

theorem mem_postingsFor {recorded : List Addition} {field term : String} {docId : Nat}
    (member : docId ∈ (postingsFor recorded field term).map Prod.fst) :
    ∃ a ∈ recorded, a.docId = docId := by
  obtain ⟨a, here, -, -, same⟩ := mem_postingsFor_term member
  exact ⟨a, here, same⟩

theorem postingsFor_blank (recorded : List Addition) {field term : String}
    (blank : isBlank field = true ∨ isBlank term = true) : postingsFor recorded field term = [] := by
  have nothing : Addition.postingsOf recorded field term = [] := by
    refine List.filterMap_eq_nil_iff.mpr fun a _ => if_neg ?_
    rintro ⟨accepted, rfl, rfl⟩
    rw [Addition.accepted] at accepted
    rcases blank with blank | blank <;> simp [blank] at accepted
  rw [postingsFor, storedEntries_none]
  rw [find_invert, find_addAll, if_pos nothing]
  rfl

structure Stores (settings : Settings Digest) (index : DocumentIndex Digest)
    (groups : List (List Addition)) : Prop where
  served : List.Forall₂
    (fun additions segment =>
      Served settings.hash (PostingsBuilder.new.addAll additions).invert segment.terms)
    groups index.segments
  ascending : Ascending groups

theorem zip_flatMap {α : Type} (parts : List α) (docs freqs : α → List Nat)
    (aligned : ∀ part ∈ parts, (docs part).length = (freqs part).length) :
    (parts.flatMap docs).zip (parts.flatMap freqs) =
      parts.flatMap fun part => (docs part).zip (freqs part) := by
  induction parts with
  | nil => rfl
  | cons part parts ih =>
    rw [List.flatMap_cons, List.flatMap_cons, List.flatMap_cons,
      List.zip_append (aligned part List.mem_cons_self),
      ih fun other member => aligned other (List.mem_cons_of_mem _ member)]

theorem flatMap_storedEntries (sources : List Inverted) (field term : String) :
    sources.flatMap (storedEntries field term) =
      (sources.filterMap fun source => find source field term).flatMap entries := by
  induction sources with
  | nil => rfl
  | cons source sources ih =>
    rw [List.flatMap_cons, List.filterMap_cons, ih]
    cases found : find source field term with
    | none => rw [storedEntries_none found, List.nil_append]
    | some v => rw [storedEntries_some found, List.flatMap_cons]

theorem entries_concat {parts : List TermPostings}
    (aligned : ∀ part ∈ parts, part.1.length = part.2.length) :
    entries (concatPostings parts) = parts.flatMap entries :=
  zip_flatMap parts Prod.fst Prod.snd aligned

theorem postingsFor_flatten {groups : List (List Addition)} (ascending : Ascending groups)
    (field term : String) :
    postingsFor groups.flatten field term =
      groups.flatMap fun group => postingsFor group field term := by
  have parts := flatMap_storedEntries
    (groups.map fun group => (PostingsBuilder.new.addAll group).invert) field term
  have aligned : ∀ v ∈ (groups.map fun group =>
      (PostingsBuilder.new.addAll group).invert).filterMap (fun source => find source field term),
      v.1.length = v.2.length := by
    intro v member
    obtain ⟨source, inside, found⟩ := List.mem_filterMap.mp member
    obtain ⟨group, -, rfl⟩ := List.mem_map.mp inside
    exact (invert_isPostings found).1.aligned
  rw [List.flatMap_map] at parts
  rw [postingsFor, ← mergeInverted_invert groups ascending, storedEntries, find_mergeInverted]
  simp only [postingsFor]
  rw [parts]
  split
  · rename_i nothing
    rw [nothing]
    rfl
  · rw [Option.map_some, Option.getD_some, entries_concat aligned]

namespace Stores

variable {index : DocumentIndex Digest} {groups : List (List Addition)}

theorem blocks_apart (stores : Stores settings index groups) :
    groups.Pairwise fun group later => ∀ f t f' t',
      ∀ x ∈ (postingsFor group f t).map Prod.fst, ∀ y ∈ (postingsFor later f' t').map Prod.fst,
        x < y := by
  refine stores.ascending.imp fun {group later} apart f t f' t' x member y member' => ?_
  obtain ⟨a, inside, rfl⟩ := mem_postingsFor member
  obtain ⟨b, inside', rfl⟩ := mem_postingsFor member'
  exact apart a inside b inside'

theorem inverteds (stores : Stores settings index groups) :
    List.Forall₂ (fun inverted segment => Served settings.hash inverted segment.terms)
      (groups.map fun group => (PostingsBuilder.new.addAll group).invert) index.segments :=
  List.forall₂_map_left_iff.mpr stores.served

theorem flatMap_stored (stores : Stores settings index groups) (field term : String) :
    (groups.map fun group => (PostingsBuilder.new.addAll group).invert).flatMap
      (storedEntries field term) = postingsFor groups.flatten field term := by
  rw [postingsFor_flatten stores.ascending, List.flatMap_map]
  rfl

end Stores

def DocumentIndex.stored (index : DocumentIndex Digest) (field term : String) : List (Nat × Nat) :=
  (index.segments.filterMap fun segment => segment.termPostings field term).flatMap entries

theorem segment_termPostings {inverted : Inverted} {segment : Segment Digest}
    (served : Served settings.hash inverted segment.terms) (field term : String) :
    segment.termPostings field term = find inverted field term := by
  unfold Served at served
  cases placed : segment.terms.diskEnabled with
  | true =>
    rw [placed] at served
    rw [Segment.termPostings, TermDictionary.diskBacked, placed, if_pos rfl]
    exact served.assembled.decodeFromSegment_disk served.fits (served.payloads rfl)
      (served.intact rfl) field term
  | false =>
    rw [placed] at served
    rw [Segment.termPostings, TermDictionary.diskBacked, placed, if_neg Bool.false_ne_true,
      served.assembled.postingsWithBlockMetas_memory served.fits, Option.map_map]
    exact Option.map_id'

theorem filterMap_termPostings {inverteds : List Inverted} {segments : List (Segment Digest)}
    (served : List.Forall₂ (fun inverted segment => Served settings.hash inverted segment.terms)
      inverteds segments) (field term : String) :
    (segments.filterMap fun segment => segment.termPostings field term) =
      inverteds.filterMap fun inverted => find inverted field term := by
  induction served with
  | nil => rfl
  | cons here rest ih =>
    rw [List.filterMap_cons, List.filterMap_cons, segment_termPostings here, ih]

namespace Stores

variable {index : DocumentIndex Digest} {groups : List (List Addition)}

theorem parts (stores : Stores settings index groups) (field term : String) :
    postingsFor groups.flatten field term = index.stored field term ∧
      ∀ v ∈ index.segments.filterMap (fun segment => segment.termPostings field term),
        IsPostings v.1 v.2 ∧ v.1 ≠ [] := by
  rw [DocumentIndex.stored, filterMap_termPostings stores.inverteds, ← flatMap_storedEntries,
    stores.flatMap_stored]
  refine ⟨rfl, fun v member => ?_⟩
  obtain ⟨source, inside, found⟩ := List.mem_filterMap.mp member
  obtain ⟨group, -, rfl⟩ := List.mem_map.mp inside
  exact invert_isPostings found

theorem decodeFromSegment (stores : Stores settings index groups)
    (onDisk : index.postingsDiskBacked = true) (field term : String) :
    match index.decodeFromSegment field term with
    | none => postingsFor groups.flatten field term = []
    | some v => v.1.length = v.2.length ∧ entries v = postingsFor groups.flatten field term := by
  obtain ⟨stored, each⟩ := stores.parts field term
  rw [DocumentIndex.stored] at stored
  cases sealed : index.sealedSegments with
  | nil =>
    have backed : index.active.terms.diskBacked = true := by
      simpa [DocumentIndex.postingsDiskBacked, sealed] using onDisk
    have single : index.segments = [index.active] := by
      rw [DocumentIndex.segments, sealed, List.nil_append]
    have read : index.decodeFromSegment field term = index.active.termPostings field term := by
      rw [DocumentIndex.decodeFromSegment, sealed, Segment.termPostings, if_pos backed]
    rw [single, List.filterMap_cons, List.filterMap_nil] at stored each
    rw [read]
    cases found : index.active.termPostings field term with
    | none =>
      rw [found] at stored
      exact stored
    | some v =>
      rw [found] at stored each
      rw [stored]
      exact ⟨(each v List.mem_cons_self).1.aligned, (List.flatMap_singleton entries v).symm⟩
  | cons first rest =>
    have read : index.decodeFromSegment field term =
        if (index.segments.filterMap fun segment => segment.termPostings field term).isEmpty then
          none
        else some (concatPostings
          (index.segments.filterMap fun segment => segment.termPostings field term)) := by
      rw [DocumentIndex.decodeFromSegment, sealed]
    rw [read, stored]
    split
    · rename_i decoded
      split at decoded
      · rename_i nothing
        rw [List.isEmpty_iff.mp nothing]
        rfl
      · cases decoded
    · rename_i v decoded
      split at decoded
      · cases decoded
      · cases decoded
        refine ⟨?_, entries_concat fun v member => (each v member).1.aligned⟩
        rw [concatPostings, List.length_flatMap, List.length_flatMap]
        refine congrArg List.sum (List.map_congr_left fun v member => ?_)
        exact (each v member).1.aligned

/-- An index whose flat channels are used has one segment, in memory. -/
theorem active_serves (stores : Stores settings index groups)
    (inMemory : index.postingsDiskBacked = false) :
    Serves settings.hash false (PostingsBuilder.new.addAll groups.flatten).invert
      index.active.terms := by
  rw [DocumentIndex.postingsDiskBacked, Bool.or_eq_false_iff, Bool.not_eq_false',
    List.isEmpty_iff] at inMemory
  obtain ⟨sealed, resident⟩ := inMemory
  have single : index.segments = [index.active] := by
    rw [DocumentIndex.segments, sealed, List.nil_append]
  have served := stores.served
  rw [single] at served
  cases served with
  | cons here rest =>
    cases rest
    rw [TermDictionary.diskBacked] at resident
    rw [Served, resident] at here
    rwa [List.flatten_cons, List.flatten_nil, List.append_nil]

theorem postings_resident (stores : Stores settings index groups)
    (inMemory : index.postingsDiskBacked = false) (field term : String) :
    index.active.terms.postings field term =
      find (PostingsBuilder.new.addAll groups.flatten).invert field term := by
  have serves := stores.active_serves inMemory
  exact serves.assembled.postings_memory serves.fits field term

theorem resident (stores : Stores settings index groups)
    (inMemory : index.postingsDiskBacked = false) (field term : String) :
    index.active.terms.postingsWithBlockMetas field term =
      (find (PostingsBuilder.new.addAll groups.flatten).invert field term).map fun v =>
        { docIds := v.1
          freqs := v.2
          blockMetas := buildBlockMetasFromFreqs v.2
          roaring := if v.1.length > termRoaringThreshold then
            some (RoaringDocSet.fromSorted v.1) else none } := by
  have serves := stores.active_serves inMemory
  exact serves.assembled.postingsWithBlockMetas_memory serves.fits field term

end Stores

/-- The segments hold what is filed, and the active one what is shown. -/
theorem DocumentIndex.Filed.stores_shown {index : DocumentIndex Digest}
    {filing : List (Segment Digest × List Addition)} {pending shown : List Addition}
    (filed : index.Filed settings filing pending)
    (served : Served settings.hash (PostingsBuilder.new.addAll shown).invert index.active.terms)
    (within : Within index.active.docBase index.nextDocIdHint shown) :
    Stores settings index (filing.map Prod.snd ++ [shown]) := by
  constructor
  · rw [DocumentIndex.segments, filed.segments]
    refine List.rel_append (List.forall₂_map_left_iff.mpr (List.forall₂_map_right_iff.mpr ?_))
      (.cons served .nil)
    exact List.forall₂_same.mpr fun entry member => (filed.sealed entry member).1
  · refine List.pairwise_append.mpr ⟨?_, List.pairwise_singleton _ _, ?_⟩
    · have tiles := filed.ranged.tiles
      rw [filed.segments] at tiles
      exact DocumentIndex.ascending_of_tiles filing tiles fun entry member =>
        (filed.sealed entry member).2
    · intro group member later last a inside b inside'
      rw [List.mem_singleton] at last
      subst last
      obtain ⟨entry, listed, rfl⟩ := List.mem_map.mp member
      have tiles := filed.ranged.tiles
      rw [filed.segments] at tiles
      have room := tiles.inside entry.1 (List.mem_map.mpr ⟨entry, listed, rfl⟩)
      have below := ((filed.sealed entry listed).2 a inside).2
      have above := (within b inside').1
      omega

theorem DocumentIndex.Filed.stores {index : DocumentIndex Digest}
    {filing : List (Segment Digest × List Addition)} {pending : List Addition}
    (filed : index.Filed settings filing pending) (ready : index.termsDirty = false) :
    ∃ groups, Stores settings index groups := by
  obtain ⟨shown, served, within, -⟩ := filed.shown ready
  exact ⟨_, filed.stores_shown served within⟩

/-- Once the terms are there, every run whose steps fit leaves an index that stores what was recorded. -/
theorem DocumentIndex.run_stores {index : DocumentIndex Digest} {steps : List Step}
    (ready : index.termsDirty = false) (fits : Meets settings (StepFits settings) .new steps)
    (finished : new.run settings steps = some index) : ∃ groups, Stores settings index groups := by
  obtain ⟨filing, pending, filed⟩ := run_filed ⟨[], [], new_filed⟩ fits finished
  exact filed.stores ready

end Surch.Index
