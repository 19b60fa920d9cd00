import Surch.Index.SegmentInfos
import Surch.Store.Checksum

/-! What `read_commit` makes of a file: the fields are read from the whole buffer, and where they end decides
between the infos, an error and a subtraction below zero. -/
namespace Surch.Index
open Surch.Lib Surch.Lib.Leb128 Surch.Store

section Prefixes

theorem codecVint_prefixed (shifts : List Nat) (value : UInt32) : Prefixed (Store.readVint shifts value) := by
  induction shifts generalizing value with
  | nil => exact .pure value
  | cons shift shifts ih => exact (Prefixed.array _ 1).bind fun byte => .ite (.pure _) (ih _)

theorem codecBeI32_prefixed : Prefixed Store.readBeI32 := (Prefixed.array _ 4).bind fun _ => .pure _

theorem codecString_prefixed : Prefixed Store.readString := by
  refine (codecVint_prefixed _ _).bind fun length => (Prefixed.array _ _).bind fun value => ?_
  cases fromUtf8 value with
  | none => exact .throw _
  | some text => exact .pure text

theorem checkHeader_prefixed (codec : String) (low high : Int32) : Prefixed (checkHeader codec low high) :=
  codecBeI32_prefixed.bind fun _ => (Prefixed.refuse _ _).bind fun _ => codecString_prefixed.bind fun _ =>
    (Prefixed.refuse _ _).bind fun _ => codecBeI32_prefixed.bind fun _ => (Prefixed.refuse _ _).bind fun _ =>
      (Prefixed.refuse _ _).bind fun _ => .pure _

namespace SegmentInfos

theorem vint_prefixed : Prefixed readVint := readGroups_prefixed.bind fun _ => .pure _

theorem vlong_prefixed : Prefixed readVlong := readGroups_prefixed.bind fun _ => .pure _

theorem byte_prefixed : Prefixed readByte := (Prefixed.array _ 1).bind fun _ => .pure _

theorem beI32_prefixed : Prefixed readBeI32 := (Prefixed.array _ 4).bind fun _ => .pure _

theorem beI64_prefixed : Prefixed readBeI64 := (Prefixed.array _ 8).bind fun _ => .pure _

theorem id_prefixed : Prefixed readId := by
  intro input value rest accepted
  unfold readId at accepted
  split at accepted
  · rename_i long
    cases accepted
    have full := List.length_take_of_le long
    refine ⟨input.take 16, (List.take_append_drop 16 input).symm, fun rest => ?_⟩
    have longer : 16 ≤ (input.take 16 ++ rest).length := by
      rw [List.length_append, full]
      exact Nat.le_add_right _ _
    rw [readId, dif_pos longer]
    simp only [List.take_left' full, List.drop_left' full]
  · cases accepted

theorem utf8_prefixed (length : Nat) : Prefixed (readUtf8 length) := by
  refine (Prefixed.array _ _).bind fun value => ?_
  cases fromUtf8 value with
  | none => exact .throw _
  | some text => exact .pure text

theorem count_prefixed (negative : Int32 → SegmentInfosError) : Prefixed (readCount negative) :=
  vint_prefixed.bind fun _ => (Prefixed.refuse _ _).bind fun _ => .pure _

theorem string_prefixed : Prefixed readString := (count_prefixed _).bind utf8_prefixed

theorem byteString_prefixed : Prefixed readByteString := byte_prefixed.bind fun _ => utf8_prefixed _

theorem setOfStrings_prefixed : Prefixed readSetOfStrings :=
  (count_prefixed _).bind fun _ => (string_prefixed.many _).bind fun _ => .pure _

theorem mapOfStrings_prefixed : Prefixed readMapOfStrings := by
  refine (count_prefixed _).bind fun count => Prefixed.bind (Prefixed.many ?_ count) fun _ => .pure _
  exact string_prefixed.bind fun _ => string_prefixed.bind fun _ => .pure _

theorem sciId_prefixed : Prefixed readSciId :=
  byte_prefixed.bind fun _ => .ite (.pure _) (.ite (id_prefixed.bind fun _ => .pure _) (.throw _))

theorem docValuesUpdateFiles_prefixed : Prefixed readDocValuesUpdateFiles := by
  refine beI32_prefixed.bind fun _ => (Prefixed.refuse _ _).bind fun _ =>
    Prefixed.bind (Prefixed.many ?_ _) fun _ => .pure _
  exact beI32_prefixed.bind fun _ => setOfStrings_prefixed.bind fun _ => .pure _

theorem segmentCommitInfo_prefixed : Prefixed readSegmentCommitInfo :=
  string_prefixed.bind fun _ => id_prefixed.bind fun _ => string_prefixed.bind fun _ =>
    beI64_prefixed.bind fun _ => beI32_prefixed.bind fun _ => beI64_prefixed.bind fun _ =>
      beI64_prefixed.bind fun _ => beI32_prefixed.bind fun _ => sciId_prefixed.bind fun _ =>
        setOfStrings_prefixed.bind fun _ => docValuesUpdateFiles_prefixed.bind fun _ => .pure _

theorem fields_prefixed (expectedSuffix : String) : Prefixed (readFields expectedSuffix) :=
  id_prefixed.bind fun _ => byteString_prefixed.bind fun _ => (Prefixed.refuse _ _).bind fun _ =>
    vint_prefixed.bind fun _ => vint_prefixed.bind fun _ => vint_prefixed.bind fun _ =>
      vint_prefixed.bind fun _ => beI64_prefixed.bind fun _ => vlong_prefixed.bind fun _ =>
        beI32_prefixed.bind fun _ => (Prefixed.refuse _ _).bind fun _ =>
          (segmentCommitInfo_prefixed.many _).bind fun _ => mapOfStrings_prefixed.bind fun _ => .pure _

end SegmentInfos

end Prefixes

section Outcomes

namespace SegmentInfos

def CommitFields.infos (fields : CommitFields) (generation : Int) : SegmentInfos where
  indexCreatedVersionMajor := fields.indexCreatedVersionMajor
  generation := generation
  lastGeneration := generation
  id := some fields.id
  luceneVersion := some fields.luceneVersion
  userData := fields.userData
  segments := fields.segments
  counter := fields.counter
  version := fields.version

/- A body and its checked footer; the body starts with the codec's header. -/
structure Framed (bytes body behind footer : List UInt8) : Prop where
  split : bytes = body ++ footer
  whole : footer.length = footerLength
  checked : ∃ checksum, checkFooter bytes = .ok checksum
  header : ∃ version, checkHeader segmentsCodec segmentsVersion74 segmentsVersionCurrent body = .ok (version, behind)

theorem Framed.bodyEnd {bytes body behind footer : List UInt8} (framed : Framed bytes body behind footer) :
    bytes.length - footerLength = body.length ∧ bytes.take body.length = body ∧
      bytes.drop (body.length - behind.length) = behind ++ footer := by
  obtain ⟨version, header⟩ := framed.header
  obtain ⟨written, rfl, -⟩ := checkHeader_prefixed _ _ _ _ _ _ header
  rw [framed.split]
  refine ⟨?_, List.take_left, ?_⟩
  · rw [List.length_append, framed.whole, Nat.add_sub_cancel]
  · rw [List.length_append, Nat.add_sub_cancel, List.append_assoc, List.drop_left]

theorem readCommit_framed {fileName : String} {generation : Int} {bytes body behind footer : List UInt8}
    (named : generationFromSegmentsFileName fileName = .ok generation)
    (framed : Framed bytes body behind footer) :
    readCommit fileName bytes = match readFields (formatBase36 generation) (behind ++ footer) with
      | .error e => .error (.error e)
      | .ok (fields, left) =>
        if left.length = footerLength then
          if fields.indexCreatedVersionMajor < 6 then
            .error (.error (.unsupportedIndexCreatedVersion fields.indexCreatedVersionMajor))
          else .ok (fields.infos generation)
        else if left.length < footerLength then .error .overflow
        else .error (.error (.trailingBytes (left.length - footerLength))) := by
  obtain ⟨bodyEnd, front, back⟩ := framed.bodyEnd
  obtain ⟨checksum, checked⟩ := framed.checked
  obtain ⟨version, header⟩ := framed.header
  have long : ¬ bytes.length < footerLength := by
    rw [framed.split, List.length_append, framed.whole]
    omega
  rw [readCommit, named, checked]
  simp only [Except.mapError, bind, Except.bind, refuse_of_not long, pure, Except.pure, bodyEnd, front, header, back]
  cases read : readFields (formatBase36 generation) (behind ++ footer) with
  | error e => rfl
  | ok reading =>
    obtain ⟨fields, left⟩ := reading
    obtain ⟨written, same, -⟩ := fields_prefixed _ _ _ _ read
    have total : bytes.length = body.length + footerLength := by
      rw [framed.split, List.length_append, framed.whole]
    have inside : left.length ≤ bytes.length := by
      have tail := congrArg List.length same
      have dropped := congrArg List.length back
      rw [List.length_drop] at dropped
      simp only [List.length_append] at tail dropped
      omega
    simp only
    by_cases exact' : left.length = footerLength
    · have ends : ¬ bytes.length - left.length ≠ body.length := by omega
      rw [if_neg ends, if_pos exact']
      by_cases old : fields.indexCreatedVersionMajor < 6
      · rw [SegmentInfos.new, if_pos old, if_pos old]
      · rw [SegmentInfos.new, if_neg old, if_neg old]
        rfl
    · have other : bytes.length - left.length ≠ body.length := by omega
      rw [if_pos other, if_neg exact']
      unfold usizeSub
      by_cases over' : left.length < footerLength
      · have below : ¬ bytes.length - left.length ≤ body.length := by omega
        rw [if_neg below, if_pos over']
      · have count : body.length - (bytes.length - left.length) = left.length - footerLength := by omega
        rw [if_pos (by omega), if_neg over', count]
        rfl

theorem readCommit_cases (fileName : String) (bytes : List UInt8) :
    (∃ generation body behind footer, generationFromSegmentsFileName fileName = .ok generation ∧
      Framed bytes body behind footer) ∨ ∃ e, readCommit fileName bytes = .error (.error e) := by
  cases named : generationFromSegmentsFileName fileName with
  | error e => exact .inr ⟨e, by rw [readCommit, named]; rfl⟩
  | ok generation =>
    cases checked : checkFooter bytes with
    | error e => exact .inr ⟨.codec e, by rw [readCommit, named, checked]; rfl⟩
    | ok checksum =>
      have long := (checkFooter_ok checked).1
      have whole : (bytes.drop (bytes.length - footerLength)).length = footerLength := by
        rw [List.length_drop]
        omega
      cases header : checkHeader segmentsCodec segmentsVersion74 segmentsVersionCurrent
          (bytes.take (bytes.length - footerLength)) with
      | error e =>
        refine .inr ⟨.codec e, ?_⟩
        rw [readCommit, named, checked]
        simp only [Except.mapError, bind, Except.bind, refuse_of_not (Nat.not_lt_of_le long), pure, Except.pure,
          header]
      | ok reading =>
        exact .inl ⟨generation, _, reading.2, _, rfl, (List.take_append_drop _ _).symm, whole, ⟨checksum, checked⟩,
          reading.1, header⟩

/- A commit file of a generation: the fields are all that is between the header and the footer. -/
def IsCommit (generation : Int) (bytes : List UInt8) (fields : CommitFields) : Prop :=
  ∃ body behind footer, Framed bytes body behind footer ∧
    readFields (formatBase36 generation) behind = .ok (fields, []) ∧ ¬ fields.indexCreatedVersionMajor < 6

/- The fields of that generation end inside the footer. -/
def Overruns (generation : Int) (bytes : List UInt8) : Prop :=
  ∃ body behind footer fields left, Framed bytes body behind footer ∧
    readFields (formatBase36 generation) (behind ++ footer) = .ok (fields, left) ∧ left.length < footerLength

variable {fileName : String} {bytes : List UInt8}

theorem fields_end_iff {suffix : String} {behind footer : List UInt8} {fields : CommitFields} :
    (∃ left, readFields suffix (behind ++ footer) = .ok (fields, left) ∧ left.length = footer.length) ↔
      readFields suffix behind = .ok (fields, []) := by
  constructor
  · rintro ⟨left, read, ends⟩
    obtain ⟨written, same, reads⟩ := fields_prefixed _ _ _ _ read
    obtain ⟨rfl, rfl⟩ := List.append_inj' same ends.symm
    exact reads.exact
  · intro read
    obtain ⟨written, same, reads⟩ := fields_prefixed _ _ _ _ read
    rw [List.append_nil] at same
    subst same
    exact ⟨footer, reads footer, rfl⟩

theorem readCommit_ok {infos : SegmentInfos} :
    readCommit fileName bytes = .ok infos ↔ ∃ generation fields,
      generationFromSegmentsFileName fileName = .ok generation ∧ IsCommit generation bytes fields ∧
        infos = fields.infos generation := by
  constructor
  · intro accepted
    rcases readCommit_cases fileName bytes with ⟨generation, body, behind, footer, named, framed⟩ | ⟨e, refused⟩
    · rw [readCommit_framed named framed] at accepted
      cases read : readFields (formatBase36 generation) (behind ++ footer) with
      | error e =>
        rw [read] at accepted
        cases accepted
      | ok reading =>
        rw [read] at accepted
        simp only at accepted
        split at accepted
        · rename_i ends
          split at accepted
          · cases accepted
          · rename_i major
            cases accepted
            refine ⟨generation, reading.1, named, ⟨body, behind, footer, framed, ?_, major⟩, rfl⟩
            exact fields_end_iff.mp ⟨reading.2, read, ends.trans framed.whole.symm⟩
        · split at accepted <;> cases accepted
    · rw [refused] at accepted
      cases accepted
  · rintro ⟨generation, fields, named, ⟨body, behind, footer, framed, read, major⟩, rfl⟩
    obtain ⟨left, read, ends⟩ := (@fields_end_iff _ _ footer _).mpr read
    rw [readCommit_framed named framed, read]
    simp only [if_pos (ends.trans framed.whole), if_neg major]

theorem readCommit_overflow :
    readCommit fileName bytes = .error .overflow ↔ ∃ generation,
      generationFromSegmentsFileName fileName = .ok generation ∧ Overruns generation bytes := by
  constructor
  · intro failed
    rcases readCommit_cases fileName bytes with ⟨generation, body, behind, footer, named, framed⟩ | ⟨e, refused⟩
    · rw [readCommit_framed named framed] at failed
      cases read : readFields (formatBase36 generation) (behind ++ footer) with
      | error e =>
        rw [read] at failed
        cases failed
      | ok reading =>
        rw [read] at failed
        simp only at failed
        split at failed
        · split at failed <;> cases failed
        · split at failed
          · rename_i inside
            exact ⟨generation, named, body, behind, footer, reading.1, reading.2, framed, read, inside⟩
          · cases failed
    · rw [refused] at failed
      cases failed
  · rintro ⟨generation, named, body, behind, footer, fields, left, framed, read, inside⟩
    rw [readCommit_framed named framed, read]
    simp only [if_neg (Nat.ne_of_lt inside), if_pos inside]

end SegmentInfos

end Outcomes

section FailsClosed

open SegmentInfos

/- The call returns; what it accepts is a body of fields by itself, of the generation in its header, under the
name of that generation. -/
structure FailsClosed (fileName : String) (bytes : List UInt8) : Prop where
  returns : readCommit fileName bytes ≠ .error .overflow
  body : ∀ infos, readCommit fileName bytes = .ok infos →
    ∃ fields, IsCommit infos.generation bytes fields ∧ infos = fields.infos infos.generation
  name : ∀ infos, readCommit fileName bytes = .ok infos →
    fileNameFromGeneration segmentsName "" infos.generation = some fileName

theorem commit_fails_closed (fileName : String) (bytes : List UInt8) :
    FailsClosed fileName bytes ↔ ∀ generation, generationFromSegmentsFileName fileName = .ok generation →
      ¬ Overruns generation bytes ∧ ((∃ fields, IsCommit generation bytes fields) →
        fileNameFromGeneration segmentsName "" generation = some fileName) := by
  constructor
  · intro closed generation named
    refine ⟨fun overruns => closed.returns (readCommit_overflow.mpr ⟨generation, named, overruns⟩), ?_⟩
    rintro ⟨fields, commit⟩
    exact closed.name _ (readCommit_ok.mpr ⟨generation, fields, named, commit, rfl⟩)
  · intro fine
    refine ⟨?_, ?_, ?_⟩
    · intro failed
      obtain ⟨generation, named, overruns⟩ := readCommit_overflow.mp failed
      exact (fine generation named).1 overruns
    · intro infos accepted
      obtain ⟨generation, fields, named, commit, rfl⟩ := readCommit_ok.mp accepted
      exact ⟨fields, commit, rfl⟩
    · intro infos accepted
      obtain ⟨generation, fields, named, commit, rfl⟩ := readCommit_ok.mp accepted
      exact (fine generation named).2 ⟨fields, commit⟩

def commitFront : List UInt8 :=
  headerBytes segmentsCodec segmentsVersionCurrent ++ List.replicate 16 0 ++ [1, 0x31, 11, 0, 0, 7]

/- A body that ends within the version, and a whole commit under two other names. -/
theorem not_commit_fails_closed :
    ¬ FailsClosed "segments_1" (writeFooter (commitFront ++ [0, 0, 0, 0])) ∧
      ¬ FailsClosed "segments_01" (writeFooter (commitFront ++ List.replicate 14 0)) ∧
      ¬ FailsClosed "segmentsX1" (writeFooter (commitFront ++ List.replicate 14 0)) := by
  have read : readCommit "segments_1" (writeFooter (commitFront ++ [0, 0, 0, 0])) = .error .overflow ∧
      (readCommit "segments_01" (writeFooter (commitFront ++ List.replicate 14 0))).toOption.map
        SegmentInfos.generation = some 1 ∧
      (readCommit "segmentsX1" (writeFooter (commitFront ++ List.replicate 14 0))).toOption.map
        SegmentInfos.generation = some 1 ∧
      fileNameFromGeneration segmentsName "" 1 = some "segments_1" := by
    decide +kernel
  have misnamed {fileName : String} {bytes : List UInt8} (other : "segments_1" ≠ fileName)
      (accepted : (readCommit fileName bytes).toOption.map SegmentInfos.generation = some 1) :
      ¬ FailsClosed fileName bytes := by
    intro closed
    cases outcome : readCommit fileName bytes with
    | error e =>
      rw [outcome] at accepted
      cases accepted
    | ok infos =>
      rw [outcome] at accepted
      have name := closed.name infos outcome
      rw [show infos.generation = 1 from Option.some.inj accepted, read.2.2.2] at name
      exact other (Option.some.inj name)
  exact ⟨fun closed => closed.returns read.1, misnamed (by decide) read.2.1, misnamed (by decide) read.2.2.1⟩

end FailsClosed

end Surch.Index
