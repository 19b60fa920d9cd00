import Mathlib.Algebra.Group.Nat.Defs
import Mathlib.Data.List.TakeDrop
import Mathlib.Order.Nat

/-! `PostingsSegment`: one append-only temporary file, written by positional writes and
read by positional reads. The operating system's answers are a parameter, so that a run
may meet any mixture of failures. -/
namespace Surch.Postings

inductive IoError where
  | invalidInput
  | unexpectedEof
  | other
deriving DecidableEq, Repr

inductive PostingsReadError where
  | io
  | corrupt
  | missingCoverage
deriving DecidableEq, Repr

/- What the operating system answers for one segment: whether the file could be created,
whether the set_len of the n-th append succeeds, after how many bytes the n-th write fails
(none: it completes), and which positional reads succeed. -/
structure Device where
  creates : Bool
  extendsAt : Nat → Bool
  failsAfter : Nat → Option Nat
  reads : Nat → Nat → Bool

/-- The device that never fails. -/
def Device.reliable : Device where
  creates := true
  extendsAt _ := true
  failsAfter _ := none
  reads _ _ := true

/- The bytes of a file; those between the written data and the logical length are zero. -/
structure SegmentFile where
  data : List UInt8
  len : Nat
  bounded : data.length ≤ len

namespace SegmentFile

def empty : SegmentFile := ⟨[], 0, le_rfl⟩

def setLen (file : SegmentFile) (len : Nat) : SegmentFile where
  data := file.data.take len
  len := len
  bounded := List.length_take_le _ _

def headUpTo (file : SegmentFile) (offset : Nat) : List UInt8 :=
  file.data.take offset ++ List.replicate (offset - file.data.length) 0

def writeAllAt (file : SegmentFile) (bytes : List UInt8) (offset : Nat) : SegmentFile where
  data := file.headUpTo offset ++ bytes ++ file.data.drop (offset + bytes.length)
  len := max file.len (offset + bytes.length)
  bounded := by
    have := file.bounded
    simp only [headUpTo, List.length_append, List.length_take, List.length_replicate,
      List.length_drop]
    omega

/- read_exact_at: a read past the logical length fails, one inside it always fills up. -/
def readExactAt (file : SegmentFile) (offset length : Nat) : Option (List UInt8) :=
  if offset + length ≤ file.len then
    some ((file.data.drop offset).take length ++
      List.replicate (length - (file.data.length - offset)) 0)
  else none

end SegmentFile

structure PostingsSegment where
  device : Device
  file : SegmentFile
  nextOffset : Nat
  extendedLen : Nat
  /-- The appends attempted so far, and how many of them failed. -/
  appends : Nat
  refused : Nat
  offset_fits : nextOffset < 2 ^ 64

namespace PostingsSegment

def extendChunk : Nat := 64 * 1024 * 1024

def fileSizeLimit : Nat := 2 ^ 63

def tryNew (device : Device) : Option PostingsSegment :=
  if device.creates then
    some { device, file := .empty, nextOffset := 0, extendedLen := 0, appends := 0, refused := 0,
           offset_fits := by decide }
  else none

def extendedTo (extendedLen writeEnd : Nat) : Nat :=
  extendedLen + extendChunk * ((writeEnd - extendedLen + extendChunk - 1) / extendChunk)

def ensureCapacity (segment : PostingsSegment) (writeEnd : Nat) : PostingsSegment :=
  if writeEnd ≤ segment.extendedLen then segment
  else
    let newLen := extendedTo segment.extendedLen writeEnd
    if segment.device.extendsAt segment.appends ∧ newLen < fileSizeLimit then
      { segment with file := segment.file.setLen newLen, extendedLen := newLen }
    else segment

def append (segment : PostingsSegment) (bytes : List UInt8) : Option Nat × PostingsSegment :=
  let offset := segment.nextOffset
  let prepared := segment.ensureCapacity (offset + bytes.length)
  if h : offset + bytes.length < fileSizeLimit then
    match prepared.device.failsAfter prepared.appends with
    | none =>
      (some offset,
        { prepared with
          file := prepared.file.writeAllAt bytes offset
          nextOffset := offset + bytes.length
          appends := prepared.appends + 1
          offset_fits := h.trans (by decide) })
    | some written =>
      (none,
        { prepared with
          file := prepared.file.writeAllAt (bytes.take written) offset
          appends := prepared.appends + 1
          refused := prepared.refused + 1 })
  else
    (none, { prepared with appends := prepared.appends + 1, refused := prepared.refused + 1 })

def readChecked (segment : PostingsSegment) (offset length : Nat) : Except IoError (List UInt8) :=
  if offset + length ≥ 2 ^ 64 then .error .invalidInput
  else if offset + length > segment.nextOffset then .error .unexpectedEof
  else if segment.device.reads offset length then
    match segment.file.readExactAt offset length with
    | some bytes => .ok bytes
    | none => .error .unexpectedEof
  else .error .other

def containsRange (segment : PostingsSegment) (offset length : Nat) : Bool :=
  offset + length < 2 ^ 64 && offset + length ≤ segment.nextOffset

/- read: the lossy form, which does not consult the next offset. -/
def read (segment : PostingsSegment) (offset length : Nat) : Option (List UInt8) :=
  if segment.device.reads offset length then segment.file.readExactAt offset length else none

theorem read_length {segment : PostingsSegment} {offset length : Nat} {bytes : List UInt8}
    (found : segment.read offset length = some bytes) : bytes.length = length := by
  unfold read SegmentFile.readExactAt at found
  split at found
  · split at found
    · cases found
      rw [List.length_append, List.length_take, List.length_drop, List.length_replicate]
      omega
    · cases found
  · cases found

/-- The segment holds `bytes` at `base`, below its next offset. -/
structure Holds (segment : PostingsSegment) (base : Nat) (bytes : List UInt8) : Prop where
  below : base + bytes.length ≤ segment.nextOffset
  stored : (segment.file.data.drop base).take bytes.length = bytes

namespace Holds

variable {segment : PostingsSegment} {base : Nat}

theorem inner {before bytes after : List UInt8}
    (holds : segment.Holds base (before ++ bytes ++ after)) :
    segment.Holds (base + before.length) bytes := by
  obtain ⟨below, stored⟩ := holds
  simp only [List.length_append] at below
  refine ⟨by omega, ?_⟩
  have cut := congrArg (fun whole => (whole.drop before.length).take bytes.length) stored
  simp only [List.drop_take, List.drop_drop, List.take_take, List.append_assoc,
    List.drop_left, List.take_left, List.length_append] at cut
  have shorter : min bytes.length (before.length + (bytes.length + after.length) - before.length) =
      bytes.length := by omega
  rwa [shorter] at cut

theorem data_length {bytes : List UInt8} (holds : segment.Holds base bytes)
    (nonempty : bytes ≠ []) : base + bytes.length ≤ segment.file.data.length := by
  have size := congrArg List.length holds.stored
  have positive := List.length_pos_iff.mpr nonempty
  rw [List.length_take, List.length_drop] at size
  omega

theorem readExactAt {bytes : List UInt8} (holds : segment.Holds base bytes)
    (nonempty : bytes ≠ []) : segment.file.readExactAt base bytes.length = some bytes := by
  have inside := holds.data_length nonempty
  have bounded := segment.file.bounded
  have full : bytes.length - (segment.file.data.length - base) = 0 := by omega
  unfold SegmentFile.readExactAt
  rw [if_pos (by omega), holds.stored, full, List.replicate_zero, List.append_nil]

theorem readChecked {bytes : List UInt8} (holds : segment.Holds base bytes)
    (nonempty : bytes ≠ []) (readable : ∀ offset length, segment.device.reads offset length = true) :
    segment.readChecked base bytes.length = .ok bytes := by
  have fits := segment.offset_fits
  have below := holds.below
  unfold PostingsSegment.readChecked
  rw [if_neg (by omega), if_neg (by omega), if_pos (readable _ _), holds.readExactAt nonempty]

theorem read {bytes : List UInt8} (holds : segment.Holds base bytes) (nonempty : bytes ≠ [])
    (readable : ∀ offset length, segment.device.reads offset length = true) :
    segment.read base bytes.length = some bytes := by
  unfold PostingsSegment.read
  rw [if_pos (readable _ _), holds.readExactAt nonempty]

end Holds

@[simp] theorem ensureCapacity_nextOffset (segment : PostingsSegment) (writeEnd : Nat) :
    (segment.ensureCapacity writeEnd).nextOffset = segment.nextOffset := by
  unfold ensureCapacity
  split
  · rfl
  · dsimp only
    split <;> rfl

@[simp] theorem ensureCapacity_device (segment : PostingsSegment) (writeEnd : Nat) :
    (segment.ensureCapacity writeEnd).device = segment.device := by
  unfold ensureCapacity
  split
  · rfl
  · dsimp only
    split <;> rfl

@[simp] theorem ensureCapacity_refused (segment : PostingsSegment) (writeEnd : Nat) :
    (segment.ensureCapacity writeEnd).refused = segment.refused := by
  unfold ensureCapacity
  split
  · rfl
  · dsimp only
    split <;> rfl

@[simp] theorem ensureCapacity_appends (segment : PostingsSegment) (writeEnd : Nat) :
    (segment.ensureCapacity writeEnd).appends = segment.appends := by
  unfold ensureCapacity
  split
  · rfl
  · dsimp only
    split <;> rfl

theorem le_extendedTo (extendedLen writeEnd : Nat) : writeEnd ≤ extendedTo extendedLen writeEnd := by
  simp only [extendedTo, extendChunk]
  omega

theorem ensureCapacity_take (segment : PostingsSegment) (writeEnd : Nat) :
    (segment.ensureCapacity writeEnd).file.data.take writeEnd = segment.file.data.take writeEnd := by
  have reach := le_extendedTo segment.extendedLen writeEnd
  unfold ensureCapacity
  split
  · rfl
  · dsimp only
    split
    · simp only [SegmentFile.setLen, List.take_take, Nat.min_eq_left reach]
    · rfl

theorem writeAllAt_take (file : SegmentFile) (bytes : List UInt8) (offset n : Nat)
    (before : n ≤ offset) (stored : n ≤ file.data.length) :
    (file.writeAllAt bytes offset).data.take n = file.data.take n := by
  simp only [SegmentFile.writeAllAt, SegmentFile.headUpTo, List.append_assoc]
  rw [List.take_append_of_le_length (by rw [List.length_take]; omega), List.take_take,
    Nat.min_eq_left before]

theorem headUpTo_length (file : SegmentFile) (offset : Nat) :
    (file.headUpTo offset).length = offset := by
  simp only [SegmentFile.headUpTo, List.length_append, List.length_take, List.length_replicate]
  omega

theorem writeAllAt_stored (file : SegmentFile) (bytes : List UInt8) (offset : Nat) :
    ((file.writeAllAt bytes offset).data.drop offset).take bytes.length = bytes := by
  have head := headUpTo_length file offset
  simp only [SegmentFile.writeAllAt, List.append_assoc]
  rw [List.drop_append_of_le_length head.ge, List.drop_of_length_le head.le, List.nil_append,
    List.take_left]

theorem Holds.of_take {segment next : PostingsSegment} {base : Nat} {bytes : List UInt8}
    (holds : segment.Holds base bytes)
    (kept : next.file.data.take (base + bytes.length) =
      segment.file.data.take (base + bytes.length))
    (grown : segment.nextOffset ≤ next.nextOffset) : next.Holds base bytes := by
  refine ⟨holds.below.trans grown, ?_⟩
  have both := congrArg (List.drop base) kept
  rw [List.drop_take, List.drop_take, Nat.add_sub_cancel_left, holds.stored] at both
  exact both

/-- Whatever an append does, the ranges already held stay held. -/
theorem Holds.append {segment : PostingsSegment} {base : Nat} {bytes : List UInt8}
    (holds : segment.Holds base bytes) (nonempty : bytes ≠ []) (more : List UInt8) :
    (segment.append more).2.Holds base bytes := by
  have inside := holds.data_length nonempty
  have below := holds.below
  have prepared_take : (segment.ensureCapacity (segment.nextOffset + more.length)).file.data.take
      (base + bytes.length) = segment.file.data.take (base + bytes.length) := by
    have wide := congrArg (List.take (base + bytes.length))
      (ensureCapacity_take segment (segment.nextOffset + more.length))
    rwa [List.take_take, List.take_take, Nat.min_eq_left (by omega)] at wide
  have prepared_length : base + bytes.length ≤
      (segment.ensureCapacity (segment.nextOffset + more.length)).file.data.length := by
    have size := congrArg List.length prepared_take
    rw [List.length_take, List.length_take] at size
    omega
  unfold PostingsSegment.append
  dsimp only
  split
  · split
    · refine holds.of_take ?_ (Nat.le_add_right _ _)
      exact (writeAllAt_take _ _ _ _ below prepared_length).trans prepared_take
    · refine holds.of_take ?_ (le_of_eq (ensureCapacity_nextOffset _ _).symm)
      exact (writeAllAt_take _ _ _ _ below prepared_length).trans prepared_take
  · exact holds.of_take prepared_take (le_of_eq (ensureCapacity_nextOffset _ _).symm)

/-- A successful append stores its bytes at the offset it returns. -/
theorem append_holds {segment : PostingsSegment} {bytes : List UInt8} {offset : Nat}
    (accepted : (segment.append bytes).1 = some offset) :
    offset = segment.nextOffset ∧ (segment.append bytes).2.Holds offset bytes ∧
      (segment.append bytes).2.nextOffset = segment.nextOffset + bytes.length ∧
      (segment.append bytes).2.refused = segment.refused := by
  revert accepted
  unfold PostingsSegment.append
  dsimp only
  split
  · split
    · intro accepted
      cases accepted
      refine ⟨rfl, ⟨le_rfl, writeAllAt_stored _ _ _⟩, rfl, ?_⟩
      exact ensureCapacity_refused _ _
    · intro accepted
      cases accepted
  · intro accepted
    cases accepted

theorem append_accepted {segment : PostingsSegment} {bytes : List UInt8}
    (room : segment.nextOffset + bytes.length < fileSizeLimit)
    (complete : segment.device.failsAfter segment.appends = none) :
    (segment.append bytes).1 = some segment.nextOffset := by
  unfold PostingsSegment.append
  dsimp only
  rw [dif_pos room]
  split
  · rfl
  · rename_i failed
    rw [ensureCapacity_device, ensureCapacity_appends, complete] at failed
    cases failed

theorem append_device (segment : PostingsSegment) (bytes : List UInt8) :
    (segment.append bytes).2.device = segment.device := by
  unfold PostingsSegment.append
  dsimp only
  split
  · split <;> exact ensureCapacity_device _ _
  · exact ensureCapacity_device _ _

theorem append_nextOffset_le (segment : PostingsSegment) (bytes : List UInt8) :
    segment.nextOffset ≤ (segment.append bytes).2.nextOffset := by
  unfold PostingsSegment.append
  dsimp only
  split
  · split
    · exact Nat.le_add_right _ _
    · exact le_of_eq (ensureCapacity_nextOffset _ _).symm
  · exact le_of_eq (ensureCapacity_nextOffset _ _).symm

/-- One segment is the other after some more appends, failed ones included. -/
inductive Reaches (segment : PostingsSegment) : PostingsSegment → Prop
  | refl : Reaches segment segment
  | append {next : PostingsSegment} (reached : Reaches segment next) (bytes : List UInt8) :
    Reaches segment (next.append bytes).2

theorem Reaches.trans {first second third : PostingsSegment} (left : first.Reaches second)
    (right : second.Reaches third) : first.Reaches third := by
  induction right with
  | refl => exact left
  | append _ bytes ih => exact ih.append bytes

theorem Reaches.device {first second : PostingsSegment} (reached : first.Reaches second) :
    second.device = first.device := by
  induction reached with
  | refl => rfl
  | append _ bytes ih => rw [append_device, ih]

theorem Holds.reaches {segment next : PostingsSegment} {base : Nat} {bytes : List UInt8}
    (holds : segment.Holds base bytes) (reached : segment.Reaches next) : next.Holds base bytes := by
  induction reached with
  | refl => exact holds
  | append _ more ih =>
    by_cases nonempty : bytes = []
    · subst nonempty
      exact ⟨ih.below.trans (append_nextOffset_le _ _), rfl⟩
    · exact ih.append nonempty more

theorem Holds.join {segment : PostingsSegment} {base : Nat} {bytes more : List UInt8}
    (left : segment.Holds base bytes) (right : segment.Holds (base + bytes.length) more) :
    segment.Holds base (bytes ++ more) where
  below := by
    have below := right.below
    simp only [List.length_append]
    omega
  stored := by
    have second := right.stored
    rw [← List.drop_drop] at second
    rw [List.length_append, List.take_add, left.stored, second]

/-- A successful append continues the range that ends where the segment does. -/
theorem Holds.extend {segment : PostingsSegment} {base offset : Nat} {bytes more : List UInt8}
    (holds : segment.Holds base bytes) (last : segment.nextOffset = base + bytes.length)
    (accepted : (segment.append more).1 = some offset) :
    (segment.append more).2.Holds base (bytes ++ more) ∧
      (segment.append more).2.nextOffset = base + (bytes ++ more).length := by
  obtain ⟨rfl, appended, next, -⟩ := append_holds accepted
  have kept := holds.reaches (Reaches.refl.append more)
  constructor
  · apply kept.join
    rwa [← last]
  · simp [next, last, Nat.add_assoc]

theorem Holds.read_part {segment : PostingsSegment} {base : Nat} {bytes : List UInt8}
    (holds : segment.Holds base bytes) (nonempty : bytes ≠ [])
    (readable : ∀ offset length, segment.device.reads offset length = true) {start length : Nat}
    (inside : start + length ≤ bytes.length) :
    segment.read (base + start) length = some ((bytes.drop start).take length) := by
  have reach := holds.data_length nonempty
  have bounded := segment.file.bounded
  have full : length - (segment.file.data.length - (base + start)) = 0 := by omega
  have part : (segment.file.data.drop (base + start)).take length =
      (bytes.drop start).take length := by
    have cut := congrArg (fun whole => (whole.drop start).take length) holds.stored
    simp only [List.drop_take, List.drop_drop, List.take_take] at cut
    rwa [Nat.min_eq_left (by omega)] at cut
  unfold PostingsSegment.read SegmentFile.readExactAt
  rw [if_pos (readable _ _), if_pos (by omega), part, full, List.replicate_zero, List.append_nil]

theorem Holds.read_inner {segment : PostingsSegment} {base : Nat} {before part after : List UInt8}
    (holds : segment.Holds base (before ++ part ++ after)) (nonempty : before ++ part ++ after ≠ [])
    (readable : ∀ offset length, segment.device.reads offset length = true) :
    segment.read (base + before.length) part.length = some part := by
  have inside : before.length + part.length ≤ (before ++ part ++ after).length := by simp
  have read := holds.read_part nonempty readable inside
  rwa [List.append_assoc, List.drop_left, List.take_left] at read

end PostingsSegment

def emptySegment : PostingsSegment where
  device := .reliable
  file := .empty
  nextOffset := 0
  extendedLen := 0
  appends := 0
  refused := 0
  offset_fits := by decide

def freshSegment (bytes : List UInt8) : PostingsSegment := (emptySegment.append bytes).2

theorem freshSegment_holds (bytes : List UInt8) (small : bytes.length < 2 ^ 63) :
    (freshSegment bytes).Holds 0 bytes ∧
      ∀ offset length, (freshSegment bytes).device.reads offset length = true := by
  have device : (freshSegment bytes).device = .reliable :=
    PostingsSegment.append_device emptySegment bytes
  have accepted : (emptySegment.append bytes).1 = some 0 := by
    refine PostingsSegment.append_accepted ?_ rfl
    rw [show emptySegment.nextOffset = 0 from rfl, Nat.zero_add]
    exact small
  exact ⟨(PostingsSegment.append_holds accepted).2.1, fun offset length => by rw [device]; rfl⟩

end Surch.Postings
