import Surch.Codec.BlockReads
import Surch.Codec.Flat

/-! The loops over the flat format against the one that decodes it whole. They read the same
varints in the same order and refuse the same deltas, so each is compared with `decodeDocIds`
and `readVarints` at the same place of the input. -/
namespace Surch.Codec
open Surch.Lib

theorem decodeDocIds_succ (count i previous : Nat) (input : List UInt8) :
    decodeDocIds (count + 1) i previous input =
      match readVarintU32 input with
      | .error e => .error e
      | .ok (delta, rest) =>
        if 0 < i ∧ delta = 0 then .error .notMonotonic
        else if previous + delta ≥ 2 ^ 32 then .error .notMonotonic
        else
          (decodeDocIds count (i + 1) (previous + delta) rest).map
            fun read => ((previous + delta) :: read.1, read.2) := by
  rw [decodeDocIds, reader_bind]
  cases readVarintU32 input with
  | error e => rfl
  | ok read =>
    simp only [gt_iff_lt]
    split
    · rfl
    split
    · rfl
    · rw [reader_bind]
      cases decodeDocIds count (i + 1) (previous + read.1) read.2 <;> rfl

theorem decodeDocIds_zero (i previous : Nat) (input : List UInt8) :
    decodeDocIds 0 i previous input = .ok ([], input) := rfl

theorem readVarints_zero (input : List UInt8) : readVarints 0 input = .ok ([], input) := rfl

theorem readVarints_succ (count : Nat) (input : List UInt8) :
    readVarints (count + 1) input =
      match readVarintU32 input with
      | .error e => .error e
      | .ok (value, rest) => (readVarints count rest).map fun read => (value :: read.1, read.2) := by
  rw [readVarints, reader_bind]
  cases readVarintU32 input with
  | error e => rfl
  | ok read =>
    simp only [reader_bind]
    cases readVarints count read.2 <;> rfl

theorem scanSlots_eq (count slot i : Nat) (scan : SlotScan) (input : List UInt8)
    (same : scan.started = decide (0 < i)) :
    scanSlots count slot scan input =
      (decodeDocIds count i scan.previous input).map fun read =>
        ({ previous := read.1.getLastD scan.previous
           started := scan.started || decide (0 < count)
           minDocId := if slot = 0 then read.1.headD scan.minDocId else scan.minDocId
           maxDocId := read.1.getLastD scan.maxDocId }, read.2) := by
  induction count generalizing slot i scan input with
  | zero =>
    cases scan
    change Except.ok (_, input) = Except.ok (_, input)
    simp
  | succ count ih =>
    rw [scanSlots, reader_bind, decodeDocIds_succ]
    cases readVarintU32 input with
    | error e => rfl
    | ok read =>
      obtain ⟨delta, rest⟩ := read
      simp only [same, decide_eq_true_eq]
      split
      · rfl
      split
      · rfl
      · rw [ih (slot + 1) (i + 1) _ rest (by simp)]
        simp only
        cases decodeDocIds count (i + 1) (scan.previous + delta) rest with
        | error e => rfl
        | ok read =>
          by_cases first : slot = 0 <;>
            simp [Except.map, first, List.getLast?_cons]

theorem decodeDocIds_length {count i previous : Nat} {input rest : List UInt8} {docIds : List Nat}
    (read : decodeDocIds count i previous input = .ok (docIds, rest)) : docIds.length = count := by
  induction count generalizing i previous input docIds with
  | zero =>
    cases read
    rfl
  | succ count ih =>
    rw [decodeDocIds_succ] at read
    split at read
    · cases read
    split at read
    · cases read
    split at read
    · cases read
    · obtain ⟨later, next, same⟩ := except_map_ok.mp read
      cases same
      simp [ih next]

theorem decodeDocIds_add (count more i previous : Nat) (input : List UInt8) :
    decodeDocIds (count + more) i previous input =
      match decodeDocIds count i previous input with
      | .error e => .error e
      | .ok (docIds, rest) =>
        (decodeDocIds more (i + count) (docIds.getLastD previous) rest).map
          fun read => (docIds ++ read.1, read.2) := by
  induction count generalizing i previous input with
  | zero =>
    simp only [Nat.zero_add, decodeDocIds_zero, Nat.add_zero, List.getLastD_nil, List.nil_append]
    cases decodeDocIds more i previous input <;> rfl
  | succ count ih =>
    rw [Nat.succ_add, decodeDocIds_succ, decodeDocIds_succ]
    cases readVarintU32 input with
    | error e => rfl
    | ok read =>
      obtain ⟨delta, rest⟩ := read
      simp only
      split
      · rfl
      split
      · rfl
      · rw [ih]
        cases decodeDocIds count (i + 1) (previous + delta) rest with
        | error e => rfl
        | ok read =>
          obtain ⟨docIds, rest⟩ := read
          have place : i + 1 + count = i + (count + 1) := by omega
          simp only [Except.map, place, List.getLastD_cons]
          cases decodeDocIds more (i + (count + 1)) (docIds.getLastD (previous + delta)) rest <;> rfl

theorem readVarints_add (count more : Nat) (input : List UInt8) :
    readVarints (count + more) input =
      match readVarints count input with
      | .error e => .error e
      | .ok (values, rest) =>
        (readVarints more rest).map fun read => (values ++ read.1, read.2) := by
  induction count generalizing input with
  | zero =>
    simp only [Nat.zero_add, readVarints_zero, List.nil_append]
    cases readVarints more input <;> rfl
  | succ count ih =>
    rw [Nat.succ_add, readVarints_succ, readVarints_succ]
    cases readVarintU32 input with
    | error e => rfl
    | ok read =>
      simp only [ih]
      cases readVarints count read.2 with
      | error e => rfl
      | ok values =>
        simp only [Except.map]
        cases readVarints more values.2 <;> rfl

theorem readVarints_of_decodeDocIds {count i previous : Nat} {input rest : List UInt8}
    {docIds : List Nat} (read : decodeDocIds count i previous input = .ok (docIds, rest)) :
    readVarints count input = .ok (docIdDeltas previous docIds, rest) := by
  induction count generalizing i previous input docIds with
  | zero =>
    cases read
    rfl
  | succ count ih =>
    rw [decodeDocIds_succ] at read
    rw [readVarints_succ]
    split at read
    · cases read
    · split at read
      · cases read
      split at read
      · cases read
      · obtain ⟨later, next, same⟩ := except_map_ok.mp read
        cases same
        simp [ih next, Except.map, docIdDeltas]

theorem scanMaxFreq_eq (count maxTermFreq : Nat) (input : List UInt8) :
    scanMaxFreq count maxTermFreq input =
      (readVarints count input).map fun read => (read.1.foldl max maxTermFreq, read.2) := by
  induction count generalizing maxTermFreq input with
  | zero => rfl
  | succ count ih =>
    rw [scanMaxFreq, reader_bind, readVarints_succ]
    cases readVarintU32 input with
    | error e => rfl
    | ok read =>
      simp only [ih]
      cases readVarints count read.2 <;> rfl

theorem leavesSuffix_varint : LeavesSuffix readVarintU32 := by
  have loop : ∀ (input : List UInt8) (result shift : Nat) (value : Nat) (rest : List UInt8),
      readVarintLoop input result shift = .ok (value, rest) → rest <:+ input := by
    intro input
    induction input with
    | nil => simp [readVarintLoop]
    | cons byte input ih =>
      intro result shift value rest accepted
      rw [readVarintLoop] at accepted
      simp only at accepted
      split at accepted
      · cases accepted
      split at accepted
      · cases accepted
      split at accepted
      · cases accepted
      split at accepted
      · cases accepted
        exact List.suffix_cons _ _
      · exact (ih _ _ _ _ accepted).trans (List.suffix_cons _ _)
  exact fun input value rest accepted => loop input 0 0 value rest accepted

theorem leavesSuffix_varints (count : Nat) : LeavesSuffix (readVarints count) := by
  induction count with
  | zero => exact .pure _
  | succ count ih => exact leavesSuffix_varint.bind fun _ => ih.bind fun _ => .pure _

section Blocks

theorem scanBlocks_step (total blockIndex previous : Nat) (started : Bool) (input : List UInt8)
    {remaining : Nat} (more : remaining ≠ 0) :
    scanBlocks total remaining blockIndex previous started input =
      match scanSlots (min remaining forBlockSize) 0
          { previous, started, minDocId := 0, maxDocId := 0 } input with
      | .error e => .error e
      | .ok (scan, rest) =>
        (scanBlocks total (remaining - min remaining forBlockSize) (blockIndex + 1) scan.previous
            scan.started rest).map fun read =>
          ({ blockIndex
             postingCount := min remaining forBlockSize
             minDocId := scan.minDocId
             maxDocId := scan.maxDocId
             maxTermFreq := 0
             docIdsByteStart := total - input.length
             docIdsByteEnd := total - rest.length
             freqsByteStart := 0
             freqsByteEnd := 0 } :: read.1, read.2) := by
  rw [scanBlocks, if_neg more]
  simp only [reader_bind, bytePosition]
  cases scanSlots (min remaining forBlockSize) 0
      { previous, started, minDocId := 0, maxDocId := 0 } input with
  | error e => rfl
  | ok read =>
    obtain ⟨scan, rest⟩ := read
    simp only
    cases scanBlocks total (remaining - min remaining forBlockSize) (blockIndex + 1) scan.previous
      scan.started rest <;> rfl

theorem scanBlocks_done (total blockIndex previous : Nat) (started : Bool) (input : List UInt8) :
    scanBlocks total 0 blockIndex previous started input = .ok ([], input) := by
  rw [scanBlocks]
  rfl

theorem scanBlocks_error {total remaining i blockIndex previous : Nat} {started : Bool}
    {input : List UInt8} {e : PostingsBlockError} (same : started = decide (0 < i))
    (refused : decodeDocIds remaining i previous input = .error e) :
    scanBlocks total remaining blockIndex previous started input = .error e := by
  induction remaining using Nat.strongRecOn generalizing i blockIndex previous started input with
  | ind remaining ih =>
    by_cases done : remaining = 0
    · subst done
      cases refused
    · have count_pos : 0 < min remaining forBlockSize := by
        unfold forBlockSize
        omega
      obtain ⟨later, split⟩ : ∃ later, remaining = min remaining forBlockSize + later :=
        ⟨remaining - min remaining forBlockSize, by omega⟩
      rw [scanBlocks_step _ _ _ _ _ done, scanSlots_eq _ _ i _ _ same]
      rw [split, decodeDocIds_add] at refused
      have rest_count : remaining - min remaining forBlockSize = later := by omega
      rw [rest_count]
      cases slots : decodeDocIds (min remaining forBlockSize) i previous input with
      | error e' =>
        rw [slots] at refused
        cases refused
        rfl
      | ok read =>
        obtain ⟨docIds, tail⟩ := read
        simp only [slots] at refused
        have refused' : decodeDocIds later (i + min remaining forBlockSize)
            (docIds.getLastD previous) tail = .error e := by
          cases inner : decodeDocIds later (i + min remaining forBlockSize)
              (docIds.getLastD previous) tail with
          | error e' =>
            rw [inner] at refused
            cases refused
            rfl
          | ok read =>
            rw [inner] at refused
            cases refused
        have next : scanBlocks total later (blockIndex + 1) (docIds.getLastD previous)
            (started || decide (0 < min remaining forBlockSize)) tail = .error e :=
          ih later (by omega) (by simp [count_pos]) refused'
        simp only [Except.map, next]

def PostingsBlockMeta.docIdsBytes (block : PostingsBlockMeta) : Nat :=
  block.docIdsByteEnd - block.docIdsByteStart

def PostingsBlockMeta.freqsBytes (block : PostingsBlockMeta) : Nat :=
  block.freqsByteEnd - block.freqsByteStart

theorem docIdDeltas_append (previous : Nat) (docIds more : List Nat) :
    docIdDeltas previous (docIds ++ more) =
      docIdDeltas previous docIds ++ docIdDeltas (docIds.getLastD previous) more := by
  induction docIds generalizing previous with
  | nil => rfl
  | cons docId docIds ih => simp [docIdDeltas, ih, List.getLast?_cons]

@[simp] theorem docIdDeltas_length (previous : Nat) (docIds : List Nat) :
    (docIdDeltas previous docIds).length = docIds.length := by
  induction docIds generalizing previous with
  | nil => rfl
  | cons docId docIds ih => simp [docIdDeltas, ih]

theorem drop_of_suffix {bytes rest : List UInt8} (inside : rest <:+ bytes) :
    bytes.drop (bytes.length - rest.length) = rest :=
  (List.suffix_iff_eq_drop.mp inside).symm

/- The doc-id side of the metadata, against the pieces of the decoded identifiers. -/
structure DescribesDocIds (bytes : List UInt8) (blockIndex previous first last : Nat)
    (docIds : List Nat) (blocks : List PostingsBlockMeta) : Prop where
  values : blocks.map (fun block =>
      (block.blockIndex, block.postingCount, block.minDocId, block.maxDocId)) =
    (chunks forBlockSize docIds).mapIdx fun index chunk =>
      (blockIndex + index, chunk.length, chunk.headD 0, chunk.getLastD 0)
  ranges : Tiles PostingsBlockMeta.docIdsByteStart PostingsBlockMeta.docIdsBytes first last blocks
  bytes_read : List.Forall₂
    (fun block deltas => readVarints deltas.length (bytes.drop block.docIdsByteStart) =
      .ok (deltas, bytes.drop block.docIdsByteEnd))
    blocks (chunks forBlockSize (docIdDeltas previous docIds))

def docIdsBlock (total blockIndex : Nat) (chunk : List Nat) (input tail : List UInt8) :
    PostingsBlockMeta where
  blockIndex := blockIndex
  postingCount := chunk.length
  minDocId := chunk.headD 0
  maxDocId := chunk.getLastD 0
  maxTermFreq := 0
  docIdsByteStart := total - input.length
  docIdsByteEnd := total - tail.length
  freqsByteStart := 0
  freqsByteEnd := 0

theorem DescribesDocIds.cons {bytes input tail : List UInt8} {blockIndex previous last : Nat}
    {chunk others : List Nat} {blocks : List PostingsBlockMeta}
    (described : DescribesDocIds bytes (blockIndex + 1) (chunk.getLastD previous)
      (bytes.length - tail.length) last others blocks)
    (varints : readVarints chunk.length input = .ok (docIdDeltas previous chunk, tail))
    (left : tail <:+ input) (inside : input <:+ bytes) (nonempty : chunk ≠ [])
    (fits : chunk.length = forBlockSize ∨ chunk.length ≤ forBlockSize ∧ others = []) :
    DescribesDocIds bytes blockIndex previous (bytes.length - input.length) last (chunk ++ others)
      (docIdsBlock bytes.length blockIndex chunk input tail :: blocks) := by
  have shorter := left.length_le
  have short := inside.length_le
  have nonempty' : docIdDeltas previous chunk ≠ [] := by
    rw [← List.length_pos_iff, docIdDeltas_length, List.length_pos_iff]
    exact nonempty
  have fits' : (docIdDeltas previous chunk).length = forBlockSize ∨
      (docIdDeltas previous chunk).length ≤ forBlockSize ∧
        docIdDeltas (chunk.getLastD previous) others = [] := by
    rcases fits with full | ⟨short, rfl⟩
    · exact .inl (by simpa using full)
    · exact .inr ⟨by simpa using short, rfl⟩
  constructor
  · rw [chunks_append forBlockSize_pos nonempty fits, List.map_cons, List.mapIdx_cons,
      described.values]
    simp [docIdsBlock, Nat.add_assoc, Nat.add_comm 1]
  · refine ⟨rfl, ?_⟩
    have reach : bytes.length - input.length +
        (docIdsBlock bytes.length blockIndex chunk input tail).docIdsBytes =
          bytes.length - tail.length := by
      simp only [PostingsBlockMeta.docIdsBytes, docIdsBlock]
      omega
    rw [reach]
    exact described.ranges
  · rw [docIdDeltas_append, chunks_append forBlockSize_pos nonempty' fits']
    refine .cons ?_ described.bytes_read
    simpa [docIdsBlock, drop_of_suffix inside, drop_of_suffix (left.trans inside)] using varints

/-- Where the decoding loop succeeds the block loop does, and describes what was decoded. -/
theorem scanBlocks_ok {bytes : List UInt8} {remaining i blockIndex previous : Nat} {started : Bool}
    {input rest : List UInt8} {docIds : List Nat} (same : started = decide (0 < i))
    (read : decodeDocIds remaining i previous input = .ok (docIds, rest))
    (inside : input <:+ bytes) :
    ∃ blocks, scanBlocks bytes.length remaining blockIndex previous started input =
        .ok (blocks, rest) ∧
      rest <:+ input ∧
      DescribesDocIds bytes blockIndex previous (bytes.length - input.length)
        (bytes.length - rest.length) docIds blocks := by
  induction remaining using Nat.strongRecOn
    generalizing i blockIndex previous started input docIds with
  | ind remaining ih =>
    by_cases done : remaining = 0
    · subst done
      cases read
      exact ⟨[], scanBlocks_done _ _ _ _ _, List.suffix_rfl, by simp, rfl, by simp [docIdDeltas]⟩
    · have count_pos : 0 < min remaining forBlockSize := by
        unfold forBlockSize
        omega
      obtain ⟨later, split⟩ : ∃ later, remaining = min remaining forBlockSize + later :=
        ⟨remaining - min remaining forBlockSize, by omega⟩
      have rest_count : remaining - min remaining forBlockSize = later := by omega
      rw [split, decodeDocIds_add] at read
      cases slots : decodeDocIds (min remaining forBlockSize) i previous input with
      | error e =>
        rw [slots] at read
        cases read
      | ok piece =>
        obtain ⟨chunk, tail⟩ := piece
        simp only [slots] at read
        obtain ⟨⟨others, rest'⟩, further, whole⟩ := except_map_ok.mp read
        obtain ⟨rfl, rfl⟩ := Prod.mk.inj whole
        have shape := decodeDocIds_length slots
        have shape' := decodeDocIds_length further
        have varints := readVarints_of_decodeDocIds slots
        have left := leavesSuffix_varints _ _ _ _ varints
        obtain ⟨blocks, scanned, left', described⟩ :=
          @ih later (by omega) (i + min remaining forBlockSize) (blockIndex + 1)
            (chunk.getLastD previous) (started || decide (0 < min remaining forBlockSize)) tail others
            (by simp [count_pos]) further (left.trans inside)
        have nonempty : chunk ≠ [] := by
          rw [← List.length_pos_iff, shape]
          exact count_pos
        have fits : chunk.length = forBlockSize ∨ chunk.length ≤ forBlockSize ∧ others = [] := by
          rw [← List.length_eq_zero_iff]
          omega
        refine ⟨docIdsBlock bytes.length blockIndex chunk input tail :: blocks, ?_,
          left'.trans left, described.cons (by rw [shape]; exact varints) left inside nonempty fits⟩
        rw [scanBlocks_step _ _ _ _ _ done, scanSlots_eq _ _ i _ _ same, rest_count, slots]
        simp only [← shape] at scanned ⊢
        simp only [Except.map, scanned, if_true]
        rfl

theorem scanFreqs_step (total : Nat) (block : PostingsBlockMeta) (blocks : List PostingsBlockMeta)
    (input : List UInt8) :
    scanFreqs total (block :: blocks) input =
      match readVarints block.postingCount input with
      | .error e => .error e
      | .ok (freqs, rest) =>
        (scanFreqs total blocks rest).map fun read =>
          ({ block with
             freqsByteStart := total - input.length
             maxTermFreq := freqs.foldl max 0
             freqsByteEnd := total - rest.length } :: read.1, read.2) := by
  rw [scanFreqs]
  simp only [reader_bind, bytePosition, scanMaxFreq_eq]
  cases readVarints block.postingCount input with
  | error e => rfl
  | ok read =>
    simp only [Except.map]
    cases scanFreqs total blocks read.2 <;> rfl

theorem scanFreqs_error {total : Nat} {blocks : List PostingsBlockMeta} {input : List UInt8}
    {e : PostingsBlockError}
    (refused : readVarints (blocks.map PostingsBlockMeta.postingCount).sum input = .error e) :
    scanFreqs total blocks input = .error e := by
  induction blocks generalizing input with
  | nil => cases refused
  | cons block blocks ih =>
    rw [List.map_cons, List.sum_cons, readVarints_add] at refused
    rw [scanFreqs_step]
    cases here : readVarints block.postingCount input with
    | error e' =>
      rw [here] at refused
      cases refused
      rfl
    | ok read =>
      obtain ⟨freqs, tail⟩ := read
      simp only [here] at refused
      cases later : readVarints (blocks.map PostingsBlockMeta.postingCount).sum tail with
      | error e' =>
        rw [later] at refused
        cases refused
        simp only [ih later, Except.map]
      | ok read =>
        rw [later] at refused
        cases refused

def PostingsBlockMeta.docIdSide (block : PostingsBlockMeta) : PostingsBlockMeta :=
  { block with maxTermFreq := 0, freqsByteStart := 0, freqsByteEnd := 0 }

/- The frequency side of the metadata, against the pieces of the decoded frequencies. -/
structure DescribesFreqs (bytes : List UInt8) (first last : Nat) (pieces : List (List Nat))
    (blocks : List PostingsBlockMeta) : Prop where
  values : blocks.map PostingsBlockMeta.maxTermFreq = pieces.map fun piece => piece.foldl max 0
  ranges : Tiles PostingsBlockMeta.freqsByteStart PostingsBlockMeta.freqsBytes first last blocks
  bytes_read : List.Forall₂
    (fun block piece => readVarints piece.length (bytes.drop block.freqsByteStart) =
      .ok (piece, bytes.drop block.freqsByteEnd))
    blocks pieces

/-- Where the frequencies are read, the loop describes them and leaves the doc-id side. -/
theorem scanFreqs_ok {bytes : List UInt8} {blocks : List PostingsBlockMeta}
    {pieces : List (List Nat)} {input rest : List UInt8}
    (counts : blocks.map PostingsBlockMeta.postingCount = pieces.map List.length)
    (read : readVarints pieces.flatten.length input = .ok (pieces.flatten, rest))
    (inside : input <:+ bytes) :
    ∃ described, scanFreqs bytes.length blocks input = .ok (described, rest) ∧
      described.map PostingsBlockMeta.docIdSide = blocks.map PostingsBlockMeta.docIdSide ∧
      DescribesFreqs bytes (bytes.length - input.length) (bytes.length - rest.length) pieces
        described := by
  induction pieces generalizing blocks input with
  | nil =>
    cases blocks with
    | cons block blocks => cases counts
    | nil =>
      cases read
      exact ⟨[], rfl, rfl, rfl, rfl, .nil⟩
  | cons piece pieces ih =>
    cases blocks with
    | nil => cases counts
    | cons block blocks =>
      obtain ⟨count, counts'⟩ := List.cons.inj counts
      rw [List.flatten_cons, List.length_append, readVarints_add] at read
      cases here : readVarints piece.length input with
      | error e =>
        rw [here] at read
        cases read
      | ok first =>
        obtain ⟨values, tail⟩ := first
        rw [here] at read
        obtain ⟨⟨others, rest'⟩, later, whole⟩ := except_map_ok.mp read
        obtain ⟨joined, rfl⟩ := Prod.mk.inj whole
        obtain ⟨rfl, rfl⟩ := List.append_inj joined (yields_varints _ _ _ _ here)
        have left := leavesSuffix_varints _ _ _ _ here
        obtain ⟨described, scanned, kept, rest_described⟩ := ih counts' later (left.trans inside)
        have shorter := left.length_le
        have short := inside.length_le
        refine ⟨{ block with
          freqsByteStart := bytes.length - input.length
          maxTermFreq := values.foldl max 0
          freqsByteEnd := bytes.length - tail.length } :: described, ?_, ?_, ?_, ?_, ?_⟩
        · rw [scanFreqs_step, count, here]
          simp only [Except.map, scanned]
        · rw [List.map_cons, List.map_cons, kept]
          rfl
        · rw [List.map_cons, List.map_cons, rest_described.values]
        · refine ⟨rfl, ?_⟩
          have reach : bytes.length - input.length +
              (bytes.length - tail.length - (bytes.length - input.length)) =
                bytes.length - tail.length := by omega
          simp only [PostingsBlockMeta.freqsBytes, reach]
          exact rest_described.ranges
        · refine .cons ?_ rest_described.bytes_read
          simp only [drop_of_suffix inside, drop_of_suffix (left.trans inside)]
          exact here

end Blocks

namespace DocIdDeltaCursor

theorem nexts_of_decodeDocIds {i : Nat} {cursor : DocIdDeltaCursor} {docIds : List Nat}
    {rest : List UInt8} (same : cursor.started = decide (0 < i))
    (read : decodeDocIds cursor.remaining i cursor.previous cursor.bytes = .ok (docIds, rest)) :
    ∃ last, cursor.nexts docIds.length = .ok (docIds.map some, last) ∧ last.remaining = 0 := by
  obtain ⟨bytes, remaining, previous, started⟩ := cursor
  induction remaining generalizing i bytes previous started docIds with
  | zero =>
    cases read
    exact ⟨_, rfl, rfl⟩
  | succ remaining ih =>
    rw [decodeDocIds_succ] at read
    cases varint : readVarintU32 bytes with
    | error e =>
      rw [varint] at read
      cases read
    | ok first =>
      obtain ⟨delta, tail⟩ := first
      simp only [varint] at read
      split at read
      · cases read
      rename_i positive
      split at read
      · cases read
      rename_i fits
      obtain ⟨⟨later, rest'⟩, further, whole⟩ := except_map_ok.mp read
      obtain ⟨rfl, rfl⟩ := Prod.mk.inj whole
      have started_iff : decide (0 < i + 1) = true := by simp
      obtain ⟨last, handed, done⟩ := ih tail (previous + delta) true started_iff.symm further
      refine ⟨last, ?_, done⟩
      have stepped : DocIdDeltaCursor.next ⟨bytes, remaining + 1, previous, started⟩ =
          .ok (some (previous + delta), ⟨tail, remaining, previous + delta, true⟩) := by
        simp only at same
        simp only [DocIdDeltaCursor.next, varint, same, decide_eq_true_eq, Nat.succ_ne_zero,
          if_false, bind, Except.bind, if_neg positive, if_neg fits, pure, Except.pure,
          Nat.add_sub_cancel]
      simp only [List.length_cons, nexts, stepped, bind, Except.bind, handed, pure, Except.pure,
        List.map_cons]

theorem next_of_done {cursor : DocIdDeltaCursor} (done : cursor.remaining = 0) :
    cursor.next = .ok (none, cursor) := if_pos done

end DocIdDeltaCursor

section RoundTrip

theorem reads_deltas {docIds : List Nat} {previous : Nat} (i : Nat)
    (ordered : ∀ docId ∈ docIds.head?, previous ≤ docId ∧ (0 < i → previous < docId))
    (increasing : docIds.IsChain (· < ·)) (fits : ∀ docId ∈ docIds, docId < 2 ^ 32) :
    Reads (decodeDocIds docIds.length i previous)
      ((docIdDeltas previous docIds).flatMap writeVarintU32) docIds := by
  induction docIds generalizing previous i with
  | nil => exact .pure _
  | cons docId docIds ih =>
    intro rest
    obtain ⟨least, strictly⟩ := ordered docId rfl
    have bound := fits docId List.mem_cons_self
    have delta_fits : docId - previous < 2 ^ 32 := by omega
    have reads := reads_varint _ delta_fits
      ((docIdDeltas docId docIds).flatMap writeVarintU32 ++ rest)
    have proper : ¬ (0 < i ∧ docId - previous = 0) := by omega
    have whole : previous + (docId - previous) = docId := by omega
    have small : ¬ docId ≥ 2 ^ 32 := by omega
    have next : ∀ other ∈ docIds.head?, docId ≤ other ∧ (0 < i + 1 → docId < other) := by
      intro other first
      have less : docId < other := by
        cases docIds with
        | nil => cases first
        | cons second docIds =>
          cases first
          exact (List.isChain_cons_cons.mp increasing).1
      exact ⟨less.le, fun _ => less⟩
    have later := ih (i + 1) next increasing.tail
      (fun other member => fits other (List.mem_cons_of_mem _ member)) rest
    rw [docIdDeltas, List.flatMap_cons, List.append_assoc, List.length_cons, decodeDocIds_succ,
      reads]
    simp only [if_neg proper, whole, if_neg small, later, Except.map]

end RoundTrip

section Readers

theorem decodePostingsDocIdFreq_eq (bytes : List UInt8) :
    decodePostingsDocIdFreq bytes =
      match readVarintU32 bytes with
      | .error e => .error e
      | .ok (length, body) =>
        match decodeDocIds length 0 0 body with
        | .error e => .error e
        | .ok (docIds, tail) => (readVarints length tail).map fun read => (docIds, read.1) := by
  simp only [decodePostingsDocIdFreq, reader_bind]
  cases readVarintU32 bytes with
  | error e => rfl
  | ok header =>
    simp only
    cases decodeDocIds header.1 0 0 header.2 with
    | error e => rfl
    | ok read =>
      simp only
      cases readVarints header.1 read.2 <;> rfl

theorem inspectPostingsBlocks_eq (bytes : List UInt8) :
    inspectPostingsBlocks bytes =
      match readVarintU32 bytes with
      | .error e => .error e
      | .ok (length, body) =>
        match scanBlocks bytes.length length 0 0 false body with
        | .error e => .error e
        | .ok (blocks, tail) => (scanFreqs bytes.length blocks tail).map Prod.fst := by
  simp only [inspectPostingsBlocks, reader_bind]
  cases readVarintU32 bytes with
  | error e => rfl
  | ok header =>
    obtain ⟨length, body⟩ := header
    by_cases empty : length = 0
    · subst empty
      simp only [scanBlocks_done]
      rfl
    · simp only [if_neg empty, reader_bind]
      cases scanBlocks bytes.length length 0 0 false body <;> rfl

theorem decode_encodePostingsDocIdFreq {docIds freqs : List Nat}
    (aligned : freqs.length = docIds.length) (few : docIds.length < 2 ^ 32)
    (increasing : docIds.IsChain (· < ·)) (fits : ∀ docId ∈ docIds, docId < 2 ^ 32)
    (freqs_fit : ∀ freq ∈ freqs, freq < 2 ^ 32) :
    encodePostingsDocIdFreq docIds freqs >>= decodePostingsDocIdFreq = .ok (docIds, freqs) := by
  have header := reads_varint docIds.length few
  have deltas := @reads_deltas docIds 0 0 (by simp) increasing fits
  have others := (reads_varints freqs freqs_fit).exact
  have encoded : encodePostingsDocIdFreq docIds freqs = .ok (writeVarintU32 docIds.length ++
      ((docIdDeltas 0 docIds).flatMap writeVarintU32 ++ freqs.flatMap writeVarintU32)) := by
    simp only [encodePostingsDocIdFreq, aligned, ne_eq, not_true_eq_false, if_false,
      (validate_ok_iff docIds).mpr increasing, Nat.mod_eq_of_lt few]
    rfl
  rw [encoded]
  simp only [bind, Except.bind, decodePostingsDocIdFreq_eq, header _, deltas _]
  rw [← aligned, others]
  rfl

/- The metadata of a payload, against what the payload decodes to: the pieces of 128 postings, and
byte ranges that follow one another, first those of the identifiers. -/
structure Inspected (bytes : List UInt8) (docIds freqs : List Nat)
    (blocks : List PostingsBlockMeta) (first middle last : Nat) : Prop where
  header : readVarintU32 bytes = .ok (docIds.length, bytes.drop first)
  docIds : DescribesDocIds bytes 0 0 first middle docIds blocks
  freqs : DescribesFreqs bytes middle last (chunks forBlockSize freqs) blocks

theorem DescribesDocIds.of_docIdSide {bytes : List UInt8} {blockIndex previous first last : Nat}
    {docIds : List Nat} {blocks described : List PostingsBlockMeta}
    (same : described.map PostingsBlockMeta.docIdSide = blocks.map PostingsBlockMeta.docIdSide)
    (describes : DescribesDocIds bytes blockIndex previous first last docIds blocks) :
    DescribesDocIds bytes blockIndex previous first last docIds described := by
  have transport : ∀ blocks : List PostingsBlockMeta,
      DescribesDocIds bytes blockIndex previous first last docIds
        (blocks.map PostingsBlockMeta.docIdSide) ↔
      DescribesDocIds bytes blockIndex previous first last docIds blocks := by
    intro blocks
    constructor
    · rintro ⟨values, ranges, bytes_read⟩
      exact ⟨by simpa [Function.comp_def, PostingsBlockMeta.docIdSide] using values,
        (tiles_map PostingsBlockMeta.docIdSide).mp ranges, List.forall₂_map_left_iff.mp bytes_read⟩
    · rintro ⟨values, ranges, bytes_read⟩
      exact ⟨by simpa [Function.comp_def, PostingsBlockMeta.docIdSide] using values,
        (tiles_map PostingsBlockMeta.docIdSide).mpr ranges, List.forall₂_map_left_iff.mpr bytes_read⟩
  exact (transport described).mp (same ▸ (transport blocks).mpr describes)

theorem DescribesDocIds.postingCounts {bytes : List UInt8} {blockIndex previous first last : Nat}
    {docIds : List Nat} {blocks : List PostingsBlockMeta}
    (describes : DescribesDocIds bytes blockIndex previous first last docIds blocks) :
    blocks.map PostingsBlockMeta.postingCount = (chunks forBlockSize docIds).map List.length := by
  have counts := congrArg (List.map fun value => value.2.1) describes.values
  rw [List.map_map, List.mapIdx_eq_zipIdx_map, List.map_map] at counts
  have forget : ∀ (pieces : List (List Nat)) (start : Nat),
      (pieces.zipIdx start).map (fun indexed => indexed.1.length) = pieces.map List.length := by
    intro pieces
    induction pieces with
    | nil => simp
    | cons piece pieces ih => simp [ih]
  exact counts.trans (forget _ 0)

theorem scanBlocks_of_decodeDocIds {bytes body tail : List UInt8} {length : Nat} {docIds : List Nat}
    (header : readVarintU32 bytes = .ok (length, body))
    (channel : decodeDocIds length 0 0 body = .ok (docIds, tail)) :
    ∃ blocks, scanBlocks bytes.length length 0 0 false body = .ok (blocks, tail) ∧
      tail <:+ bytes ∧
      DescribesDocIds bytes 0 0 (bytes.length - body.length) (bytes.length - tail.length) docIds
        blocks := by
  have inside := leavesSuffix_varint _ _ _ header
  obtain ⟨blocks, scanned, left, describes⟩ := @scanBlocks_ok bytes length 0 0 0 false body tail
    docIds rfl channel inside
  exact ⟨blocks, scanned, left.trans inside, describes⟩

/-- Whatever refuses a payload for the one reader refuses it for the other. -/
theorem inspect_of_decode_error {bytes : List UInt8} {e : PostingsBlockError}
    (refused : decodePostingsDocIdFreq bytes = .error e) :
    inspectPostingsBlocks bytes = .error e := by
  rw [decodePostingsDocIdFreq_eq] at refused
  rw [inspectPostingsBlocks_eq]
  cases header : readVarintU32 bytes with
  | error e' =>
    rw [header] at refused
    cases refused
    rfl
  | ok read =>
    obtain ⟨length, body⟩ := read
    simp only [header] at refused
    cases channel : decodeDocIds length 0 0 body with
    | error e' =>
      rw [channel] at refused
      cases refused
      simp [@scanBlocks_error bytes.length length 0 0 0 false body e rfl channel]
    | ok read =>
      obtain ⟨docIds, tail⟩ := read
      simp only [channel] at refused
      obtain ⟨blocks, scanned, -, describes⟩ := scanBlocks_of_decodeDocIds header channel
      have count : (blocks.map PostingsBlockMeta.postingCount).sum = length := by
        rw [describes.postingCounts, ← List.length_flatten, chunks_flatten forBlockSize_pos,
          decodeDocIds_length channel]
      have refused' : readVarints (blocks.map PostingsBlockMeta.postingCount).sum tail =
          .error e := by
        rw [count]
        cases freqs : readVarints length tail with
        | error e' =>
          rw [freqs] at refused
          cases refused
          rfl
        | ok read =>
          rw [freqs] at refused
          cases refused
      simp [scanned, scanFreqs_error refused', Except.map]

theorem inspect_of_decode_ok {bytes : List UInt8} {docIds freqs : List Nat}
    (decoded : decodePostingsDocIdFreq bytes = .ok (docIds, freqs)) :
    ∃ blocks first middle last, inspectPostingsBlocks bytes = .ok blocks ∧
      Inspected bytes docIds freqs blocks first middle last := by
  rw [decodePostingsDocIdFreq_eq] at decoded
  cases header : readVarintU32 bytes with
  | error e =>
    rw [header] at decoded
    cases decoded
  | ok read =>
    obtain ⟨length, body⟩ := read
    simp only [header] at decoded
    cases channel : decodeDocIds length 0 0 body with
    | error e =>
      rw [channel] at decoded
      cases decoded
    | ok read =>
      obtain ⟨docIds', tail⟩ := read
      simp only [channel] at decoded
      obtain ⟨⟨freqs', rest⟩, freqs_read, whole⟩ := except_map_ok.mp decoded
      obtain ⟨rfl, rfl⟩ := Prod.mk.inj whole
      obtain ⟨blocks, scanned, inside, describes⟩ := scanBlocks_of_decodeDocIds header channel
      have shape := decodeDocIds_length channel
      have shape' : freqs'.length = length := yields_varints _ _ _ _ freqs_read
      have counts : blocks.map PostingsBlockMeta.postingCount =
          (chunks forBlockSize freqs').map List.length := by
        rw [describes.postingCounts]
        exact chunks_map_length forBlockSize_pos (shape.trans shape'.symm)
      have whole_channel : readVarints (chunks forBlockSize freqs').flatten.length tail =
          .ok ((chunks forBlockSize freqs').flatten, rest) := by
        rw [chunks_flatten forBlockSize_pos, shape']
        exact freqs_read
      obtain ⟨described, read_back, kept, describes_freqs⟩ :=
        scanFreqs_ok counts whole_channel inside
      refine ⟨described, bytes.length - body.length, bytes.length - tail.length,
        bytes.length - rest.length, ?_, ?_, describes.of_docIdSide kept, describes_freqs⟩
      · simp [inspectPostingsBlocks_eq, header, scanned, read_back, Except.map]
      · rw [header, drop_of_suffix (leavesSuffix_varint _ _ _ header), shape]

/-- The cursor walks the identifiers of a payload that decodes. -/
theorem cursor_of_decode_ok {bytes : List UInt8} {docIds freqs : List Nat}
    (decoded : decodePostingsDocIdFreq bytes = .ok (docIds, freqs)) :
    ∃ cursor last, DocIdDeltaCursor.new bytes = .ok cursor ∧
      cursor.nexts docIds.length = .ok (docIds.map some, last) ∧ last.next = .ok (none, last) := by
  rw [decodePostingsDocIdFreq_eq] at decoded
  cases header : readVarintU32 bytes with
  | error e =>
    rw [header] at decoded
    cases decoded
  | ok read =>
    obtain ⟨length, body⟩ := read
    simp only [header] at decoded
    cases channel : decodeDocIds length 0 0 body with
    | error e =>
      rw [channel] at decoded
      cases decoded
    | ok read =>
      obtain ⟨docIds', tail⟩ := read
      simp only [channel] at decoded
      obtain ⟨⟨freqs', rest⟩, -, whole⟩ := except_map_ok.mp decoded
      obtain ⟨rfl, rfl⟩ := Prod.mk.inj whole
      have opened : DocIdDeltaCursor.new bytes = .ok ⟨body, length, 0, false⟩ := by
        simp only [DocIdDeltaCursor.new, header, bind, Except.bind, pure, Except.pure]
      obtain ⟨last, handed, done⟩ := @DocIdDeltaCursor.nexts_of_decodeDocIds 0
        ⟨body, length, 0, false⟩ docIds' tail rfl channel
      exact ⟨_, last, opened, handed, DocIdDeltaCursor.next_of_done done⟩

end Readers

/-- Three loops of their own over the same bytes refuse the same inputs with the same error, and
agree on what the others hold; what is encoded is read back. -/
theorem flat_readers_agree :
    (∀ bytes e, decodePostingsDocIdFreq bytes = .error e ↔ inspectPostingsBlocks bytes = .error e) ∧
    (∀ bytes docIds freqs, decodePostingsDocIdFreq bytes = .ok (docIds, freqs) →
      (∃ blocks first middle last, inspectPostingsBlocks bytes = .ok blocks ∧
        Inspected bytes docIds freqs blocks first middle last) ∧
      ∃ cursor last, DocIdDeltaCursor.new bytes = .ok cursor ∧
        cursor.nexts docIds.length = .ok (docIds.map some, last) ∧
        last.next = .ok (none, last)) ∧
    ∀ docIds freqs : List Nat, docIds.IsChain (· < ·) → docIds.length < 2 ^ 32 →
      freqs.length = docIds.length → (∀ docId ∈ docIds, docId < 2 ^ 32) →
      (∀ freq ∈ freqs, freq < 2 ^ 32) →
      encodePostingsDocIdFreq docIds freqs >>= decodePostingsDocIdFreq = .ok (docIds, freqs) := by
  constructor
  · intro bytes e
    constructor
    · exact inspect_of_decode_error
    · intro refused
      cases decoded : decodePostingsDocIdFreq bytes with
      | error e' =>
        rw [inspect_of_decode_error decoded] at refused
        cases refused
        rfl
      | ok read =>
        obtain ⟨blocks, -, -, -, accepted, -⟩ := inspect_of_decode_ok decoded
        rw [accepted] at refused
        cases refused
  constructor
  · intro bytes docIds freqs decoded
    exact ⟨inspect_of_decode_ok decoded, cursor_of_decode_ok decoded⟩
  · intro docIds freqs increasing few aligned fits freqs_fit
    exact decode_encodePostingsDocIdFreq aligned few increasing fits freqs_fit

end Surch.Codec
