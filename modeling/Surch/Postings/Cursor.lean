import Surch.Codec.Directory
import Surch.Codec.SkipList
import Surch.Postings.Segment

/-! The two cursors over a term's postings. `PostingsBlockSkipIter` walks the resident
identifiers with a skip list; `DiskPostingsCursor` reads one block at a time through a
directory. Both are driven by ascending targets. -/
namespace Surch.Postings
open Surch.Lib Surch.Codec

def blockSize : Nat := forBlockSize

/-- The reference walk: consume entries up to and including the first one that reaches the
target. -/
def linearWalk : List (Nat × Nat) → Nat → Option (Nat × Nat) × List (Nat × Nat)
  | [], _ => (none, [])
  | entry :: rest, target => if entry.1 ≥ target then (some entry, rest) else linearWalk rest target

def gallopDoublings (rest : List Nat) (target doublings : Nat) : Nat :=
  match found : rest[2 ^ doublings]? with
  | some docId =>
    if docId < target then gallopDoublings rest target (doublings + 1) else doublings
  | none => doublings
termination_by rest.length - 2 ^ doublings
decreasing_by
  have inside := (List.getElem?_eq_some_iff.mp found).1
  have := Nat.two_pow_pos doublings
  rw [Nat.pow_succ]
  omega

def partitionPoint (slice : List Nat) (target : Nat) : Nat :=
  slice.findIdx fun docId => target ≤ docId

/- The gallop both cursors share: an exponential bound, then the partition point below it. -/
def gallopOffset (rest : List Nat) (target : Nat) : Nat :=
  let hi := 2 ^ gallopDoublings rest target 0
  let lo := hi >>> 1
  let hi := min hi rest.length
  lo + partitionPoint ((rest.take hi).drop lo) target

structure PostingsBlockSkipIter where
  docIds : List Nat
  skipList : BlockSkipList
  cursorPosition : Nat
  position : Nat
  blocksSkipped : Nat

def blockSkipEntries (docIds : List Nat) : List BlockSkipEntry :=
  (chunks blockSize docIds).mapIdx fun index chunk =>
    { blockIndex := index, minDocId := chunk.headD 0, maxDocId := chunk.getLastD 0 }

def blockSkipList (docIds : List Nat) : Except PostingsBlockError (Option BlockSkipList) :=
  if docIds = [] then .ok none
  else (BlockSkipList.fromBlockRanges (blockSkipEntries docIds)).map some

def skipIter (docIds : List Nat) : Except PostingsBlockError (Option PostingsBlockSkipIter) :=
  (blockSkipList docIds).map fun skipList => skipList.map fun skipList =>
    { docIds, skipList, cursorPosition := 0, position := 0, blocksSkipped := 0 }

namespace PostingsBlockSkipIter

/- The skip-list branch. Nothing is stored when every block lies below the target. -/
def leapfrog (iter : PostingsBlockSkipIter) (target : Nat) : Option PostingsBlockSkipIter :=
  match iter.skipList.bottom[iter.position / blockSize]? with
  | some entry =>
    if entry.maxDocId < target then
      match (BlockSkipCursor.resume iter.skipList iter.cursorPosition).advanceTo target with
      | (none, _) => none
      | (some landed, cursor) =>
        let blockStart := landed.blockIndex * blockSize
        if blockStart > iter.position then
          some { iter with
            blocksSkipped := iter.blocksSkipped + (blockStart - iter.position) / blockSize
            position := blockStart
            cursorPosition := cursor.position }
        else some { iter with cursorPosition := cursor.position }
    else some iter
  | none => some iter

def scan (iter : PostingsBlockSkipIter) (target : Nat) : Option Nat × PostingsBlockSkipIter :=
  let rest := iter.docIds.drop iter.position
  let offset := gallopOffset rest target
  match rest[offset]? with
  | none => (none, { iter with position := iter.docIds.length })
  | some docId => (some docId, { iter with position := iter.position + offset + 1 })

def advanceTo (iter : PostingsBlockSkipIter) (target : Nat) : Option Nat × PostingsBlockSkipIter :=
  if iter.position ≥ iter.docIds.length then (none, iter)
  else
    match iter.leapfrog target with
    | none => (none, iter)
    | some iter => iter.scan target

end PostingsBlockSkipIter

/- The decoded block a disk cursor keeps. `decoded` lists the blocks decoded so far, of
which the source only keeps the number of reads. -/
structure BlockCache where
  loaded : Option (Nat × List Nat × List Nat)
  localPos : Nat
  blocksRead : Nat
  decoded : List Nat

structure DiskPostingsCursor where
  segment : PostingsSegment
  termBaseOffset : Nat
  termPayloadLen : Nat
  directory : List BlockDirEntry
  blockCursor : Nat
  cache : BlockCache
  lastFreq : Nat
  totalCount : Nat

inductive DiskPostingsAdvance where
  | found (docId : Nat)
  | exhausted
  | error
deriving DecidableEq, Repr

/- decode_postings_payload_checked: decoding must re-encode to the very same bytes. -/
def decodePostingsPayloadChecked (bytes : List UInt8) (postingsCount : Nat) :
    Except PostingsReadError (List Nat × List Nat) :=
  match decodePostingsBlocked bytes postingsCount with
  | .error _ => .error .corrupt
  | .ok (docIds, freqs) =>
    match encodePostingsBlocked docIds freqs with
    | .error _ => .error .corrupt
    | .ok canonical => if canonical ≠ bytes then .error .corrupt else .ok (docIds, freqs)

namespace DiskPostingsCursor

def openWithDirectory (segment : PostingsSegment) (termBaseOffset termPayloadLen : Nat)
    (directory : List BlockDirEntry) (totalCount : Nat) : DiskPostingsCursor where
  segment := segment
  termBaseOffset := termBaseOffset
  termPayloadLen := termPayloadLen
  directory := directory
  blockCursor := 0
  cache := { loaded := none, localPos := 0, blocksRead := 0, decoded := [] }
  lastFreq := 0
  totalCount := totalCount

/- The constructors that recompute the directory count all its blocks as read. -/
def openRecomputed (segment : PostingsSegment) (termBaseOffset termPayloadLen : Nat)
    (directory : List BlockDirEntry) (totalCount : Nat) : DiskPostingsCursor :=
  let cursor := openWithDirectory segment termBaseOffset termPayloadLen directory totalCount
  { cursor with cache := { cursor.cache with blocksRead := directory.length } }

def openChecked (segment : PostingsSegment) (termBaseOffset termPayloadLen totalCount : Nat) :
    Except PostingsReadError DiskPostingsCursor :=
  match segment.readChecked termBaseOffset termPayloadLen with
  | .error _ => .error .io
  | .ok payload => do
    let (docIds, freqs) ← decodePostingsPayloadChecked payload totalCount
    match encodePostingsBlocked docIds freqs with
    | .error _ => .error .corrupt
    | .ok canonical =>
      match blockDirectory canonical totalCount with
      | .error _ => .error .corrupt
      | .ok directory =>
        .ok (openRecomputed segment termBaseOffset termPayloadLen directory totalCount)

def «open» (segment : PostingsSegment) (termBaseOffset termPayloadLen totalCount : Nat) :
    Option DiskPostingsCursor := do
  let payload ← segment.read termBaseOffset termPayloadLen
  match blockDirectory payload totalCount with
  | .error _ => none
  | .ok directory =>
    some (openRecomputed segment termBaseOffset termPayloadLen directory totalCount)

/- The lower bound of a block is the maximum of the block before it. -/
def decodedBlockMatchesDirectory (cursor : DiskPostingsCursor) (entry : BlockDirEntry)
    (docIds freqs : List Nat) : Bool :=
  match docIds.head? with
  | none => false
  | some firstDocId =>
    let previous :=
      if cursor.blockCursor = 0 then none else cursor.directory[cursor.blockCursor - 1]?
    docIds.length == entry.count &&
      freqs.length == docIds.length &&
      docIds.getLast? == some entry.maxDocId &&
      (previous.all fun previous => firstDocId > previous.maxDocId) &&
      (windows2 docIds).all fun pair => pair.1 < pair.2

def blockEnd (cursor : DiskPostingsCursor) : Nat :=
  match cursor.directory[cursor.blockCursor + 1]? with
  | some next => next.byteOffsetInTermPayload
  | none => cursor.termPayloadLen

def load (cursor : DiskPostingsCursor) (entry : BlockDirEntry) : Bool × BlockCache :=
  let cache := cursor.cache
  let blockEnd := cursor.blockEnd
  if blockEnd < entry.byteOffsetInTermPayload then (false, cache)
  else
    let cache := { cache with blocksRead := min (cache.blocksRead + 1) (2 ^ 64 - 1) }
    let blockOffset := cursor.termBaseOffset + entry.byteOffsetInTermPayload
    if blockOffset ≥ 2 ^ 64 then (false, cache)
    else
      match cursor.segment.readChecked blockOffset (blockEnd - entry.byteOffsetInTermPayload) with
      | .error _ => (false, cache)
      | .ok blockBytes =>
        let cache := { cache with decoded := cache.decoded ++ [cursor.blockCursor] }
        match decodeBlock blockBytes entry.count with
        | .error _ => (false, cache)
        | .ok (docIds, freqs) =>
          if cursor.decodedBlockMatchesDirectory entry docIds freqs then
            (true, { cache with loaded := some (cursor.blockCursor, docIds, freqs), localPos := 0 })
          else (false, cache)

/- The cached block when it is the current one, else the freshly loaded one. -/
def currentBlock (cursor : DiskPostingsCursor) (entry : BlockDirEntry) : Bool × BlockCache :=
  if cursor.cache.loaded.map (·.1) = some cursor.blockCursor then (true, cursor.cache)
  else cursor.load entry

def scanBlock (cursor : DiskPostingsCursor) (docIds freqs : List Nat) (target : Nat) :
    DiskPostingsAdvance × DiskPostingsCursor :=
  let rest := docIds.drop cursor.cache.localPos
  let foundIndex := cursor.cache.localPos + gallopOffset rest target
  match docIds[foundIndex]?, freqs[foundIndex]? with
  | some foundDocId, some foundFreq =>
    if foundDocId < target then (.error, cursor)
    else
      (.found foundDocId,
        { cursor with
          cache := { cursor.cache with localPos := foundIndex + 1 }
          lastFreq := foundFreq })
  | _, _ => (.error, cursor)

def advanceToWithStatus (cursor : DiskPostingsCursor) (target : Nat) :
    DiskPostingsAdvance × DiskPostingsCursor :=
  match current : cursor.directory[cursor.blockCursor]? with
  | none => (.exhausted, cursor)
  | some entry =>
    if entry.maxDocId < target then
      advanceToWithStatus { cursor with blockCursor := cursor.blockCursor + 1 } target
    else
      let (ready, cache) := cursor.currentBlock entry
      if ready then
        match cache.loaded with
        | some (_, docIds, freqs) =>
          if cache.localPos ≥ docIds.length then
            advanceToWithStatus { cursor with blockCursor := cursor.blockCursor + 1, cache } target
          else { cursor with cache }.scanBlock docIds freqs target
        | none => (.error, { cursor with cache })
      else (.error, { cursor with cache })
termination_by cursor.directory.length - cursor.blockCursor
decreasing_by
  all_goals
    have inside := (List.getElem?_eq_some_iff.mp current).1
    omega

/- advance_to: an error is reported like the end of the postings. -/
def advanceTo (cursor : DiskPostingsCursor) (target : Nat) : Option Nat × DiskPostingsCursor :=
  match cursor.advanceToWithStatus target with
  | (.found docId, cursor) => (some docId, cursor)
  | (_, cursor) => (none, cursor)

def freq (cursor : DiskPostingsCursor) : Nat := cursor.lastFreq

def docFreq (cursor : DiskPostingsCursor) : Nat := cursor.totalCount

end DiskPostingsCursor

end Surch.Postings
