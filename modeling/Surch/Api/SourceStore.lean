import Mathlib.Data.List.Basic
import Mathlib.Data.Nat.Bitwise
import Mathlib.Tactic.NormNum
import Surch.Lib.BitPack

/-! `SourceStore`: the stored documents of an index. Documents are appended to one file as they
are, compressed one by one, or gathered into blocks that are compressed when they are full; a
packed locator says where each one is. One decompressed block is cached for all stores. -/
namespace Surch.Api
open Surch.Lib

section Packing

def packedOffsetBits : Nat := 40
def packedLengthBits : Nat := 22
def packedOffsetMax : Nat := 2 ^ packedOffsetBits - 1
def packedLengthMax : Nat := 2 ^ packedLengthBits - 1
def packedCodecMax : Nat := 3

def sourceBlockTargetBytes : Nat := 16 * 1024
def sourceBlockIntraBits : Nat := 14
def sourceBlockIntraMax : Nat := 2 ^ sourceBlockIntraBits - 1
def sourceBlockIdMax : Nat := 2 ^ (packedOffsetBits - sourceBlockIntraBits) - 1
def sourceBlockCacheMaxBytes : Nat := 64 * 1024
def blockDirClenMax : Nat := 2 ^ 24 - 1

/- The two assertions panic rather than truncate. -/
def packBlockLocator (blockId intraOffset : Nat) : Option Nat :=
  if blockId ≤ sourceBlockIdMax ∧ intraOffset ≤ sourceBlockIntraMax then
    some (blockId <<< sourceBlockIntraBits ||| intraOffset)
  else none

def unpackBlockLocator (locator : Nat) : Nat × Nat :=
  (locator >>> sourceBlockIntraBits, locator &&& sourceBlockIntraMax)

def packBlockDirEntry (fileOffset compressedLen : Nat) : Option Nat :=
  if fileOffset ≤ packedOffsetMax ∧ compressedLen ≤ blockDirClenMax then
    some (compressedLen <<< packedOffsetBits ||| fileOffset)
  else none

def unpackBlockDirEntry (entry : Nat) : Nat × Nat :=
  (entry &&& packedOffsetMax, (entry >>> packedOffsetBits) % 2 ^ 32)

/-- Two fields in one number: the low one is masked out, the high one shifted down. -/
theorem packed_fields {low width : Nat} (small : low < 2 ^ width) (high : Nat) :
    (high <<< width ||| low) &&& (2 ^ width - 1) = low ∧ (high <<< width ||| low) >>> width = high := by
  have sum : high <<< width ||| low = low + 2 ^ width * high := by
    rw [Nat.or_comm, or_shiftLeft_of_lt small, Nat.mul_comm]
  rw [sum, Nat.and_two_pow_sub_one_eq_mod, Nat.shiftRight_eq_div_pow]
  constructor
  · rw [Nat.add_mul_mod_self_left, Nat.mod_eq_of_lt small]
  · rw [Nat.add_mul_div_left _ _ (Nat.two_pow_pos width), Nat.div_eq_of_lt small, Nat.zero_add]

theorem unpackBlockLocator_of_pack {blockId intraOffset locator : Nat}
    (packed : packBlockLocator blockId intraOffset = some locator) :
    unpackBlockLocator locator = (blockId, intraOffset) := by
  unfold packBlockLocator at packed
  split at packed
  · rename_i fits
    cases packed
    have small : intraOffset < 2 ^ sourceBlockIntraBits := by
      have := fits.2
      unfold sourceBlockIntraMax at this
      have := Nat.two_pow_pos sourceBlockIntraBits
      omega
    have fields := packed_fields small blockId
    unfold unpackBlockLocator sourceBlockIntraMax
    rw [fields.1, fields.2]
  · cases packed

theorem packBlockLocator_le {blockId intraOffset locator : Nat}
    (packed : packBlockLocator blockId intraOffset = some locator) : locator ≤ packedOffsetMax := by
  unfold packBlockLocator at packed
  split at packed
  · rename_i fits
    cases packed
    have high : blockId <<< sourceBlockIntraBits < 2 ^ packedOffsetBits := by
      have := fits.1
      rw [Nat.shiftLeft_eq]
      unfold sourceBlockIdMax packedOffsetBits sourceBlockIntraBits at *
      omega
    have low : intraOffset < 2 ^ packedOffsetBits := by
      have := fits.2
      unfold sourceBlockIntraMax packedOffsetBits sourceBlockIntraBits at *
      omega
    exact Nat.le_sub_one_of_lt (Nat.or_lt_two_pow high low)
  · cases packed

theorem unpackBlockDirEntry_of_pack {fileOffset compressedLen entry : Nat}
    (packed : packBlockDirEntry fileOffset compressedLen = some entry) :
    unpackBlockDirEntry entry = (fileOffset, compressedLen) := by
  unfold packBlockDirEntry at packed
  split at packed
  · rename_i fits
    cases packed
    have small : fileOffset < 2 ^ packedOffsetBits := by
      have := fits.1
      unfold packedOffsetMax at this
      have := Nat.two_pow_pos packedOffsetBits
      omega
    have short : compressedLen < 2 ^ 32 := by
      have := fits.2
      unfold blockDirClenMax at this
      omega
    have fields := packed_fields small compressedLen
    unfold unpackBlockDirEntry packedOffsetMax
    rw [fields.1, fields.2, Nat.mod_eq_of_lt short]
  · cases packed

end Packing

/- The compressor: one frame from bytes, and back into a buffer of a given capacity. -/
structure Zstd where
  compress : List UInt8 → List UInt8
  decompress : List UInt8 → Nat → Option (List UInt8)

namespace Zstd

def compressBound (length : Nat) : Nat :=
  length + length / 256 + if length < 2 ^ 17 then (2 ^ 17 - length) / 2 ^ 11 else 0

/- What zstd documents: a frame decompresses to its bytes exactly when they fit the buffer, is no
longer than its bound and starts with a magic number. -/
structure Lossless (zstd : Zstd) : Prop where
  round_trip : ∀ raw capacity, zstd.decompress (zstd.compress raw) capacity =
    if raw.length ≤ capacity then some raw else none
  bounded : ∀ raw, (zstd.compress raw).length ≤ compressBound raw.length
  framed : ∀ raw, zstd.compress raw ≠ []

/- The growth loop: the capacity doubles until the output fits; running out of attempts panics. -/
def attempts (zstd : Zstd) (bytes : List UInt8) : Nat → Nat → Option (List UInt8)
  | 0, _ => none
  | left + 1, capacity =>
    match zstd.decompress bytes capacity with
    | some out => some out
    | none => zstd.attempts bytes left (min (capacity * 2) (2 ^ 64 - 1))

def decodeFrom (zstd : Zstd) (bytes : List UInt8) (initialCapacity : Nat) : Option (List UInt8) :=
  zstd.attempts bytes 20 initialCapacity

def decode (zstd : Zstd) (bytes : List UInt8) : Option (List UInt8) :=
  zstd.decodeFrom bytes (max (min (bytes.length * 4) (2 ^ 64 - 1)) 4096)

def decodeBlock (zstd : Zstd) (bytes : List UInt8) : Option (List UInt8) :=
  zstd.decodeFrom bytes (max (min (bytes.length * 8) (2 ^ 64 - 1)) (sourceBlockTargetBytes * 2))

theorem attempts_compress {zstd : Zstd} (lossless : zstd.Lossless) (raw : List UInt8)
    (left capacity : Nat) (enough : raw.length ≤ capacity * 2 ^ left) (small : raw.length < 2 ^ 64) :
    zstd.attempts (zstd.compress raw) (left + 1) capacity = some raw := by
  induction left generalizing capacity with
  | zero =>
    rw [attempts, lossless.round_trip, if_pos (by omega)]
  | succ left ih =>
    rw [attempts, lossless.round_trip]
    by_cases fits : raw.length ≤ capacity
    · rw [if_pos fits]
    · rw [if_neg fits]
      apply ih
      rcases Nat.le_total (capacity * 2) (2 ^ 64 - 1) with below | above
      · rw [Nat.min_eq_left below, Nat.mul_assoc, ← Nat.pow_succ']
        exact enough
      · rw [Nat.min_eq_right above]
        have := Nat.two_pow_pos left
        exact (Nat.le_sub_one_of_lt small).trans (Nat.le_mul_of_pos_right _ this)

theorem decodeFrom_compress {zstd : Zstd} (lossless : zstd.Lossless) {raw : List UInt8}
    {capacity : Nat} (start : 4096 ≤ capacity) (small : raw.length < 2 ^ 31) :
    zstd.decodeFrom (zstd.compress raw) capacity = some raw := by
  refine attempts_compress lossless raw 19 capacity ?_ (by omega)
  have wide : 4096 * 2 ^ 19 ≤ capacity * 2 ^ 19 := Nat.mul_le_mul_right _ start
  omega

end Zstd

/- The bytes of `source.dat`. -/
structure SourceSegment where
  buf : List UInt8
deriving DecidableEq

namespace SourceSegment

def append (segment : SourceSegment) (bytes : List UInt8) : (Nat × Nat) × SourceSegment :=
  ((segment.buf.length, bytes.length % 2 ^ 32), ⟨segment.buf ++ bytes⟩)

def read (segment : SourceSegment) (offset length : Nat) : Option (List UInt8) :=
  if offset + length ≤ segment.buf.length then some ((segment.buf.drop offset).take length)
  else none

/- A file that cannot be truncated keeps its bytes. -/
def reset (segment : SourceSegment) (truncates : Bool) : SourceSegment :=
  if truncates then ⟨[]⟩ else segment

end SourceSegment

inductive SourceWriteMode where
  | raw
  | zstdPerDoc
  | zstdBlock
deriving DecidableEq, Repr

def sourceCodecRaw : Nat := 0
def sourceCodecZstd : Nat := 1
def sourceCodecBlock : Nat := 2

inductive SourceBlob where
  | onDisk (offset length codec : Nat)
  | compressed (bytes : List UInt8)
deriving DecidableEq, Repr

/- `blocks` is the directory of the sealed blocks, `pending` the block under construction, whose
identifier is `blocks.length`. -/
structure SourceStore where
  segment : SourceSegment
  blocks : List Nat
  pending : List UInt8
  epoch : Nat
deriving DecidableEq

abbrev CachedSourceBlock := Nat × Nat × List UInt8

namespace SourceStore

def default (epoch : Nat) : SourceStore := ⟨⟨[]⟩, [], [], epoch⟩

def reset (store : SourceStore) (truncates : Bool) (epoch : Nat) : SourceStore :=
  { segment := store.segment.reset truncates, blocks := [], pending := [], epoch }

def flushPendingBlock (zstd : Zstd) (store : SourceStore) : Option SourceStore :=
  if store.pending.isEmpty then some store
  else do
    let ((fileOffset, compressedLen), segment) := store.segment.append (zstd.compress store.pending)
    let entry ← packBlockDirEntry fileOffset compressedLen
    return { store with segment, blocks := store.blocks ++ [entry], pending := [] }

/- The locator is known before the block is sealed. -/
def appendBlockDoc (zstd : Zstd) (store : SourceStore) (raw : List UInt8) :
    Option (Nat × SourceStore) := do
  let locator ← packBlockLocator store.blocks.length (store.pending.length % 2 ^ 32)
  let store := { store with pending := store.pending ++ raw }
  if store.pending.length ≥ sourceBlockTargetBytes then do
    let store ← store.flushPendingBlock zstd
    return (locator, store)
  else return (locator, store)

def slice (bytes : List UInt8) (start length : Nat) : Option (List UInt8) :=
  if start + length ≤ bytes.length then some ((bytes.drop start).take length) else none

def sealedBlock (zstd : Zstd) (store : SourceStore) (blockId : Nat) : Option (List UInt8) := do
  let entry ← store.blocks[blockId]?
  let (fileOffset, compressedLen) := unpackBlockDirEntry entry
  let compressed ← store.segment.read fileOffset compressedLen
  zstd.decodeBlock compressed

def readBlockDoc (zstd : Zstd) (store : SourceStore) (cache : Option CachedSourceBlock)
    (locator rawLen : Nat) : Option (List UInt8 × Option CachedSourceBlock) :=
  let (blockId, start) := unpackBlockLocator locator
  if blockId = store.blocks.length then do
    let bytes ← slice store.pending start rawLen
    return (bytes, cache)
  else
    let fetch : Option (List UInt8 × Option CachedSourceBlock) := do
      let decoded ← store.sealedBlock zstd blockId
      let bytes ← slice decoded start rawLen
      return (bytes,
        if decoded.length ≤ sourceBlockCacheMaxBytes then some (store.epoch, blockId, decoded)
        else cache)
    if blockId < store.blocks.length then
      match cache with
      | some (epoch, cachedId, bytes) =>
        if epoch = store.epoch ∧ cachedId = blockId then do
          let bytes ← slice bytes start rawLen
          return (bytes, cache)
        else fetch
      | none => fetch
    else none

end SourceStore

def storeSourceBytes (zstd : Zstd) (store : SourceStore) (serialized : List UInt8)
    (mode : SourceWriteMode) : Option (SourceBlob × SourceStore) :=
  match mode with
  | .raw =>
    let ((offset, length), segment) := store.segment.append serialized
    some (.onDisk offset length sourceCodecRaw, { store with segment })
  | .zstdPerDoc =>
    let ((offset, length), segment) := store.segment.append (zstd.compress serialized)
    some (.onDisk offset length sourceCodecZstd, { store with segment })
  | .zstdBlock => do
    let (locator, store) ← store.appendBlockDoc zstd serialized
    return (.onDisk locator (serialized.length % 2 ^ 32) sourceCodecBlock, store)

/- `read_on_disk_bytes`, with the block cache of the reading thread. An unknown tag panics. -/
def readOnDiskBytes (zstd : Zstd) (store : SourceStore) (cache : Option CachedSourceBlock)
    (offset length codec : Nat) : Option (List UInt8 × Option CachedSourceBlock) :=
  if codec = sourceCodecRaw then do
    let bytes ← store.segment.read offset length
    return (bytes, cache)
  else if codec = sourceCodecZstd then do
    let bytes ← store.segment.read offset length
    let bytes ← zstd.decode bytes
    return (bytes, cache)
  else if codec = sourceCodecBlock then store.readBlockDoc zstd cache offset length
  else none

end Surch.Api
