import Surch.Lib.Bytes
import Surch.Codec.Block
import Surch.Postings.Segment

/-! The P2 attestation of segment pages: one digest per logical page of a region, kept in a
table shared by all fields of a dictionary, under a byte budget. The hash is a parameter. -/
namespace Surch.Postings
open Surch.Lib Surch.Codec

def p2IntegrityPageLen : Nat := 4 * 1024

def p2IntegrityDigestLen : Nat := 32

def p2IntegrityMaxBytes : Nat := 32 * 1024 * 1024

/- The bytes of `surch.p2.meta.v1`. -/
def p2IntegrityDomain : List UInt8 :=
  [115, 117, 114, 99, 104, 46, 112, 50, 46, 109, 101, 116, 97, 46, 118, 49]

/- size_of of the region descriptor: two u64, three u32 and one byte, padded to 32. -/
def p2VerifiedRegionSize : Nat := 32

inductive P2RegionKind where
  | entries
  | directory
deriving DecidableEq, Repr

def P2RegionKind.code : P2RegionKind → UInt8
  | .entries => 1
  | .directory => 2

structure P2VerifiedRegion where
  dataBase : Nat
  dataLen : Nat
  digestStart : Nat
  digestCount : Nat
  fieldOrdinal : Nat
  kind : P2RegionKind
deriving DecidableEq, Repr

structure P2FieldIntegrity where
  entries : P2VerifiedRegion
  directory : P2VerifiedRegion
deriving DecidableEq, Repr

structure P2IntegrityTable (Digest : Type) where
  digests : List Digest
  protectedFields : Nat
  fallbackFields : Nat
  termOccurrences : Nat
  blocks : Nat
  fields : Nat

structure P2DigestedRegion (Digest : Type) where
  region : P2VerifiedRegion
  digests : List Digest

structure P2IntegrityBuilder (Digest : Type) where
  maxBytes : Nat
  digests : List Digest
  protectedFields : Nat
  fallbackFields : Nat
  termOccurrences : Nat
  blocks : Nat
  fields : Nat

variable {Digest : Type}

def p2ByteCost (digestCount protectedFields : Nat) : Nat :=
  digestCount * p2IntegrityDigestLen + protectedFields * 2 * p2VerifiedRegionSize

/- bytes() of a table: the same cost in saturating arithmetic. -/
def P2IntegrityTable.bytes (table : P2IntegrityTable Digest) : Nat :=
  saturatingAddU64 (min (table.digests.length * p2IntegrityDigestLen) (2 ^ 64 - 1))
    (min (table.protectedFields * 2 * p2VerifiedRegionSize) (2 ^ 64 - 1))

def p2DigestCount (dataLen : Nat) : Nat :=
  dataLen / p2IntegrityPageLen + if dataLen % p2IntegrityPageLen = 0 then 0 else 1

namespace P2IntegrityBuilder

def withMaxBytes (maxBytes : Nat) : P2IntegrityBuilder Digest where
  maxBytes := maxBytes
  digests := []
  protectedFields := 0
  fallbackFields := 0
  termOccurrences := 0
  blocks := 0
  fields := 0

def recordFallback (builder : P2IntegrityBuilder Digest) : P2IntegrityBuilder Digest :=
  { builder with fallbackFields := saturatingAddU64 builder.fallbackFields 1 }

def recordLayout (builder : P2IntegrityBuilder Digest) (termOccurrences blocks : Nat) :
    P2IntegrityBuilder Digest :=
  { builder with
    termOccurrences := saturatingAddU64 builder.termOccurrences termOccurrences
    blocks := saturatingAddU64 builder.blocks blocks
    fields := saturatingAddU64 builder.fields 1 }

/- The admission both `can_publish` and `publish` compute, in checked 64-bit arithmetic. -/
def admits (builder : P2IntegrityBuilder Digest) (digestCount : Nat) : Bool :=
  digestCount < 2 ^ 32 && builder.protectedFields + 1 < 2 ^ 32 &&
    p2ByteCost digestCount (builder.protectedFields + 1) < 2 ^ 64 &&
    p2ByteCost digestCount (builder.protectedFields + 1) ≤ builder.maxBytes

def canPublish (builder : P2IntegrityBuilder Digest) (directoryLen entriesLen : Nat) : Bool :=
  builder.admits
    (builder.digests.length + p2DigestCount directoryLen + p2DigestCount entriesLen)

def publish (builder : P2IntegrityBuilder Digest) (directory entries : P2DigestedRegion Digest) :
    Option P2FieldIntegrity × P2IntegrityBuilder Digest :=
  if builder.admits
      (builder.digests.length + directory.digests.length + entries.digests.length) then
    (some { entries := entries.region, directory := directory.region },
      { builder with
        digests := builder.digests ++ directory.digests ++ entries.digests
        protectedFields := builder.protectedFields + 1 })
  else (none, builder)

def finish (builder : P2IntegrityBuilder Digest) : P2IntegrityTable Digest where
  digests := builder.digests
  protectedFields := builder.protectedFields
  fallbackFields := builder.fallbackFields
  termOccurrences := builder.termOccurrences
  blocks := builder.blocks
  fields := builder.fields

end P2IntegrityBuilder

section Hash

variable (hash : List UInt8 → Digest)

/- Everything hashed before the bytes of a page. -/
def p2PageHeader (kind : P2RegionKind) (fieldOrdinal dataBase dataLen pageIndex pageLen : Nat) :
    List UInt8 :=
  p2IntegrityDomain ++ [kind.code] ++ leBytes 4 fieldOrdinal ++ leBytes 8 dataBase ++
    leBytes 8 dataLen ++ leBytes 8 pageIndex ++ leBytes 8 pageLen

def p2DigestPage (kind : P2RegionKind) (fieldOrdinal dataBase dataLen pageIndex : Nat)
    (page : List UInt8) : Digest :=
  hash (p2PageHeader kind fieldOrdinal dataBase dataLen pageIndex page.length ++ page)

/- Page `i` of a region's data; the last one may be short. -/
def p2Page (data : List UInt8) (pageIndex : Nat) : List UInt8 :=
  (data.drop (pageIndex * p2IntegrityPageLen)).take p2IntegrityPageLen

def p2DigestRegion (kind : P2RegionKind) (fieldOrdinal dataBase : Nat) (data : List UInt8)
    (digestStart : Nat) : Option (P2DigestedRegion Digest) :=
  if p2DigestCount data.length < 2 ^ 32 then
    some
      { region :=
          { dataBase, dataLen := data.length, digestStart
            digestCount := p2DigestCount data.length, fieldOrdinal, kind }
        digests := (List.range (p2DigestCount data.length)).map fun pageIndex =>
          p2DigestPage hash kind fieldOrdinal dataBase data.length pageIndex
            (p2Page data pageIndex) }
  else none

variable [DecidableEq Digest]

/- One iteration of the verification loop, on the bytes read from `pageStart` on. -/
def verifyPage (region : P2VerifiedRegion) (integrity : P2IntegrityTable Digest)
    (bytes : List UInt8) (pageStart pageIndex : Nat) : Except PostingsReadError Unit :=
  if region.digestStart + pageIndex ≥ 2 ^ 32 then .error .corrupt
  else
    match integrity.digests[region.digestStart + pageIndex]? with
    | none => .error .corrupt
    | some expected =>
      let logicalStart := pageIndex * p2IntegrityPageLen
      let logicalEnd := min (logicalStart + p2IntegrityPageLen) region.dataLen
      if logicalStart < pageStart ∨ logicalEnd < pageStart then .error .corrupt
      else
        let localStart := logicalStart - pageStart
        let localEnd := logicalEnd - pageStart
        if localStart ≤ localEnd ∧ localEnd ≤ bytes.length then
          let page := (bytes.drop localStart).take (localEnd - localStart)
          let actual := p2DigestPage hash region.kind region.fieldOrdinal region.dataBase
            region.dataLen pageIndex page
          if actual = expected then .ok () else .error .corrupt
        else .error .corrupt

def verifyPages (region : P2VerifiedRegion) (integrity : P2IntegrityTable Digest)
    (bytes : List UInt8) (pageStart : Nat) : (pages pageIndex : Nat) → Except PostingsReadError Unit
  | 0, _ => .ok ()
  | pages + 1, pageIndex => do
    verifyPage hash region integrity bytes pageStart pageIndex
    verifyPages region integrity bytes pageStart pages (pageIndex + 1)

/- The range of whole pages, relative to the region, that covers a requested range. -/
def coveringStart (region : P2VerifiedRegion) (rangeBase : Nat) : Nat :=
  (rangeBase - region.dataBase) / p2IntegrityPageLen * p2IntegrityPageLen

def coveringEnd (region : P2VerifiedRegion) (rangeBase rangeLen : Nat) : Nat :=
  min (((rangeBase + rangeLen - region.dataBase - 1) / p2IntegrityPageLen + 1) *
    p2IntegrityPageLen) region.dataLen

def readVerifiedRange (segment : PostingsSegment) (region : P2VerifiedRegion)
    (integrity : P2IntegrityTable Digest) (rangeBase rangeLen : Nat) :
    Except PostingsReadError (List UInt8) :=
  if region.dataBase + region.dataLen ≥ 2 ^ 64 then .error .corrupt
  else if rangeBase + rangeLen ≥ 2 ^ 64 then .error .corrupt
  else if rangeLen = 0 ∨ rangeBase < region.dataBase ∨
      rangeBase + rangeLen > region.dataBase + region.dataLen then .error .corrupt
  else
    let relativeStart := rangeBase - region.dataBase
    let relativeEnd := rangeBase + rangeLen - region.dataBase
    let firstPage := relativeStart / p2IntegrityPageLen
    let lastPage := (relativeEnd - 1) / p2IntegrityPageLen
    if lastPage ≥ region.digestCount then .error .corrupt
    else
      let pageStart := coveringStart region rangeBase
      let pageEnd := coveringEnd region rangeBase rangeLen
      if (lastPage + 1) * p2IntegrityPageLen ≥ 2 ^ 64 then .error .corrupt
      else if region.dataBase + pageStart ≥ 2 ^ 64 then .error .corrupt
      else if pageEnd < pageStart ∨ pageEnd - pageStart ≥ 2 ^ 32 then .error .corrupt
      else
        match segment.readChecked (region.dataBase + pageStart) (pageEnd - pageStart) with
        | .error .unexpectedEof => .error .corrupt
        | .error _ => .error .io
        | .ok bytes => do
          verifyPages hash region integrity bytes pageStart (lastPage + 1 - firstPage) firstPage
          let start := relativeStart - pageStart
          if start + rangeLen ≤ bytes.length then .ok ((bytes.drop start).take rangeLen)
          else .error .corrupt

end Hash

end Surch.Postings
