import Surch.Store.Segments

/-! `IndexStore`: a write-ahead log in front of the segments, and the recovery that puts what the log
still holds into a segment when the store is opened. -/
namespace Surch.Store
open Surch.Lib

structure WriteAheadLog where
  nextSequence : Nat
  entries : List WalRecord
deriving DecidableEq

inductive IndexStoreError where
  | io (message : String)
  | wal (error : WalError)
  | segment (error : SegmentStoreError)
deriving DecidableEq

structure IndexStoreConfig where
  mergeThreshold : Nat
  keepRecentSegments : Nat
deriving DecidableEq

structure IndexStore where
  wal : WriteAheadLog
  segments : SegmentStore
  config : IndexStoreConfig
deriving DecidableEq

def writeWal (bytes : List UInt8) : StoreProgram Bool :=
  Program.request (StoreRequest.writeWal bytes)

namespace WriteAheadLog

def lastSequence (entries : List WalRecord) : Nat :=
  (entries.getLast?.map WalRecord.sequence).getD 0

def new (file : Option (List UInt8)) : Except WalError WriteAheadLog := do
  let entries ← match file with
    | none => pure []
    | some bytes => readFile bytes
  return { nextSequence := lastSequence entries, entries }

variable (wal : WriteAheadLog)

def append (index docId : String) (operation : WalOperation) (now : UInt64) :
    Except WalError Nat × WriteAheadLog :=
  match validateIdentifier index "index", validateIdentifier docId "document id" with
  | .ok (), .ok () =>
    let sequence := (wal.nextSequence + 1) % 2 ^ 64
    (.ok sequence,
      { nextSequence := sequence
        entries := wal.entries ++ [⟨sequence, now.toNat, index, docId, operation⟩] })
  | .error error, _ => (.error error, wal)
  | .ok (), .error error => (.error error, wal)

def appendIndex (index docId : String) (source : List UInt8) (now : UInt64) :
    Except WalError Nat × WriteAheadLog :=
  wal.append index docId (.index source) now

def appendDelete (index docId : String) (now : UInt64) : Except WalError Nat × WriteAheadLog :=
  wal.append index docId .delete now

def flush : StoreProgram (Except WalError Unit) :=
  match walBytes wal.entries with
  | .error error => return .error error
  | .ok bytes => do
    let written ← writeWal bytes
    if written then return .ok ()
    else return .error (.io "write WAL file")

def retainEntriesGreaterThan (minSequenceInclusive : Nat) :
    StoreProgram (Except WalError Unit × WriteAheadLog) := do
  let entries := wal.entries.filter fun entry => entry.sequence > minSequenceInclusive
  let wal : WriteAheadLog := { nextSequence := lastSequence entries, entries }
  let flushed ← wal.flush
  return (flushed, wal)

end WriteAheadLog

namespace IndexStore

variable (store : IndexStore)

def appendIndex (index docId : String) (source : List UInt8) (now : UInt64) :
    Except WalError Nat × IndexStore :=
  let (sequence, wal) := store.wal.appendIndex index docId source now
  (sequence, { store with wal })

def appendDelete (index docId : String) (now : UInt64) : Except WalError Nat × IndexStore :=
  let (sequence, wal) := store.wal.appendDelete index docId now
  (sequence, { store with wal })

def allSegmentRecords (dir : StoreDir) : Except SegmentStoreError (List WalRecord) :=
  store.segments.allRecords dir

/- How many segments a flush merges: those past the threshold, one and the recent ones kept. -/
def mergeCount (segments : SegmentStore) : Nat :=
  if segments.segments.length > store.config.mergeThreshold then
    min (max (segments.segments.length - store.config.keepRecentSegments) 1)
      (segments.segments.length - 1)
  else 0

def flushWal :
    StoreProgram (Except IndexStoreError (Option SegmentMetadata) × IndexStore) := do
  let flushed ← store.wal.flush
  match flushed with
  | .error error => return (.error (.wal error), store)
  | .ok () =>
    let entries := store.wal.entries
    let store := { store with wal := { store.wal with entries := [] } }
    if entries.isEmpty then return (.ok none, store)
    else
      let (appended, segments) ← store.segments.appendEntries entries
      match appended with
      | .error error => return (.error (.segment error), { store with segments })
      | .ok merged =>
        if 0 < store.mergeCount segments then
          let (outcome, segments) ← segments.mergeOldestSegments (store.mergeCount segments)
          match outcome with
          | .error error => return (.error (.segment error), { store with segments })
          | .ok outcome => return (.ok (outcome.or merged), { store with segments })
        else return (.ok merged, { store with segments })

def maxSequence (records : List WalRecord) : Option Nat := (records.map WalRecord.sequence).max?

def replayRecords (persisted logged : List WalRecord) : List WalRecord :=
  match maxSequence persisted with
  | some maxSequence => logged.filter fun record => record.sequence > maxSequence
  | none => logged

def appendReplay (segments : SegmentStore) (replay : List WalRecord) :
    StoreProgram (SegmentStore.Outcome (Option SegmentMetadata)) :=
  if replay.isEmpty then return (.ok none, segments) else segments.appendEntries replay

def recoverFromDisk (dir : StoreDir) : StoreProgram (Except IndexStoreError Unit × IndexStore) :=
  match store.segments.allRecords dir with
  | .error error => return (.error (.segment error), store)
  | .ok persistedRecords => do
    let replay := replayRecords persistedRecords store.wal.entries
    let maxPersistedSequence := (maxSequence replay).or (maxSequence persistedRecords)
    let (appended, segments) ← appendReplay store.segments replay
    match appended with
    | .error error => return (.error (.segment error), { store with segments })
    | .ok _ =>
      let (retained, wal) ← store.wal.retainEntriesGreaterThan (maxPersistedSequence.getD 0)
      match retained with
      | .error error => return (.error (.wal error), { store with segments, wal })
      | .ok () => return (.ok (), { store with segments, wal })

def openStore (config : IndexStoreConfig) : StoreProgram (Except IndexStoreError IndexStore) := do
  let files ← look
  match files with
  | none => return .error (.io "create index store")
  | some dir =>
    match WriteAheadLog.new dir.wal, SegmentStore.openWithConfig dir.segments config.keepRecentSegments with
    | .error error, _ => return .error (.wal error)
    | .ok _, .error error => return .error (.segment error)
    | .ok wal, .ok segments =>
      let store : IndexStore := { wal, segments, config }
      let (recovered, store) ← store.recoverFromDisk dir
      match recovered with
      | .error error => return .error error
      | .ok () => return .ok store

end IndexStore

end Surch.Store
