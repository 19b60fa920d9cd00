import Surch.Api.Catalog
import Surch.Lib.Lines
import Surch.Lib.Reader
import Surch.Snapshot.Service

/-! `snapshot.rs`: what an index is packed into, and how an index is made of it again. `gzip` and `tar`
give back what they are given, so that a tarball is the list of its entries. -/
namespace Surch.Snapshot
open Surch.Lib Surch.Index Surch.Postings Surch.Api

abbrev TarballResult (α : Type) := Except String α

abbrev Tarball := List (String × List UInt8)

structure Manifest where
  formatVersion : Nat
  surchVersion : String
  index : String
  docCount : Nat
deriving DecidableEq

structure IndexMetadata where
  aliases : SortedMap String Value
  mapping : Value
  settings : Value

/- `serde_json`, and what `str::from_utf8` says of bytes that are no text. -/
structure Encodings where
  toVec : Value → Except String (List UInt8)
  toVecPretty : Value → Except String (List UInt8)
  fromSlice : List UInt8 → Except String Value
  manifestToVecPretty : Manifest → Except String (List UInt8)
  manifestFromSlice : List UInt8 → Except String Manifest
  utf8Error : List UInt8 → String

def snapshotFormatVersion : Nat := 1

def manifestEntry : String := "manifest.json"
def mappingEntry : String := "mapping.json"
def settingsEntry : String := "settings.json"
def aliasesEntry : String := "aliases.json"
def documentsEntry : String := "documents.ndjson"

def allowedEntries : List String :=
  [manifestEntry, mappingEntry, settingsEntry, aliasesEntry, documentsEntry]

section Building

variable (encodings : Encodings)

def aliasesToValue (aliases : SortedMap String Value) : Value := .object aliases.entries

def documentValue (document : String × Value) : Value :=
  .object [("_id", .string document.1), ("_source", document.2)]

def documentsBytes : List (String × Value) → TarballResult (List UInt8)
  | [] => .ok []
  | document :: rest => do
    let line ← (encodings.toVec (documentValue document)).mapError fun e =>
      s!"document serialisation: {e}"
    let later ← documentsBytes rest
    return line ++ utf8 "\n" ++ later

def indexManifest (index : String) (documents : List (String × Value)) : Manifest where
  formatVersion := snapshotFormatVersion
  surchVersion
  index
  docCount := documents.length

def buildTarball (index : String) (mapping settings : Value) (aliases : SortedMap String Value)
    (documents : List (String × Value)) : TarballResult Tarball := do
  let manifestBytes ← (encodings.manifestToVecPretty (indexManifest index documents)).mapError fun e =>
    s!"manifest serialisation: {e}"
  let mappingBytes ← (encodings.toVecPretty mapping).mapError fun e => s!"mapping serialisation: {e}"
  let settingsBytes ← (encodings.toVecPretty settings).mapError fun e => s!"settings serialisation: {e}"
  let aliasesBytes ← (encodings.toVecPretty (aliasesToValue aliases)).mapError fun e =>
    s!"aliases serialisation: {e}"
  let documents ← documentsBytes encodings documents
  return [(manifestEntry, manifestBytes), (mappingEntry, mappingBytes), (settingsEntry, settingsBytes),
    (aliasesEntry, aliasesBytes), (documentsEntry, documents)]

def buildIndexTarballForEsSnapshot (index : String) (metadata : IndexMetadata)
    (documents : List (String × Value)) : TarballResult Tarball :=
  buildTarball encodings index metadata.mapping metadata.settings metadata.aliases documents

end Building

section Parsing

variable (encodings : Encodings)

structure TarballParts where
  manifest : Option Manifest
  mapping : Option Value
  settings : Option Value
  aliases : Option Value
  documents : Option (List UInt8)

structure ParsedSnapshot where
  manifest : Manifest
  mapping : IndexMapping
  settings : Value
  aliases : SortedMap String Value
  documents : List (String × Value)

def readEntry (parts : TarballParts) (entry : String × List UInt8) : TarballResult TarballParts :=
  let (name, bytes) := entry
  if name ∉ allowedEntries then
    .error (s!"unexpected tar entry `{name}` (allowed: " ++ ", ".intercalate allowedEntries ++ ")")
  else if name = manifestEntry then do
    let manifest ← (encodings.manifestFromSlice bytes).mapError fun e => s!"manifest.json parse: {e}"
    return { parts with manifest := some manifest }
  else if name = mappingEntry then do
    let value ← (encodings.fromSlice bytes).mapError fun e => s!"mapping.json parse: {e}"
    return { parts with mapping := some value }
  else if name = settingsEntry then do
    let value ← (encodings.fromSlice bytes).mapError fun e => s!"settings.json parse: {e}"
    return { parts with settings := some value }
  else if name = aliasesEntry then do
    let value ← (encodings.fromSlice bytes).mapError fun e => s!"aliases.json parse: {e}"
    return { parts with aliases := some value }
  else .ok { parts with documents := some bytes }

def orMissing {α : Type} (message : String) : Option α → TarballResult α
  | some value => .ok value
  | none => .error message

def parseAliasesValue (value : Value) : TarballResult (SortedMap String Value) := do
  let object ← orMissing "aliases.json must be a JSON object" value.asObject
  return object.foldl (fun aliases entry => aliases.upsert entry.1 fun _ => entry.2) .empty

def valueAt (value : Value) (key : String) : Option Value := value.asObject.bind (List.lookup key)

def parseDocumentLines : (lineNo : Nat) → List (List Char) → TarballResult (List (String × Value))
  | _, [] => .ok []
  | lineNo, raw :: rest =>
    let line := trimmed isWhitespace raw
    if line.isEmpty then parseDocumentLines (lineNo + 1) rest
    else do
      let value ← (encodings.fromSlice (utf8 (String.ofList line))).mapError fun e =>
        s!"documents.ndjson line {lineNo + 1} parse: {e}"
      let id ← orMissing s!"documents.ndjson line {lineNo + 1}: missing `_id`"
        ((valueAt value "_id").bind Value.asStr)
      let source ← orMissing s!"documents.ndjson line {lineNo + 1}: missing `_source`"
        (valueAt value "_source")
      let later ← parseDocumentLines (lineNo + 1) rest
      return (id, source) :: later

def parseDocumentsNdjson (bytes : List UInt8) : TarballResult (List (String × Value)) := do
  let text ← orMissing ("documents.ndjson is not UTF-8: " ++ encodings.utf8Error bytes) (fromUtf8 bytes)
  parseDocumentLines encodings 0 (lines text.toList)

/- The mapping that `mapping.json` prints. Its analysis is not among the properties. -/
def parseMappingValue (unicode : Unicode) (value : Value) : TarballResult IndexMapping :=
  (fromPropertiesValue unicode ((valueAt value "properties").getD (.object []))).mapError fun e =>
    s!"mapping.json invalid: {e.message}"

def parseTarball (unicode : Unicode) (body : Tarball) : TarballResult ParsedSnapshot := do
  let parts ← body.foldlM (readEntry encodings) ⟨none, none, none, none, none⟩
  let manifest ← orMissing "missing manifest.json" parts.manifest
  let mappingValue ← orMissing "missing mapping.json" parts.mapping
  let settings ← orMissing "missing settings.json" parts.settings
  let aliasesValue ← orMissing "missing aliases.json" parts.aliases
  let documentsBytes ← orMissing "missing documents.ndjson" parts.documents
  let mapping ← parseMappingValue unicode mappingValue
  let aliases ← parseAliasesValue aliasesValue
  let documents ← parseDocumentsNdjson encodings documentsBytes
  return { manifest, mapping, settings, aliases, documents }

end Parsing

section Restoring

variable (encodings : Encodings)

def indexMetadata (catalog : Catalog) (index : String) : Option IndexMetadata :=
  (catalog.indices.get? index).map fun data => {
    aliases := catalog.aliasDefinitionsForIndex index
    mapping := mappingValue data.mapping
    settings := .object data.settings.entries }

def documentsOf (catalog : Catalog) (index : String) : List (String × Value) :=
  ((catalog.indices.get? index).map fun data => data.documents.entries).getD []

def exportIndex (catalog : Catalog) (index : String) : Option (TarballResult Tarball) :=
  (indexMetadata catalog index).map fun metadata =>
    buildIndexTarballForEsSnapshot encodings index metadata (documentsOf catalog index)

def indexDocuments (catalog : Catalog) (index : String) (documents : List (String × Value)) : Catalog :=
  documents.foldl (fun catalog document => catalog.indexDocument index document.1 document.2) catalog

def restoreIndexTarballForEsSnapshot (unicode : Unicode) (catalog : Catalog) (index : String)
    (body : Tarball) : TarballResult (Nat × Catalog) :=
  if catalog.indexExists index then .error s!"index [{index}] already exists"
  else do
    let parsed ← parseTarball encodings unicode body
    if parsed.manifest.formatVersion ≠ snapshotFormatVersion then
      .error (s!"unsupported snapshot format_version {parsed.manifest.formatVersion} " ++
        s!"(expected {snapshotFormatVersion})")
    else
      let created := catalog.createIndex index (some parsed.mapping) parsed.settings parsed.aliases
      return (parsed.manifest.docCount, indexDocuments created index parsed.documents)

end Restoring

end Surch.Snapshot
