import Surch.Postings.Builder

/-! Token streams of the built-in analyzers. The tables of the Unicode standard are a parameter;
everything else follows the analyzers' own loops. -/
namespace Surch.Index
open Surch.Lib Surch.Postings

/- What the analyzers take from the Unicode tables: character classes, the lowercase of a string,
the canonical decomposition of a character and the combining marks. -/
structure Unicode where
  isAlphanumeric : Char → Bool
  isAlphabetic : Char → Bool
  toLowercase : String → String
  nfd : Char → List Char
  isCombiningMark : Char → Bool

/- The tables restricted to ASCII, where no character decomposes. -/
def Unicode.ascii : Unicode where
  isAlphanumeric c := c.isAlphanum
  isAlphabetic c := c.isAlpha
  toLowercase s := s.map Char.toLower
  nfd c := [c]
  isCombiningMark _ := false

structure Token where
  term : String
  startOffset : Nat
  endOffset : Nat
  positionIncrement : Nat
deriving DecidableEq, Repr

def englishStopWords : List String :=
  ["a", "an", "and", "are", "as", "at", "be", "but", "by", "for", "if", "in", "into", "is", "it",
    "no", "not", "of", "on", "or", "such", "that", "the", "their", "then", "there", "these",
    "they", "this", "to", "was", "will", "with"]

/- The loop of the splitting analyzers. `opened` is the token being collected: its start and its
characters; offsets count bytes. -/
def splitFrom (inside : Char → Bool) (finish : String → String) :
    (offset : Nat) → (opened : Option (Nat × List Char)) → List Char → List Token
  | _, none, [] => []
  | offset, some (startOffset, characters), [] =>
    [⟨finish (String.ofList characters), startOffset, offset, 1⟩]
  | offset, none, c :: rest =>
    splitFrom inside finish (offset + c.utf8Size) (if inside c then some (offset, [c]) else none) rest
  | offset, some (startOffset, characters), c :: rest =>
    if inside c then
      splitFrom inside finish (offset + c.utf8Size) (some (startOffset, characters ++ [c])) rest
    else
      ⟨finish (String.ofList characters), startOffset, offset, 1⟩ ::
        splitFrom inside finish (offset + c.utf8Size) none rest

def splitTokens (inside : Char → Bool) (finish : String → String) (text : String) : List Token :=
  splitFrom inside finish 0 none text.toList

/- The loop of `stop_filter`: positions of dropped words pass to the next kept one. -/
def stopFilterFrom (stopWords : List String) : (skippedPositions : Nat) → List Token → List Token
  | _, [] => []
  | skippedPositions, token :: rest =>
    if stopWords.contains token.term then
      stopFilterFrom stopWords ((skippedPositions + token.positionIncrement) % 2 ^ 32) rest
    else
      { token with
        positionIncrement := (token.positionIncrement + skippedPositions) % 2 ^ 32 } ::
        stopFilterFrom stopWords 0 rest

def stopFilter (tokens : List Token) (stopWords : List String) : List Token :=
  stopFilterFrom stopWords 0 tokens

def wholeToken (finish : String → String) (text : String) : List Token :=
  if text.isEmpty then [] else [⟨finish text, 0, text.utf8ByteSize, 1⟩]

def keywordTokens (text : String) : List Token := wholeToken id text

def whitespaceTokens (text : String) : List Token := splitTokens (fun c => !isWhitespace c) id text

def asciifoldOverride (input : Char) : Option String :=
  match input with
  | 'Æ' => some "AE"
  | 'æ' => some "ae"
  | 'Œ' => some "OE"
  | 'œ' => some "oe"
  | 'Ĳ' => some "IJ"
  | 'ĳ' => some "ij"
  | 'ß' => some "ss"
  | 'ẞ' => some "SS"
  | 'Ł' => some "L"
  | 'ł' => some "l"
  | 'Đ' | 'Ð' => some "D"
  | 'đ' | 'ð' => some "d"
  | 'Ø' => some "O"
  | 'ø' => some "o"
  | 'Þ' => some "TH"
  | 'þ' => some "th"
  | 'Ħ' => some "H"
  | 'ħ' => some "h"
  | 'Ŧ' => some "T"
  | 'ŧ' => some "t"
  | 'Ŀ' => some "L"
  | 'ŀ' => some "l"
  | 'ı' => some "i"
  | 'Ŋ' => some "N"
  | 'ŋ' => some "n"
  | 'Ə' => some "E"
  | 'ə' => some "e"
  | '«' | '»' => some "\""
  | '“' | '”' | '„' => some "\""
  | '‘' | '’' | '‚' => some "'"
  | '–' | '—' => some "-"
  | _ => none

namespace Unicode

variable (unicode : Unicode)

def asciifoldString (input : String) : String :=
  String.ofList <| input.toList.flatMap fun character =>
    match asciifoldOverride character with
    | some replacement => replacement.toList
    | none => (unicode.nfd character).filter fun decomposed => !unicode.isCombiningMark decomposed

def standardTokens (text : String) : List Token :=
  splitTokens unicode.isAlphanumeric unicode.toLowercase text

def simpleTokens (text : String) : List Token :=
  splitTokens unicode.isAlphabetic unicode.toLowercase text

def stopTokens (text : String) : List Token :=
  stopFilter (unicode.simpleTokens text) englishStopWords

def normTokens (text : String) : List Token :=
  (unicode.standardTokens text).map fun token =>
    { token with term := unicode.asciifoldString token.term }

def normalizerTokens (text : String) : List Token :=
  wholeToken (fun whole => unicode.toLowercase (unicode.asciifoldString whole)) text

def rawAlphanumericTokens (text : String) : List Token :=
  splitTokens unicode.isAlphanumeric id text

def edgeNgramTokens (minGram maxGram : Nat) (text : String) : List Token :=
  if minGram = 0 ∨ maxGram < minGram then []
  else
    (unicode.rawAlphanumericTokens text).flatMap fun base =>
      let characters := base.term.toList
      let upper := min maxGram characters.length
      (List.range' minGram (upper + 1 - minGram)).map fun k =>
        let term := String.ofList (characters.take k)
        ⟨term, base.startOffset, base.startOffset + term.utf8ByteSize, 1⟩

end Unicode

inductive FieldType where
  | text
  | keyword
  | integer
  | long
  | short
  | byte
  | float
  | double
  | boolean
  | date
  | geoPoint
  | object
  | array
  | unknown
deriving DecidableEq, Repr

inductive AnalyzerName where
  | standard
  | simple
  | stop
  | keyword
  | whitespace
  | norm
deriving DecidableEq, Repr

namespace AnalyzerName

def tokenStream (unicode : Unicode) (analyzer : AnalyzerName) (text : String) : List Token :=
  match analyzer with
  | .standard => unicode.standardTokens text
  | .simple => unicode.simpleTokens text
  | .stop => unicode.stopTokens text
  | .keyword => keywordTokens text
  | .whitespace => whitespaceTokens text
  | .norm => unicode.normTokens text

def terms (unicode : Unicode) (analyzer : AnalyzerName) (text : String) : List String :=
  (analyzer.tokenStream unicode text).map Token.term

def fromName (unicode : Unicode) (value : String) : Option AnalyzerName :=
  match unicode.toLowercase value with
  | "standard" => some .standard
  | "simple" => some .simple
  | "stop" => some .stop
  | "keyword" => some .keyword
  | "whitespace" => some .whitespace
  | "norm" => some .norm
  | _ => none

def defaultFor : FieldType → AnalyzerName
  | .text => .simple
  | _ => .keyword

end AnalyzerName

/- Characters `k` of a token that are written as prefixes: from `minChars` to `maxChars`. -/
structure FieldPrefixes where
  minChars : Nat
  maxChars : Nat
deriving DecidableEq, Repr

/- A field's mapping; `fields` are the sub-fields, in map order. -/
structure FieldMapping where
  fieldType : FieldType
  analyzerName : Option AnalyzerName
  customAnalyzer : Option String
  searchAnalyzer : Option AnalyzerName
  customSearchAnalyzer : Option String
  norms : Option Bool
  normalizer : Option AnalyzerName
  indexPrefixes : Option FieldPrefixes
  dateFormat : Option String
  fields : List (String × FieldMapping)

namespace FieldMapping

def new (fieldType : FieldType) (analyzer : Option AnalyzerName) : FieldMapping where
  fieldType := fieldType
  analyzerName := analyzer
  customAnalyzer := none
  searchAnalyzer := none
  customSearchAnalyzer := none
  norms := none
  normalizer := none
  indexPrefixes := none
  dateFormat := none
  fields := []

def analyzer (mapping : FieldMapping) : AnalyzerName :=
  mapping.analyzerName.getD (AnalyzerName.defaultFor mapping.fieldType)

def normsEnabled (mapping : FieldMapping) : Bool :=
  mapping.norms.getD (mapping.fieldType == .text)

end FieldMapping

structure EdgeNgramTokenizerDefinition where
  minGram : Nat
  maxGram : Nat
  tokenChars : List String
deriving DecidableEq, Repr

structure AnalyzerDefinition where
  tokenizer : String
  filter : List String
deriving DecidableEq, Repr

structure NormalizerDefinition where
  kind : String
  filter : List String
deriving DecidableEq, Repr

structure AnalysisSettings where
  tokenizers : SortedMap String EdgeNgramTokenizerDefinition
  analyzers : SortedMap String AnalyzerDefinition
  normalizers : SortedMap String NormalizerDefinition

def AnalysisSettings.default : AnalysisSettings := ⟨.empty, .empty, .empty⟩

inductive ResolvedAnalyzer where
  | builtin (name : AnalyzerName)
  | edgeNgram (minGram maxGram : Nat) (lowercase asciifold : Bool)
deriving DecidableEq, Repr

def eqIgnoreAsciiCase (a b : String) : Bool := a.map Char.toLower == b.map Char.toLower

def AnalysisSettings.resolveAnalyzer (unicode : Unicode) (analysis : AnalysisSettings)
    (name : String) : Option ResolvedAnalyzer :=
  match AnalyzerName.fromName unicode name with
  | some builtin => some (.builtin builtin)
  | none => do
    let definition ← analysis.analyzers.get? name
    let tokenizer ← analysis.tokenizers.get? definition.tokenizer
    return .edgeNgram tokenizer.minGram tokenizer.maxGram
      (definition.filter.any (eqIgnoreAsciiCase · "lowercase"))
      (definition.filter.any (eqIgnoreAsciiCase · "asciifolding"))

def ResolvedAnalyzer.terms (unicode : Unicode) (resolved : ResolvedAnalyzer) (text : String) :
    List String :=
  match resolved with
  | .builtin name => name.terms unicode text
  | .edgeNgram minGram maxGram lowercase asciifold =>
    (unicode.edgeNgramTokens minGram maxGram text).map fun token =>
      let term := if lowercase then unicode.toLowercase token.term else token.term
      if asciifold then unicode.asciifoldString term else term

structure IndexMapping where
  fields : SortedMap String FieldMapping
  analysis : AnalysisSettings

def IndexMapping.default : IndexMapping := ⟨.empty, .default⟩

def rsplitOnce (text : String) (separator : Char) : Option (String × String) :=
  let reversed := text.toList.reverse
  if separator ∈ reversed then
    some (String.ofList (reversed.dropWhile (· ≠ separator)).tail.reverse,
      String.ofList (reversed.takeWhile (· ≠ separator)).reverse)
  else none

namespace IndexMapping

variable (mapping : IndexMapping)

def analyzer (field : String) : AnalyzerName :=
  ((mapping.fields.get? field).map FieldMapping.analyzer).getD (AnalyzerName.defaultFor .text)

def normsEnabled (field : String) : Bool :=
  ((mapping.fields.get? field).map FieldMapping.normsEnabled).getD true

def resolveField (path : String) : Option FieldMapping :=
  match mapping.fields.get? path with
  | some field => some field
  | none => do
    let (parent, sub) ← rsplitOnce path '.'
    let fieldMapping ← mapping.fields.get? parent
    fieldMapping.fields.lookup sub

/- A custom name that cannot be resolved has no terms. -/
def customTerms (unicode : Unicode) (name value : String) : List String :=
  ((mapping.analysis.resolveAnalyzer unicode name).map fun resolved =>
    resolved.terms unicode value).getD []

def customSearchTermsForField (unicode : Unicode) (value field : String) : Option (List String) := do
  let fieldMapping ← mapping.resolveField field
  match fieldMapping.customSearchAnalyzer, fieldMapping.searchAnalyzer,
    fieldMapping.customAnalyzer with
  | some name, _, _ => some (mapping.customTerms unicode name value)
  | none, some builtin, _ => some (builtin.terms unicode value)
  | none, none, some name => some (mapping.customTerms unicode name value)
  | none, none, none => none

end IndexMapping

def normalizedTermsForField (unicode : Unicode) (value field : String) (mapping : IndexMapping) :
    List String :=
  (mapping.customSearchTermsForField unicode value field).getD
    ((mapping.analyzer field).terms unicode value)

/- A field value's distinct terms with their positions, in term order. -/
abbrev AnalyzedTerms := SortedMap String (List Nat)

/- The loop over a token stream: the position advances by each increment, in 32 bits. -/
def collectTerms : (position : Nat) → AnalyzedTerms → List Token → AnalyzedTerms
  | _, terms, [] => terms
  | position, terms, token :: rest =>
    let position := (position + token.positionIncrement) % 2 ^ 32
    collectTerms position
      (terms.upsert token.term fun positions =>
        positions.getD [] ++ [(position + (2 ^ 32 - 1)) % 2 ^ 32]) rest

def analyzedTerms (unicode : Unicode) (analyzer : AnalyzerName) (value : String) : AnalyzedTerms :=
  collectTerms 0 .empty (analyzer.tokenStream unicode value)

/- Terms of a resolved analyzer are numbered in emission order. -/
def enumeratedTerms (terms : List String) : AnalyzedTerms :=
  terms.zipIdx.foldl
    (fun collected (term, position) =>
      collected.upsert term fun positions => positions.getD [] ++ [position % 2 ^ 32])
    .empty

/- A keyword sub-field is one token, normalized or verbatim; an unknown custom analyzer falls back
to the built-in one. -/
def subfieldTerms (unicode : Unicode) (subMapping : FieldMapping) (value : String)
    (analysis : AnalysisSettings) : AnalyzedTerms :=
  if subMapping.fieldType = .keyword then
    collectTerms 0 .empty
      (match subMapping.normalizer with
      | some _ => unicode.normalizerTokens value
      | none => keywordTokens value)
  else
    match subMapping.customAnalyzer.bind (analysis.resolveAnalyzer unicode) with
    | some resolved => enumeratedTerms (resolved.terms unicode value)
    | none => analyzedTerms unicode subMapping.analyzer value

def lowestPositionTerm (analyzed : AnalyzedTerms) : Option String :=
  let lowest := analyzed.entries.filterMap fun (term, positions) =>
    positions.min?.map fun position => (position, term)
  (lowest.foldl
    (fun best candidate =>
      match best with
      | none => some candidate
      | some kept => if candidate.1 < kept.1 then some candidate else best)
    none).map Prod.snd

structure Document where
  docId : Nat
  fields : List (String × String)
  docId_fits : docId < 2 ^ 32

/- What the analysis of one document yields. The lengths are kept as the map they are collected
in: each field once. -/
structure AnalyzedDocument where
  docId : Nat
  postings : List (String × String × List Nat)
  prefixes : List (String × String)
  subfieldValues : List (String × String)
  fieldLengths : SortedMap String (Nat × Bool)
  docId_fits : docId < 2 ^ 32

def prefixTerms (prefixes : FieldPrefixes) (analyzed : AnalyzedTerms) : List String :=
  analyzed.keys.flatMap fun term =>
    let characters := term.toList
    let upper := min characters.length prefixes.maxChars
    if characters.length < prefixes.minChars then []
    else
      (List.range' prefixes.minChars (upper + 1 - prefixes.minChars)).map fun k =>
        String.ofList (characters.take k)

def subfieldPath (field subName : String) : String := field ++ "." ++ subName

def analyzeField (unicode : Unicode) (mapping : IndexMapping) (document : AnalyzedDocument)
    (field value : String) : AnalyzedDocument :=
  let fieldMapping := mapping.fields.get? field
  let analyzer := (fieldMapping.map FieldMapping.analyzer).getD (AnalyzerName.defaultFor .text)
  let normsEnabled := fieldMapping.all FieldMapping.normsEnabled
  let analyzed := analyzedTerms unicode analyzer value
  let tokenCount := (analyzed.entries.map fun entry => entry.2.length).sum
  let fieldLengths :=
    if tokenCount = 0 then document.fieldLengths
    else document.fieldLengths.upsert field fun previous =>
      let (docLen, fieldNormsEnabled) := previous.getD (0, normsEnabled)
      (docLen + tokenCount, fieldNormsEnabled || normsEnabled)
  let prefixes :=
    match fieldMapping.bind FieldMapping.indexPrefixes with
    | none => []
    | some bounds => (prefixTerms bounds analyzed).map fun term => (field, term)
  let subfields := ((fieldMapping.map FieldMapping.fields).getD []).map fun (subName, subMapping) =>
    (subfieldPath field subName, subfieldTerms unicode subMapping value mapping.analysis)
  { document with
    fieldLengths
    prefixes := document.prefixes ++ prefixes
    subfieldValues := document.subfieldValues ++ subfields.filterMap fun (path, terms) =>
      (lowestPositionTerm terms).map fun stored => (path, stored)
    postings := document.postings ++
      subfields.flatMap (fun (path, terms) =>
        terms.entries.map fun (term, positions) => (path, term, positions)) ++
      analyzed.entries.map fun (term, positions) => (field, term, positions) }

def analyzeDocument (unicode : Unicode) (mapping : IndexMapping) (document : Document) :
    AnalyzedDocument :=
  document.fields.foldl
    (fun analyzed (field, value) => analyzeField unicode mapping analyzed field value)
    { docId := document.docId
      postings := []
      prefixes := []
      subfieldValues := []
      fieldLengths := .empty
      docId_fits := document.docId_fits }

end Surch.Index
