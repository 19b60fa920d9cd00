import Surch.Lib.SortedMap
import Surch.Lib.Window
import Surch.Postings.CursorAgreement
import Mathlib.Data.Rat.Defs
import Mathlib.Algebra.Order.Ring.Rat
import Mathlib.Order.WithBot

/-! `surch_search::maxscore`: the collector of a disjunction that skips what its thresholds rule
out, in exact rationals, and the linear walk its tests compare it with. -/
namespace Surch.Search
open Surch.Lib Surch.Codec Surch.Postings

abbrev Scored := SortedMap Nat ℚ

/-- `scored_pair_ordering`: the higher score first, then the lower identifier. -/
def scoredPairOrdering (a b : ℚ × Nat) : Ordering := (compare b.1 a.1).then (compare a.2 b.2)

/- The pairs of a collected map, sorted by `scored_pair_ordering` and cut at the limit. -/
def topPairs (limit : Nat) (scored : Scored) : List (ℚ × Nat) :=
  Window.front (fun a b => (scoredPairOrdering a b).isLE) limit (scored.entries.map Prod.swap)

structure MinCompetitiveScore where
  kthBest : Option ℚ
deriving DecidableEq

namespace MinCompetitiveScore

def unset : MinCompetitiveScore := { kthBest := none }

def observeKthBest (_ : MinCompetitiveScore) (kthBestScore : ℚ) : MinCompetitiveScore :=
  { kthBest := some kthBestScore }

def admits (minCompetitive : MinCompetitiveScore) (scoreUpperBound : ℚ) : Bool :=
  match minCompetitive.kthBest with
  | none => true
  | some kthBest => scoreUpperBound > kthBest

end MinCompetitiveScore

structure MaxScoreToken where
  docIds : List Nat
  freqs : List Nat
  blockMaxContribs : List ℚ
  maxContrib : ℚ
deriving DecidableEq

inductive MaxScoreError where
  | blockMetaMisaligned (token got expected : Nat)
  | blockSkip (err : PostingsBlockError)
deriving DecidableEq

structure MaxScoreOutcome where
  scored : Scored
  blocksSkipped : Nat
  earlyTerminated : Bool

structure SingleTokenGate where
  limit : Nat
  bound : ℚ
  atBound : Nat
  minCompetitive : MinCompetitiveScore
deriving DecidableEq

namespace SingleTokenGate

def new (limit : Nat) (bound : ℚ) : SingleTokenGate :=
  { limit, bound, atBound := 0, minCompetitive := .unset }

def observe (gate : SingleTokenGate) (score : ℚ) : SingleTokenGate :=
  if gate.limit = 0 ∨ score < gate.bound then gate
  else
    let gate := { gate with atBound := gate.atBound + 1 }
    if gate.atBound ≥ gate.limit then
      { gate with minCompetitive := gate.minCompetitive.observeKthBest gate.bound }
    else gate

def admits (gate : SingleTokenGate) (upperBound : ℚ) : Bool := gate.minCompetitive.admits upperBound

end SingleTokenGate

structure TokenWalk where
  blocksSkipped : Nat
  earlyTerminated : Bool
deriving DecidableEq

/- What a token's walk changes: the collected scores and the gate of a single token. -/
structure Collector where
  scored : Scored
  live : Option SingleTokenGate

structure MaxScoreExecutor where
  limit : Nat
  earlyTermination : Bool
deriving DecidableEq

def buildSkipList (docIds : List Nat) : Except PostingsBlockError (Option BlockSkipList) :=
  if docIds.length ≤ blockSize then .ok none
  else (BlockSkipList.fromBlockRanges (blockSkipEntries docIds)).map some

def seekBlock (skipList : BlockSkipList) (target fromBlock : Nat) : Nat :=
  match (BlockSkipCursor.resume skipList fromBlock).advanceTo target with
  | (some entry, _) => entry.blockIndex
  | (none, _) => skipList.bottom.length

/- One turn of the scoring loop. A document that is already scored is always updated. -/
def scorePosting (score : Nat → Nat → Option ℚ) (allowNewDocs : Bool) (collector : Collector)
    (posting : Nat × Nat) : Collector :=
  let (docId, tf) := posting
  if tf = 0 then collector
  else if collector.scored.get? docId = none ∧ allowNewDocs = false then collector
  else
    match score docId tf with
    | none => collector
    | some contrib =>
      let finalScore := (collector.scored.get? docId).getD 0 + contrib
      { scored := collector.scored.upsert docId fun _ => finalScore
        live := collector.live.map fun live => live.observe finalScore }

namespace MaxScoreToken

def postings (token : MaxScoreToken) : List (Nat × Nat) := token.docIds.zip token.freqs

def numBlocks (token : MaxScoreToken) : Nat := token.blockMaxContribs.length

def blockDocIds (token : MaxScoreToken) (blockIdx : Nat) : List Nat :=
  (token.docIds.drop (blockIdx * blockSize)).take blockSize

def blockFreqs (token : MaxScoreToken) (blockIdx : Nat) : List Nat :=
  (token.freqs.drop (blockIdx * blockSize)).take blockSize

end MaxScoreToken

/- The first scored document of `range(low..=high)`, and of `range(low..)`. -/
def firstScored (scored : Scored) (low high : Nat) : Option Nat :=
  scored.keys.find? fun docId => low ≤ docId ∧ docId ≤ high

def nextScored (scored : Scored) (low : Nat) : Option Nat :=
  scored.keys.find? fun docId => low ≤ docId

/- `run_token` from a block on. The identifiers are 32 bits wide, and so is the addition. -/
def runToken (score : Nat → Nat → Option ℚ) (token : MaxScoreToken)
    (skipList : Option BlockSkipList) (allowNewDocsBetweenTokens : Bool) (threshold : WithBot ℚ)
    (blockIdx blocksSkipped : Nat) (collector : Collector) : TokenWalk × Collector :=
  if more : blockIdx < token.numBlocks then
    let allowNewDocs :=
      match collector.live with
      | some live => live.admits token.maxContrib
      | none => allowNewDocsBetweenTokens
    if collector.live.isSome = true ∧ allowNewDocs = false then
      ({ blocksSkipped := blocksSkipped + (token.numBlocks - blockIdx), earlyTerminated := true },
        collector)
    else
      let blockDocIds := token.blockDocIds blockIdx
      let blockFreqs := token.blockFreqs blockIdx
      match blockDocIds with
      | [] =>
        runToken score token skipList allowNewDocsBetweenTokens threshold (blockIdx + 1)
          blocksSkipped collector
      | blockFirst :: rest =>
        let blockMax := token.blockMaxContribs[blockIdx]
        let blockLast := (blockFirst :: rest).getLast (List.cons_ne_nil _ _)
        if allowNewDocs = false ∧ (blockMax : WithBot ℚ) ≤ threshold ∧
            firstScored collector.scored blockFirst blockLast = none then
          match nextScored collector.scored ((blockLast + 1) % 2 ^ 32) with
          | none => ({ blocksSkipped, earlyTerminated := false }, collector)
          | some target =>
            let sought :=
              match skipList with
              | some list => seekBlock list target blockIdx
              | none => blockIdx + 1
            let targetBlock := min (max sought (blockIdx + 1)) token.numBlocks
            runToken score token skipList allowNewDocsBetweenTokens threshold targetBlock
              (blocksSkipped + (targetBlock - (blockIdx + 1))) collector
        else
          runToken score token skipList allowNewDocsBetweenTokens threshold (blockIdx + 1)
            blocksSkipped
            ((blockDocIds.zip blockFreqs).foldl (scorePosting score allowNewDocs) collector)
  else ({ blocksSkipped, earlyTerminated := false }, collector)
termination_by token.numBlocks - blockIdx
decreasing_by all_goals omega

/- The K-th best of the collected scores: what `select_nth_unstable_by` leaves at `len - limit`. -/
def kthBestScore (limit : Nat) (scored : Scored) : ℚ :=
  let values := scored.entries.map Prod.snd
  (values.mergeSort fun a b => a ≤ b).getD (values.length - limit) 0

def refreshThreshold (limit : Nat) (scored : Scored) (threshold : WithBot ℚ) : WithBot ℚ :=
  if scored.entries.length ≥ limit ∧ limit > 0 then (kthBestScore limit scored : WithBot ℚ)
  else threshold

def orderedTokens (tokens : List MaxScoreToken) : List (MaxScoreToken × Nat) :=
  tokens.zipIdx.mergeSort fun a b => b.1.maxContrib ≤ a.1.maxContrib

structure RunState where
  collector : Collector
  threshold : WithBot ℚ
  blocksSkipped : Nat
  earlyTerminated : Bool

namespace MaxScoreExecutor

def new (limit : Nat) : MaxScoreExecutor := { limit, earlyTermination := true }

def prepare (token : MaxScoreToken) (tokenIdx : Nat) :
    Except MaxScoreError (Option BlockSkipList) :=
  let expected := (token.docIds.length + blockSize - 1) / blockSize
  if token.blockMaxContribs.length ≠ expected then
    .error (.blockMetaMisaligned tokenIdx token.blockMaxContribs.length expected)
  else
    match buildSkipList token.docIds with
    | .error err => .error (.blockSkip err)
    | .ok skipList => .ok skipList

def runOne (executor : MaxScoreExecutor) (scoreDoc : Nat → Nat → Nat → Option ℚ)
    (skipLists : List (Option BlockSkipList)) (state : RunState) (item : MaxScoreToken × Nat) :
    RunState :=
  let (token, tokenIdx) := item
  let allowNewDocs := decide (state.threshold ≤ (token.maxContrib : WithBot ℚ))
  let (walk, collector) := runToken (scoreDoc tokenIdx) token (skipLists.getD tokenIdx none)
    allowNewDocs state.threshold 0 0 state.collector
  { collector
    threshold := refreshThreshold executor.limit collector.scored state.threshold
    blocksSkipped := state.blocksSkipped + walk.blocksSkipped
    earlyTerminated := state.earlyTerminated || walk.earlyTerminated }

/- The live gate is armed for a single token only. -/
def initialState (executor : MaxScoreExecutor) (tokens : List MaxScoreToken) : RunState :=
  let live :=
    if executor.earlyTermination = true ∧ tokens.length = 1 then
      tokens.head?.map fun token => SingleTokenGate.new executor.limit token.maxContrib
    else none
  { collector := { scored := .empty, live }
    threshold := ⊥
    blocksSkipped := 0
    earlyTerminated := false }

def run (executor : MaxScoreExecutor) (tokens : List MaxScoreToken)
    (scoreDoc : Nat → Nat → Nat → Option ℚ) : Except MaxScoreError MaxScoreOutcome := do
  let skipLists ← tokens.zipIdx.mapM fun item => prepare item.1 item.2
  let state := (orderedTokens tokens).foldl (executor.runOne scoreDoc skipLists)
    (executor.initialState tokens)
  return {
    scored := state.collector.scored
    blocksSkipped := state.blocksSkipped
    earlyTerminated := state.earlyTerminated }

end MaxScoreExecutor

def linearBlock (score : Nat → Nat → Option ℚ) (token : MaxScoreToken) (allowNewDocs : Bool)
    (threshold : WithBot ℚ) (scored : Scored) (block : (List Nat × List Nat) × Nat) : Scored :=
  let ((docIdBlock, freqBlock), blockIdx) := block
  match docIdBlock with
  | [] => scored
  | blockFirst :: rest =>
    let blockMax := token.blockMaxContribs.getD blockIdx 0
    let blockLast := (blockFirst :: rest).getLast (List.cons_ne_nil _ _)
    if allowNewDocs = false ∧ (blockMax : WithBot ℚ) < threshold ∧
        firstScored scored blockFirst blockLast = none then scored
    else
      ((docIdBlock.zip freqBlock).foldl (scorePosting score allowNewDocs)
        { scored, live := none }).scored

def linearToken (limit : Nat) (scoreDoc : Nat → Nat → Nat → Option ℚ)
    (state : Scored × WithBot ℚ) (item : MaxScoreToken × Nat) : Scored × WithBot ℚ :=
  let (token, tokenIdx) := item
  let allowNewDocs := decide (state.2 ≤ (token.maxContrib : WithBot ℚ))
  let blocks := (chunks blockSize token.docIds).zip (chunks blockSize token.freqs)
  let scored := blocks.zipIdx.foldl
    (linearBlock (scoreDoc tokenIdx) token allowNewDocs state.2) state.1
  (scored, refreshThreshold limit scored state.2)

/-- `linear_reference`: every block is visited, and only passed over below the threshold. -/
def linearReference (tokens : List MaxScoreToken) (limit : Nat)
    (scoreDoc : Nat → Nat → Nat → Option ℚ) : Scored :=
  ((orderedTokens tokens).foldl (linearToken limit scoreDoc) (.empty, ⊥)).1

end Surch.Search
