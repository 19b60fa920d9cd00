import Mathlib.Data.String.Basic
import Surch.Lib.SortedMap

/-! `PostingsBuilder`: postings are pushed term by term in any order and put in shape, sorted by
document and with one posting per document, when the dictionary is built. -/
namespace Surch.Postings
open Surch.Lib

structure Posting where
  docId : Nat
  freq : Nat
deriving DecidableEq, Repr

/- No position counts as one occurrence; the count is narrowed to `u32`. -/
def freqFromPositions (positions : List Nat) : Nat :=
  if positions.isEmpty then 1 else positions.length % 2 ^ 32

/- The code points of the White_Space property, which `str::trim` strips. -/
def isWhitespace (c : Char) : Bool :=
  let n := c.toNat
  (0x09 ≤ n && n ≤ 0x0d) || n == 0x20 || n == 0x85 || n == 0xa0 || n == 0x1680 ||
    (0x2000 ≤ n && n ≤ 0x200a) || n == 0x2028 || n == 0x2029 || n == 0x202f || n == 0x205f ||
    n == 0x3000

def isBlank (s : String) : Bool := s.toList.all isWhitespace

inductive PostingsError where
  | emptyField
  | emptyTerm
deriving DecidableEq, Repr

/- The arguments of one `add` call; a document identifier is a `u32`. -/
structure Addition where
  field : String
  term : String
  docId : Nat
  positions : List Nat
  docId_fits : docId < 2 ^ 32

theorem zero_fits : 0 < 2 ^ 32 := by decide

abbrev FieldTerms := SortedMap String (List Posting)

structure PostingsBuilder where
  fields : SortedMap String FieldTerms
deriving DecidableEq

namespace PostingsBuilder

def new : PostingsBuilder := ⟨.empty⟩

def push (builder : PostingsBuilder) (field term : String) (posting : Posting) : PostingsBuilder :=
  ⟨builder.fields.upsert field fun terms =>
    (terms.getD .empty).upsert term fun postings => postings.getD [] ++ [posting]⟩

def add (builder : PostingsBuilder) (field term : String) (docId : Nat) (positions : List Nat) :
    Except PostingsError PostingsBuilder :=
  if isBlank field then .error .emptyField
  else if isBlank term then .error .emptyTerm
  else .ok (builder.push field term ⟨docId, freqFromPositions positions⟩)

def addAll (builder : PostingsBuilder) (additions : List Addition) : PostingsBuilder :=
  additions.foldl
    (fun builder a => (builder.add a.field a.term a.docId a.positions).toOption.getD builder)
    builder

end PostingsBuilder

/- `sort_by_key` on the identifier; it is stable, as insertion from the right is. -/
def sortByDocId (postings : List Posting) : List Posting :=
  postings.insertionSort fun a b => a.docId ≤ b.docId

def saturatingAddU32 (a b : Nat) : Nat := min (a + b) (2 ^ 32 - 1)

/- The merge loop, with the posting under the write index at hand. -/
def dedupFrom (write : Posting) : List Posting → List Posting
  | [] => [write]
  | read :: rest =>
    if read.docId = write.docId then
      dedupFrom { write with freq := saturatingAddU32 write.freq read.freq } rest
    else write :: dedupFrom read rest

def dedupMergePostings : List Posting → List Posting
  | [] => []
  | first :: rest => dedupFrom first rest

def settle (postings : List Posting) : List Posting := dedupMergePostings (sortByDocId postings)

theorem mem_sortByDocId {postings : List Posting} {p : Posting} :
    p ∈ sortByDocId postings ↔ p ∈ postings :=
  (List.perm_insertionSort _ _).mem_iff

theorem sortByDocId_sorted (postings : List Posting) :
    (sortByDocId postings).Pairwise fun a b => a.docId ≤ b.docId := by
  have total : Std.Total fun a b : Posting => a.docId ≤ b.docId :=
    ⟨fun a b => Nat.le_total a.docId b.docId⟩
  have transitive : IsTrans Posting fun a b => a.docId ≤ b.docId := ⟨fun _ _ _ => Nat.le_trans⟩
  exact List.pairwise_insertionSort _ postings

theorem dedupFrom_docIds (write : Posting) (postings : List Posting) :
    ∀ d ∈ (dedupFrom write postings).map Posting.docId,
      d = write.docId ∨ d ∈ postings.map Posting.docId := by
  induction postings generalizing write with
  | nil => simp [dedupFrom]
  | cons read rest ih =>
    intro d member
    rw [dedupFrom] at member
    rw [List.map_cons, List.mem_cons]
    split at member
    · rcases ih _ d member with here | later
      · exact .inl here
      · exact .inr (.inr later)
    · rcases List.mem_cons.mp member with here | member
      · exact .inl here
      · exact .inr (ih read d member)

theorem dedupFrom_increasing {write : Posting} {postings : List Posting}
    (sorted : (write :: postings).Pairwise fun a b => a.docId ≤ b.docId) :
    ((dedupFrom write postings).map Posting.docId).Pairwise (· < ·) := by
  induction postings generalizing write with
  | nil => exact List.pairwise_singleton _ _
  | cons read rest ih =>
    obtain ⟨above, tail⟩ := List.pairwise_cons.mp sorted
    rw [dedupFrom]
    split
    · rename_i same
      refine ih (List.pairwise_cons.mpr ⟨?_, (List.pairwise_cons.mp tail).2⟩)
      intro p member
      exact above p (List.mem_cons_of_mem _ member)
    · rename_i distinct
      have step : write.docId < read.docId := by
        have := above read List.mem_cons_self
        omega
      rw [List.map_cons, List.pairwise_cons]
      refine ⟨?_, ih tail⟩
      intro d member
      rcases dedupFrom_docIds read rest d member with rfl | later
      · exact step
      · obtain ⟨p, inside, rfl⟩ := List.mem_map.mp later
        exact step.trans_le ((List.pairwise_cons.mp tail).1 p inside)

theorem dedupFrom_freqs (write : Posting) (postings : List Posting) (small : write.freq < 2 ^ 32)
    (fit : ∀ p ∈ postings, p.freq < 2 ^ 32) : ∀ p ∈ dedupFrom write postings, p.freq < 2 ^ 32 := by
  induction postings generalizing write with
  | nil => simpa [dedupFrom] using small
  | cons read rest ih =>
    have later : ∀ p ∈ rest, p.freq < 2 ^ 32 := fun p member => fit p (List.mem_cons_of_mem _ member)
    rw [dedupFrom]
    split
    · refine ih _ ?_ later
      simp only [saturatingAddU32]
      omega
    · intro p member
      rcases List.mem_cons.mp member with rfl | member
      · exact small
      · exact ih read (fit read List.mem_cons_self) later p member

theorem dedupFrom_ne_nil (write : Posting) (postings : List Posting) :
    dedupFrom write postings ≠ [] := by
  induction postings generalizing write with
  | nil => simp [dedupFrom]
  | cons read rest ih =>
    rw [dedupFrom]
    split
    · exact ih _
    · simp

theorem settle_eq_nil_iff (postings : List Posting) : settle postings = [] ↔ postings = [] := by
  have empty : sortByDocId postings = [] ↔ postings = [] :=
    ⟨fun h => List.perm_nil.mp (h ▸ (List.perm_insertionSort _ postings).symm), fun h => by
      rw [h]
      rfl⟩
  rw [← empty, settle]
  cases sortByDocId postings with
  | nil => simp [dedupMergePostings]
  | cons first rest => simp [dedupMergePostings, dedupFrom_ne_nil]

theorem settle_increasing (postings : List Posting) :
    ((settle postings).map Posting.docId).Pairwise (· < ·) := by
  have sorted := sortByDocId_sorted postings
  rw [settle]
  cases shape : sortByDocId postings with
  | nil => exact .nil
  | cons first rest =>
    rw [shape] at sorted
    exact dedupFrom_increasing sorted

theorem mem_settle_docIds {postings : List Posting} {d : Nat}
    (member : d ∈ (settle postings).map Posting.docId) : d ∈ postings.map Posting.docId := by
  have back : ∀ x ∈ (sortByDocId postings).map Posting.docId, x ∈ postings.map Posting.docId := by
    intro x inside
    obtain ⟨p, here, rfl⟩ := List.mem_map.mp inside
    exact List.mem_map.mpr ⟨p, mem_sortByDocId.mp here, rfl⟩
  apply back
  rw [settle] at member
  cases shape : sortByDocId postings with
  | nil =>
    rw [shape] at member
    cases member
  | cons first rest =>
    rw [shape] at member
    rcases dedupFrom_docIds first rest d member with rfl | later
    · exact List.mem_cons_self
    · exact List.mem_cons_of_mem _ later

theorem settle_freqs {postings : List Posting} (fit : ∀ p ∈ postings, p.freq < 2 ^ 32) :
    ∀ p ∈ settle postings, p.freq < 2 ^ 32 := by
  have sorted : ∀ p ∈ sortByDocId postings, p.freq < 2 ^ 32 := fun p member =>
    fit p (mem_sortByDocId.mp member)
  rw [settle]
  cases shape : sortByDocId postings with
  | nil => simp [dedupMergePostings]
  | cons first rest =>
    rw [shape] at sorted
    exact dedupFrom_freqs first rest (sorted first List.mem_cons_self) fun p member =>
      sorted p (List.mem_cons_of_mem _ member)

section Append

def Before (first second : List Posting) : Prop :=
  ∀ a ∈ first, ∀ b ∈ second, a.docId < b.docId

theorem orderedInsert_append (a : Posting) (first second : List Posting)
    (below : ∀ b ∈ second, a.docId ≤ b.docId) :
    (first ++ second).orderedInsert (fun a b => a.docId ≤ b.docId) a =
      first.orderedInsert (fun a b => a.docId ≤ b.docId) a ++ second := by
  induction first with
  | nil =>
    cases second with
    | nil => rfl
    | cons b second =>
      rw [List.nil_append, List.orderedInsert_cons, if_pos (below b List.mem_cons_self)]
      rfl
  | cons b first ih =>
    rw [List.cons_append, List.orderedInsert_cons, List.orderedInsert_cons, ih]
    split <;> rfl

theorem sortByDocId_append {first second : List Posting} (before : Before first second) :
    sortByDocId (first ++ second) = sortByDocId first ++ sortByDocId second := by
  induction first with
  | nil => rfl
  | cons a first ih =>
    have rest := ih fun x member => before x (List.mem_cons_of_mem _ member)
    rw [List.cons_append, sortByDocId, List.insertionSort_cons, ← sortByDocId, rest,
      orderedInsert_append]
    · rfl
    · intro b member
      exact (before a List.mem_cons_self b (mem_sortByDocId.mp member)).le

theorem dedupFrom_append (write : Posting) (first second : List Posting)
    (before : Before (write :: first) second) :
    dedupFrom write (first ++ second) = dedupFrom write first ++ dedupMergePostings second := by
  induction first generalizing write with
  | nil =>
    cases second with
    | nil => rfl
    | cons b second =>
      have apart := before write List.mem_cons_self b List.mem_cons_self
      have distinct : b.docId ≠ write.docId := apart.ne'
      simp [dedupFrom, dedupMergePostings, distinct]
  | cons read rest ih =>
    have here := before write List.mem_cons_self
    have tail : Before (read :: rest) second := fun a member =>
      before a (List.mem_cons_of_mem _ member)
    rw [List.cons_append, dedupFrom, dedupFrom]
    split
    · apply ih
      intro a member b later
      rcases List.mem_cons.mp member with rfl | member
      · exact here b later
      · exact tail a (List.mem_cons_of_mem _ member) b later
    · rw [ih read tail]
      rfl

/-- Lists over ascending ranges of documents are settled one by one. -/
theorem settle_append {first second : List Posting} (before : Before first second) :
    settle (first ++ second) = settle first ++ settle second := by
  have sorted_before : Before (sortByDocId first) (sortByDocId second) := fun a ha b hb =>
    before a (mem_sortByDocId.mp ha) b (mem_sortByDocId.mp hb)
  rw [settle, settle, settle, sortByDocId_append before]
  cases shape : sortByDocId first with
  | nil => rfl
  | cons a rest =>
    rw [shape] at sorted_before
    exact dedupFrom_append a rest _ sorted_before

theorem settle_flatten (groups : List (List Posting)) (ascending : groups.Pairwise Before) :
    settle groups.flatten = groups.flatMap settle := by
  induction groups with
  | nil => rfl
  | cons group groups ih =>
    obtain ⟨below, tail⟩ := List.pairwise_cons.mp ascending
    rw [List.flatten_cons, List.flatMap_cons, settle_append, ih tail]
    intro a here b member
    obtain ⟨other, inside, hb⟩ := List.mem_flatten.mp member
    exact below other inside a here b hb

theorem settle_of_increasing {postings : List Posting}
    (increasing : (postings.map Posting.docId).Pairwise (· < ·)) : settle postings = postings := by
  have ascending : (postings.map fun p => [p]).Pairwise Before := by
    rw [List.pairwise_map] at increasing ⊢
    refine increasing.imp ?_
    intro p q below a first b second
    rw [List.mem_singleton.mp first, List.mem_singleton.mp second]
    exact below
  have flat : (postings.map fun p => [p]).flatten = postings := by
    rw [← List.flatMap_def, List.flatMap_singleton']
  have alone : ∀ p : Posting, settle [p] = [p] := fun _ => rfl
  have settled := settle_flatten _ ascending
  rw [flat, List.flatMap_map] at settled
  rw [settled]
  simp only [alone]
  exact List.flatMap_singleton' postings

end Append

/-- The postings of one document become one, with as many occurrences as there are. -/
theorem dedupFrom_replicate (docId freq count : Nat) (fits : freq + count < 2 ^ 32) :
    dedupFrom ⟨docId, freq⟩ (List.replicate count ⟨docId, 1⟩) = [⟨docId, freq + count⟩] := by
  induction count generalizing freq with
  | zero => rfl
  | succ count ih =>
    have room : freq + 1 + count < 2 ^ 32 := by omega
    have exact_sum : saturatingAddU32 freq 1 = freq + 1 := min_eq_left (by omega)
    rw [List.replicate_succ, dedupFrom, if_pos rfl]
    dsimp only
    rw [exact_sum, ih (freq + 1) room, Nat.add_assoc, Nat.add_comm 1 count]

theorem settle_replicate (docId count : Nat) (fits : count + 1 < 2 ^ 32) :
    settle (List.replicate (count + 1) ⟨docId, 1⟩) = [⟨docId, count + 1⟩] := by
  have sorted : sortByDocId (List.replicate (count + 1) ⟨docId, 1⟩) =
      List.replicate (count + 1) ⟨docId, 1⟩ :=
    List.Pairwise.insertionSort_eq (List.pairwise_replicate.mpr (.inr le_rfl))
  rw [settle, sorted, List.replicate_succ, dedupMergePostings,
    dedupFrom_replicate docId 1 count (by omega), Nat.add_comm]

end Surch.Postings
