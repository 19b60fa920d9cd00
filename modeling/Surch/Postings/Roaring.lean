import Mathlib.Data.Nat.Bitwise
import Surch.Lib.Meet

/-! The document set kept beside a frequent term: identifiers are split on their high sixteen
bits into chunks, a dense chunk is a bitmap of 1024 words and a sparse one the list of its low
sixteen bits. Two sets are intersected chunk by chunk. -/
namespace Surch.Postings
open Surch.Lib

def chunkShift : Nat := 16

def chunkSize : Nat := 1 <<< chunkShift

def wordsPerChunk : Nat := chunkSize / 64

def denseThreshold : Nat := 4096

inductive Container where
  | array (lows : List Nat)
  | bitmap (words : List Nat)
deriving DecidableEq, Repr

/- The search of an array is binary; on an ascending array it finds what is there. -/
def Container.contains : Container → Nat → Bool
  | .array lows, low => lows.contains low
  | .bitmap words, low => (words.getD (low >>> 6) 0 >>> (low &&& 63)) &&& 1 == 1

structure RoaringDocSet where
  chunks : List (Nat × Container)
  len : Nat
deriving DecidableEq, Repr

def chunkKey (docId : Nat) : Nat := (docId >>> chunkShift) % 2 ^ 16

def lowBits (docId : Nat) : Nat := docId &&& (chunkSize - 1)

def chunkRuns : List Nat → List (Nat × List Nat)
  | [] => []
  | docId :: rest =>
    match chunkRuns rest with
    | [] => [(chunkKey docId, [docId])]
    | (key, run) :: later =>
      if chunkKey docId = key then (key, docId :: run) :: later
      else (chunkKey docId, [docId]) :: (key, run) :: later

def setBit (words : List Nat) (low : Nat) : List Nat :=
  words.modify (low >>> 6) (· ||| 1 <<< (low &&& 63))

def Container.ofRun (run : List Nat) : Container :=
  if run.length > denseThreshold then
    .bitmap (run.foldl (fun words docId => setBit words (lowBits docId))
      (List.replicate wordsPerChunk 0))
  else .array (run.map lowBits)

def RoaringDocSet.fromSorted (docIds : List Nat) : RoaringDocSet where
  chunks := (chunkRuns docIds).map fun chunk => (chunk.1, Container.ofRun chunk.2)
  len := docIds.length

def trailingZeros (word : Nat) : Nat := (List.range 64).findIdx fun bit => word.testBit bit

/- `while and != 0`, clearing the lowest set bit. -/
def setBits (word : Nat) : List Nat :=
  if word = 0 then [] else trailingZeros word :: setBits (word &&& (word - 1))
termination_by word
decreasing_by exact lt_of_le_of_lt Nat.and_le_right (by omega)

def intersectContainers : Container → Container → List Nat
  | .bitmap words, .bitmap others =>
    (List.range wordsPerChunk).flatMap fun w =>
      (setBits (words.getD w 0 &&& others.getD w 0)).map fun bit => (w <<< 6 + bit) % 2 ^ 16
  | .array lows, .bitmap others => lows.filter (Container.bitmap others).contains
  | .bitmap words, .array lows => lows.filter (Container.bitmap words).contains
  | .array lows, .array others => meet id id (fun low _ => [low]) lows others

def RoaringDocSet.intersectForEach (set other : RoaringDocSet) : List Nat :=
  meet Prod.fst Prod.fst
    (fun chunk chunk' => (intersectContainers chunk.2 chunk'.2).map
      fun low => chunk.1 <<< chunkShift ||| low)
    set.chunks other.chunks

theorem lowBits_eq (docId : Nat) : lowBits docId = docId % 2 ^ 16 := by
  rw [lowBits, chunkSize, chunkShift]
  exact Nat.and_two_pow_sub_one_eq_mod docId 16

theorem chunkKey_eq {docId : Nat} (fits : docId < 2 ^ 32) : chunkKey docId = docId / 2 ^ 16 := by
  rw [chunkKey, chunkShift, Nat.shiftRight_eq_div_pow]
  exact Nat.mod_eq_of_lt (by omega)

theorem chunk_or_low {key low : Nat} (fits : low < 2 ^ 16) :
    key <<< chunkShift ||| low = key * 2 ^ 16 + low := by
  rw [chunkShift, ← Nat.shiftLeft_add_eq_or_of_lt fits, Nat.shiftLeft_eq]

theorem contains_bitmap (words : List Nat) (low : Nat) :
    (Container.bitmap words).contains low = (words.getD (low / 64) 0).testBit (low % 64) := by
  have shift : low >>> 6 = low / 64 := Nat.shiftRight_eq_div_pow low 6
  have bit : low &&& 63 = low % 64 := Nat.and_two_pow_sub_one_eq_mod low 6
  rw [Container.contains, shift, bit, Nat.and_one_is_mod]
  rw [Nat.testBit_eq_decide_div_mod_eq, Nat.shiftRight_eq_div_pow]
  rfl

section Word

variable {word : Nat}

theorem bit_lt (fits : word < 2 ^ 64) {bit : Nat} (held : word.testBit bit = true) :
    bit < 64 := by
  by_contra long
  have high : word < 2 ^ bit :=
    lt_of_lt_of_le fits (Nat.pow_le_pow_right (by decide) (not_lt.mp long))
  rw [Nat.testBit_lt_two_pow high] at held
  cases held

theorem trailingZeros_spec (nonzero : word ≠ 0) (fits : word < 2 ^ 64) :
    word.testBit (trailingZeros word) = true ∧
      ∀ bit < trailingZeros word, word.testBit bit = false := by
  obtain ⟨bit, held⟩ := Nat.exists_testBit_of_ne_zero nonzero
  have found : trailingZeros word < (List.range 64).length :=
    List.findIdx_lt_length.mpr ⟨bit, List.mem_range.mpr (bit_lt fits held), held⟩
  refine ⟨?_, fun other before => ?_⟩
  · have hit : word.testBit ((List.range 64)[trailingZeros word]) = true :=
      List.findIdx_getElem (w := found)
    rwa [List.getElem_range] at hit
  · have missed := List.not_of_lt_findIdx before
    rw [List.getElem_range] at missed
    simpa using missed

theorem testBit_and_pred {lowest : Nat} (held : word.testBit lowest = true)
    (below : ∀ bit < lowest, word.testBit bit = false) (bit : Nat) :
    (word &&& (word - 1)).testBit bit = (word.testBit bit && decide (bit ≠ lowest)) := by
  have clear : word % 2 ^ lowest = 0 := by
    apply Nat.eq_of_testBit_eq
    intro i
    rw [Nat.testBit_mod_two_pow, Nat.zero_testBit]
    by_cases early : i < lowest
    · simp [below i early]
    · simp [early]
  have odd : word / 2 ^ lowest % 2 = 1 := by
    rwa [Nat.testBit_eq_decide_div_mod_eq, decide_eq_true_eq] at held
  obtain ⟨half, halves⟩ : ∃ half, word / 2 ^ lowest = 2 * half + 1 := ⟨word / 2 ^ lowest / 2, by omega⟩
  have pow_pos : 0 < 2 ^ lowest := Nat.two_pow_pos lowest
  have whole : word = 2 ^ lowest * (2 * half + 1) + 0 := by
    have split := Nat.div_add_mod word (2 ^ lowest)
    rw [clear, halves] at split
    exact split.symm
  have pred : word - 1 = 2 ^ lowest * (2 * half) + (2 ^ lowest - 1) := by
    rw [whole, Nat.mul_add, Nat.mul_one]
    omega
  rw [Nat.testBit_and, pred, Nat.testBit_two_pow_mul_add _ (by omega)]
  by_cases early : bit < lowest
  · simp [below bit early]
  · rw [if_neg early, whole, Nat.testBit_two_pow_mul_add _ pow_pos, if_neg early]
    rcases Nat.eq_or_lt_of_le (not_lt.mp early) with rfl | later
    · simp
    · obtain ⟨k, shift⟩ : ∃ k, bit - lowest = k + 1 := ⟨bit - lowest - 1, by omega⟩
      have halved : (2 * half + 1) / 2 = half := by omega
      rw [shift, Nat.testBit_succ, Nat.testBit_succ, halved, Nat.mul_div_cancel_left _ (by decide)]
      simp [later.ne']

theorem and_pred_lt (fits : word < 2 ^ 64) : word &&& (word - 1) < 2 ^ 64 :=
  lt_of_le_of_lt Nat.and_le_left fits

theorem mem_setBits (fits : word < 2 ^ 64) (bit : Nat) :
    bit ∈ setBits word ↔ word.testBit bit = true := by
  induction word using setBits.induct with
  | case1 => simp [setBits]
  | case2 word nonzero ih =>
    obtain ⟨held, below⟩ := trailingZeros_spec nonzero fits
    rw [setBits, if_neg nonzero, List.mem_cons, ih (and_pred_lt fits),
      testBit_and_pred held below]
    by_cases same : bit = trailingZeros word
    · simp [same, held]
    · simp [same]

theorem setBits_ascending (fits : word < 2 ^ 64) : (setBits word).Pairwise (· < ·) := by
  induction word using setBits.induct with
  | case1 => simp [setBits]
  | case2 word nonzero ih =>
    obtain ⟨held, below⟩ := trailingZeros_spec nonzero fits
    rw [setBits, if_neg nonzero]
    refine List.pairwise_cons.mpr ⟨fun bit later => ?_, ih (and_pred_lt fits)⟩
    rw [mem_setBits (and_pred_lt fits), testBit_and_pred held below, Bool.and_eq_true,
      decide_eq_true_eq] at later
    by_contra notLess
    have less : bit < trailingZeros word := lt_of_le_of_ne (not_lt.mp notLess) later.2
    rw [below bit less] at later
    cases later.1

end Word

/- A container of one chunk: low bits in order, or one full row of words. -/
def Container.Sound : Container → Prop
  | .array lows => lows.Pairwise (· < ·) ∧ ∀ low ∈ lows, low < 2 ^ 16
  | .bitmap words => words.length = wordsPerChunk ∧ ∀ word ∈ words, word < 2 ^ 64

theorem Container.Sound.word {words : List Nat} (sound : (Container.bitmap words).Sound) (w : Nat) :
    words.getD w 0 < 2 ^ 64 := by
  rw [List.getD_eq_getElem?_getD]
  cases found : words[w]? with
  | none => simp
  | some word => exact sound.2 word (List.mem_of_getElem? found)

theorem Container.Sound.low {container : Container} (sound : container.Sound) {low : Nat}
    (held : container.contains low = true) : low < 2 ^ 16 := by
  cases container with
  | array lows => exact sound.2 low (by simpa [Container.contains] using held)
  | bitmap words =>
    rw [contains_bitmap] at held
    by_contra outside
    have past : words.length ≤ low / 64 := by
      rw [sound.1, wordsPerChunk, chunkSize, chunkShift]
      omega
    rw [List.getD_eq_default _ _ past, Nat.zero_testBit] at held
    cases held

section Containers

variable {a b : Container}

theorem mem_wordBits {words others : List Nat} (sound : (Container.bitmap words).Sound)
    (w low : Nat) (inside : w < wordsPerChunk) :
    low ∈ (setBits (words.getD w 0 &&& others.getD w 0)).map (fun bit => (w <<< 6 + bit) % 2 ^ 16) ↔
      low / 64 = w ∧ (Container.bitmap words).contains low = true ∧
        (Container.bitmap others).contains low = true := by
  have fits : words.getD w 0 &&& others.getD w 0 < 2 ^ 64 :=
    lt_of_le_of_lt Nat.and_le_left (sound.word w)
  have small : w < 1024 := inside
  rw [contains_bitmap, contains_bitmap, ← Bool.and_eq_true]
  constructor
  · intro member
    obtain ⟨bit, emitted, rfl⟩ := List.mem_map.mp member
    rw [mem_setBits fits] at emitted
    have short := bit_lt fits emitted
    have whole : (w <<< 6 + bit) % 2 ^ 16 = w * 64 + bit := by
      rw [Nat.shiftLeft_eq]
      exact Nat.mod_eq_of_lt (by omega)
    have quotient : (w * 64 + bit) / 64 = w := by omega
    have remainder : (w * 64 + bit) % 64 = bit := by omega
    rw [whole, quotient, remainder, ← Nat.testBit_and]
    exact ⟨rfl, emitted⟩
  · rintro ⟨rfl, held⟩
    rw [← Nat.testBit_and] at held
    refine List.mem_map.mpr ⟨low % 64, (mem_setBits fits _).mpr held, ?_⟩
    rw [Nat.shiftLeft_eq]
    omega

theorem mem_intersectContainers (sound : a.Sound) (sound' : b.Sound) (low : Nat) :
    low ∈ intersectContainers a b ↔ a.contains low = true ∧ b.contains low = true := by
  cases a with
  | array lows =>
    cases b with
    | array others =>
      have met : low ∈ meet id id (fun low _ => [low]) lows others ↔ _ :=
        mem_meet sound.1 sound'.1
      rw [intersectContainers, met]
      simp only [List.mem_singleton, Container.contains, List.contains_iff_mem]
      constructor
      · rintro ⟨x, member, y, member', rfl, rfl⟩
        exact ⟨member, member'⟩
      · rintro ⟨member, member'⟩
        exact ⟨low, member, low, member', rfl, rfl⟩
    | bitmap others => simp [intersectContainers, Container.contains]
  | bitmap words =>
    cases b with
    | array lows =>
      simp only [intersectContainers, List.mem_filter, Container.contains, List.contains_iff_mem]
      exact and_comm
    | bitmap others =>
      rw [intersectContainers, List.mem_flatMap]
      constructor
      · rintro ⟨w, inside, member⟩
        exact ((mem_wordBits sound w low (List.mem_range.mp inside)).mp member).2
      · rintro ⟨held, held'⟩
        have inside : low / 64 < wordsPerChunk := by
          have bound := sound.low held
          rw [wordsPerChunk, chunkSize, chunkShift]
          omega
        exact ⟨low / 64, List.mem_range.mpr inside,
          (mem_wordBits sound _ low inside).mpr ⟨rfl, held, held'⟩⟩

theorem intersectContainers_ascending (sound : a.Sound) (sound' : b.Sound) :
    (intersectContainers a b).Pairwise (· < ·) := by
  cases a with
  | array lows =>
    cases b with
    | array others =>
      refine meet_pairwise sound.1 sound'.1 (fun _ _ _ _ => List.pairwise_singleton _ _) ?_
      intro x _ x' _ _ _ _ _ less z emitted z' emitted'
      rw [List.mem_singleton] at emitted emitted'
      rw [emitted, emitted']
      exact less
    | bitmap others => exact sound.1.filter _
  | bitmap words =>
    cases b with
    | array lows => exact sound'.1.filter _
    | bitmap others =>
      refine List.pairwise_flatMap.mpr ⟨fun w inside => ?_, ?_⟩
      · have small : w < 1024 := List.mem_range.mp inside
        have fits : words.getD w 0 &&& others.getD w 0 < 2 ^ 64 :=
          lt_of_le_of_lt Nat.and_le_left (sound.word w)
        rw [List.pairwise_map]
        refine (setBits_ascending fits).imp_of_mem fun {bit bit'} member member' less => ?_
        have short := bit_lt fits ((mem_setBits fits bit).mp member)
        have short' := bit_lt fits ((mem_setBits fits bit').mp member')
        rw [Nat.shiftLeft_eq]
        omega
      · refine List.pairwise_lt_range.imp_of_mem fun {w w'} inside inside' less => ?_
        intro low member low' member'
        have row := ((mem_wordBits sound w low (List.mem_range.mp inside)).mp member).1
        have row' := ((mem_wordBits sound w' low' (List.mem_range.mp inside')).mp member').1
        omega

end Containers

theorem setBit_length (words : List Nat) (low : Nat) : (setBit words low).length = words.length :=
  List.length_modify _ _ _

theorem setBit_sound {words : List Nat} (sound : (Container.bitmap words).Sound) (low : Nat) :
    (Container.bitmap (setBit words low)).Sound := by
  refine ⟨(setBit_length words low).trans sound.1, fun word member => ?_⟩
  have mask : low &&& 63 < 64 := lt_of_le_of_lt Nat.and_le_right (by decide)
  have single : 1 <<< (low &&& 63) < 2 ^ 64 := by
    rw [Nat.one_shiftLeft]
    exact Nat.pow_lt_pow_right (by decide) mask
  obtain ⟨w, found⟩ := List.mem_iff_getElem?.mp member
  rw [setBit, List.getElem?_modify] at found
  cases here : words[w]? with
  | none => simp [here] at found
  | some word' =>
    have bound := sound.2 word' (List.mem_of_getElem? here)
    rw [here] at found
    split at found
    · obtain rfl := Option.some.inj found
      exact Nat.or_lt_two_pow bound single
    · obtain rfl := Option.some.inj found
      exact bound

theorem contains_setBit {words : List Nat} (full : words.length = wordsPerChunk) {low other : Nat}
    (inside : low < 2 ^ 16) :
    (Container.bitmap (setBit words low)).contains other = true ↔
      other = low ∨ (Container.bitmap words).contains other = true := by
  have shift : low >>> 6 = low / 64 := Nat.shiftRight_eq_div_pow low 6
  have mask : low &&& 63 = low % 64 := Nat.and_two_pow_sub_one_eq_mod low 6
  have present : low / 64 < words.length := by
    rw [full, wordsPerChunk, chunkSize, chunkShift]
    omega
  rw [contains_bitmap, contains_bitmap, setBit, shift, mask, List.getD_eq_getElem?_getD,
    List.getD_eq_getElem?_getD, List.getElem?_modify]
  by_cases row : low / 64 = other / 64
  · rw [← row, List.getElem?_eq_getElem present]
    simp only [if_true, Option.map_eq_map, Option.map_some, Option.getD_some, Nat.testBit_or, Nat.one_shiftLeft,
      Nat.testBit_two_pow, Bool.or_eq_true, decide_eq_true_eq]
    constructor
    · rintro (held | same)
      · exact .inr held
      · exact .inl (by omega)
    · rintro (rfl | held)
      · exact .inr rfl
      · exact .inl held
  · have apart : other ≠ low := fun same => row (by rw [same])
    simp [row, apart]

theorem emptyBitmap_sound : (Container.bitmap (List.replicate wordsPerChunk 0)).Sound := by
  refine ⟨List.length_replicate, fun word member => ?_⟩
  rw [List.eq_of_mem_replicate member]
  exact Nat.two_pow_pos 64

theorem lowBits_lt (docId : Nat) : lowBits docId < 2 ^ 16 := by
  rw [lowBits_eq]
  exact Nat.mod_lt _ (by decide)

theorem foldBits_spec (run : List Nat) {words : List Nat}
    (sound : (Container.bitmap words).Sound) :
    let marked := run.foldl (fun words docId => setBit words (lowBits docId)) words
    (Container.bitmap marked).Sound ∧ ∀ low, (Container.bitmap marked).contains low = true ↔
      (∃ docId ∈ run, lowBits docId = low) ∨ (Container.bitmap words).contains low = true := by
  induction run generalizing words with
  | nil => exact ⟨sound, by simp⟩
  | cons docId rest ih =>
    obtain ⟨stays, holds⟩ := ih (setBit_sound sound (lowBits docId))
    refine ⟨stays, fun low => ?_⟩
    rw [List.foldl_cons, holds, contains_setBit sound.1 (lowBits_lt docId)]
    rw [List.exists_mem_cons_iff, or_left_comm, or_assoc, eq_comm]

def Container.ofRunAs (dense : Bool) (run : List Nat) : Container :=
  if dense then
    .bitmap (run.foldl (fun words docId => setBit words (lowBits docId))
      (List.replicate wordsPerChunk 0))
  else .array (run.map lowBits)

theorem Container.ofRun_eq (run : List Nat) :
    Container.ofRun run = Container.ofRunAs (run.length > denseThreshold) run := by
  simp [Container.ofRun, Container.ofRunAs]

theorem ofRunAs_contains (dense : Bool) (run : List Nat) (low : Nat) :
    (Container.ofRunAs dense run).contains low = true ↔ ∃ docId ∈ run, lowBits docId = low := by
  cases dense with
  | true =>
    rw [Container.ofRunAs, if_pos rfl, (foldBits_spec run emptyBitmap_sound).2 low, contains_bitmap]
    have blank : (List.replicate wordsPerChunk 0).getD (low / 64) 0 = 0 := by
      rw [List.getD_eq_getElem?_getD, List.getElem?_replicate]
      split <;> rfl
    simp only [blank, Nat.zero_testBit, Bool.false_eq_true, or_false]
  | false => simp [Container.ofRunAs, Container.contains, eq_comm]

theorem ofRunAs_sound {key : Nat} {run : List Nat} (dense : Bool)
    (ascending : run.Pairwise (· < ·)) (fits : ∀ docId ∈ run, docId < 2 ^ 32)
    (chunk : ∀ docId ∈ run, chunkKey docId = key) : (Container.ofRunAs dense run).Sound := by
  cases dense with
  | true => exact (foldBits_spec run emptyBitmap_sound).1
  | false =>
    refine ⟨?_, ?_⟩
    · rw [List.pairwise_map]
      refine ascending.imp_of_mem fun {x y} member member' less => ?_
      have same := (chunk x member).trans (chunk y member').symm
      rw [chunkKey_eq (fits x member), chunkKey_eq (fits y member')] at same
      rw [lowBits_eq, lowBits_eq]
      omega
    · intro low member
      obtain ⟨docId, -, rfl⟩ := List.mem_map.mp member
      exact lowBits_lt docId

section Runs

variable {docIds : List Nat}

theorem chunkRuns_flatten (docIds : List Nat) :
    (chunkRuns docIds).flatMap Prod.snd = docIds := by
  induction docIds with
  | nil => rfl
  | cons docId rest ih =>
    rw [chunkRuns]
    cases runs : chunkRuns rest with
    | nil =>
      rw [runs] at ih
      simp [← ih]
    | cons chunk later =>
      obtain ⟨key, run⟩ := chunk
      rw [runs] at ih
      simp only
      split <;> simp [← ih]

theorem chunkRuns_key (docIds : List Nat) : ∀ chunk ∈ chunkRuns docIds,
    chunk.2 ≠ [] ∧ ∀ docId ∈ chunk.2, chunkKey docId = chunk.1 := by
  induction docIds with
  | nil => simp [chunkRuns]
  | cons docId rest ih =>
    rw [chunkRuns]
    cases runs : chunkRuns rest with
    | nil => simp
    | cons chunk later =>
      obtain ⟨key, run⟩ := chunk
      rw [runs] at ih
      obtain ⟨here, others⟩ := List.forall_mem_cons.mp ih
      simp only
      split
      case isTrue same =>
        refine List.forall_mem_cons.mpr ⟨⟨by simp, ?_⟩, others⟩
        exact List.forall_mem_cons.mpr ⟨same, here.2⟩
      case isFalse differs => exact List.forall_mem_cons.mpr ⟨by simp, ih⟩

theorem chunkRuns_mem {chunk : Nat × List Nat} (member : chunk ∈ chunkRuns docIds) :
    ∀ docId ∈ chunk.2, docId ∈ docIds := by
  intro docId held
  rw [← chunkRuns_flatten docIds]
  exact List.mem_flatMap.mpr ⟨chunk, member, held⟩

theorem chunkRuns_ascending (ordered : docIds.Pairwise (chunkKey · ≤ chunkKey ·)) :
    (chunkRuns docIds).Pairwise (·.1 < ·.1) := by
  induction docIds with
  | nil => exact List.Pairwise.nil
  | cons docId rest ih =>
    have keys := chunkRuns_key rest
    have later := ih ordered.of_cons
    have below : ∀ chunk ∈ chunkRuns rest, chunkKey docId ≤ chunk.1 := by
      intro chunk member
      obtain ⟨other, held⟩ := List.exists_mem_of_ne_nil _ (keys chunk member).1
      rw [← (keys chunk member).2 other held]
      exact List.rel_of_pairwise_cons ordered (chunkRuns_mem member other held)
    rw [chunkRuns]
    cases runs : chunkRuns rest with
    | nil => exact List.pairwise_singleton _ _
    | cons chunk others =>
      obtain ⟨key, run⟩ := chunk
      rw [runs] at later below
      obtain ⟨first, tail⟩ := List.pairwise_cons.mp later
      simp only
      split
      case isTrue same => exact List.pairwise_cons.mpr ⟨first, tail⟩
      case isFalse differs =>
        have less : chunkKey docId < key :=
          lt_of_le_of_ne (below (key, run) (by simp)) differs
        refine List.pairwise_cons.mpr ⟨?_, later⟩
        intro chunk member
        rcases List.mem_cons.mp member with rfl | member
        · exact less
        · exact less.trans (first chunk member)

end Runs

def RoaringDocSet.storedAs (dense : Nat → Bool) (docIds : List Nat) : RoaringDocSet where
  chunks := (chunkRuns docIds).map fun chunk =>
    (chunk.1, Container.ofRunAs (dense chunk.1) chunk.2)
  len := docIds.length

/- A set holds these identifiers, whatever the form of its containers. -/
structure RoaringDocSet.Represents (set : RoaringDocSet) (docIds : List Nat) : Prop where
  ascending : set.chunks.Pairwise (·.1 < ·.1)
  sound : ∀ chunk ∈ set.chunks, chunk.2.Sound
  contains : ∀ key low, low < 2 ^ 16 →
    ((∃ chunk ∈ set.chunks, chunk.1 = key ∧ chunk.2.contains low = true) ↔
      key * 2 ^ 16 + low ∈ docIds)

section Sets

variable {docIds others : List Nat}

theorem represents_of_chunkRuns {set : RoaringDocSet} (dense : Nat × List Nat → Bool)
    (chunks : set.chunks =
      (chunkRuns docIds).map fun chunk => (chunk.1, Container.ofRunAs (dense chunk) chunk.2))
    (ascending : docIds.Pairwise (· < ·)) (fits : ∀ d ∈ docIds, d < 2 ^ 32) :
    set.Represents docIds := by
  refine ⟨?_, ?_, ?_⟩
  · rw [chunks, List.pairwise_map]
    refine chunkRuns_ascending (ascending.imp_of_mem fun {x y} member member' less => ?_)
    rw [chunkKey_eq (fits x member), chunkKey_eq (fits y member')]
    exact Nat.div_le_div_right less.le
  · intro chunk member
    rw [chunks] at member
    obtain ⟨run, found, rfl⟩ := List.mem_map.mp member
    refine ofRunAs_sound _ ?_ (fun docId held => fits docId (chunkRuns_mem found docId held))
      (chunkRuns_key docIds run found).2
    rw [← chunkRuns_flatten docIds] at ascending
    exact (List.pairwise_flatMap.mp ascending).1 run found
  · intro key low small
    rw [chunks]
    constructor
    · rintro ⟨chunk, member, rfl, held⟩
      obtain ⟨run, found, rfl⟩ := List.mem_map.mp member
      obtain ⟨docId, inside, rfl⟩ := (ofRunAs_contains _ run.2 low).mp held
      have listed := chunkRuns_mem found docId inside
      have high := (chunkRuns_key docIds run found).2 docId inside
      rw [chunkKey_eq (fits docId listed)] at high
      have whole : run.1 * 2 ^ 16 + lowBits docId = docId := by
        rw [lowBits_eq]
        omega
      rwa [whole]
    · intro listed
      have bound := fits _ listed
      obtain ⟨run, found, inside⟩ : ∃ run ∈ chunkRuns docIds, key * 2 ^ 16 + low ∈ run.2 := by
        rw [← chunkRuns_flatten docIds] at listed
        exact List.mem_flatMap.mp listed
      have high := (chunkRuns_key docIds run found).2 _ inside
      rw [chunkKey_eq bound] at high
      refine ⟨_, List.mem_map.mpr ⟨run, found, rfl⟩, by omega, ?_⟩
      refine (ofRunAs_contains _ run.2 low).mpr ⟨_, inside, ?_⟩
      rw [lowBits_eq]
      omega

theorem fromSorted_represents (ascending : docIds.Pairwise (· < ·))
    (fits : ∀ d ∈ docIds, d < 2 ^ 32) : (RoaringDocSet.fromSorted docIds).Represents docIds :=
  represents_of_chunkRuns (fun chunk => chunk.2.length > denseThreshold)
    (by simp [RoaringDocSet.fromSorted, Container.ofRun_eq]) ascending fits

theorem storedAs_represents (dense : Nat → Bool) (ascending : docIds.Pairwise (· < ·))
    (fits : ∀ d ∈ docIds, d < 2 ^ 32) :
    (RoaringDocSet.storedAs dense docIds).Represents docIds :=
  represents_of_chunkRuns (fun chunk => dense chunk.1) rfl ascending fits

variable {set other : RoaringDocSet}

theorem mem_intersectForEach (holds : set.Represents docIds) (holds' : other.Represents others)
    (docId : Nat) : docId ∈ set.intersectForEach other ↔ docId ∈ docIds ∧ docId ∈ others := by
  rw [RoaringDocSet.intersectForEach, mem_meet holds.ascending holds'.ascending]
  constructor
  · rintro ⟨chunk, member, chunk', member', same, emitted⟩
    obtain ⟨low, met, rfl⟩ := List.mem_map.mp emitted
    obtain ⟨held, held'⟩ := (mem_intersectContainers (holds.sound chunk member)
      (holds'.sound chunk' member') low).mp met
    have small := (holds.sound chunk member).low held
    rw [chunk_or_low small]
    exact ⟨(holds.contains _ low small).mp ⟨chunk, member, rfl, held⟩,
      (holds'.contains _ low small).mp ⟨chunk', member', same.symm, held'⟩⟩
  · rintro ⟨listed, listed'⟩
    have small : docId % 2 ^ 16 < 2 ^ 16 := Nat.mod_lt _ (by decide)
    have whole : docId / 2 ^ 16 * 2 ^ 16 + docId % 2 ^ 16 = docId := by omega
    rw [← whole] at listed listed'
    obtain ⟨chunk, member, key, held⟩ := (holds.contains _ _ small).mpr listed
    obtain ⟨chunk', member', key', held'⟩ := (holds'.contains _ _ small).mpr listed'
    refine ⟨chunk, member, chunk', member', key.trans key'.symm,
      List.mem_map.mpr ⟨docId % 2 ^ 16, ?_, ?_⟩⟩
    · exact (mem_intersectContainers (holds.sound chunk member) (holds'.sound chunk' member') _).mpr
        ⟨held, held'⟩
    · rw [key, chunk_or_low small, whole]

theorem intersectForEach_ascending (holds : set.Represents docIds)
    (holds' : other.Represents others) : (set.intersectForEach other).Pairwise (· < ·) := by
  have small : ∀ chunk ∈ set.chunks, ∀ chunk' ∈ other.chunks,
      ∀ low ∈ intersectContainers chunk.2 chunk'.2, low < 2 ^ 16 := by
    intro chunk member chunk' member' low met
    exact (holds.sound chunk member).low ((mem_intersectContainers (holds.sound chunk member)
      (holds'.sound chunk' member') low).mp met).1
  refine meet_pairwise holds.ascending holds'.ascending ?_ ?_
  · intro chunk member chunk' member'
    rw [List.pairwise_map]
    refine (intersectContainers_ascending (holds.sound chunk member)
      (holds'.sound chunk' member')).imp_of_mem fun {low low'} met met' less => ?_
    rw [chunk_or_low (small chunk member chunk' member' low met),
      chunk_or_low (small chunk member chunk' member' low' met')]
    omega
  · intro chunk member later member' chunk' other later' other' less docId emitted docId' emitted'
    obtain ⟨low, met, rfl⟩ := List.mem_map.mp emitted
    obtain ⟨low', met', rfl⟩ := List.mem_map.mp emitted'
    have bound := small chunk member chunk' other low met
    rw [chunk_or_low bound, chunk_or_low (small later member' later' other' low' met')]
    omega

/-- Two sets meet in the documents of the one list that the other holds, in its order. -/
theorem intersectForEach_eq_filter (holds : set.Represents docIds)
    (holds' : other.Represents others) (ascending : docIds.Pairwise (· < ·)) :
    set.intersectForEach other = docIds.filter (· ∈ others) := by
  refine List.Pairwise.eq_of_mem_iff (intersectForEach_ascending holds holds')
    (ascending.filter _) fun docId => ?_
  rw [mem_intersectForEach holds holds', List.mem_filter, decide_eq_true_eq]

theorem intersectForEach_fromSorted (ascending : docIds.Pairwise (· < ·))
    (fits : ∀ d ∈ docIds, d < 2 ^ 32) (ascending' : others.Pairwise (· < ·))
    (fits' : ∀ d ∈ others, d < 2 ^ 32) :
    (RoaringDocSet.fromSorted docIds).intersectForEach (RoaringDocSet.fromSorted others) =
      docIds.filter (· ∈ others) :=
  intersectForEach_eq_filter (fromSorted_represents ascending fits)
    (fromSorted_represents ascending' fits') ascending

/-- The intersection is that of the lists, in order and without repetition, from either side
and for every choice between arrays and bitmaps. -/
theorem intersectForEach_exact (ascending : docIds.Pairwise (· < ·))
    (fits : ∀ d ∈ docIds, d < 2 ^ 32) (ascending' : others.Pairwise (· < ·))
    (fits' : ∀ d ∈ others, d < 2 ^ 32) :
    let met := (RoaringDocSet.fromSorted docIds).intersectForEach (RoaringDocSet.fromSorted others)
    met.Pairwise (· < ·) ∧ met = docIds.filter (· ∈ others) ∧
      (RoaringDocSet.fromSorted others).intersectForEach (RoaringDocSet.fromSorted docIds) = met ∧
      ∀ dense dense' : Nat → Bool,
        (RoaringDocSet.storedAs dense docIds).intersectForEach
          (RoaringDocSet.storedAs dense' others) = met := by
  have holds := fromSorted_represents ascending fits
  have holds' := fromSorted_represents ascending' fits'
  have listed := intersectForEach_eq_filter holds holds' ascending
  refine ⟨intersectForEach_ascending holds holds', listed, ?_, fun dense dense' => ?_⟩
  · refine List.Pairwise.eq_of_mem_iff (intersectForEach_ascending holds' holds)
      (intersectForEach_ascending holds holds') fun docId => ?_
    rw [mem_intersectForEach holds' holds, mem_intersectForEach holds holds', and_comm]
  · exact (intersectForEach_eq_filter (storedAs_represents dense ascending fits)
      (storedAs_represents dense' ascending' fits') ascending).trans listed.symm

theorem intersectForEach_exact_chunk_edge :
    let met := (RoaringDocSet.fromSorted [65535, 65536, 2 ^ 32 - 1]).intersectForEach
      (RoaringDocSet.fromSorted [63, 64, 65536, 2 ^ 32 - 1])
    met = [65535, 65536, 2 ^ 32 - 1].filter (· ∈ [63, 64, 65536, 2 ^ 32 - 1]) :=
  (intersectForEach_exact (by simp) (by simp) (by simp) (by simp)).2.1

end Sets

end Surch.Postings
