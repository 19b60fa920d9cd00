import Mathlib.Algebra.Group.Int.Defs
import Mathlib.Algebra.Group.Nat.Defs
import Mathlib.Data.List.Count
import Mathlib.Order.Nat

/-! The preallocation of `source.dat`. `posix_fallocate` may fail at any call, and the loop that waits
for enough room looks at the length reached, not at what the call returned. -/
namespace Surch.Api

def i64Max : Nat := 2 ^ 63 - 1

def fallocateChunk : Nat := 64 * 1024 * 1024

def asI64 (n : Nat) : Int := if n ≤ i64Max then n else n - 2 ^ 64

/- The length allocated so far, an `i64`: it starts at zero and only grows. -/
structure SourceCapacity where
  fallocatedLen : Nat
  fits : fallocatedLen ≤ i64Max

namespace SourceCapacity

def empty : SourceCapacity := ⟨0, Nat.zero_le _⟩

/- One call, and what it returned: anything but zero leaves the length as it is. -/
def fallocate (capacity : SourceCapacity) (extra ret : Nat) : SourceCapacity :=
  let newLen := min (capacity.fallocatedLen + extra) i64Max
  if ret = 0 then ⟨newLen, Nat.min_le_right _ _⟩ else capacity

/- The loop, from the given call on; it has no result while it has not ended. -/
def ensureCapacity (results : Nat → Nat) (writeEnd : Nat) :
    Nat → Nat → SourceCapacity → Option SourceCapacity
  | 0, _, _ => none
  | fuel + 1, call, capacity =>
    if asI64 writeEnd > capacity.fallocatedLen then
      let capacity := capacity.fallocate fallocateChunk (results call)
      if capacity.fallocatedLen = 0 then some capacity
      else ensureCapacity results writeEnd fuel (call + 1) capacity
    else some capacity

def default (ret : Nat) : SourceCapacity := empty.fallocate fallocateChunk ret

def Ends (results : Nat → Nat) (writeEnd : Nat) (capacity : SourceCapacity) : Prop :=
  ∃ fuel last, ensureCapacity results writeEnd fuel 0 capacity = some last

def granted (results : Nat → Nat) (call n : Nat) : Nat :=
  (List.range' call n).countP fun call => results call = 0

variable {results : Nat → Nat} {writeEnd : Nat}

theorem asI64_le (n : Nat) (wide : n < 2 ^ 64) : asI64 n ≤ i64Max := by
  unfold asI64 i64Max
  split <;> omega

theorem granted_succ (call n : Nat) :
    granted results call (n + 1) =
      (if results call = 0 then 1 else 0) + granted results (call + 1) n := by
  simp [granted, List.range'_succ, List.countP_cons, Nat.add_comm]

theorem granted_of_all (every : ∀ call, results call = 0) (call n : Nat) :
    granted results call n = n := by
  simp [granted, every]

theorem fallocate_fallocatedLen (capacity : SourceCapacity) (extra ret : Nat) :
    (capacity.fallocate extra ret).fallocatedLen =
      if ret = 0 then min (capacity.fallocatedLen + extra) i64Max else capacity.fallocatedLen := by
  unfold fallocate
  dsimp only
  split <;> rfl

theorem enough_fallocate (wide : writeEnd < 2 ^ 64) (capacity : SourceCapacity) (ret more : Nat) :
    asI64 writeEnd ≤ (capacity.fallocate fallocateChunk ret).fallocatedLen + fallocateChunk * more ↔
      asI64 writeEnd ≤ capacity.fallocatedLen +
        fallocateChunk * ((if ret = 0 then 1 else 0) + more : Nat) := by
  have bound := asI64_le writeEnd wide
  rw [fallocate_fallocatedLen]
  by_cases served : ret = 0
  · rw [if_pos served, if_pos served]
    unfold fallocateChunk
    omega
  · rw [if_neg served, if_neg served, Nat.zero_add]

theorem fallocate_ne_zero {capacity : SourceCapacity} (positive : capacity.fallocatedLen ≠ 0)
    (ret : Nat) : (capacity.fallocate fallocateChunk ret).fallocatedLen ≠ 0 := by
  rw [fallocate_fallocatedLen]
  unfold fallocateChunk i64Max
  split <;> omega

/-- A loop that has a positive length ends exactly when enough of its calls succeed. -/
theorem ensureCapacity_ends_iff (wide : writeEnd < 2 ^ 64) (call : Nat) (capacity : SourceCapacity)
    (positive : capacity.fallocatedLen ≠ 0) :
    (∃ fuel last, ensureCapacity results writeEnd fuel call capacity = some last) ↔
      ∃ n, asI64 writeEnd ≤ capacity.fallocatedLen + fallocateChunk * granted results call n := by
  constructor
  · rintro ⟨fuel, last, ended⟩
    induction fuel generalizing call capacity with
    | zero => cases ended
    | succ fuel ih =>
      unfold ensureCapacity at ended
      by_cases short : asI64 writeEnd > capacity.fallocatedLen
      · have grown := fallocate_ne_zero positive (results call)
        simp only [if_pos short, if_neg grown] at ended
        obtain ⟨n, enough⟩ := ih (call + 1) _ grown ended
        rw [enough_fallocate wide] at enough
        exact ⟨n + 1, by rw [granted_succ]; exact enough⟩
      · exact ⟨0, by simpa [granted] using short⟩
  · rintro ⟨n, enough⟩
    induction n generalizing call capacity with
    | zero =>
      have long : ¬ asI64 writeEnd > capacity.fallocatedLen := by
        simpa [granted] using enough
      exact ⟨1, capacity, by rw [ensureCapacity, if_neg long]⟩
    | succ n ih =>
      by_cases short : asI64 writeEnd > capacity.fallocatedLen
      · have grown := fallocate_ne_zero positive (results call)
        rw [granted_succ, ← enough_fallocate wide] at enough
        obtain ⟨fuel, last, ended⟩ := ih (call + 1) _ grown enough
        exact ⟨fuel + 1, last, by
          rw [ensureCapacity, if_pos short]
          simp only [if_neg grown, ended]⟩
      · exact ⟨1, capacity, by rw [ensureCapacity, if_neg short]⟩

theorem fallocate_served_ne_zero (capacity : SourceCapacity) :
    (capacity.fallocate fallocateChunk 0).fallocatedLen ≠ 0 := by
  rw [fallocate_fallocatedLen, if_pos rfl]
  unfold fallocateChunk i64Max
  omega

theorem ensureCapacity_enough (every : ∀ call, results call = 0) {fuel call : Nat}
    {capacity last : SourceCapacity}
    (ended : ensureCapacity results writeEnd fuel call capacity = some last) :
    asI64 writeEnd ≤ last.fallocatedLen := by
  induction fuel generalizing call capacity with
  | zero => cases ended
  | succ fuel ih =>
    unfold ensureCapacity at ended
    split at ended
    · simp only [every call, if_neg (fallocate_served_ne_zero capacity)] at ended
      exact ih ended
    · rename_i long
      cases ended
      omega

/-- The first turn decides an empty segment: it stops after a failed call, and goes on with one chunk
after a successful one. -/
theorem ends_iff (wide : writeEnd < 2 ^ 64) (capacity : SourceCapacity) :
    Ends results writeEnd capacity ↔ (capacity.fallocatedLen = 0 ∧ results 0 ≠ 0) ∨
      ∃ n, asI64 writeEnd ≤ capacity.fallocatedLen + fallocateChunk * granted results 0 n := by
  by_cases positive : capacity.fallocatedLen = 0
  · by_cases short : asI64 writeEnd > capacity.fallocatedLen
    · by_cases served : results 0 = 0
      · have grown : (capacity.fallocate fallocateChunk (results 0)).fallocatedLen ≠ 0 := by
          rw [served]
          exact fallocate_served_ne_zero capacity
        have later := @ensureCapacity_ends_iff results _ wide 1 _ grown
        simp only [enough_fallocate wide, ← granted_succ] at later
        constructor
        · rintro ⟨fuel, last, ended⟩
          right
          cases fuel with
          | zero => cases ended
          | succ fuel =>
            rw [ensureCapacity, if_pos short] at ended
            simp only [if_neg grown] at ended
            obtain ⟨n, enough⟩ := later.mp ⟨fuel, last, ended⟩
            exact ⟨n + 1, enough⟩
        · rintro (⟨-, failed⟩ | ⟨n, enough⟩)
          · exact absurd served failed
          · cases n with
            | zero => exact absurd enough (by simpa [granted] using short)
            | succ n =>
              obtain ⟨fuel, last, ended⟩ := later.mpr ⟨n, enough⟩
              exact ⟨fuel + 1, last, by
                rw [ensureCapacity, if_pos short]
                simp only [if_neg grown, ended]⟩
      · have stopped : (capacity.fallocate fallocateChunk (results 0)).fallocatedLen = 0 := by
          rw [fallocate_fallocatedLen, if_neg served, positive]
        have ended : ensureCapacity results writeEnd 1 0 capacity =
            some (capacity.fallocate fallocateChunk (results 0)) := by
          rw [ensureCapacity, if_pos short]
          simp only [if_pos stopped]
        exact iff_of_true ⟨1, _, ended⟩ (.inl ⟨positive, served⟩)
    · refine iff_of_true ⟨1, capacity, ?_⟩ (.inr ⟨0, by simpa [granted] using short⟩)
      rw [ensureCapacity, if_neg short]
  · rw [Ends, ensureCapacity_ends_iff wide 0 capacity positive]
    simp [positive]

/-- The loop ends exactly when enough calls succeed or the segment is empty and the first call
fails; and when every call succeeds it ends with enough room exactly if the write ends within the
range of an `i64`. -/
theorem ensure_capacity_ends_iff (results : Nat → Nat) (writeEnd : Nat) (wide : writeEnd < 2 ^ 64)
    (capacity : SourceCapacity) :
    (Ends results writeEnd capacity ↔ (capacity.fallocatedLen = 0 ∧ results 0 ≠ 0) ∨
      ∃ n, asI64 writeEnd ≤ capacity.fallocatedLen + fallocateChunk * granted results 0 n) ∧
    ((∀ call, results call = 0) →
      ((∃ fuel last, ensureCapacity results writeEnd fuel 0 capacity = some last ∧
        writeEnd ≤ last.fallocatedLen) ↔ writeEnd ≤ i64Max)) := by
  refine ⟨ends_iff wide capacity, fun every => ⟨?_, fun small => ?_⟩⟩
  · rintro ⟨_, last, -, reached⟩
    exact reached.trans last.fits
  · have same : asI64 writeEnd = writeEnd := if_pos small
    have enough : asI64 writeEnd ≤
        capacity.fallocatedLen + fallocateChunk * granted results 0 writeEnd := by
      rw [same, granted_of_all every]
      unfold fallocateChunk
      omega
    obtain ⟨fuel, last, ended⟩ := (ends_iff wide capacity).mpr (.inr ⟨writeEnd, enough⟩)
    refine ⟨fuel, last, ended, ?_⟩
    have reached := ensureCapacity_enough every ended
    omega

def fullDisk : Nat → Nat := fun _ => 28

def oneChunk : SourceCapacity := default 0

theorem ensure_capacity_ends_iff_fullDisk :
    Ends fullDisk (fallocateChunk + 1) oneChunk ↔
      (oneChunk.fallocatedLen = 0 ∧ fullDisk 0 ≠ 0) ∨
        ∃ n, asI64 (fallocateChunk + 1) ≤
          oneChunk.fallocatedLen + fallocateChunk * granted fullDisk 0 n :=
  (ensure_capacity_ends_iff fullDisk (fallocateChunk + 1) (by decide) oneChunk).1

/- The loop spins on a full disk, and a write that ends beyond the range of an `i64` gets no room. -/
theorem not_ensure_capacity_ends :
    (¬ ∀ results writeEnd capacity, writeEnd < 2 ^ 64 → Ends results writeEnd capacity) ∧
      ¬ ∀ results writeEnd capacity, writeEnd < 2 ^ 64 → (∀ call, results call = 0) →
        ∃ fuel last, ensureCapacity results writeEnd fuel 0 capacity = some last ∧
          writeEnd ≤ last.fallocatedLen := by
  constructor
  · intro always
    rcases (ends_iff (by decide) oneChunk).mp (always fullDisk (fallocateChunk + 1) oneChunk (by decide))
      with ⟨zero, -⟩ | ⟨n, enough⟩
    · exact absurd zero (by decide)
    · have none_granted : granted fullDisk 0 n = 0 := by simp [granted, fullDisk]
      rw [none_granted] at enough
      exact absurd enough (by decide)
  · intro always
    obtain ⟨_, last, -, reached⟩ := always (fun _ => 0) (2 ^ 63) empty (by decide) fun _ => rfl
    exact absurd (reached.trans last.fits) (by decide)

end SourceCapacity

end Surch.Api
