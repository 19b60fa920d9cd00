import Surch.Lib.BitPack
import Surch.Lib.Reader

/-! Numbers in groups of seven bits, the least significant first; the top bit of a byte says that more
follow. A reader has a bounded number of groups and a bounded number of bits for the value. -/
namespace Surch.Lib.Leb128

section Groups

/- The first byte whose top bit is clear is the last one. -/
def Whole : List UInt8 → Prop
  | [] => False
  | b :: rest => if b.toNat < 128 then rest = [] else Whole rest

def groupNat (bytes : List UInt8) : Nat := Nat.ofDigits 128 (bytes.map fun b => b.toNat % 128)

def Shortest (bytes : List UInt8) : Prop := Whole bytes ∧ (bytes.length = 1 ∨ bytes.getLast? ≠ some 0)

@[simp] theorem groupNat_nil : groupNat [] = 0 := rfl

@[simp] theorem groupNat_cons (b : UInt8) (rest : List UInt8) :
    groupNat (b :: rest) = b.toNat % 128 + 128 * groupNat rest := by
  simp [groupNat, Nat.ofDigits_cons]

theorem whole_last {b : UInt8} (last : b.toNat < 128) : Whole [b] := by
  rw [Whole, if_pos last]

theorem whole_cons {b : UInt8} {rest : List UInt8} (more : 128 ≤ b.toNat) :
    Whole (b :: rest) ↔ Whole rest := by
  rw [Whole, if_neg (Nat.not_lt_of_le more)]

theorem Whole.ne_nil {bytes : List UInt8} (whole : Whole bytes) : bytes ≠ [] := by
  rintro rfl
  exact whole

theorem groupNat_lt (bytes : List UInt8) : groupNat bytes < 128 ^ bytes.length := by
  induction bytes with
  | nil => decide
  | cons b rest ih =>
    have low := Nat.mod_lt b.toNat (show 0 < 128 by decide)
    rw [groupNat_cons, List.length_cons, Nat.pow_succ]
    omega

theorem whole_prefix {first second rest rest' : List UInt8} (one : Whole first) (other : Whole second)
    (same : first ++ rest = second ++ rest') : first = second ∧ rest = rest' := by
  induction first generalizing second with
  | nil => exact absurd one id
  | cons b first ih =>
    cases second with
    | nil => exact absurd other id
    | cons c second =>
      obtain ⟨head, tail⟩ := List.cons_eq_cons.mp same
      subst head
      by_cases last : b.toNat < 128
      · rw [Whole, if_pos last] at one other
        subst one other
        exact ⟨rfl, tail⟩
      · rw [whole_cons (Nat.le_of_not_lt last)] at one other
        obtain ⟨rfl, rest⟩ := ih one other tail
        exact ⟨rfl, rest⟩

theorem shortest_cons {b : UInt8} {rest : List UInt8} (more : 128 ≤ b.toNat)
    (shortest : Shortest (b :: rest)) : Shortest rest ∧ 0 < groupNat rest := by
  obtain ⟨whole, long⟩ := shortest
  rw [whole_cons more] at whole
  have last : rest.getLast? ≠ some 0 := by
    rcases long with one | last
    · exact absurd (List.length_eq_zero_iff.mp (by simpa using one)) whole.ne_nil
    · rwa [List.getLast?_cons_of_ne_nil whole.ne_nil] at last
  refine ⟨⟨whole, .inr last⟩, ?_⟩
  clear long more
  induction rest with
  | nil => exact absurd whole id
  | cons c rest ih =>
    rw [groupNat_cons]
    by_cases stop : c.toNat < 128
    · rw [Whole, if_pos stop] at whole
      subst whole
      have other : c.toNat ≠ 0 := fun zero => last (by
        rw [List.getLast?_singleton]
        exact congrArg some (UInt8.toNat_inj.mp zero))
      omega
    · rw [whole_cons (Nat.le_of_not_lt stop)] at whole
      rw [List.getLast?_cons_of_ne_nil whole.ne_nil] at last
      have := ih whole last
      omega

theorem shortest_unique {first second : List UInt8} (one : Shortest first) (other : Shortest second)
    (same : groupNat first = groupNat second) : first = second := by
  induction first generalizing second with
  | nil => exact absurd one.1 id
  | cons b first ih =>
    cases second with
    | nil => exact absurd other.1 id
    | cons c second =>
      rw [groupNat_cons, groupNat_cons] at same
      by_cases last : b.toNat < 128
      · have ends : first = [] := by
          have whole := one.1
          rwa [Whole, if_pos last] at whole
        by_cases last' : c.toNat < 128
        · have ends' : second = [] := by
            have whole := other.1
            rwa [Whole, if_pos last'] at whole
          subst ends ends'
          have equal : b.toNat = c.toNat := by
            simp only [groupNat_nil] at same
            omega
          rw [UInt8.toNat_inj.mp equal]
        · have positive := (shortest_cons (Nat.le_of_not_lt last') other).2
          subst ends
          simp only [groupNat_nil] at same
          omega
      · have more := Nat.le_of_not_lt last
        have deeper := shortest_cons more one
        by_cases last' : c.toNat < 128
        · have ends' : second = [] := by
            have whole := other.1
            rwa [Whole, if_pos last'] at whole
          subst ends'
          simp only [groupNat_nil] at same
          omega
        · have deeper' := shortest_cons (Nat.le_of_not_lt last') other
          have equal : b.toNat = c.toNat := by
            have := b.toNat_lt
            have := c.toNat_lt
            omega
          rw [UInt8.toNat_inj.mp equal, ih deeper.1 deeper'.1 (by omega)]

/- What stands at the front of a text: a number of at most so many groups, so many bytes that all say that
more follow, or too few of them. -/
theorem groups_cases (groups : Nat) (input : List UInt8) :
    (∃ bytes rest, input = bytes ++ rest ∧ Whole bytes ∧ bytes.length ≤ groups) ∨
      (groups ≤ input.length ∧ ∀ b ∈ input.take groups, 128 ≤ b.toNat) ∨
      (input.length < groups ∧ ∀ b ∈ input, 128 ≤ b.toNat) := by
  induction groups generalizing input with
  | zero => exact .inr (.inl ⟨Nat.zero_le _, by simp⟩)
  | succ groups ih =>
    cases input with
    | nil => exact .inr (.inr ⟨Nat.succ_pos _, by simp⟩)
    | cons b input =>
      by_cases last : b.toNat < 128
      · exact .inl ⟨[b], input, rfl, whole_last last, Nat.succ_le_succ (Nat.zero_le _)⟩
      · have more := Nat.le_of_not_lt last
        rcases ih input with ⟨bytes, rest, rfl, whole, short⟩ | ⟨long, all⟩ | ⟨short, all⟩
        · exact .inl ⟨b :: bytes, rest, rfl, (whole_cons more).mpr whole, Nat.succ_le_succ short⟩
        · refine .inr (.inl ⟨Nat.succ_le_succ long, ?_⟩)
          rw [List.take_succ_cons]
          exact List.forall_mem_cons.mpr ⟨more, all⟩
        · exact .inr (.inr ⟨Nat.succ_lt_succ short, List.forall_mem_cons.mpr ⟨more, all⟩⟩)

end Groups

section Writing

/- Seven bits a byte while more follow, in at most one byte more than the fuel. -/
def writeGroups : (fuel : Nat) → Nat → List UInt8
  | 0, value => [UInt8.ofNat value]
  | fuel + 1, value =>
    if value < 128 then [UInt8.ofNat value]
    else UInt8.ofNat (value % 128 + 128) :: writeGroups fuel (value / 128)

variable {fuel value : Nat}

theorem writeGroups_small (small : value < 128) : writeGroups fuel value = [UInt8.ofNat value] := by
  cases fuel with
  | zero => rfl
  | succ fuel => rw [writeGroups, if_pos small]

theorem writeGroups_length (fuel value : Nat) : (writeGroups fuel value).length ≤ fuel + 1 := by
  induction fuel generalizing value with
  | zero => exact Nat.le_refl _
  | succ fuel ih =>
    rw [writeGroups]
    split
    · exact Nat.succ_le_succ (Nat.zero_le _)
    · exact Nat.succ_le_succ (ih _)

theorem shortest_singleton {b : UInt8} (last : b.toNat < 128) : Shortest [b] :=
  ⟨whole_last last, .inl rfl⟩

theorem Shortest.cons {b : UInt8} {rest : List UInt8} (more : 128 ≤ b.toNat) (shortest : Shortest rest)
    (positive : 0 < groupNat rest) : Shortest (b :: rest) := by
  refine ⟨(whole_cons more).mpr shortest.1, .inr ?_⟩
  rw [List.getLast?_cons_of_ne_nil shortest.1.ne_nil]
  rcases shortest.2 with one | last
  · obtain ⟨c, rfl⟩ := List.length_eq_one_iff.mp one
    rw [List.getLast?_singleton]
    intro zero
    cases Option.some.inj zero
    exact absurd positive (by decide)
  · exact last

theorem writeGroups_shortest (fits : value < 128 ^ (fuel + 1)) :
    Shortest (writeGroups fuel value) ∧ groupNat (writeGroups fuel value) = value := by
  have single {n : Nat} (small : n < 128) :
      Shortest [UInt8.ofNat n] ∧ groupNat [UInt8.ofNat n] = n := by
    have byte : (UInt8.ofNat n).toNat = n := by
      rw [UInt8.toNat_ofNat']
      omega
    refine ⟨shortest_singleton (by rw [byte]; exact small), ?_⟩
    rw [groupNat_cons, byte, groupNat_nil]
    omega
  induction fuel generalizing value with
  | zero => exact single (by simpa using fits)
  | succ fuel ih =>
    by_cases small : value < 128
    · rw [writeGroups_small small]
      exact single small
    · have byte : (UInt8.ofNat (value % 128 + 128)).toNat = value % 128 + 128 := by
        rw [UInt8.toNat_ofNat']
        omega
      have deeper : value / 128 < 128 ^ (fuel + 1) := by
        rw [Nat.pow_succ] at fits
        exact Nat.div_lt_of_lt_mul (by rwa [Nat.mul_comm])
      obtain ⟨shortest, same⟩ := ih deeper
      rw [writeGroups, if_neg small]
      refine ⟨shortest.cons (by rw [byte]; omega) (by rw [same]; omega), ?_⟩
      rw [groupNat_cons, byte, same]
      omega

theorem shortest_eq_writeGroups {bytes : List UInt8} (shortest : Shortest bytes)
    (short : bytes.length ≤ fuel + 1) : writeGroups fuel (groupNat bytes) = bytes := by
  have fits : groupNat bytes < 128 ^ (fuel + 1) :=
    (groupNat_lt bytes).trans_le (Nat.pow_le_pow_right (by decide) short)
  have written := writeGroups_shortest fits
  exact shortest_unique written.1 shortest written.2

end Writing

section Reading

variable {ε : Type} (bits : Nat) (exhausted : Nat → Except ε Nat) (tooShort : ε)

/- The bits of each byte are set at their shift; what is above the width is gone. -/
def readGroups : (groups shift value : Nat) → Reader ε UInt8 Nat
  | 0, _, value, input => (exhausted value).map fun value => (value, input)
  | _ + 1, _, _, [] => .error tooShort
  | groups + 1, shift, value, b :: input =>
    let value := value ||| ((b &&& 0x7f).toNat <<< shift) % 2 ^ bits
    if b &&& 0x80 = 0 then .ok (value, input) else readGroups groups (shift + 7) value input

variable {bits exhausted tooShort}

theorem readGroups_short {groups shift value : Nat} {input : List UInt8} (short : input.length < groups)
    (more : ∀ b ∈ input, 128 ≤ b.toNat) :
    readGroups bits exhausted tooShort groups shift value input = .error tooShort := by
  induction input generalizing groups shift value with
  | nil =>
    obtain ⟨groups, rfl⟩ := Nat.exists_eq_succ_of_ne_zero (Nat.ne_of_gt short)
    rfl
  | cons b input ih =>
    obtain ⟨groups, rfl⟩ := Nat.exists_eq_succ_of_ne_zero (Nat.ne_of_gt (Nat.zero_lt_of_lt short))
    have first := more b List.mem_cons_self
    have continues : ¬ b &&& 0x80 = 0 := by
      rw [continuation_clear_iff]
      omega
    rw [readGroups, if_neg continues]
    exact ih (Nat.lt_of_succ_lt_succ short) fun c member => more c (List.mem_cons_of_mem _ member)

theorem readGroups_exhausted {groups shift value : Nat} {input : List UInt8} (long : groups ≤ input.length)
    (more : ∀ b ∈ input.take groups, 128 ≤ b.toNat) :
    ∃ last, readGroups bits exhausted tooShort groups shift value input =
      (exhausted last).map fun value => (value, input.drop groups) := by
  induction groups generalizing input shift value with
  | zero => exact ⟨value, rfl⟩
  | succ groups ih =>
    cases input with
    | nil => exact absurd long (Nat.not_succ_le_zero _)
    | cons b input =>
      rw [List.take_succ_cons, List.forall_mem_cons] at more
      have continues : ¬ b &&& 0x80 = 0 := by
        rw [continuation_clear_iff]
        omega
      rw [readGroups, if_neg continues]
      exact ih (Nat.le_of_succ_le_succ long) more.2

theorem or_group {value shift group : Nat} (below : value < 2 ^ shift) (inside : shift ≤ bits) :
    value ||| (group <<< shift) % 2 ^ bits = (value + group * 2 ^ shift) % 2 ^ bits := by
  have weight : 2 ^ bits = 2 ^ shift * 2 ^ (bits - shift) := by
    rw [← Nat.pow_add, Nat.add_sub_cancel' inside]
  have cut : (group <<< shift) % 2 ^ bits = (group % 2 ^ (bits - shift)) <<< shift := by
    rw [Nat.shiftLeft_eq, Nat.shiftLeft_eq, weight, Nat.mul_comm group, Nat.mul_mod_mul_left, Nat.mul_comm]
  have whole := Nat.mod_lt group (Nat.two_pow_pos (bits - shift))
  rw [cut, or_shiftLeft_of_lt below]
  have fits : value + group % 2 ^ (bits - shift) * 2 ^ shift < 2 ^ bits := by
    have step := Nat.mul_le_mul_right (2 ^ shift) (Nat.succ_le_of_lt whole)
    rw [Nat.succ_mul, Nat.mul_comm (2 ^ (bits - shift)), ← weight] at step
    omega
  have same : (value + group % 2 ^ (bits - shift) * 2 ^ shift) % 2 ^ bits =
      (value + group * 2 ^ shift) % 2 ^ bits := by
    have move : group % 2 ^ (bits - shift) * 2 ^ shift ≡ group * 2 ^ shift [MOD 2 ^ bits] := by
      rw [weight, Nat.mul_comm (2 ^ shift)]
      exact (Nat.mod_modEq group _).mul_right' _
    exact Nat.ModEq.add_left value move
  rw [← same, Nat.mod_eq_of_lt fits]

theorem readGroups_whole {groups shift value : Nat} {bytes : List UInt8} (whole : Whole bytes)
    (short : bytes.length ≤ groups) (below : value < 2 ^ shift) (width : shift + 7 * groups < bits + 7)
    (rest : List UInt8) :
    readGroups bits exhausted tooShort groups shift value (bytes ++ rest) =
      .ok ((value + groupNat bytes * 2 ^ shift) % 2 ^ bits, rest) := by
  induction bytes generalizing groups shift value with
  | nil => exact absurd whole id
  | cons b bytes ih =>
    obtain ⟨groups, rfl⟩ := Nat.exists_eq_succ_of_ne_zero (Nat.ne_of_gt (Nat.zero_lt_of_lt short))
    rw [List.cons_append, readGroups, low_seven_bits, or_group below (by omega)]
    by_cases last : b.toNat < 128
    · rw [Whole, if_pos last] at whole
      subst whole
      rw [if_pos ((continuation_clear_iff b).mpr last), groupNat_cons, groupNat_nil, Nat.mul_zero, Nat.add_zero]
      rfl
    · have continues : ¬ b &&& 0x80 = 0 := by
        rwa [continuation_clear_iff]
      rw [whole_cons (Nat.le_of_not_lt last)] at whole
      have weight : 2 ^ (shift + 7) = 128 * 2 ^ shift := by
        rw [Nat.pow_add, Nat.mul_comm]
      have deeper : (value + b.toNat % 128 * 2 ^ shift) % 2 ^ bits < 2 ^ (shift + 7) := by
        have step := Nat.mul_le_mul_right (2 ^ shift) (Nat.succ_le_of_lt (Nat.mod_lt b.toNat (show 0 < 128 by decide)))
        rw [Nat.succ_mul] at step
        have less := Nat.mod_le (value + b.toNat % 128 * 2 ^ shift) (2 ^ bits)
        omega
      rw [if_neg continues]
      have left : 0 < bytes.length := List.length_pos_iff.mpr whole.ne_nil
      rw [List.length_cons] at short
      rw [ih whole (by omega) deeper (by omega), weight, groupNat_cons]
      congr 2
      rw [Nat.mod_add_mod]
      congr 1
      ring

theorem readGroups_prefixed {groups shift value : Nat} :
    Prefixed (readGroups bits exhausted tooShort groups shift value) := by
  intro input read rest accepted
  induction groups generalizing shift value input with
  | zero =>
    obtain ⟨last, found, same⟩ := except_map_ok.mp accepted
    cases same
    refine ⟨[], rfl, fun rest => ?_⟩
    rw [List.nil_append, readGroups, found]
    rfl
  | succ groups ih =>
    cases input with
    | nil => cases accepted
    | cons b input =>
      rw [readGroups] at accepted
      split at accepted
      · rename_i last
        cases accepted
        refine ⟨[b], rfl, fun rest => ?_⟩
        rw [List.singleton_append, readGroups, if_pos last]
      · rename_i more
        obtain ⟨written, rfl, reads⟩ := ih _ accepted
        refine ⟨b :: written, rfl, fun rest => ?_⟩
        rw [List.cons_append, readGroups, if_neg more]
        exact reads rest

theorem reads_writeGroups {fuel value : Nat} (fits : value < 128 ^ (fuel + 1)) (narrow : value < 2 ^ bits)
    (width : 7 * (fuel + 1) < bits + 7) :
    Reads (readGroups bits exhausted tooShort (fuel + 1) 0 0) (writeGroups fuel value) value := by
  have written := writeGroups_shortest fits
  intro rest
  rw [readGroups_whole written.1.1 (writeGroups_length fuel value) (by decide) (by omega), written.2,
    Nat.zero_add, Nat.pow_zero, Nat.mul_one, Nat.mod_eq_of_lt narrow]

theorem readGroups_ok {groups : Nat} {input rest : List UInt8} {value : Nat} (width : 7 * groups < bits + 7)
    (accepted : readGroups bits exhausted tooShort groups 0 0 input = .ok (value, rest)) :
    (∃ bytes, input = bytes ++ rest ∧ Whole bytes ∧ bytes.length ≤ groups ∧
      value = groupNat bytes % 2 ^ bits) ∨
    (groups ≤ input.length ∧ (∀ b ∈ input.take groups, 128 ≤ b.toNat) ∧ rest = input.drop groups ∧
      ∃ last, exhausted last = .ok value) := by
  rcases groups_cases groups input with ⟨bytes, rest', rfl, whole, short⟩ | ⟨long, all⟩ | ⟨short, all⟩
  · rw [readGroups_whole whole short (by decide) (by omega)] at accepted
    cases accepted
    exact .inl ⟨bytes, rfl, whole, short, by rw [Nat.zero_add, Nat.pow_zero, Nat.mul_one]⟩
  · obtain ⟨last, same⟩ := @readGroups_exhausted _ bits exhausted tooShort groups 0 0 _ long all
    rw [same, except_map_ok] at accepted
    obtain ⟨value', found, same⟩ := accepted
    cases same
    exact .inr ⟨long, all, rfl, last, found⟩
  · rw [readGroups_short short all] at accepted
    cases accepted

theorem readGroups_lt (within : ∀ last value, last < 2 ^ bits → exhausted last = .ok value → value < 2 ^ bits)
    {groups shift value : Nat} (small : value < 2 ^ bits) {input : List UInt8} {read : Nat × List UInt8}
    (accepted : readGroups bits exhausted tooShort groups shift value input = .ok read) :
    read.1 < 2 ^ bits := by
  induction groups generalizing shift value input with
  | zero =>
    obtain ⟨last, found, rfl⟩ := except_map_ok.mp accepted
    exact within value last small found
  | succ groups ih =>
    cases input with
    | nil => cases accepted
    | cons b input =>
      have joined := Nat.or_lt_two_pow small
        (Nat.mod_lt (((b &&& 0x7f).toNat <<< shift)) (Nat.two_pow_pos bits))
      rw [readGroups] at accepted
      split at accepted
      · cases accepted
        exact joined
      · exact ih joined accepted

end Reading

section Faithfulness

variable {ε α : Type}

/- What is read off the front of the input is what stands there. -/
def Faithful (reader : Reader ε UInt8 α) (unsigned : α → Nat) (input : List UInt8) : Prop :=
  ∀ value rest, reader input = .ok (value, rest) →
    ∃ consumed, input = consumed ++ rest ∧ Whole consumed ∧ unsigned value = groupNat consumed

theorem groupNat_append (first second : List UInt8) :
    groupNat (first ++ second) = groupNat first + 128 ^ first.length * groupNat second := by
  rw [groupNat, List.map_append, Nat.ofDigits_append, List.length_map]
  rfl

theorem whole_concat {front : List UInt8} {last : UInt8} :
    Whole (front ++ [last]) ↔ (∀ b ∈ front, 128 ≤ b.toNat) ∧ last.toNat < 128 := by
  induction front with
  | nil =>
    refine ⟨fun whole => ⟨by simp, ?_⟩, fun both => whole_last both.2⟩
    by_contra more
    rw [List.nil_append, Whole, if_neg more] at whole
    exact whole
  | cons b front ih =>
    rw [List.cons_append, List.forall_mem_cons]
    by_cases stop : b.toNat < 128
    · rw [Whole, if_pos stop]
      exact iff_of_false (by simp) fun both => Nat.not_lt_of_le both.1.1 stop
    · have more := Nat.le_of_not_lt stop
      rw [whole_cons more, ih]
      exact ⟨fun both => ⟨⟨more, both.1⟩, both.2⟩, fun both => ⟨both.1.2, both.2⟩⟩

theorem groupNat_fits {groups top : Nat} {front : List UInt8} {last : UInt8} (full : front.length = groups)
    (clear : last.toNat < 128) :
    groupNat (front ++ [last]) < 2 ^ (7 * groups + top) ↔ last.toNat < 2 ^ top := by
  have low := groupNat_lt front
  have weight : 2 ^ (7 * groups + top) = 128 ^ groups * 2 ^ top := by
    rw [Nat.pow_add, Nat.pow_mul]
  rw [full] at low
  rw [groupNat_append, groupNat_cons, groupNat_nil, full, Nat.mul_zero, Nat.add_zero,
    Nat.mod_eq_of_lt clear, weight]
  constructor
  · intro fits
    by_contra much
    have := Nat.mul_le_mul_left (128 ^ groups) (Nat.le_of_not_lt much)
    omega
  · intro small
    have := Nat.mul_le_mul_left (128 ^ groups) (Nat.succ_le_of_lt small)
    rw [Nat.mul_succ] at this
    omega

variable {groups top : Nat} {tooShort : ε} {input : List UInt8}

/- The bytes up to the last group, all of which say that more follow. -/
def Reaches (groups : Nat) (input : List UInt8) (last : UInt8) : Prop :=
  (∀ b ∈ input.take groups, 128 ≤ b.toNat) ∧ input[groups]? = some last

theorem Reaches.split {last : UInt8} (reaches : Reaches groups input last) :
    input = (input.take groups ++ [last]) ++ input.drop (groups + 1) ∧ (input.take groups).length = groups := by
  obtain ⟨inside, same⟩ := List.getElem?_eq_some_iff.mp reaches.2
  refine ⟨?_, List.length_take_of_le (Nat.le_of_lt inside)⟩
  rw [← same, List.take_append_getElem inside, List.take_append_drop]

theorem fits_of_faithful {exhausted : Nat → Except ε Nat} (room : 0 < top) {last : UInt8}
    (reaches : Reaches groups input last) (clear : last.toNat < 128)
    (faithful : Faithful (readGroups (7 * groups + top) exhausted tooShort (groups + 1) 0 0) id input) :
    last.toNat < 2 ^ top := by
  obtain ⟨split, full⟩ := reaches.split
  have whole : Whole (input.take groups ++ [last]) := whole_concat.mpr ⟨reaches.1, clear⟩
  have read := @readGroups_whole ε (7 * groups + top) exhausted tooShort (groups + 1) 0 0 _ whole
    (by rw [List.length_append, full]; rfl) (by decide) (by omega) (input.drop (groups + 1))
  rw [← split] at read
  obtain ⟨consumed, same, -, value⟩ := faithful _ _ read
  obtain rfl : consumed = input.take groups ++ [last] := List.append_cancel_right (same.symm.trans split)
  apply (groupNat_fits full clear).mp
  rw [← value]
  exact Nat.mod_lt _ (Nat.two_pow_pos _)

theorem reaches_last (long : groups + 1 ≤ input.length) (more : ∀ b ∈ input.take (groups + 1), 128 ≤ b.toNat) :
    ∃ last, Reaches groups input last ∧ 128 ≤ last.toNat := by
  have split := @List.take_add_one _ input groups
  have here : input[groups]? = some input[groups] := List.getElem?_eq_getElem long
  rw [here, Option.toList_some] at split
  rw [split] at more
  refine ⟨input[groups], ⟨fun b member => more b (List.mem_append_left _ member), here⟩, ?_⟩
  exact more _ (List.mem_append_right _ (List.mem_singleton.mpr rfl))

theorem faithful_of_fits {exhausted : Nat → Except ε Nat} (room : 0 < top) (narrow : top ≤ 7)
    (fits : ∀ last, Reaches groups input last → last.toNat < 2 ^ top ∨
      128 ≤ last.toNat ∧ ∀ value, ∃ error, exhausted value = .error error) :
    Faithful (readGroups (7 * groups + top) exhausted tooShort (groups + 1) 0 0) id input := by
  have small : 2 ^ top ≤ 2 ^ 7 := Nat.pow_le_pow_right (by decide) narrow
  intro value rest accepted
  rcases readGroups_ok (by omega) accepted with ⟨bytes, same, whole, short, value⟩ | ⟨long, all, -, last, found⟩
  · refine ⟨bytes, same, whole, ?_⟩
    rw [id, value]
    apply Nat.mod_eq_of_lt
    rcases List.eq_nil_or_concat' bytes with rfl | ⟨front, last, rfl⟩
    · exact absurd whole id
    · obtain ⟨more, clear⟩ := whole_concat.mp whole
      rw [List.length_append, List.length_singleton] at short
      by_cases full : front.length = groups
      · have reaches : Reaches groups input last := by
          rw [same, List.append_assoc, ← full]
          refine ⟨?_, ?_⟩
          · rwa [List.take_left']
            rfl
          · rw [List.getElem?_append_right (Nat.le_refl _), Nat.sub_self]
            rfl
        refine (groupNat_fits full clear).mpr ?_
        rcases fits last reaches with fits | more
        · exact fits
        · omega
      · have bound : groupNat (front ++ [last]) < 128 ^ (front ++ [last]).length := groupNat_lt _
        refine bound.trans_le ?_
        have width : (2 : Nat) ^ (7 * groups) ≤ 2 ^ (7 * groups + top) :=
          Nat.pow_le_pow_right (by decide) (Nat.le_add_right _ _)
        rw [Nat.pow_mul] at width
        refine le_trans (Nat.pow_le_pow_right (by decide) ?_) width
        rw [List.length_append, List.length_singleton]
        omega
  · obtain ⟨b, reaches, more⟩ := reaches_last long all
    rcases fits b reaches with clear | ⟨-, fails⟩
    · omega
    · obtain ⟨error, failed⟩ := fails last
      rw [failed] at found
      cases found

theorem faithful_refusing {exhausted : ε} (room : 0 < top) (narrow : top ≤ 7) :
    Faithful (readGroups (7 * groups + top) (fun _ => .error exhausted) tooShort (groups + 1) 0 0) id input ↔
      ∀ last, Reaches groups input last → last.toNat < 2 ^ top ∨ 128 ≤ last.toNat := by
  constructor
  · intro faithful last reaches
    by_cases clear : last.toNat < 128
    · exact .inl (fits_of_faithful room reaches clear faithful)
    · exact .inr (Nat.le_of_not_lt clear)
  · intro fits
    exact faithful_of_fits room narrow fun last reaches =>
      (fits last reaches).imp_right fun more => ⟨more, fun _ => ⟨exhausted, rfl⟩⟩

theorem faithful_returning (room : 0 < top) (narrow : top ≤ 7) :
    Faithful (readGroups (7 * groups + top) .ok tooShort (groups + 1) 0 0) id input ↔
      ∀ last, Reaches groups input last → last.toNat < 2 ^ top := by
  constructor
  · intro faithful last reaches
    by_cases clear : last.toNat < 128
    · exact fits_of_faithful room reaches clear faithful
    · obtain ⟨split, full⟩ := reaches.split
      have length : (input.take groups ++ [last]).length = groups + 1 := by
        rw [List.length_append, full, List.length_singleton]
      have front : input.take (groups + 1) = input.take groups ++ [last] := by
        rw [List.take_add_one, reaches.2, Option.toList_some]
      have long : groups + 1 ≤ input.length := by
        rw [split, List.length_append, length]
        exact Nat.le_add_right _ _
      have all : ∀ b ∈ input.take (groups + 1), 128 ≤ b.toNat := by
        rw [front]
        intro b member
        rcases List.mem_append.mp member with member | member
        · exact reaches.1 b member
        · rw [List.mem_singleton.mp member]
          exact Nat.le_of_not_lt clear
      obtain ⟨value, read⟩ := @readGroups_exhausted ε (7 * groups + top) .ok tooShort (groups + 1) 0 0 input long all
      obtain ⟨consumed, same, whole, -⟩ := faithful _ _ read
      obtain rfl : consumed = input.take groups ++ [last] := List.append_cancel_right (same.symm.trans split)
      exact absurd (whole_concat.mp whole).2 clear
  · intro fits
    exact faithful_of_fits room narrow fun last reaches => .inl (fits last reaches)

end Faithfulness

end Surch.Lib.Leb128
