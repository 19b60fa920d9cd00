import Surch.Codec.Varint

/-! `pack_bits` and `unpack_bits`: fixed-width values written low bits first, each one
straddling byte boundaries as it falls. Both loops are compared with `packedNumber`. -/
namespace Surch.Codec
open Surch.Lib

/-- `packed_len`: the bytes taken by `count` values of `width` bits. -/
def packedLen (count width : Nat) : Nat := (count * width + 7) / 8

/-- The inner loop of `pack_bits`: `remaining` low bits of `rest`, from `bitCursor` on. -/
def packValue (out : List UInt8) (bitCursor remaining rest : Nat) : List UInt8 × Nat :=
  if remaining = 0 then (out, bitCursor)
  else
    let bitInByte := bitCursor % 8
    let take := min remaining (8 - bitInByte)
    let chunk := rest &&& (2 ^ take - 1)
    packValue (out.modify (bitCursor / 8) (· ||| UInt8.ofNat (chunk <<< bitInByte)))
      (bitCursor + take) (remaining - take) (rest >>> take)
termination_by remaining
decreasing_by omega

def packValues (width : Nat) : List Nat → List UInt8 × Nat → List UInt8 × Nat
  | [], state => state
  | value :: values, (out, bitCursor) => packValues width values (packValue out bitCursor width value)

/-- `pack_bits`: the bytes appended for the whole slice, padding bits clear. -/
def packBits (values : List Nat) (width : Nat) : List UInt8 :=
  if width = 0 ∨ values = [] then []
  else (packValues width values (List.replicate (packedLen values.length width) 0, 0)).1

/-- The inner loop of `unpack_bits`, up to `width` collected bits. -/
def unpackValue (slice : List UInt8) (width bitCursor collected value : Nat) : Nat × Nat :=
  if collected < width then
    let byte := slice.getD (bitCursor / 8) 0
    let bitInByte := bitCursor % 8
    let take := min (width - collected) (8 - bitInByte)
    let mask := 2 ^ take - 1
    unpackValue slice width (bitCursor + take) (collected + take)
      (value ||| ((byte.toNat >>> bitInByte) &&& mask) <<< collected)
  else (value, bitCursor)
termination_by width - collected
decreasing_by omega

def unpackValues (slice : List UInt8) (width : Nat) : (count bitCursor : Nat) → List Nat
  | 0, _ => []
  | count + 1, bitCursor =>
    let (value, bitCursor) := unpackValue slice width bitCursor 0 0
    value :: unpackValues slice width count bitCursor

/-- `unpack_bits`: the values and the suffix after exactly the bytes they take. -/
def unpackBits (count width : Nat) : BlockReader (List Nat) := fun bytes =>
  if count = 0 then .ok ([], bytes)
  else
    let byteLen := packedLen count width
    if bytes.length < byteLen then .error .unexpectedEof
    else .ok (unpackValues (bytes.take byteLen) width count 0, bytes.drop byteLen)

theorem pack_chunk (out : List UInt8) (bitCursor take chunk : Nat)
    (clear : leNat out < 2 ^ bitCursor) (room : bitCursor < 8 * out.length)
    (inside : bitCursor % 8 + take ≤ 8) (small : chunk < 2 ^ take) :
    leNat (out.modify (bitCursor / 8) (· ||| UInt8.ofNat (chunk <<< (bitCursor % 8)))) =
      leNat out + 2 ^ bitCursor * chunk := by
  have index : bitCursor / 8 < out.length := by omega
  have cursor : 8 * (bitCursor / 8) + bitCursor % 8 = bitCursor := by omega
  have old := byte_lt_of_leNat_lt out (bitCursor / 8) (bitCursor % 8) index
    (by rw [cursor]; exact clear)
  have shifted : chunk <<< (bitCursor % 8) < 256 := by
    rw [Nat.shiftLeft_eq]
    calc chunk * 2 ^ (bitCursor % 8) < 2 ^ take * 2 ^ (bitCursor % 8) :=
          Nat.mul_lt_mul_of_pos_right small (Nat.two_pow_pos _)
      _ = 2 ^ (bitCursor % 8 + take) := by rw [← Nat.pow_add, Nat.add_comm]
      _ ≤ 2 ^ 8 := Nat.pow_le_pow_right (by decide) inside
  have byte : (out[bitCursor / 8] ||| UInt8.ofNat (chunk <<< (bitCursor % 8))).toNat =
      out[bitCursor / 8].toNat + chunk * 2 ^ (bitCursor % 8) := by
    rw [UInt8.toNat_or, UInt8.toNat_ofNat', Nat.mod_eq_of_lt shifted, or_shiftLeft_of_lt old]
  have weight : 256 ^ (bitCursor / 8) * 2 ^ (bitCursor % 8) = 2 ^ bitCursor := by
    rw [show (256 : Nat) = 2 ^ 8 by decide, ← Nat.pow_mul, ← Nat.pow_add, cursor]
  have moved := leNat_set out (bitCursor / 8)
    (out[bitCursor / 8] ||| UInt8.ofNat (chunk <<< (bitCursor % 8))) index
  rw [byte, Nat.mul_add, Nat.mul_comm chunk, ← Nat.mul_assoc, weight] at moved
  rw [List.modify_eq_set_getElem?, List.getElem?_eq_getElem index]
  change leNat (out.set (bitCursor / 8)
    (out[bitCursor / 8] ||| UInt8.ofNat (chunk <<< (bitCursor % 8)))) = _
  omega

/-- The loop invariant: the buffer spells what it did, plus the value's low bits at the cursor. -/
theorem packValue_spec (out : List UInt8) (bitCursor remaining rest : Nat)
    (clear : leNat out < 2 ^ bitCursor) (room : bitCursor + remaining ≤ 8 * out.length) :
    leNat (packValue out bitCursor remaining rest).1 =
        leNat out + 2 ^ bitCursor * (rest % 2 ^ remaining) ∧
      (packValue out bitCursor remaining rest).1.length = out.length ∧
      (packValue out bitCursor remaining rest).2 = bitCursor + remaining := by
  induction remaining using Nat.strongRecOn generalizing out bitCursor rest with
  | ind remaining ih =>
    rw [packValue]
    split
    · rename_i done
      subst done
      simp [Nat.mod_one]
    · rename_i more
      obtain ⟨take, htake⟩ : ∃ take, take = min remaining (8 - bitCursor % 8) := ⟨_, rfl⟩
      have positive : 0 < take := by omega
      have small : rest % 2 ^ take < 2 ^ take := Nat.mod_lt _ (Nat.two_pow_pos _)
      have chunk := pack_chunk out bitCursor take (rest % 2 ^ take) clear (by omega) (by omega) small
      have grown : leNat out + 2 ^ bitCursor * (rest % 2 ^ take) < 2 ^ (bitCursor + take) := by
        have := Nat.mul_le_mul_left (2 ^ bitCursor) (Nat.succ_le_of_lt small)
        rw [Nat.pow_add, Nat.mul_succ] at *
        omega
      simp only [Nat.and_two_pow_sub_one_eq_mod, ← htake]
      have next := ih (remaining - take) (by omega)
        (out.modify (bitCursor / 8) (· ||| UInt8.ofNat ((rest % 2 ^ take) <<< (bitCursor % 8))))
        (bitCursor + take) (rest >>> take) (by rw [chunk]; exact grown)
        (by rw [List.length_modify]; omega)
      refine ⟨?_, by rw [next.2.1, List.length_modify], by rw [next.2.2]; omega⟩
      have field := field_split rest take (remaining - take)
      rw [show take + (remaining - take) = remaining by omega] at field
      rw [next.1, chunk, field, Nat.shiftRight_eq_div_pow, Nat.pow_add]
      ring

theorem packValues_spec (width : Nat) (values : List Nat) (out : List UInt8) (bitCursor : Nat)
    (clear : leNat out < 2 ^ bitCursor) (fits : ∀ v ∈ values, v < 2 ^ width)
    (room : bitCursor + width * values.length ≤ 8 * out.length) :
    leNat (packValues width values (out, bitCursor)).1 =
        leNat out + 2 ^ bitCursor * packedNumber width values ∧
      (packValues width values (out, bitCursor)).1.length = out.length := by
  induction values generalizing out bitCursor with
  | nil => simp [packValues, packedNumber]
  | cons v values ih =>
    rw [List.length_cons, Nat.mul_add, Nat.mul_one] at room
    have head := fits v (List.mem_cons_self ..)
    have one := packValue_spec out bitCursor width v clear (by omega)
    rw [Nat.mod_eq_of_lt head] at one
    obtain ⟨out', cursor', state⟩ : ∃ o c, packValue out bitCursor width v = (o, c) := ⟨_, _, rfl⟩
    rw [state] at one
    obtain ⟨value, size, cursor⟩ := one
    simp only at value size cursor
    subst cursor
    have grown : leNat out' < 2 ^ (bitCursor + width) := by
      have := Nat.mul_le_mul_left (2 ^ bitCursor) (Nat.succ_le_of_lt head)
      rw [value, Nat.pow_add]
      rw [Nat.mul_succ] at this
      omega
    have rest := ih out' (bitCursor + width) grown
      (fun x hx => fits x (List.mem_cons_of_mem _ hx)) (by rw [size]; omega)
    simp only [packValues, state]
    refine ⟨?_, by rw [rest.2, size]⟩
    rw [rest.1, value, packedNumber, Nat.pow_add]
    ring

theorem packBits_length (values : List Nat) (width : Nat) (fits : ∀ v ∈ values, v < 2 ^ width)
    (positive : 0 < width) : (packBits values width).length = packedLen values.length width := by
  unfold packBits
  split
  · rename_i trivial
    rcases trivial with zero | empty
    · omega
    · simp [empty, packedLen]
  · have room : width * values.length ≤ 8 * packedLen values.length width := by
      rw [Nat.mul_comm]; unfold packedLen; omega
    have packed := packValues_spec width values (List.replicate (packedLen values.length width) 0) 0
      (by simp [leNat_replicate_zero]) fits (by simpa using room)
    simpa using packed.2

theorem packBits_leNat (values : List Nat) (width : Nat) (fits : ∀ v ∈ values, v < 2 ^ width) :
    leNat (packBits values width) = packedNumber width values := by
  unfold packBits
  split
  · rename_i trivial
    rcases trivial with zero | empty
    · subst zero
      have clear : ∀ vs : List Nat, (∀ v ∈ vs, v < 2 ^ 0) → packedNumber 0 vs = 0 := by
        intro vs small
        have := packedNumber_lt 0 vs small
        simpa using this
      rw [clear values fits, leNat_nil]
    · simp [empty, packedNumber]
  · have room : width * values.length ≤ 8 * packedLen values.length width := by
      rw [Nat.mul_comm]; unfold packedLen; omega
    have packed := packValues_spec width values (List.replicate (packedLen values.length width) 0) 0
      (by simp [leNat_replicate_zero]) fits (by simpa using room)
    simpa [leNat_replicate_zero] using packed.1

theorem unpackValue_spec (slice : List UInt8) (width bitCursor collected value : Nat)
    (small : value < 2 ^ collected) (bound : collected ≤ width)
    (room : bitCursor + (width - collected) ≤ 8 * slice.length) :
    unpackValue slice width bitCursor collected value =
      (value + 2 ^ collected * (leNat slice / 2 ^ bitCursor % 2 ^ (width - collected)),
        bitCursor + (width - collected)) := by
  obtain ⟨left, hleft⟩ : ∃ left, left = width - collected := ⟨_, rfl⟩
  induction left using Nat.strongRecOn generalizing bitCursor collected value with
  | ind left ih =>
    rw [unpackValue]
    split
    · rename_i more
      obtain ⟨take, htake⟩ : ∃ take, take = min (width - collected) (8 - bitCursor % 8) := ⟨_, rfl⟩
      have index : bitCursor / 8 < slice.length := by omega
      have byte : slice.getD (bitCursor / 8) 0 = slice[bitCursor / 8] := by
        rw [List.getD_eq_getElem?_getD, List.getElem?_eq_getElem index, Option.getD_some]
      have bits : slice[bitCursor / 8].toNat / 2 ^ (bitCursor % 8) % 2 ^ take =
          leNat slice / 2 ^ bitCursor % 2 ^ take := by
        rw [leNat_digit slice _ index, byte_field _ _ _ _ (by omega),
          show 8 * (bitCursor / 8) + bitCursor % 8 = bitCursor by omega]
      simp only [byte, ← htake, Nat.and_two_pow_sub_one_eq_mod, Nat.shiftRight_eq_div_pow, bits,
        or_shiftLeft_of_lt small]
      have digit : leNat slice / 2 ^ bitCursor % 2 ^ take < 2 ^ take :=
        Nat.mod_lt _ (Nat.two_pow_pos _)
      have grown : value + leNat slice / 2 ^ bitCursor % 2 ^ take * 2 ^ collected <
          2 ^ (collected + take) := by
        have := Nat.mul_le_mul_left (2 ^ collected) (Nat.succ_le_of_lt digit)
        rw [Nat.mul_succ, ← Nat.pow_add, Nat.mul_comm (2 ^ collected) (_ % _)] at this
        omega
      rw [ih (left - take) (by omega) (bitCursor + take) (collected + take) _ grown (by omega)
        (by omega) (by omega)]
      have field := field_split (leNat slice / 2 ^ bitCursor) take (width - (collected + take))
      rw [show take + (width - (collected + take)) = width - collected by omega,
        Nat.div_div_eq_div_mul, ← Nat.pow_add] at field
      refine Prod.ext ?_ (by simp only; omega)
      simp only [field, Nat.pow_add]
      ring
    · have full : width - collected = 0 := by omega
      simp [full, Nat.mod_one]

theorem unpackValues_spec (slice : List UInt8) (width count bitCursor : Nat)
    (room : bitCursor + width * count ≤ 8 * slice.length) :
    unpackValues slice width count bitCursor =
      (List.range count).map fun i => leNat slice / 2 ^ (bitCursor + width * i) % 2 ^ width := by
  induction count generalizing bitCursor with
  | zero => rfl
  | succ count ih =>
    rw [Nat.mul_add, Nat.mul_one] at room
    have first := unpackValue_spec slice width bitCursor 0 0 (by decide) (Nat.zero_le _) (by omega)
    simp only [Nat.sub_zero, Nat.pow_zero, Nat.one_mul, Nat.zero_add] at first
    simp only [unpackValues, first]
    rw [ih (bitCursor + width) (by omega), List.range_succ_eq_map, List.map_cons, List.map_map]
    congr 1
    apply List.map_congr_left
    intro i _
    simp only [Function.comp_apply, Nat.succ_eq_add_one, Nat.mul_add, Nat.mul_one]
    congr 3
    omega

theorem reads_packBits (values : List Nat) (width : Nat) (positive : 0 < width)
    (fits : ∀ v ∈ values, v < 2 ^ width) :
    Reads (unpackBits values.length width) (packBits values width) values := by
  intro rest
  have size := packBits_length values width fits positive
  unfold unpackBits
  split
  · rename_i empty
    have nil : values = [] := List.length_eq_zero_iff.mp empty
    simp [nil, packBits]
  · have enough : ¬ (packBits values width ++ rest).length < packedLen values.length width := by
      rw [List.length_append]; omega
    have front : (packBits values width ++ rest).take (packedLen values.length width) =
        packBits values width := by rw [← size]; exact List.take_left
    have back : (packBits values width ++ rest).drop (packedLen values.length width) = rest := by
      rw [← size]; exact List.drop_left
    have room : 0 + width * values.length ≤ 8 * (packBits values width).length := by
      rw [size, Nat.mul_comm]; unfold packedLen; omega
    simp only [if_neg enough, front, back, unpackValues_spec _ _ _ _ room,
      packBits_leNat values width fits, Nat.zero_add]
    congr 2
    apply List.ext_getElem (by simp)
    intro i h₁ h₂
    rw [List.getElem_map, List.getElem_range]
    exact packedNumber_digit width values fits i h₂

end Surch.Codec
