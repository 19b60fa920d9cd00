import Surch.Lib.Bytes

/-! Fixed-width bit packing as arithmetic: a list of numbers below `2 ^ width` is one
number in base `2 ^ width`, and each element is a digit of it. -/
namespace Surch.Lib

/-- The number whose base `2 ^ width` digits are the listed values, lowest first. -/
def packedNumber (width : Nat) : List Nat → Nat
  | [] => 0
  | v :: vs => v + 2 ^ width * packedNumber width vs

theorem packedNumber_lt (width : Nat) (vs : List Nat) (fits : ∀ v ∈ vs, v < 2 ^ width) :
    packedNumber width vs < 2 ^ (width * vs.length) := by
  induction vs with
  | nil => simp [packedNumber]
  | cons v vs ih =>
    have head := fits v (List.mem_cons_self ..)
    have tail : packedNumber width vs + 1 ≤ 2 ^ (width * vs.length) :=
      ih fun x hx => fits x (List.mem_cons_of_mem _ hx)
    calc packedNumber width (v :: vs) = v + 2 ^ width * packedNumber width vs := rfl
      _ < 2 ^ width * (packedNumber width vs + 1) := by rw [Nat.mul_add]; omega
      _ ≤ 2 ^ width * 2 ^ (width * vs.length) := Nat.mul_le_mul_left _ tail
      _ = 2 ^ (width * (v :: vs).length) := by
        rw [← Nat.pow_add, List.length_cons]
        ring_nf

theorem packedNumber_digit (width : Nat) (vs : List Nat) (fits : ∀ v ∈ vs, v < 2 ^ width)
    (i : Nat) (inside : i < vs.length) :
    packedNumber width vs / 2 ^ (width * i) % 2 ^ width = vs[i] := by
  induction vs generalizing i with
  | nil => simp at inside
  | cons v vs ih =>
    have head := fits v (List.mem_cons_self ..)
    have rest : ∀ x ∈ vs, x < 2 ^ width := fun x hx => fits x (List.mem_cons_of_mem _ hx)
    have positive : 0 < 2 ^ width := Nat.two_pow_pos width
    cases i with
    | zero =>
      simp only [packedNumber, Nat.mul_zero, Nat.pow_zero, Nat.div_one, List.getElem_cons_zero]
      rw [Nat.add_mul_mod_self_left, Nat.mod_eq_of_lt head]
    | succ i =>
      have shift : packedNumber width (v :: vs) / 2 ^ (width * (i + 1)) =
          packedNumber width vs / 2 ^ (width * i) := by
        rw [Nat.mul_add, Nat.mul_one, Nat.add_comm, Nat.pow_add, ← Nat.div_div_eq_div_mul]
        congr 1
        rw [packedNumber, Nat.add_mul_div_left _ _ positive, Nat.div_eq_of_lt head, Nat.zero_add]
      rw [shift, List.getElem_cons_succ]
      exact ih rest i (by simpa using inside)

theorem byte_field (n i bit take : Nat) (inside : bit + take ≤ 8) :
    n / 256 ^ i % 256 / 2 ^ bit % 2 ^ take = n / 2 ^ (8 * i + bit) % 2 ^ take := by
  have byte : (256 : Nat) = 2 ^ bit * 2 ^ (8 - bit) := by
    rw [← Nat.pow_add, show bit + (8 - bit) = 8 by omega]
  have weight : (256 : Nat) ^ i * 2 ^ bit = 2 ^ (8 * i + bit) := by
    rw [Nat.pow_add, Nat.pow_mul]
  have low : n / 256 ^ i % 256 / 2 ^ bit = n / 2 ^ (8 * i + bit) % 2 ^ (8 - bit) := by
    have cut := Nat.mod_mul_right_div_self (n / 256 ^ i) (2 ^ bit) (2 ^ (8 - bit))
    rw [← byte, Nat.div_div_eq_div_mul, weight] at cut
    exact cut
  rw [low, Nat.mod_mod_of_dvd]
  exact Nat.pow_dvd_pow 2 (by omega)

theorem or_shiftLeft_of_lt {low k : Nat} (small : low < 2 ^ k) (high : Nat) :
    low ||| high <<< k = low + high * 2 ^ k := by
  have joined := Nat.shiftLeft_add_eq_or_of_lt small high
  rw [Nat.or_comm, ← joined, Nat.shiftLeft_eq, Nat.add_comm]

/-- A field of `a + b` bits is its low `a` bits followed by its high `b` bits. -/
theorem field_split (n a b : Nat) :
    n % 2 ^ (a + b) = n % 2 ^ a + 2 ^ a * (n / 2 ^ a % 2 ^ b) := by
  rw [Nat.pow_add, Nat.mod_mul]

theorem low_seven_bits (byte : UInt8) : (byte &&& 0x7f).toNat = byte.toNat % 128 := by
  rw [UInt8.toNat_and]
  exact Nat.and_two_pow_sub_one_eq_mod _ 7

theorem continuation_clear_iff (byte : UInt8) : byte &&& 0x80 = 0 ↔ byte.toNat < 128 := by
  have bits : ∀ n, n < 256 → (n &&& 128 = 0 ↔ n < 128) := by decide +kernel
  rw [← UInt8.toNat_inj, UInt8.toNat_and]
  exact bits byte.toNat byte.toNat_lt

theorem continuation_byte_toNat (n : Nat) (small : n < 128) :
    (UInt8.ofNat n ||| 0x80).toNat = n + 128 := by
  have clear : (UInt8.ofNat n).toNat = n := by
    rw [UInt8.toNat_ofNat']; omega
  have joined := Nat.two_pow_add_eq_or_of_lt (i := 7) small 1
  rw [UInt8.toNat_or, clear, Nat.or_comm]
  simpa [Nat.add_comm] using joined.symm

end Surch.Lib
