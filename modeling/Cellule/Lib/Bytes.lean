import Mathlib

/-!
# Fixed-width numbers as bytes

The little-endian and big-endian bytes of a number, as standard libraries write integers.
-/

/-- A row of bytes. -/
abbrev Bytes := List UInt8

namespace Bytes

open List

/-- The `width` low bytes of `n`, least significant first. -/
def le : (width n : Nat) → Bytes
  | 0, _ => []
  | width + 1, n => UInt8.ofNat n :: le width (n / 256)

/-- The `width` low bytes of `n`, most significant first. -/
def be (width n : Nat) : Bytes := (le width n).reverse

/-- The number that little-endian bytes stand for. -/
def ofLe : Bytes → Nat
  | [] => 0
  | b :: bs => b.toNat + 256 * ofLe bs

/-- The number that big-endian bytes stand for. -/
def ofBe (bs : Bytes) : Nat := ofLe bs.reverse

@[simp] theorem length_le (width n : Nat) : (le width n).length = width := by
  induction width generalizing n with
  | zero => rfl
  | succ width ih => rw [le, length_cons, ih]

/-- The bytes of a number that fits read back as the number. -/
theorem ofLe_le {width n : Nat} (h : n < 256 ^ width) : ofLe (le width n) = n := by
  induction width generalizing n with
  | zero =>
    rw [Nat.pow_zero] at h
    simp only [le, ofLe]
    omega
  | succ width ih =>
    rw [Nat.pow_succ] at h
    rw [le, ofLe, ih (by omega), UInt8.toNat_ofNat']
    omega

@[simp] theorem length_be (width n : Nat) : (be width n).length = width := by
  rw [be, length_reverse, length_le]

theorem ofBe_be {width n : Nat} (h : n < 256 ^ width) : ofBe (be width n) = n := by
  rw [ofBe, be, reverse_reverse, ofLe_le h]

theorem ofLe_lt (bs : Bytes) : ofLe bs < 256 ^ bs.length := by
  induction bs with
  | nil => exact Nat.one_pos
  | cons b bs ih =>
    have := b.toNat_lt
    rw [ofLe, length_cons, Nat.pow_succ]
    omega

/-- The low bytes of a number. -/
theorem ofLe_mod (bs : Bytes) (k : Nat) : ofLe bs % 256 ^ k = ofLe (bs.take k) := by
  induction k generalizing bs with
  | zero => rw [Nat.pow_zero, Nat.mod_one, take_zero, ofLe]
  | succ k ih =>
    cases bs with
    | nil => rw [take_nil, ofLe, Nat.zero_mod]
    | cons b bs =>
      have hb : b.toNat < 256 := b.toNat_lt
      rw [take_succ_cons, ofLe, ofLe, ← ih, Nat.pow_succ', Nat.mod_mul, Nat.add_mul_mod_self_left,
        Nat.add_mul_div_left _ _ (by omega), Nat.mod_eq_of_lt hb, Nat.div_eq_of_lt hb, Nat.zero_add]

/-- The high bytes of a number. -/
theorem ofLe_div (bs : Bytes) (k : Nat) : ofLe bs / 256 ^ k = ofLe (bs.drop k) := by
  induction k generalizing bs with
  | zero => rw [Nat.pow_zero, Nat.div_one, drop_zero]
  | succ k ih =>
    cases bs with
    | nil => rw [drop_nil, ofLe, Nat.zero_div]
    | cons b bs =>
      have hb : b.toNat < 256 := b.toNat_lt
      rw [drop_succ_cons, ofLe, ← ih, Nat.pow_succ', ← Nat.div_div_eq_div_mul,
        Nat.add_mul_div_left _ _ (by omega), Nat.div_eq_of_lt hb, Nat.zero_add]

/-- Two rows of bytes of one length stand for different numbers. -/
theorem ofLe_injective (hlen : a.length = b.length) (h : ofLe a = ofLe b) : a = b := by
  induction a generalizing b with
  | nil => exact (length_eq_zero_iff.1 hlen.symm).symm
  | cons x a ih =>
    cases b with
    | nil => cases hlen
    | cons y b =>
      have hx : x.toNat < 256 := x.toNat_lt
      have hy : y.toNat < 256 := y.toNat_lt
      simp only [ofLe] at h
      rw [UInt8.toNat_inj.1 (show x.toNat = y.toNat by omega),
        ih (by simpa using hlen) (show ofLe a = ofLe b by omega)]

/-- Bytes are those of the number they stand for. -/
theorem le_ofLe (h : bs.length = width) : le width (ofLe bs) = bs :=
  ofLe_injective (by rw [length_le, h]) (ofLe_le (h ▸ ofLe_lt bs))

/-- The low bytes of two words agree as far as their difference has zero bytes. -/
theorem take_eq_take_of_xor (hlen : a.length = b.length)
    (h : 256 ^ k ∣ ofLe a ^^^ ofLe b) : a.take k = b.take k := by
  refine ofLe_injective (by rw [length_take, length_take, hlen]) ?_
  have hmod := Nat.mod_eq_zero_of_dvd h
  rw [show 256 ^ k = 2 ^ (8 * k) by rw [Nat.pow_mul], Nat.xor_mod_two_pow, Nat.xor_eq_zero_iff,
    Nat.pow_mul] at hmod
  rw [← ofLe_mod, ← ofLe_mod]
  exact hmod

end Bytes
