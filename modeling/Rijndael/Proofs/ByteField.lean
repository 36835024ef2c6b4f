import Rijndael.Field
import Mathlib

/-!
# Bytes as elements of a field

`Rijndael.Field` computes with bytes by shifts, tests of bits and exclusive or.
This module supplies the field that those computations take place in: the
polynomials over the two-element field modulo `x⁸ + x⁴ + x³ + x + 1`. A byte
denotes the class of the polynomial whose coefficients are its bits, and each
operation on bytes denotes the operation of the field.

That the quotient is a field is proved from the bytes themselves. A proper
factor of the modulus would have degree at most four and be the polynomial of
a byte below `32`; each such byte is a unit, with the inverse that
`Field.inv` computes, and a unit divides the modulus only if it has degree
zero. The general law of inverses is not decided over the 256 bytes but is
Fermat's, since `inv` raises an element to the power `254`.

## Main results

* `element_bijective` — every class is denoted by exactly one byte.
* `element_xor`, `element_xtime`, `element_mul` — sums, multiples by `x` and
  products of bytes are those of the field.
* `irreducible_modulus` — the modulus is irreducible, so that `GF256` is a
  field.
* `element_inv` — `inv` is inversion in the field.
-/

namespace Rijndael.Field

open Polynomial

/-! ## The polynomial of a byte -/

/-- The reduction polynomial. -/
noncomputable def modulus : (ZMod 2)[X] := X ^ 8 + X ^ 4 + X ^ 3 + X + 1

/-- The polynomial of a byte: the coefficient of `X ^ i` is bit `i`. -/
noncomputable def polynomial (b : UInt8) : (ZMod 2)[X] :=
  ∑ i ∈ Finset.range 8, monomial i (if b.toBitVec.getLsbD i then 1 else 0)

theorem coeff_polynomial (b : UInt8) (n : Nat) :
    (polynomial b).coeff n = if b.toBitVec.getLsbD n then 1 else 0 := by
  by_cases hn : n < 8
  · simp [polynomial, coeff_monomial, hn]
  · have hbit : b.toBitVec.getLsbD n = false := BitVec.getLsbD_of_ge _ _ (by omega)
    simp [polynomial, coeff_monomial, hn, hbit]

theorem polynomial_zero : polynomial 0 = 0 := by
  ext n
  simp [coeff_polynomial]

theorem polynomial_one : polynomial 1 = 1 := by
  simp +decide [polynomial, Finset.sum_range_succ]

/-- Exclusive or adds coefficients. -/
theorem polynomial_xor (a b : UInt8) : polynomial (a ^^^ b) = polynomial a + polynomial b := by
  ext n
  simp only [coeff_polynomial, coeff_add, UInt8.toBitVec_xor, BitVec.getLsbD_xor]
  cases a.toBitVec.getLsbD n <;> cases b.toBitVec.getLsbD n <;> decide

theorem polynomial_injective : Function.Injective polynomial := by
  intro a b hab
  apply UInt8.toBitVec_inj.mp
  apply BitVec.eq_of_getLsbD_eq
  intro i _
  have hcoeff := congrArg (fun p => p.coeff i) hab
  simp only [coeff_polynomial] at hcoeff
  cases ha : a.toBitVec.getLsbD i <;> cases hb : b.toBitVec.getLsbD i <;> simp_all

theorem degree_polynomial_lt (b : UInt8) : (polynomial b).degree < (8 : ℕ) := by
  rw [degree_lt_iff_coeff_zero]
  intro n hn
  have hbit : b.toBitVec.getLsbD n = false := BitVec.getLsbD_of_ge _ _ hn
  simp [coeff_polynomial, hbit]

/-- The polynomials of degree at most seven are those of the bytes. -/
theorem exists_polynomial_eq {p : (ZMod 2)[X]} (hp : p.degree < (8 : ℕ)) :
    ∃ b, polynomial b = p := by
  refine ⟨⟨BitVec.ofFnLE fun i : Fin 8 => decide (p.coeff i = 1)⟩, ?_⟩
  ext n
  rw [coeff_polynomial, BitVec.getLsbD_ofFnLE]
  by_cases hn : n < 8
  · have hbit : ∀ c : ZMod 2, (if c = 1 then (1 : ZMod 2) else 0) = c := by decide
    simpa [hn] using hbit (p.coeff n)
  · simp [hn, (degree_lt_iff_coeff_zero p 8).mp hp n (by omega)]

private theorem polynomial_reduction : polynomial reduction = X ^ 4 + X ^ 3 + X + 1 := by
  simp +decide [polynomial, Finset.sum_range_succ, reduction, ← X_pow_eq_monomial]
  ring

/-- A shift multiplies by `X`, except that the coefficient of `X ^ 8` is
lost. -/
private theorem polynomial_shiftLeft_one (a : UInt8) :
    polynomial (a <<< 1) = X * polynomial a + if a.toBitVec.msb then X ^ 8 else 0 := by
  have hshift : (a <<< 1).toBitVec = a.toBitVec <<< 1 := rfl
  ext n
  rw [coeff_polynomial, hshift, BitVec.getLsbD_shiftLeft, coeff_add]
  cases n with
  | zero => simp [apply_ite (fun p : (ZMod 2)[X] => p.coeff 0)]
  | succ n =>
      rw [coeff_X_mul, coeff_polynomial, BitVec.msb_eq_getLsbD_last]
      rcases Nat.lt_trichotomy n 7 with hlt | rfl | hgt
      · cases a.toBitVec.getLsbD 7 <;>
          simp [coeff_X_pow, show n + 1 < 8 by omega, show n ≠ 7 by omega]
      · cases a.toBitVec.getLsbD 7 <;> simp [coeff_X_pow, CharTwo.add_self_eq_zero]
      · have hbit : a.toBitVec.getLsbD n = false := BitVec.getLsbD_of_ge _ _ (by omega)
        cases a.toBitVec.getLsbD 7 <;>
          simp [coeff_X_pow, hbit, show ¬ n + 1 < 8 by omega, show n ≠ 7 by omega]

/-- `xtime` multiplies by `X` and takes the modulus away if the degree has
become eight. -/
theorem polynomial_xtime (a : UInt8) :
    polynomial (xtime a) = X * polynomial a + if a.toBitVec.msb then modulus else 0 := by
  rw [xtime, polynomial_xor, polynomial_shiftLeft_one]
  split
  · rw [polynomial_reduction, modulus]
    ring
  · simp [polynomial_zero]

/-! ## The quotient -/

theorem modulus_monic : modulus.Monic := by
  unfold modulus
  monicity!

theorem natDegree_modulus : modulus.natDegree = 8 := by
  unfold modulus
  compute_degree!

theorem degree_modulus : modulus.degree = (8 : ℕ) := by
  rw [degree_eq_natDegree modulus_monic.ne_zero, natDegree_modulus]

/-- The polynomials over the two-element field modulo the reduction
polynomial. -/
abbrev GF256 := AdjoinRoot modulus

/-- The class that a byte denotes. -/
noncomputable def element (b : UInt8) : GF256 := AdjoinRoot.mk modulus (polynomial b)

@[simp] theorem element_zero : element 0 = 0 := by
  rw [element, polynomial_zero, map_zero]

@[simp] theorem element_one : element 1 = 1 := by
  rw [element, polynomial_one, map_one]

@[simp] theorem element_xor (a b : UInt8) : element (a ^^^ b) = element a + element b := by
  rw [element, polynomial_xor, map_add]
  rfl

/-- Every element is its own negative. -/
theorem two_eq_zero : (2 : GF256) = 0 := by
  rw [← one_add_one_eq_two, ← element_one, ← element_xor, UInt8.xor_self, element_zero]

@[simp] theorem element_xtime (a : UInt8) :
    element (xtime a) = AdjoinRoot.root modulus * element a := by
  rw [element, polynomial_xtime, map_add, map_mul, AdjoinRoot.mk_X]
  split <;> simp [element]

/-- Two polynomials of degree below that of the modulus are congruent only if
they are equal. -/
theorem element_injective : Function.Injective element := by
  intro a b hab
  rw [element, element, AdjoinRoot.mk_eq_mk] at hab
  have hdegree : (polynomial a - polynomial b).degree < modulus.degree := by
    rw [degree_modulus]
    exact lt_of_le_of_lt (degree_sub_le _ _)
      (max_lt (degree_polynomial_lt a) (degree_polynomial_lt b))
  exact polynomial_injective (sub_eq_zero.mp (eq_zero_of_dvd_of_degree_lt hab hdegree))

theorem element_surjective : Function.Surjective element := by
  intro x
  obtain ⟨p, rfl⟩ := AdjoinRoot.mk_surjective x
  have hdegree : (p %ₘ modulus).degree < (8 : ℕ) := by
    rw [← degree_modulus]
    exact degree_modByMonic_lt p modulus_monic
  obtain ⟨b, hb⟩ := exists_polynomial_eq hdegree
  refine ⟨b, ?_⟩
  rw [element, hb, AdjoinRoot.mk_eq_mk]
  exact ⟨-(p /ₘ modulus), by
    rw [mul_neg, sub_eq_iff_eq_add, ← sub_eq_neg_add, eq_sub_iff_add_eq]
    exact modByMonic_add_div p modulus⟩

/-- Every class is denoted by exactly one byte. -/
theorem element_bijective : Function.Bijective element :=
  ⟨element_injective, element_surjective⟩

/-- Bytes and elements of the field, matched to each other. -/
noncomputable def byteEquiv : UInt8 ≃ GF256 := Equiv.ofBijective element element_bijective

@[simp] theorem byteEquiv_apply (b : UInt8) : byteEquiv b = element b := rfl

/-- To find the byte of an element is to find a byte that denotes it. -/
theorem byteEquiv_symm_eq {x : GF256} {b : UInt8} (h : element b = x) : byteEquiv.symm x = b :=
  byteEquiv.symm_apply_eq.mpr h.symm

/-! ## Products

`mul` follows Horner's rule, so that the sum it has reached is the product of
its first argument with the higher coefficients of the second.
-/

/-- The denotation of a byte in powers of `x`. -/
private theorem element_eq_sum (b : UInt8) :
    element b =
      ∑ i ∈ Finset.range 8, if b.toBitVec.getLsbD i then AdjoinRoot.root modulus ^ i else 0 := by
  rw [element, polynomial, map_sum]
  refine Finset.sum_congr rfl fun i _ => ?_
  split <;> simp [← C_mul_X_pow_eq_monomial]

/-- Horner's rule over the bits from `start` on. -/
private theorem element_foldr_horner (a : UInt8) (bit : Nat → Bool) (start n : Nat) :
    element ((List.range' start n).foldr
        (fun i sum => xtime sum ^^^ (if bit i then a else 0)) 0) =
      (∑ i ∈ Finset.range n, if bit (start + i) then AdjoinRoot.root modulus ^ i else 0) *
        element a := by
  induction n generalizing start with
  | zero => simp
  | succ n ih =>
      rw [List.range'_succ, List.foldr_cons, element_xor, element_xtime, ih (start + 1),
        Finset.sum_range_succ', add_mul, ← mul_assoc, Finset.mul_sum]
      congr 1
      · congr 1
        refine Finset.sum_congr rfl fun i _ => ?_
        rw [mul_ite, mul_zero, ← pow_succ', show start + 1 + i = start + (i + 1) by omega]
      · cases bit start <;> simp

@[simp] theorem element_mul (a b : UInt8) : element (mul a b) = element a * element b := by
  rw [mul, List.range_eq_range', element_foldr_horner, element_eq_sum b, mul_comm]
  simp only [Nat.zero_add]

/-! ## Inverses -/

/-- A factor of the modulus that is not trivial would be one of these
bytes. -/
private theorem mul_inv_of_small (i : Fin 32) (hi : i ≠ 0) :
    mul (UInt8.ofNat i) (inv (UInt8.ofNat i)) = 1 := by
  revert i
  decide +kernel

private theorem exists_small_byte {p : (ZMod 2)[X]} (hp : p.natDegree ≤ 4) :
    ∃ i : Fin 32, polynomial (UInt8.ofNat i) = p := by
  have hdegree : p.degree < 8 := lt_of_le_of_lt (degree_le_of_natDegree_le hp) (by decide)
  obtain ⟨b, rfl⟩ := exists_polynomial_eq hdegree
  have hlt : b.toNat < 2 ^ 5 := by
    apply Nat.lt_pow_two_of_testBit
    intro n hn
    have hcoeff := coeff_eq_zero_of_natDegree_lt (lt_of_le_of_lt hp (Nat.lt_of_succ_le hn))
    rw [coeff_polynomial, BitVec.getLsbD] at hcoeff
    simpa using hcoeff
  exact ⟨⟨b.toNat, hlt⟩, by rw [UInt8.ofNat_toNat]⟩

/-- The modulus has no factor of degree one to four, since all polynomials of
such a degree are units of the quotient. -/
theorem irreducible_modulus : Irreducible modulus := by
  have hne : modulus ≠ 1 := fun h => by simpa [h] using natDegree_modulus
  rw [modulus_monic.irreducible_iff_lt_natDegree_lt hne, natDegree_modulus]
  intro p hmonic hdegree hdvd
  obtain ⟨hpos, hle⟩ := Finset.mem_Ioc.mp hdegree
  obtain ⟨i, rfl⟩ := exists_small_byte hle
  have hi : i ≠ 0 := by
    rintro rfl
    exact hmonic.ne_zero polynomial_zero
  have hunit : element (UInt8.ofNat i) * element (inv (UInt8.ofNat i)) = 1 := by
    rw [← element_mul, mul_inv_of_small i hi, element_one]
  rw [element, element, ← map_mul, ← map_one (AdjoinRoot.mk modulus), AdjoinRoot.mk_eq_mk] at hunit
  have hone : polynomial (UInt8.ofNat i) ∣ 1 :=
    (dvd_sub_right (dvd_mul_right _ _)).mp (hdvd.trans hunit)
  exact hpos.ne' (natDegree_eq_zero_of_isUnit (isUnit_of_dvd_one hone))

instance : Fact (Irreducible modulus) := ⟨irreducible_modulus⟩

theorem element_squaresProduct (n : Nat) (a : UInt8) :
    element (squaresProduct n a) = element a ^ (2 ^ (n + 1) - 2) := by
  induction n generalizing a with
  | zero => simp [squaresProduct]
  | succ n ih =>
      have hpos : 2 ≤ 2 ^ (n + 1) := Nat.le_self_pow (by omega) 2
      have hexp : 2 + 2 * (2 ^ (n + 1) - 2) = 2 ^ (n + 2) - 2 := by
        rw [Nat.pow_succ 2 (n + 1)]
        omega
      rw [squaresProduct, element_mul, ih, square, element_mul, ← pow_two, ← pow_mul, ← pow_add,
        hexp]

/-- Raising a nonzero element to the power `255` gives one. -/
private theorem element_pow_order {a : UInt8} (ha : a ≠ 0) : element a ^ 255 = 1 := by
  let _ : Fintype GF256 := Fintype.ofEquiv UInt8 byteEquiv
  have hcard : Fintype.card GF256 = 256 :=
    (Fintype.card_congr byteEquiv.symm).trans FinEnum.card_eq_fintypeCard.symm
  have hne : element a ≠ 0 := fun h => ha (element_injective (h.trans element_zero.symm))
  have hpow := FiniteField.pow_card_sub_one_eq_one (element a) hne
  rwa [hcard] at hpow

/-- `inv` is inversion in the field, and zero goes to zero. -/
@[simp] theorem element_inv (a : UInt8) : element (inv a) = (element a)⁻¹ := by
  rw [inv, element_squaresProduct]
  by_cases ha : a = 0
  · simp [ha]
  · apply eq_inv_of_mul_eq_one_right
    rw [← pow_succ']
    exact element_pow_order ha

end Rijndael.Field
